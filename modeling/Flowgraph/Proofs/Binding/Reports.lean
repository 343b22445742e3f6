import Flowgraph.Config
import Flowgraph.Proofs.Json.Texts
import Flowgraph.Proofs.Template.Placeholders

/-! What compiling a config reports, text by text and placeholder by placeholder. A malformed
placeholder keeps the others of its text from being looked up, and those of no other text. -/

namespace Flowgraph

namespace Scope

variable (scope : Scope)

section Reference

variable {scope} {r : Reference} {t u : Fin scope.graph.nodes.length}
  {rest : List (Fin scope.graph.nodes.length)}

theorem compileSegment_of_nil (h : scope.graph.bearers r.node = []) :
    (scope.compileSegment (.reference r)).2 = [.unknownTemplateNode scope.node r.raw r.node] := by
  simp [compileSegment, resolve, h]

theorem compileSegment_of_singleton (h : scope.graph.bearers r.node = [t]) :
    (scope.compileSegment (.reference r)).2 =
      if scope.ancestors.get t then []
      else [.notADependency scope.node r.raw (scope.graph.node t).id] := by
  have hget : scope.ancestors[t] = scope.ancestors.get t := rfl
  rw [compileSegment, resolve, h]
  dsimp only
  rw [hget]
  cases scope.ancestors.get t <;> rfl

theorem compileSegment_of_cons_cons (h : scope.graph.bearers r.node = t :: u :: rest) :
    (scope.compileSegment (.reference r)).2 =
      [.ambiguousTemplateNode scope.node r.raw r.node] := by
  simp [compileSegment, resolve, h]

end Reference

/-- What a piece of a text is reported for, if no placeholder of the text is malformed. -/
def pieceViolations (piece : Template.Piece) : List Violation :=
  match Template.segment piece with
  | .ok segment => (scope.compileSegment segment).2
  | .error _ => []

theorem flatMap_segments (found : List Template.Piece) :
    (((found.map Template.segment).filterMap Except.toOption).map scope.compileSegment).flatMap
      (·.2) = found.flatMap scope.pieceViolations := by
  induction found with
  | nil => rfl
  | cons piece found ih =>
    rw [List.map_cons, List.filterMap_cons, List.flatMap_cons, pieceViolations, ← ih]
    cases Template.segment piece <;> simp [Except.toOption]

theorem compileText_snd (text : String) :
    (scope.compileText text).2 =
      match (Template.bodies text.toList).filter fun body => (Template.called body).isNone with
      | [] => (Template.bodies text.toList).flatMap fun body =>
        scope.pieceViolations (.placeholder body)
      | bad => bad.map fun body =>
        .malformedReference scope.node (String.ofList (Template.braced body)) := by
  have hmalformed := Template.malformed_eq (Template.pieces text.toList)
  rw [Template.filterMap_pieces] at hmalformed
  rw [compileText, Template.parse, hmalformed]
  cases (Template.bodies text.toList).filter fun body => (Template.called body).isNone with
  | nil =>
    simp only [List.map_nil]
    rw [flatMap_segments, Template.flatMap_pieces _ (fun _ => rfl)]
  | cons body bad => simp

mutual

theorem compileValue_snd (v : Json) :
    (scope.compileValue v).2 = v.texts.flatMap fun text => (scope.compileText text).2 := by
  cases v with
  | null | bool | number => simp [compileValue, Json.texts]
  | string s => simp [compileValue, Json.texts]
  | array items => simpa [compileValue, Json.texts] using compileItems_snd items
  | object fields => simpa [compileValue, Json.texts] using compileFields_snd fields

theorem compileItems_snd (items : List Json) :
    (scope.compileItems items).flatMap (·.2) =
      (Json.textsOfItems items).flatMap fun text => (scope.compileText text).2 := by
  cases items with
  | nil => rfl
  | cons v rest =>
    rw [compileItems, Json.textsOfItems, List.flatMap_cons, List.flatMap_append,
      compileValue_snd v, compileItems_snd rest]

theorem compileFields_snd (fields : List (String × Json)) :
    (scope.compileFields fields).flatMap (·.2.2) =
      (Json.textsOfFields fields).flatMap fun text => (scope.compileText text).2 := by
  cases fields with
  | nil => rfl
  | cons kv rest =>
    rw [compileFields, Json.textsOfFields, List.flatMap_cons, List.flatMap_append,
      compileValue_snd kv.2, compileFields_snd rest]

end

theorem compileText_of_plain {text : String} (plain : Template.hasPlaceholder text = false) :
    (scope.compileText text).2 = [] := by
  simp [compileText_snd, Template.bodies_eq_nil_iff.2 plain]

/-- The text that chooses the integration is not compiled, but it has no placeholders either. -/
theorem compileConfig_violations (config : Fields Json) :
    (scope.compileConfig config).violations =
      (Json.textsOfFields config).flatMap fun text => (scope.compileText text).2 := by
  simp only [compileConfig, compileFields_snd, Json.textsOfFields_eq_flatMap]
  induction config with
  | nil => rfl
  | cons kv config ih =>
    obtain ⟨key, v⟩ := kv
    rw [List.filter_cons]
    cases hint : integration? key v with
    | none => simpa [hint] using ih
    | some id =>
      unfold integration? at hint
      split at hint
      · next text =>
        split at hint
        · next hplain =>
          have htext : Template.hasPlaceholder text = false := by
            simpa using (Bool.and_eq_true_iff.1 hplain).2
          have := compileText_of_plain scope htext
          simp_all [Json.texts, integration?]
        · cases hint
      · cases hint

end Scope

end Flowgraph
