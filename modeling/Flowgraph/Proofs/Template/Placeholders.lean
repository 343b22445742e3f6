import Flowgraph.Template
import Mathlib.Data.List.Infix
import Mathlib.Data.List.TakeWhile

/-! Placeholders as places in a text. No two of them overlap, so going from the left finds every
one; what is between the braces is a reference if it reads as a name, a dot and a path. -/

namespace Flowgraph.Template

variable {cs body rest : List Char}

/-- What can stand between the braces. -/
def Braceless (body : List Char) : Prop := ∀ c ∈ body, isBrace c = false

theorem placeholder?_eq_some :
    placeholder? cs = some (body, rest) ↔ Braceless body ∧ cs = braced body ++ rest := by
  constructor
  · intro h
    refine ⟨?_, eq_of_placeholder? h⟩
    unfold placeholder? at h
    split at h
    · split at h
      · obtain ⟨rfl, -⟩ := Prod.mk.inj (Option.some.inj h)
        intro c hc
        simpa using List.mem_takeWhile_imp hc
      · cases h
    · cases h
  · rintro ⟨hbody, rfl⟩
    have all : ∀ c ∈ body, (!isBrace c) = true := fun c hc => by simp [hbody c hc]
    have hclose : (!isBrace '}') = false := rfl
    simp [braced, placeholder?, List.takeWhile_append_of_pos all,
      List.dropWhile_append_of_pos all, hclose]

/-- What is between the braces of the placeholders of a text, wherever one stands. -/
def bodies (cs : List Char) : List (List Char) :=
  cs.tails.filterMap fun rest => (placeholder? rest).map (·.1)

@[simp] theorem bodies_nil : bodies [] = [] := rfl

theorem bodies_cons (c : Char) (cs : List Char) :
    bodies (c :: cs) = ((placeholder? (c :: cs)).map (·.1)).toList ++ bodies cs := by
  rw [bodies, List.tails_cons, List.filterMap_cons]
  cases placeholder? (c :: cs) <;> rfl

theorem mem_bodies_iff : body ∈ bodies cs ↔ Braceless body ∧ braced body <:+: cs := by
  simp only [bodies, List.mem_filterMap, List.mem_tails, Option.map_eq_some_iff, Prod.exists,
    placeholder?_eq_some]
  constructor
  · rintro ⟨_, hsuffix, body', rest, ⟨hbody, rfl⟩, rfl⟩
    exact ⟨hbody, (List.prefix_append _ rest).isInfix.trans hsuffix.isInfix⟩
  · rintro ⟨hbody, before, rest, rfl⟩
    exact ⟨braced body ++ rest, ⟨before, by simp⟩, body, rest, ⟨hbody, rfl⟩, rfl⟩

section Scanning

theorem bodies_append {xs : List Char} (h : ∀ c ∈ xs, c ≠ '{') (ys : List Char) :
    bodies (xs ++ ys) = bodies ys := by
  induction xs with
  | nil => rfl
  | cons x xs ih =>
    rw [List.forall_mem_cons] at h
    have hnone : placeholder? (x :: (xs ++ ys)) = none := by
      unfold placeholder?
      split
      · next heq => exact absurd (List.cons.inj heq).1 h.1
      · rfl
    rw [List.cons_append, bodies_cons, hnone, ih h.2]
    rfl

/-- Within a placeholder none begins but itself. -/
theorem bodies_braced (hbody : Braceless body) (rest : List Char) :
    bodies (braced body ++ rest) = body :: bodies rest := by
  have hfirst : placeholder? (braced body ++ rest) = some (body, rest) :=
    placeholder?_eq_some.2 ⟨hbody, rfl⟩
  have hinner : ∀ c ∈ body ++ ['}', '}'], c ≠ '{' := by
    intro c hc
    rcases List.mem_append.1 hc with hc | hc
    · rintro rfl
      exact absurd (hbody '{' hc) (by decide)
    · rintro rfl
      exact absurd hc (by decide)
  obtain ⟨x, inner, hx⟩ : ∃ x inner, body ++ ['}', '}'] = x :: inner :=
    List.exists_cons_of_ne_nil (by simp)
  have hsecond : placeholder? ('{' :: (body ++ ['}', '}'] ++ rest)) = none := by
    rw [hx] at hinner ⊢
    unfold placeholder?
    split
    · next heq =>
      obtain ⟨rfl, -⟩ : x = '{' ∧ _ := by simpa using heq
      exact absurd rfl (hinner _ (by simp))
    · rfl
  have htext : braced body ++ rest = '{' :: '{' :: (body ++ ['}', '}'] ++ rest) := rfl
  rw [htext] at hfirst ⊢
  rw [bodies_cons, hfirst, bodies_cons, hsecond, bodies_append hinner]
  rfl

def Piece.body? : Piece → Option (List Char)
  | .text _ => none
  | .placeholder body => some body

theorem filterMap_push (c : Char) (found : List Piece) :
    (push c found).filterMap Piece.body? = found.filterMap Piece.body? := by
  cases found with
  | nil => rfl
  | cons piece found => cases piece <;> rfl

theorem filterMap_pieces (cs : List Char) : (pieces cs).filterMap Piece.body? = bodies cs := by
  induction cs using pieces.induct with
  | case1 => simp [pieces]
  | case2 c cs body rest h _ ih =>
    rw [pieces]
    split
    · next body' rest' h' =>
      obtain ⟨rfl, rfl⟩ : body = body' ∧ rest = rest' := by simpa [h] using h'
      obtain ⟨hbody, htext⟩ := placeholder?_eq_some.1 h
      have hbodies : bodies (c :: cs) = body :: bodies rest := by
        rw [htext, bodies_braced hbody]
      simp [Piece.body?, ih, hbodies]
    · next h' => simp [h] at h'
  | case3 c cs h ih =>
    rw [pieces]
    split
    · next h' => simp [h] at h'
    · rw [filterMap_push, ih, bodies_cons, h]
      rfl

theorem bodies_eq_nil_iff {text : String} :
    bodies text.toList = [] ↔ hasPlaceholder text = false := by
  rw [hasPlaceholder, List.any_eq_false, ← filterMap_pieces, List.filterMap_eq_nil_iff]
  refine forall₂_congr fun piece _ => ?_
  cases piece <;> simp [Piece.body?]

/-- Whatever plain text gives nothing for goes from placeholder to placeholder. -/
theorem flatMap_pieces {β : Type} (f : Piece → List β) (plain : ∀ cs, f (.text cs) = [])
    (cs : List Char) : (pieces cs).flatMap f = (bodies cs).flatMap fun body => f (.placeholder body) := by
  rw [← filterMap_pieces]
  induction pieces cs with
  | nil => rfl
  | cons piece found ih =>
    cases piece with
    | text t => rw [List.flatMap_cons, plain, List.nil_append, ih]; rfl
    | placeholder body => rw [List.flatMap_cons, ih]; rfl

end Scanning

section References

/-- The body of a placeholder calls a node by this name: the name, a dot and a path, no part of it
blank. -/
def Calls (body : List Char) (name : String) : Prop :=
  ∃ first path, Text.trimChars body = first ++ '.' :: path ∧ '.' ∉ first ∧
    Text.trimChars first ≠ [] ∧ name = String.ofList (Text.trimChars first) ∧
    ∀ segment ∈ Text.splitAt '.' path, Text.trimChars segment ≠ []

theorem splitFirst_append {sep : Char} {first path : List Char} (h : sep ∉ first) :
    Text.splitFirst sep (first ++ sep :: path) = some (first, path) := by
  induction first with
  | nil => simp [Text.splitFirst]
  | cons c first ih =>
    simp only [List.mem_cons, not_or] at h
    simp [Text.splitFirst, Ne.symm h.1, ih h.2]

theorem isSome_parseChars (path : List Char) :
    (Path.parseChars path).isSome ↔
      ∀ segment ∈ Text.splitAt '.' path, Text.trimChars segment ≠ [] := by
  simp [Path.parseChars]

theorem reference?_eq_some {r : Reference} :
    reference? body = some r ↔ ∃ first path p, Text.trimChars body = first ++ '.' :: path ∧
      '.' ∉ first ∧ Text.trimChars first ≠ [] ∧ Path.parseChars path = some p ∧
      r = ⟨String.ofList (Text.trimChars first), p, String.ofList (braced body)⟩ := by
  constructor
  · intro h
    simp only [reference?, Option.bind_eq_bind, Option.bind_eq_some_iff, Prod.exists] at h
    obtain ⟨first, path, hsplit, hrest⟩ := h
    obtain ⟨htrim, hfirst⟩ := Text.splitFirst_eq_some hsplit
    split at hrest
    · cases hrest
    · next hne =>
      obtain ⟨p, hp, hr⟩ := Option.bind_eq_some_iff.1 hrest
      exact ⟨first, path, p, htrim, hfirst, by simpa using hne, hp, (Option.some.inj hr).symm⟩
  · rintro ⟨first, path, p, htrim, hfirst, hne, hp, rfl⟩
    simp [reference?, htrim, splitFirst_append hfirst, hne, hp]

theorem calls_iff {name : String} :
    Calls body name ↔ ∃ r, reference? body = some r ∧ r.node = name := by
  simp only [reference?_eq_some]
  constructor
  · rintro ⟨first, path, htrim, hfirst, hne, rfl, hpath⟩
    obtain ⟨p, hp⟩ := Option.isSome_iff_exists.1 ((isSome_parseChars path).2 hpath)
    exact ⟨_, ⟨first, path, p, htrim, hfirst, hne, hp, rfl⟩, rfl⟩
  · rintro ⟨_, ⟨first, path, p, htrim, hfirst, hne, hp, rfl⟩, rfl⟩
    exact ⟨first, path, htrim, hfirst, hne, rfl,
      (isSome_parseChars path).1 (Option.isSome_iff_exists.2 ⟨p, hp⟩)⟩

theorem raw_of_reference? {r : Reference} (h : reference? body = some r) :
    r.raw = String.ofList (braced body) := by
  obtain ⟨_, _, _, -, -, -, -, rfl⟩ := reference?_eq_some.1 h
  rfl

/-- The name that a placeholder calls a node by. -/
def called (body : List Char) : Option String := (reference? body).map (·.node)

theorem called_eq_some {body : List Char} {name : String} :
    called body = some name ↔ Calls body name := by
  rw [calls_iff, called, Option.map_eq_some_iff]

theorem malformed_eq (found : List Piece) :
    malformed (found.map segment) =
      ((found.filterMap Piece.body?).filter fun body => (called body).isNone).map
        fun body => String.ofList (braced body) := by
  induction found with
  | nil => rfl
  | cons piece found ih =>
    cases piece with
    | text t => exact ih
    | placeholder body =>
      have hbody : Piece.body? (.placeholder body) = some body := rfl
      rw [List.filterMap_cons_some hbody, List.filter_cons, called, Option.isNone_map,
        List.map_cons]
      unfold malformed at ih ⊢
      rw [List.filterMap_cons, segment]
      cases reference? body with
      | none => simp [ih]
      | some r => simp [ih]

end References

end Flowgraph.Template
