import Flowgraph.Proofs.Json.Ordered
import Flowgraph.Workflow

/-! Graphs as JSON, and back. A graph comes back from its JSON as it was exactly if its configs are in
order, and all that is read is. So a graph that has been read in whatever form, with names that mean
nothing passed over, with parts left out or null and with structures as lists, is read again from its own
JSON. -/

namespace Flowgraph

theorem Except.ok_bind {ε α β : Type} (a : α) (f : α → Except ε β) : (.ok a >>= f) = f a := rfl

theorem Fields.ofList_of_ascending {α : Type} {fields : Fields α} (h : fields.Ascending) :
    ofList fields = fields := by
  induction fields using List.reverseRecOn with
  | nil => rfl
  | append_singleton before last ih =>
    rw [Ascending, keys, List.map_append, List.pairwise_append] at h
    obtain ⟨hbefore, -, hlast⟩ := h
    rw [ofList_concat, ih hbefore, insert_last fun key hkey => hlast key hkey last.1 (by simp)]

namespace Json

/-- A value may nest as deep as it likes. -/
theorem Source.enter_value : Source.value.enter = .ok Source.value := rfl

namespace Document

mutual

/-- A value in order is read from its document as it was. -/
theorem toJson_ofJson (v : Json) (h : v.Ordered) : toJson .value (ofJson v) = .ok v := by
  cases v with
  | null | bool | number | string => rfl
  | array items =>
    cases h with
    | array hitems =>
      rw [ofJson, toJson, Source.enter_value, Except.ok_bind, toItems_ofItems items hitems,
        Except.ok_bind, close]
  | object fields =>
    cases h with
    | object hascending hvalues =>
      rw [ofJson, toJson, Source.enter_value, Except.ok_bind, toFields_ofFields fields hvalues,
        Except.ok_bind, close, Fields.ofList_of_ascending hascending]

theorem toItems_ofItems (items : List Json) (h : ∀ v ∈ items, v.Ordered) :
    toItems .value (ofItems items) = .ok items := by
  cases items with
  | nil => rfl
  | cons v rest =>
    obtain ⟨hv, hrest⟩ := List.forall_mem_cons.1 h
    rw [ofItems, toItems, toJson_ofJson v hv, toItems_ofItems rest hrest]
    rfl

theorem toFields_ofFields (fields : List (String × Json)) (h : ∀ kv ∈ fields, kv.2.Ordered) :
    toFields .value (ofFields fields) = .ok fields := by
  cases fields with
  | nil => rfl
  | cons kv rest =>
    obtain ⟨hv, hrest⟩ := List.forall_mem_cons.1 h
    rw [ofFields, toFields, toJson_ofJson kv.2 hv, toFields_ofFields rest hrest]
    rfl

end

theorem toMap_ofFields {fields : Fields Json} (h : (Json.object fields).Ordered) :
    toMap .value (.object (ofFields fields) none) = .ok fields := by
  cases h with
  | object hascending hvalues =>
    rw [toMap, Source.enter_value, Except.ok_bind, toFields_ofFields fields hvalues, Except.ok_bind,
      close, Fields.ofList_of_ascending hascending]

/-- A list is read back if its items are. -/
theorem toList_ofItems {α : Type} {item : Decoder α} {toJson : α → Json} {as : List α}
    (h : ∀ a ∈ as, item .value (ofJson (toJson a)) = .ok a) :
    toList item .value (.array (ofItems (as.map toJson)) none) = .ok as := by
  have hitems : (ofItems (as.map toJson)).mapM (item .value) = .ok as := by
    induction as with
    | nil => rfl
    | cons a rest ih =>
      obtain ⟨ha, hrest⟩ := List.forall_mem_cons.1 h
      rw [List.map_cons, ofItems, List.mapM_cons, ha, Except.ok_bind, ih hrest]
      rfl
  rw [toList, Source.enter_value, Except.ok_bind, hitems, Except.ok_bind, close]

end Document

namespace Shape

variable {σ : Type} {shape : Shape σ} {src : Source}

theorem readNamed_cons {key : String} {d : Document} {rest : List (Spelling × Document)} {s s' : σ}
    {m : Member σ} (hm : shape.members.find? (·.name = key) = some m) (hnew : m.isRead s = false)
    (hread : m.read src d s = .ok s') :
    shape.readNamed src ((.ok key, d) :: rest) s = shape.readNamed src rest s' := by
  rw [readNamed, Document.spelled, Except.mapError, Except.ok_bind]
  simp only [hm, hnew, Bool.false_eq_true, if_false]
  rw [hread, Except.ok_bind]

theorem decode_object {fields : List (Spelling × Document)} {s : σ}
    (hread : shape.readNamed .value fields shape.empty = .ok s) (hwhole : shape.missing s = none) :
    shape.decode .value (.object fields none) = .ok s := by
  rw [decode, Source.enter_value, Except.ok_bind, hread, Except.ok_bind, Document.close,
    Except.ok_bind, hwhole]
  rfl

end Shape

end Json

open Json (Document Source)

/-- A name that is left out is read as none. -/
theorem Node.decode_toJson {node : Node} (h : (Json.object node.config).Ordered) :
    Node.decode .value (Document.ofJson node.toJson) = .ok node := by
  obtain ⟨id, stepType, name, config⟩ := node
  -- Only the config takes more than a look at the document to read.
  have hconfig : ∀ rest, shape.readNamed .value
      ((.ok "config", .object (Document.ofFields config) none) :: rest) shape.empty =
        shape.readNamed .value rest ⟨none, none, none, some config⟩ := fun rest =>
    Json.Shape.readNamed_cons rfl rfl (congrArg (· >>= _) (Document.toMap_ofFields h))
  have hread : shape.decode .value (Document.ofJson (toJson ⟨id, stepType, name, config⟩)) =
      .ok ⟨some id, some stepType, name.map some, some config⟩ := by
    cases name with
    | none => exact Json.Shape.decode_object ((hconfig _).trans rfl) rfl
    | some name => exact Json.Shape.decode_object ((hconfig _).trans rfl) rfl
  rw [decode, hread]
  cases name <;> rfl

theorem Edge.decode_toJson (edge : Edge) :
    Edge.decode .value (Document.ofJson edge.toJson) = .ok edge := rfl

namespace Graph

variable {graph : Graph}

theorem ofJson_toJson (h : graph.Ordered) : ofJson graph.toJson = .ok graph := by
  obtain ⟨nodes, edges⟩ := graph
  have hnodes := Document.toList_ofItems fun node hnode => Node.decode_toJson (h node hnode)
  have hedges := Document.toList_ofItems fun edge (_ : edge ∈ edges) => Edge.decode_toJson edge
  have hread : shape.decode .value (Document.ofJson (toJson ⟨nodes, edges⟩)) =
      .ok ⟨some nodes, some edges⟩ :=
    Json.Shape.decode_object
      ((Json.Shape.readNamed_cons rfl rfl (congrArg (· >>= _) hedges)).trans
        (Json.Shape.readNamed_cons rfl rfl (congrArg (· >>= _) hnodes))) rfl
  rw [ofJson, Json.Decoder.ofJson, decode, hread]
  rfl

theorem ordered_of_ofJson {v : Json} (h : ofJson v = .ok graph) : graph.Ordered := ordered_of_decode h

/-- A graph comes back from its JSON exactly if its configs are maps, with names in order and each once at
every depth. A graph that was read, from whatever form, is such a one; so is the graph of a stored
workflow, and storing it anew changes nothing. -/
theorem json_faithful :
    (∀ graph : Graph, ofJson graph.toJson = .ok graph ↔ graph.Ordered) ∧
      (∀ v graph, ofJson v = .ok graph → ofJson graph.toJson = .ok graph) ∧
      ∀ row w, Workflow.ofRow row = .ok w →
        Workflow.ofRow { row with definition := w.graph.toJson } = .ok w := by
  refine ⟨fun graph => ⟨ordered_of_ofJson, ofJson_toJson⟩, fun v graph h =>
    ofJson_toJson (ordered_of_ofJson h), fun row w h => ?_⟩
  rw [Workflow.ofRow] at h ⊢
  cases hread : ofJson row.definition with
  | error e => rw [hread] at h; cases h
  | ok graph =>
    rw [hread] at h
    cases h
    rw [ofJson_toJson (ordered_of_ofJson hread)]
    rfl

/-- Two nodes and an edge: a node and the edge are lists, a name is null, and there are names that mean
nothing. -/
def sparse : Json :=
  .object [
    ("edges", .array [.array [.string "a", .string "b"]]),
    ("nodes", .array [
      .array [.string "a", .string "echo"],
      .object [("colour", .string "red"), ("config", .object [("k", .array [.null])]), ("id", .string "b"),
        ("name", .null), ("type", .string "echo")]]),
    ("version", .int 2)]

def sparseGraph : Graph :=
  ⟨[⟨"a", "echo", none, []⟩, ⟨"b", "echo", none, [("k", .array [.null])]⟩], [⟨"a", "b"⟩]⟩

def sparseRow : WorkflowRow := ⟨.nil, .nil, "sparse", sparse, .ofMicros 0⟩

def sparseWorkflow : Workflow := ⟨.nil, .nil, "sparse", sparseGraph, .ofMicros 0⟩

theorem sparse_reread :
    ofJson sparse = .ok sparseGraph ∧ ofJson sparseGraph.toJson = .ok sparseGraph ∧
      Workflow.ofRow sparseRow = .ok sparseWorkflow ∧
      Workflow.ofRow { sparseRow with definition := sparseWorkflow.graph.toJson } =
        .ok sparseWorkflow := by
  have hread : ofJson sparse = .ok sparseGraph := by decide +kernel
  have hrow : Workflow.ofRow sparseRow = .ok sparseWorkflow := by decide +kernel
  exact ⟨hread, json_faithful.2.1 sparse sparseGraph hread, hrow,
    json_faithful.2.2 sparseRow sparseWorkflow hrow⟩

end Graph

end Flowgraph
