import Flowgraph.Graph.Codec
import Mathlib.Data.List.Induction

/-! The fields of objects stand in the order of their names, each name once, at every depth. All that
is read is like that, so the configs of a graph that has been read are. -/

namespace Flowgraph

theorem Except.exists_of_bind {ε α β : Type} {a : Except ε α} {f : α → Except ε β} {b : β}
    (h : a >>= f = .ok b) : ∃ v, a = .ok v ∧ f v = .ok b := by
  cases a with
  | error e => cases h
  | ok v => exact ⟨v, rfl, h⟩

namespace Fields

variable {α : Type} {fields : Fields α} {key : String} {value : α}

/-- Names stand in their order, each once. -/
def Ascending (fields : Fields α) : Prop := fields.keys.Pairwise (· < ·)

instance (fields : Fields α) : Decidable fields.Ascending := inferInstanceAs (Decidable (List.Pairwise _ _))

theorem Ascending.filter (h : fields.Ascending) (p : String × α → Bool) :
    Ascending (fields.filter p) :=
  List.Pairwise.sublist (List.filter_sublist.map Prod.fst) h

theorem mem_insert {kv : String × α} (h : kv ∈ insert key value fields) :
    kv = (key, value) ∨ kv ∈ fields := by
  induction fields with
  | nil => simpa [insert] using h
  | cons first rest ih =>
    obtain ⟨k, v⟩ := first
    rw [insert] at h
    split at h
    · exact (List.mem_cons.1 h).imp_right (List.mem_cons_of_mem _)
    · split at h
      · exact List.mem_cons.1 h
      · rcases List.mem_cons.1 h with rfl | h
        · exact .inr (List.mem_cons_self ..)
        · exact (ih h).imp_right (List.mem_cons_of_mem _)

theorem ascending_insert (h : fields.Ascending) : (insert key value fields).Ascending := by
  induction fields with
  | nil => simp [insert, Ascending, keys]
  | cons first rest ih =>
    obtain ⟨k, v⟩ := first
    obtain ⟨hfirst, hrest⟩ := List.pairwise_cons.1 h
    rw [insert]
    split
    · next he => exact he ▸ h
    · next hne =>
      split
      · next hlt =>
        refine List.pairwise_cons.2 ⟨fun other hother => ?_, h⟩
        rcases List.mem_cons.1 hother with rfl | hother
        · exact hlt
        · exact String.lt_trans hlt (hfirst other hother)
      · next hge =>
        refine List.pairwise_cons.2 ⟨fun other hother => ?_, ih hrest⟩
        obtain ⟨kv, hkv, rfl⟩ := List.mem_map.1 hother
        rcases mem_insert hkv with rfl | hkv
        · exact Std.lt_of_le_of_ne hge fun he => hne he.symm
        · exact hfirst kv.1 (List.mem_map_of_mem hkv)

/-- A name that comes after all others is put at the end. -/
theorem insert_last (h : ∀ k ∈ fields.keys, k < key) :
    insert key value fields = fields ++ [(key, value)] := by
  induction fields with
  | nil => rfl
  | cons first rest ih =>
    obtain ⟨k, v⟩ := first
    have hlt : k < key := h k (List.mem_cons_self ..)
    rw [insert, if_neg (String.ne_of_lt hlt).symm, if_neg (String.lt_asymm hlt),
      ih fun other hother => h other (List.mem_cons_of_mem _ hother), List.cons_append]

theorem ofList_concat (pairs : List (String × α)) (key : String) (value : α) :
    ofList (pairs ++ [(key, value)]) = insert key value (ofList pairs) := List.foldl_append

theorem ascending_ofList (pairs : List (String × α)) : (ofList pairs).Ascending := by
  induction pairs using List.reverseRecOn with
  | nil => exact .nil
  | append_singleton pairs kv ih => exact ofList_concat pairs kv.1 kv.2 ▸ ascending_insert ih

theorem mem_ofList {pairs : List (String × α)} {kv : String × α} (h : kv ∈ ofList pairs) :
    kv ∈ pairs := by
  induction pairs using List.reverseRecOn with
  | nil => exact h
  | append_singleton pairs last ih =>
    rw [ofList_concat] at h
    rcases mem_insert h with rfl | h
    · simp
    · exact List.mem_append_left _ (ih h)

end Fields

namespace Json

/-- The fields of all objects within the value stand in their order. -/
inductive Ordered : Json → Prop
  | null : Ordered .null
  | bool {b} : Ordered (.bool b)
  | number {n} : Ordered (.number n)
  | string {s} : Ordered (.string s)
  | array {items} : (∀ v ∈ items, Ordered v) → Ordered (.array items)
  | object {fields} : Fields.Ascending fields → (∀ kv ∈ fields, Ordered kv.2) → Ordered (.object fields)

namespace Document

theorem eq_of_close {α : Type} {stop : Option Break} {a b : α} (h : close stop a = .ok b) : a = b := by
  cases stop with
  | none => exact Except.ok.inj h
  | some stop => cases h

mutual

theorem ordered_toJson (d : Document) {src : Source} {v : Json} (h : toJson src d = .ok v) :
    v.Ordered := by
  cases d with
  | null => cases h; exact .null
  | bool => cases h; exact .bool
  | number n =>
    cases n with
    | none => cases h
    | some n => cases h; exact .number
  | string s =>
    cases s with
    | error m => cases h
    | ok s => cases h; exact .string
  | array items stop =>
    obtain ⟨src, -, h⟩ := Except.exists_of_bind h
    obtain ⟨read, hread, h⟩ := Except.exists_of_bind h
    obtain rfl := eq_of_close h
    exact .array (ordered_toItems items hread)
  | object fields stop =>
    obtain ⟨src, -, h⟩ := Except.exists_of_bind h
    obtain ⟨read, hread, h⟩ := Except.exists_of_bind h
    obtain rfl := eq_of_close h
    exact .object (Fields.ascending_ofList read) fun kv hkv =>
      ordered_toFields fields hread kv (Fields.mem_ofList hkv)
  | broken stop => cases h

theorem ordered_toItems (items : List Document) {src : Source} {read : List Json}
    (h : toItems src items = .ok read) : ∀ v ∈ read, v.Ordered := by
  cases items with
  | nil => cases h; simp
  | cons d rest =>
    obtain ⟨first, hfirst, h⟩ := Except.exists_of_bind h
    obtain ⟨more, hmore, h⟩ := Except.exists_of_bind h
    cases h
    exact List.forall_mem_cons.2 ⟨ordered_toJson d hfirst, ordered_toItems rest hmore⟩

theorem ordered_toFields (fields : List (Spelling × Document)) {src : Source}
    {read : List (String × Json)} (h : toFields src fields = .ok read) :
    ∀ kv ∈ read, kv.2.Ordered := by
  cases fields with
  | nil => cases h; simp
  | cons field rest =>
    obtain ⟨key, -, h⟩ := Except.exists_of_bind h
    obtain ⟨first, hfirst, h⟩ := Except.exists_of_bind h
    obtain ⟨more, hmore, h⟩ := Except.exists_of_bind h
    cases h
    exact List.forall_mem_cons.2 ⟨ordered_toJson field.2 hfirst, ordered_toFields rest hmore⟩

end

theorem ordered_toMap {d : Document} {src : Source} {fields : Fields Json}
    (h : toMap src d = .ok fields) : (Json.object fields).Ordered := by
  cases d with
  | object named stop =>
    obtain ⟨src, -, h⟩ := Except.exists_of_bind h
    obtain ⟨read, hread, h⟩ := Except.exists_of_bind h
    obtain rfl := eq_of_close h
    exact .object (Fields.ascending_ofList read) fun kv hkv =>
      ordered_toFields named hread kv (Fields.mem_ofList hkv)
  | null | bool | number | string | array | broken => cases h

theorem exists_of_mapM {α : Type} {item : Document → Except DecodeError α} {items : List Document}
    {read : List α} (h : items.mapM item = .ok read) : ∀ a ∈ read, ∃ d, item d = .ok a := by
  induction items generalizing read with
  | nil => cases h; simp
  | cons d rest ih =>
    rw [List.mapM_cons] at h
    obtain ⟨first, hfirst, h⟩ := Except.exists_of_bind h
    obtain ⟨more, hmore, h⟩ := Except.exists_of_bind h
    cases h
    exact List.forall_mem_cons.2 ⟨⟨d, hfirst⟩, ih hmore⟩

/-- Every item of a list that was read has been read by itself. -/
theorem exists_of_toList {α : Type} {item : Decoder α} {d : Document} {src : Source} {read : List α}
    (h : toList item src d = .ok read) : ∀ a ∈ read, ∃ src d, item src d = .ok a := by
  cases d with
  | array items stop =>
    obtain ⟨inner, -, h⟩ := Except.exists_of_bind h
    obtain ⟨all, hall, h⟩ := Except.exists_of_bind h
    obtain rfl := eq_of_close h
    exact fun a ha => ⟨inner, exists_of_mapM hall a ha⟩
  | null | bool | number | string | object | broken => cases h

end Document

namespace Shape

variable {σ : Type} {shape : Shape σ} {P : σ → Prop}

theorem readNamed_keeps
    (hread : ∀ m ∈ shape.members, ∀ src d s s', m.read src d s = .ok s' → P s → P s')
    {src : Source} {fields : List (Spelling × Document)} {s s' : σ}
    (h : shape.readNamed src fields s = .ok s') (hs : P s) : P s' := by
  induction fields generalizing s with
  | nil => cases h; exact hs
  | cons field rest ih =>
    obtain ⟨key, d⟩ := field
    rw [readNamed] at h
    obtain ⟨key, -, h⟩ := Except.exists_of_bind h
    split at h
    · split at h
      · cases h
      · exact ih h hs
    · next m hm =>
      split at h
      · cases h
      · obtain ⟨t, ht, h⟩ := Except.exists_of_bind h
        exact ih h (hread m (List.mem_of_find?_eq_some hm) src d s t ht hs)

theorem readListed_keeps {src : Source} {stop : Option Break} {members : List (Member σ)}
    (hread : ∀ m ∈ members, ∀ src d s s', m.read src d s = .ok s' → P s → P s')
    {position : Nat} {items more : List Document} {s s' : σ}
    (h : shape.readListed src stop position members items s = .ok (s', more)) (hs : P s) : P s' := by
  induction members generalizing position items s with
  | nil => cases h; exact hs
  | cons m ms ih =>
    have ih := fun {position items s} =>
      @ih (fun m hm => hread m (List.mem_cons_of_mem _ hm)) position items s
    cases items with
    | nil =>
      cases stop with
      | some stop => cases h
      | none =>
        rw [readListed] at h
        split at h
        · cases h
        · exact ih h hs
    | cons d items =>
      rw [readListed] at h
      obtain ⟨t, ht, h⟩ := Except.exists_of_bind h
      exact ih h (hread m (List.mem_cons_self ..) src d s t ht hs)

/-- What every field keeps holds of all that is read. -/
theorem decode_keeps
    (hread : ∀ m ∈ shape.members, ∀ src d s s', m.read src d s = .ok s' → P s → P s')
    (hempty : P shape.empty) {src : Source} {d : Document} {s : σ} (h : shape.decode src d = .ok s) :
    P s := by
  cases d with
  | object fields stop =>
    obtain ⟨inner, -, h⟩ := Except.exists_of_bind h
    obtain ⟨t, ht, h⟩ := Except.exists_of_bind h
    obtain ⟨u, hu, h⟩ := Except.exists_of_bind h
    obtain rfl := Document.eq_of_close hu
    split at h
    · cases h
    · cases h
      exact readNamed_keeps hread ht hempty
  | array items stop =>
    obtain ⟨inner, -, h⟩ := Except.exists_of_bind h
    obtain ⟨⟨t, more⟩, ht, h⟩ := Except.exists_of_bind h
    have hkept : P t := readListed_keeps hread ht hempty
    dsimp only at h
    split at h <;> cases h
    exact hkept
  | null | bool | number | string | broken => cases h

end Shape

end Json

/-- The configs of the nodes are in order. -/
def Graph.Ordered (graph : Graph) : Prop := ∀ node ∈ graph.nodes, (Json.object node.config).Ordered

theorem Node.ordered_of_decode {src : Json.Source} {d : Json.Document} {node : Node}
    (h : Node.decode src d = .ok node) : (Json.object node.config).Ordered := by
  cases hs : Node.shape.decode src d with
  | error e => rw [decode, hs] at h; cases h
  | ok draft =>
    rw [decode, hs] at h
    cases h
    have hempty : (Json.object []).Ordered := .object .nil (by simp)
    refine Json.Shape.decode_keeps (P := fun draft => (Json.object (draft.config.getD [])).Ordered)
      ?_ hempty hs
    intro m hm src d s s' h hs
    simp only [shape, List.mem_cons, List.not_mem_nil, or_false] at hm
    rcases hm with rfl | rfl | rfl | rfl <;> obtain ⟨v, hv, h⟩ := Except.exists_of_bind h <;> cases h
    · exact hs
    · exact hs
    · exact hs
    · exact Json.Document.ordered_toMap hv

/-- A graph that has been read is in order. -/
theorem Graph.ordered_of_decode {src : Json.Source} {d : Json.Document} {graph : Graph}
    (h : Graph.decode src d = .ok graph) : graph.Ordered := by
  cases hs : Graph.shape.decode src d with
  | error e => rw [decode, hs] at h; cases h
  | ok draft =>
    rw [decode, hs] at h
    cases h
    refine Json.Shape.decode_keeps
      (P := fun draft => ∀ node ∈ draft.nodes.getD [], (Json.object node.config).Ordered)
      ?_ (by simp [shape]) hs
    intro m hm src d s s' h hs
    simp only [shape, List.mem_cons, List.not_mem_nil, or_false] at hm
    rcases hm with rfl | rfl <;> obtain ⟨v, hv, h⟩ := Except.exists_of_bind h <;> cases h
    · intro node hnode
      obtain ⟨src, d, hnode⟩ := Json.Document.exists_of_toList hv node hnode
      exact Node.ordered_of_decode hnode
    · exact hs

end Flowgraph
