/-! Named values kept in the order of their names, each name once. Names are ordered by
code point. -/

namespace Flowgraph

abbrev Fields (α : Type) := List (String × α)

namespace Fields

variable {α : Type}

/-- A value under a name that is already there takes its place. -/
def insert (key : String) (value : α) : Fields α → Fields α
  | [] => [(key, value)]
  | (k, v) :: rest =>
    if key = k then (key, value) :: rest
    else if key < k then (key, value) :: (k, v) :: rest
    else (k, v) :: insert key value rest

def ofList (pairs : List (String × α)) : Fields α :=
  pairs.foldl (fun fields (key, value) => insert key value fields) []

def keys (fields : Fields α) : List String := fields.map (·.1)

theorem lookup_insert_self (key : String) (value : α) (fields : Fields α) :
    (insert key value fields).lookup key = some value := by
  induction fields with
  | nil => simp [insert]
  | cons kv rest ih =>
    obtain ⟨k, v⟩ := kv
    rw [insert]
    split
    · simp
    · next hne =>
      split
      · simp
      · simp [List.lookup_cons, beq_eq_false_iff_ne.2 hne, ih]

theorem lookup_insert_of_ne {key other : String} (h : other ≠ key) (value : α)
    (fields : Fields α) : (insert key value fields).lookup other = fields.lookup other := by
  have h' := beq_eq_false_iff_ne.2 h
  induction fields with
  | nil => simp [insert, List.lookup_cons, h']
  | cons kv rest ih =>
    obtain ⟨k, v⟩ := kv
    rw [insert]
    split
    · next hk => subst hk; simp [List.lookup_cons, h']
    · split
      · simp [List.lookup_cons, h']
      · simp [List.lookup_cons, ih]

end Fields

end Flowgraph
