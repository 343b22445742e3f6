import Flowgraph.Redaction.Value

/-! What a redacted value tells of the value it was made from. Nothing of what stands under secret
fields, and all of the form outside of them. -/

namespace Flowgraph

/-- A step into a value. -/
inductive Descent
  | item (place : Nat)
  | field (key : String)

/-- What stands at the end of a path. -/
def Json.at? : (path : List Descent) → Json → Option Json
  | [], v => some v
  | .item place :: path, .array items => items[place]?.bind (at? path)
  | .item _ :: _, _ => none
  | .field key :: path, v => (v.field? key).bind (at? path)

namespace Redaction

section Secrets

mutual

/-- Two values that differ at most in what is not null and stands under secret fields. -/
inductive SameInOpen : Json → Json → Prop
  | same (v : Json) : SameInOpen v v
  | array {items items' : List Json} (all : SameItems items items') :
      SameInOpen (.array items) (.array items')
  | object {fields fields' : List (String × Json)} (all : SameFields fields fields') :
      SameInOpen (.object fields) (.object fields')

inductive SameItems : List Json → List Json → Prop
  | nil : SameItems [] []
  | cons {v v' : Json} {rest rest' : List Json} (first : SameInOpen v v')
      (others : SameItems rest rest') : SameItems (v :: rest) (v' :: rest')

inductive SameFields : List (String × Json) → List (String × Json) → Prop
  | nil : SameFields [] []
  | open {key : String} {v v' : Json} {rest rest' : List (String × Json)} (first : SameInOpen v v')
      (others : SameFields rest rest') : SameFields ((key, v) :: rest) ((key, v') :: rest')
  | secret {key : String} {v v' : Json} {rest rest' : List (String × Json)}
      (isSecret : isSensitiveKey key = true) (held : v.isNull = false) (held' : v'.isNull = false)
      (others : SameFields rest rest') : SameFields ((key, v) :: rest) ((key, v') :: rest')

end

theorem SameInOpen.isNull {v v' : Json} (same : SameInOpen v v') : v.isNull = v'.isNull := by
  cases same <;> rfl

mutual

theorem SameInOpen.redact {v v' : Json} : SameInOpen v v' → redact v = redact v'
  | .same _ => rfl
  | .array all => by simp only [Redaction.redact, all.redactItems]
  | .object all => by simp only [Redaction.redact, all.redactFields]

theorem SameItems.redactItems {items items' : List Json} :
    SameItems items items' → redactItems items = redactItems items'
  | .nil => rfl
  | .cons first others => by
    simp only [Redaction.redactItems, first.redact, others.redactItems]

theorem SameFields.redactFields {fields fields' : List (String × Json)} :
    SameFields fields fields' → redactFields fields = redactFields fields'
  | .nil => rfl
  | .open first others => by
    simp only [Redaction.redactFields, first.isNull, first.redact, others.redactFields]
  | .secret isSecret held held' others => by
    simp [Redaction.redactFields, isSecret, held, held', others.redactFields]

end

end Secrets

section Form

/-- No secret field is on the way. -/
def InOpen (path : List Descent) : Prop := ∀ key, .field key ∈ path → isSensitiveKey key = false

theorem inOpen_cons {step : Descent} {path : List Descent} :
    InOpen (step :: path) ↔ (∀ key, step = .field key → isSensitiveKey key = false) ∧ InOpen path := by
  simp only [InOpen, List.mem_cons, or_imp, forall_and, eq_comm]

/-- Objects with the same keys, arrays of the same length, two strings, or the same number, truth
value or null. -/
def SameForm : Json → Json → Prop
  | .object fields, .object fields' => fields.map Prod.fst = fields'.map Prod.fst
  | .array items, .array items' => items.length = items'.length
  | .string _, .string _ => True
  | v, v' => v = v'

theorem redactItems_eq (items : List Json) : redactItems items = items.map redact := by
  induction items with
  | nil => rfl
  | cons v rest ih => rw [redactItems, ih, List.map_cons]

theorem keys_redactFields (fields : List (String × Json)) :
    (redactFields fields).map Prod.fst = fields.map Prod.fst := by
  induction fields with
  | nil => rfl
  | cons kv rest ih => rw [redactFields, List.map_cons, List.map_cons, ih]

theorem sameForm_redact (v : Json) : SameForm v (redact v) := by
  cases v with
  | object fields => exact (keys_redactFields fields).symm
  | array items => simp [redact, SameForm, redactItems_eq]
  | string s => trivial
  | null | bool b | number n => rfl

theorem lookup_redactFields {key : String} (notSecret : isSensitiveKey key = false)
    (fields : List (String × Json)) :
    (redactFields fields).lookup key = (fields.lookup key).map redact := by
  induction fields with
  | nil => rfl
  | cons kv rest ih =>
    obtain ⟨key', v⟩ := kv
    rw [redactFields, List.lookup_cons, List.lookup_cons, ih]
    by_cases hkey : key = key'
    · subst hkey
      cases v <;> simp [notSecret, Json.isNull, redact]
    · rw [beq_eq_false_iff_ne.2 hkey]

theorem field?_redact {key : String} (notSecret : isSensitiveKey key = false) (v : Json) :
    (redact v).field? key = (v.field? key).map redact := by
  cases v with
  | object fields => exact lookup_redactFields notSecret fields
  | _ => simp [redact, Json.field?]

/-- In the open, redaction works place by place. -/
theorem at?_redact {path : List Descent} (inOpen : InOpen path) (v : Json) :
    (redact v).at? path = (v.at? path).map redact := by
  induction path generalizing v with
  | nil => rfl
  | cons step path ih =>
    obtain ⟨hstep, hpath⟩ := inOpen_cons.1 inOpen
    cases step with
    | field key =>
      simp only [Json.at?, field?_redact (hstep key rfl), Option.bind_map, Option.map_bind]
      exact congrArg _ (funext (ih hpath))
    | item place =>
      cases v with
      | array items =>
        simp only [redact, Json.at?, redactItems_eq, List.getElem?_map, Option.bind_map,
          Option.map_bind]
        exact congrArg _ (funext (ih hpath))
      | _ => simp [redact, Json.at?]

end Form

/-- Values that are the same but for what stands under secret fields cannot be told apart once they
are redacted, and in the open every part of a value keeps its form. -/
theorem redact_tells_form_only (v w : Json) :
    (SameInOpen v w → redact v = redact w) ∧
      ∀ path, InOpen path → (redact v).at? path = (v.at? path).map redact ∧
        ∀ u ∈ v.at? path, SameForm u (redact u) :=
  ⟨SameInOpen.redact, fun _ inOpen => ⟨at?_redact inOpen v, fun u _ => sameForm_redact u⟩⟩

/-- A secret text against a secret object, and the name beside it. -/
theorem redact_tells_form_only_of_user :
    redact (.array [.object [("name", .string "ada"), ("api-key", .string "k")]]) =
        redact (.array [.object [("name", .string "ada"), ("api-key", .object [("a", .int 1)])]]) ∧
      (redact (.array [.object [("name", .string "ada"), ("api-key", .string "k")]])).at?
          [.item 0, .field "name"] = some (redact (.string "ada")) :=
  have told := redact_tells_form_only
    (.array [.object [("name", .string "ada"), ("api-key", .string "k")]])
    (.array [.object [("name", .string "ada"), ("api-key", .object [("a", .int 1)])]])
  ⟨told.1 (.array (.cons (.object (.open (.same _)
      (.secret (by decide +kernel) rfl rfl .nil))) .nil)),
    (told.2 [.item 0, .field "name"] (by simp [InOpen]; decide +kernel)).1⟩

end Redaction

end Flowgraph
