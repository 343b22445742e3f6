import Flowgraph.Json.Basic

/-! The texts that stand in a JSON value, at any depth. Names of fields are not among them. -/

namespace Flowgraph.Json

mutual

def texts : Json → List String
  | string s => [s]
  | array items => textsOfItems items
  | object fields => textsOfFields fields
  | _ => []

def textsOfItems : List Json → List String
  | [] => []
  | v :: rest => texts v ++ textsOfItems rest

def textsOfFields : List (String × Json) → List String
  | [] => []
  | (_, v) :: rest => texts v ++ textsOfFields rest

end

theorem textsOfFields_eq_flatMap (fields : List (String × Json)) :
    textsOfFields fields = fields.flatMap fun kv => texts kv.2 := by
  induction fields <;> simp_all [textsOfFields]

end Flowgraph.Json
