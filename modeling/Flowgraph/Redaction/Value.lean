import Flowgraph.Json.Basic
import Flowgraph.Redaction.Key
import Flowgraph.Redaction.Rule

/-! Redaction of JSON values: a secret field loses its whole value, and every string the
secrets within it. -/

namespace Flowgraph.Redaction

def redactedText : String := String.ofList redacted

mutual

def redact : Json → Json
  | .string s => .string (redactText s)
  | .array items => .array (redactItems items)
  | .object fields => .object (redactFields fields)
  | v => v

def redactItems : List Json → List Json
  | [] => []
  | v :: rest => redact v :: redactItems rest

/-- A null has nothing to hide. -/
def redactFields : List (String × Json) → List (String × Json)
  | [] => []
  | (key, v) :: rest =>
    (key, if v.isNull then .null else if isSensitiveKey key then .string redactedText else redact v)
      :: redactFields rest

end

end Flowgraph.Redaction
