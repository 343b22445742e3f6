import Flowgraph.Json.Basic
import Flowgraph.Text.Blank

/-! Paths into JSON values: names of fields and places in arrays, separated by dots. -/

namespace Flowgraph

structure Path where
  segments : List String
  deriving DecidableEq, Inhabited

namespace Path

/-- Blanks around a segment do not count; an empty segment makes the path invalid. -/
def parseChars (cs : List Char) : Option Path :=
  let segments := (Text.splitAt '.' cs).map Text.trimChars
  if segments.any List.isEmpty then none else some ⟨segments.map String.ofList⟩

def parse (text : String) : Option Path := parseChars text.toList

def text (path : Path) : String := ".".intercalate path.segments

/-- The greatest place that a segment can name. -/
def greatestIndex : Nat := UInt64.size - 1

/-- A place in an array: digits, perhaps after a plus sign. -/
def index? (segment : String) : Option Nat :=
  let digits := match segment.toList with
    | '+' :: rest => rest
    | cs => cs
  if digits.isEmpty || !digits.all Char.isDigit then none
  else
    let n := digits.foldl (fun acc c => acc * 10 + (c.toNat - 48)) 0
    if n ≤ greatestIndex then some n else none

/-- One step down. -/
def step (v : Json) (segment : String) : Option Json :=
  match v with
  | .object fields => fields.lookup segment
  | .array items => (index? segment).bind fun i => items[i]?
  | _ => none

/-- The value at the end of the path. -/
def lookup (path : Path) (v : Json) : Option Json := path.segments.foldlM step v

@[simp] theorem lookup_nil (v : Json) : (Path.mk []).lookup v = some v := rfl

theorem lookup_cons (segment : String) (rest : List String) (v : Json) :
    (Path.mk (segment :: rest)).lookup v = (step v segment).bind (Path.mk rest).lookup := by
  simp only [lookup, List.foldlM_cons]
  cases step v segment <;> rfl

end Path

end Flowgraph
