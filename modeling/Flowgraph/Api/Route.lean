import Flowgraph.Text.Blank
import Flowgraph.Uuid

/-! The routes of the service. Paths are matched as they are written; only the identifier in a
path may be written with percent signs. -/

namespace Flowgraph.Api

inductive Route
  | workflows
  | workflow (id : String)
  | code (id : String)
  | execute (id : String)
  | stop (id : String)
  | logs (id : String)
  | status (id : String)
  deriving DecidableEq

namespace Route

/-- The path of a target, which may be a whole address: without scheme, host, query and
fragment. -/
def pathOf (target : String) : String :=
  let cs := target.toList.takeWhile fun c => c ≠ '?' && c ≠ '#'
  if cs.head? = some '/' then String.ofList cs
  else
    match (String.ofList cs).splitOn "://" with
    | _ :: host :: rest =>
      String.ofList (("://".intercalate (host :: rest)).toList.dropWhile (· ≠ '/'))
    | _ => String.ofList cs

def segments (target : String) : List String :=
  (Text.splitAt '/' (pathOf target).toList).map String.ofList

/-- An identifier at the end of a path is not empty. -/
def ofPath? (target : String) : Option Route :=
  match segments target with
  | ["", "api", "v1", "workflows"] => some workflows
  | ["", "api", "v1", "workflows", id] => if id.isEmpty then none else some (workflow id)
  | ["", "api", "v1", "workflows", id, action] =>
    if action = "code" then some (code id)
    else if action = "execute" then some (execute id)
    else none
  | ["", "api", "v1", "executions", id, action] =>
    if action = "stop" then some (stop id)
    else if action = "logs" then some (logs id)
    else if action = "status" then some (status id)
    else none
  | _ => none

/-- Percent signs with two hexadecimal digits stand for bytes; others stand for themselves. -/
def decodeBytes : List Char → List UInt8
  | [] => []
  | '%' :: a :: b :: rest =>
    match Uuid.hexValue? a, Uuid.hexValue? b with
    | some x, some y => UInt8.ofNat (x * 16 + y) :: decodeBytes rest
    | _, _ => 37 :: decodeBytes (a :: b :: rest)
  | c :: rest => String.utf8EncodeChar c ++ decodeBytes rest
termination_by cs => cs.length

/-- An identifier in a path. -/
def id? (segment : String) : Option Uuid :=
  (String.fromUTF8? ⟨(decodeBytes segment.toList).toArray⟩).bind Uuid.parse

end Route

end Flowgraph.Api
