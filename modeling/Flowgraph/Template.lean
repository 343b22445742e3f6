import Flowgraph.Path

/-! Templates: text in which `{{Node.path}}` stands for a value from another node's output.
The text between double braces holds no brace; placeholders are found from the left and do
not overlap. -/

namespace Flowgraph

namespace Template

def isBrace (c : Char) : Bool := c == '{' || c == '}'

/-- The text between the braces and what follows, if a placeholder stands first. -/
def placeholder? : List Char → Option (List Char × List Char)
  | '{' :: '{' :: cs =>
    match cs.dropWhile (!isBrace ·) with
    | '}' :: '}' :: rest => some (cs.takeWhile (!isBrace ·), rest)
    | _ => none
  | _ => none

/-- A placeholder as it was written. -/
def braced (body : List Char) : List Char := '{' :: '{' :: body ++ ['}', '}']

theorem eq_of_placeholder? {cs body rest : List Char} (h : placeholder? cs = some (body, rest)) :
    cs = braced body ++ rest := by
  unfold placeholder? at h
  split at h
  · next cs =>
    split at h
    · next rest' hd =>
      obtain ⟨rfl, rfl⟩ : cs.takeWhile (!isBrace ·) = body ∧ rest' = rest := by simpa using h
      have := List.takeWhile_append_dropWhile (p := (!isBrace ·)) (l := cs)
      rw [hd] at this
      simp [braced, this]
    · simp at h
  · simp at h

theorem length_lt_of_placeholder? {cs body rest : List Char}
    (h : placeholder? cs = some (body, rest)) : rest.length < cs.length := by
  rw [eq_of_placeholder? h]; simp [braced]; omega

inductive Piece
  | text (cs : List Char)
  | placeholder (body : List Char)
  deriving DecidableEq

def Piece.source : Piece → List Char
  | text cs => cs
  | placeholder body => braced body

/-- Adds a character to the text in front. -/
def push (c : Char) : List Piece → List Piece
  | .text cs :: rest => .text (c :: cs) :: rest
  | pieces => .text [c] :: pieces

/-- Splits a text into placeholders and the longest texts between them. -/
def pieces : List Char → List Piece
  | [] => []
  | c :: cs =>
    match h : placeholder? (c :: cs) with
    | some (body, rest) =>
      have : rest.length < (c :: cs).length := length_lt_of_placeholder? h
      .placeholder body :: pieces rest
    | none => push c (pieces cs)
termination_by cs => cs.length
decreasing_by
  · exact this
  · exact Nat.lt_succ_self _

def hasPlaceholder (text : String) : Bool :=
  (pieces text.toList).any fun
    | .placeholder _ => true
    | .text _ => false

end Template

/-- A placeholder `{{node.path}}`, with the text it was written as. -/
structure Reference where
  node : String
  path : Path
  raw : String
  deriving DecidableEq, Inhabited

inductive Segment
  | text (s : String)
  | reference (r : Reference)
  deriving DecidableEq

def Segment.source : Segment → String
  | text s => s
  | reference r => r.raw

namespace Template

/-- The node's name ends at the first dot; all after it is the path. -/
def reference? (body : List Char) : Option Reference := do
  let (node, path) ← Text.splitFirst '.' (Text.trimChars body)
  let node := Text.trimChars node
  if node.isEmpty then none
  else some ⟨String.ofList node, ← Path.parseChars path, String.ofList (braced body)⟩

def segment : Piece → Except String Segment
  | .text cs => .ok (.text (String.ofList cs))
  | .placeholder body =>
    match reference? body with
    | some r => .ok (.reference r)
    | none => .error (String.ofList (braced body))

/-- The placeholders that are no references, as they were written. -/
def malformed (found : List (Except String Segment)) : List String :=
  found.filterMap fun
    | .error raw => some raw
    | .ok _ => none

/-- The segments of a text, or all its malformed placeholders. -/
def parse (text : String) : Except (List String) (List Segment) :=
  let found := (pieces text.toList).map segment
  match malformed found with
  | [] => .ok (found.filterMap Except.toOption)
  | raws => .error raws

end Template

end Flowgraph
