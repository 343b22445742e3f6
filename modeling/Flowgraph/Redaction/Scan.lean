import Flowgraph.Text.Word

/-! Finding secrets in text from the left, each starting where no word is going on. -/

namespace Flowgraph.Redaction

/-- A secret with what stands around it, and what is shown in its place. -/
structure Hit where
  matched : List Char
  shown : List Char
  deriving DecidableEq

inductive Chunk
  | plain (c : Char)
  | hit (h : Hit)
  deriving DecidableEq

namespace Chunk

def source : Chunk → List Char
  | plain c => [c]
  | hit h => h.matched

def shown : Chunk → List Char
  | plain c => [c]
  | hit h => h.shown

end Chunk

/-- Recognises a secret at the start of a text. -/
abbrev Rule := List Char → Option Hit

/-- Splits a text into hits and the characters between them. `skip` characters belong to the
hit before; `inWord` tells whether the character before is part of a word. -/
def scan (rule : Rule) : (skip : Nat) → (inWord : Bool) → List Char → List Chunk
  | _, _, [] => []
  | skip + 1, _, c :: cs => scan rule skip (Text.isWord c) cs
  | 0, inWord, c :: cs =>
    match if inWord then none else rule (c :: cs) with
    | some h => .hit h :: scan rule (h.matched.length - 1) (Text.isWord c) cs
    | none => .plain c :: scan rule 0 (Text.isWord c) cs

def chunks (rule : Rule) (cs : List Char) : List Chunk := scan rule 0 false cs

def hits (rule : Rule) (cs : List Char) : List Hit :=
  (chunks rule cs).filterMap fun
    | .hit h => some h
    | .plain _ => none

/-- Shows every hit in its masked form. -/
def mask (rule : Rule) (cs : List Char) : List Char := (chunks rule cs).flatMap Chunk.shown

end Flowgraph.Redaction
