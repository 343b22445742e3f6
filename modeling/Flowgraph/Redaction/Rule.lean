import Flowgraph.Redaction.Scan
import Flowgraph.Text.Blank

/-! The rules for secrets in text: authorization headers, pairs of a key and a value, and
tokens of known shapes. -/

namespace Flowgraph.Redaction

def redacted : List Char := "[REDACTED]".toList

/-- A small letter or sign of a rule, in either case. The long s and the Kelvin sign are other
forms of s and k. -/
def isForm (letter c : Char) : Bool :=
  c == letter || c == letter.toUpper || (letter == 's' && c == '\u017f') ||
    (letter == 'k' && c == '\u212a')

/-- The word as it is spelled in the text, and the rest. -/
def spelling? : (word : List Char) → List Char → Option (List Char × List Char)
  | [], cs => some ([], cs)
  | _ :: _, [] => none
  | letter :: word, c :: cs =>
    if isForm letter c then (spelling? word cs).map fun (found, rest) => (c :: found, rest)
    else none

/-- The longest run of such characters, if it is long enough, and the rest. -/
def run? (p : Char → Bool) (least : Nat) (cs : List Char) : Option (List Char × List Char) :=
  let found := cs.takeWhile p
  if least ≤ found.length then some (found, cs.dropWhile p) else none

/-- The exact text, and the rest. -/
def literal? (text : List Char) (cs : List Char) : Option (List Char) :=
  if text.isPrefixOf cs then some (cs.drop text.length) else none

section Auth

/-- A scheme, blanks, and credentials that may end in equals signs. -/
structure AuthHeader where
  scheme : List Char
  blanks : List Char
  credentials : List Char
  padding : List Char

def schemes : List String := ["bearer", "basic"]

def isAuthChar (c : Char) : Bool :=
  c.isAlphanum || c == '-' || c == '.' || c == '_' || c == '~' || c == '+' || c == '/' ||
    c == '\u017f' || c == '\u212a'

def authHeader? (cs : List Char) : Option AuthHeader :=
  schemes.findSome? fun name => do
    let (scheme, cs) ← spelling? name.toList cs
    let (blanks, cs) ← run? Text.isBlank 1 cs
    let (credentials, cs) ← run? isAuthChar 8 cs
    let (padding, _) ← run? (· == '=') 0 cs
    return ⟨scheme, blanks, credentials, padding⟩

def AuthHeader.hit (h : AuthHeader) : Hit where
  matched := h.scheme ++ h.blanks ++ h.credentials ++ h.padding
  shown := h.scheme ++ ' ' :: redacted

def authRule : Rule := fun cs => (authHeader? cs).map AuthHeader.hit

end Auth

section Pairs

structure KeyValue where
  key : List Char
  value : List Char

def pairKeys : List String :=
  ["password", "passwd", "pwd", "secret", "client_secret", "token", "access_token",
    "refresh_token", "api_key", "apikey", "key", "sig", "signature"]

def isValueChar (c : Char) : Bool :=
  !(c == '&' || Text.isBlank c || c == '"' || c == '\'' || c == ',' || c == ';')

def keyValue? (cs : List Char) : Option KeyValue :=
  pairKeys.findSome? fun name => do
    let (key, cs) ← spelling? name.toList cs
    let cs ← literal? ['='] cs
    let (value, _) ← run? isValueChar 1 cs
    return ⟨key, value⟩

def KeyValue.hit (p : KeyValue) : Hit where
  matched := p.key ++ '=' :: p.value
  shown := p.key ++ '=' :: redacted

def pairRule : Rule := fun cs => (keyValue? cs).map KeyValue.hit

end Pairs

section Tokens

def isKeyChar (c : Char) : Bool := c.isAlphanum || c == '_' || c == '-'

def secretKey? (cs : List Char) : Option (List Char) := do
  let cs ← literal? "sk-".toList cs
  let (body, _) ← run? isKeyChar 16 cs
  return "sk-".toList ++ body

/-- Three runs with dots between them. -/
def webToken? (cs : List Char) : Option (List Char) := do
  let cs ← literal? "eyJ".toList cs
  let (head, cs) ← run? isKeyChar 1 cs
  let cs ← literal? ['.'] cs
  let (body, cs) ← run? isKeyChar 1 cs
  let cs ← literal? ['.'] cs
  let (signature, _) ← run? isKeyChar 1 cs
  return "eyJ".toList ++ head ++ '.' :: body ++ '.' :: signature

def hubToken? (cs : List Char) : Option (List Char) :=
  ['p', 'o', 'u', 's', 'r'].findSome? fun kind => do
    let start := ['g', 'h', kind, '_']
    let cs ← literal? start cs
    let (body, _) ← run? Char.isAlphanum 20 cs
    return start ++ body

def chatToken? (cs : List Char) : Option (List Char) :=
  ['a', 'b', 'p', 'r', 's'].findSome? fun kind => do
    let start := ['x', 'o', 'x', kind, '-']
    let cs ← literal? start cs
    let (body, _) ← run? (fun c => c.isAlphanum || c == '-') 10 cs
    return start ++ body

def startsWord : List Char → Bool
  | [] => false
  | c :: _ => Text.isWord c

/-- Sixteen capital letters and digits, no word going on after them. -/
def accessKey? (cs : List Char) : Option (List Char) := do
  let cs ← literal? "AKIA".toList cs
  let body := cs.take 16
  if body.length = 16 && body.all (fun c => c.isDigit || c.isUpper) && !startsWord (cs.drop 16)
  then some ("AKIA".toList ++ body)
  else none

def token? (cs : List Char) : Option (List Char) :=
  (((secretKey? cs).or (webToken? cs)).or (hubToken? cs)).or ((chatToken? cs).or (accessKey? cs))

def tokenRule : Rule := fun cs => (token? cs).map fun matched => ⟨matched, redacted⟩

end Tokens

/-- The rules apply one after the other, each to what the one before has left. -/
def redactChars (cs : List Char) : List Char :=
  mask tokenRule (mask pairRule (mask authRule cs))

def redactText (text : String) : String := String.ofList (redactChars text.toList)

end Flowgraph.Redaction
