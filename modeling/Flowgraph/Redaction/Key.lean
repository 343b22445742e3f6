/-! Names of fields whose values are secret. Case, low lines and hyphens do not count. -/

namespace Flowgraph.Redaction

/-- A field is secret if its name contains one of these. -/
def keyFragments : List String :=
  ["password", "passwd", "secret", "token", "apikey", "authorization", "privatekey",
    "credential", "cookie", "session"]

/-- Shorter names count only as a whole. -/
def wholeKeys : List String := ["pwd", "pass", "auth", "key", "sig", "signature"]

/-- A letter in small. Besides the capital letters of ASCII, only the Kelvin sign and the dotted
capital I have small forms that hold a letter of a secret name; other letters stay. -/
def lowered (c : Char) : List Char :=
  if c = '\u212a' then ['k']
  else if c = '\u0130' then ['i', '\u0307']
  else [c.toLower]

def normalized (key : String) : List Char :=
  (key.toList.filter fun c => c ≠ '_' && c ≠ '-').flatMap lowered

/-- Whether `part` occurs somewhere. -/
def occursIn (part : List Char) : List Char → Bool
  | [] => part.isEmpty
  | c :: cs => part.isPrefixOf (c :: cs) || occursIn part cs

def isSensitiveKey (key : String) : Bool :=
  let name := normalized key
  wholeKeys.any (·.toList == name) || keyFragments.any fun f => occursIn f.toList name

end Flowgraph.Redaction
