/-! Media types of request bodies: a type, a subtype that may have a suffix after a plus sign,
and parameters. -/

namespace Flowgraph.Api.MediaType

def isTokenChar (c : Char) : Bool := c.isAlphanum || "!#$%&'*+-.^_`|~".contains c

/-- A value in quotes; nothing but blanks may stand behind it. -/
def quotedRest : List Char → Option (List Char)
  | [] => none
  | '"' :: rest =>
    match rest.dropWhile (· = ' ') with
    | [] => some []
    | ';' :: rest => some rest
    | _ => none
  | c :: rest => if 32 ≤ c.toNat && c.toNat ≠ 127 then quotedRest rest else none

/-- What follows the value of a parameter. -/
def valueRest (cs : List Char) : Option (List Char) :=
  match cs with
  | '"' :: c :: rest => if 32 ≤ c.toNat && c.toNat ≠ 127 then quotedRest rest else none
  | ['"'] => none
  | cs =>
    match cs.dropWhile isTokenChar with
    | [] => some []
    | ';' :: rest => if (cs.takeWhile isTokenChar).isEmpty then none else some rest
    | _ => none

/-- What follows one parameter, blanks in front being skipped; nothing if there is none. -/
def parameterRest (cs : List Char) : Option (List Char) :=
  match cs.dropWhile (· = ' ') with
  | [] => some []
  | cs =>
    match cs.dropWhile isTokenChar with
    | '=' :: rest => if (cs.takeWhile isTokenChar).isEmpty then none else valueRest rest
    | _ => none

/-- Whether a text is a list of parameters; it has at most as many as characters. -/
def areParameters : (count : Nat) → List Char → Bool
  | 0, cs => cs.isEmpty
  | count + 1, cs =>
    match parameterRest cs with
    | some [] => true
    | some rest => areParameters count rest
    | none => false

/-- The text of a header as it may be read: visible characters, blanks and tabs only. -/
def isVisible (text : String) : Bool :=
  text.toList.all fun c => c = '\t' || (32 ≤ c.toNat && c.toNat < 127)

/-- The subtype in front of its last plus sign, and the suffix behind that. -/
def splitSuffix (subtype : List Char) : List Char × Option (List Char) :=
  let suffix := (subtype.reverse.takeWhile (· ≠ '+')).reverse
  let stem := subtype.take (subtype.length - suffix.length - 1)
  if suffix.length < subtype.length && !stem.isEmpty then (stem, some suffix) else (subtype, none)

/-- Whether a media type names JSON, in letters of any case. -/
def isJson (text : String) : Bool :=
  let cs := text.toList.map Char.toLower
  let json := "json".toList
  match cs.dropWhile isTokenChar with
  | '/' :: rest =>
    let subtype := rest.takeWhile isTokenChar
    let (stem, suffix) := splitSuffix subtype
    let proper := match rest.dropWhile isTokenChar with
      | [] => true
      | c :: rest => c = ';' && areParameters (rest.length + 1) rest
    isVisible text && cs.takeWhile isTokenChar = "application".toList && !subtype.isEmpty &&
      proper && (stem = json || suffix = some json)
  | _ => false

end Flowgraph.Api.MediaType
