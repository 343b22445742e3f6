import Flowgraph.Text.Blank

/-! Addresses of databases: a scheme and a colon, and after two slashes a host that may have a
user in front of it and a number behind it. -/

namespace Flowgraph.Database.Url

/-- Control characters and blanks around an address do not count, nor do breaks within it. -/
def clean (text : String) : List Char :=
  let cs := text.toList.dropWhile (·.toNat ≤ 32)
  let cs := (cs.reverse.dropWhile (·.toNat ≤ 32)).reverse
  cs.filter fun c => c ≠ '\t' && c ≠ '\n' && c ≠ '\r'

def isSchemeChar (c : Char) : Bool := c.isAlphanum || c = '+' || c = '-' || c = '.'

/-- The scheme in small letters, and what follows its colon. -/
def scheme? (cs : List Char) : Option (List Char × List Char) :=
  match cs.dropWhile isSchemeChar with
  | ':' :: rest =>
    match cs.takeWhile isSchemeChar with
    | c :: scheme => if c.isAlpha then some ((c :: scheme).map Char.toLower, rest) else none
    | [] => none
  | _ => none

/-- Schemes that always name a host. -/
def needsHost (scheme : List Char) : Bool :=
  ["http", "https", "ws", "wss", "ftp"].contains (String.ofList scheme)

/-- The host, with its number, after the last user mark. -/
def hostPart (authority : List Char) : List Char :=
  (authority.reverse.takeWhile (· ≠ '@')).reverse

/-- Splits off the number; colons within brackets belong to the host. -/
def splitNumber (cs : List Char) : List Char × Option (List Char) :=
  match cs with
  | '[' :: _ =>
    let host := cs.takeWhile (· ≠ ']')
    match cs.drop host.length with
    | ']' :: ':' :: number => (host, some number)
    | _ => (host, none)
  | _ =>
    match cs.dropWhile (· ≠ ':') with
    | ':' :: number => (cs.takeWhile (· ≠ ':'), some number)
    | _ => (cs, none)

/-- Digits that make a number of sixteen bits. -/
def isNumber (cs : List Char) : Bool :=
  cs.all Char.isDigit && cs.foldl (fun n c => n * 10 + (c.toNat - 48)) 0 < UInt16.size

def authorityFault? (hostNeeded : Bool) (authority : List Char) : Option String :=
  let (host, number) := splitNumber (hostPart authority)
  if host.isEmpty && (hostNeeded || number.isSome || authority.contains '@') then some "empty host"
  else if (number.getD []).isEmpty || isNumber (number.getD []) then none
  else some "invalid port number"

/-- Why an address cannot be used. -/
def fault? (text : String) : Option String :=
  match scheme? (clean text) with
  | none => some "relative URL without a base"
  | some (scheme, rest) =>
    let ends (c : Char) : Bool := c = '/' || c = '?' || c = '#' || (needsHost scheme && c = '\\')
    if needsHost scheme then
      authorityFault? true
        ((rest.dropWhile fun c => c = '/' || c = '\\').takeWhile fun c => !ends c)
    else
      match rest with
      | '/' :: '/' :: rest => authorityFault? false (rest.takeWhile fun c => !ends c)
      | _ => none

end Flowgraph.Database.Url
