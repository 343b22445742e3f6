import Flowgraph.Json.Basic

/-! A JSON text as far as it could be read. A document keeps the order of the text and every
repeated name, and marks the place where reading had to stop, so that the first problem of a
text can be found in the order of the text. -/

namespace Flowgraph.Json

/-- What is wrong with a text that is not JSON. -/
inductive Malformation
  | endInValue | endInString | endInList | endInObject
  | expectedValue | expectedWord | expectedColon | expectedListEnd | expectedObjectEnd
  | keyNotString | trailingComma | trailingText
  | badNumber | numberTooLarge
  | controlCharacter | badEscape | loneSurrogate | halfPair
  | tooDeep
  deriving DecidableEq

namespace Malformation

def message : Malformation → String
  | endInValue => "EOF while parsing a value"
  | endInString => "EOF while parsing a string"
  | endInList => "EOF while parsing a list"
  | endInObject => "EOF while parsing an object"
  | expectedValue => "expected value"
  | expectedWord => "expected ident"
  | expectedColon => "expected `:`"
  | expectedListEnd => "expected `,` or `]`"
  | expectedObjectEnd => "expected `,` or `\x7d`"
  | keyNotString => "key must be a string"
  | trailingComma => "trailing comma"
  | trailingText => "trailing characters"
  | badNumber => "invalid number"
  | numberTooLarge => "number out of range"
  | controlCharacter => "control character (\\u0000-\\u001F) found while parsing a string"
  | badEscape => "invalid escape"
  | loneSurrogate => "lone leading surrogate in hex escape"
  | halfPair => "unexpected end of hex escape"
  | tooDeep => "recursion limit exceeded"

end Malformation

/-- The place where reading stopped. What is reported depends on whether the value that
should stand there is wanted, is skipped, or is one too many where a list should close. -/
structure Break where
  wanted : Malformation
  skipped : Malformation
  closing : Malformation

def Break.of (m : Malformation) : Break := ⟨m, m, m⟩

/-- A name or string of the text, or what keeps it from having a value. -/
abbrev Spelling := Except Malformation String

inductive Document
  | null
  | bool (b : Bool)
  | number (n : Option Number)
  | string (s : Spelling)
  | array (items : List Document) (stop : Option Break)
  | object (fields : List (Spelling × Document)) (stop : Option Break)
  | broken (stop : Break)

namespace Reader

def isSpace (c : Char) : Bool := c == ' ' || c == '\n' || c == '\t' || c == '\r'

def skipSpace (cs : List Char) : List Char := cs.dropWhile isSpace

def hexValue? (c : Char) : Option Nat :=
  if '0' ≤ c ∧ c ≤ '9' then some (c.toNat - 48)
  else if 'a' ≤ c ∧ c ≤ 'f' then some (c.toNat - 87)
  else if 'A' ≤ c ∧ c ≤ 'F' then some (c.toNat - 55)
  else none

/-- The value of the four digits of an escape. -/
def unit? (a b c d : Char) : Option Nat := do
  some (((← hexValue? a) * 16 + (← hexValue? b)) * 256 + (← hexValue? c) * 16 + (← hexValue? d))

def isHighHalf (n : Nat) : Bool := 0xd800 ≤ n && n ≤ 0xdbff

def isLowHalf (n : Nat) : Bool := 0xdc00 ≤ n && n ≤ 0xdfff

def pairUp (high low : Nat) : Char := Char.ofNat ((high - 0xd800) * 1024 + (low - 0xdc00) + 0x10000)

def simpleEscape? : Char → Option Char
  | '"' => some '"'
  | '\\' => some '\\'
  | '/' => some '/'
  | 'b' => some '\x08'
  | 'f' => some '\x0c'
  | 'n' => some '\n'
  | 'r' => some '\r'
  | 't' => some '\t'
  | _ => none

/-- What is wrong with an escape that lacks four hexadecimal digits: too little text is an end,
anything else a bad escape. Text is measured in bytes. -/
def shortEscape (rest : List Char) : Malformation :=
  if (String.ofList (rest.take 4)).utf8ByteSize < 4 then .endInString else .badEscape

/-- The second half of a pair, which has to follow the first at once. -/
def lowHalf : List Char → Except Malformation Nat
  | [] => .error .endInString
  | '\\' :: [] => .error .endInString
  | '\\' :: 'u' :: a :: b :: c :: d :: _ =>
    match unit? a b c d with
    | none => .error .badEscape
    | some n => if isLowHalf n then .ok n else .error .loneSurrogate
  | '\\' :: 'u' :: rest => .error (shortEscape rest)
  | _ => .error .halfPair

inductive Quoted
  | closed (value : Except Malformation (List Char)) (rest : List Char)
  | cut (stop : Break)

/-- The first problem of a string counts. -/
def spoil (m : Malformation) : Except Malformation (List Char) → Except Malformation (List Char)
  | .ok _ => .error m
  | .error first => .error first

def cutAt (m : Malformation) : Except Malformation (List Char) → Quoted
  | .ok _ => .cut (.of m)
  | .error first => .cut ⟨first, m, m⟩

/-- Reads on after an opening quote; `value` holds what was read, last character first. -/
def quoted (value : Except Malformation (List Char)) : List Char → Quoted
  | [] => cutAt .endInString value
  | '"' :: rest => .closed (value.map List.reverse) rest
  | '\\' :: 'u' :: a :: b :: c :: d :: rest =>
    match unit? a b c d with
    | none => cutAt .badEscape value
    | some n =>
      if isLowHalf n then quoted (spoil .loneSurrogate value) rest
      else if isHighHalf n then
        match lowHalf rest with
        | .ok low => quoted (value.map (pairUp n low :: ·)) (rest.drop 6)
        | .error m => quoted (spoil m value) rest
      else quoted (value.map (Char.ofNat n :: ·)) rest
  | '\\' :: 'u' :: rest => cutAt (shortEscape rest) value
  | '\\' :: c :: rest =>
    match simpleEscape? c with
    | some e => quoted (value.map (e :: ·)) rest
    | none => cutAt .badEscape value
  | '\\' :: [] => cutAt .endInString value
  | c :: rest =>
    if c.toNat < 32 then cutAt .controlCharacter value else quoted (value.map (c :: ·)) rest
termination_by cs => cs.length

def digitValue (c : Char) : Nat := c.toNat - 48

def digits (cs : List Char) : List Nat × List Char :=
  ((cs.takeWhile Char.isDigit).map digitValue, cs.dropWhile Char.isDigit)

/-- A number that breaks off: at the end of the text a wanted number lacks its value. -/
def cutNumber (rest : List Char) : Break :=
  if rest.isEmpty then ⟨.endInValue, .badNumber, .badNumber⟩ else .of .badNumber

def wholeDigits (cs : List Char) : Except Break (List Nat × List Char) :=
  match digits cs with
  | ([], rest) => .error (cutNumber rest)
  | (0 :: _ :: _, _) => .error (.of .badNumber)
  | found => .ok found

def someDigits (cs : List Char) : Except Break (List Nat × List Char) :=
  match digits cs with
  | ([], rest) => .error (cutNumber rest)
  | found => .ok found

def places : List Char → Except Break (Option (List Nat) × List Char)
  | '.' :: cs => (someDigits cs).map fun (ds, rest) => (some ds, rest)
  | cs => .ok (none, cs)

def exponentDigits (down : Bool) (cs : List Char) :
    Except Break (Option (Bool × List Nat) × List Char) :=
  (someDigits cs).map fun (ds, rest) => (some (down, ds), rest)

def exponent : List Char → Except Break (Option (Bool × List Nat) × List Char)
  | c :: cs =>
    if c = 'e' ∨ c = 'E' then
      match cs with
      | '+' :: cs => exponentDigits false cs
      | '-' :: cs => exponentDigits true cs
      | cs => exponentDigits false cs
    else .ok (none, c :: cs)
  | [] => .ok (none, [])

def lexeme (negative : Bool) (cs : List Char) : Except Break (Number.Lexeme × List Char) := do
  let (whole, cs) ← wholeDigits cs
  let (places, cs) ← places cs
  let (exponent, cs) ← exponent cs
  return (⟨negative, whole, places, exponent⟩, cs)

def number (negative : Bool) (cs : List Char) : Document × List Char :=
  match lexeme negative cs with
  | .ok (l, rest) => (.number l.toNumber, rest)
  | .error stop => (.broken stop, [])

def word (value : Document) : (expected : List Char) → List Char → Document × List Char
  | [], cs => (value, cs)
  | _ :: _, [] => (.broken (.of .endInValue), [])
  | e :: es, c :: cs => if e = c then word value es cs else (.broken (.of .expectedWord), [])

mutual

/-- Reads one value. Every level of nesting and every further item takes one unit of fuel, and
each takes at least one character, so as much fuel as text is enough. -/
def value : (fuel : Nat) → List Char → Document × List Char
  | 0, _ => (.broken (.of .endInValue), [])
  | fuel + 1, cs =>
    match skipSpace cs with
    | [] => (.broken (.of .endInValue), [])
    | 'n' :: rest => word .null ['u', 'l', 'l'] rest
    | 't' :: rest => word (.bool true) ['r', 'u', 'e'] rest
    | 'f' :: rest => word (.bool false) ['a', 'l', 's', 'e'] rest
    | '-' :: rest => number true rest
    | '"' :: rest =>
      match quoted (.ok []) rest with
      | .closed s rest => (.string (s.map String.ofList), rest)
      | .cut stop => (.broken stop, [])
    | '[' :: rest =>
      match skipSpace rest with
      | [] => (.array [] (some (.of .endInList)), [])
      | ']' :: rest => (.array [] none, rest)
      | rest => let (items, stop, rest) := items fuel rest; (.array items stop, rest)
    | '{' :: rest =>
      match skipSpace rest with
      | [] => (.object [] (some (.of .endInObject)), [])
      | '}' :: rest => (.object [] none, rest)
      | '"' :: rest => let (fields, stop, rest) := fields fuel rest; (.object fields stop, rest)
      | _ => (.object [] (some (.of .keyNotString)), [])
    | c :: rest =>
      if c.isDigit then number false (c :: rest) else (.broken (.of .expectedValue), [])

def items : (fuel : Nat) → List Char → List Document × Option Break × List Char
  | 0, _ => ([], some (.of .endInList), [])
  | fuel + 1, cs =>
    let (first, rest) := value fuel cs
    match skipSpace rest with
    | [] => ([first], some (.of .endInList), [])
    | ']' :: rest => ([first], none, rest)
    | ',' :: rest =>
      match skipSpace rest with
      | ']' :: _ => ([first], some ⟨.trailingComma, .expectedValue, .trailingComma⟩, [])
      | rest => let (more, stop, rest) := items fuel rest; (first :: more, stop, rest)
    | _ => ([first], some ⟨.expectedListEnd, .expectedListEnd, .trailingText⟩, [])

/-- Reads fields, the first one's opening quote being read already. -/
def fields : (fuel : Nat) → List Char → List (Spelling × Document) × Option Break × List Char
  | 0, _ => ([], some (.of .endInObject), [])
  | fuel + 1, cs =>
    match quoted (.ok []) cs with
    | .cut stop => ([], some stop, [])
    | .closed key rest =>
      let key := key.map String.ofList
      match skipSpace rest with
      | [] => ([(key, .broken (.of .endInObject))], none, [])
      | ':' :: rest =>
        let (first, rest) := value fuel rest
        match skipSpace rest with
        | [] => ([(key, first)], some (.of .endInObject), [])
        | '}' :: rest => ([(key, first)], none, rest)
        | ',' :: rest =>
          match skipSpace rest with
          | [] => ([(key, first)], some ⟨.endInValue, .endInObject, .endInObject⟩, [])
          | '"' :: rest =>
            let (more, stop, rest) := fields fuel rest
            ((key, first) :: more, stop, rest)
          | '}' :: _ => ([(key, first)], some ⟨.trailingComma, .keyNotString, .keyNotString⟩, [])
          | _ => ([(key, first)], some (.of .keyNotString), [])
        | _ => ([(key, first)], some (.of .expectedObjectEnd), [])
      | _ => ([(key, .broken (.of .expectedColon))], none, [])

end

end Reader

namespace Document

/-- Reads a text; the flag tells whether something stands after the value. -/
def read (text : String) : Document × Bool :=
  let cs := text.toList
  let (document, rest) := Reader.value (cs.length + 1) cs
  (document, !(Reader.skipSpace rest).isEmpty)

mutual

/-- The problem met when a value is passed over: its numbers may be too large and its strings
may hold anything that closes. -/
def skip : Document → Option Malformation
  | broken stop => some stop.skipped
  | array items stop => (skipItems items).or (stop.map Break.skipped)
  | object fields stop => (skipFields fields).or (stop.map Break.skipped)
  | _ => none

def skipItems : List Document → Option Malformation
  | [] => none
  | d :: rest => (skip d).or (skipItems rest)

def skipFields : List (Spelling × Document) → Option Malformation
  | [] => none
  | (_, d) :: rest => (skip d).or (skipFields rest)

end

mutual

/-- A value as the document that holds it. -/
def ofJson : Json → Document
  | .null => .null
  | .bool b => .bool b
  | .number n => .number (some n)
  | .string s => .string (.ok s)
  | .array items => .array (ofItems items) none
  | .object fields => .object (ofFields fields) none

def ofItems : List Json → List Document
  | [] => []
  | v :: rest => ofJson v :: ofItems rest

def ofFields : List (String × Json) → List (Spelling × Document)
  | [] => []
  | (key, v) :: rest => (.ok key, ofJson v) :: ofFields rest

end

end Document

end Flowgraph.Json
