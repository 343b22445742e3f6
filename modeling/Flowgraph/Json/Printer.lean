import Flowgraph.Json.Basic

/-! Compact JSON text: no blanks, and only quotes, backslashes and control characters escaped. -/

namespace Flowgraph.Json

def hexDigit (n : Nat) : Char := (Nat.toDigits 16 n).headD '0'

/-- What stands for one character between the quotes. -/
def escapeChar (c : Char) : String :=
  match c with
  | '"' => "\\\""
  | '\\' => "\\\\"
  | '\x08' => "\\b"
  | '\t' => "\\t"
  | '\n' => "\\n"
  | '\x0c' => "\\f"
  | '\r' => "\\r"
  | c =>
    if c.toNat < 32 then
      "\\u00" ++ String.ofList [hexDigit (c.toNat / 16), hexDigit (c.toNat % 16)]
    else c.toString

def stringText (s : String) : String := "\"" ++ String.join (s.toList.map escapeChar) ++ "\""

mutual

def text : Json → String
  | null => "null"
  | bool b => if b then "true" else "false"
  | number n => n.text
  | string s => stringText s
  | array items => "[" ++ ",".intercalate (itemTexts items) ++ "]"
  | object fields => "\x7b" ++ ",".intercalate (fieldTexts fields) ++ "\x7d"

def itemTexts : List Json → List String
  | [] => []
  | v :: rest => text v :: itemTexts rest

def fieldTexts : List (String × Json) → List String
  | [] => []
  | (key, v) :: rest => (stringText key ++ ":" ++ text v) :: fieldTexts rest

end

end Flowgraph.Json
