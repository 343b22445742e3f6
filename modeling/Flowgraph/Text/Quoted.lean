import Flowgraph.Text.Plain

/-! Quoted text as source code shows it: between double quotes, with everything that is
not plain written as an escape. -/

namespace Flowgraph.Text

def hexText (n : Nat) : String := String.ofList (Nat.toDigits 16 n)

/-- What stands for one character between the quotes. -/
def escapeChar (c : Char) : String :=
  match c with
  | '"' => "\\\""
  | '\\' => "\\\\"
  | '\n' => "\\n"
  | '\r' => "\\r"
  | '\t' => "\\t"
  | '\x00' => "\\0"
  | c => if isPlain c then c.toString else "\\u\x7b" ++ hexText c.toNat ++ "\x7d"

def escape (s : String) : String := String.join (s.toList.map escapeChar)

def quote (s : String) : String := "\"" ++ escape s ++ "\""

end Flowgraph.Text
