/-! Universally unique identifiers: 128 bits, written as hexadecimal digits. -/

namespace Flowgraph

structure Uuid where
  bits : BitVec 128
  deriving DecidableEq, Inhabited

namespace Uuid

def nil : Uuid := ⟨0⟩

def ofNat (n : Nat) : Uuid := ⟨BitVec.ofNat 128 n⟩

/-- All 32 digits, in small letters. -/
def digits (id : Uuid) : List Char :=
  let ds := Nat.toDigits 16 id.bits.toNat
  List.replicate (32 - ds.length) '0' ++ ds

def simpleText (id : Uuid) : String := String.ofList id.digits

/-- Groups of 8, 4, 4, 4 and 12 digits with hyphens between them. -/
def text (id : Uuid) : String :=
  let ds := id.digits
  let group (first count : Nat) := String.ofList ((ds.drop first).take count)
  "-".intercalate [group 0 8, group 8 4, group 12 4, group 16 4, group 20 12]

def hexValue? (c : Char) : Option Nat :=
  if '0' ≤ c ∧ c ≤ '9' then some (c.toNat - 48)
  else if 'a' ≤ c ∧ c ≤ 'f' then some (c.toNat - 87)
  else if 'A' ≤ c ∧ c ≤ 'F' then some (c.toNat - 55)
  else none

/-- Exactly 32 digits. -/
def ofDigits? (cs : List Char) : Option Uuid :=
  if cs.length = 32 then
    (cs.foldlM (fun n c => (hexValue? c).map (n * 16 + ·)) 0).map ofNat
  else none

/-- Exactly the grouped form. -/
def ofGroups? (cs : List Char) : Option Uuid :=
  if cs.length = 36 && [8, 13, 18, 23].all (fun i => cs[i]? == some '-') then
    ofDigits? (cs.take 8 ++ (cs.drop 9).take 4 ++ (cs.drop 14).take 4 ++ (cs.drop 19).take 4 ++
      cs.drop 24)
  else none

/-- What may stand before the groups, in letters of any case. -/
def urnMark : List Char := "urn:uuid:".toList

/-- Digits alone, or groups that may stand in braces or after a mark. -/
def parse (text : String) : Option Uuid :=
  let cs := text.toList
  match cs with
  | '{' :: rest => if rest.getLast? = some '}' then ofGroups? rest.dropLast else none
  | _ =>
    if (cs.take urnMark.length).map Char.toLower = urnMark then ofGroups? (cs.drop urnMark.length)
    else (ofDigits? cs).or (ofGroups? cs)

end Uuid

end Flowgraph
