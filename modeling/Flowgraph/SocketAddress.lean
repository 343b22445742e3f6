import Flowgraph.Uuid

/-! Addresses of a service on the network: a host of 32 or 128 bits, and after a colon a number of
sixteen bits. A host of 128 bits stands in brackets. -/

namespace Flowgraph

inductive Host
  | v4 (bits : UInt32)
  /-- Eight groups, and the number of the network that they count for. -/
  | v6 (groups : List UInt16) (scope : UInt32)
  deriving DecidableEq

structure SocketAddress where
  host : Host
  number : UInt16
  deriving DecidableEq

namespace SocketAddress

/-! Each reader gives what it has read and the characters that follow; it reads as many digits as
there are. -/

def readMark (mark : Char) : List Char → Option (List Char)
  | c :: rest => if c = mark then some rest else none
  | [] => none

def digits (radix : Nat) (cs : List Char) : List Nat :=
  ((cs.map Uuid.hexValue?).takeWhile fun d => d.any (· < radix)).filterMap id

/-- A number below `limit`, of at most `width` digits if that is given. -/
def readNumber (radix limit : Nat) (width : Option Nat) (cs : List Char) :
    Option (Nat × List Char) :=
  let ds := digits radix cs
  let n := ds.foldl (fun n d => n * radix + d) 0
  if ds.isEmpty || width.any (· < ds.length) || limit ≤ n then none
  else some (n, cs.drop ds.length)

/-- A number below 256 that has no needless zero in front. -/
def readOctet (cs : List Char) : Option (Nat × List Char) :=
  match digits 10 cs with
  | 0 :: _ :: _ => none
  | _ => readNumber 10 256 (some 3) cs

/-- Four octets with points between them, as one number. -/
def readQuad (cs : List Char) : Option (Nat × List Char) := do
  let (a, cs) ← readOctet cs
  let (b, cs) ← readOctet (← readMark '.' cs)
  let (c, cs) ← readOctet (← readMark '.' cs)
  let (d, cs) ← readOctet (← readMark '.' cs)
  return (((a * 256 + b) * 256 + c) * 256 + d, cs)

/-- What has been read of the groups of a host. -/
structure Groups where
  values : List Nat
  /-- The last two were written as four octets. -/
  endsInQuad : Bool
  rest : List Char

/-- Up to `room` groups with colons between them. Four octets stand for two groups, and nothing
goes on behind them. -/
def readGroups (first : Bool) : (room : Nat) → List Char → Groups
  | 0, cs => ⟨[], false, cs⟩
  | room + 1, cs =>
    match if first then some cs else readMark ':' cs with
    | none => ⟨[], false, cs⟩
    | some inner =>
      match if room = 0 then none else readQuad inner with
      | some (quad, rest) => ⟨[quad / 65536, quad % 65536], true, rest⟩
      | none =>
        match readNumber 16 65536 (some 4) inner with
        | none => ⟨[], false, cs⟩
        | some (group, rest) =>
          let more := readGroups false room rest
          { more with values := group :: more.values }

/-- Eight groups; two colons stand for one or more groups of zero. -/
def readLong (cs : List Char) : Option (List Nat × List Char) :=
  let front := readGroups true 8 cs
  if front.values.length = 8 then some (front.values, front.rest)
  else if front.endsInQuad then none
  else do
    let cs ← readMark ':' (← readMark ':' front.rest)
    let back := readGroups true (7 - front.values.length) cs
    let zeros := 8 - front.values.length - back.values.length
    return (front.values ++ List.replicate zeros 0 ++ back.values, back.rest)

/-- The number of a network after a percent sign, or zero and nothing read. -/
def readScope (cs : List Char) : Nat × List Char :=
  match (readMark '%' cs).bind (readNumber 10 UInt32.size none) with
  | some read => read
  | none => (0, cs)

def readHost (cs : List Char) : Option (Host × List Char) :=
  match readMark '[' cs with
  | none => (readQuad cs).map fun (bits, rest) => (.v4 (.ofNat bits), rest)
  | some cs => do
    let (groups, cs) ← readLong cs
    let (scope, cs) := readScope cs
    return (.v6 (groups.map .ofNat) (.ofNat scope), ← readMark ']' cs)

def parse (text : String) : Option SocketAddress := do
  let (host, cs) ← readHost text.toList
  let (number, cs) ← readNumber 10 UInt16.size none (← readMark ':' cs)
  if cs.isEmpty then some ⟨host, .ofNat number⟩ else none

end SocketAddress

end Flowgraph
