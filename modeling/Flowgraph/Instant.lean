import Flowgraph.Text.Blank

/-! Points in time, and their text: date, time of day and the distance to universal time. -/

namespace Flowgraph

/-- Seconds since the start of 1970 in universal time, and nanoseconds. A leap second is the
one before it with a full second more of nanoseconds. -/
structure Instant where
  seconds : Int
  nanos : Nat
  deriving DecidableEq, Inhabited

namespace Instant

/-- The later of two points has more seconds, or as many and more nanoseconds. -/
def earlier (a b : Instant) : Bool :=
  a.seconds < b.seconds || (a.seconds == b.seconds && a.nanos < b.nanos)

def ofMicros (n : Int) : Instant := ⟨n / 1000000, (n % 1000000).toNat * 1000⟩

/-- Days since the start of 1970 of a date. Years are counted from March in runs of 400. -/
def dayNumber (year : Int) (month day : Nat) : Int :=
  let y := if month ≤ 2 then year - 1 else year
  let era := y / 400
  let yearOfEra := y % 400
  let fromMarch : Int := (month + 9) % 12
  let dayOfYear := (153 * fromMarch + 2) / 5 + day - 1
  let dayOfEra := yearOfEra * 365 + yearOfEra / 4 - yearOfEra / 100 + dayOfYear
  era * 146097 + dayOfEra - 719468

/-- Year, month and day of a day number. -/
def date (days : Int) : Int × Nat × Nat :=
  let z := days + 719468
  let era := z / 146097
  let dayOfEra := z % 146097
  let yearOfEra := (dayOfEra - dayOfEra / 1460 + dayOfEra / 36524 - dayOfEra / 146096) / 365
  let dayOfYear := dayOfEra - (365 * yearOfEra + yearOfEra / 4 - yearOfEra / 100)
  let fromMarch := (5 * dayOfYear + 2) / 153
  let day := dayOfYear - (153 * fromMarch + 2) / 5 + 1
  let month := if fromMarch < 10 then fromMarch + 3 else fromMarch - 9
  let year := yearOfEra + era * 400 + if month ≤ 2 then 1 else 0
  (year, month.toNat, day.toNat)

def isLeapYear (year : Int) : Bool := year % 4 == 0 && (year % 100 != 0 || year % 400 == 0)

def daysInMonth (year : Int) (month : Nat) : Nat :=
  if month = 2 then (if isLeapYear year then 29 else 28)
  else if month ∈ [4, 6, 9, 11] then 30
  else 31

def padded (width n : Nat) : String :=
  let ds := Nat.toDigits 10 n
  String.ofList (List.replicate (width - ds.length) '0' ++ ds)

def yearText (year : Int) : String :=
  if 0 ≤ year ∧ year ≤ 9999 then padded 4 year.toNat
  else (if year < 0 then "-" else "+") ++ padded 4 year.natAbs

/-- Date and time in universal time, with the given text for the fraction of the second. -/
def textWith (fraction : Nat → String) (t : Instant) : String :=
  let (year, month, day) := date (t.seconds / 86400)
  let rest := (t.seconds % 86400).toNat
  let second := rest % 60 + t.nanos / 1000000000
  yearText year ++ "-" ++ padded 2 month ++ "-" ++ padded 2 day ++ "T" ++
    padded 2 (rest / 3600) ++ ":" ++ padded 2 (rest / 60 % 60) ++ ":" ++ padded 2 second ++
    fraction (t.nanos % 1000000000) ++ "Z"

/-- As many thirds of the fraction as it needs. -/
def shortFraction (nanos : Nat) : String :=
  if nanos = 0 then ""
  else if nanos % 1000000 = 0 then "." ++ padded 3 (nanos / 1000000)
  else if nanos % 1000 = 0 then "." ++ padded 6 (nanos / 1000)
  else "." ++ padded 9 nanos

def text : Instant → String := textWith shortFraction

/-- Always six digits of the fraction. -/
def microsText : Instant → String := textWith fun nanos => "." ++ padded 6 (nanos / 1000)

section Reading

/-- Reads one to `width` digits. -/
def readDigits (width : Nat) (cs : List Char) : Option (Nat × List Char) :=
  let ds := (cs.take width).takeWhile Char.isDigit
  if ds.isEmpty then none
  else some (ds.foldl (fun n c => n * 10 + (c.toNat - 48)) 0, cs.drop ds.length)

/-- Reads one to `width` digits, blanks in front being skipped. -/
def readNumber (width : Nat) (cs : List Char) : Option (Nat × List Char) :=
  readDigits width (cs.dropWhile Text.isBlank)

/-- The digits of a year with a sign stand at once behind it, and may be many. -/
def readYear (cs : List Char) : Option (Int × List Char) :=
  match cs.dropWhile Text.isBlank with
  | '-' :: rest => (readDigits rest.length rest).map fun (n, rest) => (-(n : Int), rest)
  | '+' :: rest => (readDigits rest.length rest).map fun (n, rest) => ((n : Int), rest)
  | rest => (readDigits 4 rest).map fun (n, rest) => ((n : Int), rest)

def readMark (mark : Char) (cs : List Char) : Option (List Char) :=
  match cs.dropWhile Text.isBlank with
  | c :: rest => if c = mark then some rest else none
  | [] => none

/-- Digits after the ninth are dropped. -/
def readFraction : List Char → Option (Nat × List Char)
  | '.' :: cs =>
    let ds := cs.takeWhile Char.isDigit
    if ds.isEmpty then none
    else
      let kept := ds.take 9
      some (kept.foldl (fun n c => n * 10 + (c.toNat - 48)) 0 * Nat.pow 10 (9 - kept.length),
        cs.drop ds.length)
  | cs => some (0, cs)

def readPair : List Char → Option (Nat × List Char)
  | a :: b :: rest =>
    if a.isDigit && b.isDigit then some ((a.toNat - 48) * 10 + (b.toNat - 48), rest) else none
  | _ => none

/-- Seconds ahead of universal time. -/
def readOffset : List Char → Option (Int × List Char)
  | 'Z' :: rest | 'z' :: rest => some (0, rest)
  | c :: rest => do
    let sign ← if c = '+' then some (1 : Int) else if c = '-' ∨ c = '−' then some (-1) else none
    let (hours, rest) ← readPair rest
    let (minutes, rest) ← readPair (rest.dropWhile fun c => c == ':' || Text.isBlank c)
    if 60 ≤ minutes then none
    else
      let offset : Int := (hours * 3600 + minutes * 60 : Nat)
      if 86400 ≤ offset then none else some (sign * offset, rest)
  | [] => none

def readZone (cs : List Char) : Option (Int × List Char) :=
  let cs := cs.dropWhile Text.isBlank
  if (cs.take 3).map Char.toUpper = ['U', 'T', 'C'] then some (0, cs.drop 3) else readOffset cs

/-- The years that a calendar date may have. -/
def firstYear : Int := -262143

def lastYear : Int := 262142

/-- Whether the calendar reaches a point in time. -/
def inCalendar (t : Instant) : Bool :=
  dayNumber firstYear 1 1 * 86400 ≤ t.seconds && t.seconds < dayNumber (lastYear + 1) 1 1 * 86400

/-- The sixtieth second of a minute is a leap second. The calendar has to reach both the date as
it is written and that in universal time. -/
def parse (text : String) : Option Instant := do
  let (year, cs) ← readYear text.toList
  let (month, cs) ← readNumber 2 (← readMark '-' cs)
  let (day, cs) ← readNumber 2 (← readMark '-' cs)
  let cs ← match cs with
    | 'T' :: cs | 't' :: cs | ' ' :: cs => some cs
    | _ => none
  let (hour, cs) ← readNumber 2 cs
  let (minute, cs) ← readNumber 2 (← readMark ':' cs)
  let (second, cs) ← readNumber 2 (← readMark ':' cs)
  let (nanos, cs) ← readFraction cs
  let (offset, cs) ← readZone cs
  if !(cs.dropWhile Text.isBlank).isEmpty then none
  else if !(1 ≤ month ∧ month ≤ 12 ∧ 1 ≤ day ∧ day ≤ daysInMonth year month) then none
  else if !(hour ≤ 23 ∧ minute ≤ 59 ∧ second ≤ 60) then none
  else if !(firstYear ≤ year ∧ year ≤ lastYear) then none
  else
    let leap := second = 60
    let ofDay : Nat := hour * 3600 + minute * 60 + if leap then 59 else second
    let t : Instant := ⟨dayNumber year month day * 86400 + ofDay - offset,
      if leap then nanos + 1000000000 else nanos⟩
    if t.inCalendar then some t else none

end Reading

end Instant

end Flowgraph
