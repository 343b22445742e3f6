import Flowgraph.Store.Row

/-! Database statements as trees, and their text. A parameter stands as its number after a
dollar sign. -/

namespace Flowgraph.Database

/-- A value of a column or a parameter. A database keeps a time as the number of microseconds
since the start of 2000. -/
inductive Cell
  | null
  | uuid (id : Uuid)
  | text (s : String)
  | json (v : Json)
  | bool (b : Bool)
  | time (micros : Int)
  deriving DecidableEq

namespace Cell

/-- The start of 2000 in seconds since the start of 1970. -/
def epoch : Int := 946684800

/-- Less than a microsecond is cut off, before 2000 as after it, and a leap second runs on into the
next minute. -/
def ofInstant (t : Instant) : Cell :=
  .time (((t.seconds - epoch) * 1000000000 + t.nanos).tdiv 1000)

/-- The point in time that a number of microseconds stands for. -/
def instant (micros : Int) : Instant := .ofMicros (micros + epoch * 1000000)

end Cell

abbrev Row := List (String × Cell)

inductive Operand
  | param (n : Nat)
  | quoted (s : String)
  deriving DecidableEq

/-- What a column is set to. -/
inductive Assigned
  | param (n : Nat)
  /-- The second parameter if the first is true; else the column keeps its value. -/
  | paramIf (flag value : Nat)
  deriving DecidableEq

inductive Test
  | equals (column : String) (n : Nat)
  | noneOf (column : String) (texts : List String)
  deriving DecidableEq

structure Order where
  column : String
  descending : Bool
  deriving DecidableEq

structure Selection where
  columns : List String
  table : String
  tests : List Test
  orders : List Order
  limit : Option Nat
  deriving DecidableEq

inductive Filter
  | tests (ts : List Test)
  /-- A row whose column has the value that is selected. -/
  | selected (column : String) (s : Selection)
  deriving DecidableEq

inductive Statement
  | insert (table : String) (cells : List (String × Operand)) (returning : List String)
  | select (s : Selection)
  | update (table : String) (sets : List (String × Assigned)) (filter : Filter)
  | delete (table : String) (tests : List Test)
  deriving DecidableEq

def quoted (s : String) : String := "'" ++ s ++ "'"

def paramText (n : Nat) : String := s!"${n}"

def Operand.text : Operand → String
  | param n => paramText n
  | quoted s => Database.quoted s

def Assigned.text (column : String) : Assigned → String
  | param n => paramText n
  | paramIf flag value =>
    s!"CASE WHEN {paramText flag} THEN {paramText value} ELSE {column} END"

def Test.text : Test → String
  | equals column n => s!"{column} = {paramText n}"
  | noneOf column texts => s!"{column} NOT IN (" ++ ", ".intercalate (texts.map quoted) ++ ")"

def testsText (ts : List Test) : String := " AND ".intercalate (ts.map Test.text)

def Order.text (o : Order) : String := o.column ++ if o.descending then " DESC" else ""

def columnsText (columns : List String) : String := ", ".intercalate columns

def Selection.text (s : Selection) : String :=
  s!"SELECT {columnsText s.columns} FROM {s.table} WHERE {testsText s.tests}" ++
    (if s.orders.isEmpty then "" else " ORDER BY " ++ ", ".intercalate (s.orders.map Order.text)) ++
    (match s.limit with
      | some n => s!" LIMIT {n}"
      | none => "")

def Filter.text : Filter → String
  | tests ts => testsText ts
  | selected column s => s!"{column} = ( {s.text} )"

def Statement.text : Statement → String
  | insert table cells returning =>
    s!"INSERT INTO {table} ({columnsText (cells.map (·.1))}) VALUES (" ++
      ", ".intercalate (cells.map (·.2.text)) ++ s!") RETURNING {columnsText returning}"
  | select s => s.text
  | update table sets filter =>
    s!"UPDATE {table} SET " ++
      ", ".intercalate (sets.map fun (column, a) => s!"{column} = " ++ a.text column) ++
      s!" WHERE {filter.text}"
  | delete table ts => s!"DELETE FROM {table} WHERE {testsText ts}"

end Flowgraph.Database
