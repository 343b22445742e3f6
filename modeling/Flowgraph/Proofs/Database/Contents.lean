import Flowgraph.Database.Reply
import Mathlib.Data.List.Perm.Basic

/-! What a statement makes of the tables of a database, and what comes back. A statement may leave
open how rows are arranged, so an outcome is a relation. Insertions are left out. -/

namespace Flowgraph.Database

/-- The rows of every table. -/
abbrev Contents := String → List Row

def Contents.put (contents : Contents) (table : String) (rows : List Row) : Contents :=
  fun other => if other = table then rows else contents other

/-- Times and identifiers have an order of their own. -/
def Cell.Less : Cell → Cell → Prop
  | .time a, .time b => a < b
  | .uuid a, .uuid b => a.bits < b.bits
  | _, _ => False

namespace Row

def value (row : Row) (column : String) : Cell := (row.lookup column).getD .null

def project (columns : List String) (row : Row) : Row := columns.map fun c => (c, row.value c)

end Row

section Statements

variable (params : List Cell) (contents : Contents)

/-- Parameters are numbered from 1. -/
def bound (n : Nat) : Cell := (params[n - 1]?).getD .null

/-- Nothing equals null, and whether null is among texts is not known either. -/
def Test.holds (row : Row) : Test → Bool
  | .equals column n => row.value column ≠ .null && row.value column = bound params n
  | .noneOf column texts =>
    match row.value column with
    | .text s => s ∉ texts
    | _ => false

def passes (tests : List Test) (row : Row) : Bool := tests.all (Test.holds params row)

def Order.Puts (o : Order) (a b : Row) : Prop :=
  if o.descending then (b.value o.column).Less (a.value o.column)
  else (a.value o.column).Less (b.value o.column)

/-- The first row may stand before the second: no order puts it after, unless an earlier one puts it
before. -/
def MayPrecede (a b : Row) : List Order → Prop
  | [] => True
  | o :: rest => o.Puts a b ∨ (¬ o.Puts b a ∧ MayPrecede a b rest)

/-- The rows that pass the tests, in some arrangement that the orders permit. -/
def Selection.Returns (s : Selection) (rows : List Row) : Prop :=
  ∃ arranged : List Row, arranged.Perm ((contents s.table).filter (passes params s.tests)) ∧
    arranged.Pairwise (fun a b => MayPrecede a b s.orders) ∧
      rows = ((match s.limit with
        | some n => arranged.take n
        | none => arranged).map (Row.project s.columns))

/-- The rows that a filter meets. A column can be compared to a selection of one row at most, and if
there is none, nothing is equal to it. -/
inductive Filter.Meets : Filter → (Row → Bool) → Prop
  | tests {ts} : Meets (.tests ts) (passes params ts)
  | nothing {column s} : s.Returns params contents [] → Meets (.selected column s) fun _ => false
  | one {column s name cell} : s.Returns params contents [[(name, cell)]] →
    Meets (.selected column s) fun row => row.value column ≠ .null && row.value column = cell

def Assigned.value (row : Row) (column : String) : Assigned → Cell
  | .param n => bound params n
  | .paramIf flag n => if bound params flag = .bool true then bound params n else row.value column

/-- All new values are found before any of them is set. -/
def Row.assign (sets : List (String × Assigned)) (row : Row) : Row :=
  row.map fun kv =>
    (kv.1, ((sets.lookup kv.1).map (Assigned.value params row kv.1)).getD kv.2)

/-- Rows of the table refer to rows of the parent, and are deleted with them. -/
structure ForeignKey where
  table : String
  column : String
  parent : String

def foreignKeys : List ForeignKey :=
  [⟨"executions", "workflow_id", "workflows"⟩, ⟨"execution_logs", "execution_id", "executions"⟩]

def Contents.Has (contents : Contents) (table : String) (id : Cell) : Prop :=
  ∃ row ∈ contents table, row.value "id" = id

instance (table : String) (id : Cell) : Decidable (contents.Has table id) :=
  inferInstanceAs (Decidable (∃ row ∈ contents table, row.value "id" = id))

/-- A row goes if what it refers to stood before and stands no more. -/
def ForeignKey.follow (before now : Contents) (key : ForeignKey) : Contents :=
  now.put key.table ((now key.table).filter fun row =>
    ¬ (before.Has key.parent (row.value key.column) ∧ ¬ now.Has key.parent (row.value key.column)))

def Contents.delete (table : String) (gone : Row → Bool) : Contents :=
  foreignKeys.foldl (ForeignKey.follow contents)
    (contents.put table ((contents table).filter fun row => ¬ gone row))

/-- What a statement may reply, and the tables after it. -/
inductive Statement.Outcome : Statement → Reply → Contents → Prop
  | selected {s rows} : s.Returns params contents rows → Outcome (.select s) (.rows rows) contents
  | updated {table sets filter meets} : filter.Meets params contents meets →
    Outcome (.update table sets filter) (.affected ((contents table).countP meets))
      (contents.put table ((contents table).map fun row =>
        if meets row then row.assign params sets else row))
  | deleted {table tests} :
    Outcome (.delete table tests) (.affected ((contents table).countP (passes params tests)))
      (contents.delete table (passes params tests))

end Statements

def Query.Outcome (q : Query) (contents : Contents) : Reply → Contents → Prop :=
  q.statement.Outcome q.params contents

end Flowgraph.Database
