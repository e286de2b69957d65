/-!
# Tables and arguments

A step is written with arguments: literals in double quotes, references to parameters in angle
brackets, and at most one table below the step. A table is also what a specification runs over, its
data table. Tables know the line of their header row.
-/

set_option autoImplicit false

namespace LiveSpec

/-- A table: its header cells, its rows and the line of the header row. -/
structure Table where
  headers : List String
  rows : List (List String)
  line : Nat
  deriving DecidableEq, Repr, Inhabited

namespace Table

/-- The table that a header row opens. -/
def ofHeaderRow (cells : List String) (line : Nat) : Table := ⟨cells, [], line⟩

/-- A table without header cells counts as empty, whatever rows it has. -/
def isEmpty (table : Table) : Bool := table.headers.isEmpty

/-- The table with one more row at its end. -/
def addRow (table : Table) (cells : List String) : Table :=
  { table with rows := table.rows ++ [cells] }

/-- Every cell of the table, the header first. -/
def cells (table : Table) : List String := table.headers ++ table.rows.flatten

end Table

/-- One argument of a step, by the way it was written. -/
inductive Argument where
  /-- A literal in double quotes. -/
  | static (text : String)
  /-- A parameter in angle brackets, looked up in the enclosing invocation. -/
  | dynamic (name : String)
  /-- A table below the step. -/
  | table (content : Table)
  /-- A table argument of which only a label is known. -/
  | absentTable (label : String)
  deriving DecidableEq, Repr, Inhabited

namespace Argument

/-- What stands for the argument when a signature is shown with its arguments. -/
def shown : Argument → String
  | static text => text
  | dynamic name => name
  | table _ => "table"
  | absentTable _ => "table"

/-- The text that the argument was given with: that of a literal, a name or a label. A table has
none. -/
def label : Argument → String
  | static text => text
  | dynamic name => name
  | table _ => ""
  | absentTable label => label

/-- The table of the argument, if it has one. -/
def table? : Argument → Option Table
  | table content => some content
  | _ => none

/-- The parameter that the argument refers to, if it refers to one. -/
def reference? : Argument → Option String
  | dynamic name => some name
  | _ => none

end Argument

end LiveSpec
