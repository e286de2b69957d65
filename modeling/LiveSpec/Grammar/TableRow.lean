import LiveSpec.Grammar.Fault

/-!
# Table rows

The first row of a run of table rows is the header of a table. Every later row is a separator, which
leaves no trace, or a row that has to be as wide as the header (`Table.readRow`). A run directly
below a step is attached to the step as a table argument (`Step.readRow`).
-/

set_option autoImplicit false

namespace LiveSpec

/-- What a table row directly below the current line would be attached to. -/
inductive RowTarget where
  /-- A row here stands alone. -/
  | nothing
  /-- A row here is the header of a table for the step above. -/
  | step
  /-- A row here belongs to the table of the step above. -/
  | stepTable
  /-- A row here belongs to the data table. -/
  | dataTable
  deriving DecidableEq, Repr, Inhabited

/-- Whether a row only separates the header from the rows: every cell holds dashes and colons, and
at least one of them. -/
def isSeparatorRow (cells : List String) : Bool :=
  cells.all fun cell ↦ cell ≠ "" && cell.toList.all fun c ↦ c == '-' || c == ':'

/-- Reads a row below the header. -/
def Table.readRow (table : Table) (cells : List String) : Except Fault Table :=
  if isSeparatorRow cells then .ok table
  else if cells.length = table.headers.length then .ok (table.addRow cells)
  else .error (.rowWidth cells.length table.headers.length)

/-- Reads a row below a step. `inTable` says whether it continues the table of the step or opens
one. -/
def Step.readRow (step : Step) (inTable : Bool) (cells : List String) (line : Nat) :
    Except Fault Step :=
  match inTable, step.lastTable? with
  | true, some table => (table.readRow cells).map step.setLastTable
  | _, _ => .ok (step.addTable (.ofHeaderRow cells line))

end LiveSpec
