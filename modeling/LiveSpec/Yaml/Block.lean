import LiveSpec.Yaml.Cursor

/-!
# Block scalars

A block scalar is a run of indented lines behind a header (`BlockHeader.read?`). The header says how
the line breaks at the end count, and how far the lines are indented if that cannot be seen from the
first of them. In a literal scalar the lines stay as they are; in a folded one a single break between
two lines that start with no white space stands for a space.
-/

set_option autoImplicit false

namespace LiveSpec.Yaml

/-- How the line breaks at the end of a block scalar count. -/
inductive Chomping where
  | strip
  /-- One of them counts. -/
  | clip
  | keep
  deriving DecidableEq, Inhabited

/-- What the header of a block scalar says. -/
structure BlockHeader where
  chomping : Chomping
  /-- How much further than the block around it the scalar is indented, if the header says so. -/
  indentation : Option Nat
  /-- How many characters the header has. -/
  length : Nat

namespace BlockHeader

/-- The chomping that a character asks for. -/
def chomping? : Char → Option Chomping
  | '+' => some .keep
  | '-' => some .strip
  | _ => none

/-- The indentation that a digit asks for. -/
def digit? (c : Char) : Option Nat := if c.isDigit then some (c.toNat - '0'.toNat) else none

/-- Reads a header: a sign and a digit, in either order, or one of them, or nothing. A zero is
refused. -/
def read? (rest : List Char) : Option BlockHeader :=
  let header : BlockHeader :=
    match rest with
    | [] => ⟨.clip, none, 0⟩
    | first :: rest =>
      let second := rest.head?
      match chomping? first, digit? first with
      | some chomping, _ =>
        match second.bind digit? with
        | some digit => ⟨chomping, some digit, 2⟩
        | none => ⟨chomping, none, 1⟩
      | none, some digit =>
        match second.bind chomping? with
        | some chomping => ⟨chomping, some digit, 2⟩
        | none => ⟨.clip, some digit, 1⟩
      | none, none => ⟨.clip, none, 0⟩
  if header.indentation = some 0 then none else some header

end BlockHeader

/-- A place at the start of a line, how many line breaks led there, and how far the lines without
content are indented. -/
structure LineStart where
  cursor : Cursor
  breaks : Nat
  widest : Nat

/-- Passes over empty lines and over the indentation of the first one that is not empty, up to a
limit if there is one. -/
def passIndentation (limit : Option Nat) (breaks widest line column : Nat) :
    List Char → LineStart
  | [] => ⟨⟨[], line, column, true⟩, breaks, max widest column⟩
  | c :: rest =>
    if c = ' ' && limit.all (column < ·) then
      passIndentation limit breaks widest line (column + 1) rest
    else if c = '\n' then
      passIndentation limit (breaks + 1) (max widest column) (line + 1) 0 rest
    else ⟨⟨c :: rest, line, column, true⟩, breaks, max widest column⟩

/-- A block scalar of which some lines have been read. -/
structure BlockDraft where
  /-- The lines so far, backwards, without the break at the end. -/
  text : List Char
  /-- Whether there is a line that has ended. -/
  hasBreak : Bool
  /-- How many empty lines have followed it. -/
  breaks : Nat
  /-- Whether the last line started with white space. -/
  startedWithSpace : Bool
  /-- Whether the reader is in a line, behind its indentation. -/
  inLine : Bool

namespace BlockDraft

/-- Puts the line breaks in front of a line. `startsWithSpace` is about that line. -/
def join (draft : BlockDraft) (isLiteral startsWithSpace : Bool) : List Char :=
  if !isLiteral && draft.hasBreak && !draft.startedWithSpace && !startsWithSpace then
    if draft.breaks = 0 then ' ' :: draft.text else List.replicate draft.breaks '\n' ++ draft.text
  else
    List.replicate draft.breaks '\n' ++ (if draft.hasBreak then '\n' :: draft.text else draft.text)

/-- The scalar with the breaks at its end. `isCutOff` says whether the text ended where another line
would start or in a line. -/
def finish (draft : BlockDraft) (chomping : Chomping) (isCutOff : Bool) : String :=
  let closing (isAsked : Bool) (count : Nat) : List Char :=
    if isAsked then List.replicate count '\n' else []
  String.ofList
    (draft.text.reverse ++ closing (chomping ≠ .strip && draft.hasBreak) 1 ++
      closing (chomping ≠ .strip && isCutOff) 1 ++ closing (chomping = .keep) draft.breaks)

/-- Reads the lines of a scalar that are indented up to a column. -/
def read (isLiteral : Bool) (chomping : Chomping) (indentation : Nat) (draft : BlockDraft)
    (isIndenting : Bool) (line column : Nat) : List Char → String × Cursor
  | [] =>
    (draft.finish chomping (max indentation 1 ≤ column), ⟨[], line, column, isIndenting⟩)
  | c :: rest =>
    if c = '\n' then
      let ended := if draft.inLine then { draft with hasBreak := true, inLine := false }
        else { draft with breaks := draft.breaks + 1 }
      read isLiteral chomping indentation ended true (line + 1) 0 rest
    else if draft.inLine then
      read isLiteral chomping indentation { draft with text := c :: draft.text } false line
        (column + 1) rest
    else if c = ' ' && column < indentation then
      read isLiteral chomping indentation draft true line (column + 1) rest
    else if column < indentation || (indentation = 0 && startsWithTriple '.' (c :: rest)) then
      (draft.finish chomping false, ⟨c :: rest, line, column, true⟩)
    else
      read isLiteral chomping indentation
        ⟨c :: draft.join isLiteral (isSpace c), false, 0, isSpace c, true⟩ false line (column + 1)
        rest

end BlockDraft

/-- The scalar of which only the header is there. -/
def Chomping.emptyScalar (chomping : Chomping) (hasLine : Bool) (breaks : Nat) : String :=
  if chomping = .strip || !hasLine then ""
  else if chomping = .clip then "\n"
  else String.ofList (List.replicate (max breaks 1) '\n')

/-- Reads a block scalar from its mark on. `outer` is the indentation of the block around it. -/
def Cursor.readBlock (cursor : Cursor) (isLiteral : Bool) (outer : Int) :
    Option (String × Cursor) := do
  let behindMark := cursor.pass 1
  let header ← BlockHeader.read? behindMark.rest
  let space ← (behindMark.pass header.length).skipSpace
  if !isAtLineEnd space.cursor.rest then none
  let hasLine := !space.cursor.rest.isEmpty
  let first := if hasLine then space.cursor.passBreak else space.cursor
  if first.rest.head? = some '\t' then none
  let limit := header.indentation.map fun further ↦ (max outer 0).toNat + further
  let start := passIndentation limit 0 0 first.line first.column first.rest
  let indentation := limit.getD (max start.widest (outer + 1).toNat)
  if start.cursor.rest.isEmpty then
    return (header.chomping.emptyScalar hasLine start.breaks, start.cursor)
  let column := start.cursor.column
  if column < indentation && outer < (column : Int) then none
  return BlockDraft.read isLiteral header.chomping indentation ⟨[], false, start.breaks, false, false⟩
    true start.cursor.line column start.cursor.rest

end LiveSpec.Yaml
