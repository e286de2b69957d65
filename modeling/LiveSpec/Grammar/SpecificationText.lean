import LiveSpec.Grammar.StepText
import LiveSpec.Grammar.TableRow

/-!
# Reading specifications

A specification is read line by line into a draft. The draft is in one of three parts of the text
(`Part`): before the first scenario, in a scenario, or after the marker of the teardown. What has
been read is kept with the newest first, and `Part.items` puts it into source order.

`Draft.read` is the rule for one line. A step, a scenario heading, the marker and a row that stands
alone need the heading before them. A row continues what the line above it left open, a line of any
other kind closes it. Every line but a blank one, a scenario heading and the marker extends the span
of the scenario that it stands in.

`Specification.parse` reads all lines, stops at the first fault, and reports the line of it; a text
that ends without a heading is at fault in line one.
-/

set_option autoImplicit false

namespace LiveSpec

/-- A scenario that is being read. -/
structure ScenarioDraft where
  heading : Heading
  /-- The last line so far that belongs to the scenario. -/
  last : Nat
  /-- The items so far, newest first. -/
  items : List ScenarioItem
  deriving Repr, Inhabited

namespace ScenarioDraft

/-- The scenario that a heading opens. -/
def ofHeading (text : String) (line : Nat) : ScenarioDraft := ⟨⟨text, line⟩, line, []⟩

/-- The scenario with one more item. -/
def add (draft : ScenarioDraft) (item : ScenarioItem) : ScenarioDraft :=
  { draft with items := item :: draft.items }

/-- The scenario as read so far. -/
def scenario (draft : ScenarioDraft) : Scenario :=
  ⟨draft.heading, ⟨draft.heading.line, draft.last⟩, draft.items.reverse⟩

end ScenarioDraft

/-- The part of the text that the reader is in, with what it has read. All lists have the newest
first. -/
inductive Part where
  /-- Before the first scenario and the teardown. -/
  | opening (items : List SpecItem)
  /-- In a scenario, with the items before it. -/
  | scenario (before : List SpecItem) (current : ScenarioDraft)
  /-- After the marker of the teardown: the items before it, its line, its steps and the comments
  among and after them. -/
  | tearDown (before : List SpecItem) (marker : Nat) (steps : List Step) (comments : List Comment)
  deriving Repr, Inhabited

namespace Part

/-- Everything before the next scenario or the teardown, newest first. -/
def closed : Part → List SpecItem
  | opening items => items
  | scenario before current => .scenario current.scenario :: before
  | tearDown before marker steps comments =>
    comments.map .comment ++ .tearDown ⟨marker, steps.reverse⟩ :: before

/-- The items read so far, in source order. -/
def items (part : Part) : List SpecItem := part.closed.reverse

/-- Extends the span of the scenario that a line stands in, if it stands in one. -/
def cover (line : Nat) : Part → Part
  | scenario before current => scenario before { current with last := line }
  | part => part

/-- Adds a comment. -/
def addComment (comment : Comment) : Part → Part
  | opening items => opening (.comment comment :: items)
  | scenario before current => scenario before (current.add (.comment comment))
  | tearDown before marker steps comments => tearDown before marker steps (comment :: comments)

/-- Adds a step: a context, a step of the scenario or one of the teardown. -/
def addStep (step : Step) : Part → Part
  | opening items => opening (.context step :: items)
  | scenario before current => scenario before (current.add (.step step))
  | tearDown before marker steps comments => tearDown before marker (step :: steps) comments

/-- Adds tags. -/
def addTags (tags : Tags) : Part → Except Fault Part
  | opening items => .ok (opening (.tags tags :: items))
  | scenario before current => .ok (scenario before (current.add (.tags tags)))
  | tearDown .. => .error .tagsInTearDown

/-- Opens a scenario. -/
def openScenario (text : String) (line : Nat) : Part → Except Fault Part
  | tearDown .. => .error .scenarioAfterTearDown
  | part => .ok (scenario part.closed (.ofHeading text line))

/-- Opens the teardown, unless it is open already. -/
def openTearDown (line : Nat) : Part → Part
  | tearDown before marker steps comments => tearDown before marker steps comments
  | part => tearDown part.closed line [] []

/-- Changes the step that was read last. -/
def changeLastStep (change : Step → Except Fault Step) : Part → Except Fault Part
  | opening (.context step :: items) =>
    (change step).map fun changed ↦ opening (.context changed :: items)
  | scenario before ⟨heading, last, .step step :: items⟩ =>
    (change step).map fun changed ↦ scenario before ⟨heading, last, .step changed :: items⟩
  | tearDown before marker (step :: steps) comments =>
    (change step).map fun changed ↦ tearDown before marker (changed :: steps) comments
  | _ => .error .tableWithoutStep

/-- Opens the data table with its header row. It is the only one, and it stands before the first
scenario. -/
def openDataTable (cells : List String) (line : Nat) : Part → Except Fault Part
  | opening items =>
    if items.any fun item ↦ item.dataTable?.isSome then .error .severalDataTables
    else .ok (opening (.dataTable (.ofHeaderRow cells line) :: items))
  | _ => .error .tableWithoutStep

/-- Reads a row of the data table that was opened last. -/
def readDataRow (cells : List String) : Part → Except Fault Part
  | opening (.dataTable table :: items) =>
    (table.readRow cells).map fun extended ↦ opening (.dataTable extended :: items)
  | part => .ok part

end Part

/-- A specification that is being read. -/
structure Draft where
  heading : Option Heading
  part : Part
  /-- What a table row on the next line would be attached to. -/
  target : RowTarget
  deriving Repr, Inhabited

namespace Draft

/-- Nothing has been read. -/
def empty : Draft := ⟨none, .opening [], .nothing⟩

/-- Fails unless the heading has been read. -/
def requireHeading (draft : Draft) : Except Fault Unit :=
  if draft.heading.isSome then .ok () else .error .headingNotYetFound

/-- Reads a table row. -/
def readRow (draft : Draft) (number : Nat) (cells : List String) : Except Fault Draft :=
  match draft.target with
  | .nothing => do
    draft.requireHeading
    let part ← draft.part.openDataTable cells number
    return { draft with part, target := .dataTable }
  | .dataTable => do
    let part ← draft.part.readDataRow cells
    return { draft with part, target := .dataTable }
  | .step => do
    let part ← draft.part.changeLastStep fun step ↦ step.readRow false cells number
    return { draft with part, target := .stepTable }
  | .stepTable => do
    let part ← draft.part.changeLastStep fun step ↦ step.readRow true cells number
    return { draft with part, target := .stepTable }

/-- The rule for a line with a given number. -/
def read (draft : Draft) (number : Nat) : Line → Except Fault Draft
  | .blank => .ok { draft with target := .nothing }
  | .heading 1 text =>
    if draft.heading.isSome then .error .severalHeadings
    else
      .ok ⟨some ⟨text, number⟩, draft.part.cover number, .nothing⟩
  | .heading 2 text => do
    draft.requireHeading
    let part ← draft.part.openScenario text number
    return { draft with part, target := .nothing }
  | .heading _ text =>
    .ok { draft with part := (draft.part.cover number).addComment ⟨text, number⟩, target := .nothing }
  | .comment text =>
    .ok { draft with part := (draft.part.cover number).addComment ⟨text, number⟩, target := .nothing }
  | .step text => do
    draft.requireHeading
    let step ← StepText.parse text number
    return { draft with part := (draft.part.cover number).addStep step, target := .step }
  | .tags values => do
    let part ← (draft.part.cover number).addTags ⟨values, number⟩
    return { draft with part, target := .nothing }
  | .tearDown => do
    draft.requireHeading
    return { draft with part := draft.part.openTearDown number, target := .nothing }
  | .tableRow cells => { draft with part := draft.part.cover number }.readRow number cells

/-- Reads the lines from a given number on, up to the first fault. -/
def readAll (number : Nat) (draft : Draft) : List Line → Except Refusal Draft
  | [] => .ok draft
  | line :: rest =>
    match draft.read number line with
    | .error fault => .error ⟨number, fault⟩
    | .ok next => next.readAll (number + 1) rest

/-- The specification that has been read, if it has a heading. -/
def finish (draft : Draft) (file : Path) : Except Refusal Specification :=
  match draft.heading with
  | none => .error ⟨1, .headingNotFound⟩
  | some heading => .ok ⟨heading, file, draft.part.items, .empty⟩

end Draft

/-- Reads a specification from its classified lines. -/
def Specification.ofLines (file : Path) (lines : List Line) : Except Refusal Specification := do
  let draft ← Draft.empty.readAll 1 lines
  draft.finish file

/-- Reads a specification. Invocations of concepts are left as they stand. -/
def Specification.parse (file : Path) (text : String) : Except ParseError Specification :=
  (Specification.ofLines file (Line.classifyAll text)).mapError fun refusal ↦ refusal.inFile file

end LiveSpec
