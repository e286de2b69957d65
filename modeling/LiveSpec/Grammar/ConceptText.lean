import LiveSpec.Grammar.StepText
import LiveSpec.Grammar.TableRow

/-!
# Reading concepts

A concept file is a sequence of concepts. A heading of level one opens a concept: its text is read
like the text of a step, all arguments have to be references, and no name may be declared twice.
The steps up to the next such heading are its body, and there has to be at least one. Table rows
belong to the step that they directly follow. All other lines only end what a row could be attached
to.

`ConceptDraft.Open.read` is the rule for one line and `Concept.parseAll` reads a whole file, up to
the first fault. That a concept has no steps is noticed at the next heading or at the end of the
text, and reported at the line of the concept.
-/

set_option autoImplicit false

namespace LiveSpec

/-- A concept that is being read: its root step without the body, and the body with the newest step
first. -/
structure ConceptDraft where
  root : Step
  steps : List Step
  deriving Repr, Inhabited

namespace ConceptDraft

/-- The concept as read so far. -/
def concept (draft : ConceptDraft) (file : Path) : Concept :=
  .ofRoot file { draft.root with body := draft.steps.reverse }

/-- Fails if the concept has no steps. -/
def requireSteps (draft : ConceptDraft) : Except Refusal Unit :=
  match draft.steps with
  | [] => .error ⟨draft.root.line, .conceptWithoutSteps draft.root.text⟩
  | _ :: _ => .ok ()

end ConceptDraft

/-- The first fault among the parameters of a concept heading, from left to right. `seen` are the
names before these. -/
def parameterFault? (seen : List String) : List Argument → Option Fault
  | [] => none
  | .dynamic name :: rest =>
    if seen.contains name then some (.repeatedParameter name)
    else parameterFault? (name :: seen) rest
  | _ :: _ => some .literalParameter

/-- Reads a concept heading. -/
def ConceptDraft.ofHeading (text : String) (line : Nat) : Except Fault ConceptDraft :=
  match StepText.parse text line with
  | .error fault => .error fault
  | .ok root =>
    match parameterFault? [] root.arguments with
    | some fault => .error fault
    | none => .ok ⟨root, []⟩

/-- A concept file that is being read: the concepts, newest first, and what a table row on the next
line would be attached to. -/
structure ConceptFileDraft where
  concepts : List ConceptDraft
  target : RowTarget
  deriving Repr, Inhabited

namespace ConceptFileDraft

/-- Nothing has been read. -/
def empty : ConceptFileDraft := ⟨[], .nothing⟩

/-- Fails if the newest concept has no steps. -/
def requireSteps (draft : ConceptFileDraft) : Except Refusal Unit :=
  match draft.concepts with
  | [] => .ok ()
  | newest :: _ => newest.requireSteps

/-- Reads a table row. -/
def readRow (draft : ConceptFileDraft) (number : Nat) (cells : List String) :
    Except Fault ConceptFileDraft :=
  match draft.target, draft.concepts with
  | .nothing, _ => .error .tableWithoutStep
  | target, ⟨root, step :: steps⟩ :: earlier =>
    (step.readRow (target == .stepTable) cells number).map fun extended ↦
      ⟨⟨root, extended :: steps⟩ :: earlier, .stepTable⟩
  | _, _ => .error .tableWithoutStep

/-- The rule for a line with a given number. -/
def read (draft : ConceptFileDraft) (number : Nat) : Line → Except Refusal ConceptFileDraft
  | .heading 1 text => do
    draft.requireSteps
    let opened ← (ConceptDraft.ofHeading text number).mapError (Refusal.mk number)
    return ⟨opened :: draft.concepts, .nothing⟩
  | .step text =>
    match draft.concepts with
    | [] => .error ⟨number, .stepOutsideConcept⟩
    | ⟨root, steps⟩ :: earlier => do
      let step ← (StepText.parse text number).mapError (Refusal.mk number)
      return ⟨⟨root, step :: steps⟩ :: earlier, .step⟩
  | .tableRow cells => (draft.readRow number cells).mapError (Refusal.mk number)
  | _ => .ok { draft with target := .nothing }

/-- Reads the lines from a given number on, up to the first fault. -/
def readAll (number : Nat) (draft : ConceptFileDraft) : List Line → Except Refusal ConceptFileDraft
  | [] => .ok draft
  | line :: rest =>
    match draft.read number line with
    | .error refusal => .error refusal
    | .ok next => next.readAll (number + 1) rest

/-- The concepts that have been read, in source order, if the last one has steps. -/
def finish (draft : ConceptFileDraft) (file : Path) : Except Refusal (List Concept) := do
  draft.requireSteps
  return (draft.concepts.map fun concept ↦ concept.concept file).reverse

end ConceptFileDraft

/-- Reads concepts from their classified lines. -/
def Concept.ofLines (file : Path) (lines : List Line) : Except Refusal (List Concept) := do
  let draft ← ConceptFileDraft.empty.readAll 1 lines
  draft.finish file

/-- Reads every concept of a concept file. -/
def Concept.parseAll (file : Path) (text : String) : Except ParseError (List Concept) :=
  (Concept.ofLines file (Line.classifyAll text)).mapError fun refusal ↦ refusal.inFile file

end LiveSpec
