import LiveSpec.Proofs.Grammar.Layout
import LiveSpec.Proofs.Grammar.Reading

/-!
# The outline of a specification

The outline of a specification are the headings and spans of its scenarios. It can be read off the kinds of
the lines alone (`extentsFrom`): every scenario heading opens a span, which ends with the last line that is
written, rather than blank, before the next section (`lastWritten`).

The reader moves the end of a span along before it looks at what is on the line. Without everything else that
it does this is a reader of its own (`Outline.read`), which never fails. Reading a text takes the outline of a
draft along in the same steps (`Draft.outline_readAll`), so the outline of a specification is that of its lines
(`Specification.map_extent_scenarios`).
-/

set_option autoImplicit false

namespace LiveSpec

/-! ### Spans read off lines -/

/-- The number of the last line that is written before the next section, or `last` if there is none. The
first of the lines has the given number. -/
def lastWritten (last number : Nat) : List Line → Nat
  | [] => last
  | line :: below =>
    if line.endsOpening then last
    else lastWritten (if line = .blank then last else number) (number + 1) below

/-- The headings of scenarios in some lines, each with the span that it opens. The first of the lines has the
given number. -/
def extentsFrom (number : Nat) : List Line → List (Heading × Span)
  | [] => []
  | .heading 2 text :: below =>
    (⟨text, number⟩, ⟨number, lastWritten number (number + 1) below⟩) :: extentsFrom (number + 1) below
  | _ :: below => extentsFrom (number + 1) below

/-- The heading and the span of a scenario. -/
def Scenario.extent (scenario : Scenario) : Heading × Span := (scenario.heading, scenario.span)

/-- The headings and the spans of the scenarios among some items. -/
def extentsOf (items : List SpecItem) : List (Heading × Span) :=
  (items.filterMap SpecItem.scenario?).map Scenario.extent

section Extents

variable {number : Nat} {line : Line} {below : List Line}

theorem extentsFrom_cons_of_not (h : line.isScenarioHeading = false) :
    extentsFrom number (line :: below) = extentsFrom (number + 1) below := by
  rw [extentsFrom]
  rintro text rfl
  cases h

@[simp] theorem extentsOf_append (items others : List SpecItem) :
    extentsOf (items ++ others) = extentsOf items ++ extentsOf others := by
  simp [extentsOf]

@[simp] theorem extentsOf_comments (comments : List Comment) :
    extentsOf (comments.map SpecItem.comment) = [] := by
  simp [extentsOf, List.filterMap_map, Function.comp_def, SpecItem.scenario?]

end Extents

/-! ### Reading an outline -/

/-- The outline of what has been read: the scenarios that are closed, and the heading and the last line so far
of the one that is still open. -/
structure Outline where
  closed : List (Heading × Span)
  current : Option (Heading × Nat)

namespace Outline

/-- The extent of the open scenario as far as it goes. -/
def open? (outline : Outline) : Option (Heading × Span) :=
  outline.current.map fun (heading, last) ↦ (heading, ⟨heading.line, last⟩)

/-- All headings and spans. -/
def extents (outline : Outline) : List (Heading × Span) := outline.closed ++ outline.open?.toList

/-- Moves the end of the open scenario along. -/
def cover (outline : Outline) (number : Nat) : Outline :=
  { outline with current := outline.current.map fun (heading, _) ↦ (heading, number) }

/-- Closes the open scenario. -/
def close (outline : Outline) : Outline := ⟨outline.extents, none⟩

/-- Opens a scenario. -/
def openScenario (outline : Outline) (heading : Heading) : Outline :=
  ⟨outline.extents, some (heading, heading.line)⟩

/-- The rule for a line with a given number. -/
def read (outline : Outline) (number : Nat) : Line → Outline
  | .blank => outline
  | .heading 2 text => outline.openScenario ⟨text, number⟩
  | .tearDown => outline.close
  | _ => outline.cover number

/-- Reads the lines from a given number on. -/
def readAll (number : Nat) (outline : Outline) : List Line → Outline
  | [] => outline
  | line :: below => (outline.read number line).readAll (number + 1) below

variable {outline : Outline} {number : Nat} {line : Line}

/-- A written line that begins no section belongs to the open scenario. -/
theorem read_eq_cover (hends : line.endsOpening = false) (hblank : line ≠ .blank) :
    outline.read number line = outline.cover number := by
  unfold read
  split
  · exact absurd rfl hblank
  · cases hends
  · cases hends
  · rfl

/-- The extents at the end are those that were closed, the open one up to the last line written in its
section, and those of the headings below. -/
theorem extents_readAll (outline : Outline) (number : Nat) (lines : List Line) :
    (outline.readAll number lines).extents =
      outline.closed ++ (outline.current.map fun (heading, last) ↦
        (heading, ⟨heading.line, lastWritten last number lines⟩)).toList ++
        extentsFrom number lines := by
  induction lines generalizing outline number with
  | nil => simp [readAll, extents, open?, lastWritten, extentsFrom]
  | cons line below ih =>
    rw [readAll, ih]
    by_cases hends : line.endsOpening = true
    · -- The line closes the open scenario, at the line that was written last.
      have hlast : ∀ last, lastWritten last number (line :: below) = last := by
        simp [lastWritten, hends]
      cases line with
      | tearDown =>
        simp only [hlast]
        rw [extentsFrom_cons_of_not rfl]
        simp [read, close, extents, open?]
      | heading level text =>
        have hlevel : level = 2 := by
          simpa [Line.endsOpening, Line.isTearDown] using hends
        subst hlevel
        simp only [hlast]
        simp [read, openScenario, extents, open?, extentsFrom]
      | _ => cases hends
    · rw [Bool.not_eq_true] at hends
      have hscenario : line.isScenarioHeading = false := (Bool.or_eq_false_iff.mp hends).1
      rw [extentsFrom_cons_of_not hscenario]
      by_cases hblank : line = .blank
      · simp [hblank, read, lastWritten, Line.endsOpening, Line.isScenarioHeading, Line.isTearDown]
      · rw [read_eq_cover hends hblank]
        simp [cover, lastWritten, hends, hblank, Function.comp_def]

end Outline

/-! ### The outline of a draft -/

namespace Part

/-- The outline of what has been read. -/
def outline : Part → Outline
  | opening items => ⟨extentsOf items.reverse, none⟩
  | scenario before current => ⟨extentsOf before.reverse, some (current.heading, current.last)⟩
  | tearDown before _ _ _ => ⟨extentsOf before.reverse, none⟩

variable {part next : Part} {number : Nat}

theorem extents_outline (part : Part) : part.outline.extents = extentsOf part.items := by
  cases part with
  | opening found => simp [outline, Outline.extents, Outline.open?, Part.items, closed]
  | scenario before current =>
    simp [outline, Outline.extents, Outline.open?, Part.items, closed, extentsOf, SpecItem.scenario?,
      Scenario.extent, ScenarioDraft.scenario]
  | tearDown before marker steps comments =>
    rw [Part.items, closed, List.reverse_append, List.reverse_cons, extentsOf_append, extentsOf_append,
      ← List.map_reverse, extentsOf_comments]
    simp [outline, Outline.extents, Outline.open?, extentsOf, SpecItem.scenario?]

@[simp] theorem outline_cover (part : Part) (number : Nat) :
    (part.cover number).outline = part.outline.cover number := by
  cases part <;> rfl

/-- A new item that is no scenario leaves the extents as they are. -/
theorem extentsOf_reverse_cons {items : List SpecItem} {item : SpecItem} (h : item.scenario? = none) :
    extentsOf (item :: items).reverse = extentsOf items.reverse := by
  simp [extentsOf, h]

@[simp] theorem outline_addComment (part : Part) (comment : Comment) :
    (part.addComment comment).outline = part.outline := by
  cases part with
  | opening items => exact congrArg (Outline.mk · none) (extentsOf_reverse_cons rfl)
  | _ => rfl

@[simp] theorem outline_addStep (part : Part) (step : Step) :
    (part.addStep step).outline = part.outline := by
  cases part with
  | opening items => exact congrArg (Outline.mk · none) (extentsOf_reverse_cons rfl)
  | _ => rfl

theorem outline_addTags {tags : Tags} (h : part.addTags tags = .ok next) :
    next.outline = part.outline := by
  cases part with
  | opening items =>
    cases h
    exact congrArg (Outline.mk · none) (extentsOf_reverse_cons rfl)
  | scenario before current =>
    cases h
    rfl
  | tearDown => cases h

theorem outline_openScenario {text : String} (h : part.openScenario text number = .ok next) :
    next.outline = part.outline.openScenario ⟨text, number⟩ := by
  have hextents := part.extents_outline
  cases part with
  | tearDown => cases h
  | _ =>
    cases h
    rw [Outline.openScenario, hextents]
    rfl

theorem outline_openTearDown (part : Part) (number : Nat) :
    (part.openTearDown number).outline = part.outline.close := by
  have hextents := part.extents_outline
  cases part with
  | tearDown => simp [openTearDown, outline, Outline.close, Outline.extents, Outline.open?]
  | _ =>
    rw [Outline.close, hextents]
    rfl

theorem outline_changeLastStep {change : Step → Except Fault Step}
    (h : part.changeLastStep change = .ok next) : next.outline = part.outline := by
  unfold changeLastStep at h
  split at h
  · obtain ⟨changed, -, rfl⟩ := map_eq_ok_iff.mp h
    rw [outline, outline, extentsOf_reverse_cons rfl, extentsOf_reverse_cons rfl]
  · obtain ⟨changed, -, rfl⟩ := map_eq_ok_iff.mp h
    rfl
  · obtain ⟨changed, -, rfl⟩ := map_eq_ok_iff.mp h
    rfl
  · cases h

theorem outline_openDataTable {cells : List String} (h : part.openDataTable cells number = .ok next) :
    next.outline = part.outline := by
  unfold openDataTable at h
  split at h
  · split_ifs at h
    cases h
    exact congrArg (Outline.mk · none) (extentsOf_reverse_cons rfl)
  · cases h

theorem outline_readDataRow {cells : List String} (h : part.readDataRow cells = .ok next) :
    next.outline = part.outline := by
  unfold readDataRow at h
  split at h
  · obtain ⟨extended, -, rfl⟩ := map_eq_ok_iff.mp h
    rw [outline, outline, extentsOf_reverse_cons rfl, extentsOf_reverse_cons rfl]
  · cases h
    rfl

end Part

namespace Draft

variable {draft next after : Draft} {number : Nat} {line : Line}

theorem outline_readRow {cells : List String} (h : draft.readRow number cells = .ok next) :
    next.part.outline = draft.part.outline := by
  unfold readRow at h
  split at h
  · obtain ⟨-, -, h⟩ := bind_eq_ok_iff.mp h
    obtain ⟨part, hpart, h⟩ := bind_eq_ok_iff.mp h
    cases h
    exact Part.outline_openDataTable hpart
  · obtain ⟨part, hpart, h⟩ := bind_eq_ok_iff.mp h
    cases h
    exact Part.outline_readDataRow hpart
  · obtain ⟨part, hpart, h⟩ := bind_eq_ok_iff.mp h
    cases h
    exact Part.outline_changeLastStep hpart
  · obtain ⟨part, hpart, h⟩ := bind_eq_ok_iff.mp h
    cases h
    exact Part.outline_changeLastStep hpart

/-- A line that can be read changes the outline by the rule for outlines. -/
theorem outline_read (h : draft.read number line = .ok next) :
    next.part.outline = draft.part.outline.read number line := by
  unfold read at h
  split at h
  · cases h
    rfl
  · split_ifs at h
    cases h
    exact draft.part.outline_cover number
  · obtain ⟨-, -, h⟩ := bind_eq_ok_iff.mp h
    obtain ⟨part, hpart, h⟩ := bind_eq_ok_iff.mp h
    cases h
    exact Part.outline_openScenario hpart
  · rename_i level text _ hscenario
    cases h
    have hends : (Line.heading level text).endsOpening = false := by
      simpa [Line.endsOpening, Line.isTearDown] using hscenario
    rw [Outline.read_eq_cover hends (by simp), Part.outline_addComment, Part.outline_cover]
  · cases h
    rw [Part.outline_addComment, Part.outline_cover]
    rfl
  · obtain ⟨-, -, h⟩ := bind_eq_ok_iff.mp h
    obtain ⟨step, -, h⟩ := bind_eq_ok_iff.mp h
    cases h
    rw [Part.outline_addStep, Part.outline_cover]
    rfl
  · obtain ⟨part, hpart, h⟩ := bind_eq_ok_iff.mp h
    cases h
    exact (Part.outline_addTags hpart).trans (draft.part.outline_cover number)
  · obtain ⟨-, -, h⟩ := bind_eq_ok_iff.mp h
    cases h
    exact draft.part.outline_openTearDown number
  · exact (outline_readRow h).trans (draft.part.outline_cover number)

/-- So do all lines of a text, one after another. -/
theorem outline_readAll {lines : List Line} (h : draft.readAll number lines = .ok after) :
    after.part.outline = draft.part.outline.readAll number lines := by
  induction lines generalizing draft number with
  | nil =>
    cases h
    rfl
  | cons line below ih =>
    unfold readAll at h
    split at h
    · cases h
    · rename_i next hnext
      rw [Outline.readAll, ← outline_read hnext]
      exact ih h

end Draft

/-- Assumes: a specification that has been read. Its scenarios have the headings and the spans that can be
read off the lines. -/
theorem Specification.map_extent_scenarios {file : Path} {text : String} {spec : Specification}
    (h : Specification.parse file text = .ok spec) :
    spec.scenarios.map Scenario.extent = extentsFrom 1 (Line.classifyAll text) := by
  obtain ⟨draft, heading, hread, -, rfl⟩ := parse_eq_ok_iff.mp h
  have houtline := congrArg Outline.extents (Draft.outline_readAll hread)
  rw [Part.extents_outline, Outline.extents_readAll] at houtline
  exact houtline

end LiveSpec
