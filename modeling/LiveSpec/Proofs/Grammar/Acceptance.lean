import LiveSpec.Proofs.Grammar.Layout
import LiveSpec.Proofs.Grammar.Reading

/-!
# Which texts are specifications

A text can be read as a specification exactly when its lines are laid out as those of one
(`Specification.exists_parse_iff`).

A draft reflects the lines that it was read from (`Draft.Reflects`): whether there was a title, which part
of the text the reader is in, whether there was a table that stands free, and what a row on the next line
continues (`RowTarget.Continues`). The next line can be read exactly when it fits below these lines
(`Draft.Reflects.exists_read_iff`), and the draft reflects it too then (`Draft.Reflects.read`).
-/

set_option autoImplicit false

namespace LiveSpec

/-! ### Parts of a text -/

namespace Part

variable {part next : Part}

/-- The reader is before the first scenario and the teardown. -/
def isOpening : Part → Bool
  | opening _ => true
  | _ => false

/-- The reader is after the marker of the teardown. -/
def isTearDown : Part → Bool
  | tearDown .. => true
  | _ => false

/-- The reader is before the first scenario and has read a data table. -/
def hasDataTable : Part → Bool
  | opening items => items.any fun item ↦ item.dataTable?.isSome
  | _ => false

/-- The step that was read last, if nothing came after it. -/
def lastStep? : Part → Option Step
  | opening (.context step :: _) => some step
  | scenario _ ⟨_, _, .step step :: _⟩ => some step
  | tearDown _ _ (step :: _) _ => some step
  | _ => none

/-- Two parts are the same place in the text, with or without a data table. -/
structure SamePlace (part next : Part) : Prop where
  isOpening_eq : next.isOpening = part.isOpening
  isTearDown_eq : next.isTearDown = part.isTearDown
  hasDataTable_eq : next.hasDataTable = part.hasDataTable

theorem SamePlace.trans {last : Part} (h : part.SamePlace next) (hlast : next.SamePlace last) :
    part.SamePlace last :=
  ⟨hlast.isOpening_eq.trans h.isOpening_eq, hlast.isTearDown_eq.trans h.isTearDown_eq,
    hlast.hasDataTable_eq.trans h.hasDataTable_eq⟩

theorem samePlace_cover (part : Part) (line : Nat) : part.SamePlace (part.cover line) := by
  cases part <;> exact ⟨rfl, rfl, rfl⟩

theorem samePlace_addComment (part : Part) (comment : Comment) :
    part.SamePlace (part.addComment comment) := by
  cases part <;> exact ⟨rfl, rfl, rfl⟩

theorem samePlace_addStep (part : Part) (step : Step) : part.SamePlace (part.addStep step) := by
  cases part <;> exact ⟨rfl, rfl, rfl⟩

theorem lastStep?_addStep (part : Part) (step : Step) : (part.addStep step).lastStep? = some step := by
  cases part <;> rfl

theorem exists_addTags_iff (part : Part) (tags : Tags) :
    (∃ next, part.addTags tags = .ok next) ↔ part.isTearDown = false := by
  cases part <;> simp [addTags, isTearDown]

theorem samePlace_addTags {tags : Tags} (h : part.addTags tags = .ok next) : part.SamePlace next := by
  cases part <;> cases h <;> exact ⟨rfl, rfl, rfl⟩

theorem exists_openScenario_iff (part : Part) (text : String) (line : Nat) :
    (∃ next, part.openScenario text line = .ok next) ↔ part.isTearDown = false := by
  cases part <;> simp [openScenario, isTearDown]

/-- A scenario is opened before the teardown only. -/
theorem place_openScenario {text : String} {line : Nat} (h : part.openScenario text line = .ok next) :
    part.isTearDown = false ∧ next.isOpening = false ∧ next.isTearDown = false ∧
      next.hasDataTable = false := by
  cases part <;> cases h <;> exact ⟨rfl, rfl, rfl, rfl⟩

theorem place_openTearDown (part : Part) (line : Nat) :
    (part.openTearDown line).isOpening = false ∧ (part.openTearDown line).isTearDown = true ∧
      (part.openTearDown line).hasDataTable = false := by
  cases part <;> exact ⟨rfl, rfl, rfl⟩

/-- A data table is opened before the first scenario only. -/
theorem openDataTable_eq_ok {cells : List String} {line : Nat}
    (h : part.openDataTable cells line = .ok next) : part.isOpening = true ∧ part.isTearDown = false ∧
      ∃ items, next = opening (.dataTable (.ofHeaderRow cells line) :: items) := by
  cases part with
  | opening items =>
    simp only [openDataTable] at h
    split_ifs at h
    cases h
    exact ⟨rfl, rfl, items, rfl⟩
  | _ => cases h

theorem exists_openDataTable_iff {cells : List String} {line : Nat} :
    (∃ next, part.openDataTable cells line = .ok next) ↔
      part.isOpening = true ∧ part.hasDataTable = false := by
  cases part with
  | opening items =>
    simp only [openDataTable, isOpening, hasDataTable, true_and]
    cases items.any fun item ↦ item.dataTable?.isSome <;> simp
  | _ => simp [openDataTable, isOpening]

theorem lastStep?_cover (part : Part) (line : Nat) : (part.cover line).lastStep? = part.lastStep? := by
  cases part with
  | scenario before current =>
    obtain ⟨heading, last, items⟩ := current
    rcases items with _ | ⟨_ | _ | _, _⟩ <;> rfl
  | _ => rfl

/-- The step that was read last can be changed exactly when the change succeeds on it. -/
theorem exists_changeLastStep_iff {change : Step → Except Fault Step} {step : Step}
    (h : part.lastStep? = some step) :
    (∃ next, part.changeLastStep change = .ok next) ↔ ∃ changed, change step = .ok changed := by
  unfold lastStep? at h
  split at h <;> cases h <;> simp [changeLastStep, map_eq_ok_iff]

/-- Changing the step that was read last leaves the rest in place. -/
theorem lastStep?_changeLastStep {change : Step → Except Fault Step}
    (h : part.changeLastStep change = .ok next) :
    ∃ step changed, part.lastStep? = some step ∧ change step = .ok changed ∧
      next.lastStep? = some changed ∧ part.SamePlace next := by
  unfold changeLastStep at h
  split at h
  · obtain ⟨changed, hchanged, rfl⟩ := map_eq_ok_iff.mp h
    exact ⟨_, changed, rfl, hchanged, rfl, rfl, rfl, rfl⟩
  · obtain ⟨changed, hchanged, rfl⟩ := map_eq_ok_iff.mp h
    exact ⟨_, changed, rfl, hchanged, rfl, rfl, rfl, rfl⟩
  · obtain ⟨changed, hchanged, rfl⟩ := map_eq_ok_iff.mp h
    exact ⟨_, changed, rfl, hchanged, rfl, rfl, rfl, rfl⟩
  · cases h

end Part

/-! ### Tables -/

theorem Table.exists_readRow_iff {table : Table} {cells : List String} :
    (∃ extended, table.readRow cells = .ok extended) ↔
      isSeparatorRow cells = true ∨ cells.length = table.headers.length := by
  by_cases hseparator : isSeparatorRow cells = true
  · simp [readRow, hseparator]
  · by_cases hwidth : cells.length = table.headers.length <;> simp [readRow, hseparator, hwidth]

theorem Table.headers_readRow {table extended : Table} {cells : List String}
    (h : table.readRow cells = .ok extended) : extended.headers = table.headers := by
  unfold readRow at h
  split_ifs at h <;> cases h <;> rfl

theorem Step.lastTable?_addTable (step : Step) (table : Table) :
    (step.addTable table).lastTable? = some table := by
  simp [lastTable?, addTable, Argument.table?]

theorem Step.lastTable?_setLastTable (step : Step) (table : Table) :
    (step.setLastTable table).lastTable? = some table := by
  simp [lastTable?, setLastTable, Argument.table?]

/-- What a row on the next line continues, given the part that has been read and the lines that it was
read from, the nearest first. -/
inductive RowTarget.Continues (part : Part) (above : List Line) : RowTarget → Prop
  | nothing (hnear : ∀ near ∈ above.head?, near.isTableRow = false ∧ near.isStep = false) :
    Continues part above .nothing
  | step {step : Step} (hnear : ∃ near ∈ above.head?, near.isStep = true)
    (hstep : part.lastStep? = some step) : Continues part above .step
  | stepTable {step : Step} {table : Table} (hstep : part.lastStep? = some step)
    (htable : step.lastTable? = some table)
    (hheader : (leadingRows above).getLast? = some table.headers) : Continues part above .stepTable
  | dataTable {table : Table} {items : List SpecItem} (hpart : part = .opening (.dataTable table :: items))
    (hheader : (leadingRows above).getLast? = some table.headers) : Continues part above .dataTable

/-- A draft reflects the lines that it was read from, the nearest first. -/
structure Draft.Reflects (draft : Draft) (above : List Line) : Prop where
  heading_eq : draft.heading.isSome = above.any Line.isTitle
  isOpening_eq : draft.part.isOpening = !above.any Line.endsOpening
  isTearDown_eq : draft.part.isTearDown = above.any Line.isTearDown
  hasDataTable_eq : draft.part.hasDataTable = (draft.part.isOpening && hasFreeTable above)
  continues : draft.target.Continues draft.part above

namespace RowTarget.Continues

variable {part next : Part} {above : List Line} {target : RowTarget}

/-- Extending the span of a scenario leaves this as it is. -/
theorem cover (h : target.Continues part above) (line : Nat) :
    target.Continues (part.cover line) above := by
  cases h with
  | nothing hnear => exact .nothing hnear
  | step hnear hstep => exact .step hnear (by rwa [Part.lastStep?_cover])
  | stepTable hstep htable hheader => exact .stepTable (by rwa [Part.lastStep?_cover]) htable hheader
  | dataTable hpart hheader =>
    subst hpart
    exact .dataTable rfl hheader

end RowTarget.Continues

namespace Draft

variable {draft next : Draft} {above : List Line} {line : Line} {number : Nat} {cells : List String}

theorem requireHeading_eq_ok_iff {result : Unit} :
    draft.requireHeading = .ok result ↔ draft.heading.isSome = true := by
  unfold requireHeading
  split <;> simp_all

namespace Reflects

theorem cover (h : draft.Reflects above) (line : Nat) :
    ({ draft with part := draft.part.cover line } : Draft).Reflects above := by
  have hplace := Part.samePlace_cover draft.part line
  exact ⟨h.heading_eq, hplace.isOpening_eq.trans h.isOpening_eq,
    hplace.isTearDown_eq.trans h.isTearDown_eq, by
      rw [hplace.hasDataTable_eq, hplace.isOpening_eq]
      exact h.hasDataTable_eq, h.continues.cover line⟩

/-- A row can be read exactly when it fits. -/
theorem exists_readRow_iff (h : draft.Reflects above) :
    (∃ next, draft.readRow number cells = .ok next) ↔ Fits above (.tableRow cells) := by
  rw [fits_tableRow_iff]
  obtain ⟨heading, part, target⟩ := draft
  obtain ⟨hheading, hopening, htearDown, hdata, hcontinues⟩ := h
  cases hcontinues with
  | nothing hnear =>
    have hopens : opensFreeTable above (.tableRow cells) = true := opensFreeTable_tableRow_iff.mpr hnear
    have hnone : leadingRows above = [] := leadingRows_eq_nil fun near hmem ↦ (hnear near hmem).1
    have hpart : (∃ next, part.openDataTable cells number = .ok next) ↔
        above.any Line.endsOpening = false ∧ hasFreeTable above = false := by
      rw [Part.exists_openDataTable_iff, hdata, hopening]
      cases above.any Line.endsOpening <;> simp
    rw [hopens, hnone, ← hheading, ← hpart]
    simp [readRow, exists_bind_iff, requireHeading_eq_ok_iff, pure, Except.pure]
  | step hnear hstep =>
    obtain ⟨hopens, hnone⟩ := opensFreeTable_of_step hnear (.tableRow cells)
    have hpart : ∃ next, part.changeLastStep (fun step ↦ step.readRow false cells number) = .ok next :=
      (Part.exists_changeLastStep_iff hstep).mpr ⟨_, rfl⟩
    rw [hopens, hnone]
    simpa [readRow, exists_bind_iff, pure, Except.pure] using hpart
  | @stepTable step table hstep htable hheader =>
    have hpart : (∃ next, part.changeLastStep (fun step ↦ step.readRow true cells number) = .ok next) ↔
        isSeparatorRow cells = true ∨ cells.length = table.headers.length := by
      rw [Part.exists_changeLastStep_iff hstep, ← Table.exists_readRow_iff]
      simp [Step.readRow, htable, map_eq_ok_iff]
    rw [opensFreeTable_eq_false hheader, hheader]
    simpa [readRow, exists_bind_iff, pure, Except.pure] using hpart
  | @dataTable table items hpart hheader =>
    subst hpart
    rw [opensFreeTable_eq_false hheader, hheader]
    simpa [readRow, exists_bind_iff, pure, Except.pure, Part.readDataRow, map_eq_ok_iff] using
      Table.exists_readRow_iff

theorem exists_read_iff (h : draft.Reflects above) (number : Nat) (line : Line) :
    (∃ next, draft.read number line = .ok next) ↔ Fits above line := by
  unfold Draft.read
  -- The cases are the kinds of lines, in the order of the rule: blank, title, scenario, other heading,
  -- comment, step, tags, teardown, row.
  split
  · exact iff_of_true (by simp) (fits_of_kind rfl rfl rfl rfl)
  · rw [fits_title_iff, ← h.heading_eq]
    cases draft.heading.isSome <;> simp
  · rename_i text
    rw [fits_scenarioHeading_iff, ← h.heading_eq, ← h.isTearDown_eq,
      ← draft.part.exists_openScenario_iff text number]
    simp [exists_bind_iff, requireHeading_eq_ok_iff, pure, Except.pure]
  · rename_i level text htitle hscenario
    refine iff_of_true (by simp) (fits_of_kind ?_ ?_ rfl rfl)
    · simpa using htitle
    · simpa [Line.needsTitle, Line.isStep, Line.isTearDown] using hscenario
  · exact iff_of_true (by simp) (fits_of_kind rfl rfl rfl rfl)
  · rename_i text
    rw [fits_step_iff, ← h.heading_eq, StepText.isReadable_iff text number]
    simp [exists_bind_iff, requireHeading_eq_ok_iff, pure, Except.pure]
  · rename_i values
    rw [fits_tags_iff, ← (h.cover number).isTearDown_eq,
      ← (draft.part.cover number).exists_addTags_iff ⟨values, number⟩]
    simp [exists_bind_iff, pure, Except.pure]
  · rw [fits_tearDown_iff, ← h.heading_eq]
    simp [exists_bind_iff, requireHeading_eq_ok_iff, pure, Except.pure]
  · exact (h.cover number).exists_readRow_iff

/-- A line that is no title, ends nothing and opens no table leaves the reader at the same place. -/
theorem of_samePlace (h : draft.Reflects above) (hheading : next.heading = draft.heading)
    (hplace : draft.part.SamePlace next.part) (htitle : line.isTitle = false)
    (hends : line.endsOpening = false) (hopens : opensFreeTable above line = false)
    (hcontinues : next.target.Continues next.part (line :: above)) : next.Reflects (line :: above) := by
  have htearDown : line.isTearDown = false := (Bool.or_eq_false_iff.mp hends).2
  refine ⟨?_, ?_, ?_, ?_, hcontinues⟩
  · rw [hheading, h.heading_eq, List.any_cons, htitle, Bool.false_or]
  · rw [hplace.isOpening_eq, h.isOpening_eq, List.any_cons, hends, Bool.false_or]
  · rw [hplace.isTearDown_eq, h.isTearDown_eq, List.any_cons, htearDown, Bool.false_or]
  · rw [hplace.hasDataTable_eq, hplace.isOpening_eq, h.hasDataTable_eq, hasFreeTable, hopens,
      Bool.false_or]

/-- A row that was read is reflected. -/
theorem readRow (h : draft.Reflects above) (hread : draft.readRow number cells = .ok next) :
    next.Reflects (.tableRow cells :: above) := by
  obtain ⟨heading, part, target⟩ := draft
  have hcontinues := h.continues
  -- A row that continues nothing opens the data table; the others stay with the table above or its step.
  cases hcontinues with
  | nothing hnear =>
    simp only [Draft.readRow, bind_eq_ok_iff] at hread
    obtain ⟨-, -, opened, hopened, hnext⟩ := hread
    cases hnext
    obtain ⟨hopening, htearDown, items, rfl⟩ := Part.openDataTable_eq_ok hopened
    have hopens : opensFreeTable above (.tableRow cells) = true := opensFreeTable_tableRow_iff.mpr hnear
    have hnone : leadingRows above = [] := leadingRows_eq_nil fun near hmem ↦ (hnear near hmem).1
    refine ⟨?_, ?_, ?_, ?_, .dataTable rfl ?_⟩
    · simpa [Line.isTitle] using h.heading_eq
    · rw [List.any_cons]
      exact hopening.symm.trans h.isOpening_eq
    · rw [List.any_cons]
      exact htearDown.symm.trans h.isTearDown_eq
    · simp [Part.hasDataTable, Part.isOpening, hasFreeTable, hopens, SpecItem.dataTable?]
    · simp [leadingRows, hnone, Table.ofHeaderRow]
  | step hnear hstep =>
    simp only [Draft.readRow, bind_eq_ok_iff] at hread
    obtain ⟨changed, hchanged, hnext⟩ := hread
    cases hnext
    obtain ⟨old, new, -, hnew, hlast, hplace⟩ := Part.lastStep?_changeLastStep hchanged
    obtain ⟨hopens, hnone⟩ := opensFreeTable_of_step hnear (.tableRow cells)
    obtain rfl : old.addTable (.ofHeaderRow cells number) = new := Except.ok.inj hnew
    refine h.of_samePlace rfl hplace rfl rfl hopens (.stepTable hlast (Step.lastTable?_addTable _ _) ?_)
    simp [leadingRows, hnone, Table.ofHeaderRow]
  | @stepTable step table hstep htable hheader =>
    simp only [Draft.readRow, bind_eq_ok_iff] at hread
    obtain ⟨changed, hchanged, hnext⟩ := hread
    cases hnext
    obtain ⟨old, new, hold, hnew, hlast, hplace⟩ := Part.lastStep?_changeLastStep hchanged
    obtain rfl : step = old := Option.some.inj (hstep.symm.trans hold)
    simp only [Step.readRow, htable, map_eq_ok_iff] at hnew
    obtain ⟨extended, hextended, rfl⟩ := hnew
    refine h.of_samePlace rfl hplace rfl rfl (opensFreeTable_eq_false hheader _)
      (.stepTable hlast (Step.lastTable?_setLastTable _ _) ?_)
    simp [leadingRows, List.getLast?_cons, hheader, Table.headers_readRow hextended]
  | @dataTable table items hpart hheader =>
    subst hpart
    simp only [Draft.readRow, Part.readDataRow, bind_eq_ok_iff, map_eq_ok_iff] at hread
    obtain ⟨changed, ⟨extended, hextended, rfl⟩, hnext⟩ := hread
    cases hnext
    refine h.of_samePlace rfl ⟨rfl, rfl, rfl⟩ rfl rfl (opensFreeTable_eq_false hheader _) (.dataTable rfl ?_)
    simp [leadingRows, List.getLast?_cons, hheader, Table.headers_readRow hextended]

/-- A draft reflects the line that it has read too. -/
theorem read (h : draft.Reflects above) (hread : draft.read number line = .ok next) :
    next.Reflects (line :: above) := by
  have hcover := Part.samePlace_cover draft.part number
  unfold Draft.read at hread
  split at hread
  · cases hread
    exact h.of_samePlace rfl ⟨rfl, rfl, rfl⟩ rfl rfl rfl (.nothing (by simp [Line.isTableRow, Line.isStep]))
  · split_ifs at hread
    cases hread
    refine ⟨rfl, ?_, ?_, ?_, .nothing (by simp [Line.isTableRow, Line.isStep])⟩
    · simpa [Line.endsOpening, Line.isTearDown] using hcover.isOpening_eq.trans h.isOpening_eq
    · simpa [Line.isTearDown] using hcover.isTearDown_eq.trans h.isTearDown_eq
    · rw [hcover.hasDataTable_eq, hcover.isOpening_eq]
      exact h.hasDataTable_eq
  · rename_i text
    simp only [bind_eq_ok_iff] at hread
    obtain ⟨-, -, part, hpart, hnext⟩ := hread
    cases hnext
    obtain ⟨hbefore, hopening, htearDown, hdata⟩ := Part.place_openScenario hpart
    refine ⟨?_, ?_, ?_, ?_, .nothing (by simp [Line.isTableRow, Line.isStep])⟩
    · simpa using h.heading_eq
    · simp [hopening, Line.endsOpening]
    · rw [List.any_cons, ← h.isTearDown_eq, htearDown, hbefore]
      rfl
    · simp [hopening, hdata]
  · rename_i level text htitle hscenario
    cases hread
    refine h.of_samePlace rfl (hcover.trans (Part.samePlace_addComment _ _)) ?_ ?_ rfl
      (.nothing (by simp [Line.isTableRow, Line.isStep]))
    · simpa using htitle
    · simpa [Line.endsOpening, Line.isTearDown] using hscenario
  · cases hread
    exact h.of_samePlace rfl (hcover.trans (Part.samePlace_addComment _ _)) rfl rfl rfl
      (.nothing (by simp [Line.isTableRow, Line.isStep]))
  · simp only [bind_eq_ok_iff] at hread
    obtain ⟨-, -, step, hstep, hnext⟩ := hread
    cases hnext
    exact h.of_samePlace rfl (hcover.trans (Part.samePlace_addStep _ _)) rfl rfl rfl
      (.step ⟨_, rfl, rfl⟩ (Part.lastStep?_addStep _ _))
  · simp only [bind_eq_ok_iff] at hread
    obtain ⟨part, hpart, hnext⟩ := hread
    cases hnext
    exact h.of_samePlace rfl (hcover.trans (Part.samePlace_addTags hpart)) rfl rfl rfl
      (.nothing (by simp [Line.isTableRow, Line.isStep]))
  · simp only [bind_eq_ok_iff] at hread
    obtain ⟨-, -, hnext⟩ := hread
    cases hnext
    obtain ⟨hopening, htearDown, hdata⟩ := draft.part.place_openTearDown number
    refine ⟨?_, ?_, ?_, ?_, .nothing (by simp [Line.isTableRow, Line.isStep])⟩
    · simpa [Line.isTitle] using h.heading_eq
    · simp [hopening, Line.endsOpening, Line.isTearDown]
    · simp [htearDown, Line.isTearDown]
    · simp [hopening, hdata]
  · exact (h.cover number).readRow hread

end Reflects

theorem reflects_empty : Draft.empty.Reflects [] :=
  ⟨rfl, rfl, rfl, rfl, .nothing (by simp)⟩

/-- Lines can be read exactly when they fit one below the other, and what has been read of them reflects
them. -/
theorem Reflects.exists_readAll_iff {lines : List Line} (h : draft.Reflects above) :
    (∃ final, draft.readAll number lines = .ok final) ↔ AllFit above lines := by
  induction lines generalizing draft above number with
  | nil => simp [readAll, AllFit]
  | cons line rest ih =>
    rw [AllFit, ← h.exists_read_iff number line, readAll]
    cases hread : draft.read number line with
    | error fault => simp
    | ok next => simpa using ih (h.read hread)

theorem Reflects.readAll {lines : List Line} {final : Draft} (h : draft.Reflects above)
    (hread : draft.readAll number lines = .ok final) : final.Reflects (lines.reverse ++ above) := by
  induction lines generalizing draft above number with
  | nil =>
    cases hread
    exact h
  | cons line rest ih =>
    unfold Draft.readAll at hread
    split at hread
    · cases hread
    · rename_i next hnext
      simpa using ih (h.read hnext) hread

end Draft

/-- A text can be read as a specification exactly when its lines are laid out as those of one. -/
theorem Specification.exists_parse_iff (file : Path) (text : String) :
    (∃ spec, Specification.parse file text = .ok spec) ↔
      IsSpecificationLayout (Line.classifyAll text) := by
  rw [isSpecificationLayout_iff, ← List.any_eq_true]
  constructor
  · rintro ⟨spec, hspec⟩
    obtain ⟨draft, heading, hread, hheading, -⟩ := parse_eq_ok_iff.mp hspec
    have hreflects := Draft.reflects_empty.readAll hread
    refine ⟨Draft.reflects_empty.exists_readAll_iff.mp ⟨draft, hread⟩, ?_⟩
    have htitle := hreflects.heading_eq
    rw [hheading, List.append_nil, List.any_reverse] at htitle
    exact htitle.symm
  · rintro ⟨hfit, htitle⟩
    obtain ⟨draft, hread⟩ := Draft.reflects_empty.exists_readAll_iff.mpr hfit
    have hheading := (Draft.reflects_empty.readAll hread).heading_eq
    rw [List.append_nil, List.any_reverse, htitle] at hheading
    obtain ⟨heading, hsome⟩ := Option.isSome_iff_exists.mp hheading
    exact ⟨_, parse_eq_ok_iff.mpr ⟨draft, heading, hread, hsome, rfl⟩⟩

end LiveSpec
