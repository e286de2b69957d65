import LiveSpec.Proofs.Grammar.Acceptance

/-!
# Where the rows of tables go

The rows directly below a step become a table that is attached to the step, and the rows of a table that
stands free become the data table. In both the first row is the header, separators are left out and all
other rows stay in order (`Table.ofRows`).

A step is complete when a line comes that is no row (`Draft.HasSettled`): from then on no line changes it.
So the step of a specification that comes from a step line is what its text is read as, with the rows
directly below the line (`Draft.exists_withRows_mem`). The same goes for the data table
(`Draft.dataTables_of_free`), which no line opens a second time.
-/

set_option autoImplicit false

namespace LiveSpec

/-! ### Tables of rows -/

/-- The table of a run of rows: its header and the later rows that do not only separate. -/
def Table.ofRows (header : List String) (rows : List (List String)) (line : Nat) : Table :=
  ⟨header, rows.filter fun row ↦ !isSeparatorRow row, line⟩

/-- The step with the rows directly below it as a table, if there are any. -/
def Step.withRows (step : Step) : List (List String) → Step
  | [] => step
  | header :: rows => step.addTable (.ofRows header rows (step.line + 1))

@[simp] theorem Step.line_withRows (step : Step) (rows : List (List String)) :
    (step.withRows rows).line = step.line := by
  cases rows <;> rfl

theorem Table.readRow_ofRows {header cells : List String} {rows : List (List String)} {line : Nat}
    {extended : Table} (h : (Table.ofRows header rows line).readRow cells = .ok extended) :
    extended = .ofRows header (rows ++ [cells]) line := by
  unfold readRow at h
  split_ifs at h with hseparator hwidth
  · cases h
    simp [ofRows, hseparator]
  · cases h
    simp [ofRows, addRow, hseparator]

/-- A further row below a step extends the table that was attached last. -/
theorem Step.readRow_addTable (step : Step) (table : Table) (cells : List String) (line : Nat) :
    (step.addTable table).readRow true cells line = (table.readRow cells).map step.addTable := by
  have hset : (step.addTable table).setLastTable = step.addTable := by
    funext other
    simp [setLastTable, addTable]
  simp only [readRow, lastTable?_addTable, hset]

/-- The line of a step is the one that it was read from. -/
theorem StepText.line_of_parse {text : String} {line : Nat} {step : Step}
    (h : StepText.parse text line = .ok step) : step.line = line := by
  obtain ⟨pieces, -, rfl⟩ := exists_pieces_of_parse h
  rfl

namespace Draft

variable {draft next final : Draft} {number : Nat} {line : Line} {lines : List Line}

theorem readAll_cons_eq_ok_iff : draft.readAll number (line :: lines) = .ok final ↔
    ∃ next, draft.read number line = .ok next ∧ next.readAll (number + 1) lines = .ok final := by
  rw [readAll]
  cases draft.read number line <;> simp

/-- Lines are read by reading the first of them and then the rest. -/
theorem readAll_append_eq_ok_iff {below : List Line} :
    draft.readAll number (lines ++ below) = .ok final ↔
      ∃ next, draft.readAll number lines = .ok next ∧
        next.readAll (number + lines.length) below = .ok final := by
  induction lines generalizing draft number with
  | nil => simp [readAll]
  | cons line rest ih =>
    have hnumber : number + (line :: rest).length = number + 1 + rest.length := by
      rw [List.length_cons]
      omega
    simp only [List.cons_append, readAll_cons_eq_ok_iff, ih, hnumber]
    constructor
    · rintro ⟨next, hnext, middle, hmiddle, hfinal⟩
      exact ⟨middle, ⟨next, hnext, hmiddle⟩, hfinal⟩
    · rintro ⟨middle, ⟨next, hnext, hmiddle⟩, hfinal⟩
      exact ⟨next, hnext, middle, hmiddle, hfinal⟩

/-! ### Steps -/

/-- A row that is attached to a step is read by the last one. -/
theorem steps_row {front : List Step} {step : Step} {inTable : Bool} {cells : List String}
    (hsteps : draft.part.steps = front ++ [step])
    (htarget : draft.target = if inTable then .stepTable else .step)
    (hread : draft.read number (.tableRow cells) = .ok next) :
    ∃ changed, step.readRow inTable cells number = .ok changed ∧
      next.part.steps = front ++ [changed] ∧ next.target = .stepTable := by
  cases stepsAfter_read hread with
  | kept _ _ _ hrow =>
    have hnot := hrow cells rfl
    rw [htarget] at hnot
    cases inTable <;> cases hnot
  | @changed _ front' step' changed inTable' htarget' hnext hbefore hrow hnextSteps =>
    obtain ⟨rfl, hlast⟩ := List.append_inj' (hsteps.symm.trans hbefore) rfl
    obtain rfl := List.singleton_inj.mp hlast
    have hsame : inTable' = inTable := by
      rw [htarget] at htarget'
      cases inTable <;> cases inTable' <;> first | rfl | cases htarget'
    exact ⟨changed, hsame ▸ hrow, hnextSteps, hnext⟩

/-- The rows after the header of a table below a step extend this table. -/
theorem steps_readRows {front : List Step} {step : Step} {header : List String}
    {done rows : List (List String)} {first : Nat}
    (hsteps : draft.part.steps = front ++ [step.addTable (.ofRows header done first)])
    (htarget : draft.target = .stepTable)
    (hread : draft.readAll number (rows.map .tableRow) = .ok next) :
    next.part.steps = front ++ [step.addTable (.ofRows header (done ++ rows) first)] := by
  induction rows generalizing draft number done with
  | nil =>
    cases hread
    rwa [List.append_nil]
  | cons cells rows ih =>
    obtain ⟨middle, hmiddle, hrest⟩ := readAll_cons_eq_ok_iff.mp hread
    obtain ⟨changed, hrow, hmiddleSteps, hmiddleTarget⟩ :=
      steps_row hsteps (show draft.target = if true then _ else _ from htarget) hmiddle
    rw [Step.readRow_addTable] at hrow
    obtain ⟨table, htable, rfl⟩ := map_eq_ok_iff.mp hrow
    rw [Table.readRow_ofRows htable] at hmiddleSteps
    have hall := ih hmiddleSteps hmiddleTarget hrest
    rwa [List.append_assoc] at hall

/-- A step line and the rows directly below it make one step, which comes last. -/
theorem steps_readStep {text : String} {rows : List (List String)}
    (hread : draft.readAll number (.step text :: rows.map .tableRow) = .ok next) :
    ∃ parsed, StepText.parse text number = .ok parsed ∧
      next.part.steps = draft.part.steps ++ [parsed.withRows rows] := by
  obtain ⟨below, hbelow, hrows⟩ := readAll_cons_eq_ok_iff.mp hread
  cases stepsAfter_read hbelow with
  | kept _ _ hother => exact absurd rfl (hother text)
  | @added _ parsed hparse htarget hsteps =>
    refine ⟨parsed, hparse, ?_⟩
    cases rows with
    | nil =>
      cases hrows
      exact hsteps
    | cons header rows =>
      obtain ⟨opened, hopened, hrest⟩ := readAll_cons_eq_ok_iff.mp hrows
      obtain ⟨changed, hrow, hopenedSteps, hopenedTarget⟩ :=
        steps_row hsteps (show below.target = if false then _ else _ from htarget) hopened
      cases hrow
      have hline := StepText.line_of_parse hparse
      have hfirst : Table.ofHeaderRow header (number + 1) = .ofRows header [] (parsed.line + 1) := by
        rw [hline]
        rfl
      rw [hfirst] at hopenedSteps
      exact steps_readRows hopenedSteps hopenedTarget hrest

/-- The steps begin with some that no row will change any more. -/
def HasSettled (settled : List Step) (draft : Draft) : Prop :=
  ∃ later, draft.part.steps = settled ++ later ∧ (draft.target.hangsOnStep = true → later ≠ [])

/-- A line that is no row settles all steps so far. -/
theorem hasSettled_read (hread : draft.read number line = .ok next) (hline : line.isTableRow = false) :
    HasSettled draft.part.steps next := by
  cases stepsAfter_read hread with
  | kept hsteps hnext => exact ⟨[], by rw [hsteps, List.append_nil], by simp [hnext]⟩
  | @added text step _ _ hsteps => exact ⟨[step], hsteps, by simp⟩
  | changed => cases hline

/-- What has settled stays so. -/
theorem HasSettled.read {settled : List Step} (h : HasSettled settled draft)
    (hread : draft.read number line = .ok next) : HasSettled settled next := by
  obtain ⟨later, hlater, hopen⟩ := h
  cases stepsAfter_read hread with
  | kept hsteps hnext => exact ⟨later, hsteps.trans hlater, by simp [hnext]⟩
  | @added text step _ _ hsteps => exact ⟨later ++ [step], by rw [hsteps, hlater, List.append_assoc], by simp⟩
  | @changed cells front step changed inTable htarget _ hbefore _ hsteps =>
    have hhangs : draft.target.hangsOnStep = true := by
      rw [htarget]
      cases inTable <;> rfl
    -- The row changes the last step, which is a later one.
    have hsplit := List.dropLast_concat_getLast (hopen hhangs)
    rw [hlater, ← hsplit, ← List.append_assoc] at hbefore
    obtain ⟨hfront, -⟩ := List.append_inj' hbefore rfl
    exact ⟨later.dropLast ++ [changed], by rw [hsteps, ← hfront, List.append_assoc], by simp⟩

theorem HasSettled.readAll {settled : List Step} (h : HasSettled settled draft)
    (hread : draft.readAll number lines = .ok final) : settled <+: final.part.steps := by
  induction lines generalizing draft number with
  | nil =>
    cases hread
    obtain ⟨later, hlater, -⟩ := h
    exact ⟨later, hlater.symm⟩
  | cons line rest ih =>
    obtain ⟨next, hnext, hrest⟩ := readAll_cons_eq_ok_iff.mp hread
    exact ih (h.read hnext) hrest

/-- Assumes: lines that do not begin with a row. The steps so far stay as they are. -/
theorem steps_prefix_readAll (hstart : ∀ line ∈ lines.head?, line.isTableRow = false)
    (hread : draft.readAll number lines = .ok final) : draft.part.steps <+: final.part.steps := by
  cases lines with
  | nil =>
    cases hread
    exact List.prefix_rfl
  | cons line rest =>
    obtain ⟨next, hnext, hrest⟩ := readAll_cons_eq_ok_iff.mp hread
    exact (hasSettled_read hnext (hstart line rfl)).readAll hrest

/-- A step line makes the step that its text is read as, with the rows directly below the line. -/
theorem exists_withRows_mem {text : String}
    (hread : draft.readAll number (.step text :: lines) = .ok final) :
    ∃ parsed, StepText.parse text number = .ok parsed ∧
      parsed.withRows (leadingRows lines) ∈ final.part.steps := by
  rw [← map_leadingRows_append lines, ← List.cons_append] at hread
  obtain ⟨next, hnext, hrest⟩ := readAll_append_eq_ok_iff.mp hread
  obtain ⟨parsed, hparse, hsteps⟩ := steps_readStep hnext
  have hprefix := steps_prefix_readAll (isTableRow_head_withoutLeadingRows lines) hrest
  refine ⟨parsed, hparse, hprefix.subset ?_⟩
  rw [hsteps]
  simp

end Draft

/-! ### The data table -/

/-- The data tables of a part, newest first. -/
def Part.dataTables (part : Part) : List Table := part.closed.filterMap SpecItem.dataTable?

namespace Part

variable {part next : Part}

@[simp] theorem dataTables_opening (items : List SpecItem) :
    (opening items).dataTables = items.filterMap SpecItem.dataTable? := rfl

@[simp] theorem dataTables_scenario (before : List SpecItem) (current : ScenarioDraft) :
    (scenario before current).dataTables = before.filterMap SpecItem.dataTable? := rfl

@[simp] theorem dataTables_tearDown (before : List SpecItem) (marker : Nat) (steps : List Step)
    (comments : List Comment) : (tearDown before marker steps comments).dataTables =
      before.filterMap SpecItem.dataTable? := by
  have hcomments : (comments.map SpecItem.comment).filterMap SpecItem.dataTable? = [] := by
    simp [List.filterMap_map, Function.comp_def, SpecItem.dataTable?]
  simp [dataTables, closed, hcomments, List.filterMap_cons, SpecItem.dataTable?]

theorem dataTables_closed (part : Part) : part.closed.filterMap SpecItem.dataTable? = part.dataTables := rfl

@[simp] theorem dataTables_cover (part : Part) (line : Nat) :
    (part.cover line).dataTables = part.dataTables := by
  cases part <;> rfl

@[simp] theorem dataTables_addComment (part : Part) (comment : Comment) :
    (part.addComment comment).dataTables = part.dataTables := by
  cases part <;> simp [addComment, List.filterMap_cons, SpecItem.dataTable?]

@[simp] theorem dataTables_addStep (part : Part) (step : Step) :
    (part.addStep step).dataTables = part.dataTables := by
  cases part <;> simp [addStep, List.filterMap_cons, SpecItem.dataTable?]

@[simp] theorem dataTables_openTearDown (part : Part) (line : Nat) :
    (part.openTearDown line).dataTables = part.dataTables := by
  cases part <;> simp [openTearDown, dataTables_closed]

theorem dataTables_addTags {tags : Tags} (h : part.addTags tags = .ok next) :
    next.dataTables = part.dataTables := by
  cases part <;> cases h <;> simp [List.filterMap_cons, SpecItem.dataTable?]

theorem dataTables_openScenario {text : String} {line : Nat} (h : part.openScenario text line = .ok next) :
    next.dataTables = part.dataTables := by
  cases part <;> cases h <;> simp [dataTables_closed]

theorem dataTables_changeLastStep {change : Step → Except Fault Step}
    (h : part.changeLastStep change = .ok next) : next.dataTables = part.dataTables := by
  unfold changeLastStep at h
  split at h
  · obtain ⟨changed, -, rfl⟩ := map_eq_ok_iff.mp h
    simp [List.filterMap_cons, SpecItem.dataTable?]
  · obtain ⟨changed, -, rfl⟩ := map_eq_ok_iff.mp h
    simp
  · obtain ⟨changed, -, rfl⟩ := map_eq_ok_iff.mp h
    simp
  · cases h

/-- A data table is opened only where there is none yet. -/
theorem dataTables_openDataTable {cells : List String} {line : Nat}
    (h : part.openDataTable cells line = .ok next) : part.dataTables = [] ∧
      ∃ items, next = opening (.dataTable (.ofHeaderRow cells line) :: items) ∧
        items.filterMap SpecItem.dataTable? = [] := by
  cases part with
  | opening items =>
    simp only [openDataTable] at h
    split_ifs at h with hnone
    cases h
    have hempty : items.filterMap SpecItem.dataTable? = [] := by
      simpa [List.filterMap_eq_nil_iff] using hnone
    exact ⟨hempty, items, rfl, hempty⟩
  | _ => cases h

end Part

namespace Draft

variable {draft next final : Draft} {number : Nat} {line : Line} {lines : List Line}

/-- A row opens no second data table, and what it continues is not the first one. -/
theorem dataTables_readRow {cells : List String} (h : draft.readRow number cells = .ok next)
    (hsome : draft.part.dataTables ≠ []) (htarget : draft.target ≠ .dataTable) :
    next.part.dataTables = draft.part.dataTables ∧ next.target ≠ .dataTable := by
  unfold readRow at h
  split at h
  · obtain ⟨_, -, h⟩ := bind_eq_ok_iff.mp h
    obtain ⟨part, hpart, h⟩ := bind_eq_ok_iff.mp h
    exact absurd (Part.dataTables_openDataTable hpart).1 hsome
  · rename_i hcontinues
    exact absurd hcontinues htarget
  · obtain ⟨part, hpart, h⟩ := bind_eq_ok_iff.mp h
    cases h
    exact ⟨Part.dataTables_changeLastStep hpart, by simp⟩
  · obtain ⟨part, hpart, h⟩ := bind_eq_ok_iff.mp h
    cases h
    exact ⟨Part.dataTables_changeLastStep hpart, by simp⟩

/-- Assumes: a data table, and a line that does not continue it. The table stays as it is, and no line
below continues it. -/
theorem dataTables_read (h : draft.read number line = .ok next) (hsome : draft.part.dataTables ≠ [])
    (hline : draft.target = .dataTable → line.isTableRow = false) :
    next.part.dataTables = draft.part.dataTables ∧ next.target ≠ .dataTable := by
  unfold read at h
  split at h
  · cases h
    exact ⟨rfl, by simp⟩
  · split_ifs at h
    cases h
    exact ⟨Part.dataTables_cover _ _, by simp⟩
  · obtain ⟨_, -, h⟩ := bind_eq_ok_iff.mp h
    obtain ⟨part, hpart, h⟩ := bind_eq_ok_iff.mp h
    cases h
    exact ⟨Part.dataTables_openScenario hpart, by simp⟩
  · cases h
    exact ⟨by simp, by simp⟩
  · cases h
    exact ⟨by simp, by simp⟩
  · obtain ⟨_, -, h⟩ := bind_eq_ok_iff.mp h
    obtain ⟨step, hstep, h⟩ := bind_eq_ok_iff.mp h
    cases h
    exact ⟨by simp, by simp⟩
  · obtain ⟨part, hpart, h⟩ := bind_eq_ok_iff.mp h
    cases h
    exact ⟨(Part.dataTables_addTags hpart).trans (Part.dataTables_cover _ _), by simp⟩
  · obtain ⟨_, -, h⟩ := bind_eq_ok_iff.mp h
    cases h
    exact ⟨Part.dataTables_openTearDown _ _, by simp⟩
  · have hcover := Part.dataTables_cover draft.part number
    obtain ⟨hsame, htarget⟩ := dataTables_readRow h (hcover.symm ▸ hsome)
      fun htarget ↦ absurd (hline htarget) (by simp [Line.isTableRow])
    exact ⟨hsame.trans hcover, htarget⟩

/-- Once no line continues the data table it stays as it is. -/
theorem dataTables_readAll (h : draft.readAll number lines = .ok final)
    (hsome : draft.part.dataTables ≠ [])
    (hstart : draft.target = .dataTable → ∀ line ∈ lines.head?, line.isTableRow = false) :
    final.part.dataTables = draft.part.dataTables := by
  induction lines generalizing draft number with
  | nil =>
    cases h
    rfl
  | cons line rest ih =>
    obtain ⟨next, hnext, hrest⟩ := readAll_cons_eq_ok_iff.mp h
    obtain ⟨hsame, hclosed⟩ := dataTables_read hnext hsome fun htarget ↦ hstart htarget line rfl
    rw [ih hrest (hsame ▸ hsome) fun htarget ↦ absurd htarget hclosed, hsame]

/-- The rows after the header of the data table extend it. -/
theorem dataTables_readRows {items : List SpecItem} {header : List String}
    {done rows : List (List String)} {first : Nat}
    (hpart : draft.part = .opening (.dataTable (.ofRows header done first) :: items))
    (htarget : draft.target = .dataTable)
    (hread : draft.readAll number (rows.map .tableRow) = .ok next) :
    next.part = .opening (.dataTable (.ofRows header (done ++ rows) first) :: items) := by
  induction rows generalizing draft number done with
  | nil =>
    cases hread
    rwa [List.append_nil]
  | cons cells rows ih =>
    obtain ⟨middle, hmiddle, hrest⟩ := readAll_cons_eq_ok_iff.mp hread
    simp only [read, readRow, htarget, hpart, Part.cover, Part.readDataRow] at hmiddle
    obtain ⟨part, hextended, hmiddle⟩ := bind_eq_ok_iff.mp hmiddle
    obtain ⟨table, htable, rfl⟩ := map_eq_ok_iff.mp hextended
    cases hmiddle
    rw [Table.readRow_ofRows htable] at hrest
    have hall := ih rfl rfl hrest
    rwa [List.append_assoc] at hall

/-- A row that continues nothing opens the data table, and the rows directly below it belong to it. -/
theorem dataTables_of_free {header : List String} (htarget : draft.target = .nothing)
    (hread : draft.readAll number (.tableRow header :: lines) = .ok final) :
    final.part.dataTables = [.ofRows header (leadingRows lines) number] := by
  rw [← map_leadingRows_append lines] at hread
  obtain ⟨opened, hopened, hbelow⟩ := readAll_cons_eq_ok_iff.mp hread
  simp only [read, readRow, htarget] at hopened
  obtain ⟨_, -, hopened⟩ := bind_eq_ok_iff.mp hopened
  obtain ⟨part, hpart, hopened⟩ := bind_eq_ok_iff.mp hopened
  obtain ⟨-, items, rfl, hnone⟩ := Part.dataTables_openDataTable hpart
  cases hopened
  obtain ⟨next, hnext, hrest⟩ := readAll_append_eq_ok_iff.mp hbelow
  have hrows : next.part =
      .opening (.dataTable (.ofRows header ([] ++ leadingRows lines) number) :: items) :=
    dataTables_readRows rfl rfl hnext
  have hnextTables : next.part.dataTables = [.ofRows header (leadingRows lines) number] := by
    simp [hrows, SpecItem.dataTable?, hnone]
  rw [dataTables_readAll hrest (by simp [hnextTables])
    fun _ ↦ isTableRow_head_withoutLeadingRows lines, hnextTables]

end Draft

/-- A row that opens a table which stands free continues nothing. -/
theorem RowTarget.Continues.eq_nothing {target : RowTarget} {part : Part} {above : List Line}
    {line : Line} (h : target.Continues part above) (hopens : opensFreeTable above line = true) :
    target = .nothing := by
  cases h with
  | nothing => rfl
  | step hnear =>
    rw [(opensFreeTable_of_step hnear line).1] at hopens
    cases hopens
  | stepTable _ _ hheader =>
    rw [opensFreeTable_eq_false hheader] at hopens
    cases hopens
  | dataTable _ hheader =>
    rw [opensFreeTable_eq_false hheader] at hopens
    cases hopens

end LiveSpec
