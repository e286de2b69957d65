import LiveSpec.Proofs.Grammar.Correspondence
import Mathlib.Data.List.Infix

/-!
# The form of a specification

A specification that has been read is well formed (`Specification.IsWellFormed`,
`Specification.isWellFormed_of_parse`): its items come in three parts, its tables have a header and rows as
wide as the header, and its steps are as they were written, each with one table at most, in the last place.

The parts are the sections of the lines (`AreItems.areInParts`). A step stands for its step line and the rows
directly below it (`Specification.exists_withRows_of_mem`), and the rows fit the header because the text is
laid out as a specification. The data table has no line to be found by, so it is followed from line to line:
a line leaves it alone, opens it or adds a row to it (`Draft.DataTablesAfter`).
-/

set_option autoImplicit false

namespace LiveSpec

/-! ### Tables -/

/-- A table with a header and rows as wide as the header, none of which is a separator. -/
structure Table.IsWellFormed (table : Table) : Prop where
  headers_ne_nil : table.headers ≠ []
  rows_fit : ∀ row ∈ table.rows, row.length = table.headers.length ∧ isSeparatorRow row = false

namespace Table

variable {table extended : Table} {cells : List String}

theorem isWellFormed_ofHeaderRow (h : cells ≠ []) (line : Nat) : (ofHeaderRow cells line).IsWellFormed :=
  ⟨h, by simp [ofHeaderRow]⟩

/-- A further row keeps a table well formed. -/
theorem IsWellFormed.readRow (h : table.IsWellFormed) (hread : table.readRow cells = .ok extended) :
    extended.IsWellFormed := by
  unfold Table.readRow at hread
  split_ifs at hread with hseparator hwidth
  · cases hread
    exact h
  · cases hread
    refine ⟨h.headers_ne_nil, fun row hrow ↦ ?_⟩
    rcases List.mem_append.mp hrow with hold | hnew
    · exact h.rows_fit row hold
    · rw [List.mem_singleton.mp hnew]
      exact ⟨hwidth, by simpa using hseparator⟩

/-- The rows that fit make a table that is well formed. -/
theorem isWellFormed_ofRows {header : List String} {rows : List (List String)} (hheader : header ≠ [])
    (hrows : ∀ row ∈ rows, isSeparatorRow row = true ∨ row.length = header.length) (line : Nat) :
    (ofRows header rows line).IsWellFormed := by
  refine ⟨hheader, fun row hrow ↦ ?_⟩
  obtain ⟨hmem, hseparator⟩ := List.mem_filter.mp hrow
  rw [Bool.not_eq_true'] at hseparator
  exact ⟨(hrows row hmem).resolve_left (by simp [hseparator]), hseparator⟩

end Table

/-- A table row has a cell at least. -/
theorem Line.cells_ne_nil_of_mem_classifyAll {text : String} {cells : List String}
    (h : Line.tableRow cells ∈ Line.classifyAll text) : cells ≠ [] := by
  obtain ⟨line, -, hline⟩ := List.mem_map.mp h
  unfold classify classifyTrimmed at hline
  split at hline
  · cases hline
  · cases hline
  · cases hline
    simp [cellsOf, Text.fields_ne_nil]
  · split_ifs at hline
    unfold classifyUnmarked at hline
    split_ifs at hline
  · unfold classifyUnmarked at hline
    split_ifs at hline

/-! ### The data table -/

/-- What a line does to the data tables. -/
inductive Draft.DataTablesAfter (before after : List Table) : Line → Prop
  | kept {line : Line} (hafter : after = before) : DataTablesAfter before after line
  | opened {cells : List String} (number : Nat) (hbefore : before = [])
    (hafter : after = [.ofHeaderRow cells number]) : DataTablesAfter before after (.tableRow cells)
  | extended {cells : List String} {table extended : Table} {rest : List Table}
    (hbefore : before = table :: rest) (hrow : table.readRow cells = .ok extended)
    (hafter : after = extended :: rest) : DataTablesAfter before after (.tableRow cells)

namespace Draft

variable {draft next : Draft} {number : Nat} {line : Line} {lines : List Line}

theorem dataTablesAfter_readDataRow {part extended : Part} {cells : List String}
    (h : part.readDataRow cells = .ok extended) :
    DataTablesAfter part.dataTables extended.dataTables (.tableRow cells) := by
  unfold Part.readDataRow at h
  split at h
  · obtain ⟨table, htable, rfl⟩ := map_eq_ok_iff.mp h
    exact .extended rfl htable rfl
  · cases h
    exact .kept rfl

theorem dataTablesAfter_readRow {cells : List String} (h : draft.readRow number cells = .ok next) :
    DataTablesAfter draft.part.dataTables next.part.dataTables (.tableRow cells) := by
  unfold readRow at h
  split at h
  · obtain ⟨_, -, h⟩ := bind_eq_ok_iff.mp h
    obtain ⟨part, hpart, h⟩ := bind_eq_ok_iff.mp h
    cases h
    obtain ⟨hnone, items, rfl, hitems⟩ := Part.dataTables_openDataTable hpart
    exact .opened number hnone (by simp [SpecItem.dataTable?, hitems])
  · obtain ⟨part, hpart, h⟩ := bind_eq_ok_iff.mp h
    cases h
    exact dataTablesAfter_readDataRow hpart
  · obtain ⟨part, hpart, h⟩ := bind_eq_ok_iff.mp h
    cases h
    exact .kept (Part.dataTables_changeLastStep hpart)
  · obtain ⟨part, hpart, h⟩ := bind_eq_ok_iff.mp h
    cases h
    exact .kept (Part.dataTables_changeLastStep hpart)

/-- Only a row changes the data tables: it opens the first one or adds to it. -/
theorem dataTablesAfter_read (h : draft.read number line = .ok next) :
    DataTablesAfter draft.part.dataTables next.part.dataTables line := by
  unfold read at h
  split at h
  · cases h
    exact .kept rfl
  · split_ifs at h
    cases h
    exact .kept (Part.dataTables_cover _ _)
  · obtain ⟨_, -, h⟩ := bind_eq_ok_iff.mp h
    obtain ⟨part, hpart, h⟩ := bind_eq_ok_iff.mp h
    cases h
    exact .kept (Part.dataTables_openScenario hpart)
  · cases h
    exact .kept (by simp)
  · cases h
    exact .kept (by simp)
  · obtain ⟨_, -, h⟩ := bind_eq_ok_iff.mp h
    obtain ⟨step, -, h⟩ := bind_eq_ok_iff.mp h
    cases h
    exact .kept (by simp)
  · obtain ⟨part, hpart, h⟩ := bind_eq_ok_iff.mp h
    cases h
    exact .kept ((Part.dataTables_addTags hpart).trans (Part.dataTables_cover _ _))
  · obtain ⟨_, -, h⟩ := bind_eq_ok_iff.mp h
    cases h
    exact .kept (Part.dataTables_openTearDown _ _)
  · simpa using dataTablesAfter_readRow h

/-- There is one data table at most, and it is well formed. -/
def HasFormedTables (draft : Draft) : Prop :=
  draft.part.dataTables.length ≤ 1 ∧ ∀ table ∈ draft.part.dataTables, table.IsWellFormed

/-- Assumes: a line that has a cell if it is a row. -/
theorem HasFormedTables.read (h : draft.HasFormedTables) (hread : draft.read number line = .ok next)
    (hcells : ∀ cells, line = .tableRow cells → cells ≠ []) : next.HasFormedTables := by
  obtain ⟨hlength, hformed⟩ := h
  cases dataTablesAfter_read hread with
  | kept hafter => exact ⟨hafter ▸ hlength, hafter ▸ hformed⟩
  | opened number _ hafter =>
    rw [HasFormedTables, hafter]
    exact ⟨Nat.le_refl _, by simpa using Table.isWellFormed_ofHeaderRow (hcells _ rfl) number⟩
  | extended hbefore hrow hafter =>
    rw [hbefore, List.forall_mem_cons] at hformed
    rw [hbefore, List.length_cons] at hlength
    rw [HasFormedTables, hafter, List.forall_mem_cons]
    exact ⟨hlength, hformed.1.readRow hrow, hformed.2⟩

theorem HasFormedTables.readAll (h : draft.HasFormedTables) (hread : draft.readAll number lines = .ok next)
    (hcells : ∀ cells, Line.tableRow cells ∈ lines → cells ≠ []) : next.HasFormedTables := by
  induction lines generalizing draft number with
  | nil =>
    cases hread
    exact h
  | cons line rest ih =>
    obtain ⟨middle, hmiddle, hrest⟩ := readAll_cons_eq_ok_iff.mp hread
    have hline := h.read hmiddle fun cells hrow ↦ hcells cells (hrow ▸ List.mem_cons_self)
    exact ih hline hrest fun cells hrow ↦ hcells cells (List.mem_cons_of_mem _ hrow)

end Draft

/-! ### The parts of a specification -/

/-- The items come in three parts: comments, tags, context steps and one data table at most; then the
scenarios; and then a teardown, if there is one, with nothing but comments behind it. -/
def AreInParts (items : List SpecItem) : Prop :=
  ∃ (opening : List SpecItem) (scenarios : List Scenario) (closing : List SpecItem),
    items = opening ++ (scenarios.map .scenario ++ closing) ∧
    (∀ item ∈ opening, item.isOpening = true) ∧
    (opening.filterMap SpecItem.dataTable?).length ≤ 1 ∧
    (closing = [] ∨ ∃ (tearDown : TearDown) (comments : List Comment),
      closing = .tearDown tearDown :: comments.map .comment)

/-- Assumes: items that come in the sections of some lines, with one data table at most. -/
theorem AreItems.areInParts {lines : List Line} {items : List SpecItem} (h : AreItems lines items)
    (htables : (items.filterMap SpecItem.dataTable?).length ≤ 1) : AreInParts items := by
  cases h with
  | before h =>
    obtain ⟨opening, scenarios, rfl, hopening⟩ := h.exists_scenarios
    rw [List.filterMap_append, List.length_append] at htables
    exact ⟨opening, scenarios, [], by rw [List.append_nil], hopening, by omega, Or.inl rfl⟩
  | @after front rest items steps comments hfront _ =>
    obtain ⟨opening, scenarios, rfl, hopening⟩ := hfront.exists_scenarios
    rw [List.filterMap_append, List.filterMap_append, List.length_append, List.length_append] at htables
    exact ⟨opening, scenarios, _, List.append_assoc .., hopening, by omega, Or.inr ⟨_, comments, rfl⟩⟩

/-! ### Steps -/

/-- A literal or a reference, and no table. -/
def Argument.isText : Argument → Bool
  | static _ => true
  | dynamic _ => true
  | _ => false

/-- The arguments in the text of a step are literals and references. -/
theorem StepText.isText_of_parse {text : String} {line : Nat} {step : Step}
    (h : StepText.parse text line = .ok step) : ∀ argument ∈ step.arguments, argument.isText = true := by
  obtain ⟨pieces, -, rfl⟩ := exists_pieces_of_parse h
  intro argument hargument
  obtain ⟨piece, -, hpiece⟩ := List.mem_filterMap.mp hargument
  cases piece with
  | plain => cases hpiece
  | literal | reference =>
    cases hpiece
    rfl

theorem Line.eq_step_of_entry_eq {line : Line} {text : String} (h : line.entry? = some (.step text)) :
    line = .step text := by
  cases line with
  | heading level =>
    unfold entry? at h
    split at h <;> simp_all
  | _ => simp_all [ entry?]

/-- A step as it stands in a text: it comes from a step line, its table is its last argument and adds a
placeholder to the value, and it invokes nothing yet. -/
structure Step.IsWellFormed (step : Step) (lines : List Line) : Prop where
  stands : ∃ before after, lines = before ++ .step step.text :: after ∧ step.line = before.length + 1
  /-- Only the last argument can be a table. -/
  table_last : ∀ argument ∈ step.arguments.dropLast, argument.isText = true
  last_formed : ∀ argument ∈ step.arguments.getLast?,
    argument.isText = true ∨ ∃ table, argument = .table table ∧ table.IsWellFormed
  /-- The value is that of the text, with a placeholder for the table. -/
  value_eq : ∃ parsed, StepText.parse step.text step.line = .ok parsed ∧
    step.value = if step.lastTable?.isSome then parsed.value ++ " " ++ placeholder else parsed.value
  isWritten : step.IsWritten

theorem Step.lastTable?_of_isText {step : Step} (h : ∀ argument ∈ step.arguments, argument.isText = true) :
    step.lastTable? = none := by
  unfold lastTable?
  cases hlast : step.arguments.getLast? with
  | none => rfl
  | some argument =>
    have htext := h argument (List.mem_of_getLast? hlast)
    cases argument <;> first | rfl | cases htext

/-- The rows directly below a step line make a table that is well formed. -/
theorem IsSpecificationLayout.isWellFormed_ofRows {lines before after : List Line} {text : String}
    (h : IsSpecificationLayout lines) (hlines : lines = before ++ .step text :: after)
    (hcells : ∀ cells, Line.tableRow cells ∈ lines → cells ≠ []) {header : List String}
    {rows : List (List String)} (hrows : leadingRows after = header :: rows) (line : Nat) :
    (Table.ofRows header rows line).IsWellFormed := by
  have hbelow : after = (header :: rows).map .tableRow ++ withoutLeadingRows after := by
    rw [← hrows, map_leadingRows_append]
  have hrun : TableRun.IsIn ⟨before ++ [.step text], header, rows, withoutLeadingRows after⟩ lines := by
    refine ⟨?_, by simp [Line.isTableRow], isTableRow_head_withoutLeadingRows after⟩
    show lines = before ++ [.step text] ++ ((header :: rows).map .tableRow ++ withoutLeadingRows after)
    rw [← hbelow, hlines, List.append_assoc, List.singleton_append]
  refine Table.isWellFormed_ofRows (hcells header ?_) (h.rows_fit _ hrun) line
  rw [hrun.lines_eq]
  simp

namespace Specification

variable {file : Path} {text : String} {spec : Specification} {lines : List Line} {step : Step}

/-- A step is what its step line is read as, with the rows directly below the line. -/
theorem exists_withRows_of_mem (h : spec.Renders lines) (hstep : step ∈ spec.steps) :
    ∃ before after parsed, lines = before ++ .step step.text :: after ∧ step.line = before.length + 1 ∧
      StepText.parse step.text step.line = .ok parsed ∧ step = parsed.withRows (leadingRows after) := by
  have hentry : step.entry ∈ entriesOfKind .step (entriesFrom 1 lines) :=
    h.steps_eq ▸ List.mem_map_of_mem hstep
  obtain ⟨before, line, after, hlines, hnumber, hline⟩ :=
    mem_entriesFrom.mp (mem_entriesOfKind.mp hentry).1
  rw [Line.eq_step_of_entry_eq hline] at hlines
  rw [Nat.add_comm] at hnumber
  obtain ⟨parsed, hparse, hmem⟩ := h.step_rows before step.text after hlines
  -- No other step has the number of this line.
  have hdistinct : (spec.steps.map Step.line).Nodup := h.steps_increasing.imp Nat.ne_of_lt
  have hsame : step = parsed.withRows (leadingRows after) := by
    refine List.inj_on_of_nodup_map hdistinct hstep hmem ?_
    rw [Step.line_withRows, StepText.line_of_parse hparse, hnumber]
  rw [← hnumber] at hparse
  exact ⟨before, after, parsed, hlines, hnumber, hparse, hsame⟩

/-- A specification that is well formed, read from some lines. -/
structure IsWellFormed (spec : Specification) (lines : List Line) : Prop where
  items_inParts : AreInParts spec.items
  dataTable_formed : ∀ table, .dataTable table ∈ spec.items → table.IsWellFormed
  steps_formed : ∀ step ∈ spec.steps, step.IsWellFormed lines
  scopes_eq : spec.scopes = .empty

theorem isWellFormed_of_mem_steps (h : Specification.parse file text = .ok spec) (hstep : step ∈ spec.steps) :
    step.IsWellFormed (Line.classifyAll text) := by
  obtain ⟨before, after, parsed, hlines, hnumber, hparse, hsame⟩ :=
    exists_withRows_of_mem (renders_of_parse h) hstep
  have htext := StepText.isText_of_parse hparse
  have hwritten := isWritten_of_parse h step hstep
  cases hrows : leadingRows after with
  | nil =>
    rw [hrows] at hsame
    obtain rfl : step = parsed := hsame
    exact
      { stands := ⟨before, after, hlines, hnumber⟩
        table_last := fun argument hargument ↦ htext argument (List.mem_of_mem_dropLast hargument)
        last_formed := fun argument hargument ↦ Or.inl (htext argument (List.mem_of_getLast? hargument))
        value_eq := ⟨step, hparse, by simp [Step.lastTable?_of_isText htext]⟩
        isWritten := hwritten }
  | cons header rows =>
    rw [hrows, Step.withRows] at hsame
    have hformed := ((exists_parse_iff file text).mp ⟨spec, h⟩).isWellFormed_ofRows hlines
      (fun _ ↦ Line.cells_ne_nil_of_mem_classifyAll) hrows (parsed.line + 1)
    have harguments : step.arguments = parsed.arguments ++ [.table (.ofRows header rows (parsed.line + 1))] :=
      congrArg Step.arguments hsame
    have hvalue : step.value = parsed.value ++ " " ++ placeholder := congrArg Step.value hsame
    have htable : step.lastTable? = some (.ofRows header rows (parsed.line + 1)) := by
      rw [hsame, Step.lastTable?_addTable]
    exact
      { stands := ⟨before, after, hlines, hnumber⟩
        table_last := by rwa [harguments, List.dropLast_concat]
        last_formed := by
          rw [harguments, List.getLast?_concat]
          rintro argument ⟨⟩
          exact Or.inr ⟨_, rfl, hformed⟩
        value_eq := ⟨parsed, hparse, by simp [htable, hvalue]⟩
        isWritten := hwritten }

/-- A specification that has been read is well formed. -/
theorem isWellFormed_of_parse (h : Specification.parse file text = .ok spec) :
    spec.IsWellFormed (Line.classifyAll text) := by
  have hsteps : ∀ step ∈ spec.steps, step.IsWellFormed (Line.classifyAll text) :=
    fun step ↦ isWellFormed_of_mem_steps h
  obtain ⟨draft, heading, hread, -, rfl⟩ := parse_eq_ok_iff.mp h
  have hitems : AreItems (Line.classifyAll text) draft.part.items :=
    (Draft.renders_readAll Draft.renders_empty hread
      fun _ ↦ Line.trimString_of_mem_classifyAll).areItems
  have hempty : Draft.empty.HasFormedTables := ⟨by simp [Draft.empty], by simp [Draft.empty]⟩
  obtain ⟨hlength, hformed⟩ := hempty.readAll hread fun _ ↦ Line.cells_ne_nil_of_mem_classifyAll
  have htables : draft.part.items.filterMap SpecItem.dataTable? = draft.part.dataTables.reverse := by
    rw [Part.items, List.filterMap_reverse, Part.dataTables]
  exact
    { items_inParts := hitems.areInParts (by rwa [htables, List.length_reverse])
      dataTable_formed := fun table htable ↦ by
        refine hformed table (List.mem_reverse.mp ?_)
        rw [← htables]
        exact List.mem_filterMap.mpr ⟨_, htable, rfl⟩
      steps_formed := hsteps
      scopes_eq := rfl }

/-- A text with a data table, a step with a table, and a comment behind the teardown. -/
theorem isWellFormed_of_parse_orders :
    Specification.parse ⟨"orders.spec"⟩ orderText = .ok orderSpecification ∧
      orderSpecification.IsWellFormed (Line.classifyAll orderText) := by
  have hparse : Specification.parse ⟨"orders.spec"⟩ orderText = .ok orderSpecification := by decide +kernel
  exact ⟨hparse, isWellFormed_of_parse hparse⟩

end Specification

end LiveSpec
