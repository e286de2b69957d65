import LiveSpec.Grammar.StepText
import LiveSpec.Grammar.TableRow
import Mathlib.Data.List.Basic

/-!
# The layout of a specification

What kinds of lines a specification has, in which order, and how its tables are formed
(`IsSpecificationLayout`): one title, before which nothing stands that belongs to the specification;
scenarios and tags before the teardown; tables that hang on steps, and at most one that stands free, before
the first scenario; rows as wide as their header.

This looks at a text as a whole. A reader goes from line to line and can only look back, so the same layout
is described once more by what is allowed below given lines (`Fits`, `AllFit`). Every line has to fit below
the lines before it, and then a title among the lines is all that is missing
(`isSpecificationLayout_iff`). The lines above are listed with the nearest first.

A table is a maximal run of rows (`TableRun`). Every row stands in exactly one, which goes up and down as
far as there are rows (`TableRun.exists_around`).
-/

set_option autoImplicit false

namespace LiveSpec

/-! ### Kinds of lines -/

namespace Line

/-- The heading of a whole specification. -/
def isTitle : Line → Bool
  | heading 1 _ => true
  | _ => false

/-- The heading of a scenario. -/
def isScenarioHeading : Line → Bool
  | heading 2 _ => true
  | _ => false

def isStep : Line → Bool
  | step _ => true
  | _ => false

def isTags : Line → Bool
  | tags _ => true
  | _ => false

def isTearDown : Line → Bool
  | tearDown => true
  | _ => false

def isTableRow : Line → Bool
  | tableRow _ => true
  | _ => false

@[simp] theorem isTitle_heading (level : Nat) (text : String) :
    (heading level text).isTitle = decide (level = 1) := by
  unfold isTitle
  split <;> simp_all

@[simp] theorem isScenarioHeading_heading (level : Nat) (text : String) :
    (heading level text).isScenarioHeading = decide (level = 2) := by
  unfold isScenarioHeading
  split <;> simp_all

/-- A line that needs the title before it. A row can need it too, but that depends on where it stands. -/
def needsTitle (line : Line) : Bool := line.isStep || line.isScenarioHeading || line.isTearDown

/-- A line of a scenario or after the scenarios. -/
def endsOpening (line : Line) : Bool := line.isScenarioHeading || line.isTearDown

theorem isTitle_eq_false_of_needsTitle {line : Line} (h : line.needsTitle = true) :
    line.isTitle = false := by
  unfold isTitle
  split
  · simp [needsTitle, isStep, isScenarioHeading, isTearDown] at h
  · rfl

end Line

/-- A step whose text can be read. Whether it can does not depend on its line. -/
def StepText.IsReadable (text : String) : Prop := ∀ line, ∃ step, StepText.parse text line = .ok step

theorem StepText.isReadable_iff (text : String) (line : Nat) :
    StepText.IsReadable text ↔ ∃ step, StepText.parse text line = .ok step := by
  refine ⟨fun h ↦ h line, fun ⟨step, h⟩ other ↦ ?_⟩
  unfold StepText.parse at h ⊢
  split at h
  · cases h
  · cases hread : StepText.read .outside _ <;> rw [hread] at h
    · cases h
    · exact ⟨_, rfl⟩

/-! ### Tables -/

/-- The rows that some lines start with. -/
def leadingRows : List Line → List (List String)
  | .tableRow cells :: lines => cells :: leadingRows lines
  | _ => []

/-- The lines after the rows that they start with. -/
def withoutLeadingRows : List Line → List Line
  | .tableRow _ :: lines => withoutLeadingRows lines
  | lines => lines

theorem map_leadingRows_append (lines : List Line) :
    (leadingRows lines).map .tableRow ++ withoutLeadingRows lines = lines := by
  fun_induction leadingRows lines with
  | case1 cells lines ih => simp [withoutLeadingRows, ih]
  | case2 lines hother =>
    unfold withoutLeadingRows
    split
    · exact absurd rfl (hother _ _)
    · rfl

theorem isTableRow_head_withoutLeadingRows (lines : List Line) :
    ∀ line ∈ (withoutLeadingRows lines).head?, line.isTableRow = false := by
  fun_induction withoutLeadingRows lines with
  | case1 cells lines ih => exact ih
  | case2 lines hother =>
    intro line hline
    cases line with
    | tableRow cells =>
      obtain ⟨rest, rfl⟩ := List.head?_eq_some_iff.mp hline
      exact absurd rfl (hother cells rest)
    | _ => rfl

theorem leadingRows_eq_nil {lines : List Line} (h : ∀ line ∈ lines.head?, line.isTableRow = false) :
    leadingRows lines = [] := by
  unfold leadingRows
  split
  · simp [Line.isTableRow] at h
  · rfl

theorem leadingRows_map_append (rows : List (List String)) (lines : List Line) :
    leadingRows (rows.map .tableRow ++ lines) = rows ++ leadingRows lines := by
  induction rows with
  | nil => rfl
  | cons cells rows ih => simp [leadingRows, ih]

/-- A row that stands neither below a row nor below a step, given the lines above it. -/
def opensFreeTable (above : List Line) (line : Line) : Bool :=
  line.isTableRow && above.head?.all fun near ↦ !near.isTableRow && !near.isStep

theorem opensFreeTable_tableRow_iff {above : List Line} {cells : List String} :
    opensFreeTable above (.tableRow cells) = true ↔
      ∀ near ∈ above.head?, near.isTableRow = false ∧ near.isStep = false := by
  simp [opensFreeTable, Line.isTableRow, Option.all_eq_true]

/-- Below a row no table begins. -/
theorem opensFreeTable_eq_false {above : List Line} {header : List String}
    (h : (leadingRows above).getLast? = some header) (line : Line) :
    opensFreeTable above line = false := by
  unfold leadingRows at h
  split at h
  · simp [opensFreeTable, Line.isTableRow]
  · simp at h

/-- Below a step a table hangs on the step. -/
theorem opensFreeTable_of_step {above : List Line} (h : ∃ near ∈ above.head?, near.isStep = true)
    (line : Line) : opensFreeTable above line = false ∧ leadingRows above = [] := by
  obtain ⟨near, hmem, hstep⟩ := h
  obtain ⟨rest, rfl⟩ := List.head?_eq_some_iff.mp hmem
  cases near with
  | step text => simp [opensFreeTable, leadingRows, Line.isStep]
  | _ => cases hstep

theorem exists_cells_of_opensFreeTable {above : List Line} {line : Line}
    (h : opensFreeTable above line = true) : ∃ cells, line = .tableRow cells := by
  cases line with
  | tableRow cells => exact ⟨cells, rfl⟩
  | _ => simp [opensFreeTable, Line.isTableRow] at h

/-- There is such a row among some lines, of which the nearest is the first. -/
def hasFreeTable : List Line → Bool
  | [] => false
  | line :: above => opensFreeTable above line || hasFreeTable above

/-- A table in a text, with the lines before and after it. -/
structure TableRun where
  before : List Line
  header : List String
  rows : List (List String)
  after : List Line

namespace TableRun

/-- The table is one of a text: a maximal run of rows. -/
structure IsIn (run : TableRun) (lines : List Line) : Prop where
  lines_eq : lines = run.before ++ ((run.header :: run.rows).map .tableRow ++ run.after)
  starts : ∀ line ∈ run.before.getLast?, line.isTableRow = false
  ends : ∀ line ∈ run.after.head?, line.isTableRow = false

/-- The table does not hang on a step. -/
def IsFree (run : TableRun) : Prop := ∀ line ∈ run.before.getLast?, line.isStep = false

variable {run other : TableRun} {lines before after : List Line} {cells : List String}

/-- Every row stands in a table, which goes up and down as far as there are rows. -/
theorem exists_around (before after : List Line) (cells : List String) :
    ∃ run : TableRun, run.IsIn (before ++ .tableRow cells :: after) ∧
      run.before = (withoutLeadingRows before.reverse).reverse ∧
      run.header :: run.rows = (leadingRows before.reverse).reverse ++ cells :: leadingRows after ∧
      run.after = withoutLeadingRows after := by
  obtain ⟨header, rows, hrows⟩ : ∃ header rows,
      (leadingRows before.reverse).reverse ++ cells :: leadingRows after = header :: rows :=
    List.exists_cons_of_ne_nil (by simp)
  -- Upwards the rows are the first ones of the reversed list.
  have hbefore : before = (withoutLeadingRows before.reverse).reverse ++
      (leadingRows before.reverse).reverse.map .tableRow := by
    rw [← List.reverse_inj, List.reverse_append, List.map_reverse, List.reverse_reverse,
      List.reverse_reverse, map_leadingRows_append]
  refine ⟨⟨(withoutLeadingRows before.reverse).reverse, header, rows, withoutLeadingRows after⟩,
    ⟨?_, ?_, ?_⟩, rfl, hrows.symm, rfl⟩
  · show _ = _ ++ ((header :: rows).map Line.tableRow ++ _)
    rw [← hrows]
    conv_lhs => rw [hbefore, ← map_leadingRows_append after]
    simp
  · show ∀ line ∈ (withoutLeadingRows before.reverse).reverse.getLast?, line.isTableRow = false
    rw [List.getLast?_reverse]
    exact isTableRow_head_withoutLeadingRows _
  · exact isTableRow_head_withoutLeadingRows _

/-- A row that stands below neither a row nor a step is the first of a table that stands free. -/
theorem exists_free {line : Line} (h : opensFreeTable before.reverse line = true) (after : List Line) :
    ∃ run : TableRun, run.IsIn (before ++ line :: after) ∧ run.IsFree ∧
      run.before = before ∧ run.rows.map .tableRow ++ run.after = after := by
  obtain ⟨cells, rfl⟩ := exists_cells_of_opensFreeTable h
  rw [opensFreeTable_tableRow_iff, List.head?_reverse] at h
  obtain ⟨run, hrun, hbefore, hrows, hafter⟩ := exists_around before after cells
  have hnone : leadingRows before.reverse = [] :=
    leadingRows_eq_nil fun line hline ↦ (h line (by simpa using hline)).1
  have hsame : run.before = before := by
    have hsplit := map_leadingRows_append before.reverse
    rw [hnone, List.map_nil, List.nil_append] at hsplit
    rw [hbefore, hsplit, List.reverse_reverse]
  rw [hnone, List.reverse_nil, List.nil_append, List.cons_eq_cons] at hrows
  refine ⟨run, hrun, fun line hline ↦ (h line (hsame ▸ hline)).2, hsame, ?_⟩
  rw [hrows.2, hafter, map_leadingRows_append]

namespace IsIn

theorem lines_eq_cons (h : run.IsIn lines) :
    lines = run.before ++ .tableRow run.header :: (run.rows.map .tableRow ++ run.after) := by
  simpa using h.lines_eq

theorem leadingRows_before (h : run.IsIn lines) : leadingRows run.before.reverse = [] := by
  refine leadingRows_eq_nil ?_
  rw [List.head?_reverse]
  exact h.starts

theorem opensFreeTable (h : run.IsIn lines) (hfree : run.IsFree) :
    opensFreeTable run.before.reverse (.tableRow run.header) = true := by
  rw [opensFreeTable_tableRow_iff, List.head?_reverse]
  exact fun line hline ↦ ⟨h.starts line hline, hfree line hline⟩

/-- The rows above a later row of the table, of which the header is the last. -/
theorem leadingRows_reverse (h : run.IsIn lines) (front : List (List String)) :
    leadingRows (run.before ++ (run.header :: front).map Line.tableRow).reverse =
      front.reverse ++ [run.header] := by
  rw [List.reverse_append, ← List.map_reverse, leadingRows_map_append, h.leadingRows_before]
  simp

/-- Two tables that start at the same place are the same. -/
theorem eq_of_before_eq (h : run.IsIn lines) (hother : other.IsIn lines)
    (hbefore : run.before = other.before) : run = other := by
  have hlines := h.lines_eq.symm.trans hother.lines_eq
  rw [hbefore, List.append_cancel_left_eq] at hlines
  have hrows := congrArg leadingRows hlines
  rw [leadingRows_map_append, leadingRows_map_append, leadingRows_eq_nil h.ends,
    leadingRows_eq_nil hother.ends, List.append_nil, List.append_nil, List.cons_eq_cons] at hrows
  obtain ⟨hheader, hrows⟩ := hrows
  rw [hheader, hrows, List.append_cancel_left_eq] at hlines
  cases run
  cases other
  simp_all

end IsIn

end TableRun

theorem hasFreeTable_iff {above : List Line} :
    hasFreeTable above = true ↔
      ∃ later line earlier, above = later ++ line :: earlier ∧ opensFreeTable earlier line = true := by
  induction above with
  | nil => simp [hasFreeTable]
  | cons line above ih =>
    rw [hasFreeTable, Bool.or_eq_true, ih]
    constructor
    · rintro (hopens | ⟨later, first, earlier, rfl, hopens⟩)
      · exact ⟨[], line, above, rfl, hopens⟩
      · exact ⟨line :: later, first, earlier, rfl, hopens⟩
    · rintro ⟨later, first, earlier, hsplit, hopens⟩
      rcases List.cons_eq_append_iff.mp hsplit with ⟨rfl, hsame⟩ | ⟨rest, rfl, hrest⟩
      · rw [List.cons_eq_cons] at hsame
        obtain ⟨rfl, rfl⟩ := hsame
        exact Or.inl hopens
      · exact Or.inr ⟨rest, first, earlier, hrest, hopens⟩

/-- In every table each row but the header separates or is as wide as the header, if this is so of every row
and the topmost row above it. -/
theorem rows_fit_iff {lines : List Line} :
    (∀ run : TableRun, run.IsIn lines → ∀ row ∈ run.rows,
      isSeparatorRow row = true ∨ row.length = run.header.length) ↔
    ∀ before line after, lines = before ++ line :: after → ∀ cells, line = .tableRow cells →
      ∀ header, (leadingRows before.reverse).getLast? = some header →
        isSeparatorRow cells = true ∨ cells.length = header.length := by
  constructor
  · rintro hfit before line after rfl cells rfl header hheader
    obtain ⟨run, hrun, -, hrows, -⟩ := TableRun.exists_around before after cells
    obtain ⟨front, hfront⟩ := List.getLast?_eq_some_iff.mp hheader
    rw [hfront, List.reverse_append, List.reverse_singleton, List.singleton_append, List.cons_append,
      List.cons_eq_cons] at hrows
    rw [← hrows.1]
    exact hfit run hrun cells (by simp [hrows.2])
  · intro hfit run hrun row hrow
    obtain ⟨front, back, hrows⟩ := List.mem_iff_append.mp hrow
    refine hfit (run.before ++ (run.header :: front).map .tableRow) (.tableRow row)
      (back.map .tableRow ++ run.after) ?_ row rfl run.header ?_
    · rw [hrun.lines_eq, hrows]
      simp
    · rw [hrun.leadingRows_reverse]
      simp

/-- No table stands free if no row opens one. -/
theorem not_isFree_iff {lines : List Line} :
    (∀ run : TableRun, run.IsIn lines → ¬ run.IsFree) ↔
      ∀ before line after, lines = before ++ line :: after →
        opensFreeTable before.reverse line = false := by
  constructor
  · rintro hnone before line after rfl
    by_contra hopens
    obtain ⟨run, hrun, hfree, -⟩ := TableRun.exists_free (by simpa using hopens) after
    exact hnone run hrun hfree
  · intro hnone run hrun hfree
    have hopens := hrun.opensFreeTable hfree
    rw [hnone _ _ _ hrun.lines_eq_cons] at hopens
    cases hopens

/-! ### The layout as a whole -/

/-- The lines of a text are laid out as those of a specification. -/
structure IsSpecificationLayout (lines : List Line) : Prop where
  /-- There is exactly one title. -/
  title_once : lines.countP Line.isTitle = 1
  /-- No step, scenario heading or marker of the teardown comes before the title. -/
  title_first : lines.Pairwise fun earlier later ↦ later.isTitle = true → earlier.needsTitle = false
  /-- No table that stands free comes before the title. -/
  title_before_table : ∀ run : TableRun, run.IsIn lines → run.IsFree →
    ∀ line ∈ run.after, line.isTitle = false
  /-- No scenario heading and no tags come after a marker of the teardown. -/
  tearDown_last : lines.Pairwise fun earlier later ↦ earlier.isTearDown = true →
    later.isScenarioHeading = false ∧ later.isTags = false
  /-- The text of every step can be read. -/
  steps_readable : ∀ text, Line.step text ∈ lines → StepText.IsReadable text
  /-- There is at most one table that stands free. -/
  table_once : ∀ run other : TableRun, run.IsIn lines → other.IsIn lines → run.IsFree → other.IsFree →
    run = other
  /-- It comes before all scenario headings and markers of the teardown. -/
  table_first : ∀ run : TableRun, run.IsIn lines → run.IsFree →
    ∀ line ∈ run.before, line.endsOpening = false
  /-- In every table each row but the header separates or is as wide as the header. -/
  rows_fit : ∀ run : TableRun, run.IsIn lines → ∀ row ∈ run.rows,
    isSeparatorRow row = true ∨ row.length = run.header.length

/-! ### The layout line by line -/

/-- A line is allowed below some lines, of which the nearest is the first. -/
@[mk_iff]
structure Fits (above : List Line) (line : Line) : Prop where
  title_once : line.isTitle = true → ∀ earlier ∈ above, earlier.isTitle = false
  title_first : line.needsTitle = true ∨ opensFreeTable above line = true →
    ∃ earlier ∈ above, earlier.isTitle = true
  tearDown_last : line.isScenarioHeading = true ∨ line.isTags = true →
    ∀ earlier ∈ above, earlier.isTearDown = false
  step_readable : ∀ text, line = .step text → StepText.IsReadable text
  table_first : opensFreeTable above line = true → ∀ earlier ∈ above, earlier.endsOpening = false
  table_once : opensFreeTable above line = true → hasFreeTable above = false
  row_fits : ∀ cells, line = .tableRow cells → ∀ header, (leadingRows above).getLast? = some header →
    isSeparatorRow cells = true ∨ cells.length = header.length

section Kinds

variable {above : List Line} {line : Line} {text : String}

theorem fits_title_iff : Fits above (.heading 1 text) ↔ above.any Line.isTitle = false := by
  simp [fits_iff, opensFreeTable, Line.isTitle, Line.needsTitle, Line.isStep, Line.isScenarioHeading,
    Line.isTearDown, Line.isTags, Line.isTableRow]

theorem fits_scenarioHeading_iff : Fits above (.heading 2 text) ↔
    above.any Line.isTitle = true ∧ above.any Line.isTearDown = false := by
  simp [fits_iff, opensFreeTable, Line.isTitle, Line.needsTitle, Line.isStep, Line.isScenarioHeading,
    Line.isTearDown, Line.isTags, Line.isTableRow]

theorem fits_step_iff : Fits above (.step text) ↔
    above.any Line.isTitle = true ∧ StepText.IsReadable text := by
  simp [fits_iff, opensFreeTable, Line.isTitle, Line.needsTitle, Line.isStep, Line.isScenarioHeading,
    Line.isTearDown, Line.isTags, Line.isTableRow]

theorem fits_tags_iff {values : List String} : Fits above (.tags values) ↔
    above.any Line.isTearDown = false := by
  simp [fits_iff, opensFreeTable, Line.isTitle, Line.needsTitle, Line.isStep, Line.isScenarioHeading,
    Line.isTearDown, Line.isTags, Line.isTableRow]

theorem fits_tearDown_iff : Fits above .tearDown ↔ above.any Line.isTitle = true := by
  simp [fits_iff, opensFreeTable, Line.isTitle, Line.needsTitle, Line.isStep, Line.isScenarioHeading,
    Line.isTearDown, Line.isTags, Line.isTableRow]

theorem fits_tableRow_iff {cells : List String} : Fits above (.tableRow cells) ↔
    (opensFreeTable above (.tableRow cells) = true → above.any Line.isTitle = true ∧
      above.any Line.endsOpening = false ∧ hasFreeTable above = false) ∧
    ∀ header, (leadingRows above).getLast? = some header →
      isSeparatorRow cells = true ∨ cells.length = header.length := by
  have hfits : Fits above (.tableRow cells) ↔
      (opensFreeTable above (.tableRow cells) = true → above.any Line.isTitle = true) ∧
      (opensFreeTable above (.tableRow cells) = true → above.any Line.endsOpening = false) ∧
      (opensFreeTable above (.tableRow cells) = true → hasFreeTable above = false) ∧
      ∀ header, (leadingRows above).getLast? = some header →
        isSeparatorRow cells = true ∨ cells.length = header.length := by
    simp [fits_iff, Line.isTitle, Line.needsTitle, Line.isStep, Line.isScenarioHeading,
      Line.isTearDown, Line.isTags]
  rw [hfits]
  tauto

/-- A line of any other kind is allowed everywhere. -/
theorem fits_of_kind (htitle : line.isTitle = false) (hneeds : line.needsTitle = false)
    (htags : line.isTags = false) (hrow : line.isTableRow = false) : Fits above line := by
  have hopens : opensFreeTable above line = false := by simp [opensFreeTable, hrow]
  simp only [Line.needsTitle, Bool.or_eq_false_iff] at hneeds
  refine ⟨by simp [htitle], by simp [Line.needsTitle, hneeds, hopens], by simp [hneeds, htags], ?_,
    by simp [hopens], by simp [hopens], ?_⟩
  · rintro text rfl
    simp [Line.isStep] at hneeds
  · rintro cells rfl
    simp [Line.isTableRow] at hrow

end Kinds

/-- Lines are allowed one below the other, the first of them below some lines above. -/
def AllFit (above : List Line) : List Line → Prop
  | [] => True
  | line :: below => Fits above line ∧ AllFit (line :: above) below

/-- A list is split at its first line or at one of the others. -/
theorem forall_split_cons {motive : List Line → Line → List Line → Prop} {first : Line} {lines : List Line} :
    (∀ before line after, first :: lines = before ++ line :: after → motive before line after) ↔
      motive [] first lines ∧
        ∀ before line after, lines = before ++ line :: after → motive (first :: before) line after := by
  constructor
  · intro hall
    refine ⟨hall [] first lines rfl, fun before line after hsplit ↦ ?_⟩
    exact hall (first :: before) line after (by simp [hsplit])
  · rintro ⟨hfirst, hrest⟩ before line after hsplit
    rcases List.cons_eq_append_iff.mp hsplit with ⟨rfl, hsame⟩ | ⟨rest, rfl, hlines⟩
    · rw [List.cons_eq_cons] at hsame
      obtain ⟨rfl, rfl⟩ := hsame
      exact hfirst
    · exact hrest rest line after hlines

theorem allFit_iff {above lines : List Line} : AllFit above lines ↔
    ∀ before line after, lines = before ++ line :: after → Fits (before.reverse ++ above) line := by
  induction lines generalizing above with
  | nil => simp [AllFit]
  | cons first lines ih =>
    rw [AllFit, ih, forall_split_cons]
    simp

/-- A relation that holds from every line to every later one. -/
theorem pairwise_iff_split {R : Line → Line → Prop} {lines : List Line} : lines.Pairwise R ↔
    ∀ before line after, lines = before ++ line :: after → ∀ earlier ∈ before, R earlier line := by
  constructor
  · rintro hpairwise before line after rfl earlier hearlier
    exact (List.pairwise_append.mp hpairwise).2.2 earlier hearlier line (by simp)
  · intro hall
    induction lines with
    | nil => exact List.Pairwise.nil
    | cons first lines ih =>
      refine List.pairwise_cons.mpr ⟨fun later hlater ↦ ?_, ih fun before line after hsplit earlier hearlier ↦ ?_⟩
      · obtain ⟨before, after, rfl⟩ := List.mem_iff_append.mp hlater
        exact hall (first :: before) later after rfl first (by simp)
      · exact hall (first :: before) line after (by simp [hsplit]) earlier (List.mem_cons_of_mem _ hearlier)

namespace IsSpecificationLayout

variable {lines before after : List Line} {line : Line}

theorem exists_title (h : IsSpecificationLayout lines) : ∃ line ∈ lines, line.isTitle = true := by
  rw [← List.countP_pos_iff, h.title_once]
  exact Nat.one_pos

/-- The title is not before a line that has no title after it and is none. -/
theorem exists_title_before (h : IsSpecificationLayout (before ++ line :: after))
    (hline : line.isTitle = false) (hafter : ∀ later ∈ after, later.isTitle = false) :
    ∃ earlier ∈ before, earlier.isTitle = true := by
  obtain ⟨title, hmem, htitle⟩ := h.exists_title
  rcases List.mem_append.mp hmem with hbefore | hrest
  · exact ⟨title, hbefore, htitle⟩
  · rcases List.mem_cons.mp hrest with rfl | hlater
    · simp [htitle] at hline
    · simp [hafter title hlater] at htitle

/-- A row that opens a table which stands free has the title before it, no scenario heading, no marker of
the teardown and no other such row. -/
theorem of_opensFreeTable (h : IsSpecificationLayout (before ++ line :: after))
    (hopens : opensFreeTable before.reverse line = true) :
    (∃ earlier ∈ before, earlier.isTitle = true) ∧ (∀ earlier ∈ before, earlier.endsOpening = false) ∧
      hasFreeTable before.reverse = false := by
  obtain ⟨cells, rfl⟩ := exists_cells_of_opensFreeTable hopens
  obtain ⟨run, hrun, hfree, rfl, rfl⟩ := TableRun.exists_free hopens after
  refine ⟨h.exists_title_before rfl fun later hlater ↦ ?_, h.table_first run hrun hfree, ?_⟩
  · rcases List.mem_append.mp hlater with hrow | hafter
    · obtain ⟨row, -, rfl⟩ := List.mem_map.mp hrow
      rfl
    · exact h.title_before_table run hrun hfree later hafter
  · by_contra hother
    obtain ⟨later, first, earlier, hsplit, hfirst⟩ := hasFreeTable_iff.mp (by simpa using hother)
    have hbefore : run.before = earlier.reverse ++ first :: later.reverse := by
      rw [← List.reverse_inj, hsplit]
      simp
    rw [← List.reverse_reverse earlier] at hfirst
    obtain ⟨other, hotherIn, hotherFree, hotherBefore, -⟩ := TableRun.exists_free hfirst
      (later.reverse ++ .tableRow cells :: (run.rows.map .tableRow ++ run.after))
    have hsame : run = other := by
      refine h.table_once run other hrun ?_ hfree hotherFree
      rw [hbefore]
      simpa using hotherIn
    rw [hsame, hotherBefore] at hbefore
    simp at hbefore

/-- Every line of a specification fits below the lines before it. -/
theorem fits (h : IsSpecificationLayout (before ++ line :: after)) : Fits before.reverse line := by
  have hearlier : ∀ {earlier}, earlier ∈ before.reverse → earlier ∈ before := List.mem_reverse.mp
  refine ⟨?_, ?_, ?_, ?_, ?_, ?_, ?_⟩
  · intro htitle earlier hmem
    have hcount := h.title_once
    rw [List.countP_append, List.countP_cons_of_pos htitle] at hcount
    have hnone : before.countP Line.isTitle = 0 := by omega
    simpa using List.countP_eq_zero.mp hnone earlier (hearlier hmem)
  · rintro (hneeds | hopens)
    · have hline := Line.isTitle_eq_false_of_needsTitle hneeds
      obtain ⟨title, hmem, htitle⟩ := h.exists_title_before hline fun later hlater ↦ by
        by_contra htitle
        have hpair := (List.pairwise_cons.mp (List.pairwise_append.mp h.title_first).2.1).1 later hlater
        simp [hpair (by simpa using htitle)] at hneeds
      exact ⟨title, List.mem_reverse.mpr hmem, htitle⟩
    · obtain ⟨title, hmem, htitle⟩ := (h.of_opensFreeTable hopens).1
      exact ⟨title, List.mem_reverse.mpr hmem, htitle⟩
  · intro hkind earlier hmem
    by_contra htearDown
    have hpair := (List.pairwise_append.mp h.tearDown_last).2.2 earlier (hearlier hmem) line (by simp)
    obtain ⟨hscenario, htags⟩ := hpair (by simpa using htearDown)
    simp [hscenario, htags] at hkind
  · rintro text rfl
    exact h.steps_readable text (by simp)
  · intro hopens earlier hmem
    exact (h.of_opensFreeTable hopens).2.1 earlier (hearlier hmem)
  · intro hopens
    exact (h.of_opensFreeTable hopens).2.2
  · exact rows_fit_iff.mp h.rows_fit before line after rfl

end IsSpecificationLayout

variable {lines : List Line}

/-- Assumes: lines that fit one below the other, and a title among them. The title is the only one. -/
theorem countP_isTitle_eq_one
    (hfit : ∀ before line after, lines = before ++ line :: after → Fits before.reverse line)
    (htitle : ∃ title ∈ lines, title.isTitle = true) : lines.countP Line.isTitle = 1 := by
  obtain ⟨title, hmem, htitle⟩ := htitle
  obtain ⟨before, after, rfl⟩ := List.mem_iff_append.mp hmem
  have hbefore : before.countP Line.isTitle = 0 := by
    refine List.countP_eq_zero.mpr fun earlier hearlier ↦ ?_
    simp [(hfit before title after rfl).title_once htitle earlier (by simpa using hearlier)]
  have hafter : after.countP Line.isTitle = 0 := by
    refine List.countP_eq_zero.mpr fun later hlater hagain ↦ ?_
    obtain ⟨between, rest, rfl⟩ := List.mem_iff_append.mp hlater
    have honce := (hfit (before ++ title :: between) later rest (by simp)).title_once hagain title (by simp)
    simp [htitle] at honce
  rw [List.countP_append, List.countP_cons_of_pos htitle, hbefore, hafter]

/-- Assumes: lines that fit one below the other. Of two tables that stand free none starts behind the
other. -/
theorem length_before_le
    (hfit : ∀ before line after, lines = before ++ line :: after → Fits before.reverse line)
    {run other : TableRun} (hrun : run.IsIn lines) (hother : other.IsIn lines) (hfree : run.IsFree)
    (hotherFree : other.IsFree) : other.before.length ≤ run.before.length := by
  by_contra hless
  rw [Nat.not_le] at hless
  have hsplit := hrun.lines_eq_cons.symm.trans hother.lines_eq_cons
  -- The header of the one table stands among the lines before the other, which allows no second table.
  obtain ⟨between, hbetween⟩ : ∃ between, other.before = run.before ++ .tableRow run.header :: between := by
    rcases List.append_eq_append_iff.mp hsplit with ⟨rest, hbefore, hrest⟩ | ⟨rest, hbefore, -⟩
    · rcases List.cons_eq_append_iff.mp hrest with ⟨rfl, -⟩ | ⟨between, rfl, -⟩
      · simp [hbefore] at hless
      · exact ⟨between, hbefore⟩
    · rw [hbefore, List.length_append] at hless
      omega
  have honce := (hfit _ _ _ hother.lines_eq_cons).table_once (hother.opensFreeTable hotherFree)
  have hhas : hasFreeTable other.before.reverse = true := by
    refine hasFreeTable_iff.mpr ⟨between.reverse, _, run.before.reverse, ?_, hrun.opensFreeTable hfree⟩
    simp [hbetween]
  simp [honce] at hhas

/-- Lines that fit one below the other, with a title among them, are laid out as those of a
specification. -/
theorem isSpecificationLayout_of_fits
    (hfit : ∀ before line after, lines = before ++ line :: after → Fits before.reverse line)
    (htitle : ∃ title ∈ lines, title.isTitle = true) : IsSpecificationLayout lines := by
  have hheader : ∀ run : TableRun, run.IsIn lines → Fits run.before.reverse (.tableRow run.header) :=
    fun run hrun ↦ hfit _ _ _ hrun.lines_eq_cons
  have honce : lines.Pairwise fun earlier later ↦ later.isTitle = true → earlier.isTitle = false :=
    pairwise_iff_split.mpr fun before line after hsplit earlier hearlier hagain ↦
      (hfit before line after hsplit).title_once hagain earlier (List.mem_reverse.mpr hearlier)
  refine ⟨countP_isTitle_eq_one hfit htitle, ?_, ?_, ?_, ?_, ?_, ?_, ?_⟩
  -- What needs the title has one before it, so that a title after it would be a second one.
  · refine pairwise_iff_split.mpr ?_
    rintro before line after rfl earlier hearlier hagain
    by_contra hneeds
    obtain ⟨front, back, rfl⟩ := List.mem_iff_append.mp hearlier
    obtain ⟨title, hmem, htitle⟩ := (hfit front earlier (back ++ line :: after) (by simp)).title_first
      (Or.inl (by simpa using hneeds))
    have hpair := (List.pairwise_append.mp honce).2.2 title (by simp_all) line (by simp) hagain
    simp [htitle] at hpair
  · intro run hrun hfree line hline
    by_contra hagain
    obtain ⟨title, hmem, htitle⟩ :=
      (hheader run hrun).title_first (Or.inr (hrun.opensFreeTable hfree))
    rw [hrun.lines_eq] at honce
    have hpair := (List.pairwise_append.mp honce).2.2 title (List.mem_reverse.mp hmem) line
      (List.mem_append_right _ hline) (by simpa using hagain)
    simp [htitle] at hpair
  · refine pairwise_iff_split.mpr fun before line after hsplit earlier hearlier htearDown ↦ ?_
    have hlast := (hfit before line after hsplit).tearDown_last
    by_contra hkind
    rw [not_and_or, Bool.not_eq_false, Bool.not_eq_false] at hkind
    simp [hlast hkind earlier (List.mem_reverse.mpr hearlier)] at htearDown
  · intro text hmem
    obtain ⟨before, after, rfl⟩ := List.mem_iff_append.mp hmem
    exact (hfit before _ after rfl).step_readable text rfl
  · intro run other hrun hother hfree hotherFree
    have hlength := Nat.le_antisymm (length_before_le hfit hother hrun hotherFree hfree)
      (length_before_le hfit hrun hother hfree hotherFree)
    exact hrun.eq_of_before_eq hother
      (List.append_inj_left (hrun.lines_eq_cons.symm.trans hother.lines_eq_cons) hlength)
  · intro run hrun hfree line hline
    exact (hheader run hrun).table_first (hrun.opensFreeTable hfree) line (List.mem_reverse.mpr hline)
  · exact rows_fit_iff.mpr fun before line after hsplit ↦ (hfit before line after hsplit).row_fits

/-- A text is laid out as a specification exactly when every line fits below the lines before it and there
is a title. -/
theorem isSpecificationLayout_iff {lines : List Line} :
    IsSpecificationLayout lines ↔ AllFit [] lines ∧ ∃ title ∈ lines, title.isTitle = true := by
  rw [allFit_iff]
  simp only [List.append_nil]
  constructor
  · intro h
    refine ⟨?_, h.exists_title⟩
    rintro before line after rfl
    exact h.fits
  · rintro ⟨hfit, htitle⟩
    exact isSpecificationLayout_of_fits hfit htitle

end LiveSpec
