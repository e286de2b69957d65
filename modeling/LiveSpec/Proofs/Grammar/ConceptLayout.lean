import LiveSpec.Grammar.ConceptText
import LiveSpec.Proofs.Grammar.Layout
import Mathlib.Data.List.TakeWhile

/-!
# The layout of a concept file

What a concept file looks like as a whole (`IsConceptLayout`): the titles declare concepts, every step stands
below a title, every title has a step before the next one, and every table hangs on a step and has rows as
wide as its header. Lines of other kinds may stand anywhere, but they separate a row from the step above.

A reader can only look back. So the same is said once more by what is allowed below given lines
(`ConceptFits`), of which the nearest is the first. That a concept has no steps shows at the next title or at
the end, where the nearest step or title above is a title (`lacksStep`). Every line has to fit below the lines
before it, and the last concept must not lack steps (`isConceptLayout_iff`).
-/

set_option autoImplicit false

namespace LiveSpec

/-- The text of a title declares a concept: it can be read like a step, and its arguments are references with
different names. -/
structure DeclaresConcept (text : String) : Prop where
  readable : StepText.IsReadable text
  parameters_eq : ∀ line root, StepText.parse text line = .ok root →
    ∃ names : List String, root.arguments = names.map .dynamic ∧ names.Nodup

/-- The lines of a text are laid out as those of a concept file. -/
structure IsConceptLayout (lines : List Line) : Prop where
  /-- Every step stands below a title. -/
  step_inside : ∀ before line after, lines = before ++ line :: after → line.isStep = true →
    ∃ earlier ∈ before, earlier.isTitle = true
  /-- Every title declares a concept. -/
  title_declares : ∀ text, Line.heading 1 text ∈ lines → DeclaresConcept text
  /-- Below every title there is a step before the next title or the end. -/
  title_has_step : ∀ before line after, lines = before ++ line :: after → line.isTitle = true →
    ∃ later ∈ after.takeWhile fun line ↦ !line.isTitle, later.isStep = true
  /-- The text of every step can be read. -/
  steps_readable : ∀ text, Line.step text ∈ lines → StepText.IsReadable text
  /-- Every table hangs on a step. -/
  tables_attached : ∀ run : TableRun, run.IsIn lines → ¬ run.IsFree
  /-- In every table each row but the header separates or is as wide as the header. -/
  rows_fit : ∀ run : TableRun, run.IsIn lines → ∀ row ∈ run.rows,
    isSeparatorRow row = true ∨ row.length = run.header.length

/-! ### Titles without steps -/

/-- The nearest step or title above is a title. -/
def lacksStep : List Line → Bool
  | [] => false
  | line :: above => line.isTitle || (!line.isStep && lacksStep above)

theorem lacksStep_iff {above : List Line} : lacksStep above = true ↔
    ∃ later title earlier, above = later ++ title :: earlier ∧ title.isTitle = true ∧
      ∀ line ∈ later, line.isTitle = false ∧ line.isStep = false := by
  induction above with
  | nil => simp [lacksStep]
  | cons line above ih =>
    rw [lacksStep]
    constructor
    · intro h
      by_cases htitle : line.isTitle = true
      · exact ⟨[], line, above, rfl, htitle, by simp⟩
      · rw [Bool.not_eq_true] at htitle
        rw [htitle, Bool.false_or, Bool.and_eq_true, Bool.not_eq_true'] at h
        obtain ⟨later, title, earlier, rfl, hmark, hlater⟩ := ih.mp h.2
        exact ⟨line :: later, title, earlier, rfl, hmark, List.forall_mem_cons.mpr ⟨⟨htitle, h.1⟩, hlater⟩⟩
    · rintro ⟨later, title, earlier, hsplit, hmark, hlater⟩
      rcases List.cons_eq_append_iff.mp hsplit with ⟨rfl, hsame⟩ | ⟨rest, rfl, habove⟩
      · rw [List.cons_eq_cons] at hsame
        rw [← hsame.1, hmark, Bool.true_or]
      · rw [List.forall_mem_cons] at hlater
        rw [hlater.1.1, hlater.1.2, ih.mpr ⟨rest, title, earlier, habove, hmark, hlater.2⟩]
        rfl

/-- Assumes: a title and lines below it without steps and titles. Below all of them it lacks steps. -/
theorem lacksStep_of_title {before after : List Line} {title : Line} (htitle : title.isTitle = true)
    (hafter : ∀ line ∈ after, line.isTitle = false ∧ line.isStep = false) :
    lacksStep (before ++ title :: after).reverse = true :=
  lacksStep_iff.mpr ⟨after.reverse, title, before.reverse, by simp, htitle, by simpa using hafter⟩

/-- Every title has a step before the next one exactly when none lacks steps at the next title or at the
end. -/
theorem title_has_step_iff {lines : List Line} :
    (∀ before line after, lines = before ++ line :: after → line.isTitle = true →
      ∃ later ∈ after.takeWhile fun line ↦ !line.isTitle, later.isStep = true) ↔
    (∀ before line after, lines = before ++ line :: after → line.isTitle = true →
      lacksStep before.reverse = false) ∧ lacksStep lines.reverse = false := by
  constructor
  · intro hsteps
    -- A title that lacks steps has none among the lines that follow it.
    have hnone : ∀ above below, lines = above ++ below →
        (∀ line ∈ below.head?, line.isTitle = true) → lacksStep above.reverse = false := by
      intro above below hlines hnext
      by_contra hlacks
      obtain ⟨later, title, earlier, habove, htitle, hlater⟩ := lacksStep_iff.mp (by simpa using hlacks)
      have hsplit : lines = earlier.reverse ++ title :: (later.reverse ++ below) := by
        rw [hlines, ← List.reverse_reverse above, habove]
        simp
      have hstop : below.takeWhile (fun line ↦ !line.isTitle) = [] := by
        cases below with
        | nil => rfl
        | cons line rest => simp [hnext line rfl]
      obtain ⟨step, hmem, hstep⟩ := hsteps _ _ _ hsplit htitle
      rw [List.takeWhile_append_of_pos (by simpa using fun line hline ↦ (hlater line hline).1), hstop,
        List.append_nil, List.mem_reverse] at hmem
      rw [(hlater step hmem).2] at hstep
      cases hstep
    refine ⟨fun before line after hlines htitle ↦ ?_, ?_⟩
    · refine hnone before (line :: after) hlines ?_
      simpa using htitle
    · exact hnone lines [] (by simp) (by simp)
  · rintro ⟨hnext, hend⟩ before title after rfl htitle
    by_contra hnone
    push Not at hnone
    have hlacks : lacksStep (before ++ title :: after.takeWhile fun line ↦ !line.isTitle).reverse = true :=
      lacksStep_of_title htitle fun line hline ↦
        ⟨by simpa using List.mem_takeWhile_imp hline, by simpa using hnone line hline⟩
    have hsplit : before ++ title :: after = (before ++ title :: after.takeWhile fun line ↦ !line.isTitle) ++
        after.dropWhile fun line ↦ !line.isTitle := by
      conv_lhs => rw [← List.takeWhile_append_dropWhile (p := fun line : Line ↦ !line.isTitle) (l := after)]
      simp
    cases hrest : after.dropWhile fun line ↦ !line.isTitle with
    | nil =>
      rw [hrest, List.append_nil] at hsplit
      rw [← hsplit, hend] at hlacks
      cases hlacks
    | cons line rest =>
      have hline : line.isTitle = true := by
        simpa [hrest] using List.head?_dropWhile_not (fun line : Line ↦ !line.isTitle) after
      rw [hrest] at hsplit
      rw [hnext _ _ _ hsplit hline] at hlacks
      cases hlacks

/-! ### The layout line by line -/

/-- A line is allowed below some lines of a concept file, of which the nearest is the first. -/
structure ConceptFits (above : List Line) (line : Line) : Prop where
  step_inside : line.isStep = true → ∃ earlier ∈ above, earlier.isTitle = true
  step_readable : ∀ text, line = .step text → StepText.IsReadable text
  title_declares : ∀ text, line = .heading 1 text → DeclaresConcept text
  title_after_steps : line.isTitle = true → lacksStep above = false
  row_attached : opensFreeTable above line = false
  row_fits : ∀ cells, line = .tableRow cells → ∀ header, (leadingRows above).getLast? = some header →
    isSeparatorRow cells = true ∨ cells.length = header.length

section Kinds

variable {above : List Line} {text : String} {cells : List String}

theorem conceptFits_title_iff :
    ConceptFits above (.heading 1 text) ↔ lacksStep above = false ∧ DeclaresConcept text := by
  constructor
  · exact fun h ↦ ⟨h.title_after_steps rfl, h.title_declares text rfl⟩
  · rintro ⟨hsteps, hdeclares⟩
    exact ⟨by simp [Line.isStep], by simp, by simpa using hdeclares, fun _ ↦ hsteps,
      by simp [opensFreeTable, Line.isTableRow], by simp⟩

theorem conceptFits_step_iff :
    ConceptFits above (.step text) ↔ above.any Line.isTitle = true ∧ StepText.IsReadable text := by
  rw [List.any_eq_true]
  constructor
  · exact fun h ↦ ⟨h.step_inside rfl, h.step_readable text rfl⟩
  · rintro ⟨hinside, hreadable⟩
    exact ⟨fun _ ↦ hinside, by simpa using hreadable, by simp, by simp [Line.isTitle],
      by simp [opensFreeTable, Line.isTableRow], by simp⟩

theorem conceptFits_tableRow_iff :
    ConceptFits above (.tableRow cells) ↔ opensFreeTable above (.tableRow cells) = false ∧
      ∀ header, (leadingRows above).getLast? = some header →
        isSeparatorRow cells = true ∨ cells.length = header.length := by
  constructor
  · exact fun h ↦ ⟨h.row_attached, h.row_fits cells rfl⟩
  · rintro ⟨hattached, hfits⟩
    exact ⟨by simp [Line.isStep], by simp, by simp, by simp [Line.isTitle], hattached, by simpa using hfits⟩

/-- A line of any other kind is allowed everywhere. -/
theorem conceptFits_of_kind {line : Line} (htitle : line.isTitle = false) (hstep : line.isStep = false)
    (hrow : line.isTableRow = false) : ConceptFits above line := by
  refine ⟨by simp [hstep], ?_, ?_, by simp [htitle], by simp [opensFreeTable, hrow], ?_⟩
  · rintro text rfl
    cases hstep
  · rintro text rfl
    cases htitle
  · rintro cells rfl
    cases hrow

end Kinds

/-- A text is laid out as a concept file exactly when every line fits below the lines before it and the last
concept has steps. -/
theorem isConceptLayout_iff {lines : List Line} : IsConceptLayout lines ↔
    (∀ before line after, lines = before ++ line :: after → ConceptFits before.reverse line) ∧
      lacksStep lines.reverse = false := by
  constructor
  · intro h
    obtain ⟨hnext, hend⟩ := title_has_step_iff.mp h.title_has_step
    refine ⟨?_, hend⟩
    rintro before line after rfl
    refine ⟨fun hstep ↦ ?_, ?_, ?_, hnext before line after rfl,
      not_isFree_iff.mp h.tables_attached before line after rfl,
      rows_fit_iff.mp h.rows_fit before line after rfl⟩
    · simpa using h.step_inside before line after rfl hstep
    · rintro text rfl
      exact h.steps_readable text (by simp)
    · rintro text rfl
      exact h.title_declares text (by simp)
  · rintro ⟨hfit, hend⟩
    refine ⟨fun before line after hsplit hstep ↦ ?_, ?_, ?_, ?_, ?_, ?_⟩
    · simpa using (hfit before line after hsplit).step_inside hstep
    · intro text hmem
      obtain ⟨before, after, hsplit⟩ := List.mem_iff_append.mp hmem
      exact (hfit before _ after hsplit).title_declares text rfl
    · exact title_has_step_iff.mpr
        ⟨fun before line after hsplit ↦ (hfit before line after hsplit).title_after_steps, hend⟩
    · intro text hmem
      obtain ⟨before, after, hsplit⟩ := List.mem_iff_append.mp hmem
      exact (hfit before _ after hsplit).step_readable text rfl
    · exact not_isFree_iff.mpr fun before line after hsplit ↦ (hfit before line after hsplit).row_attached
    · exact rows_fit_iff.mpr fun before line after hsplit ↦ (hfit before line after hsplit).row_fits

end LiveSpec
