import LiveSpec.Proofs.Grammar.ConceptLayout
import LiveSpec.Proofs.Grammar.Rows

/-!
# Which texts are concept files, and what is read from them

A text can be read as a concept file exactly when its lines are laid out as those of one, and what has been
read are the concepts of its titles (`Concept.parseAll_spec`).

As for specifications, a draft reflects the lines that it was read from (`ConceptFileDraft.Reflects`), so the
next line can be read exactly when it fits below these (`ConceptFileDraft.Reflects.exists_read_iff`).

What is read is told from the lines to come. Each step line gives a step with the rows directly below it as a
table (`AreSteps`), and each title a concept with the steps down to the next title (`AreConcepts`). What has
been read before stays as it is, except that rows directly below the last step go to this step: what the
newest steps come to with some more rows is known from the target of the rows (`RowTarget.Completes`).
-/

set_option autoImplicit false

namespace LiveSpec

/-! ### Titles -/

/-- The arguments do not depend on the line. -/
theorem StepText.arguments_of_parse {text : String} {line other : Nat} {root root' : Step}
    (h : StepText.parse text line = .ok root) (hother : StepText.parse text other = .ok root') :
    root'.arguments = root.arguments := by
  obtain ⟨pieces, hpieces, rfl⟩ := exists_pieces_of_parse h
  obtain ⟨pieces', hpieces', rfl⟩ := exists_pieces_of_parse hother
  rw [hpieces] at hpieces'
  cases hpieces'
  rfl

theorem parameterFault?_nil_iff {parameters : List Argument} : parameterFault? [] parameters = none ↔
    ∃ names : List String, parameters = names.map .dynamic ∧ names.Nodup := by
  simp [parameterFault?_eq_none_iff]

/-- A line that is no title, step or row. -/
theorem Line.isOther_of_ne {line : Line} (htitle : ∀ text, line = .heading 1 text → False)
    (hstep : ∀ text, line = .step text → False) (hrow : ∀ cells, line = .tableRow cells → False) :
    line.isTitle = false ∧ line.isStep = false ∧ line.isTableRow = false := by
  refine ⟨?_, ?_, ?_⟩
  · unfold isTitle
    split
    · exact absurd rfl (htitle _)
    · rfl
  · cases line <;> first | rfl | exact absurd rfl (hstep _)
  · cases line <;> first | rfl | exact absurd rfl (hrow _)

namespace ConceptDraft

variable {text : String} {line : Nat} {draft : ConceptDraft}

theorem ofHeading_eq_ok_iff : ofHeading text line = .ok draft ↔
    ∃ root, StepText.parse text line = .ok root ∧ parameterFault? [] root.arguments = none ∧
      draft = ⟨root, []⟩ := by
  unfold ofHeading
  constructor
  · intro h
    split at h
    · cases h
    · rename_i root hroot
      split at h
      · cases h
      · rename_i hfault
        cases h
        exact ⟨root, hroot, hfault, rfl⟩
  · rintro ⟨root, hroot, hfault, rfl⟩
    simp only [hroot, hfault]

/-- A title can be read exactly when it declares a concept. -/
theorem exists_ofHeading_iff (text : String) (line : Nat) :
    (∃ draft, ofHeading text line = .ok draft) ↔ DeclaresConcept text := by
  simp only [ofHeading_eq_ok_iff, parameterFault?_nil_iff]
  constructor
  · rintro ⟨-, root, hroot, hparameters, -⟩
    refine ⟨(StepText.isReadable_iff text line).mpr ⟨root, hroot⟩, fun other root' hroot' ↦ ?_⟩
    rw [StepText.arguments_of_parse hroot hroot']
    exact hparameters
  · rintro ⟨hreadable, hparameters⟩
    obtain ⟨root, hroot⟩ := hreadable line
    exact ⟨⟨root, []⟩, root, hroot, hparameters line root hroot, rfl⟩

end ConceptDraft

/-! ### Which lines can be read -/

/-- What a row on the next line continues, given the concepts that have been read and the lines that they
were read from, both with the nearest first. -/
inductive RowTarget.ContinuesIn (concepts : List ConceptDraft) (above : List Line) : RowTarget → Prop
  | nothing (hnear : ∀ near ∈ above.head?, near.isTableRow = false ∧ near.isStep = false) :
    ContinuesIn concepts above .nothing
  | step {root step steps earlier} (hnear : ∃ near ∈ above.head?, near.isStep = true)
    (hconcepts : concepts = ⟨root, step :: steps⟩ :: earlier) : ContinuesIn concepts above .step
  | stepTable {root step steps earlier table} (hconcepts : concepts = ⟨root, step :: steps⟩ :: earlier)
    (htable : step.lastTable? = some table)
    (hheader : (leadingRows above).getLast? = some table.headers) : ContinuesIn concepts above .stepTable

namespace ConceptFileDraft

variable {draft next final : ConceptFileDraft} {above : List Line} {line : Line} {number : Nat}
  {cells : List String}

/-- A draft reflects the lines that it was read from, the nearest first. -/
structure Reflects (draft : ConceptFileDraft) (above : List Line) : Prop where
  concepts_iff : draft.concepts ≠ [] ↔ above.any Line.isTitle = true
  requireSteps_iff : draft.requireSteps = .ok () ↔ lacksStep above = false
  continues : draft.target.ContinuesIn draft.concepts above

theorem readAll_cons_eq_ok_iff {below : List Line} : draft.readAll number (line :: below) = .ok final ↔
    ∃ next, draft.read number line = .ok next ∧ next.readAll (number + 1) below = .ok final := by
  rw [readAll]
  cases draft.read number line <;> simp

theorem reflects_empty : empty.Reflects [] :=
  ⟨by simp [empty], iff_of_true rfl rfl, .nothing (by simp)⟩

namespace Reflects

/-- A row can be read exactly when it fits. -/
theorem exists_readRow_iff (h : draft.Reflects above) :
    (∃ next, draft.readRow number cells = .ok next) ↔ ConceptFits above (.tableRow cells) := by
  rw [conceptFits_tableRow_iff]
  obtain ⟨concepts, target⟩ := draft
  obtain ⟨-, -, hcontinues⟩ := h
  cases hcontinues with
  | nothing hnear =>
    have hopens : opensFreeTable above (.tableRow cells) = true := opensFreeTable_tableRow_iff.mpr hnear
    simp [readRow, hopens]
  | step hnear hconcepts =>
    obtain ⟨hopens, hnone⟩ := opensFreeTable_of_step hnear (.tableRow cells)
    subst hconcepts
    simp [readRow, hopens, hnone, Step.readRow, Except.map]
  | stepTable hconcepts htable hheader =>
    subst hconcepts
    have hopens := opensFreeTable_eq_false hheader (.tableRow cells)
    simp [readRow, hopens, hheader, Step.readRow, htable, map_eq_ok_iff, ← Table.exists_readRow_iff]

/-- The next line can be read exactly when it fits. -/
theorem exists_read_iff (h : draft.Reflects above) (number : Nat) (line : Line) :
    (∃ next, draft.read number line = .ok next) ↔ ConceptFits above line := by
  unfold ConceptFileDraft.read
  split
  · rename_i text
    rw [conceptFits_title_iff, ← h.requireSteps_iff, ← ConceptDraft.exists_ofHeading_iff text number]
    simp only [exists_bind_iff, mapError_eq_ok_iff, pure, Except.pure]
    constructor
    · rintro ⟨⟨⟩, hsteps, opened, hopened, -⟩
      exact ⟨hsteps, opened, hopened⟩
    · rintro ⟨hsteps, opened, hopened⟩
      exact ⟨(), hsteps, opened, hopened, _, rfl⟩
  · rename_i text
    rw [conceptFits_step_iff, ← h.concepts_iff, StepText.isReadable_iff text number]
    split
    · simp [*]
    · simp [*, exists_bind_iff, mapError_eq_ok_iff, pure, Except.pure]
  · simp only [mapError_eq_ok_iff]
    exact h.exists_readRow_iff
  · rename_i htitle hstep hrow
    obtain ⟨hnoTitle, hnoStep, hnoRow⟩ := Line.isOther_of_ne htitle hstep hrow
    exact iff_of_true ⟨_, rfl⟩ (conceptFits_of_kind hnoTitle hnoStep hnoRow)

/-- A line that is neither title nor step leaves the concepts and the need of steps as they are. -/
theorem of_kind (h : draft.Reflects above) (htitle : line.isTitle = false) (hstep : line.isStep = false)
    (hconcepts : next.concepts ≠ [] ↔ draft.concepts ≠ [])
    (hsteps : next.requireSteps = .ok () ↔ draft.requireSteps = .ok ())
    (hcontinues : next.target.ContinuesIn next.concepts (line :: above)) : next.Reflects (line :: above) := by
  refine ⟨?_, ?_, hcontinues⟩
  · rw [hconcepts, h.concepts_iff, List.any_cons, htitle, Bool.false_or]
  · rw [hsteps, h.requireSteps_iff, lacksStep, htitle, hstep]
    rfl

/-- A row that was read is reflected. -/
theorem readRow (h : draft.Reflects above) (hread : draft.readRow number cells = .ok next) :
    next.Reflects (.tableRow cells :: above) := by
  have hcontinues := h.continues
  obtain ⟨concepts, target⟩ := draft
  cases hcontinues with
  | nothing => cases hread
  | step hnear hconcepts =>
    subst hconcepts
    obtain ⟨-, hnone⟩ := opensFreeTable_of_step hnear (.tableRow cells)
    simp only [ConceptFileDraft.readRow, map_eq_ok_iff] at hread
    obtain ⟨extended, hextended, rfl⟩ := hread
    cases hextended
    refine h.of_kind rfl rfl (by simp) (iff_of_true rfl rfl)
      (.stepTable rfl (Step.lastTable?_addTable _ _) ?_)
    simp [leadingRows, hnone, Table.ofHeaderRow]
  | stepTable hconcepts htable hheader =>
    subst hconcepts
    simp only [ConceptFileDraft.readRow, beq_self_eq_true, Step.readRow, htable, map_eq_ok_iff] at hread
    obtain ⟨-, ⟨table, hrow, rfl⟩, rfl⟩ := hread
    refine h.of_kind rfl rfl (by simp) (iff_of_true rfl rfl)
      (.stepTable rfl (Step.lastTable?_setLastTable _ _) ?_)
    simp [leadingRows, List.getLast?_cons, hheader, Table.headers_readRow hrow]

/-- A draft reflects the line that it has read too. -/
theorem read (h : draft.Reflects above) (hread : draft.read number line = .ok next) :
    next.Reflects (line :: above) := by
  unfold ConceptFileDraft.read at hread
  split at hread
  · obtain ⟨-, -, hread⟩ := bind_eq_ok_iff.mp hread
    obtain ⟨opened, hopened, hread⟩ := bind_eq_ok_iff.mp hread
    cases hread
    obtain ⟨root, -, -, rfl⟩ := ConceptDraft.ofHeading_eq_ok_iff.mp (mapError_eq_ok_iff.mp hopened)
    refine ⟨by simp, ?_, .nothing (by simp [Line.isTableRow, Line.isStep])⟩
    simp [requireSteps, ConceptDraft.requireSteps, lacksStep]
  · split at hread
    · cases hread
    · rename_i root steps earlier hconcepts
      obtain ⟨step, -, hread⟩ := bind_eq_ok_iff.mp hread
      cases hread
      refine ⟨?_, iff_of_true rfl rfl, .step ⟨_, rfl, rfl⟩ rfl⟩
      have hinside := h.concepts_iff.mp (by simp [hconcepts])
      simp [Line.isTitle, hinside]
  · exact h.readRow (mapError_eq_ok_iff.mp hread)
  · rename_i htitle hstep hrow
    cases hread
    obtain ⟨hnoTitle, hnoStep, hnoRow⟩ := Line.isOther_of_ne htitle hstep hrow
    exact h.of_kind hnoTitle hnoStep Iff.rfl Iff.rfl (.nothing (by simp [hnoRow, hnoStep]))

/-- Lines can be read exactly when each of them fits below the lines before it. -/
theorem exists_readAll_iff {lines : List Line} (h : draft.Reflects above) :
    (∃ final, draft.readAll number lines = .ok final) ↔
      ∀ before line after, lines = before ++ line :: after → ConceptFits (before.reverse ++ above) line := by
  induction lines generalizing draft above number with
  | nil => simp [ConceptFileDraft.readAll]
  | cons line rest ih =>
    rw [forall_split_cons, List.reverse_nil, List.nil_append, ← h.exists_read_iff number line,
      ConceptFileDraft.readAll]
    cases hread : draft.read number line with
    | error refusal => simp
    | ok next => simpa using ih (h.read hread)

theorem readAll {lines : List Line} (h : draft.Reflects above)
    (hread : draft.readAll number lines = .ok final) : final.Reflects (lines.reverse ++ above) := by
  induction lines generalizing draft above number with
  | nil =>
    cases hread
    exact h
  | cons line rest ih =>
    obtain ⟨next, hnext, hrest⟩ := readAll_cons_eq_ok_iff.mp hread
    simpa using ih (h.read hnext) hrest

end Reflects

end ConceptFileDraft

/-! ### What is read -/

/-- Some lines, of which the first has the given number, and the steps of their step lines in order: each is
what its text is read as, with the rows directly below it as a table. Other lines leave nothing. -/
inductive AreSteps : Nat → List Line → List Step → Prop
  | nil {number} : AreSteps number [] []
  | step {number text below parsed steps} (hparse : StepText.parse text number = .ok parsed)
    (hbelow : AreSteps (number + 1) below steps) :
    AreSteps number (.step text :: below) (parsed.withRows (leadingRows below) :: steps)
  | other {number line below steps} (hline : line.isStep = false)
    (hbelow : AreSteps (number + 1) below steps) : AreSteps number (line :: below) steps

/-- Some lines of a file, of which the first has the given number, and the concepts of their titles in order:
each has what its title is read as for its root, and the steps down to the next title for its body. Other
lines leave nothing. -/
inductive AreConcepts (file : Path) : Nat → List Line → List Concept → Prop
  | nil {number} : AreConcepts file number [] []
  | concept {number text below root steps concepts} (hroot : StepText.parse text number = .ok root)
    (hbody : AreSteps (number + 1) (below.takeWhile fun line ↦ !line.isTitle) steps)
    (hbelow : AreConcepts file (number + 1) below concepts) :
    AreConcepts file number (.heading 1 text :: below)
      (.ofRoot file { root with body := steps } :: concepts)
  | other {number line below concepts} (hline : line.isTitle = false)
    (hbelow : AreConcepts file (number + 1) below concepts) : AreConcepts file number (line :: below) concepts

/-- What the steps that have been read, newest first, come to with some rows on the next lines, the first of
which has the given number. -/
inductive RowTarget.Completes (number : Nat) :
    RowTarget → List Step → (List (List String) → List Step) → Prop
  | nothing {steps} : Completes number .nothing steps fun _ ↦ steps
  | step {step steps} (hline : step.line + 1 = number) :
    Completes number .step (step :: steps) fun rows ↦ step.withRows rows :: steps
  | stepTable {step steps header done first} :
    Completes number .stepTable (Step.addTable step (.ofRows header done first) :: steps)
      fun rows ↦ step.addTable (.ofRows header (done ++ rows) first) :: steps

theorem RowTarget.Completes.apply_nil {number : Nat} {target : RowTarget} {steps : List Step}
    {complete : List (List String) → List Step} (h : target.Completes number steps complete) :
    complete [] = steps := by
  cases h with
  | nothing => rfl
  | step => rfl
  | stepTable => simp

/-- A row that can be read is the next of those that the newest steps are completed with. -/
theorem RowTarget.Completes.exists_readRow {number : Nat} {target : RowTarget} {root : Step}
    {steps : List Step} {earlier : List ConceptDraft} {complete : List (List String) → List Step}
    {cells : List String} {next : ConceptFileDraft} (h : target.Completes number steps complete)
    (hread : ConceptFileDraft.readRow ⟨⟨root, steps⟩ :: earlier, target⟩ number cells = .ok next) :
    ∃ extended, next = ⟨⟨root, extended⟩ :: earlier, .stepTable⟩ ∧
      RowTarget.stepTable.Completes (number + 1) extended fun rows ↦ complete (cells :: rows) := by
  cases h with
  | nothing => cases hread
  | @step step steps hline =>
    simp only [ConceptFileDraft.readRow, map_eq_ok_iff] at hread
    obtain ⟨extended, hextended, rfl⟩ := hread
    cases hextended
    subst hline
    have hopened : RowTarget.stepTable.Completes (step.line + 1 + 1)
        (step.addTable (.ofRows cells [] (step.line + 1)) :: steps)
        fun rows ↦ step.addTable (.ofRows cells ([] ++ rows) (step.line + 1)) :: steps := .stepTable
    exact ⟨_, rfl, hopened⟩
  | @stepTable step steps header done first =>
    simp only [ConceptFileDraft.readRow, beq_self_eq_true, Step.readRow_addTable, map_eq_ok_iff] at hread
    obtain ⟨-, ⟨table, htable, rfl⟩, rfl⟩ := hread
    rw [Table.readRow_ofRows htable]
    have hextended : RowTarget.stepTable.Completes (number + 1)
        (step.addTable (.ofRows header (done ++ [cells]) first) :: steps)
        fun rows ↦ step.addTable (.ofRows header (done ++ [cells] ++ rows) first) :: steps := .stepTable
    exact ⟨_, rfl, by simpa using hextended⟩

/-- Rows are not cut off by the next title. -/
theorem leadingRows_takeWhile (lines : List Line) :
    leadingRows (lines.takeWhile fun line ↦ !line.isTitle) = leadingRows lines := by
  fun_induction leadingRows lines with
  | case1 cells lines ih => rw [List.takeWhile_cons_of_pos rfl, leadingRows, ih]
  | case2 lines hother =>
    cases lines with
    | nil => rfl
    | cons line below =>
      refine leadingRows_eq_nil fun first hfirst ↦ ?_
      have hrow : line.isTableRow = false := by
        cases line <;> first | rfl | exact absurd rfl (hother _ _)
      by_cases htitle : line.isTitle = true
      · simp [htitle] at hfirst
      · obtain rfl : line = first := by simpa [htitle] using hfirst
        exact hrow

namespace ConceptFileDraft

variable {final : ConceptFileDraft} {target : RowTarget} {number : Nat} {lines : List Line} {file : Path}

/-- The concept that is being read gets the steps down to the next title, after the steps that it has, of
which the last one takes the rows directly below. The concepts of the other titles come after it. -/
theorem readAll_newest {root : Step} {steps : List Step} {earlier : List ConceptDraft}
    {complete : List (List String) → List Step} (hcompletes : target.Completes number steps complete)
    (hread : readAll number ⟨⟨root, steps⟩ :: earlier, target⟩ lines = .ok final) :
    ∃ new later, final.concepts = later ++ ⟨root, new.reverse ++ complete (leadingRows lines)⟩ :: earlier ∧
      AreSteps number (lines.takeWhile fun line ↦ !line.isTitle) new ∧
      AreConcepts file number lines (later.map fun draft ↦ draft.concept file).reverse := by
  induction lines generalizing root steps earlier target complete number with
  | nil =>
    cases hread
    refine ⟨[], [], ?_, .nil, .nil⟩
    simp [leadingRows, hcompletes.apply_nil]
  | cons line below ih =>
    obtain ⟨next, hnext, hbelow⟩ := readAll_cons_eq_ok_iff.mp hread
    have hcomplete : line.isTableRow = false → complete (leadingRows (line :: below)) = steps := by
      intro hrow
      rw [leadingRows_eq_nil (by simpa using hrow), hcompletes.apply_nil]
    unfold ConceptFileDraft.read at hnext
    split at hnext
    · -- A title opens the next concept.
      rename_i text
      obtain ⟨-, -, hnext⟩ := bind_eq_ok_iff.mp hnext
      obtain ⟨opened, hopened, hnext⟩ := bind_eq_ok_iff.mp hnext
      cases hnext
      obtain ⟨title, htitle, -, rfl⟩ := ConceptDraft.ofHeading_eq_ok_iff.mp (mapError_eq_ok_iff.mp hopened)
      obtain ⟨body, later, hfinal, hbody, hconcepts⟩ := ih .nothing hbelow
      refine ⟨[], later ++ [⟨title, body.reverse⟩], ?_, .nil, ?_⟩
      · simpa [hcomplete rfl] using hfinal
      · simpa [ConceptDraft.concept] using AreConcepts.concept htitle hbody hconcepts
    · -- A step comes after the steps so far, and the rows below it are its own.
      rename_i text
      obtain ⟨step, hstep, hnext⟩ := bind_eq_ok_iff.mp hnext
      cases hnext
      rw [mapError_eq_ok_iff] at hstep
      obtain ⟨new, later, hfinal, hnew, hconcepts⟩ :=
        ih (.step (congrArg (· + 1) (StepText.line_of_parse hstep))) hbelow
      refine ⟨step.withRows (leadingRows below) :: new, later, ?_, ?_, .other rfl hconcepts⟩
      · simpa [hcomplete rfl] using hfinal
      · rw [← leadingRows_takeWhile]
        exact .step hstep hnew
    · -- A row goes to the last step.
      rename_i cells
      rw [mapError_eq_ok_iff] at hnext
      have hrows : ∃ extended, next = ⟨⟨root, extended⟩ :: earlier, .stepTable⟩ ∧
          RowTarget.stepTable.Completes (number + 1) extended fun rows ↦ complete (cells :: rows) :=
        hcompletes.exists_readRow hnext
      obtain ⟨extended, rfl, hextended⟩ := hrows
      obtain ⟨new, later, hfinal, hnew, hconcepts⟩ := ih hextended hbelow
      exact ⟨new, later, hfinal, .other rfl hnew, .other rfl hconcepts⟩
    · rename_i htitle hstep hrow
      cases hnext
      obtain ⟨hnoTitle, hnoStep, hnoRow⟩ := Line.isOther_of_ne htitle hstep hrow
      obtain ⟨new, later, hfinal, hnew, hconcepts⟩ := ih .nothing hbelow
      refine ⟨new, later, ?_, ?_, .other hnoTitle hconcepts⟩
      · simpa [hcomplete hnoRow] using hfinal
      · rw [List.takeWhile_cons_of_pos (by simp [hnoTitle])]
        exact .other hnoStep hnew

/-- Before the first title nothing is read. -/
theorem readAll_none (hread : readAll number ⟨[], target⟩ lines = .ok final) :
    AreConcepts file number lines (final.concepts.map fun draft ↦ draft.concept file).reverse := by
  induction lines generalizing target number with
  | nil =>
    cases hread
    exact .nil
  | cons line below ih =>
    obtain ⟨next, hnext, hbelow⟩ := readAll_cons_eq_ok_iff.mp hread
    unfold ConceptFileDraft.read at hnext
    split at hnext
    · obtain ⟨-, -, hnext⟩ := bind_eq_ok_iff.mp hnext
      obtain ⟨opened, hopened, hnext⟩ := bind_eq_ok_iff.mp hnext
      cases hnext
      obtain ⟨title, htitle, -, rfl⟩ := ConceptDraft.ofHeading_eq_ok_iff.mp (mapError_eq_ok_iff.mp hopened)
      obtain ⟨body, later, hfinal, hbody, hconcepts⟩ := readAll_newest .nothing hbelow
      simpa [hfinal, ConceptDraft.concept] using AreConcepts.concept htitle hbody hconcepts
    · cases hnext
    · cases target <;> cases hnext
    · rename_i htitle hstep hrow
      cases hnext
      exact .other (Line.isOther_of_ne htitle hstep hrow).1 (ih hbelow)

end ConceptFileDraft

/-! ### Concept files -/

/-- A text can be read as a concept file exactly when its lines are laid out as those of one. What has been
read are the concepts of its titles in order, each with the steps down to the next title. -/
theorem Concept.parseAll_spec (file : Path) (text : String) :
    ((∃ concepts, parseAll file text = .ok concepts) ↔ IsConceptLayout (Line.classifyAll text)) ∧
      ∀ concepts, parseAll file text = .ok concepts →
        AreConcepts file 1 (Line.classifyAll text) concepts := by
  constructor
  · rw [isConceptLayout_iff]
    have hlines : (∃ draft, ConceptFileDraft.empty.readAll 1 (Line.classifyAll text) = .ok draft) ↔ _ :=
      ConceptFileDraft.reflects_empty.exists_readAll_iff
    simp only [List.append_nil] at hlines
    rw [← hlines]
    constructor
    · rintro ⟨concepts, hparse⟩
      obtain ⟨draft, hread, hsteps, -⟩ := parseAll_eq_ok_iff.mp hparse
      exact ⟨⟨draft, hread⟩,
        by simpa using (ConceptFileDraft.reflects_empty.readAll hread).requireSteps_iff.mp hsteps⟩
    · rintro ⟨⟨draft, hread⟩, hlast⟩
      have hsteps := (ConceptFileDraft.reflects_empty.readAll hread).requireSteps_iff.mpr (by simpa using hlast)
      exact ⟨_, parseAll_eq_ok_iff.mpr ⟨draft, hread, hsteps, rfl⟩⟩
  · intro concepts hparse
    obtain ⟨draft, hread, -, rfl⟩ := parseAll_eq_ok_iff.mp hparse
    exact ConceptFileDraft.readAll_none hread

/-- Two concepts. The first has a step with a table, and a step below a lesser heading. -/
def greetingText : String :=
  "# Greet <user>\n* Type <user>\n|key|\n|---|\n|tab|\n## aside\n* Say \"hi\"\n# Wait\nfor long\n* Sleep"

def greetingConcepts : List Concept :=
  [.ofRoot ⟨"greet.cpt"⟩ { Step.written "Greet \x7b\x7d" "Greet <user>" 1 [.dynamic "user"] with
      body := [.written "Type \x7b\x7d \x7b\x7d" "Type <user>" 2
          [.dynamic "user", .table ⟨["key"], [["tab"]], 3⟩],
        .written "Say \x7b\x7d" "Say \"hi\"" 7 [.static "hi"]] },
    .ofRoot ⟨"greet.cpt"⟩ { Step.written "Wait" "Wait" 8 [] with body := [.written "Sleep" "Sleep" 10 []] }]

/-- The rows go to the step above them, and the lesser heading does not end the concept. -/
theorem Concept.parseAll_spec_greeting :
    parseAll ⟨"greet.cpt"⟩ greetingText = .ok greetingConcepts ∧
      IsConceptLayout (Line.classifyAll greetingText) ∧
      AreConcepts ⟨"greet.cpt"⟩ 1 (Line.classifyAll greetingText) greetingConcepts := by
  have hparse : parseAll ⟨"greet.cpt"⟩ greetingText = .ok greetingConcepts := by decide +kernel
  have hspec := parseAll_spec ⟨"greet.cpt"⟩ greetingText
  exact ⟨hparse, hspec.1.mp ⟨_, hparse⟩, hspec.2 _ hparse⟩

end LiveSpec
