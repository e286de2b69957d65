import LiveSpec.Proofs.Grammar.Rows
import LiveSpec.Proofs.Grammar.Sections
import Mathlib.Data.List.Basic

/-!
# No line is lost

A specification that has been read holds its source line by line (`Specification.Renders`,
`Specification.renders_of_parse`). Scenario headings, steps, tags and comments are there one for one, in
order, with their own text and line number; every scenario has what stands between its heading and the next
section; the first marker of the teardown gives the only teardown; and every row is in the table of the step
above its run or in the data table.

The items come in sections, as their lines do (`AreItems`), so all of this but the rows is read off the
sections, one after another.
-/

set_option autoImplicit false

namespace LiveSpec

/-! ### Items that come in sections -/

section Sections

variable {lines : List Line} {items : List SpecItem}

/-- The entries of the items before the teardown are those of the lines. -/
theorem AreSections.entries_eq (h : AreSections lines items) :
    items.flatMap SpecItem.entries = entriesFrom 1 lines := by
  induction h with
  | opening h => exact h.entries_eq
  | @scenario front body items text found _ _ hheading hitems ih =>
    have hnumber : 1 + front.length = front.length + 1 := Nat.add_comm 1 front.length
    rw [List.flatMap_append, ih, entriesFrom_append, entriesFrom_cons, hnumber, ← hitems]
    simp [SpecItem.entries, Scenario.entry, Line.entry?, hheading]

theorem AreSections.isTearDown_eq_false (h : AreSections lines items) :
    ∀ line ∈ lines, line.isTearDown = false := by
  have hopen : ∀ {line : Line}, line.endsOpening = false → line.isTearDown = false :=
    fun hline ↦ (Bool.or_eq_false_iff.mp hline).2
  induction h with
  | opening h => exact fun line hline ↦ hopen (h.lines_open line hline)
  | scenario _ hbody _ _ ih =>
    intro line hline
    rcases List.mem_append.mp hline with hfront | hrest
    · exact ih line hfront
    · rcases List.mem_cons.mp hrest with rfl | hin
      · rfl
      · exact hopen (hbody line hin)

/-- The items before the teardown are those before the first scenario, and then the scenarios. -/
theorem AreSections.exists_scenarios (h : AreSections lines items) :
    ∃ (first : List SpecItem) (scenarios : List Scenario),
      items = first ++ scenarios.map .scenario ∧ ∀ item ∈ first, item.isOpening = true := by
  induction h with
  | @opening lines items h => exact ⟨items, [], by simp, h.items_open⟩
  | @scenario front body items text found _ _ _ _ ih =>
    obtain ⟨first, scenarios, rfl, hfirst⟩ := ih
    exact ⟨first, scenarios ++ [found], by simp, hfirst⟩

/-- The items before the teardown begin on increasing lines. -/
theorem AreSections.increasing (h : AreSections lines items) :
    (items.map SpecItem.line).Pairwise (· < ·) ∧ ∀ item ∈ items, item.line ≤ lines.length := by
  induction h with
  | opening h => exact ⟨h.increasing, h.line_le⟩
  | @scenario front body items text found _ _ hheading _ ih =>
    obtain ⟨hincreasing, hle⟩ := ih
    have hline : (SpecItem.scenario found).line = front.length + 1 := congrArg Heading.line hheading
    constructor
    · rw [List.map_append, List.pairwise_append]
      refine ⟨hincreasing, List.pairwise_singleton _ _, fun earlier hearlier later hlater ↦ ?_⟩
      obtain ⟨item, hitem, rfl⟩ := List.mem_map.mp hearlier
      have hbefore := hle item hitem
      rw [List.mem_singleton.mp hlater, hline]
      omega
    · intro item hitem
      rw [List.length_append, List.length_cons]
      rcases List.mem_append.mp hitem with hold | hnew
      · have hbefore := hle item hold
        omega
      · rw [List.mem_singleton.mp hnew, hline]
        omega

/-- A scenario has the entries of the lines from its heading to the next section, if the lines below belong
to another section. -/
theorem AreSections.scenario_entries (h : AreSections lines items) {below : List Line}
    (hbelow : ∀ line ∈ below.head?, line.endsOpening = true) {found : Scenario}
    (hfound : .scenario found ∈ items) :
    found.items.map ScenarioItem.entry = entriesFrom (found.heading.line + 1)
      (((lines ++ below).drop found.heading.line).takeWhile fun line ↦ !line.endsOpening) := by
  induction h generalizing below with
  | opening h => exact absurd (h.items_open _ hfound) (by simp [SpecItem.isOpening])
  | @scenario front body items text last hfront hbody hheading hitems ih =>
    rcases List.mem_append.mp hfound with hold | hnew
    · rw [List.append_assoc]
      exact ih (by simp [Line.endsOpening]) hold
    · obtain rfl : found = last := by simpa using hnew
      have hstop : below.takeWhile (fun line ↦ !line.endsOpening) = [] := by
        cases below with
        | nil => rfl
        | cons line rest => simp [hbelow line rfl]
      have hdrop : (front ++ .heading 2 text :: body ++ below).drop (front.length + 1) = body ++ below := by
        simp
      rw [hheading, hdrop, List.takeWhile_append_of_pos (by simpa using hbody), hstop, List.append_nil]
      exact hitems

end Sections

section TearDown

variable {first : Nat} {lines : List Line} {steps : List Step} {comments : List Comment}

/-- Sorted by kinds, the entries after the marker are those of the lines. -/
theorem IsTearDown.entriesOfKind_eq (h : IsTearDown first lines steps comments) {kind : EntryKind}
    (hkind : kind ≠ .tearDown) :
    entriesOfKind kind (steps.map Step.entry ++ comments.map Comment.entry) =
      entriesOfKind kind (entriesFrom first lines) := by
  have hsteps : ∀ entry ∈ steps.map Step.entry, entry.2.kind = .step := by
    simp [Step.entry, Entry.kind]
  have hcomments : ∀ entry ∈ comments.map Comment.entry, entry.2.kind = .comment := by
    simp [Comment.entry, Entry.kind]
  have hlines : ∀ entry ∈ entriesFrom first lines, entry.2.kind ≠ .scenario ∧ entry.2.kind ≠ .tags := by
    rintro ⟨number, entry⟩ hentry
    obtain ⟨before, line, after, rfl, -, hline⟩ := mem_entriesFrom.mp hentry
    exact Line.mayFollowTearDown_iff.mp (h.lines_after line (by simp)) entry hline
  rw [entriesOfKind_append]
  cases kind with
  | scenario | tags =>
    rw [entriesOfKind_eq_nil fun entry hentry ↦ by simp [hsteps entry hentry],
      entriesOfKind_eq_nil fun entry hentry ↦ by simp [hcomments entry hentry],
      entriesOfKind_eq_nil fun entry hentry ↦ by simp [hlines entry hentry]]
    rfl
  | step =>
    rw [entriesOfKind_eq_self hsteps,
      entriesOfKind_eq_nil fun entry hentry ↦ by simp [hcomments entry hentry], List.append_nil]
    exact h.steps_eq
  | comment =>
    rw [entriesOfKind_eq_nil fun entry hentry ↦ by simp [hsteps entry hentry],
      entriesOfKind_eq_self hcomments, List.nil_append]
    exact h.comments_eq
  | tearDown => exact absurd rfl hkind

end TearDown

/-! ### Views of the items -/

section Views

variable {lines : List Line} {items : List SpecItem} {comments : List Comment}

/-- The steps before the first scenario are the contexts. -/
theorem views_of_isOpening (h : ∀ item ∈ items, item.isOpening = true) :
    items.flatMap SpecItem.steps = items.filterMap SpecItem.context? ∧
      items.filterMap SpecItem.scenario? = [] ∧ items.filterMap SpecItem.tearDown? = [] := by
  induction items with
  | nil => exact ⟨rfl, rfl, rfl⟩
  | cons item rest ih =>
    rw [List.forall_mem_cons] at h
    obtain ⟨hsteps, hscenarios, htearDowns⟩ := ih h.2
    cases item with
    | scenario | tearDown => simp [SpecItem.isOpening] at h
    | _ =>
      simp [List.filterMap_cons, SpecItem.steps, SpecItem.context?, SpecItem.scenario?,
        SpecItem.tearDown?, hsteps, hscenarios, htearDowns]

theorem views_of_scenarios (scenarios : List Scenario) :
    (scenarios.map SpecItem.scenario).flatMap SpecItem.steps = scenarios.flatMap Scenario.steps ∧
      (scenarios.map SpecItem.scenario).filterMap SpecItem.context? = [] ∧
      (scenarios.map SpecItem.scenario).filterMap SpecItem.scenario? = scenarios ∧
      (scenarios.map SpecItem.scenario).filterMap SpecItem.tearDown? = [] := by
  simp [List.flatMap_map, List.filterMap_map, Function.comp_def, SpecItem.steps, SpecItem.context?,
    SpecItem.scenario?, SpecItem.tearDown?]

theorem views_of_comments (comments : List Comment) :
    (comments.map SpecItem.comment).flatMap SpecItem.steps = [] ∧
      (comments.map SpecItem.comment).filterMap SpecItem.context? = [] ∧
      (comments.map SpecItem.comment).filterMap SpecItem.scenario? = [] ∧
      (comments.map SpecItem.comment).filterMap SpecItem.tearDown? = [] := by
  simp [List.flatMap_map, List.filterMap_map, Function.comp_def, SpecItem.steps, SpecItem.context?,
    SpecItem.scenario?, SpecItem.tearDown?]

/-- Contexts come first, then the steps of the scenarios, then those of the teardown. -/
theorem AreItems.steps_eq (h : AreItems lines items) : items.flatMap SpecItem.steps =
    items.filterMap SpecItem.context? ++
      (items.filterMap SpecItem.scenario?).flatMap Scenario.steps ++
      (items.filterMap SpecItem.tearDown?).flatMap TearDown.steps := by
  cases h with
  | before h =>
    obtain ⟨first, scenarios, rfl, hfirst⟩ := h.exists_scenarios
    obtain ⟨hsteps, hscenarios, htearDowns⟩ := views_of_isOpening hfirst
    obtain ⟨hsteps', hcontexts', hscenarios', htearDowns'⟩ := views_of_scenarios scenarios
    simp [hsteps, hscenarios, htearDowns, hsteps', hcontexts', hscenarios', htearDowns']
  | @after front rest items steps comments hfront hrest =>
    obtain ⟨first, scenarios, rfl, hfirst⟩ := hfront.exists_scenarios
    obtain ⟨hsteps, hscenarios, htearDowns⟩ := views_of_isOpening hfirst
    obtain ⟨hsteps', hcontexts', hscenarios', htearDowns'⟩ := views_of_scenarios scenarios
    obtain ⟨hsteps'', hcontexts'', hscenarios'', htearDowns''⟩ := views_of_comments comments
    simp [hsteps, hscenarios, htearDowns, hsteps', hcontexts', hscenarios', htearDowns', hsteps'',
      hcontexts'', hscenarios'', htearDowns'', List.filterMap_cons, SpecItem.steps, SpecItem.context?,
      SpecItem.scenario?, SpecItem.tearDown?]

/-- The first marker of the teardown gives the only teardown. -/
theorem AreItems.map_line_tearDown (h : AreItems lines items) :
    (items.filterMap SpecItem.tearDown?).map TearDown.line =
      (lines.findIdx? Line.isTearDown).toList.map (· + 1) := by
  have hnone : ∀ {lines items}, AreSections lines items → items.filterMap SpecItem.tearDown? = [] := by
    intro lines items hsections
    obtain ⟨first, scenarios, rfl, hfirst⟩ := hsections.exists_scenarios
    rw [List.filterMap_append, (views_of_isOpening hfirst).2.2, (views_of_scenarios scenarios).2.2.2,
      List.append_nil]
  cases h with
  | before h =>
    have hlines : lines.findIdx? Line.isTearDown = none := by
      simpa [List.findIdx?_eq_none_iff] using h.isTearDown_eq_false
    rw [hnone h, hlines]
    rfl
  | @after front rest items steps comments hfront hrest =>
    have hfrontLines : front.findIdx? Line.isTearDown = none := by
      simpa [List.findIdx?_eq_none_iff] using hfront.isTearDown_eq_false
    have hlines : (front ++ .tearDown :: rest).findIdx? Line.isTearDown = some front.length := by
      simp [List.findIdx?_append, List.findIdx?_cons, hfrontLines, Line.isTearDown]
    rw [hlines, List.filterMap_append, hnone hfront, List.filterMap_cons]
    simp [SpecItem.tearDown?, (views_of_comments comments).2.2.2]

/-- Sorted by kinds, the entries of the items are those of the lines. Only the first marker of the teardown
leaves one. -/
theorem AreItems.entriesOfKind_eq (h : AreItems lines items) {kind : EntryKind} (hkind : kind ≠ .tearDown) :
    entriesOfKind kind (items.flatMap SpecItem.entries) = entriesOfKind kind (entriesFrom 1 lines) := by
  cases h with
  | before h => rw [h.entries_eq]
  | @after front rest items steps comments hfront hrest =>
    have hmarker : ∀ number, entriesOfKind kind [(number, .tearDown)] = [] :=
      fun number ↦ entriesOfKind_eq_nil (by simpa [Entry.kind] using hkind.symm)
    have hcomments : (comments.map .comment).flatMap SpecItem.entries = comments.map Comment.entry := by
      rw [List.flatMap_map]
      exact List.map_eq_flatMap.symm
    have hitems : (SpecItem.tearDown ⟨front.length + 1, steps⟩ :: comments.map .comment).flatMap
        SpecItem.entries = [(front.length + 1, .tearDown)] ++
          (steps.map Step.entry ++ comments.map Comment.entry) := by
      rw [List.flatMap_cons, hcomments, ← List.append_assoc]
      rfl
    have hlines : entriesFrom 1 (front ++ .tearDown :: rest) = entriesFrom 1 front ++
        ([(1 + front.length, .tearDown)] ++ entriesFrom (front.length + 2) rest) := by
      rw [entriesFrom_append, entriesFrom_cons, Nat.add_comm 1 front.length]
      rfl
    rw [List.flatMap_append, hfront.entries_eq, hitems, hlines]
    simp only [entriesOfKind_append, hmarker, List.nil_append]
    rw [← entriesOfKind_append, hrest.entriesOfKind_eq hkind]

/-- The entries of kind step are those of the steps. -/
theorem map_entry_steps (items : List SpecItem) : (items.flatMap SpecItem.steps).map Step.entry =
    entriesOfKind .step (items.flatMap SpecItem.entries) := by
  have hself : ∀ steps : List Step, entriesOfKind .step (steps.map Step.entry) = steps.map Step.entry :=
    fun steps ↦ entriesOfKind_eq_self (by simp [Step.entry, Entry.kind])
  have hscenario : ∀ found : List ScenarioItem, (found.filterMap ScenarioItem.step?).map Step.entry =
      entriesOfKind .step (found.map ScenarioItem.entry) := by
    intro found
    induction found with
    | nil => rfl
    | cons item rest ih =>
      cases item <;>
        simp_all [List.filterMap_cons, ScenarioItem.step?, ScenarioItem.entry, entriesOfKind, Comment.entry,
          Tags.entry, Step.entry, Entry.kind]
  induction items with
  | nil => rfl
  | cons item rest ih =>
    rw [List.flatMap_cons, List.flatMap_cons, List.map_append, entriesOfKind_append, ih,
      List.append_cancel_right_eq]
    cases item with
    | scenario found => exact hscenario found.items
    | tearDown found => exact (hself found.steps).symm
    | _ => rfl

/-- The entries of kind scenario are the headings of the scenarios. -/
theorem map_entry_scenarios (items : List SpecItem) :
    (items.filterMap SpecItem.scenario?).map Scenario.entry =
      entriesOfKind .scenario (items.flatMap SpecItem.entries) := by
  have hnone : ∀ found : List ScenarioItem,
      entriesOfKind .scenario (found.map ScenarioItem.entry) = [] := by
    intro found
    refine entriesOfKind_eq_nil fun entry hentry ↦ ?_
    obtain ⟨item, -, rfl⟩ := List.mem_map.mp hentry
    cases item <;> simp [ScenarioItem.entry, Comment.entry, Tags.entry, Step.entry, Entry.kind]
  have hsteps : ∀ steps : List Step, entriesOfKind .scenario (steps.map Step.entry) = [] :=
    fun steps ↦ entriesOfKind_eq_nil (by simp [Step.entry, Entry.kind])
  induction items with
  | nil => rfl
  | cons item rest ih =>
    rw [List.flatMap_cons, entriesOfKind_append, ← ih]
    cases item with
    | scenario found => exact congrArg (found.entry :: · ++ _) (hnone found.items).symm
    | tearDown found => exact congrArg (· ++ _) (hsteps found.steps).symm
    | _ => rfl

/-- The items begin on increasing lines. -/
theorem AreItems.increasing (h : AreItems lines items) : (items.map SpecItem.line).Pairwise (· < ·) := by
  cases h with
  | before h => exact h.increasing.1
  | @after front rest items steps comments hfront hrest =>
    obtain ⟨hincreasing, hle⟩ := hfront.increasing
    have hcomments : (comments.map .comment).map SpecItem.line =
        (entriesOfKind .comment (entriesFrom (front.length + 2) rest)).map Prod.fst := by
      rw [← hrest.comments_eq, List.map_map, List.map_map]
      rfl
    have hlater : ∀ number ∈ (comments.map .comment).map SpecItem.line, front.length + 1 < number := by
      intro number hnumber
      rw [hcomments] at hnumber
      obtain ⟨⟨_, entry⟩, hentry, rfl⟩ := List.mem_map.mp hnumber
      obtain ⟨before, -, -, -, rfl, -⟩ := mem_entriesFrom.mp (mem_entriesOfKind.mp hentry).1
      show front.length + 1 < front.length + 2 + before.length
      omega
    rw [List.map_append, List.map_cons, List.pairwise_append]
    refine ⟨hincreasing, List.pairwise_cons.mpr ⟨hlater, ?_⟩, fun earlier hearlier later hlast ↦ ?_⟩
    · rw [hcomments]
      exact sorted_entriesOfKind _ _ _
    · obtain ⟨item, hitem, rfl⟩ := List.mem_map.mp hearlier
      have hbefore := hle item hitem
      rcases List.mem_cons.mp hlast with rfl | hin
      · exact Nat.lt_succ_of_le hbefore
      · have hbehind := hlater later hin
        omega

/-- A scenario has the entries of the lines from its heading to the next section. -/
theorem AreItems.scenario_entries (h : AreItems lines items) {found : Scenario}
    (hfound : .scenario found ∈ items) :
    found.items.map ScenarioItem.entry = entriesFrom (found.heading.line + 1)
      ((lines.drop found.heading.line).takeWhile fun line ↦ !line.endsOpening) := by
  cases h with
  | before h =>
    have hnone : ∀ line ∈ ([] : List Line).head?, line.endsOpening = true := by simp
    have hentries := h.scenario_entries hnone hfound
    rwa [List.append_nil] at hentries
  | @after front rest items steps comments hfront hrest =>
    refine hfront.scenario_entries (by simp [Line.endsOpening, Line.isTearDown]) ?_
    simpa using hfound

/-- The steps of the teardown are those on the lines after the marker. -/
theorem AreItems.tearDown_steps (h : AreItems lines items) {found : TearDown}
    (hfound : .tearDown found ∈ items) :
    found.steps.map Step.entry =
      entriesOfKind .step (entriesFrom (found.line + 1) (lines.drop found.line)) := by
  have hnone : ∀ {lines items}, AreSections lines items → .tearDown found ∉ items := by
    intro lines items hsections hin
    obtain ⟨first, scenarios, rfl, hfirst⟩ := hsections.exists_scenarios
    rcases List.mem_append.mp hin with hopening | hscenario
    · simpa [SpecItem.isOpening] using hfirst _ hopening
    · simp at hscenario
  cases h with
  | before h => exact absurd hfound (hnone h)
  | @after front rest items steps comments hfront hrest =>
    have hnew := (List.mem_append.mp hfound).resolve_left (hnone hfront)
    obtain rfl : found = ⟨front.length + 1, steps⟩ := by simpa using hnew
    have hdrop : (front ++ .tearDown :: rest).drop (front.length + 1) = rest := by simp
    rw [hdrop]
    exact hrest.steps_eq

end Views

/-! ### The specification as a whole -/

namespace Specification

/-- The entries of all items. Behind the steps of the teardown come the comments after its marker. -/
def entries (spec : Specification) : List (Nat × Entry) := spec.items.flatMap SpecItem.entries

/-- The specification holds its source line by line. -/
structure Renders (spec : Specification) (lines : List Line) : Prop where
  /-- Scenario headings, steps, tags and comments correspond one to one, in order, with their texts and
  line numbers. -/
  entries_eq : ∀ kind, kind ≠ .tearDown →
    entriesOfKind kind spec.entries = entriesOfKind kind (entriesFrom 1 lines)
  scenarios_eq : spec.scenarios.map Scenario.entry = entriesOfKind .scenario (entriesFrom 1 lines)
  /-- The list of steps is that of the step lines. -/
  steps_eq : spec.steps.map Step.entry = entriesOfKind .step (entriesFrom 1 lines)
  steps_increasing : (spec.steps.map Step.line).Pairwise (· < ·)
  steps_parts : spec.steps =
    spec.contexts ++ spec.scenarios.flatMap Scenario.steps ++ spec.tearDownSteps
  items_increasing : (spec.items.map SpecItem.line).Pairwise (· < ·)
  scenario_increasing : ∀ scenario ∈ spec.scenarios,
    (scenario.items.map fun item ↦ item.entry.1).Pairwise (· < ·)
  tearDown_increasing : ∀ tearDown, .tearDown tearDown ∈ spec.items →
    (tearDown.steps.map Step.line).Pairwise (· < ·)
  /-- A scenario has what stands between its heading and the next section. -/
  scenario_entries : ∀ scenario ∈ spec.scenarios,
    scenario.items.map ScenarioItem.entry = entriesFrom (scenario.heading.line + 1)
      ((lines.drop scenario.heading.line).takeWhile fun line ↦ !line.endsOpening)
  /-- The teardown has the steps after its marker. -/
  tearDown_steps : ∀ tearDown, .tearDown tearDown ∈ spec.items →
    tearDown.steps.map Step.entry =
      entriesOfKind .step (entriesFrom (tearDown.line + 1) (lines.drop tearDown.line))
  /-- The first marker of the teardown gives the only one. -/
  tearDown_first : (spec.items.filterMap SpecItem.tearDown?).map TearDown.line =
    (lines.findIdx? Line.isTearDown).toList.map (· + 1)
  /-- A step line gives the step that its text is read as, with the rows directly below it as a table. -/
  step_rows : ∀ before text after, lines = before ++ .step text :: after →
    ∃ parsed, StepText.parse text (before.length + 1) = .ok parsed ∧
      parsed.withRows (leadingRows after) ∈ spec.steps
  /-- The rows of a run that stands free are those of the only data table, and the rows of any other run
  are those of the table of the step above it. The first row is the header and separators are left out. -/
  run_rows : ∀ run : TableRun, run.IsIn lines →
    (run.IsFree → spec.items.filterMap SpecItem.dataTable? =
      [.ofRows run.header run.rows (run.before.length + 1)]) ∧
    (¬ run.IsFree → ∃ step ∈ spec.steps, step.line = run.before.length ∧
      step.lastTable? = some (.ofRows run.header run.rows (run.before.length + 1)))

variable {file : Path} {text : String} {spec : Specification}

/-- The step above a run of rows has them as its table. -/
theorem exists_step_of_run {draft : Draft} {lines : List Line}
    (hread : Draft.empty.readAll 1 lines = .ok draft) {run : TableRun} (hrun : run.IsIn lines)
    (hstep : ¬ run.IsFree) : ∃ step ∈ draft.part.steps, step.line = run.before.length ∧
      step.lastTable? = some (.ofRows run.header run.rows (run.before.length + 1)) := by
  obtain ⟨line, hlast, hline⟩ : ∃ line ∈ run.before.getLast?, line.isStep = true := by
    simpa [TableRun.IsFree] using hstep
  obtain ⟨front, hbefore⟩ := List.getLast?_eq_some_iff.mp hlast
  cases line with
  | step text =>
    have hlines := hrun.lines_eq
    rw [hbefore, List.append_assoc, List.singleton_append] at hlines
    rw [hlines] at hread
    obtain ⟨above, -, hbelow⟩ := Draft.readAll_append_eq_ok_iff.mp hread
    obtain ⟨parsed, hparse, hmem⟩ := Draft.exists_withRows_mem hbelow
    have hrows : leadingRows ((run.header :: run.rows).map .tableRow ++ run.after) =
        run.header :: run.rows := by
      rw [leadingRows_map_append, leadingRows_eq_nil hrun.ends, List.append_nil]
    have hnumber : parsed.line = run.before.length := by
      rw [StepText.line_of_parse hparse, hbefore, List.length_append, List.length_singleton]
      omega
    rw [hrows] at hmem
    refine ⟨_, hmem, by rw [Step.line_withRows, hnumber], ?_⟩
    rw [Step.withRows, Step.lastTable?_addTable, hnumber]
  | _ => cases hline

/-- A run of rows that stands free is the data table. -/
theorem dataTables_of_run {draft : Draft} {lines : List Line}
    (hread : Draft.empty.readAll 1 lines = .ok draft) {run : TableRun} (hrun : run.IsIn lines)
    (hfree : run.IsFree) :
    draft.part.dataTables = [.ofRows run.header run.rows (run.before.length + 1)] := by
  rw [hrun.lines_eq_cons] at hread
  obtain ⟨above, habove, hbelow⟩ := Draft.readAll_append_eq_ok_iff.mp hread
  have hcontinues := (Draft.reflects_empty.readAll habove).continues
  rw [List.append_nil] at hcontinues
  have htables := Draft.dataTables_of_free (hcontinues.eq_nothing (hrun.opensFreeTable hfree)) hbelow
  rw [leadingRows_map_append, leadingRows_eq_nil hrun.ends, List.append_nil, Nat.add_comm 1] at htables
  exact htables

/-- Assumes: a specification that has been read. It holds its source line by line. -/
theorem renders_of_parse (h : Specification.parse file text = .ok spec) :
    spec.Renders (Line.classifyAll text) := by
  obtain ⟨draft, heading, hread, -, rfl⟩ := parse_eq_ok_iff.mp h
  have hitems : AreItems (Line.classifyAll text) draft.part.items :=
    (Draft.renders_readAll Draft.renders_empty hread
      fun _ ↦ Line.trimString_of_mem_classifyAll).areItems
  have hsteps := (map_entry_steps draft.part.items).trans (hitems.entriesOfKind_eq (by simp))
  have hscenario : ∀ scenario ∈ draft.part.items.filterMap SpecItem.scenario?,
      .scenario scenario ∈ draft.part.items := by
    intro scenario hscenario
    obtain ⟨item, hitem, hsome⟩ := List.mem_filterMap.mp hscenario
    cases item <;> cases hsome
    exact hitem
  exact
    { entries_eq := fun kind hkind ↦ hitems.entriesOfKind_eq hkind
      scenarios_eq := (map_entry_scenarios draft.part.items).trans (hitems.entriesOfKind_eq (by simp))
      steps_eq := hsteps
      steps_increasing := by
        have hlines := sorted_entriesOfKind .step 1 (Line.classifyAll text)
        rwa [← hsteps, List.map_map] at hlines
      steps_parts := hitems.steps_eq
      items_increasing := hitems.increasing
      scenario_increasing := fun scenario hin ↦ by
        have hlines := sorted_entriesFrom (scenario.heading.line + 1) (((Line.classifyAll text).drop
          scenario.heading.line).takeWhile fun line ↦ !line.endsOpening)
        rwa [← hitems.scenario_entries (hscenario scenario hin), List.map_map] at hlines
      tearDown_increasing := fun tearDown hin ↦ by
        have hlines := sorted_entriesOfKind .step (tearDown.line + 1)
          ((Line.classifyAll text).drop tearDown.line)
        rwa [← hitems.tearDown_steps hin, List.map_map] at hlines
      scenario_entries := fun scenario hin ↦ hitems.scenario_entries (hscenario scenario hin)
      tearDown_steps := fun tearDown hin ↦ hitems.tearDown_steps hin
      tearDown_first := hitems.map_line_tearDown
      step_rows := fun before source after hlines ↦ by
        rw [hlines] at hread
        obtain ⟨above, -, hbelow⟩ := Draft.readAll_append_eq_ok_iff.mp hread
        have hmem := Draft.exists_withRows_mem hbelow
        rwa [Nat.add_comm 1] at hmem
      run_rows := fun run hrun ↦ by
        refine ⟨fun hfree ↦ ?_, fun hstep ↦ exists_step_of_run hread hrun hstep⟩
        rw [Part.items, List.filterMap_reverse, Part.dataTables_closed, dataTables_of_run hread hrun hfree]
        rfl }

end Specification

/-- A text with lines of all kinds. -/
def orderText : String :=
  "# Orders\nTags: web\n| name |\n|---|\n| Ann |\n* Open\n## Buy\nTags: quick\n### Goods\n* Fill\n" ++
    "| item |\n|---|\n| Pen |\n\n___\nAlways.\n* Pay \"12\"\n___\n"

/-- What is read from this text. -/
def orderSpecification : Specification :=
  ⟨⟨"Orders", 1⟩, ⟨"orders.spec"⟩,
    [.tags ⟨["web"], 2⟩,
      .dataTable ⟨["name"], [["Ann"]], 3⟩,
      .context (.written "Open" "Open" 6 []),
      .scenario ⟨⟨"Buy", 7⟩, ⟨7, 13⟩,
        [.tags ⟨["quick"], 8⟩,
          .comment ⟨"Goods", 9⟩,
          .step (.written "Fill \x7b\x7d" "Fill" 10 [.table ⟨["item"], [["Pen"]], 11⟩])]⟩,
      .tearDown ⟨15, [.written "Pay \x7b\x7d" "Pay \"12\"" 17 [.static "12"]]⟩,
      .comment ⟨"Always.", 16⟩], .empty⟩

/-- The comment after the marker stands behind the teardown, whose only step comes after it in the text. -/
theorem Specification.renders_of_parse_orders :
    Specification.parse ⟨"orders.spec"⟩ orderText = .ok orderSpecification ∧
      orderSpecification.Renders (Line.classifyAll orderText) ∧
      orderSpecification.steps.map Step.line = [6, 10, 17] ∧
      orderSpecification.items.map SpecItem.line = [2, 3, 6, 7, 15, 16] := by
  have hparse : Specification.parse ⟨"orders.spec"⟩ orderText = .ok orderSpecification := by decide +kernel
  exact ⟨hparse, renders_of_parse hparse, rfl, rfl⟩

end LiveSpec
