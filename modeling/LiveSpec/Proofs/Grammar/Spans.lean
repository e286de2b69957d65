import LiveSpec.Document.Summary
import LiveSpec.Proofs.Grammar.Correspondence
import LiveSpec.Proofs.Grammar.Outline
import Mathlib.Data.List.TakeWhile
import Mathlib.Order.Bounds.Defs

/-!
# The scenario that a line belongs to

The span of a scenario goes from its heading to the last line that is written in its section
(`IsWrittenIn`), where the next scenario heading, the marker of the teardown or the end of the text ends a
section. Spans of different scenarios come one after another, so the question to which scenario a line
belongs has one answer (`Specification.LocatesScenarios`, `Specification.locatesScenarios_of_parse`): the
lines of all that a scenario owns lead to it, and a line of a context, of the data table, of the marker or
below it leads to none.

The spans are those that can be read off the lines (`Specification.map_extent_scenarios`), and where the items
stand is known from the sections that they come in (`AreItems`).
-/

set_option autoImplicit false

namespace LiveSpec

/-! ### The last written line of a section -/

section LastWritten

variable {last number offset : Nat} {lines : List Line} {line : Line}

/-- None of the lines up to an offset begins another section. -/
def IsOneSection (lines : List Line) (offset : Nat) : Prop :=
  ∀ earlier ≤ offset, ∀ line, lines[earlier]? = some line → line.endsOpening = false

theorem isOneSection_cons_succ :
    IsOneSection (line :: lines) (offset + 1) ↔ line.endsOpening = false ∧ IsOneSection lines offset := by
  constructor
  · intro h
    exact ⟨h 0 (Nat.zero_le _) line rfl,
      fun earlier hle found hfound ↦ h (earlier + 1) (Nat.succ_le_succ hle) found (by simpa using hfound)⟩
  · rintro ⟨hline, hlines⟩ earlier hle found hfound
    cases earlier with
    | zero =>
      obtain rfl : line = found := by simpa using hfound
      exact hline
    | succ earlier => exact hlines earlier (Nat.le_of_succ_le_succ hle) found (by simpa using hfound)

/-- The last written line is the given one or one of the lines of the section. -/
theorem lastWritten_eq_or (last number : Nat) (lines : List Line) :
    lastWritten last number lines = last ∨
      ∃ offset line, lastWritten last number lines = number + offset ∧ lines[offset]? = some line ∧
        line ≠ .blank ∧ IsOneSection lines offset := by
  induction lines generalizing last number with
  | nil => exact .inl rfl
  | cons line below ih =>
    rw [lastWritten]
    by_cases hends : line.endsOpening = true
    · exact .inl (if_pos hends)
    · rw [if_neg hends]
      rw [Bool.not_eq_true] at hends
      rcases ih (if line = .blank then last else number) (number + 1) with
        hsame | ⟨offset, found, hlast, hfound, hwritten, hsection⟩
      · by_cases hblank : line = .blank
        · rw [if_pos hblank] at hsame
          exact .inl (by rw [if_pos hblank]; exact hsame)
        · refine .inr ⟨0, line, ?_, rfl, hblank, fun earlier hle found hfound ↦ ?_⟩
          · rw [hsame, if_neg hblank, Nat.add_zero]
          · obtain rfl := Nat.le_zero.mp hle
            obtain rfl : line = found := by simpa using hfound
            exact hends
      · refine .inr ⟨offset + 1, found, ?_, by simpa using hfound, hwritten,
          isOneSection_cons_succ.mpr ⟨hends, hsection⟩⟩
        rw [hlast]
        omega

/-- Assumes: lines that come after the given one. -/
theorem le_lastWritten (h : last < number) : last ≤ lastWritten last number lines := by
  rcases lastWritten_eq_or last number lines with hsame | ⟨offset, -, hlast, -⟩
  · exact Nat.le_of_eq hsame.symm
  · omega

/-- Assumes: lines that come after the given one. A written line of the section is not behind the last
one. -/
theorem add_le_lastWritten (h : last < number) (hline : lines[offset]? = some line)
    (hwritten : line ≠ .blank) (hsection : IsOneSection lines offset) :
    number + offset ≤ lastWritten last number lines := by
  induction lines generalizing last number offset with
  | nil => simp at hline
  | cons first below ih =>
    have hends : first.endsOpening = false := hsection 0 (Nat.zero_le _) first rfl
    have hafter : (if first = .blank then last else number) < number + 1 := by
      split <;> omega
    rw [lastWritten, if_neg (by simp [hends])]
    cases offset with
    | zero =>
      obtain rfl : first = line := by simpa using hline
      rw [if_neg hwritten] at hafter ⊢
      exact le_lastWritten hafter
    | succ offset =>
      have hbelow := ih hafter (by simpa using hline) (isOneSection_cons_succ.mp hsection).2
      omega

/-- Assumes: lines that come after the given one. The last written line comes before every line that
begins another section. -/
theorem lastWritten_lt (h : last < number) (hline : lines[offset]? = some line)
    (hends : line.endsOpening = true) : lastWritten last number lines < number + offset := by
  rcases lastWritten_eq_or last number lines with hsame | ⟨reached, -, hlast, -, -, hsection⟩
  · omega
  · by_contra hle
    have hnot := hsection offset (by omega) line hline
    rw [hends] at hnot
    cases hnot

end LastWritten

/-! ### Spans read off lines -/

section Extents

variable {number : Nat} {lines : List Line}

/-- Below another line the headings and their spans are the same. -/
theorem mem_extentsFrom_cons {extent : Heading × Span} (h : extent ∈ extentsFrom (number + 1) lines)
    (line : Line) : extent ∈ extentsFrom number (line :: lines) := by
  by_cases hscenario : line.isScenarioHeading = true
  · cases line with
    | heading level text =>
      obtain rfl : level = 2 := by simpa using hscenario
      exact List.mem_cons_of_mem _ h
    | _ => cases hscenario
  · rw [extentsFrom_cons_of_not (Bool.eq_false_iff.mpr hscenario)]
    exact h

theorem add_length_cons (number : Nat) (line : Line) (front : List Line) :
    number + (line :: front).length = number + 1 + front.length := by
  rw [List.length_cons]
  omega

/-- Every extent is that of a scenario heading among the lines, and every heading has one. -/
theorem mem_extentsFrom {extent : Heading × Span} :
    extent ∈ extentsFrom number lines ↔ ∃ front text below, lines = front ++ .heading 2 text :: below ∧
      extent = (⟨text, number + front.length⟩, ⟨number + front.length,
        lastWritten (number + front.length) (number + front.length + 1) below⟩) := by
  constructor
  · intro h
    fun_induction extentsFrom number lines with
    | case1 => simp at h
    | case2 number text below ih =>
      rcases List.mem_cons.mp h with rfl | hbelow
      · exact ⟨[], text, below, rfl, rfl⟩
      · obtain ⟨front, other, rest, rfl, rfl⟩ := ih hbelow
        exact ⟨.heading 2 text :: front, other, rest, rfl, by rw [add_length_cons]⟩
    | case3 number line below _ ih =>
      obtain ⟨front, other, rest, rfl, rfl⟩ := ih h
      exact ⟨line :: front, other, rest, rfl, by rw [add_length_cons]⟩
  · rintro ⟨front, text, below, rfl, rfl⟩
    induction front generalizing number with
    | nil => exact List.mem_cons_self
    | cons line front ih =>
      rw [add_length_cons]
      exact mem_extentsFrom_cons ih line

/-- The spans come one after another. -/
theorem pairwise_extentsFrom (number : Nat) (lines : List Line) :
    (extentsFrom number lines).Pairwise fun extent later ↦ extent.2.last < later.2.first := by
  fun_induction extentsFrom number lines with
  | case1 => exact .nil
  | case2 number text below ih =>
    refine List.pairwise_cons.mpr ⟨fun later hlater ↦ ?_, ih⟩
    obtain ⟨front, other, rest, rfl, rfl⟩ := mem_extentsFrom.mp hlater
    have hother : (front ++ .heading 2 other :: rest)[front.length]? = some (.heading 2 other) := by simp
    exact lastWritten_lt (Nat.lt_succ_self number) hother rfl
  | case3 number line below _ ih => exact ih

end Extents

/-! ### Written lines of a scenario -/

/-- A line is written in the section that the line `heading` begins: it is not blank, and no line below the
heading, down to the line itself, begins another section. -/
structure IsWrittenIn (lines : List Line) (heading number : Nat) : Prop where
  le : heading ≤ number
  written : ∃ line, lines[number - 1]? = some line ∧ line ≠ .blank
  same_section : ∀ between, heading < between → between ≤ number → ∀ line,
    lines[between - 1]? = some line → line.endsOpening = false

section IsWrittenIn

variable {front below lines : List Line} {text : String} {number : Nat}

theorem getElem?_below (front below : List Line) (text : String) (offset : Nat) :
    (front ++ Line.heading 2 text :: below)[front.length + 1 + offset]? = below[offset]? := by
  rw [List.getElem?_append_right (by omega)]
  rw [show front.length + 1 + offset - front.length = offset + 1 by omega, List.getElem?_cons_succ]

/-- What is written below a heading, by the offset from the line after it. -/
theorem isWrittenIn_add {offset : Nat} {line : Line} (hline : below[offset]? = some line)
    (hwritten : line ≠ .blank) (hsection : IsOneSection below offset) :
    IsWrittenIn (front ++ .heading 2 text :: below) (front.length + 1) (front.length + 2 + offset) where
  le := by omega
  written := by
    refine ⟨line, ?_, hwritten⟩
    rw [show front.length + 2 + offset - 1 = front.length + 1 + offset by omega, getElem?_below]
    exact hline
  same_section := by
    intro between hafter hle found hfound
    obtain ⟨earlier, rfl⟩ := Nat.exists_eq_add_of_lt hafter
    rw [show front.length + 1 + earlier + 1 - 1 = front.length + 1 + earlier by omega,
      getElem?_below] at hfound
    exact hsection earlier (by omega) found hfound

/-- The last written line of the section that a heading begins. -/
theorem isGreatest_lastWritten (front below : List Line) (text : String) :
    IsGreatest {number | IsWrittenIn (front ++ .heading 2 text :: below) (front.length + 1) number}
      (lastWritten (front.length + 1) (front.length + 2) below) := by
  constructor
  · rcases lastWritten_eq_or (front.length + 1) (front.length + 2) below with
      hsame | ⟨offset, line, hlast, hline, hwritten, hsection⟩
    · rw [hsame]
      refine ⟨Nat.le_refl _, ⟨.heading 2 text, by simp, by simp⟩, fun between hafter hle ↦ ?_⟩
      omega
    · rw [hlast]
      exact isWrittenIn_add hline hwritten hsection
  · rintro number ⟨hle, ⟨line, hline, hwritten⟩, hsection⟩
    rcases Nat.eq_or_lt_of_le hle with rfl | hafter
    · exact le_lastWritten (Nat.lt_succ_self _)
    · obtain ⟨offset, rfl⟩ := Nat.exists_eq_add_of_lt hafter
      rw [show front.length + 1 + offset + 1 - 1 = front.length + 1 + offset by omega,
        getElem?_below] at hline
      have hwithin : IsOneSection below offset := by
        intro earlier hearlier found hfound
        refine hsection (front.length + 1 + earlier + 1) (by omega) (by omega) found ?_
        rw [show front.length + 1 + earlier + 1 - 1 = front.length + 1 + earlier by omega,
          getElem?_below]
        exact hfound
      have hnext : front.length + 1 < front.length + 2 := Nat.lt_succ_self _
      have hreach := add_le_lastWritten hnext hline hwritten hwithin
      omega

/-- The rows directly below a line are lines of the text. -/
theorem exists_row_of_lt {start between : Nat} (hafter : start < between)
    (hle : between ≤ start + (leadingRows (lines.drop start)).length) :
    ∃ cells, lines[between - 1]? = some (.tableRow cells) := by
  obtain ⟨offset, rfl⟩ := Nat.exists_eq_add_of_lt hafter
  have hlt : offset < (leadingRows (lines.drop start)).length := by omega
  obtain ⟨cells, hcells⟩ : ∃ cells, (leadingRows (lines.drop start))[offset]? = some cells :=
    ⟨_, List.getElem?_eq_getElem hlt⟩
  refine ⟨cells, ?_⟩
  rw [show start + offset + 1 - 1 = start + offset by omega, ← List.getElem?_drop,
    ← map_leadingRows_append (lines.drop start), List.getElem?_append_left (by simpa using hlt),
    List.getElem?_map, hcells]
  rfl

/-- The rows directly below a written line are written in the same section. -/
theorem IsWrittenIn.add {heading start offset : Nat} (h : IsWrittenIn lines heading start)
    (hle : offset ≤ (leadingRows (lines.drop start)).length) :
    IsWrittenIn lines heading (start + offset) where
  le := Nat.le_add_right_of_le h.le
  written := by
    rcases Nat.eq_zero_or_pos offset with rfl | hpos
    · exact h.written
    · obtain ⟨cells, hcells⟩ :=
        exists_row_of_lt (Nat.lt_add_of_pos_right hpos) (Nat.add_le_add_left hle start)
      exact ⟨.tableRow cells, hcells, by simp⟩
  same_section := by
    intro between hafter hbetween line hline
    rcases Nat.lt_or_ge start between with hrow | hle'
    · obtain ⟨cells, hcells⟩ := exists_row_of_lt hrow (hbetween.trans (Nat.add_le_add_left hle start))
      rw [hcells] at hline
      obtain rfl := Option.some.inj hline
      rfl
    · exact h.same_section between hafter hle' line hline

/-- The entries between a heading and the next section stand on lines that are written in its section. -/
theorem isWrittenIn_of_mem_entriesFrom {heading : Nat} {entry : Nat × Entry}
    (h : entry ∈ entriesFrom (heading + 1)
      ((lines.drop heading).takeWhile fun line ↦ !line.endsOpening)) :
    IsWrittenIn lines heading entry.1 := by
  obtain ⟨before, line, after, hlines, hnumber, hentry⟩ := mem_entriesFrom.mp h
  have hopen : ∀ found ∈ before ++ line :: after, found.endsOpening = false := by
    intro found hfound
    rw [← hlines] at hfound
    simpa using List.mem_takeWhile_imp hfound
  obtain ⟨rest, hrest⟩ := List.takeWhile_prefix (l := lines.drop heading) fun line ↦ !line.endsOpening
  have hget : ∀ {offset : Nat}, offset ≤ before.length →
      lines[heading + offset]? = (before ++ line :: after)[offset]? := by
    intro offset hle
    rw [← List.getElem?_drop, ← hrest, hlines, List.getElem?_append_left (by simp; omega)]
  rw [hnumber]
  refine ⟨by omega, ⟨line, ?_, ?_⟩, fun between hafter hle found hfound ↦ ?_⟩
  · rw [show heading + 1 + before.length - 1 = heading + before.length by omega, hget (Nat.le_refl _)]
    simp
  · rintro rfl
    cases hentry
  · obtain ⟨offset, rfl⟩ := Nat.exists_eq_add_of_lt hafter
    rw [show heading + offset + 1 - 1 = heading + offset by omega, hget (by omega)] at hfound
    exact hopen found (List.mem_of_getElem? hfound)

end IsWrittenIn

/-! ### Where items stand -/

section Items

variable {lines : List Line} {items : List SpecItem} {scenario : Scenario}

/-- Contexts and the data table stand before all scenarios. -/
theorem AreItems.line_lt_of_opening (h : AreItems lines items) {item : SpecItem} (hitem : item ∈ items)
    (hkind : (∃ step, item = .context step) ∨ ∃ table, item = .dataTable table)
    (hscenario : .scenario scenario ∈ items) : item.line < scenario.heading.line := by
  have hincreasing := h.increasing
  cases h with
  | before h =>
    obtain ⟨first, scenarios, rfl, hfirst⟩ := h.exists_scenarios
    rw [List.map_append, List.pairwise_append] at hincreasing
    refine hincreasing.2.2 item.line (List.mem_map_of_mem ?_) _ (List.mem_map_of_mem
      (f := SpecItem.line) (a := .scenario scenario) ?_)
    · rcases hkind with ⟨step, rfl⟩ | ⟨table, rfl⟩ <;> simpa using hitem
    · refine (List.mem_append.mp hscenario).resolve_left fun hopening ↦ ?_
      simpa [SpecItem.isOpening] using hfirst _ hopening
  | @after front rest items steps comments hfront hrest =>
    obtain ⟨first, scenarios, rfl, hfirst⟩ := hfront.exists_scenarios
    rw [List.append_assoc, List.map_append, List.pairwise_append] at hincreasing
    rw [List.append_assoc] at hitem hscenario
    refine hincreasing.2.2 item.line (List.mem_map_of_mem ?_) _ (List.mem_map_of_mem
      (f := SpecItem.line) (a := .scenario scenario) ?_)
    · rcases hkind with ⟨step, rfl⟩ | ⟨table, rfl⟩ <;> simpa using hitem
    · refine (List.mem_append.mp hscenario).resolve_left fun hopening ↦ ?_
      simpa [SpecItem.isOpening] using hfirst _ hopening

/-- A teardown stands on the line of a marker. -/
theorem AreItems.exists_marker (h : AreItems lines items) {found : TearDown}
    (hfound : .tearDown found ∈ items) :
    ∃ before after, lines = before ++ .tearDown :: after ∧ found.line = before.length + 1 := by
  have hnone : ∀ {lines items}, AreSections lines items → .tearDown found ∉ items := by
    intro lines items hsections hin
    obtain ⟨first, scenarios, rfl, hfirst⟩ := hsections.exists_scenarios
    rcases List.mem_append.mp hin with hopening | hscenario
    · simpa [SpecItem.isOpening] using hfirst _ hopening
    · simp at hscenario
  cases h with
  | before h => exact absurd hfound (hnone h)
  | @after front rest items steps comments hfront hrest =>
    have hnew := (List.mem_append.mp hfound).resolve_left (hnone hfront)
    obtain rfl : found = ⟨front.length + 1, steps⟩ := by simpa using hnew
    exact ⟨front, rest, rfl, rfl⟩

/-- The headings of scenarios stand before every marker. -/
theorem AreItems.heading_le_of_marker (h : AreItems lines items) (hscenario : .scenario scenario ∈ items)
    {before after : List Line} (hmarker : lines = before ++ .tearDown :: after) :
    scenario.heading.line ≤ before.length := by
  have hnone : ∀ {lines items}, AreSections lines items → lines[before.length]? ≠ some .tearDown := by
    intro lines items hsections hline
    have hnot := hsections.isTearDown_eq_false _ (List.mem_of_getElem? hline)
    cases hnot
  cases h with
  | before h => exact absurd (by simp [hmarker]) (hnone h)
  | @after front rest items steps comments hfront hrest =>
    have hin : .scenario scenario ∈ items := by simpa using hscenario
    have hline := hfront.increasing.2 _ hin
    change scenario.heading.line ≤ front.length at hline
    by_contra hlt
    refine hnone hfront ?_
    have hsame : (front ++ .tearDown :: rest)[before.length]? = front[before.length]? :=
      List.getElem?_append_left (by omega)
    rw [← hsame, hmarker]
    simp

end Items

/-! ### The specification as a whole -/

/-- A scenario stands where its span says. -/
structure Scenario.IsLocatedIn (scenario : Scenario) (lines : List Line) : Prop where
  heading_pos : 0 < scenario.heading.line
  heading_eq : lines[scenario.heading.line - 1]? = some (.heading 2 scenario.heading.value)
  first_eq : scenario.span.first = scenario.heading.line
  last_greatest : IsGreatest {number | IsWrittenIn lines scenario.heading.line number} scenario.span.last

namespace Specification

/-- The answer for a line that belongs to no scenario. -/
def noScenario (spec : Specification) : ScenarioLookup := .all (spec.scenarios.map (.of spec))

/-- The spans of the scenarios are where the scenarios are, and every line leads to the scenario that it
belongs to. -/
structure LocatesScenarios (spec : Specification) (lines : List Line) : Prop where
  /-- A span begins with the heading and ends with the last written line before the next section. -/
  located : ∀ scenario ∈ spec.scenarios, scenario.IsLocatedIn lines
  first_le_last : ∀ scenario ∈ spec.scenarios, scenario.span.first ≤ scenario.span.last
  /-- The spans are in order and disjoint. -/
  ordered : spec.scenarios.Pairwise fun scenario later ↦ scenario.span.last < later.span.first
  found_of_contains : ∀ number, ∀ scenario ∈ spec.scenarios, scenario.span.contains number = true →
    spec.scenarioAt number = .found (.of spec scenario)
  none_of_not_contains : ∀ number, (∀ scenario ∈ spec.scenarios, scenario.span.contains number = false) →
    spec.scenarioAt number = spec.noScenario
  /-- The line of every comment, of tags and of every step of a scenario leads to it. -/
  found_item : ∀ scenario ∈ spec.scenarios, ∀ item ∈ scenario.items,
    spec.scenarioAt item.entry.1 = .found (.of spec scenario)
  /-- So do the rows of the table below a step. -/
  found_row : ∀ scenario ∈ spec.scenarios, ∀ step ∈ scenario.steps,
    ∀ offset ≤ (leadingRows (lines.drop step.line)).length,
      spec.scenarioAt (step.line + offset) = .found (.of spec scenario)
  /-- No line of a context or of the table below it leads to a scenario. -/
  none_context : ∀ step ∈ spec.contexts, ∀ offset ≤ (leadingRows (lines.drop step.line)).length,
    spec.scenarioAt (step.line + offset) = spec.noScenario
  /-- Nor does a line of the data table. -/
  none_dataTable : ∀ table, .dataTable table ∈ spec.items →
    ∀ offset ≤ (leadingRows (lines.drop table.line)).length,
      spec.scenarioAt (table.line + offset) = spec.noScenario
  /-- Nor does a marker of the teardown or anything after it. -/
  none_from_marker : ∀ before after, lines = before ++ .tearDown :: after → ∀ number, before.length < number →
    spec.scenarioAt number = spec.noScenario
  /-- Nor does a step of the teardown. -/
  none_tearDown : ∀ step ∈ spec.tearDownSteps, spec.scenarioAt step.line = spec.noScenario

variable {spec : Specification} {file : Path} {text : String} {lines : List Line} {scenario : Scenario}
  {number : Nat}

theorem mem_scenarios : scenario ∈ spec.scenarios ↔ .scenario scenario ∈ spec.items := by
  rw [scenarios, List.mem_filterMap]
  constructor
  · rintro ⟨item, hitem, hscenario⟩
    cases item <;> cases hscenario
    exact hitem
  · exact fun h ↦ ⟨_, h, rfl⟩

/-- No scenario covers the line. -/
theorem scenarioAt_of_not_contains (h : ∀ scenario ∈ spec.scenarios, scenario.span.contains number = false) :
    spec.scenarioAt number = spec.noScenario := by
  have hnone : (spec.scenarios.find? fun scenario ↦ scenario.span.contains number) = none := by
    simpa [List.find?_eq_none] using h
  rw [scenarioAt, hnone]
  rfl

/-- Assumes: spans that are in order and disjoint. The scenario that covers a line is found. -/
theorem scenarioAt_of_contains
    (hordered : spec.scenarios.Pairwise fun scenario later ↦ scenario.span.last < later.span.first)
    (hscenario : scenario ∈ spec.scenarios) (hcontains : scenario.span.contains number = true) :
    spec.scenarioAt number = .found (.of spec scenario) := by
  obtain ⟨found, hfound⟩ : ∃ found,
      (spec.scenarios.find? fun scenario ↦ scenario.span.contains number) = some found :=
    Option.isSome_iff_exists.mp (List.find?_isSome.mpr ⟨scenario, hscenario, hcontains⟩)
  obtain ⟨hcovers, earlier, later, hsplit, hearlier⟩ := List.find?_eq_some_iff_append.mp hfound
  rw [scenarioAt, hfound]
  rw [hsplit] at hscenario hordered
  rcases List.mem_append.mp hscenario with hbefore | hrest
  · simpa [hcontains] using hearlier scenario hbefore
  · rcases List.mem_cons.mp hrest with rfl | hafter
    · rfl
    · -- A later scenario begins below the span that covers the line.
      have hless := (List.pairwise_cons.mp (List.pairwise_append.mp hordered).2.1).1 scenario hafter
      simp only [Span.contains, Bool.and_eq_true, decide_eq_true_eq] at hcovers hcontains
      omega

end Specification

theorem Scenario.IsLocatedIn.contains_iff {scenario : Scenario} {lines : List Line}
    (h : scenario.IsLocatedIn lines) {number : Nat} : scenario.span.contains number = true ↔
      scenario.heading.line ≤ number ∧ number ≤ scenario.span.last := by
  rw [Span.contains, Bool.and_eq_true, decide_eq_true_eq, decide_eq_true_eq, h.first_eq]

theorem Scenario.IsLocatedIn.contains_of_isWrittenIn {scenario : Scenario} {lines : List Line}
    (h : scenario.IsLocatedIn lines) {number : Nat} (hwritten : IsWrittenIn lines scenario.heading.line number) :
    scenario.span.contains number = true :=
  h.contains_iff.mpr ⟨hwritten.le, h.last_greatest.2 hwritten⟩

/-- Assumes: a line above the heading of a scenario. The rows directly below it do not belong to the
scenario. -/
theorem Scenario.IsLocatedIn.not_contains_row {scenario : Scenario} {lines : List Line}
    (h : scenario.IsLocatedIn lines) {start offset : Nat} (hstart : start < scenario.heading.line)
    (hle : offset ≤ (leadingRows (lines.drop start)).length) :
    scenario.span.contains (start + offset) = false := by
  rw [Bool.eq_false_iff, ne_eq, h.contains_iff]
  rintro ⟨hheading, -⟩
  obtain ⟨cells, hcells⟩ := exists_row_of_lt hstart (hheading.trans (Nat.add_le_add_left hle start))
  rw [h.heading_eq] at hcells
  cases hcells

/-- Assumes: a marker below the heading of a scenario. The scenario ends before it. -/
theorem Scenario.IsLocatedIn.last_lt_of_marker {scenario : Scenario} {before after : List Line}
    (h : scenario.IsLocatedIn (before ++ .tearDown :: after)) (hle : scenario.heading.line ≤ before.length) :
    scenario.span.last < before.length + 1 := by
  by_contra hlast
  have hends := h.last_greatest.1.same_section (before.length + 1) (by omega) (by omega) .tearDown (by simp)
  cases hends

namespace Specification

variable {spec : Specification} {file : Path} {text : String}

/-- Assumes: a specification that has been read. Its scenarios stand where their spans say. -/
theorem isLocatedIn_of_parse (h : Specification.parse file text = .ok spec) {scenario : Scenario}
    (hscenario : scenario ∈ spec.scenarios) : scenario.IsLocatedIn (Line.classifyAll text) := by
  have hextent := List.mem_map_of_mem (f := Scenario.extent) hscenario
  rw [map_extent_scenarios h] at hextent
  obtain ⟨front, value, below, hlines, hscenario⟩ := mem_extentsFrom.mp hextent
  rw [Nat.add_comm 1] at hscenario
  obtain ⟨hheading, hspan⟩ := Prod.mk.inj hscenario
  rw [hlines]
  refine ⟨?_, ?_, ?_, ?_⟩
  · rw [hheading]
    exact Nat.succ_pos _
  · rw [hheading]
    simp
  · rw [hspan, hheading]
  · rw [hspan, hheading]
    exact isGreatest_lastWritten front below value

/-- Assumes: a specification that has been read. Its items come in the sections of its lines. -/
theorem areItems_of_parse (h : Specification.parse file text = .ok spec) :
    AreItems (Line.classifyAll text) spec.items := by
  obtain ⟨draft, heading, hread, -, rfl⟩ := parse_eq_ok_iff.mp h
  exact (Draft.renders_readAll Draft.renders_empty hread
    fun _ ↦ Line.trimString_of_mem_classifyAll).areItems

section Parse

variable (h : Specification.parse file text = .ok spec)

include h

theorem pairwise_scenarios_of_parse :
    spec.scenarios.Pairwise fun scenario later ↦ scenario.span.last < later.span.first := by
  have hextents := pairwise_extentsFrom 1 (Line.classifyAll text)
  rw [← map_extent_scenarios h] at hextents
  exact List.pairwise_map.mp hextents

/-- A written line of the section that a scenario opens leads to it. -/
theorem scenarioAt_of_isWrittenIn {scenario : Scenario} (hscenario : scenario ∈ spec.scenarios) {number : Nat}
    (hwritten : IsWrittenIn (Line.classifyAll text) scenario.heading.line number) :
    spec.scenarioAt number = .found (.of spec scenario) :=
  scenarioAt_of_contains (pairwise_scenarios_of_parse h) hscenario
    ((isLocatedIn_of_parse h hscenario).contains_of_isWrittenIn hwritten)

theorem isWrittenIn_of_mem_items {scenario : Scenario} (hscenario : scenario ∈ spec.scenarios)
    {item : ScenarioItem} (hitem : item ∈ scenario.items) :
    IsWrittenIn (Line.classifyAll text) scenario.heading.line item.entry.1 := by
  refine isWrittenIn_of_mem_entriesFrom ?_
  rw [← (areItems_of_parse h).scenario_entries (mem_scenarios.mp hscenario)]
  exact List.mem_map_of_mem hitem

/-- The rows directly below a context or the header of the data table lead to no scenario. -/
theorem scenarioAt_of_opening {item : SpecItem} (hitem : item ∈ spec.items)
    (hkind : (∃ step, item = .context step) ∨ ∃ table, item = .dataTable table) {offset : Nat}
    (hoffset : offset ≤ (leadingRows ((Line.classifyAll text).drop item.line)).length) :
    spec.scenarioAt (item.line + offset) = spec.noScenario := by
  refine scenarioAt_of_not_contains fun scenario hscenario ↦ ?_
  have hbefore := (areItems_of_parse h).line_lt_of_opening hitem hkind (mem_scenarios.mp hscenario)
  exact (isLocatedIn_of_parse h hscenario).not_contains_row hbefore hoffset

/-- What comes after a marker leads to no scenario. -/
theorem scenarioAt_of_marker {before after : List Line}
    (hlines : Line.classifyAll text = before ++ .tearDown :: after) {number : Nat}
    (hnumber : before.length < number) : spec.scenarioAt number = spec.noScenario := by
  refine scenarioAt_of_not_contains fun scenario hscenario ↦ ?_
  have hlocated := isLocatedIn_of_parse h hscenario
  rw [Bool.eq_false_iff, ne_eq, hlocated.contains_iff]
  have hheading := (areItems_of_parse h).heading_le_of_marker (mem_scenarios.mp hscenario) hlines
  rw [hlines] at hlocated
  have hlast := hlocated.last_lt_of_marker hheading
  omega

theorem scenarioAt_of_mem_tearDownSteps {step : Step} (hstep : step ∈ spec.tearDownSteps) :
    spec.scenarioAt step.line = spec.noScenario := by
  have hitems := areItems_of_parse h
  obtain ⟨found, hfound, hin⟩ := List.mem_flatMap.mp hstep
  obtain ⟨item, hitem, hsome⟩ := List.mem_filterMap.mp hfound
  cases item with
  | tearDown tearDown =>
    cases hsome
    obtain ⟨before, after, hlines, hline⟩ := hitems.exists_marker hitem
    have hentry : step.entry ∈ found.steps.map Step.entry := List.mem_map_of_mem hin
    rw [hitems.tearDown_steps hitem] at hentry
    obtain ⟨above, -, -, -, hnumber, -⟩ := mem_entriesFrom.mp (mem_entriesOfKind.mp hentry).1
    exact scenarioAt_of_marker h hlines (by omega)
  | _ => cases hsome

end Parse

/-- Assumes: a specification that has been read. Its spans are those of its scenarios, and every line leads
to the scenario that it belongs to. -/
theorem locatesScenarios_of_parse (h : Specification.parse file text = .ok spec) :
    spec.LocatesScenarios (Line.classifyAll text) where
  located scenario hscenario := isLocatedIn_of_parse h hscenario
  first_le_last := by
    intro scenario hscenario
    have hlocated := isLocatedIn_of_parse h hscenario
    rw [hlocated.first_eq]
    exact hlocated.last_greatest.1.le
  ordered := pairwise_scenarios_of_parse h
  found_of_contains _ _ := scenarioAt_of_contains (pairwise_scenarios_of_parse h)
  none_of_not_contains _ := scenarioAt_of_not_contains
  found_item := by
    intro scenario hscenario item hitem
    exact scenarioAt_of_isWrittenIn h hscenario (isWrittenIn_of_mem_items h hscenario hitem)
  found_row := by
    intro scenario hscenario step hstep offset hoffset
    obtain ⟨item, hitem, hsome⟩ := List.mem_filterMap.mp hstep
    cases item with
    | step found =>
      cases hsome
      exact scenarioAt_of_isWrittenIn h hscenario ((isWrittenIn_of_mem_items h hscenario hitem).add hoffset)
    | _ => cases hsome
  none_context := by
    intro step hstep offset hoffset
    obtain ⟨item, hitem, hsome⟩ := List.mem_filterMap.mp hstep
    cases item with
    | context found =>
      cases hsome
      exact scenarioAt_of_opening h hitem (.inl ⟨step, rfl⟩) hoffset
    | _ => cases hsome
  none_dataTable _ htable _ hoffset := scenarioAt_of_opening h htable (.inr ⟨_, rfl⟩) hoffset
  none_from_marker _ _ hlines _ hnumber := scenarioAt_of_marker h hlines hnumber
  none_tearDown _ hstep := scenarioAt_of_mem_tearDownSteps h hstep

end Specification

/-- A text with a scenario that has nothing below its heading, and one that ends with a table. -/
def tillText : String :=
  "# Till\n* Open\n## Cash\n\n## Card\n* Swipe\n| pin |\n|---|\n| 12 |\n\n___\n* Close\n"

/-- What is read from this text. -/
def tillSpecification : Specification :=
  ⟨⟨"Till", 1⟩, ⟨"till.spec"⟩,
    [.context (.written "Open" "Open" 2 []),
      .scenario ⟨⟨"Cash", 3⟩, ⟨3, 3⟩, []⟩,
      .scenario ⟨⟨"Card", 5⟩, ⟨5, 9⟩,
        [.step (.written "Swipe \x7b\x7d" "Swipe" 6 [.table ⟨["pin"], [["12"]], 7⟩])]⟩,
      .tearDown ⟨11, [.written "Close" "Close" 12 []]⟩], .empty⟩

/-- The heading alone leads to the first scenario, the last row to the second, and the blank lines below them
and the teardown to none. -/
theorem Specification.locatesScenarios_of_parse_till :
    Specification.parse ⟨"till.spec"⟩ tillText = .ok tillSpecification ∧
      tillSpecification.LocatesScenarios (Line.classifyAll tillText) ∧
      tillSpecification.scenarioAt 3 = .found ⟨"Cash", 3, "till.spec:3"⟩ ∧
      tillSpecification.scenarioAt 9 = .found ⟨"Card", 5, "till.spec:5"⟩ ∧
      ∀ number ∈ [2, 4, 10, 11, 12],
        tillSpecification.scenarioAt number = tillSpecification.noScenario := by
  have hparse : Specification.parse ⟨"till.spec"⟩ tillText = .ok tillSpecification := by decide +kernel
  exact ⟨hparse, locatesScenarios_of_parse hparse, by decide +kernel, by decide +kernel,
    by decide +kernel⟩

end LiveSpec
