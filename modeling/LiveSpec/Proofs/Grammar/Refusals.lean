import LiveSpec.Proofs.Grammar.Rows

/-!
# Where a refused text goes wrong

A text that is refused is refused at the first line that no specification can go on with
(`Specification.pointsAtFirst_of_parse`). The lines before it are the beginning of a specification, and every
text that begins with the same lines up to and with it is refused at the same line for the same reason
(`ParseError.PointsAtFirst`). Only a text that ends before its title came has no such line, and there the
title is all that is missing.

Lines are read one after another, so a text is refused at the line that cannot be read after those before it
(`Draft.readAll_eq_error_iff`). Whatever has been read can still become a specification: there is a title, or
one can be read next (`Draft.exists_finish`). Reading a line never finds that the title is missing for good
(`Draft.read_ne_headingNotFound`), so this fault tells the end of a text from all lines.

The lines of a text can be put together to a text again (`Text.linesOfString_ofLines`).
-/

set_option autoImplicit false

namespace LiveSpec

/-! ### Lines put together -/

namespace Text

/-- The text with given lines, a line feed after each. -/
def ofLines (lines : List String) : String :=
  String.ofList (lines.flatMap fun line ↦ line.toList ++ ['\n'])

variable {line text : List Char}

/-- What stands before the first line feed is the first line. -/
theorem lines_append_feed (h : '\n' ∉ line) (rest : List Char) :
    lines (line ++ '\n' :: rest) = line :: lines rest := by
  induction line with
  | nil => simp [lines_cons, prependToLines]
  | cons c line ih =>
    rw [List.mem_cons, not_or] at h
    rw [List.cons_append, lines_cons, ih h.2]
    simp [prependToLines, Ne.symm h.1]

theorem feed_not_mem_of_mem_lines (h : line ∈ lines text) : '\n' ∉ line := by
  induction text generalizing line with
  | nil => simp [lines_nil] at h
  | cons c text ih =>
    rw [lines_cons] at h
    unfold prependToLines at h
    split_ifs at h with hfeed
    · rcases List.mem_cons.mp h with rfl | hrest
      · exact List.not_mem_nil
      · exact ih hrest
    · cases hlines : lines text with
      | nil =>
        rw [hlines, List.mem_singleton] at h
        simpa [h, eq_comm] using hfeed
      | cons first rest =>
        rw [hlines] at h ih
        rcases List.mem_cons.mp h with rfl | hrest
        · rw [List.mem_cons, not_or]
          exact ⟨Ne.symm hfeed, ih List.mem_cons_self⟩
        · exact ih (List.mem_cons_of_mem _ hrest)

theorem feed_not_mem_of_mem_linesOfString {source piece : String} (h : piece ∈ linesOfString source) :
    '\n' ∉ piece.toList := by
  obtain ⟨line, hline, rfl⟩ := List.mem_map.mp h
  rw [String.toList_ofList]
  exact feed_not_mem_of_mem_lines hline

/-- The lines of a text that was put together are those that it was put together from. -/
theorem linesOfString_ofLines {pieces : List String} (h : ∀ piece ∈ pieces, '\n' ∉ piece.toList) :
    linesOfString (ofLines pieces) = pieces := by
  rw [linesOfString, ofLines, String.toList_ofList]
  induction pieces with
  | nil => rfl
  | cons piece rest ih =>
    rw [List.forall_mem_cons] at h
    rw [List.flatMap_cons, List.append_assoc, List.singleton_append, lines_append_feed h.1, List.map_cons,
      ih h.2, String.ofList_toList]

end Text

/-! ### Faults of single lines -/

section Outcomes

variable {ε α β : Type} {fault : ε}

theorem bind_ne_error {outcome : Except ε α} {next : α → Except ε β} (h : outcome ≠ .error fault)
    (hnext : ∀ value, next value ≠ .error fault) : (outcome >>= next) ≠ .error fault := by
  cases outcome with
  | error other => simpa [bind, Except.bind] using h
  | ok value => exact hnext value

theorem map_ne_error {outcome : Except ε α} {change : α → β} (h : outcome ≠ .error fault) :
    outcome.map change ≠ .error fault := by
  cases outcome with
  | error other => simpa [Except.map] using h
  | ok value => simp [Except.map]

end Outcomes

/-- The text of a step is never refused for want of a title. -/
theorem StepText.read_ne_headingNotFound (mode : Mode) (text : List Char) :
    read mode text ≠ .error .headingNotFound := by
  fun_induction read mode text with
  | case1 | case5 | case6 | case10 | case11 => simp
  | case2 | case3 | case7 | case9 | case13 => assumption
  | case4 | case8 | case12 => exact map_ne_error ‹_›

theorem StepText.parse_ne_headingNotFound (text : String) (line : Nat) :
    parse text line ≠ .error .headingNotFound := by
  unfold parse
  split
  · simp
  · exact map_ne_error (read_ne_headingNotFound _ _)

theorem Table.readRow_ne_headingNotFound (table : Table) (cells : List String) :
    table.readRow cells ≠ .error .headingNotFound := by
  unfold readRow
  split_ifs <;> simp

theorem Step.readRow_ne_headingNotFound (step : Step) (inTable : Bool) (cells : List String) (line : Nat) :
    step.readRow inTable cells line ≠ .error .headingNotFound := by
  unfold readRow
  split
  · exact map_ne_error (Table.readRow_ne_headingNotFound _ _)
  · simp

namespace Part

theorem changeLastStep_ne_headingNotFound (part : Part) {change : Step → Except Fault Step}
    (h : ∀ step, change step ≠ .error .headingNotFound) :
    part.changeLastStep change ≠ .error .headingNotFound := by
  unfold changeLastStep
  split
  · exact map_ne_error (h _)
  · exact map_ne_error (h _)
  · exact map_ne_error (h _)
  · simp

theorem openDataTable_ne_headingNotFound (part : Part) (cells : List String) (line : Nat) :
    part.openDataTable cells line ≠ .error .headingNotFound := by
  unfold openDataTable
  split
  · split_ifs <;> simp
  · simp

theorem readDataRow_ne_headingNotFound (part : Part) (cells : List String) :
    part.readDataRow cells ≠ .error .headingNotFound := by
  unfold readDataRow
  split
  · exact map_ne_error (Table.readRow_ne_headingNotFound _ _)
  · simp

end Part

namespace Draft

variable {draft final : Draft} {number : Nat} {lines : List Line} {refusal : Refusal}

theorem requireHeading_ne_headingNotFound (draft : Draft) :
    draft.requireHeading ≠ .error .headingNotFound := by
  unfold requireHeading
  split_ifs <;> simp

theorem readRow_ne_headingNotFound (draft : Draft) (number : Nat) (cells : List String) :
    draft.readRow number cells ≠ .error .headingNotFound := by
  unfold readRow
  split
  · exact bind_ne_error draft.requireHeading_ne_headingNotFound fun _ ↦
      bind_ne_error (Part.openDataTable_ne_headingNotFound _ _ _) (by simp [pure, Except.pure])
  · exact bind_ne_error (Part.readDataRow_ne_headingNotFound _ _) (by simp [pure, Except.pure])
  · exact bind_ne_error (Part.changeLastStep_ne_headingNotFound _ fun step ↦
      step.readRow_ne_headingNotFound _ _ _) (by simp [pure, Except.pure])
  · exact bind_ne_error (Part.changeLastStep_ne_headingNotFound _ fun step ↦
      step.readRow_ne_headingNotFound _ _ _) (by simp [pure, Except.pure])

/-- That a text has no title is never found at a line. -/
theorem read_ne_headingNotFound (draft : Draft) (number : Nat) (line : Line) :
    draft.read number line ≠ .error .headingNotFound := by
  unfold read
  split
  · simp
  · split_ifs <;> simp
  · exact bind_ne_error draft.requireHeading_ne_headingNotFound fun _ ↦
      bind_ne_error (by cases draft.part <;> simp [Part.openScenario]) (by simp [pure, Except.pure])
  · simp
  · simp
  · exact bind_ne_error draft.requireHeading_ne_headingNotFound fun _ ↦
      bind_ne_error (StepText.parse_ne_headingNotFound _ _) (by simp [pure, Except.pure])
  · exact bind_ne_error (by cases draft.part <;> simp [Part.cover, Part.addTags])
      (by simp [pure, Except.pure])
  · exact bind_ne_error draft.requireHeading_ne_headingNotFound (by simp [pure, Except.pure])
  · exact readRow_ne_headingNotFound _ _ _

/-! ### The line that is refused -/

/-- Lines that are refused have a line that cannot be read after those before it. -/
theorem exists_of_readAll_eq_error (h : draft.readAll number lines = .error refusal) :
    ∃ before line after next, lines = before ++ line :: after ∧
      draft.readAll number before = .ok next ∧ refusal.line = number + before.length ∧
      next.read refusal.line line = .error refusal.fault := by
  induction lines generalizing draft number with
  | nil => cases h
  | cons first rest ih =>
    rw [readAll] at h
    cases hfirst : draft.read number first with
    | error fault =>
      rw [hfirst] at h
      cases h
      exact ⟨[], first, rest, draft, rfl, rfl, rfl, hfirst⟩
    | ok middle =>
      rw [hfirst] at h
      obtain ⟨before, line, after, next, rfl, hbefore, hnumber, hline⟩ := ih h
      refine ⟨first :: before, line, after, next, rfl, ?_, ?_, hline⟩
      · exact readAll_cons_eq_ok_iff.mpr ⟨middle, hfirst, hbefore⟩
      · rw [hnumber, List.length_cons]
        omega

/-- At such a line all lines are refused, whatever comes after it. -/
theorem readAll_eq_error {before : List Line} {line : Line} {next : Draft} {fault : Fault}
    (hbefore : draft.readAll number before = .ok next)
    (hline : next.read (number + before.length) line = .error fault) (after : List Line) :
    draft.readAll number (before ++ line :: after) = .error ⟨number + before.length, fault⟩ := by
  induction before generalizing draft number with
  | nil =>
    cases hbefore
    rw [List.length_nil, Nat.add_zero] at hline ⊢
    rw [List.nil_append, readAll, hline]
  | cons first rest ih =>
    obtain ⟨middle, hfirst, hrest⟩ := readAll_cons_eq_ok_iff.mp hbefore
    have hnumber : number + (first :: rest).length = number + 1 + rest.length := by
      rw [List.length_cons]
      omega
    rw [hnumber] at hline ⊢
    rw [List.cons_append, readAll, hfirst]
    exact ih hrest hline

/-- Lines that begin with the same lines up to the refused one are refused in the same way. -/
theorem readAll_eq_error_of_take_eq {others : List Line} (h : draft.readAll number lines = .error refusal)
    (hsame : others.take (refusal.line + 1 - number) = lines.take (refusal.line + 1 - number)) :
    draft.readAll number others = .error refusal := by
  obtain ⟨before, line, after, next, rfl, hbefore, hnumber, hline⟩ := exists_of_readAll_eq_error h
  have hcount : refusal.line + 1 - number = (before ++ [line]).length := by
    rw [hnumber, List.length_append, List.length_singleton]
    omega
  rw [hcount, List.append_cons before line after, List.take_left] at hsame
  have hothers : others = before ++ line :: others.drop (before ++ [line]).length := by
    conv_lhs => rw [← List.take_append_drop (before ++ [line]).length others, hsame, ← List.append_cons]
  rw [hnumber] at hline
  rw [hothers, readAll_eq_error hbefore hline, ← hnumber]

/-- While there is no title, a title can be read. -/
theorem readAll_title (h : draft.heading = none) (number : Nat) (title : String) :
    draft.readAll number [.heading 1 title] =
      .ok ⟨some ⟨title, number⟩, draft.part.cover number, .nothing⟩ := by
  simp [readAll, read, h]

/-- What has been read can become a specification. A title is missing at most. -/
theorem exists_finish (draft : Draft) (number : Nat) :
    ∃ closing : List String, (∀ piece ∈ closing, '\n' ∉ piece.toList) ∧ ∃ final heading,
      draft.readAll number (closing.map Line.classify) = .ok final ∧ final.heading = some heading := by
  cases hheading : draft.heading with
  | some heading => exact ⟨[], by simp, draft, heading, rfl, hheading⟩
  | none =>
    have hline : Line.classify "#" = .heading 1 "" := by decide
    have hread := readAll_title hheading number ""
    rw [← hline, ← List.map_singleton] at hread
    exact ⟨["#"], by decide, _, _, hread, rfl⟩

end Draft

/-! ### Refused texts -/

namespace Specification

variable {file : Path} {text : String} {error : ParseError}

/-- A text is refused at one of its lines, or because it ends without a title. -/
theorem parse_eq_error_iff : Specification.parse file text = .error error ↔
    (∃ refusal, Draft.empty.readAll 1 (Line.classifyAll text) = .error refusal ∧
      error = refusal.inFile file) ∨
    ∃ draft, Draft.empty.readAll 1 (Line.classifyAll text) = .ok draft ∧ draft.heading = none ∧
      error = ⟨file, 1, .headingNotFound⟩ := by
  rw [Specification.parse, ofLines]
  cases Draft.empty.readAll 1 (Line.classifyAll text) with
  | error refusal => simp [bind, Except.bind, Except.mapError, eq_comm]
  | ok draft =>
    cases hheading : draft.heading <;>
      simp [bind, Except.bind, Except.mapError, Draft.finish, hheading, Refusal.inFile, eq_comm]

/-- Lines that can be read are the beginning of a specification. -/
theorem exists_parse_of_readAll (file : Path) {pieces : List String} {draft : Draft}
    (hpieces : ∀ piece ∈ pieces, '\n' ∉ piece.toList)
    (hread : Draft.empty.readAll 1 (pieces.map Line.classify) = .ok draft) :
    ∃ accepted spec, Specification.parse file accepted = .ok spec ∧
      pieces <+: Text.linesOfString accepted := by
  obtain ⟨closing, hclosing, final, heading, hfinal, hheading⟩ := draft.exists_finish (1 + pieces.length)
  have hlines : Text.linesOfString (Text.ofLines (pieces ++ closing)) = pieces ++ closing :=
    Text.linesOfString_ofLines fun piece hpiece ↦
      (List.mem_append.mp hpiece).elim (hpieces piece) (hclosing piece)
  refine ⟨Text.ofLines (pieces ++ closing), _, parse_eq_ok_iff.mpr ⟨final, heading, ?_, hheading, rfl⟩, ?_⟩
  · rw [Line.classifyAll, hlines, List.map_append]
    exact Draft.readAll_append_eq_ok_iff.mpr ⟨draft, hread, by rwa [List.length_map]⟩
  · rw [hlines]
    exact List.prefix_append _ _

end Specification

/-- The line of an error is the first one that no specification can go on with. -/
structure ParseError.PointsAtFirst (error : ParseError) (text : String) : Prop where
  /-- It is a line of the text. -/
  line_mem : 1 ≤ error.line ∧ error.line ≤ (Text.linesOfString text).length
  /-- The lines before it are the beginning of a specification. -/
  exists_accepted : ∃ accepted spec, Specification.parse error.file accepted = .ok spec ∧
    (Text.linesOfString text).take (error.line - 1) <+: Text.linesOfString accepted
  /-- A text that begins with the same kinds of lines, as one with the same lines does, is refused with the
  same error. -/
  refused : ∀ other, (Line.classifyAll other).take error.line = (Line.classifyAll text).take error.line →
    Specification.parse error.file other = .error error

/-- Assumes: lines that are refused at one of them. The error points at the first one at fault. -/
theorem Draft.pointsAtFirst_of_readAll {file : Path} {text : String} {refusal : Refusal}
    (h : Draft.empty.readAll 1 (Line.classifyAll text) = .error refusal) :
    (refusal.inFile file).PointsAtFirst text := by
  obtain ⟨before, line, after, next, hlines, hbefore, hnumber, hline⟩ := exists_of_readAll_eq_error h
  obtain ⟨pieces, later, hpieces, rfl, hlater⟩ := List.map_eq_append_iff.mp hlines
  have hlength : (Text.linesOfString text).length = pieces.length + (after.length + 1) := by
    rw [hpieces, List.length_append, ← later.length_map Line.classify, hlater, List.length_cons]
  rw [List.length_map] at hnumber
  refine ⟨?_, ?_, ?_⟩
  · show 1 ≤ refusal.line ∧ refusal.line ≤ _
    omega
  · have hfirst : (Text.linesOfString text).take (refusal.line - 1) = pieces := by
      rw [hnumber, Nat.add_sub_cancel_left, hpieces, List.take_left]
    show ∃ accepted spec, Specification.parse file accepted = .ok spec ∧ _
    rw [show (refusal.inFile file).line = refusal.line from rfl, hfirst]
    refine Specification.exists_parse_of_readAll file (fun piece hpiece ↦ ?_) hbefore
    exact Text.feed_not_mem_of_mem_linesOfString (hpieces ▸ List.mem_append_left later hpiece)
  · intro other hother
    exact Specification.parse_eq_error_iff.mpr
      (Or.inl ⟨refusal, readAll_eq_error_of_take_eq h hother, rfl⟩)

/-- Assumes: a text that is refused. The error points at the first line at fault; or the text has ended
before its title, and then it is a specification with a title as one more line. -/
theorem Specification.pointsAtFirst_of_parse {file : Path} {text : String} {error : ParseError}
    (h : Specification.parse file text = .error error) :
    error.file = file ∧
      (error.fault ≠ .headingNotFound → error.PointsAtFirst text) ∧
      (error.fault = .headingNotFound → error.line = 1 ∧ ∀ title extended,
        Line.classifyAll extended = Line.classifyAll text ++ [.heading 1 title] →
        ∃ spec, Specification.parse file extended = .ok spec ∧
          spec.heading = ⟨title, (Text.linesOfString text).length + 1⟩) := by
  rcases parse_eq_error_iff.mp h with ⟨refusal, hread, rfl⟩ | ⟨draft, hread, hheading, rfl⟩
  · refine ⟨rfl, fun _ ↦ Draft.pointsAtFirst_of_readAll hread, fun hfault ↦ ?_⟩
    obtain ⟨_, line, _, next, -, -, -, hline⟩ := Draft.exists_of_readAll_eq_error hread
    have hsame : refusal.fault = .headingNotFound := hfault
    rw [hsame] at hline
    exact absurd hline (next.read_ne_headingNotFound _ _)
  · refine ⟨rfl, fun hfault ↦ absurd rfl hfault, fun _ ↦ ⟨rfl, fun title extended hextended ↦ ?_⟩⟩
    have hlast := Draft.readAll_title hheading (1 + (Line.classifyAll text).length) title
    have hall := Draft.readAll_append_eq_ok_iff.mpr ⟨draft, hread, hlast⟩
    refine ⟨_, parse_eq_ok_iff.mpr ⟨_, _, hextended ▸ hall, rfl, rfl⟩, ?_⟩
    rw [Line.classifyAll, List.length_map, Nat.add_comm]

/-- A text whose second step has a literal that is not closed. -/
def unclosedText : String := "# Shop\n* Open\n* Say \"hi\n## Buy\n* Say <you\n"

/-- The later fault is not reported, and without its third line the text goes on well. A text without a
title has none of its lines at fault. -/
theorem Specification.pointsAtFirst_of_parse_unclosed :
    (Specification.parse ⟨"shop.spec"⟩ unclosedText = .error ⟨⟨"shop.spec"⟩, 3, .literalNotClosed⟩ ∧
      ParseError.PointsAtFirst ⟨⟨"shop.spec"⟩, 3, .literalNotClosed⟩ unclosedText) ∧
    Specification.parse ⟨"shop.spec"⟩ "A note." = .error ⟨⟨"shop.spec"⟩, 1, .headingNotFound⟩ ∧
      ∃ spec, Specification.parse ⟨"shop.spec"⟩ "A note.\n# Shop" = .ok spec ∧
        spec.heading = ⟨"Shop", 2⟩ := by
  have hunclosed : Specification.parse ⟨"shop.spec"⟩ unclosedText =
      .error ⟨⟨"shop.spec"⟩, 3, .literalNotClosed⟩ := by decide +kernel
  have huntitled : Specification.parse ⟨"shop.spec"⟩ "A note." =
      .error ⟨⟨"shop.spec"⟩, 1, .headingNotFound⟩ := by decide +kernel
  exact ⟨⟨hunclosed, (pointsAtFirst_of_parse hunclosed).2.1 (by decide)⟩, huntitled,
    ((pointsAtFirst_of_parse huntitled).2.2 rfl).2 "Shop" "A note.\n# Shop" (by decide +kernel)⟩

end LiveSpec
