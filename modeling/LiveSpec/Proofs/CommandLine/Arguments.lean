import LiveSpec.CommandLine.Arguments
import Mathlib.Tactic.SplitIfs

/-!
# Command lines for one project

What a word can be to the command line before it is an inversion of the reader (`InvocationDraft.Reads`). The
options of the listing of specifications can be given wherever a line of a file is asked for, with the same
effect: so it is for every word (`InvocationDraft.Reads.asking`) and thus for any number of words
(`InvocationDraft.foldlM_read?_asking`). A command line that lists the specifications therefore asks for a line
of a file, with the same options, when other words stand in the place of its command
(`Invocation.parse?_specs`). A line is written in decimal digits and read back
(`InvocationDraft.number?_toString`).
-/

set_option autoImplicit false

namespace LiveSpec

namespace InvocationDraft

variable {draft next listing : InvocationDraft} {text : String} {name : OptionName}

/-- Decimal digits are read as the number that they stand for. -/
theorem number?_toString {number : Nat} (h : number < numberLimit) :
    number? (toString number) = some number := by
  have hdigits : (toString number).toList = Nat.toDigits 10 number := by
    rw [Nat.toString_eq_repr, Nat.toList_repr]
  have hall : ∀ c ∈ Nat.toDigits 10 number, c.isDigit = true :=
    fun c hc ↦ Nat.isDigit_of_mem_toDigits (by decide) (by decide) hc
  have hplus : ∀ rest, Nat.toDigits 10 number ≠ '+' :: rest := by
    intro rest hrest
    exact absurd (hall '+' (hrest ▸ List.mem_cons_self)) (by decide)
  have hvalue : (Nat.toDigits 10 number).foldl (fun value c ↦ 10 * value + (c.toNat - '0'.toNat)) 0 = number := by
    rw [← Nat.ofDigitChars_eq_foldl, Nat.ofDigitChars_ten_toDigits]
  unfold number?
  rw [hdigits]
  split
  · next rest hrest => exact absurd hrest (hplus rest)
  · dsimp only
    rw [List.isEmpty_eq_false_iff.mpr Nat.toDigits_ne_nil, List.all_eq_true.mpr hall, hvalue]
    exact if_pos h

/-- A file and a line are read for no other command than the one that asks for a line, and an option only if the
command has it. -/
structure IsConsistent (draft : InvocationDraft) : Prop where
  file : draft.command ≠ some .scenario → draft.file = none
  line : draft.command ≠ some .scenario → draft.line = none
  awaiting : ∀ name, draft.awaiting = some name → name.isFor draft.command = true

theorem isConsistent_empty : empty.IsConsistent :=
  ⟨fun _ ↦ rfl, fun _ ↦ rfl, fun _ h ↦ nomatch h⟩

theorem eq_of_setOnce {α : Type} {old new : Option α} {put : Option α → InvocationDraft}
    (h : setOption?.setOnce old new put = some next) : next = put new := by
  unfold setOption?.setOnce at h
  split at h
  · cases h
  · exact (Option.some.inj h).symm

theorem map_setOnce {α : Type} (old new : Option α) (put : Option α → InvocationDraft)
    (change : InvocationDraft → InvocationDraft) :
    (setOption?.setOnce old new put).map change = setOption?.setOnce old new fun value ↦ change (put value) := by
  unfold setOption?.setOnce
  split <;> rfl

/-- An option leaves everything alone but its own value. -/
theorem fields_of_setOption? {value : String} (h : draft.setOption? value name = some next) :
    next.command = draft.command ∧ next.file = draft.file ∧ next.awaiting = none ∧
      (name ≠ .line → next.line = draft.line) := by
  cases name <;> unfold InvocationDraft.setOption? at h <;> obtain rfl := eq_of_setOnce h
  case line => exact ⟨rfl, rfl, rfl, fun hne ↦ absurd rfl hne⟩
  all_goals exact ⟨rfl, rfl, rfl, fun _ ↦ rfl⟩

theorem IsConsistent.setOption? {value : String} (hdraft : draft.IsConsistent)
    (hfor : name.isFor draft.command = true) (h : draft.setOption? value name = some next) :
    next.IsConsistent := by
  obtain ⟨hcommand, hfile, hawaiting, hline⟩ := fields_of_setOption? h
  refine ⟨fun hother ↦ ?_, fun hother ↦ ?_, fun name hname ↦ ?_⟩
  · rw [hfile]
    exact hdraft.file (hcommand ▸ hother)
  · rw [hcommand] at hother
    rw [hline ?_]
    · exact hdraft.line hother
    · rintro rfl
      exact hother (beq_iff_eq.mp hfor)
  · rw [hawaiting] at hname
    cases hname

theorem IsConsistent.readPlain? (hdraft : draft.IsConsistent) (hnone : draft.awaiting = none)
    (h : draft.readPlain? text = some next) : next.IsConsistent := by
  unfold InvocationDraft.readPlain? at h
  split at h
  · next hcommand =>
    obtain ⟨command, -, rfl⟩ := Option.map_eq_some_iff.mp h
    have hother : draft.command ≠ some .scenario := by rw [hcommand]; exact nofun
    refine ⟨fun _ ↦ hdraft.file hother, fun _ ↦ hdraft.line hother, fun name hname ↦ ?_⟩
    rw [hnone] at hname
    cases hname
  · next hcommand _ =>
    obtain rfl := Option.some.inj h
    exact ⟨fun hother ↦ absurd hcommand hother, hdraft.line, hdraft.awaiting⟩
  · cases h

/-- What a word can be to a command line of which something has been read. -/
inductive Reads (draft : InvocationDraft) (text : String) : InvocationDraft → Prop
  /-- The value of the option before it. -/
  | value {name : OptionName} {next : InvocationDraft} (hawaiting : draft.awaiting = some name)
    (hset : draft.setOption? text name = some next) : Reads draft text next
  /-- The command or its file. -/
  | plain {word : String} {next : InvocationDraft} (hnone : draft.awaiting = none)
    (hword : draft.verbatim = true ∧ text = word ∨
      draft.verbatim = false ∧ ArgumentWord.ofText text = .plain word)
    (hplain : draft.readPlain? word = some next) : Reads draft text next
  /-- An option with its value. -/
  | attached {name : OptionName} {value : String} {next : InvocationDraft} (hnone : draft.awaiting = none)
    (hfree : draft.verbatim = false) (hword : ArgumentWord.ofText text = .option name (some value))
    (hfor : name.isFor draft.command = true) (hset : draft.setOption? value name = some next) :
    Reads draft text next
  /-- An option whose value comes next. -/
  | opened {name : OptionName} (hnone : draft.awaiting = none) (hfree : draft.verbatim = false)
    (hword : ArgumentWord.ofText text = .option name none) (hfor : name.isFor draft.command = true) :
    Reads draft text { draft with awaiting := some name }
  | endOfOptions (hnone : draft.awaiting = none) (hfree : draft.verbatim = false)
    (hword : ArgumentWord.ofText text = .endOfOptions) : Reads draft text { draft with verbatim := true }

theorem read?_eq_some_iff : draft.read? text = some next ↔ draft.Reads text next := by
  constructor
  · intro h
    unfold InvocationDraft.read? at h
    split at h
    · next name hname => exact .value hname h
    · next hnone =>
      split_ifs at h with hverbatim
      · exact .plain hnone (.inl ⟨hverbatim, rfl⟩) h
      · rw [Bool.not_eq_true] at hverbatim
        split at h
        · next word hword => exact .plain hnone (.inr ⟨hverbatim, hword⟩) h
        · next name value hword =>
          split_ifs at h with hfor
          rw [Bool.not_eq_true, Bool.not_eq_false'] at hfor
          split at h
          · exact .attached hnone hverbatim hword hfor h
          · obtain rfl := Option.some.inj h
            exact .opened hnone hverbatim hword hfor
        · next hword =>
          obtain rfl := Option.some.inj h
          exact .endOfOptions hnone hverbatim hword
        · cases h
  · intro h
    unfold InvocationDraft.read?
    cases h with
    | value hawaiting hset => simp only [hawaiting, hset]
    | plain hnone hword hplain =>
      rcases hword with ⟨hverbatim, rfl⟩ | ⟨hfree, hword⟩
      · simp only [hnone, hverbatim, if_true, hplain]
      · simp only [hnone, hfree, hword, hplain, Bool.false_eq_true, if_false]
    | attached hnone hfree hword hfor hset => simp [hnone, hfree, hword, hfor, hset]
    | opened hnone hfree hword hfor => simp [hnone, hfree, hword, hfor]
    | endOfOptions hnone hfree hword => simp [hnone, hfree, hword]

/-- Reading a word keeps what has been read consistent. -/
theorem Reads.isConsistent (hdraft : draft.IsConsistent) (h : draft.Reads text next) : next.IsConsistent := by
  cases h with
  | value hawaiting hset => exact hdraft.setOption? (hdraft.awaiting _ hawaiting) hset
  | plain hnone _ hplain => exact hdraft.readPlain? hnone hplain
  | attached _ _ _ hfor hset => exact hdraft.setOption? hfor hset
  | opened _ _ _ hfor => exact ⟨hdraft.file, hdraft.line, fun name hname ↦ Option.some.inj hname ▸ hfor⟩
  | endOfOptions => exact ⟨hdraft.file, hdraft.line, hdraft.awaiting⟩

theorem IsConsistent.foldlM_read? {words : List String} (hdraft : draft.IsConsistent)
    (h : words.foldlM InvocationDraft.read? draft = some next) : next.IsConsistent := by
  induction words generalizing draft with
  | nil =>
    obtain rfl := Option.some.inj h
    exact hdraft
  | cons word words ih =>
    rw [List.foldlM_cons] at h
    obtain ⟨after, hword, hrest⟩ := Option.bind_eq_some_iff.mp h
    exact ih ((read?_eq_some_iff.mp hword).isConsistent hdraft) hrest

/-- The command line that asks for a line of a file, with the options of another one. -/
def asking (draft : InvocationDraft) (file : String) (line : Nat) : InvocationDraft :=
  { draft with command := some .scenario, file := some file, line := some line }

section Asking

variable (file : String) (line : Nat)

theorem setOption?_asking (draft : InvocationDraft) (value : String) (hname : name ≠ .line) :
    (draft.asking file line).setOption? value name =
      (draft.setOption? value name).map fun next ↦ next.asking file line := by
  cases name
  case line => exact absurd rfl hname
  all_goals
    unfold InvocationDraft.setOption?
    rw [map_setOnce]
    rfl

/-- Assumes: a command line that lists the specifications so far. A word that it goes on with can follow when a
line is asked for, too. -/
theorem Reads.asking (hdraft : draft.IsConsistent) (hcommand : draft.command = some .specifications)
    (h : draft.Reads text next) :
    (draft.asking file line).Reads text (next.asking file line) ∧ next.command = some .specifications := by
  have hfits : ∀ name, OptionName.isFor draft.command name = true →
      name.isFor (some .scenario) = true ∧ name ≠ .line := by
    intro name hfor
    rw [hcommand] at hfor
    cases name <;> simp_all [OptionName.isFor]
  have hset : ∀ name value, OptionName.isFor draft.command name = true →
      draft.setOption? value name = some next →
        (draft.asking file line).setOption? value name = some (next.asking file line) ∧
          next.command = some .specifications := by
    intro name value hfor hnext
    rw [setOption?_asking file line draft value (hfits name hfor).2, hnext]
    exact ⟨rfl, (fields_of_setOption? hnext).1.trans hcommand⟩
  cases h with
  | value hawaiting hnext =>
    obtain ⟨hasking, hsame⟩ := hset _ _ (hdraft.awaiting _ hawaiting) hnext
    exact ⟨.value hawaiting hasking, hsame⟩
  | plain hnone _ hplain =>
    unfold InvocationDraft.readPlain? at hplain
    rw [hcommand] at hplain
    cases hplain
  | attached hnone hfree hword hfor hnext =>
    obtain ⟨hasking, hsame⟩ := hset _ _ hfor hnext
    exact ⟨.attached hnone hfree hword (hfits _ hfor).1 hasking, hsame⟩
  | opened hnone hfree hword hfor => exact ⟨.opened hnone hfree hword (hfits _ hfor).1, hcommand⟩
  | endOfOptions hnone hfree hword => exact ⟨.endOfOptions hnone hfree hword, hcommand⟩

theorem foldlM_read?_asking {words : List String} (hdraft : draft.IsConsistent)
    (hcommand : draft.command = some .specifications) (h : words.foldlM InvocationDraft.read? draft = some next) :
    words.foldlM InvocationDraft.read? (draft.asking file line) = some (next.asking file line) ∧
      next.command = some .specifications := by
  induction words generalizing draft with
  | nil =>
    obtain rfl := Option.some.inj h
    exact ⟨rfl, hcommand⟩
  | cons word words ih =>
    rw [List.foldlM_cons] at h ⊢
    obtain ⟨after, hword, hrest⟩ := Option.bind_eq_some_iff.mp h
    have hreads := read?_eq_some_iff.mp hword
    obtain ⟨hasking, hsame⟩ := hreads.asking file line hdraft hcommand
    rw [read?_eq_some_iff.mpr hasking]
    exact ih (hreads.isConsistent hdraft) hsame hrest

theorem finish?_asking (hcommand : draft.command = some .specifications) :
    (draft.asking file line).finish? =
      draft.finish?.map fun invocation ↦ { invocation with command := some (.scenario ⟨file⟩ line) } := by
  obtain ⟨command, _, _, _, _, _, _, awaiting, _⟩ := draft
  obtain rfl : command = some .specifications := hcommand
  cases awaiting <;> rfl

end Asking

theorem command_of_finish? {invocation : Invocation} (hcommand : draft.command = some .specifications)
    (h : draft.finish? = some invocation) : invocation.command = some .specifications := by
  obtain ⟨command, _, _, _, _, _, _, awaiting, _⟩ := draft
  obtain rfl : command = some .specifications := hcommand
  cases awaiting <;> cases h
  rfl

/-- Words that are options of a project, each with its value. -/
def AreOptions (words : List String) : Prop :=
  ∃ draft, words.foldlM InvocationDraft.read? .empty = some draft ∧
    draft.command = none ∧ draft.awaiting = none ∧ draft.verbatim = false

section Ready

variable (hcommand : draft.command = none) (hawaiting : draft.awaiting = none) (hfree : draft.verbatim = false)

include hcommand hawaiting hfree

/-- Assumes: nothing but options before it. The name of a command is read as that. -/
theorem read?_command {command : CommandName} (hword : ArgumentWord.ofText text = .plain text)
    (hname : CommandName.ofWord? text = some command) :
    draft.read? text = some { draft with command := some command } := by
  refine read?_eq_some_iff.mpr (.plain hawaiting (.inr ⟨hfree, hword⟩) ?_)
  unfold readPlain?
  rw [hcommand, hname]
  rfl

/-- Assumes: nothing but options before them. The words that ask for a line of a file are read as that. -/
theorem foldlM_read?_scenario (hconsistent : draft.IsConsistent) {file : String}
    (habsolute : (Path.mk file).isAbsolute = true) {line : Nat} (hline : line < numberLimit) :
    ["scenario", file, "--line", toString line].foldlM InvocationDraft.read? draft =
      some (asking { draft with command := some .specifications } file line) := by
  have hother : draft.command ≠ some .scenario := by
    rw [hcommand]
    exact nofun
  have hscenario : draft.read? "scenario" = some { draft with command := some .scenario } :=
    read?_command hcommand hawaiting hfree (by decide) (by decide)
  have hfile : InvocationDraft.read? { draft with command := some .scenario } file =
      some { draft with command := some .scenario, file := some file } := by
    have hword : ArgumentWord.ofText file = .plain file := by
      obtain ⟨rest, hrest⟩ := List.head?_eq_some_iff.mp (beq_iff_eq.mp habsolute)
      unfold ArgumentWord.ofText
      rw [hrest]
      rfl
    refine read?_eq_some_iff.mpr (.plain hawaiting (.inr ⟨hfree, hword⟩) ?_)
    unfold readPlain?
    rw [hconsistent.file hother]
  have hoption : InvocationDraft.read? { draft with command := some .scenario, file := some file } "--line" =
      some { draft with command := some .scenario, file := some file, awaiting := some .line } :=
    read?_eq_some_iff.mpr (.opened hawaiting hfree (by decide) rfl)
  have hnumber : InvocationDraft.read?
      { draft with command := some .scenario, file := some file, awaiting := some .line } (toString line) =
        some (asking { draft with command := some .specifications } file line) := by
    refine read?_eq_some_iff.mpr (.value rfl ?_)
    unfold setOption? setOption?.setOnce
    rw [hconsistent.line hother, number?_toString hline, asking, hawaiting]
    rfl
  simp only [List.foldlM_cons, List.foldlM_nil, hscenario, hfile, hoption, hnumber, Option.bind_eq_bind,
    Option.bind_some]
  rfl

end Ready

end InvocationDraft

open InvocationDraft in
/-- Assumes: options, the command that lists the specifications, and what may follow it. These words ask for the
listing. With the words that ask for a line of a file in the place of the command they ask for that line, with the
same options. -/
theorem Invocation.parse?_specs {before after : List String} {invocation : Invocation}
    (hbefore : AreOptions before) (h : parse? (before ++ "specs" :: after) = some invocation) :
    invocation.command = some .specifications ∧
      ∀ (file : String) (line : Nat), (Path.mk file).isAbsolute = true → line < numberLimit →
        parse? (before ++ "scenario" :: file :: "--line" :: toString line :: after) =
          some { invocation with command := some (.scenario ⟨file⟩ line) } := by
  obtain ⟨draft, hread, hcommand, hawaiting, hfree⟩ := hbefore
  have hconsistent : draft.IsConsistent := isConsistent_empty.foldlM_read? hread
  have hlisting : draft.read? "specs" = some { draft with command := some .specifications } :=
    read?_command hcommand hawaiting hfree (by decide) (by decide)
  have hspecs : InvocationDraft.IsConsistent { draft with command := some .specifications } :=
    (read?_eq_some_iff.mp hlisting).isConsistent hconsistent
  obtain ⟨last, hlast, hfinish⟩ := Option.bind_eq_some_iff.mp h
  simp only [List.foldlM_append, List.foldlM_cons, hread, hlisting, Option.bind_eq_bind, Option.bind_some] at hlast
  refine ⟨command_of_finish? (foldlM_read?_asking "" 0 hspecs rfl hlast).2 hfinish,
    fun file line habsolute hline ↦ ?_⟩
  have hasking := foldlM_read?_scenario hcommand hawaiting hfree hconsistent habsolute hline
  obtain ⟨hafter, hsame⟩ := foldlM_read?_asking file line hspecs rfl hlast
  have hwords : (before ++ (["scenario", file, "--line", toString line] ++ after)).foldlM
      InvocationDraft.read? .empty = some (last.asking file line) := by
    simp only [List.foldlM_append, hread, hasking, hafter, Option.bind_eq_bind, Option.bind_some]
  calc parse? (before ++ "scenario" :: file :: "--line" :: toString line :: after)
      = (last.asking file line).finish? := congrArg (Option.bind · finish?) hwords
    _ = some { invocation with command := some (.scenario ⟨file⟩ line) } := by
        rw [finish?_asking file line hsame, hfinish]
        rfl

end LiveSpec
