import LiveSpec.Proofs.Grammar.Placeholders
import LiveSpec.Proofs.Grammar.Spelling

/-!
# Signatures shown with their arguments

A signature consists of slots: its own characters, and places for the arguments of the step (`Slot`). The
slots of a step that has been read are those of the pieces of its text, and those of its tables
(`Step.HasSlots`). With every argument in its own place the signature would be what the slots show
(`Slot.shown`).

It is shown by putting each argument in the place of the first placeholder that is left, so an argument gets
into its own place only if nothing shown in front of it looks like a placeholder (`Slot.ComeFirst`). Otherwise
the argument gets in front of its place, and the opening bracket that stands there from then on makes a
difference that no later argument can undo (`fillAll_ne`). So a step is shown with its arguments in their
places exactly when no pair of braces is shown before the last of them
(`StepText.parameterized_eq_shown_iff`): neither one of the text's own nor one in an argument.
-/

set_option autoImplicit false

namespace LiveSpec

/-! ### Slots -/

/-- A character of a signature, or the place of an argument. -/
inductive Slot where
  | own (character : Char)
  | place (argument : Argument)
  deriving DecidableEq, Repr, Inhabited

namespace Slot

/-- What a slot contributes to the signature. -/
def signature : Slot → List Char
  | own character => [character]
  | place _ => placeholder.toList

/-- What a slot contributes to the signature when it is shown with the arguments in their places. -/
def shown : Slot → List Char
  | own character => [character]
  | place argument => bracketed argument.shown

/-- The argument that belongs into a slot, if one does. -/
def argument? : Slot → Option Argument
  | own _ => none
  | place argument => some argument

/-- No pair of braces is shown in front of the place of an argument. -/
def ComeFirst (slots : List Slot) : Prop :=
  ∀ front argument back, slots = front ++ .place argument :: back →
    countPlaceholders (front.flatMap shown) = 0

end Slot

/-- The slot of a piece of the text. -/
def StepText.Piece.slot : Piece → Slot
  | plain character => .own character
  | literal text => .place (.static (String.ofList text))
  | reference name => .place (.dynamic (String.ofList name))

/-- The slots that a table adds. -/
def Table.slots (table : Table) : List Slot := [.own ' ', .place (.table table)]

/-- The signature and the arguments of a step are those of its slots. -/
structure Step.HasSlots (step : Step) (slots : List Slot) : Prop where
  value_eq : step.value.toList = slots.flatMap Slot.signature
  arguments_eq : step.arguments = slots.filterMap Slot.argument?

/-- A step that is made of the pieces of a text has their slots. -/
theorem StepText.hasSlots_written (pieces : List Piece) (text : String) (line : Nat) :
    (Step.written (String.ofList (pieces.flatMap Piece.signature)) text line
      (pieces.filterMap Piece.argument?)).HasSlots (pieces.map Piece.slot) := by
  constructor
  · simp only [Step.written, String.toList_ofList, List.flatMap_map]
    exact congrArg (pieces.flatMap ·) (funext fun piece ↦ by cases piece <;> rfl)
  · simp only [Step.written, List.filterMap_map]
    exact congrArg (pieces.filterMap ·) (funext fun piece ↦ by cases piece <;> rfl)

/-- A table that is attached adds a space and a place. -/
theorem Step.HasSlots.addTable {step : Step} {slots : List Slot} (h : step.HasSlots slots) (table : Table) :
    (step.addTable table).HasSlots (slots ++ table.slots) := by
  constructor
  · simp [Step.addTable, h.value_eq, Table.slots, Slot.signature]
  · rw [List.filterMap_append, ← h.arguments_eq]
    rfl

theorem Step.HasSlots.addTables {step : Step} {slots : List Slot} (h : step.HasSlots slots)
    (tables : List Table) :
    (tables.foldl Step.addTable step).HasSlots (slots ++ tables.flatMap Table.slots) := by
  induction tables generalizing step slots with
  | nil => simpa using h
  | cons table rest ih => simpa using ih (h.addTable table)

/-! ### Filling one placeholder -/

section Filling

variable {c : Char} {front rest filling : List Char}

theorem countPlaceholders_cons_eq_zero_iff : countPlaceholders (c :: rest) = 0 ↔
    ¬ placeholder.toList <+: c :: rest ∧ countPlaceholders rest = 0 := by
  rw [countPlaceholders]
  split_ifs with hstarts <;> simp [hstarts]

theorem fillFirstPlaceholder_cons (h : ¬ placeholder.toList <+: c :: rest) :
    fillFirstPlaceholder filling (c :: rest) = c :: fillFirstPlaceholder filling rest := by
  rw [placeholder_prefix_iff] at h
  rw [fillFirstPlaceholder]
  rintro tail rfl rfl
  exact h ⟨rfl, rfl⟩

/-- A placeholder that no other stands before is the one that is filled. -/
theorem fillFirstPlaceholder_append (h : countPlaceholders front = 0) :
    fillFirstPlaceholder filling (front ++ (placeholder.toList ++ rest)) =
      front ++ (filling ++ rest) := by
  induction front with
  | nil => rfl
  | cons c front ih =>
    obtain ⟨hfirst, hlater⟩ := countPlaceholders_cons_eq_zero_iff.mp h
    have hnot : ¬ placeholder.toList <+: c :: (front ++ (placeholder.toList ++ rest)) := by
      rw [placeholder_prefix_iff] at hfirst ⊢
      cases front with
      | nil => simp [placeholder]
      | cons => exact hfirst
    rw [List.cons_append, fillFirstPlaceholder_cons hnot, ih hlater, List.cons_append]

/-- Filling does not change what stands up to an opening bracket and has no placeholder. -/
theorem exists_fillFirstPlaceholder_eq (h : countPlaceholders front = 0) (filling rest : List Char) :
    ∃ changed, fillFirstPlaceholder filling (front ++ '<' :: rest) = front ++ '<' :: changed := by
  induction front with
  | nil =>
    have hnot : ¬ placeholder.toList <+: '<' :: rest := by simp [placeholder_prefix_iff]
    exact ⟨_, fillFirstPlaceholder_cons hnot⟩
  | cons c front ih =>
    obtain ⟨hfirst, hlater⟩ := countPlaceholders_cons_eq_zero_iff.mp h
    have hnot : ¬ placeholder.toList <+: c :: (front ++ '<' :: rest) := by
      rw [placeholder_prefix_iff] at hfirst ⊢
      cases front with
      | nil => simp
      | cons => exact hfirst
    obtain ⟨changed, hchanged⟩ := ih hlater
    exact ⟨changed, by rw [List.cons_append, fillFirstPlaceholder_cons hnot, hchanged, List.cons_append]⟩

/-- A text with placeholders has a first one. -/
theorem exists_first_placeholder (h : countPlaceholders front ≠ 0) :
    ∃ before after, front = before ++ (placeholder.toList ++ after) ∧ countPlaceholders before = 0 := by
  induction front with
  | nil => exact absurd rfl h
  | cons c front ih =>
    by_cases hfirst : placeholder.toList <+: c :: front
    · obtain ⟨after, hafter⟩ := hfirst
      exact ⟨[], after, hafter.symm, rfl⟩
    · have hlater : countPlaceholders front ≠ 0 :=
        fun hnone ↦ h (countPlaceholders_cons_eq_zero_iff.mpr ⟨hfirst, hnone⟩)
      obtain ⟨before, after, rfl, hbefore⟩ := ih hlater
      refine ⟨c :: before, after, rfl, countPlaceholders_cons_eq_zero_iff.mpr ⟨?_, hbefore⟩⟩
      exact fun hstarts ↦ hfirst (hstarts.trans (List.prefix_append (c :: before) _))

end Filling

/-! ### Filling one placeholder after another -/

/-- Puts texts in the places of the first placeholders, one after another. -/
def fillAll (texts : List String) (text : List Char) : List Char :=
  texts.foldl (fun shown filling ↦ fillFirstPlaceholder (bracketed filling) shown) text

theorem exists_fillAll_eq {front : List Char} (h : countPlaceholders front = 0) (texts : List String)
    (rest : List Char) : ∃ changed, fillAll texts (front ++ '<' :: rest) = front ++ '<' :: changed := by
  induction texts generalizing rest with
  | nil => exact ⟨rest, rfl⟩
  | cons filling texts ih =>
    obtain ⟨changed, hchanged⟩ := exists_fillFirstPlaceholder_eq h (bracketed filling) rest
    rw [fillAll, List.foldl_cons, hchanged]
    exact ih changed

/-- Assumes: a text with a placeholder in front. The first filling gets there, and whatever is filled later,
the front is not as it was. -/
theorem fillAll_ne {front : List Char} (h : countPlaceholders front ≠ 0) (filling : String)
    (texts : List String) (rest other : List Char) :
    fillAll (filling :: texts) (front ++ rest) ≠ front ++ other := by
  obtain ⟨before, after, rfl, hbefore⟩ := exists_first_placeholder h
  have hfirst : fillFirstPlaceholder (bracketed filling) (before ++ (placeholder.toList ++ after) ++ rest) =
      before ++ '<' :: (filling.toList ++ '>' :: (after ++ rest)) := by
    rw [List.append_assoc, List.append_assoc, fillFirstPlaceholder_append hbefore]
    simp [bracketed]
  obtain ⟨changed, hchanged⟩ :=
    exists_fillAll_eq hbefore texts (filling.toList ++ '>' :: (after ++ rest))
  rw [fillAll, List.foldl_cons, hfirst]
  rw [fillAll] at hchanged
  rw [hchanged, List.append_assoc]
  intro hsame
  have hbrace := List.head_eq_of_cons_eq (List.append_cancel_left hsame)
  revert hbrace
  decide

/-- What is asked of the places behind a slot and of the slot itself. -/
theorem forall_cons_eq_append_iff {slot : Slot} {slots : List Slot} {motive : List Slot → Prop} :
    (∀ front argument back, slot :: slots = front ++ .place argument :: back → motive front) ↔
      (∀ argument, slot = .place argument → motive []) ∧
        ∀ front argument back, slots = front ++ .place argument :: back → motive (slot :: front) := by
  constructor
  · refine fun h ↦ ⟨fun argument hslot ↦ ?_, fun front argument back hslots ↦ ?_⟩
    · exact h [] argument slots (by rw [hslot]; rfl)
    · exact h (slot :: front) argument back (by rw [hslots]; rfl)
  · rintro ⟨hfirst, hlater⟩ front argument back hsplit
    cases front with
    | nil => exact hfirst argument (List.head_eq_of_cons_eq hsplit)
    | cons other front =>
      obtain ⟨rfl, hslots⟩ := List.cons_eq_cons.mp hsplit
      exact hlater front argument back hslots

/-- Behind what is shown already, the arguments get into their places exactly when no pair of braces is shown
in front of one. -/
theorem fillAll_eq_iff (slots : List Slot) (front : List Char) :
    fillAll ((slots.filterMap Slot.argument?).map Argument.shown)
        (front ++ slots.flatMap Slot.signature) = front ++ slots.flatMap Slot.shown ↔
      ∀ before argument after, slots = before ++ .place argument :: after →
        countPlaceholders (front ++ before.flatMap Slot.shown) = 0 := by
  induction slots generalizing front with
  | nil => simp [fillAll]
  | cons slot slots ih =>
    have hshown : ∀ before : List Slot, front ++ (slot :: before).flatMap Slot.shown =
        (front ++ slot.shown) ++ before.flatMap Slot.shown := by
      intro before
      rw [List.flatMap_cons, List.append_assoc]
    simp only [forall_cons_eq_append_iff, hshown, ← ih]
    cases slot with
    | own character => simp [List.filterMap_cons, Slot.argument?, Slot.signature, Slot.shown]
    | place argument =>
      have hsignature : front ++ (Slot.place argument :: slots).flatMap Slot.signature =
          front ++ (placeholder.toList ++ slots.flatMap Slot.signature) := rfl
      have htexts : ((Slot.place argument :: slots).filterMap Slot.argument?).map Argument.shown =
          argument.shown :: (slots.filterMap Slot.argument?).map Argument.shown := rfl
      rw [hsignature, htexts]
      by_cases hfront : countPlaceholders front = 0
      · rw [fillAll, List.foldl_cons, fillFirstPlaceholder_append hfront]
        simp [fillAll, Slot.shown, hfront]
      · refine iff_of_false ?_ fun h ↦ hfront (by simpa using h.1 argument rfl)
        rw [List.append_assoc]
        exact fillAll_ne hfront _ _ _ _

/-- A signature is shown with the arguments in their places exactly when no pair of braces is shown in front
of one. -/
theorem Step.HasSlots.parameterized_eq_iff {step : Step} {slots : List Slot} (h : step.HasSlots slots) :
    (StepSignature.ofStep step).parameterized.toList = slots.flatMap Slot.shown ↔
      Slot.ComeFirst slots := by
  have hfill : (StepSignature.ofStep step).parameterized.toList =
      fillAll ((slots.filterMap Slot.argument?).map Argument.shown)
        ([] ++ slots.flatMap Slot.signature) := by
    rw [← h.arguments_eq, List.nil_append, ← h.value_eq]
    exact String.toList_ofList
  rw [hfill]
  exact fillAll_eq_iff slots []

/-- Assumes: a step that has been read from a text, with any tables. It has the slots of the pieces that the text
consists of and those of the tables, and it is shown with every argument in its own place exactly when no pair
of braces is shown in front of one. -/
theorem StepText.parameterized_eq_shown_iff {text : String} {line : Nat} {step : Step}
    (h : parse text line = .ok step) (tables : List Table) :
    ∃ pieces, AreSpelled pieces (Text.trim text.toList) ∧
      let slots := pieces.map Piece.slot ++ tables.flatMap Table.slots
      let full := tables.foldl Step.addTable step
      full.value.toList = slots.flatMap Slot.signature ∧
        full.arguments = slots.filterMap Slot.argument? ∧
        ((StepSignature.ofStep full).parameterized.toList = slots.flatMap Slot.shown ↔
          ∀ front argument back, slots = front ++ .place argument :: back →
            countPlaceholders (front.flatMap Slot.shown) = 0) := by
  obtain ⟨-, pieces, hpieces, rfl⟩ := parse_eq_ok_iff.mp h
  have hslots := (hasSlots_written pieces (Text.trimString text) line).addTables tables
  exact ⟨pieces, hpieces, hslots.value_eq, hslots.arguments_eq, hslots.parameterized_eq_iff⟩

/-- The pieces of a step with braces in its last literal. -/
def sayBracesPieces : List StepText.Piece :=
  [.plain 'S', .plain 'a', .plain 'y', .plain ' ', .reference ['w', 'h', 'o'], .plain ' ',
    .literal ['\x7b', '\x7d']]

/-- Braces in the last argument of the text do harm as soon as a table follows it. -/
theorem StepText.parameterized_eq_shown_iff_say :
    let text := "Say <who> \"\x7b\x7d\""
    let step := Step.written "Say \x7b\x7d \x7b\x7d" text 1 [.dynamic "who", .static "\x7b\x7d"]
    let table : Table := ⟨["name"], [], 2⟩
    parse text 1 = .ok step ∧
      (StepSignature.ofStep step).parameterized = "Say <who> <\x7b\x7d>" ∧
      Slot.ComeFirst (sayBracesPieces.map Piece.slot) ∧
      (StepSignature.ofStep (step.addTable table)).parameterized = "Say <who> <<table>> \x7b\x7d" ∧
      ¬ Slot.ComeFirst (sayBracesPieces.map Piece.slot ++ table.slots) := by
  intro text step table
  have hparse : parse text 1 = .ok step := by decide +kernel
  have hspelled : AreSpelled sayBracesPieces (Text.trim text.toList) := read_eq_ok_iff.mp (by decide +kernel)
  have halone : (StepSignature.ofStep step).parameterized = "Say <who> <\x7b\x7d>" := by decide +kernel
  have hwith : (StepSignature.ofStep (step.addTable table)).parameterized =
      "Say <who> <<table>> \x7b\x7d" := by decide +kernel
  obtain ⟨pieces, hpieces, -, -, hiff⟩ := parameterized_eq_shown_iff hparse []
  obtain ⟨others, hothers, -, -, hiffTable⟩ := parameterized_eq_shown_iff hparse [table]
  obtain rfl := hspelled.unique hpieces
  obtain rfl := hspelled.unique hothers
  refine ⟨hparse, halone, ?_, hwith, fun hcome ↦ ?_⟩
  · exact hiff.mp (by rw [List.foldl_nil, halone]; decide)
  · have hshown := hiffTable.mpr hcome
    rw [List.foldl_cons, List.foldl_nil, hwith] at hshown
    revert hshown
    decide

/-- The pieces of a step with braces in its first literal. -/
def setBracesPieces : List StepText.Piece :=
  [.plain 'S', .plain 'e', .plain 't', .plain ' ', .literal ['\x7b', '\x7d'], .plain ' ', .plain 't',
    .plain 'o', .plain ' ', .literal ['x']]

/-- Braces in the first literal take the place of the second one: it is shown inside of the first, and its own
place is left as it is. -/
theorem StepText.exists_shown_out_of_place_set :
    let text := "Set \"\x7b\x7d\" to \"x\""
    let step := Step.written "Set \x7b\x7d to \x7b\x7d" text 1 [.static "\x7b\x7d", .static "x"]
    parse text 1 = .ok step ∧ AreSpelled setBracesPieces (Text.trim text.toList) ∧
      String.ofList ((setBracesPieces.map Piece.slot).flatMap Slot.shown) = "Set <\x7b\x7d> to <x>" ∧
      (StepSignature.ofStep step).parameterized = "Set <<x>> to \x7b\x7d" ∧
      (StepSignature.ofStep step).parameterized.toList ≠
        (setBracesPieces.map Piece.slot).flatMap Slot.shown := by
  intro text step
  have hshown : (StepSignature.ofStep step).parameterized = "Set <<x>> to \x7b\x7d" := by decide +kernel
  refine ⟨by decide +kernel, read_eq_ok_iff.mp (by decide +kernel), by decide +kernel, hshown, ?_⟩
  rw [hshown]
  decide

end LiveSpec
