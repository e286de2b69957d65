import LiveSpec.Proofs.Grammar.Reading
import Mathlib.Data.List.Basic

/-!
# How the pieces of a step are spelled

The text of a step is put together from the spellings of its pieces (`StepText.AreSpelled`). A plain
character is spelled by itself, a literal by its quoted text, in which a backslash makes the next character
part of the text (`StepText.Quotes`), and a reference by its name between brackets, with white space around
it. Exactly the texts that are put together in this way can be read, and what is read are the pieces
(`StepText.read_eq_ok_iff`), so a text consists of pieces in one way only.

The signature of the pieces begins and ends as the text does, or with a brace of a placeholder. So nothing
has to be trimmed from the signature of a trimmed text (`StepText.trim_signature`).

Pieces that can be written at all can be written with a backslash in front of every quote and backslash of a
literal, and with no white space around a name (`StepText.areSpelled_written`). Together this says from which
texts a step is read, and which one (`StepText.parse_spelled_and_written`).
-/

set_option autoImplicit false

namespace LiveSpec.StepText

/-! ### Spellings -/

/-- What may stand between the quotes of a literal, with the text that it means. A backslash makes the next
character part of the text, whatever it is; any other character but a quote stands for itself. -/
inductive Quotes : List Char → List Char → Prop
  | nil : Quotes [] []
  | plain {c : Char} {between text : List Char} (hquote : c ≠ '"') (hbackslash : c ≠ '\\')
    (h : Quotes between text) : Quotes (c :: between) (c :: text)
  | escaped {c : Char} {between text : List Char} (h : Quotes between text) :
    Quotes ('\\' :: c :: between) (c :: text)

/-- How a piece may be spelled. -/
inductive Piece.IsSpelled : Piece → List Char → Prop
  /-- A character stands for itself unless it opens a literal or a reference. -/
  | plain {c : Char} (hquote : c ≠ '"') (hbracket : c ≠ '<') : IsSpelled (.plain c) [c]
  /-- A literal ends at the first quote that is not made part of it. -/
  | literal {between text : List Char} (h : Quotes between text) :
    IsSpelled (.literal text) ('"' :: between ++ ['"'])
  /-- A reference ends at the first closing bracket. Its name is what is left after trimming. -/
  | reference {between : List Char} (hclosing : '>' ∉ between) (hname : Text.trim between ≠ []) :
    IsSpelled (.reference (Text.trim between)) ('<' :: between ++ ['>'])

/-- The text consists of spellings of the pieces, one after another. -/
inductive AreSpelled : List Piece → List Char → Prop
  | nil : AreSpelled [] []
  | cons {piece : Piece} {pieces : List Piece} {spelling rest : List Char}
    (hpiece : piece.IsSpelled spelling) (hrest : AreSpelled pieces rest) :
    AreSpelled (piece :: pieces) (spelling ++ rest)

/-! ### Reading -/

section Reading

variable {done text : List Char} {pieces : List Piece}

/-- A literal is read up to the quote that closes it. -/
theorem read_inLiteral {between : List Char} (h : Quotes between text) (done rest : List Char) :
    read (.inLiteral done) (between ++ '"' :: rest) =
      (read .outside rest).map (.literal (done.reverse ++ text) :: ·) := by
  induction h generalizing done with
  | nil => simp [read]
  | plain hquote hbackslash _ ih =>
    rw [List.cons_append, read, if_neg hquote, ih, List.reverse_cons, List.append_assoc]
    · rfl
    all_goals simp [hbackslash]
  | escaped _ ih =>
    rw [List.cons_append, List.cons_append, read, ih, List.reverse_cons, List.append_assoc]
    rfl

/-- A literal that can be read is closed by a quote. -/
theorem exists_quotes_of_read {done text : List Char} {pieces : List Piece}
    (h : read (.inLiteral done) text = .ok pieces) :
    ∃ between meant rest, text = between ++ '"' :: rest ∧ Quotes between meant := by
  match text with
  | [] => cases h
  | c :: tail =>
    by_cases hquote : c = '"'
    · exact ⟨[], [], tail, by rw [hquote]; rfl, .nil⟩
    by_cases hbackslash : c = '\\'
    -- A backslash is read together with the character behind it.
    · subst hbackslash
      match tail with
      | [] => cases h
      | escaped :: tail =>
        have htail : read (.inLiteral (escaped :: done)) tail = .ok pieces := h
        obtain ⟨between, meant, rest, rfl, hquotes⟩ := exists_quotes_of_read htail
        exact ⟨'\\' :: escaped :: between, escaped :: meant, rest, rfl, .escaped hquotes⟩
    · rw [read, if_neg hquote] at h
      · obtain ⟨between, meant, rest, rfl, hquotes⟩ := exists_quotes_of_read h
        exact ⟨c :: between, c :: meant, rest, rfl, .plain hquote hbackslash hquotes⟩
      all_goals simp [hbackslash]

/-- A reference is read up to the first closing bracket. -/
theorem read_inReference {between : List Char} (h : '>' ∉ between) (done rest : List Char) :
    read (.inReference done) (between ++ '>' :: rest) =
      if Text.trim (done.reverse ++ between) = [] then .error .referenceWithoutName
      else (read .outside rest).map (.reference (Text.trim (done.reverse ++ between)) :: ·) := by
  induction between generalizing done with
  | nil =>
    rw [List.nil_append, read, if_pos rfl, List.append_nil]
    cases Text.trim done.reverse <;> simp
  | cons c between ih =>
    rw [List.mem_cons, not_or] at h
    rw [List.cons_append, read, if_neg (Ne.symm h.1), ih h.2, List.reverse_cons, List.append_assoc]
    rfl

/-- A reference that can be read is closed by a bracket. -/
theorem mem_of_read_inReference (h : read (.inReference done) text = .ok pieces) : '>' ∈ text := by
  induction text generalizing done with
  | nil => cases h
  | cons c rest ih =>
    rw [read] at h
    split_ifs at h with hclosing
    · exact List.mem_cons.mpr (.inl hclosing.symm)
    · exact List.mem_cons_of_mem c (ih h)

/-- A text that can be read consists of spellings of the pieces that are read. -/
theorem areSpelled_of_read (h : read .outside text = .ok pieces) : AreSpelled pieces text := by
  induction hlength : text.length using Nat.strongRecOn generalizing text pieces with
  | _ _ ih =>
    subst hlength
    cases text with
    | nil =>
      cases h
      exact .nil
    | cons c tail =>
      rw [read] at h
      split_ifs at h with hquote hbracket
      · obtain ⟨between, meant, rest, rfl, hquotes⟩ := exists_quotes_of_read h
        rw [read_inLiteral hquotes] at h
        obtain ⟨others, hothers, rfl⟩ := map_eq_ok_iff.mp h
        have hrest := ih rest.length (by simp; omega) hothers rfl
        rw [hquote]
        simpa using AreSpelled.cons (.literal hquotes) hrest
      · obtain ⟨between, rest, rfl, hclosing⟩ :=
          List.eq_append_cons_of_mem (mem_of_read_inReference h)
        rw [read_inReference hclosing] at h
        split_ifs at h with hname
        obtain ⟨others, hothers, rfl⟩ := map_eq_ok_iff.mp h
        have hrest := ih rest.length (by simp; omega) hothers rfl
        rw [hbracket]
        simpa using AreSpelled.cons (.reference hclosing hname) hrest
      · obtain ⟨others, hothers, rfl⟩ := map_eq_ok_iff.mp h
        exact .cons (.plain hquote hbracket) (ih tail.length (by simp) hothers rfl)

/-- A text that consists of spellings is read as the pieces that are spelled. -/
theorem read_of_areSpelled (h : AreSpelled pieces text) : read .outside text = .ok pieces := by
  induction h with
  | nil => rfl
  | @cons piece pieces spelling rest hpiece _ ih =>
    cases hpiece with
    | plain hquote hbracket =>
      rw [List.singleton_append, read, if_neg hquote, if_neg hbracket, ih]
      rfl
    | literal hquotes =>
      have hread := read_inLiteral hquotes [] rest
      simp [read, hread, ih, Except.map]
    | reference hclosing hname =>
      have hread := read_inReference hclosing [] rest
      rw [List.reverse_nil, List.nil_append, if_neg hname] at hread
      simp [read, hread, ih, Except.map]

/-- A text is read as some pieces exactly when it consists of spellings of them. -/
theorem read_eq_ok_iff : read .outside text = .ok pieces ↔ AreSpelled pieces text :=
  ⟨areSpelled_of_read, read_of_areSpelled⟩

/-- A text consists of spellings in one way only. -/
theorem AreSpelled.unique {others : List Piece} (h : AreSpelled pieces text)
    (hothers : AreSpelled others text) : others = pieces :=
  Except.ok.inj ((read_of_areSpelled hothers).symm.trans (read_of_areSpelled h))

end Reading

/-! ### Signatures -/

section Signatures

variable {pieces : List Piece} {text : List Char}

/-- A piece that is a character begins and ends its signature as it does its spelling. The signature of any
other piece is the placeholder. -/
theorem Piece.IsSpelled.signature_eq {piece : Piece} {spelling : List Char}
    (h : piece.IsSpelled spelling) :
    spelling ≠ [] ∧ (piece.signature = spelling ∨ piece.signature = placeholder.toList) := by
  cases h with
  | plain => exact ⟨by simp, .inl rfl⟩
  | literal => exact ⟨by simp, .inr rfl⟩
  | reference => exact ⟨by simp, .inr rfl⟩

/-- The signature begins as the text does, or with a placeholder. -/
theorem AreSpelled.head?_signature (h : AreSpelled pieces text) :
    (pieces.flatMap Piece.signature).head? = text.head? ∨
      (pieces.flatMap Piece.signature).head? = some '\x7b' := by
  cases h with
  | nil => exact .inl rfl
  | cons hpiece _ =>
    obtain ⟨hne, hsame | hargument⟩ := hpiece.signature_eq
    · rw [List.flatMap_cons, hsame, List.head?_append_of_ne_nil _ hne, List.head?_append_of_ne_nil _ hne]
      exact .inl rfl
    · rw [List.flatMap_cons, hargument]
      exact .inr rfl

/-- The signature ends as the text does, or with a placeholder. -/
theorem AreSpelled.getLast?_signature (h : AreSpelled pieces text) :
    (pieces.flatMap Piece.signature).getLast? = text.getLast? ∨
      (pieces.flatMap Piece.signature).getLast? = some '\x7d' := by
  induction h with
  | nil => exact .inl rfl
  | @cons piece pieces spelling rest hpiece _ ih =>
    rw [List.flatMap_cons, List.getLast?_append, List.getLast?_append]
    rcases ih with hrest | hrest
    · rw [hrest]
      cases rest.getLast? with
      | some c => exact .inl rfl
      | none =>
        obtain ⟨-, hsame | hargument⟩ := hpiece.signature_eq
        · rw [hsame]
          exact .inl rfl
        · rw [hargument]
          exact .inr rfl
    · rw [hrest]
      exact .inr rfl

/-- There is nothing to trim from the signature of a trimmed text. -/
theorem trim_signature (h : AreSpelled pieces text) (htrimmed : Text.trim text = text) :
    Text.trim (pieces.flatMap Piece.signature) = pieces.flatMap Piece.signature := by
  obtain ⟨hhead, hlast⟩ := Text.trim_eq_self_iff.mp htrimmed
  refine Text.trim_eq_self_iff.mpr ⟨fun c hc ↦ ?_, fun c hc ↦ ?_⟩
  · rcases h.head?_signature with hsame | hbrace
    · exact hhead c (hsame ▸ hc)
    · obtain rfl := Option.some.inj (hbrace.symm.trans hc)
      decide
  · rcases h.getLast?_signature with hsame | hbrace
    · exact hlast c (hsame ▸ hc)
    · obtain rfl := Option.some.inj (hbrace.symm.trans hc)
      decide

/-- Assumes: a trimmed text. The step with its pieces has them as its signature, with nothing trimmed. -/
theorem stepOfPieces_eq (h : AreSpelled pieces text) (htrimmed : Text.trim text = text) (line : Nat) :
    stepOfPieces pieces text line =
      .written (String.ofList (pieces.flatMap Piece.signature)) (String.ofList text) line
        (pieces.filterMap Piece.argument?) := by
  rw [stepOfPieces, Line.content, trim_signature h htrimmed]

/-- A text is read as a step exactly when something is left of it after trimming and consists of spellings
of pieces, which make the step. -/
theorem parse_eq_ok_iff {text : String} {line : Nat} {step : Step} :
    parse text line = .ok step ↔ Text.trim text.toList ≠ [] ∧ ∃ pieces,
      AreSpelled pieces (Text.trim text.toList) ∧
        step = .written (String.ofList (pieces.flatMap Piece.signature)) (Text.trimString text) line
          (pieces.filterMap Piece.argument?) := by
  have hparse : parse text line = .ok step ↔ Text.trim text.toList ≠ [] ∧
      (read .outside (Text.trim text.toList)).map
        (fun pieces ↦ stepOfPieces pieces (Text.trim text.toList) line) = .ok step := by
    unfold parse
    cases Text.trim text.toList <;> simp
  rw [hparse, map_eq_ok_iff]
  refine and_congr_right fun _ ↦ exists_congr fun pieces ↦ ?_
  rw [read_eq_ok_iff]
  refine and_congr_right fun hpieces ↦ ?_
  rw [stepOfPieces_eq hpieces (Text.trim_trim _), eq_comm]
  rfl

end Signatures

/-! ### Writing -/

/-- A piece that can be written: a plain character opens nothing, and a name is not blank, has no white space
around it and does not close its brackets. Every literal can be written. A longer plain text is several
pieces. -/
def Piece.IsWritable : Piece → Prop
  | plain character => character ≠ '"' ∧ character ≠ '<'
  | literal _ => True
  | reference name => '>' ∉ name ∧ name ≠ [] ∧ Text.trim name = name

instance : DecidablePred Piece.IsWritable
  | .plain character => inferInstanceAs (Decidable (character ≠ '"' ∧ character ≠ '<'))
  | .literal _ => inferInstanceAs (Decidable True)
  | .reference name =>
    inferInstanceAs (Decidable ('>' ∉ name ∧ name ≠ [] ∧ Text.trim name = name))

/-- A quoted text means the text. -/
theorem quotes_quote (text : List Char) : Quotes (quote text) text := by
  induction text with
  | nil => exact .nil
  | cons c text ih =>
    rw [quote]
    split_ifs with hmarked
    · exact .escaped ih
    · rw [not_or] at hmarked
      exact .plain hmarked.1 hmarked.2 ih

theorem Piece.IsWritable.isSpelled_written {piece : Piece} (h : piece.IsWritable) :
    piece.IsSpelled piece.written := by
  cases piece with
  | plain character => exact .plain h.1 h.2
  | literal text => exact .literal (quotes_quote text)
  | reference name =>
    obtain ⟨hclosing, hne, htrimmed⟩ := h
    have hspelled := IsSpelled.reference hclosing (by rwa [htrimmed])
    rwa [htrimmed] at hspelled

/-- Pieces that can be written are spelled as they are written. -/
theorem areSpelled_written {pieces : List Piece} (h : ∀ piece ∈ pieces, piece.IsWritable) :
    AreSpelled pieces (pieces.flatMap Piece.written) := by
  induction pieces with
  | nil => exact .nil
  | cons piece pieces ih =>
    rw [List.forall_mem_cons] at h
    exact .cons h.1.isSpelled_written (ih h.2)

/-- A text can be read as a step exactly when it is not blank and, trimmed, consists of spellings of pieces.
The step keeps the trimmed text. Its arguments are the literals and references in order, and its signature is
the text with the placeholder for each of them; nothing has to be trimmed from it. Pieces that can be written,
with no white space at either end of what is written, are read from it again, and no others are. -/
theorem parse_spelled_and_written :
    (∀ (text : String) (line : Nat), (∃ step, parse text line = .ok step) ↔
      Text.trim text.toList ≠ [] ∧ ∃ pieces, AreSpelled pieces (Text.trim text.toList)) ∧
    (∀ (text : String) (line : Nat) (pieces : List Piece), Text.trim text.toList ≠ [] →
      AreSpelled pieces (Text.trim text.toList) →
        parse text line = .ok (.written (String.ofList (pieces.flatMap Piece.signature))
          (Text.trimString text) line (pieces.filterMap Piece.argument?))) ∧
    ∀ (pieces : List Piece) (line : Nat), pieces ≠ [] → (∀ piece ∈ pieces, piece.IsWritable) →
      (∀ c ∈ (pieces.flatMap Piece.written).head?, Text.isBlank c = false) →
      (∀ c ∈ (pieces.flatMap Piece.written).getLast?, Text.isBlank c = false) →
        parse (String.ofList (pieces.flatMap Piece.written)) line =
          .ok (.written (String.ofList (pieces.flatMap Piece.signature))
            (String.ofList (pieces.flatMap Piece.written)) line (pieces.filterMap Piece.argument?)) ∧
        ∀ others, AreSpelled others (pieces.flatMap Piece.written) → others = pieces := by
  refine ⟨fun text line ↦ ?_, fun text line pieces hne hpieces ↦ ?_,
    fun pieces line hne hwritable hhead hlast ↦ ?_⟩
  · constructor
    · rintro ⟨step, hstep⟩
      obtain ⟨hne, pieces, hpieces, -⟩ := parse_eq_ok_iff.mp hstep
      exact ⟨hne, pieces, hpieces⟩
    · rintro ⟨hne, pieces, hpieces⟩
      exact ⟨_, parse_eq_ok_iff.mpr ⟨hne, pieces, hpieces, rfl⟩⟩
  · exact parse_eq_ok_iff.mpr ⟨hne, pieces, hpieces, rfl⟩
  · have hspelled := areSpelled_written hwritable
    have htrimmed : Text.trim (pieces.flatMap Piece.written) = pieces.flatMap Piece.written :=
      Text.trim_eq_self_iff.mpr ⟨hhead, hlast⟩
    have hwritten : pieces.flatMap Piece.written ≠ [] := by
      intro hnil
      rw [hnil] at hspelled
      exact hne (hspelled.unique .nil).symm
    refine ⟨parse_eq_ok_iff.mpr ⟨?_, pieces, ?_, ?_⟩, fun others hothers ↦ hspelled.unique hothers⟩
    · rwa [String.toList_ofList, htrimmed]
    · rwa [String.toList_ofList, htrimmed]
    · rw [Text.trimString, String.toList_ofList, htrimmed]

/-- Pieces that are spelled in more than one way. -/
def sayPieces : List Piece :=
  [.plain 'S', .plain 'a', .plain 'y', .plain ' ', .literal ['a', '"', '>'], .plain ' ',
    .reference ['m', 'e']]

/-- They are read from a spelling with needless white space and a needless backslash, and from what is
written. -/
theorem parse_spelled_and_written_say :
    let text := " Say \"a\\\"\\>\" < me > "
    Text.trim text.toList ≠ [] ∧ AreSpelled sayPieces (Text.trim text.toList) ∧
      (∃ step, parse text 3 = .ok step) ∧
      parse text 3 = .ok (.written "Say \x7b\x7d \x7b\x7d" "Say \"a\\\"\\>\" < me >" 3
        [.static "a\">", .dynamic "me"]) ∧
      sayPieces ≠ [] ∧ (∀ piece ∈ sayPieces, piece.IsWritable) ∧
      parse "Say \"a\\\">\" <me>" 3 = .ok (.written "Say \x7b\x7d \x7b\x7d" "Say \"a\\\">\" <me>" 3
        [.static "a\">", .dynamic "me"]) := by
  have hne : Text.trim " Say \"a\\\"\\>\" < me > ".toList ≠ [] := by decide
  have hspelled : AreSpelled sayPieces (Text.trim " Say \"a\\\"\\>\" < me > ".toList) :=
    read_eq_ok_iff.mp (by decide +kernel)
  have hwritable : ∀ piece ∈ sayPieces, piece.IsWritable := by decide
  have hhead : ∀ c ∈ (sayPieces.flatMap Piece.written).head?, Text.isBlank c = false := by
    rintro c ⟨⟩
    decide
  have hlast : ∀ c ∈ (sayPieces.flatMap Piece.written).getLast?, Text.isBlank c = false := by
    rintro c ⟨⟩
    decide
  obtain ⟨hreads, hspells, hwrites⟩ := parse_spelled_and_written
  obtain ⟨hwritten, -⟩ := hwrites sayPieces 3 (by decide) hwritable hhead hlast
  exact ⟨hne, hspelled, (hreads _ 3).mpr ⟨hne, sayPieces, hspelled⟩,
    (hspells _ 3 sayPieces hne hspelled).trans (by decide +kernel), by decide, hwritable, hwritten⟩

end LiveSpec.StepText
