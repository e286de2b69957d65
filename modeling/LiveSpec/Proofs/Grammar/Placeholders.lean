import LiveSpec.Proofs.Grammar.Reading

/-!
# Placeholders and arguments

The signature of a step has a placeholder for every argument. It can have more: a pair of braces that is
written in the text outside of literals and references is copied into the signature and looks the same
(`ownPlaceholders`). Nothing else makes a placeholder, since a placeholder that stands for an argument
neither ends with an opening brace nor begins with a closing one. So the signature of every step that has
been read has one placeholder for each argument and one for each such pair (`Step.IsRead.isCounted`).
-/

set_option autoImplicit false

namespace LiveSpec

/-! ### Counting placeholders -/

/-- How many placeholders stand in a text. -/
def countPlaceholders : List Char → Nat
  | [] => 0
  | c :: rest => (if placeholder.toList <+: c :: rest then 1 else 0) + countPlaceholders rest

theorem placeholder_prefix_iff {c : Char} {rest : List Char} :
    placeholder.toList <+: c :: rest ↔ c = '\x7b' ∧ rest.head? = some '\x7d' := by
  cases rest <;> simp [placeholder, eq_comm]

/-- A character that is no opening brace adds no placeholder to what follows it. -/
theorem countPlaceholders_cons_of_ne {c : Char} {rest : List Char} (h : c ≠ '\x7b') :
    countPlaceholders (c :: rest) = countPlaceholders rest := by
  simp [countPlaceholders, placeholder_prefix_iff, h]

/-- No placeholder lies across a place that no closing brace follows. -/
theorem countPlaceholders_append {front rest : List Char} (h : rest.head? ≠ some '\x7d') :
    countPlaceholders (front ++ rest) = countPlaceholders front + countPlaceholders rest := by
  induction front with
  | nil => simp [countPlaceholders]
  | cons c front ih =>
    have hhead : placeholder.toList <+: c :: (front ++ rest) ↔ placeholder.toList <+: c :: front := by
      rw [placeholder_prefix_iff, placeholder_prefix_iff]
      cases front with
      | nil => simp [h]
      | cons => rfl
    rw [List.cons_append, countPlaceholders, countPlaceholders, ih, if_congr hhead rfl rfl]
    omega

/-- White space at the start makes no placeholder. -/
theorem countPlaceholders_trimStart (text : List Char) :
    countPlaceholders (Text.trimStart text) = countPlaceholders text := by
  induction text with
  | nil => rfl
  | cons c rest ih =>
    by_cases hblank : Text.isBlank c = true
    · have hne : c ≠ '\x7b' := by
        rintro rfl
        revert hblank
        decide
      rw [countPlaceholders_cons_of_ne hne, ← ih, Text.trimStart, List.dropWhile_cons_of_pos hblank]
      rfl
    · rw [Text.trimStart_cons_of_not_blank (by simpa using hblank)]

/-- White space at the end makes no placeholder. -/
theorem countPlaceholders_trimEnd (text : List Char) :
    countPlaceholders (Text.trimEnd text) = countPlaceholders text := by
  have hreverse : ∀ backwards : List Char,
      countPlaceholders (backwards.dropWhile Text.isBlank).reverse =
        countPlaceholders backwards.reverse := by
    intro backwards
    induction backwards with
    | nil => rfl
    | cons c rest ih =>
      by_cases hblank : Text.isBlank c = true
      · have hne : [c].head? ≠ some '\x7d' := by
          rintro hclosing
          obtain rfl := Option.some.inj hclosing
          revert hblank
          decide
        have hsingle : countPlaceholders [c] = 0 := by
          simp [countPlaceholders, placeholder_prefix_iff]
        rw [List.dropWhile_cons_of_pos hblank, ih, List.reverse_cons, countPlaceholders_append hne,
          hsingle, Nat.add_zero]
      · rw [List.dropWhile_cons_of_neg hblank]
  have hend := hreverse text.reverse
  rwa [List.reverse_reverse] at hend

theorem countPlaceholders_trim (text : List Char) :
    countPlaceholders (Text.trim text) = countPlaceholders text := by
  rw [Text.trim, countPlaceholders_trimEnd, countPlaceholders_trimStart]

/-! ### Pairs of braces in the text -/

namespace StepText

/-- How often an opening brace is directly followed by a closing one, both as characters that stand for
themselves. -/
def ownPairs : List Piece → Nat
  | [] => 0
  | piece :: rest =>
    (if piece = .plain '\x7b' ∧ rest.head? = some (.plain '\x7d') then 1 else 0) + ownPairs rest

/-- How many placeholders the text of a step has of its own: pairs of braces outside of literals and
references. A text that cannot be read has none. -/
def ownPlaceholders (text : String) : Nat :=
  match read .outside (Text.trim text.toList) with
  | .ok pieces => ownPairs pieces
  | .error _ => 0

/-- A closing brace comes first in the signature only if it comes first in the text. -/
theorem head?_flatMap_signature_iff {pieces : List Piece} :
    (pieces.flatMap Piece.signature).head? = some '\x7d' ↔ pieces.head? = some (.plain '\x7d') := by
  cases pieces with
  | nil => simp
  | cons piece rest => cases piece <;> simp [Piece.signature, placeholder]

/-- The placeholders of a signature are those for arguments and the own ones of the text. -/
theorem countPlaceholders_flatMap_signature (pieces : List Piece) :
    countPlaceholders (pieces.flatMap Piece.signature) =
      (pieces.filterMap Piece.argument?).length + ownPairs pieces := by
  induction pieces with
  | nil => rfl
  | cons piece rest ih =>
    have hargument : countPlaceholders (placeholder.toList ++ rest.flatMap Piece.signature) =
        countPlaceholders (rest.flatMap Piece.signature) + 1 := by
      have hclosing : countPlaceholders ('\x7d' :: rest.flatMap Piece.signature) =
          countPlaceholders (rest.flatMap Piece.signature) := countPlaceholders_cons_of_ne (by decide)
      rw [Nat.add_comm, ← hclosing]
      rfl
    cases piece with
    | plain c =>
      have hpair : placeholder.toList <+: c :: rest.flatMap Piece.signature ↔
          Piece.plain c = .plain '\x7b' ∧ rest.head? = some (.plain '\x7d') := by
        rw [placeholder_prefix_iff, head?_flatMap_signature_iff, Piece.plain.injEq]
      have hsignature : (Piece.plain c :: rest).flatMap Piece.signature =
          c :: rest.flatMap Piece.signature := rfl
      rw [hsignature, countPlaceholders, ih, if_congr hpair rfl rfl, ownPairs]
      simp only [List.filterMap_cons, Piece.argument?]
      omega
    | literal _ | reference _ =>
      simp only [List.flatMap_cons, Piece.signature, hargument, ih, ownPairs, List.filterMap_cons,
        Piece.argument?, List.length_cons, reduceCtorEq, false_and, if_false]
      omega

end StepText

/-! ### Steps that have been read -/

/-- The signature has one placeholder for each argument and one for each pair of braces in the text. -/
def Step.IsCounted (step : Step) : Prop :=
  countPlaceholders step.value.toList = step.arguments.length + StepText.ownPlaceholders step.text

/-- What is kept as the text of a step has the same placeholders of its own as the text it was read
from. -/
theorem StepText.ownPlaceholders_of_parse {text : String} {line : Nat} {step : Step}
    (h : StepText.parse text line = .ok step) : ownPlaceholders step.text = ownPlaceholders text := by
  obtain ⟨pieces, -, rfl⟩ := exists_pieces_of_parse h
  simp [ownPlaceholders, stepOfPieces, Step.written, Text.trim_trim]

theorem StepText.isCounted_of_parse {text : String} {line : Nat} {step : Step}
    (h : StepText.parse text line = .ok step) : step.IsCounted := by
  have hown := ownPlaceholders_of_parse h
  obtain ⟨pieces, hpieces, rfl⟩ := exists_pieces_of_parse h
  have hpairs : ownPlaceholders text = ownPairs pieces := by
    rw [ownPlaceholders, hpieces]
  rw [Step.IsCounted, hown, hpairs]
  simp only [stepOfPieces, Step.written, Line.content, String.toList_ofList, countPlaceholders_trim]
  exact countPlaceholders_flatMap_signature pieces

/-- A table that is attached is one more argument and one more placeholder. -/
theorem Step.IsCounted.addTable {step : Step} (h : step.IsCounted) (table : Table) :
    (step.addTable table).IsCounted := by
  have hvalue : (step.addTable table).value.toList =
      step.value.toList ++ ' ' :: placeholder.toList := by
    simp [Step.addTable]
  have hone : countPlaceholders (' ' :: placeholder.toList) = 1 := by decide
  rw [IsCounted, hvalue, countPlaceholders_append (by decide), hone, h]
  simp only [Step.addTable, List.length_append, List.length_singleton]
  omega

/-- A row below a step attaches a table or changes the last argument. -/
theorem Step.IsCounted.readRow {step changed : Step} {inTable : Bool} {cells : List String}
    {line : Nat} (h : step.IsCounted) (hread : step.readRow inTable cells line = .ok changed) :
    changed.IsCounted := by
  unfold Step.readRow at hread
  split at hread
  · rename_i table htable
    obtain ⟨extended, -, rfl⟩ := map_eq_ok_iff.mp hread
    have hlength : (step.setLastTable extended).arguments.length = step.arguments.length := by
      have hne : step.arguments ≠ [] := by
        rintro hnil
        simp [lastTable?, hnil] at htable
      have hpositive := List.length_pos_iff.mpr hne
      simp only [setLastTable, List.length_append, List.length_dropLast, List.length_singleton]
      omega
    rw [IsCounted, hlength]
    exact h
  · cases hread
    exact h.addTable _

/-- The signature of a step that has been read has one placeholder for each argument and one for each pair
of braces in its text. -/
theorem Step.IsRead.isCounted {step : Step} (h : step.IsRead) : step.IsCounted := by
  induction h with
  | ofText hparse => exact StepText.isCounted_of_parse hparse
  | withRow _ hrow ih => exact ih.readRow hrow

end LiveSpec
