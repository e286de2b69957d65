/-!
# White space and trimming

White space is the Unicode property `White_Space`: the ASCII controls from tab to carriage return,
the space, next line, the no-break space, the Ogham space mark, the typographic spaces U+2000 to
U+200A, the line and paragraph separators, the narrow no-break space, the medium mathematical space
and the ideographic space (`isBlank`). The information separators U+001C to U+001F, the Mongolian
vowel separator, the zero-width space and the byte order mark are not in it.

Trimming removes white space from both ends of a text and nothing else (`trim`). Texts are read
as lists of characters; `trimString` is the same on strings.
-/

set_option autoImplicit false

namespace LiveSpec.Text

/-- Whether a character has the Unicode property `White_Space`. -/
def isBlank (c : Char) : Bool :=
  let code := c.toNat
  (0x09 ≤ code && code ≤ 0x0D) || code == 0x20 || code == 0x85 || code == 0xA0 || code == 0x1680 ||
    (0x2000 ≤ code && code ≤ 0x200A) || code == 0x2028 || code == 0x2029 || code == 0x202F ||
    code == 0x205F || code == 0x3000

/-- The text without the white space that it starts with. -/
def trimStart (text : List Char) : List Char := text.dropWhile isBlank

/-- The text without the white space that it ends with. -/
def trimEnd (text : List Char) : List Char := (text.reverse.dropWhile isBlank).reverse

/-- The text without the white space at either end. -/
def trim (text : List Char) : List Char := trimEnd (trimStart text)

/-- `trim` on strings. -/
def trimString (text : String) : String := String.ofList (trim text.toList)

/-- A text that starts with something other than white space keeps its first character. -/
theorem trimStart_cons_of_not_blank {c : Char} {text : List Char} (h : isBlank c = false) :
    trimStart (c :: text) = c :: text := by
  simp [trimStart, h]

/-- What is left after trimming the start is empty or starts with no white space. -/
theorem head?_trimStart (text : List Char) : ∀ c ∈ (trimStart text).head?, isBlank c = false := by
  intro c hc
  have hnot := List.head?_dropWhile_not isBlank text
  rw [trimStart] at hc
  rw [Option.mem_def.mp hc] at hnot
  simpa using hnot

/-- A text that does not start with white space keeps its start. -/
theorem trimStart_of_head? {text : List Char} (h : ∀ c ∈ text.head?, isBlank c = false) :
    trimStart text = text := by
  cases text with
  | nil => rfl
  | cons c rest => exact trimStart_cons_of_not_blank (h c rfl)

theorem trimEnd_prefix (text : List Char) : trimEnd text <+: text := by
  have hsuffix : text.reverse.dropWhile isBlank <:+ text.reverse := List.dropWhile_suffix _
  simpa [trimEnd] using List.reverse_prefix.mpr hsuffix

/-- What is left after trimming is empty or starts with no white space. -/
theorem head?_trim (text : List Char) : ∀ c ∈ (trim text).head?, isBlank c = false := by
  intro c hc
  refine head?_trimStart text c ?_
  obtain ⟨rest, hrest⟩ := trimEnd_prefix (trimStart text)
  obtain ⟨tail, htail⟩ := List.head?_eq_some_iff.mp hc
  rw [trim] at htail
  rw [← hrest, htail]
  rfl

/-- What is left after trimming is empty or ends with no white space. -/
theorem getLast?_trim (text : List Char) : ∀ c ∈ (trim text).getLast?, isBlank c = false := by
  intro c hc
  rw [trim, trimEnd, List.getLast?_reverse] at hc
  exact head?_trimStart _ c hc

/-- Trimming changes nothing exactly where no white space stands at either end. -/
theorem trim_eq_self_iff {text : List Char} : trim text = text ↔
    (∀ c ∈ text.head?, isBlank c = false) ∧ ∀ c ∈ text.getLast?, isBlank c = false := by
  constructor
  · intro h
    rw [← h]
    exact ⟨head?_trim text, getLast?_trim text⟩
  · rintro ⟨hhead, hlast⟩
    have hback : trimStart text.reverse = text.reverse :=
      trimStart_of_head? (by rwa [List.head?_reverse])
    rw [trimStart] at hback
    rw [trim, trimStart_of_head? hhead, trimEnd, hback, List.reverse_reverse]

/-- Trimming twice is trimming once. -/
theorem trim_trim (text : List Char) : trim (trim text) = trim text :=
  trim_eq_self_iff.mpr ⟨head?_trim text, getLast?_trim text⟩

end LiveSpec.Text
