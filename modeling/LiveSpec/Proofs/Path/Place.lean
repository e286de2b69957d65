import LiveSpec.Disk.Tree
import Mathlib.Data.List.Basic

/-!
# Places and the paths that spell them

The name of an entry is a text without slashes that is not empty and stands for no other step of a path
(`IsFileName`). A place that consists of such names is read back from the path that spells it, because texts
without slashes are the fields of the text in which slashes join them (`Text.fields_intercalate`). The
path has the names as its components (`Path.location_ofPlace`), so places whose paths are the same key are
the same (`Path.ofPlace_congr`), and it is followed through nothing but the names (`Path.steps_ofPlace`). To
add a name to the path is to add it to the place (`Path.child_ofPlace`).
-/

set_option autoImplicit false

namespace LiveSpec

/-! ### Fields -/

namespace Text

variable {separator : Char}

theorem fields_separator (separator : Char) (text : List Char) :
    fields separator (separator :: text) = [] :: fields separator text := by
  rw [fields_cons]
  exact if_pos rfl

theorem fields_cons_of_ne {c : Char} {text field : List Char} {rest : List (List Char)}
    (hc : c ≠ separator) (h : fields separator text = field :: rest) :
    fields separator (c :: text) = (c :: field) :: rest := by
  rw [fields_cons, h]
  exact if_neg hc

theorem fields_of_not_mem {text : List Char} (h : separator ∉ text) : fields separator text = [text] := by
  induction text with
  | nil => rfl
  | cons c text ih =>
    rw [List.mem_cons, not_or] at h
    exact fields_cons_of_ne (Ne.symm h.1) (ih h.2)

theorem fields_append {front : List Char} (h : separator ∉ front) (rest : List Char) :
    fields separator (front ++ separator :: rest) = front :: fields separator rest := by
  induction front with
  | nil => exact fields_separator separator rest
  | cons c front ih =>
    rw [List.mem_cons, not_or] at h
    exact fields_cons_of_ne (Ne.symm h.1) (ih h.2)

/-- Texts without separators are the fields of the text in which they are joined. -/
theorem fields_intercalate {texts : List (List Char)} (hne : texts ≠ [])
    (h : ∀ text ∈ texts, separator ∉ text) : fields separator ([separator].intercalate texts) = texts := by
  induction texts with
  | nil => exact absurd rfl hne
  | cons first rest ih =>
    have hfirst := h first List.mem_cons_self
    cases rest with
    | nil => rw [List.intercalate_singleton, fields_of_not_mem hfirst]
    | cons second rest =>
      rw [List.intercalate_cons_cons, List.append_assoc, List.singleton_append, fields_append hfirst,
        ih (List.cons_ne_nil second rest) fun text htext ↦ h text (List.mem_cons_of_mem first htext)]

end Text

/-! ### Names -/

/-- A text that can be the name of an entry. -/
structure IsFileName (text : String) : Prop where
  ne_empty : text ≠ ""
  ne_current : text ≠ "."
  ne_parent : text ≠ ".."
  not_mem : '/' ∉ text.toList

instance (text : String) : Decidable (IsFileName text) :=
  decidable_of_iff (text ≠ "" ∧ text ≠ "." ∧ text ≠ ".." ∧ '/' ∉ text.toList)
    ⟨fun ⟨hempty, hcurrent, hparent, hslash⟩ ↦ ⟨hempty, hcurrent, hparent, hslash⟩,
      fun ⟨hempty, hcurrent, hparent, hslash⟩ ↦ ⟨hempty, hcurrent, hparent, hslash⟩⟩

/-- All names on the way to a place can be names of entries. -/
def Place.IsNamed (place : Place) : Prop := ∀ name ∈ place, IsFileName name

instance (place : Place) : Decidable place.IsNamed :=
  inferInstanceAs (Decidable (∀ name ∈ place, IsFileName name))

namespace IsFileName

variable {name : String} (h : IsFileName name)

include h

theorem toList_ne_nil : name.toList ≠ [] := fun hnil ↦ h.ne_empty (String.toList_eq_nil_iff.mp hnil)

theorem ofSegment_toList : Component.ofSegment name.toList = .name name := by
  have hparent : name.toList ≠ ['.', '.'] := fun hsame ↦ h.ne_parent (String.toList_injective hsame)
  rw [Component.ofSegment, if_neg hparent, String.ofList_toList]

theorem toList_ne_current : name.toList ≠ ['.'] :=
  fun hsame ↦ h.ne_current (String.toList_injective hsame)

theorem isAbsolute_eq : (Path.mk name).isAbsolute = false := by
  rw [Path.isAbsolute, beq_eq_false_iff_ne]
  exact fun hhead ↦ h.not_mem (List.mem_of_head? hhead)

end IsFileName

/-! ### Paths of places -/

/-- The names in a path, in order. -/
def Path.place (path : Path) : Place :=
  path.location.filterMap fun component ↦
    match component with
    | .name text => some text
    | _ => none

namespace Path

variable {place : Place} {name : String}

theorem toList_ofPlace (place : Place) :
    (ofPlace place).spelling.toList = '/' :: ['/'].intercalate (place.map String.toList) := by
  rw [ofPlace, String.toList_append, String.toList_intercalate]
  rfl

theorem isAbsolute_ofPlace (place : Place) : (ofPlace place).isAbsolute = true := by
  rw [isAbsolute, toList_ofPlace]
  rfl

theorem place_congr {path other : Path} (h : path.location = other.location) : path.place = other.place := by
  rw [place, place, h]

/-- Assumes: names of entries. The path that spells a place goes from the root through them. -/
theorem location_ofPlace (h : place.IsNamed) : (ofPlace place).location = .root :: place.map .name := by
  rw [location, toList_ofPlace]
  cases place with
  | nil => rfl
  | cons first rest =>
    have hnames : ∀ text ∈ (first :: rest).map String.toList, text ≠ [] ∧ text ≠ ['.'] ∧ '/' ∉ text :=
      List.forall_mem_map.mpr fun name hname ↦
        ⟨(h name hname).toList_ne_nil, (h name hname).toList_ne_current, (h name hname).not_mem⟩
    have hfields : Text.fields '/' ('/' :: ['/'].intercalate ((first :: rest).map String.toList)) =
        [] :: (first :: rest).map String.toList :=
      (Text.fields_separator '/' _).trans (congrArg _ (Text.fields_intercalate (List.cons_ne_nil _ _)
        fun text htext ↦ (hnames text htext).2.2))
    have hsegments : ([] :: (first :: rest).map String.toList).filter (fun segment ↦ segment ≠ []) =
        (first :: rest).map String.toList := by
      rw [List.filter_cons_of_neg (by simp)]
      exact List.filter_eq_self.mpr fun text htext ↦ decide_eq_true (hnames text htext).1
    have hproper : ((first :: rest).map String.toList).filter (fun segment ↦ segment ≠ ['.']) =
        (first :: rest).map String.toList :=
      List.filter_eq_self.mpr fun text htext ↦ decide_eq_true (hnames text htext).2.1
    simp only [locationOf, hfields, hsegments, hproper, List.head?_cons, if_true, List.map_map]
    exact congrArg _ (List.map_congr_left fun name hname ↦ (h name hname).ofSegment_toList)

theorem place_ofPlace (h : place.IsNamed) : (ofPlace place).place = place := by
  rw [Path.place, location_ofPlace h, List.filterMap_cons, List.filterMap_map]
  exact List.filterMap_some

/-- Assumes: names of entries. Places are the same if the paths that spell them are the same key. -/
theorem ofPlace_congr {other : Place} (h : place.IsNamed) (hother : other.IsNamed)
    (hsame : (ofPlace place).location = (ofPlace other).location) : place = other := by
  rw [← place_ofPlace h, ← place_ofPlace hother, place_congr hsame]

theorem spelling_ofPlace_append (place : Place) (name : String) :
    (ofPlace (place ++ [name])).spelling =
      (if place = [] then "/" else (ofPlace place).spelling ++ "/") ++ name := by
  rw [ofPlace]
  split
  · next hnil => rw [hnil, List.nil_append, String.intercalate_singleton]
  · next hne =>
    rw [String.intercalate_append_of_ne_nil hne (List.cons_ne_nil name []), String.intercalate_singleton, ofPlace,
      String.append_assoc, String.append_assoc, String.append_assoc]

/-- The path that spells a place ends in a slash and the last name. -/
theorem exists_toList_ofPlace (place : Place) (name : String) :
    ∃ before, (ofPlace (place ++ [name])).spelling.toList = before ++ '/' :: name.toList := by
  rw [spelling_ofPlace_append, String.toList_append]
  split
  · exact ⟨[], rfl⟩
  · exact ⟨(ofPlace place).spelling.toList, by rw [String.toList_append]; simp⟩

/-- Assumes: names of entries. Only the path of the root ends in a slash. -/
theorem getLast?_ofPlace (h : place.IsNamed) :
    (ofPlace place).spelling.toList.getLast? = some '/' ↔ place = [] := by
  constructor
  · intro hslash
    rcases List.eq_nil_or_concat place with hnil | ⟨front, last, rfl⟩
    · exact hnil
    · have hname := h last (by simp)
      obtain ⟨before, hbefore⟩ := exists_toList_ofPlace front last
      rw [List.concat_eq_append, hbefore, List.getLast?_append_of_ne_nil _ (List.cons_ne_nil _ _),
        List.getLast?_cons_of_ne_nil hname.toList_ne_nil] at hslash
      exact absurd (List.mem_of_getLast? hslash) hname.not_mem
  · rintro rfl
    rfl

/-- Assumes: names of entries. The path of an entry in a directory spells the place of the entry. -/
theorem child_ofPlace (h : place.IsNamed) (hname : IsFileName name) :
    (ofPlace place).child name = ofPlace (place ++ [name]) := by
  have hspelled : (ofPlace place).spelling ≠ "" := by
    rw [ofPlace]
    simp
  have hends : ((ofPlace place).spelling = "" ∨ (ofPlace place).spelling.toList.getLast? = some '/') ↔
      place = [] := (or_iff_right hspelled).trans (getLast?_ofPlace h)
  have hspelling := spelling_ofPlace_append place name
  rw [child, join, hname.isAbsolute_eq, if_neg Bool.false_ne_true]
  simp only [hends]
  split
  · next hnil =>
    subst hnil
    rw [if_pos rfl] at hspelling
    exact congrArg mk hspelling.symm
  · next hne =>
    rw [if_neg hne] at hspelling
    exact congrArg mk hspelling.symm

/-- Assumes: names of entries. The path of a place other than the root is followed through its components and
nothing else. -/
theorem steps_ofPlace (h : place.IsNamed) (hne : place ≠ []) :
    (ofPlace place).steps = .root :: place.map .name := by
  -- Steps differ from components only behind a last segment that is empty or a dot, and no name is either.
  have hslash : ∀ rest, (ofPlace place).spelling.toList.reverse ≠ '/' :: rest := by
    intro rest hrest
    refine hne ((getLast?_ofPlace h).mp ?_)
    rw [← List.head?_reverse, hrest, List.head?_cons]
  have hcurrent : ∀ rest, (ofPlace place).spelling.toList.reverse ≠ '.' :: '/' :: rest := by
    intro rest hrest
    obtain ⟨front, last, rfl⟩ := (List.eq_nil_or_concat place).resolve_left hne
    have hname := h last (by simp)
    obtain ⟨before, hbefore⟩ := exists_toList_ofPlace front last
    rw [List.concat_eq_append, hbefore, List.reverse_append, List.reverse_cons, List.append_assoc,
      List.singleton_append] at hrest
    match hlast : last.toList.reverse with
    | [] => exact hname.toList_ne_nil (List.reverse_eq_nil_iff.mp hlast)
    | [c] =>
      rw [hlast] at hrest
      obtain rfl : c = '.' := List.head_eq_of_cons_eq hrest
      exact hname.toList_ne_current (List.reverse_injective hlast)
    | c :: d :: more =>
      rw [hlast] at hrest
      obtain rfl : d = '/' := List.head_eq_of_cons_eq (List.tail_eq_of_cons_eq hrest)
      exact hname.not_mem (List.mem_reverse.mp (by simp [hlast]))
  rw [← location_ofPlace h, steps]
  split
  · next rest hrest => exact absurd hrest (hslash rest)
  · next rest hrest => exact absurd hrest (hcurrent rest)
  · rfl

end Path

end LiveSpec
