import LiveSpec.Proofs.Path.Place
import Mathlib.Data.List.Induction

/-!
# Where paths lead to

In a tree of files every entry stands in a directory and has a name (`Disk.IsTree`), so that no link stands on
the way to an entry unless the entry is one (`Disk.IsTree.not_passesLink`). A path leads to nothing but an
entry that is no link, because every step and every link that is followed ends at one
(`Disk.IsTree.endsAt_follow`, `Disk.IsTree.endsAt_locate`). The path that spells a place therefore leads to
that place when no link stands on the way to it, and elsewhere when one does
(`Disk.IsTree.eq_iff_not_passesLink`).
-/

set_option autoImplicit false

namespace LiveSpec

namespace Disk

variable {disk : Disk} {place here : Place}

/-- What is promised of a file system: entries stand in directories and have names of entries, and the working
directory is a directory. -/
structure IsTree (disk : Disk) : Prop where
  isNamed : ∀ place ∈ disk.entries.keys, place.IsNamed
  isInDirectory : ∀ place ∈ disk.entries.keys, disk.entryAt? place.dropLast = some .directory
  workingDirectory : disk.entryAt? disk.workingDirectory = some .directory

instance (disk : Disk) : Decidable disk.IsTree :=
  decidable_of_iff
    ((∀ place ∈ disk.entries.keys, place.IsNamed) ∧
      (∀ place ∈ disk.entries.keys, disk.entryAt? place.dropLast = some .directory) ∧
      disk.entryAt? disk.workingDirectory = some .directory)
    ⟨fun ⟨hnamed, hin, hworking⟩ ↦ ⟨hnamed, hin, hworking⟩,
      fun ⟨hnamed, hin, hworking⟩ ↦ ⟨hnamed, hin, hworking⟩⟩

/-- An entry that is no link stands at a place. -/
def EndsAt (disk : Disk) (place : Place) : Prop :=
  ∃ entry, disk.entryAt? place = some entry ∧ ∀ target, entry ≠ .link target

/-- A link stands on the way to a place, or at it. -/
def PassesLink (disk : Disk) (place : Place) : Prop :=
  ∃ way, way <+: place ∧ ∃ target, disk.entryAt? way = some (.link target)

theorem mem_keys_of_entryAt? {entry : DiskEntry} (h : disk.entryAt? place = some entry) (hne : place ≠ []) :
    place ∈ disk.entries.keys := by
  rw [entryAt?, if_neg hne] at h
  exact Std.ExtTreeMap.mem_keys.mpr (Std.ExtTreeMap.mem_iff_isSome_getElem?.mpr (by rw [h]; rfl))

theorem endsAt_of_directory (h : disk.entryAt? place = some .directory) : disk.EndsAt place :=
  ⟨.directory, h, fun _ hlink ↦ nomatch hlink⟩

namespace IsTree

variable (htree : disk.IsTree)

include htree

theorem isNamed_of_entryAt? {entry : DiskEntry} (h : disk.entryAt? place = some entry) : place.IsNamed := by
  by_cases hnil : place = []
  · rw [hnil]
    exact fun _ hname ↦ nomatch hname
  · exact htree.isNamed place (mem_keys_of_entryAt? h hnil)

theorem directory_dropLast {entry : DiskEntry} (h : disk.entryAt? place = some entry) :
    disk.entryAt? place.dropLast = some .directory := by
  by_cases hnil : place = []
  · rw [hnil]
    rfl
  · exact htree.isInDirectory place (mem_keys_of_entryAt? h hnil)

/-- On the way to an entry there are only directories. -/
theorem directory_of_prefix {entry : DiskEntry} {way : Place} (h : disk.entryAt? place = some entry)
    (hway : way <+: place) (hne : way ≠ place) : disk.entryAt? way = some .directory := by
  induction place using List.reverseRecOn generalizing entry with
  | nil => exact absurd (List.prefix_nil.mp hway) hne
  | append_singleton front last ih =>
    have hfront := htree.directory_dropLast h
    rw [List.dropLast_concat] at hfront
    have hbefore : way <+: front := (List.prefix_concat_iff.mp hway).resolve_left hne
    by_cases hsame : way = front
    · rw [hsame]
      exact hfront
    · exact ih hfront hbefore hsame

/-- The way to an entry that is no link passes none. -/
theorem not_passesLink (h : disk.EndsAt place) : ¬ disk.PassesLink place := by
  obtain ⟨entry, hentry, hnone⟩ := h
  rintro ⟨way, hway, target, hlink⟩
  by_cases hsame : way = place
  · rw [hsame, hentry] at hlink
    exact hnone target (Option.some.inj hlink)
  · rw [htree.directory_of_prefix hentry hway hsame] at hlink
    cases hlink

/-- Assumes: links that lead to entries which are no links. Then so do steps from such an entry. -/
theorem endsAt_follow {onLink : Place → Path → List Component → Except ReadFault Place}
    (hlink : ∀ directory target rest, disk.entryAt? directory = some .directory →
      ∀ found, onLink directory target rest = .ok found → disk.EndsAt found)
    {steps : List Component} (hhere : disk.EndsAt here)
    (h : disk.follow onLink here steps = .ok place) : disk.EndsAt place := by
  induction steps generalizing here with
  | nil =>
    obtain rfl : here = place := Except.ok.inj h
    exact hhere
  | cons component rest ih =>
    unfold follow at h
    split_ifs at h with hdirectory
    rw [not_not] at hdirectory
    cases component with
    | root => exact ih (endsAt_of_directory rfl) h
    | current => exact ih hhere h
    | parent => exact ih (endsAt_of_directory (htree.directory_dropLast hdirectory)) h
    | name text =>
      dsimp only at h
      split_ifs at h
      split at h
      · cases h
      · next target htarget => exact hlink here target rest hdirectory place h
      · next entry hnone hentry => exact ih ⟨entry, hentry, hnone⟩ h

theorem endsAt_followLinks {budget : Nat} {steps : List Component} (hhere : disk.EndsAt here)
    (h : disk.followLinks budget here steps = .ok place) : disk.EndsAt place := by
  -- A link that is followed is one link less for what it leads to.
  induction budget generalizing here steps place with
  | zero =>
    refine htree.endsAt_follow (fun directory target rest hdirectory found hfound ↦ ?_) hhere h
    cases hfound
  | succ budget ih =>
    refine htree.endsAt_follow (fun directory target rest hdirectory found hfound ↦ ?_) hhere h
    exact ih (endsAt_of_directory hdirectory) hfound

/-- A path leads to nothing but an entry that is no link. -/
theorem endsAt_locate {path : Path} (h : disk.locate path = .ok place) : disk.EndsAt place := by
  unfold locate at h
  split at h
  · cases h
  · exact htree.endsAt_followLinks (endsAt_of_directory htree.workingDirectory) h

end IsTree

/-- Assumes: no link on the way. Names lead to the place that they spell, if they lead anywhere. -/
theorem eq_of_follow {onLink : Place → Path → List Component → Except ReadFault Place} {names : Place}
    (hnone : ∀ way, way <+: names → ∀ target, disk.entryAt? (here ++ way) ≠ some (.link target))
    (h : disk.follow onLink here (names.map .name) = .ok place) : place = here ++ names := by
  induction names generalizing here with
  | nil =>
    rw [List.append_nil]
    exact (Except.ok.inj h).symm
  | cons text rest ih =>
    rw [List.map_cons] at h
    unfold follow at h
    split_ifs at h
    dsimp only at h
    split_ifs at h
    split at h
    · cases h
    · next target hlink => exact absurd hlink (hnone [text] (List.prefix_append [text] rest) target)
    · rw [ih (fun way hway target ↦ ?_) h, List.append_assoc, List.singleton_append]
      rw [List.append_assoc, List.singleton_append]
      exact hnone (text :: way) (List.cons_prefix_cons.mpr ⟨rfl, hway⟩) target

/-- Steps through links are steps up to the first link, whatever becomes of that. -/
theorem exists_followLinks_eq (disk : Disk) (budget : Nat) :
    ∃ onLink, ∀ here steps, disk.followLinks budget here steps = disk.follow onLink here steps := by
  cases budget with
  | zero => exact ⟨_, fun here steps ↦ rfl⟩
  | succ budget => exact ⟨_, fun here steps ↦ rfl⟩

/-- Assumes: names of entries, and no link on the way to a place. The path that spells the place leads there, if it
leads anywhere. -/
theorem eq_of_locate_ofPlace (hnamed : place.IsNamed) (hnone : ¬ disk.PassesLink place) {found : Place}
    (h : disk.locate (.ofPlace place) = .ok found) : found = place := by
  obtain ⟨onLink, hfollow⟩ := exists_followLinks_eq disk linkLimit
  unfold locate at h
  split at h
  · cases h
  · rw [locateFrom, hfollow] at h
    by_cases hnil : place = []
    · subst hnil
      have hsteps : (Path.ofPlace []).steps = [.root, .current] := by decide
      rw [hsteps] at h
      unfold follow at h
      split_ifs at h
      exact (Except.ok.inj h).symm
    · rw [Path.steps_ofPlace hnamed hnil] at h
      unfold follow at h
      split_ifs at h
      have hfound : found = [] ++ place :=
        eq_of_follow (fun way hway target hlink ↦ hnone ⟨way, hway, target, hlink⟩) h
      exact hfound

/-- The canonical form of a path spells the place that the path leads to. -/
theorem canonical_eq_ok_iff {path found : Path} :
    disk.canonical path = .ok found ↔
      ∃ place entry, disk.locate path = .ok place ∧ disk.entryAt? place = some entry ∧
        found = .ofPlace place := by
  unfold canonical
  cases hlocate : disk.locate path with
  | error fault => simp [bind, Except.bind]
  | ok place =>
    dsimp only [bind, Except.bind]
    cases hentry : disk.entryAt? place with
    | none => simp [hentry]
    | some entry => simp [hentry, eq_comm]

theorem read_eq_ok_iff {path : Path} {content : String} :
    disk.read path = .ok content ↔
      ∃ place, disk.locate path = .ok place ∧ disk.entryAt? place = some (.text content) := by
  unfold read entry
  cases hlocate : disk.locate path with
  | error fault => simp [bind, Except.bind]
  | ok place =>
    dsimp only [bind, Except.bind]
    cases hentry : disk.entryAt? place with
    | none => simp [hentry]
    | some entry => cases entry <;> simp [hentry]

namespace IsTree

variable (htree : disk.IsTree)

include htree

/-- Assumes: a tree of files. The path that spells a place leads to it exactly when no link stands on the way,
provided that it leads anywhere. -/
theorem eq_iff_not_passesLink (hnamed : place.IsNamed) {found : Place}
    (h : disk.locate (.ofPlace place) = .ok found) : found = place ↔ ¬ disk.PassesLink place := by
  constructor
  · rintro rfl
    exact htree.not_passesLink (htree.endsAt_locate h)
  · exact fun hnone ↦ eq_of_locate_ofPlace hnamed hnone h

end IsTree

end Disk

end LiveSpec
