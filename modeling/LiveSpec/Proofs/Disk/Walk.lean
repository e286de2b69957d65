import LiveSpec.Disk.Walk
import LiveSpec.Proofs.Disk.Ways

/-!
# The paths of a walk

What a walk comes across has the path of the root with names of entries added to it, wherever the directories
are that links have brought the walk to. So from a path that spells a place a walk gives paths that spell
places beneath it (`Disk.IsTree.exists_names_of_mem_walk`). A walk that comes across anything has a root that
leads somewhere (`Disk.exists_canonical_of_mem_walk`); with the canonical form of the root the paths are spelled
from a place that no link stands at (`Disk.IsTree.exists_place_of_mem_walk`). Beneath that place they can still
go through links.
-/

set_option autoImplicit false

namespace LiveSpec.Disk

variable {disk : Disk}

theorem isFileName_of_mem_namesIn (htree : disk.IsTree) {place : Place} {name : String}
    (h : name ∈ disk.namesIn place) : IsFileName name := by
  obtain ⟨entry, hentry, hname⟩ := List.mem_filterMap.mp h
  split_ifs at hname
  exact htree.isNamed entry hentry name (List.mem_of_getLast? hname)

namespace IsTree

variable (htree : disk.IsTree)

include htree

/-- Assumes: a directory whose path spells a place. What lies beneath it comes with the path of a place beneath
that, although the directory itself can be at another place. -/
theorem exists_names_of_mem_walkDirectory {depth : Nat} {parent : WalkDirectory} {base : Place} {entry : WalkEntry}
    (hbase : base.IsNamed) (hpath : parent.path = .ofPlace base) (h : entry ∈ disk.walkDirectory depth parent) :
    ∃ names : Place, names.IsNamed ∧ entry.path = .ofPlace (base ++ names) := by
  -- The path grows by the name even if the name is a link and the walk goes on at another place, so the
  -- induction speaks of the path alone.
  induction depth generalizing parent base with
  | zero => cases h
  | succ depth ih =>
    obtain ⟨name, hname, hentry⟩ := List.mem_flatMap.mp h
    have hfile := isFileName_of_mem_namesIn htree hname
    have hchild : parent.path.child name = .ofPlace (base ++ [name]) := by
      rw [hpath, Path.child_ofPlace hbase hfile]
    split at hentry
    · cases hentry
    · next place hplace =>
      dsimp only at hentry
      split_ifs at hentry with hignored hdirectory
      · cases hentry
      · rcases List.mem_cons.mp hentry with rfl | hbeneath
        · exact ⟨[name], List.forall_mem_singleton.mpr hfile, hchild⟩
        · have hnamed : Place.IsNamed (base ++ [name]) :=
            List.forall_mem_append.mpr ⟨hbase, List.forall_mem_singleton.mpr hfile⟩
          obtain ⟨names, hnames, hspelled⟩ := ih hnamed hchild hbeneath
          refine ⟨name :: names, List.forall_mem_cons.mpr ⟨hfile, hnames⟩, ?_⟩
          rw [hspelled, List.append_assoc, List.singleton_append]
      · obtain rfl := List.mem_singleton.mp hentry
        exact ⟨[name], List.forall_mem_singleton.mpr hfile, hchild⟩

/-- Assumes: names of entries. A walk from the path of a place comes across paths of places beneath it. -/
theorem exists_names_of_mem_walk {base : Place} {entry : WalkEntry} (hbase : base.IsNamed)
    (h : entry ∈ disk.walk (.ofPlace base)) :
    ∃ names : Place, names.IsNamed ∧ entry.path = .ofPlace (base ++ names) := by
  unfold walk at h
  split at h
  · cases h
  · split at h
    · cases h
    · split at h
      · cases h
      · exact htree.exists_names_of_mem_walkDirectory hbase rfl h
      · obtain rfl := List.mem_singleton.mp h
        exact ⟨[], List.forall_mem_nil _, by rw [List.append_nil]⟩

end IsTree

/-- The walk of a path that leads nowhere is empty. -/
theorem exists_canonical_of_mem_walk {root : Path} {entry : WalkEntry} (h : entry ∈ disk.walk root) :
    ∃ found, disk.canonical root = .ok found := by
  unfold walk at h
  split at h
  · cases h
  · split at h
    · cases h
    · next place hplace =>
      split at h
      · cases h
      · next hdirectory => exact ⟨_, canonical_eq_ok_iff.mpr ⟨place, _, hplace, hdirectory, rfl⟩⟩
      · next file _ hfile => exact ⟨_, canonical_eq_ok_iff.mpr ⟨place, _, hplace, hfile, rfl⟩⟩

/-- Assumes: a tree of files. A walk from the canonical form of a path comes across paths of places beneath one
that no link stands at. -/
theorem IsTree.exists_place_of_mem_walk (htree : disk.IsTree) {path : Path} {entry : WalkEntry}
    (h : entry ∈ disk.walk (disk.canonicalOrSame path)) :
    ∃ base place : Place, disk.canonicalOrSame path = .ofPlace base ∧ disk.EndsAt base ∧ base <+: place ∧
      place.IsNamed ∧ entry.path = .ofPlace place := by
  cases hcanonical : disk.canonical path with
  | error fault =>
    have hsame : disk.canonicalOrSame path = path := by
      rw [canonicalOrSame, hcanonical]
      rfl
    rw [hsame] at h
    obtain ⟨found, hfound⟩ := exists_canonical_of_mem_walk h
    rw [hcanonical] at hfound
    cases hfound
  | ok found =>
    obtain ⟨base, stored, hlocate, hstored, rfl⟩ := canonical_eq_ok_iff.mp hcanonical
    have hsame : disk.canonicalOrSame path = .ofPlace base := by
      rw [canonicalOrSame, hcanonical]
      rfl
    rw [hsame] at h
    have hbase : base.IsNamed := htree.isNamed_of_entryAt? hstored
    obtain ⟨names, hnames, hspelled⟩ := htree.exists_names_of_mem_walk hbase h
    exact ⟨base, base ++ names, hsame, htree.endsAt_locate hlocate, List.prefix_append base names,
      List.forall_mem_append.mpr ⟨hbase, hnames⟩, hspelled⟩

end LiveSpec.Disk
