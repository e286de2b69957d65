import LiveSpec.Concepts.CycleSearch
import Mathlib.Algebra.BigOperators.Group.List.Basic
import Mathlib.Algebra.Order.BigOperators.Group.List
import Mathlib.Algebra.GroupWithZero.Nat
import Mathlib.Algebra.Order.Group.Nat

/-!
# What the cycle search leaves unrecorded

The search does not record every signature that lies on a cycle: a call to a signature that is done
is not followed again. What it guarantees is that every cycle has a recorded member. The part of the
path that a call closes contains the caller and the called signature, so both are recorded; any other
call is followed before its caller is left. Among the signatures that are recorded nowhere, calls
therefore lead from later to earlier ones in the order in which signatures are left.

`CycleSearch.Invariant` says this of a search in progress, with `inHand` the signature that was taken
from the list or from the innermost frame and has not been visited yet. It holds at the start and the
rule keeps it (`invariant_next`). Every step that changes the search takes one from
`CycleSearch.work`, so the search comes to its end (`isFinal_run`), where every defined signature is
done. The result is that unrecorded signatures call each other along well-founded chains only
(`wellFounded_callsUnrecorded`).
-/

set_option autoImplicit false

namespace LiveSpec.CycleSearch

variable {definitions : Definitions} {search : CycleSearch}

/-! ### Members of a cycle -/

/-- A call to an open signature records that signature. -/
theorem mem_dropWhile_ne {signature : String} {signatures : List String}
    (h : signature ∈ signatures) : signature ∈ signatures.dropWhile (· ≠ signature) := by
  induction signatures with
  | nil => exact h
  | cons first rest ih =>
    by_cases heq : first = signature
    · simp [heq]
    · have hrest : signature ∈ rest := (List.mem_cons.mp h).resolve_left (Ne.symm heq)
      simpa [List.dropWhile_cons, heq] using ih hrest

/-- What follows the first occurrence of a signature reaches to the end of the list. -/
theorem last_mem_dropWhile_ne {signature last : String} {signatures : List String}
    (h : signature ∈ signatures ++ [last]) :
    last ∈ (signatures ++ [last]).dropWhile (· ≠ signature) := by
  induction signatures with
  | nil =>
    have heq : signature = last := by simpa using h
    simp [heq]
  | cons first rest ih =>
    by_cases heq : first = signature
    · simp [heq]
    · have hrest : signature ∈ rest ++ [last] :=
        (List.mem_cons.mp h).resolve_left (Ne.symm heq)
      simpa [List.dropWhile_cons, heq] using ih hrest

theorem mem_membersFrom {path : List CycleFrame} {signature : String}
    (h : signature ∈ path.map CycleFrame.signature) : signature ∈ membersFrom path signature :=
  mem_dropWhile_ne (List.mem_reverse.mpr h)

/-- The innermost signature of the path is a member of every cycle that is closed. -/
theorem innermost_mem_membersFrom {frame : CycleFrame} {outer : List CycleFrame}
    {signature : String} (h : signature ∈ (frame :: outer).map CycleFrame.signature) :
    frame.signature ∈ membersFrom (frame :: outer) signature := by
  have hopen := List.mem_reverse.mpr h
  rw [List.map_cons, List.reverse_cons] at hopen
  have hlast := last_mem_dropWhile_ne hopen
  rwa [← List.reverse_cons, ← List.map_cons] at hlast

/-- Recording members adds them and nothing else. -/
theorem mem_recordAll {cycle members : List String} {cycles : Std.ExtTreeMap String (List String)}
    {signature : String} :
    signature ∈ recordAll cycle cycles members ↔ signature ∈ cycles ∨ signature ∈ members := by
  induction members generalizing cycles with
  | nil => simp [recordAll]
  | cons member rest ih =>
    have hstep : recordAll cycle cycles (member :: rest) =
        recordAll cycle (cycles.insertIfNew member cycle) rest := rfl
    rw [hstep, ih, Std.ExtTreeMap.mem_insertIfNew, Std.compare_eq_iff_eq, List.mem_cons,
      or_comm (a := member = signature), or_assoc, eq_comm (a := member)]

/-- A call that closes a cycle keeps what is recorded. -/
theorem mem_close {signature other : String} (h : other ∈ search.cycles) :
    other ∈ (search.close signature).cycles :=
  mem_recordAll.mpr (Or.inl h)

/-! ### Visiting a signature -/

theorem visit_of_done {signature : String} (h : search.marks[signature]? = some .done) :
    search.visit definitions signature = search := by
  simp [visit, h]

theorem visit_of_entered {signature : String} (h : search.marks[signature]? = some .entered) :
    search.visit definitions signature = search.close signature := by
  simp [visit, h]

theorem visit_of_unmarked {signature : String} (h : search.marks[signature]? = none) :
    search.visit definitions signature = search.enter definitions signature := by
  simp [visit, h]

/-- A signature that the definitions do not hold calls nothing. -/
theorem mem_definitions_of_mem_callsOf {caller called : String}
    (h : called ∈ callsOf definitions caller) : called ∈ definitions := by
  unfold callsOf at h
  split at h
  · exact absurd h List.not_mem_nil
  · exact Std.ExtTreeMap.mem_iff_contains.mpr (List.mem_filter.mp h).2

theorem caller_mem_of_mem_callsOf {caller called : String}
    (h : called ∈ callsOf definitions caller) : caller ∈ definitions := by
  unfold callsOf at h
  split at h
  · exact absurd h List.not_mem_nil
  · next concept hconcept =>
    rw [Std.ExtTreeMap.mem_iff_isSome_getElem?, hconcept]
    rfl

/-! ### The invariant -/

/-- A call between two signatures of which neither is recorded. -/
def CallsUnrecorded (definitions : Definitions) (search : CycleSearch) (called caller : String) :
    Prop :=
  called ∈ callsOf definitions caller ∧ called ∉ search.cycles ∧ caller ∉ search.cycles

/-- A call needs no more attention: the called signature is done, or the call closed a cycle, which
recorded both. -/
def Settled (search : CycleSearch) (caller called : String) : Prop :=
  search.marks[called]? = some .done ∨ caller ∈ search.cycles ∧ called ∈ search.cycles

/-- Every call of every open signature is waiting in its frame, is settled, or leads to `above`, the
signature that is open next after it. -/
def Followed (definitions : Definitions) (search : CycleSearch) :
    Option String → List CycleFrame → Prop
  | _, [] => True
  | above, frame :: outer =>
    (∀ called ∈ callsOf definitions frame.signature,
      called ∈ frame.pending ∨ search.Settled frame.signature called ∨ above = some called) ∧
      Followed definitions search (some frame.signature) outer

/-- What holds at every moment of a search, with the signature in hand that is to be visited. -/
structure Invariant (definitions : Definitions) (search : CycleSearch) (inHand : Option String) :
    Prop where
  inHand_defined : ∀ signature, inHand = some signature → signature ∈ definitions
  waiting_defined : ∀ signature ∈ search.waiting, signature ∈ definitions
  pending_defined : ∀ frame ∈ search.path, ∀ called ∈ frame.pending, called ∈ definitions
  /-- A signature that was entered and not left is on the path. -/
  entered_open : ∀ signature, search.marks[signature]? = some .entered →
    signature ∈ search.path.map CycleFrame.signature
  /-- No definition is forgotten. -/
  reached : ∀ signature ∈ definitions,
    signature ∈ search.waiting ∨ inHand = some signature ∨ signature ∈ search.marks
  followed : Followed definitions search inHand search.path
  /-- From a signature that is done no chain of unrecorded calls goes on for ever. -/
  done_accessible : ∀ signature, search.marks[signature]? = some .done →
    Acc (CallsUnrecorded definitions search) signature

/-- `Followed` needs only that done marks and records stay. -/
theorem Followed.mono {later : CycleSearch} {above : Option String} {path : List CycleFrame}
    (h : Followed definitions search above path)
    (hdone : ∀ signature : String, search.marks[signature]? = some CycleMark.done →
      later.marks[signature]? = some CycleMark.done)
    (hcycles : ∀ signature ∈ search.cycles, signature ∈ later.cycles) :
    Followed definitions later above path := by
  induction path generalizing above with
  | nil => trivial
  | cons frame outer ih =>
    refine ⟨fun called hcalled ↦ ?_, ih h.2⟩
    rcases h.1 called hcalled with hpending | hsettled | habove
    · exact Or.inl hpending
    · refine Or.inr (Or.inl ?_)
      rcases hsettled with hmark | ⟨hcaller, hboth⟩
      · exact Or.inl (hdone called hmark)
      · exact Or.inr ⟨hcycles _ hcaller, hcycles _ hboth⟩
    · exact Or.inr (Or.inr habove)

/-- The signature above the innermost frame is settled for that frame, so nothing is above it. -/
theorem Followed.settle {above : String} {path : List CycleFrame}
    (h : Followed definitions search (some above) path)
    (hsettled : ∀ frame outer, path = frame :: outer → search.Settled frame.signature above) :
    Followed definitions search none path := by
  cases path with
  | nil => trivial
  | cons frame outer =>
    refine ⟨fun called hcalled ↦ ?_, h.2⟩
    rcases h.1 called hcalled with hpending | hdone | habove
    · exact Or.inl hpending
    · exact Or.inr (Or.inl hdone)
    · have heq : above = called := Option.some.inj habove
      exact Or.inr (Or.inl (heq ▸ hsettled frame outer rfl))

/-- Chains of unrecorded calls only get shorter when more is recorded. -/
theorem acc_callsUnrecorded_mono {later : CycleSearch} {signature : String}
    (hcycles : ∀ other ∈ search.cycles, other ∈ later.cycles)
    (h : Acc (CallsUnrecorded definitions search) signature) :
    Acc (CallsUnrecorded definitions later) signature := by
  refine Subrelation.accessible (fun {called caller} hcall ↦ ?_) h
  exact ⟨hcall.1, fun hin ↦ hcall.2.1 (hcycles called hin),
    fun hin ↦ hcall.2.2 (hcycles caller hin)⟩

theorem invariant_start (definitions : Definitions) :
    Invariant definitions (start definitions) none where
  inHand_defined _ h := by cases h
  waiting_defined _ h := Std.ExtTreeMap.mem_keys.mp h
  pending_defined _ h := absurd h List.not_mem_nil
  entered_open signature h := by simp [start] at h
  reached _ h := Or.inl (Std.ExtTreeMap.mem_keys.mpr h)
  followed := trivial
  done_accessible signature h := by simp [start] at h

/-- A signature that is done is not followed again. -/
theorem Invariant.visit_done {signature : String}
    (h : Invariant definitions search (some signature))
    (hmark : search.marks[signature]? = some .done) : Invariant definitions search none where
  inHand_defined _ hnone := by cases hnone
  waiting_defined := h.waiting_defined
  pending_defined := h.pending_defined
  entered_open := h.entered_open
  reached other hother := by
    rcases h.reached other hother with hwaiting | hhand | hmarked
    · exact Or.inl hwaiting
    · have heq : signature = other := Option.some.inj hhand
      refine Or.inr (Or.inr ?_)
      rw [Std.ExtTreeMap.mem_iff_isSome_getElem?, ← heq, hmark]
      rfl
    · exact Or.inr (Or.inr hmarked)
  followed := h.followed.settle fun _ _ _ ↦ Or.inl hmark
  done_accessible := h.done_accessible

/-- A call to an open signature records the caller and the called signature. -/
theorem Invariant.close {signature : String}
    (h : Invariant definitions search (some signature))
    (hmark : search.marks[signature]? = some .entered) :
    Invariant definitions (search.close signature) none where
  inHand_defined _ hnone := by cases hnone
  waiting_defined := h.waiting_defined
  pending_defined := h.pending_defined
  entered_open := h.entered_open
  reached other hother := by
    rcases h.reached other hother with hwaiting | hhand | hmarked
    · exact Or.inl hwaiting
    · have heq : signature = other := Option.some.inj hhand
      refine Or.inr (Or.inr ?_)
      show other ∈ search.marks
      rw [Std.ExtTreeMap.mem_iff_isSome_getElem?, ← heq, hmark]
      rfl
    · exact Or.inr (Or.inr hmarked)
  followed := by
    have hopen := h.entered_open signature hmark
    have hkept : Followed definitions (search.close signature) (some signature) search.path :=
      h.followed.mono (fun _ hdone ↦ hdone) fun _ hrecorded ↦ mem_close hrecorded
    refine hkept.settle fun frame outer hpath ↦ Or.inr ⟨?_, ?_⟩
    · refine mem_recordAll.mpr (Or.inr ?_)
      rw [hpath] at hopen ⊢
      exact innermost_mem_membersFrom hopen
    · exact mem_recordAll.mpr (Or.inr (mem_membersFrom hopen))
  done_accessible other hdone :=
    acc_callsUnrecorded_mono (fun _ hrecorded ↦ mem_close hrecorded) (h.done_accessible other hdone)

theorem marks_enter (definitions : Definitions) (search : CycleSearch) (signature other : String) :
    (search.enter definitions signature).marks[other]? =
      if signature = other then some CycleMark.entered else search.marks[other]? := by
  simp only [enter, Std.ExtTreeMap.getElem?_insert, Std.compare_eq_iff_eq]

/-- A signature that is entered has all its calls before it. -/
theorem Invariant.enter {signature : String}
    (h : Invariant definitions search (some signature))
    (hmark : search.marks[signature]? = none) :
    Invariant definitions (search.enter definitions signature) none where
  inHand_defined _ hnone := by cases hnone
  waiting_defined := h.waiting_defined
  pending_defined frame hframe called hcalled := by
    rcases List.mem_cons.mp hframe with hnew | hold
    · rw [hnew] at hcalled
      exact mem_definitions_of_mem_callsOf hcalled
    · exact h.pending_defined frame hold called hcalled
  entered_open other hother := by
    rw [marks_enter] at hother
    by_cases heq : signature = other
    · rw [← heq]
      exact List.mem_cons_self
    · rw [if_neg heq] at hother
      exact List.mem_cons_of_mem _ (h.entered_open other hother)
  reached other hother := by
    rcases h.reached other hother with hwaiting | hhand | hmarked
    · exact Or.inl hwaiting
    · have heq : signature = other := Option.some.inj hhand
      refine Or.inr (Or.inr ?_)
      rw [← heq]
      exact Std.ExtTreeMap.mem_insert_self
    · exact Or.inr (Or.inr (Std.ExtTreeMap.mem_insert.mpr (Or.inr hmarked)))
  followed := by
    refine ⟨fun called hcalled ↦ Or.inl hcalled, ?_⟩
    refine h.followed.mono (fun other hdone ↦ ?_) fun _ hrecorded ↦ hrecorded
    have hne : signature ≠ other := fun heq ↦ by rw [← heq, hmark] at hdone; cases hdone
    rw [marks_enter, if_neg hne]
    exact hdone
  done_accessible other hother := by
    rw [marks_enter] at hother
    by_cases heq : signature = other
    · rw [if_pos heq] at hother
      cases hother
    · rw [if_neg heq] at hother
      exact h.done_accessible other hother

/-- Visiting the signature in hand keeps the invariant. -/
theorem Invariant.visit {signature : String}
    (h : Invariant definitions search (some signature)) :
    Invariant definitions (search.visit definitions signature) none := by
  match hmark : search.marks[signature]? with
  | some .done =>
    rw [visit_of_done hmark]
    exact h.visit_done hmark
  | some .entered =>
    rw [visit_of_entered hmark]
    exact h.close hmark
  | none =>
    rw [visit_of_unmarked hmark]
    exact h.enter hmark

/-- The innermost signature is left when all its calls have been followed. Each of them is done by
then, or it is recorded together with its caller, so the signature itself is accessible. -/
theorem Invariant.leave {signature : String} {outer : List CycleFrame}
    (h : Invariant definitions search none) (hpath : search.path = ⟨signature, []⟩ :: outer) :
    Invariant definitions
      { search with path := outer, marks := search.marks.insert signature .done } none where
  inHand_defined _ hnone := by cases hnone
  waiting_defined := h.waiting_defined
  pending_defined frame hframe :=
    h.pending_defined frame (hpath ▸ List.mem_cons_of_mem _ hframe)
  entered_open other hother := by
    simp only [Std.ExtTreeMap.getElem?_insert, Std.compare_eq_iff_eq] at hother
    by_cases heq : signature = other
    · rw [if_pos heq] at hother
      cases hother
    · rw [if_neg heq] at hother
      have hopen := h.entered_open other hother
      rw [hpath, List.map_cons, List.mem_cons] at hopen
      exact hopen.resolve_left (Ne.symm heq)
  reached other hother := by
    rcases h.reached other hother with hwaiting | hhand | hmarked
    · exact Or.inl hwaiting
    · cases hhand
    · exact Or.inr (Or.inr (Std.ExtTreeMap.mem_insert.mpr (Or.inr hmarked)))
  followed := by
    have hfollowed := h.followed
    rw [hpath] at hfollowed
    have hkept : Followed definitions
        { search with path := outer, marks := search.marks.insert signature .done }
        (some signature) outer := by
      refine hfollowed.2.mono (fun other hdone ↦ ?_) fun _ hrecorded ↦ hrecorded
      simp only [Std.ExtTreeMap.getElem?_insert, Std.compare_eq_iff_eq]
      split_ifs
      · rfl
      · exact hdone
    exact hkept.settle fun _ _ _ ↦ Or.inl Std.ExtTreeMap.getElem?_insert_self
  done_accessible other hother := by
    show Acc (CallsUnrecorded definitions search) other
    simp only [Std.ExtTreeMap.getElem?_insert, Std.compare_eq_iff_eq] at hother
    by_cases heq : signature = other
    · have hfollowed := h.followed
      rw [hpath] at hfollowed
      refine Acc.intro other fun called hcall ↦ ?_
      rw [← heq] at hcall
      rcases hfollowed.1 called hcall.1 with hpending | hsettled | habove
      · exact absurd hpending List.not_mem_nil
      · rcases hsettled with hdone | ⟨-, hrecorded⟩
        · exact h.done_accessible called hdone
        · exact absurd hrecorded hcall.2.1
      · cases habove
    · rw [if_neg heq] at hother
      exact h.done_accessible other hother

/-- The rule of the search keeps the invariant. -/
theorem invariant_next (h : Invariant definitions search none) :
    Invariant definitions (search.next definitions) none := by
  unfold next
  split
  · next hpath =>
    split
    · exact h
    · next signature rest hwaiting =>
      refine Invariant.visit
        { h with
          inHand_defined := fun other hother ↦ ?_
          waiting_defined := fun other hother ↦
            h.waiting_defined other (hwaiting ▸ List.mem_cons_of_mem _ hother)
          reached := fun other hother ↦ ?_
          followed := ?_ }
      · have heq : signature = other := Option.some.inj hother
        exact h.waiting_defined other (hwaiting ▸ heq ▸ List.mem_cons_self)
      · rcases h.reached other hother with hold | hhand | hmarked
        · rw [hwaiting, List.mem_cons] at hold
          rcases hold with heq | hrest
          · exact Or.inr (Or.inl (congrArg some heq.symm))
          · exact Or.inl hrest
        · cases hhand
        · exact Or.inr (Or.inr hmarked)
      · show Followed definitions _ _ search.path
        rw [hpath]
        trivial
  · next signature outer hpath => exact h.leave hpath
  · next signature called pending outer hpath =>
    have hfollowed := h.followed
    rw [hpath] at hfollowed
    have hpending := h.pending_defined ⟨signature, called :: pending⟩ (hpath ▸ List.mem_cons_self)
    refine Invariant.visit
      { h with
        inHand_defined := fun other hother ↦ ?_
        pending_defined := fun frame hframe ↦ ?_
        entered_open := fun other hother ↦ ?_
        reached := fun other hother ↦ ?_
        followed := ?_ }
    · have heq : called = other := Option.some.inj hother
      exact heq ▸ hpending called List.mem_cons_self
    · rcases List.mem_cons.mp hframe with hnew | hold
      · intro other hother
        rw [hnew] at hother
        exact hpending other (List.mem_cons_of_mem _ hother)
      · exact h.pending_defined frame (hpath ▸ List.mem_cons_of_mem _ hold)
    · have hopen := h.entered_open other hother
      rw [hpath] at hopen
      exact hopen
    · rcases h.reached other hother with hwaiting | hhand | hmarked
      · exact Or.inl hwaiting
      · cases hhand
      · exact Or.inr (Or.inr hmarked)
    · refine ⟨fun other hother ↦ ?_, hfollowed.2.mono (fun _ hdone ↦ hdone) fun _ hin ↦ hin⟩
      rcases hfollowed.1 other hother with hwaits | hsettled | habove
      · rcases List.mem_cons.mp hwaits with heq | hrest
        · exact Or.inr (Or.inr (congrArg some heq.symm))
        · exact Or.inl hrest
      · exact Or.inr (Or.inl hsettled)
      · cases habove

/-! ### The end of the search -/

/-- The search has come to its end: no signature is waiting and none is open. -/
def IsFinal (search : CycleSearch) : Prop := search.waiting = [] ∧ search.path = []

/-- What a signature costs that has not been entered: to leave it, and to follow each of its calls. -/
def cost (definitions : Definitions) (search : CycleSearch) (signature : String) : Nat :=
  if signature ∈ search.marks then 0 else 1 + (callsOf definitions signature).length

/-- A bound for the steps that a search can still take: one for every waiting signature, one to leave
every open signature and one for each of its pending calls, and the cost of all signatures that have
not been entered. -/
def work (definitions : Definitions) (search : CycleSearch) : Nat :=
  search.waiting.length + (search.path.map fun frame ↦ 1 + frame.pending.length).sum +
    (definitions.keys.map (cost definitions search)).sum

theorem cost_le_of_marks {later : CycleSearch}
    (hmarks : ∀ signature : String, signature ∈ search.marks → signature ∈ later.marks)
    (signature : String) :
    cost definitions later signature ≤ cost definitions search signature := by
  unfold cost
  by_cases hmark : signature ∈ search.marks
  · rw [if_pos hmark, if_pos (hmarks signature hmark)]
  · rw [if_neg hmark]
    split_ifs
    · exact Nat.zero_le _
    · exact le_refl _

/-- Entering a signature moves its cost from the signatures that have not been entered to the path. -/
theorem work_enter {signature : String} (hdefined : signature ∈ definitions)
    (hmark : signature ∉ search.marks) :
    work definitions (search.enter definitions signature) ≤ work definitions search := by
  have hmem : signature ∈ definitions.keys := Std.ExtTreeMap.mem_keys.mpr hdefined
  have hentered : cost definitions (search.enter definitions signature) signature = 0 :=
    if_pos Std.ExtTreeMap.mem_insert_self
  have hbefore : cost definitions search signature = 1 + (callsOf definitions signature).length :=
    if_neg hmark
  have hothers : ((definitions.keys.erase signature).map
        (cost definitions (search.enter definitions signature))).sum ≤
      ((definitions.keys.erase signature).map (cost definitions search)).sum :=
    List.sum_le_sum fun other _ ↦
      cost_le_of_marks (fun _ hin ↦ Std.ExtTreeMap.mem_insert.mpr (Or.inr hin)) other
  have hsplit := List.sum_map_erase (cost definitions search) hmem
  have hsplit' := List.sum_map_erase (cost definitions (search.enter definitions signature)) hmem
  have hpath : ((search.enter definitions signature).path.map
      fun frame ↦ 1 + frame.pending.length).sum =
      (1 + (callsOf definitions signature).length) +
        (search.path.map fun frame ↦ 1 + frame.pending.length).sum := by
    simp [enter]
  have hwaiting : (search.enter definitions signature).waiting = search.waiting := rfl
  unfold work
  rw [hpath, hwaiting]
  omega

theorem work_visit {signature : String} (hdefined : signature ∈ definitions) :
    work definitions (search.visit definitions signature) ≤ work definitions search := by
  match hmark : search.marks[signature]? with
  | some .done => rw [visit_of_done hmark]
  | some .entered =>
    rw [visit_of_entered hmark]
    exact le_refl _
  | none =>
    rw [visit_of_unmarked hmark]
    refine work_enter hdefined fun hin ↦ ?_
    rw [Std.ExtTreeMap.mem_iff_isSome_getElem?, hmark] at hin
    cases hin

/-- Every step before the end takes at least one from the work. -/
theorem work_next (h : Invariant definitions search none) (hfinal : ¬ IsFinal search) :
    work definitions (search.next definitions) < work definitions search := by
  unfold next
  split
  · next hpath =>
    split
    · next hwaiting => exact absurd ⟨hwaiting, hpath⟩ hfinal
    · next signature rest hwaiting =>
      have hdefined := h.waiting_defined signature (hwaiting ▸ List.mem_cons_self)
      refine (work_visit hdefined).trans_lt ?_
      have hcosts : (definitions.keys.map (cost definitions { search with waiting := rest })).sum =
          (definitions.keys.map (cost definitions search)).sum := rfl
      unfold work
      rw [hcosts, hwaiting]
      simp only [List.length_cons]
      omega
  · next signature outer hpath =>
    have hcosts : (definitions.keys.map (cost definitions
          { search with path := outer, marks := search.marks.insert signature .done })).sum ≤
        (definitions.keys.map (cost definitions search)).sum :=
      List.sum_le_sum fun other _ ↦
        cost_le_of_marks (fun _ hin ↦ Std.ExtTreeMap.mem_insert.mpr (Or.inr hin)) other
    unfold work
    rw [hpath, List.map_cons, List.sum_cons]
    show search.waiting.length + (outer.map fun frame ↦ 1 + frame.pending.length).sum + _ < _
    omega
  · next signature called pending outer hpath =>
    have hdefined := h.pending_defined ⟨signature, called :: pending⟩ (hpath ▸ List.mem_cons_self)
      called List.mem_cons_self
    refine (work_visit hdefined).trans_lt ?_
    have hcosts : (definitions.keys.map (cost definitions
          { search with path := ⟨signature, pending⟩ :: outer })).sum =
        (definitions.keys.map (cost definitions search)).sum := rfl
    unfold work
    rw [hcosts, hpath]
    simp only [List.map_cons, List.sum_cons, List.length_cons]
    omega

theorem next_of_isFinal (h : IsFinal search) : search.next definitions = search := by
  simp [next, h.1, h.2]

/-- The bound for the number of steps is the work of a search that has not begun. -/
theorem stepsNeeded_eq_work (definitions : Definitions) :
    stepsNeeded definitions = work definitions (start definitions) := by
  have hcost : ∀ signature, cost definitions (start definitions) signature =
      1 + (callsOf definitions signature).length := fun signature ↦ if_neg (by simp [start])
  have hsum : ∀ signatures : List String,
      (signatures.map fun signature ↦ 2 + (callsOf definitions signature).length).foldr (· + ·) 0 =
        signatures.length + (signatures.map (cost definitions (start definitions))).sum := by
    intro signatures
    induction signatures with
    | nil => rfl
    | cons signature rest ih =>
      simp only [List.map_cons, List.foldr_cons, List.sum_cons, List.length_cons, hcost] at ih ⊢
      omega
  rw [stepsNeeded, hsum]
  simp [work, start]

/-- After any number of steps the invariant holds. -/
theorem invariant_repeat (definitions : Definitions) (steps : Nat) :
    Invariant definitions (steps.repeat (next definitions) (start definitions)) none := by
  induction steps with
  | zero => exact invariant_start definitions
  | succ steps ih => exact invariant_next ih

/-- Until the search is final, the steps taken and the work that is left stay within the work of the
whole search. -/
theorem isFinal_or_work_repeat (definitions : Definitions) (steps : Nat) :
    IsFinal (steps.repeat (next definitions) (start definitions)) ∨
      work definitions (steps.repeat (next definitions) (start definitions)) + steps ≤
        work definitions (start definitions) := by
  induction steps with
  | zero => exact Or.inr (le_refl _)
  | succ steps ih =>
    rw [Nat.repeat]
    by_cases hfinal : IsFinal (steps.repeat (next definitions) (start definitions))
    · rw [next_of_isFinal hfinal]
      exact Or.inl hfinal
    · have hless := work_next (invariant_repeat definitions steps) hfinal
      have hbound := ih.resolve_left hfinal
      exact Or.inr (by omega)

/-- The search comes to its end within the steps that it is given. -/
theorem isFinal_run (definitions : Definitions) : IsFinal (run definitions) := by
  rcases isFinal_or_work_repeat definitions (stepsNeeded definitions) with hfinal | hwork
  · exact hfinal
  · have hnone : work definitions (run definitions) = 0 := by
      rw [← stepsNeeded_eq_work] at hwork
      show work definitions ((stepsNeeded definitions).repeat _ _) = 0
      omega
    unfold work at hnone
    constructor
    · exact List.length_eq_zero_iff.mp (by omega)
    · rcases hpath : (run definitions).path with _ | ⟨frame, outer⟩
      · rfl
      · rw [hpath, List.map_cons, List.sum_cons] at hnone
        omega

/-- Unrecorded signatures call each other along well-founded chains: the search records at least one
member of every cycle. -/
theorem wellFounded_callsUnrecorded (definitions : Definitions) :
    WellFounded (CallsUnrecorded definitions (run definitions)) := by
  have hinvariant : Invariant definitions (run definitions) none := invariant_repeat definitions _
  obtain ⟨hwaiting, hpath⟩ := isFinal_run definitions
  refine ⟨fun signature ↦ ?_⟩
  by_cases hdefined : signature ∈ definitions
  · refine hinvariant.done_accessible signature ?_
    have hmarked : signature ∈ (run definitions).marks := by
      rcases hinvariant.reached signature hdefined with hwaits | hhand | hmarked
      · rw [hwaiting] at hwaits
        exact absurd hwaits List.not_mem_nil
      · cases hhand
      · exact hmarked
    match hmark : (run definitions).marks[signature]? with
    | some .done => rfl
    | some .entered =>
      have hopen := hinvariant.entered_open signature hmark
      rw [hpath] at hopen
      exact absurd hopen List.not_mem_nil
    | none =>
      rw [Std.ExtTreeMap.mem_iff_isSome_getElem?, hmark] at hmarked
      cases hmarked
  · exact Acc.intro signature fun called hcall ↦ absurd (caller_mem_of_mem_callsOf hcall.1) hdefined

end LiveSpec.CycleSearch
