import LiveSpec.Concepts.Expansion
import LiveSpec.Proofs.Concepts.Admission
import LiveSpec.Proofs.Document.Threading
import Mathlib.Data.List.Chain
import Mathlib.Data.List.Permutation

/-!
# Expansion comes to an end

The rules by which steps are expanded one after another (`Expansion`) know no bound for the depth: an
invocation is expanded when the steps of its body have been expanded inside its scope, and a mismatch
anywhere stops everything after it. A derivation by these rules is a run of the expansion that comes
to an end. For given steps there is at most one (`Expansion.unique`). In a dictionary that was built
there always is one, and it ends with what `Specification.expand` gives
(`expansion_expand`): on the way down no signature comes twice, so the depth that is allowed
there, the number of concepts, is never used up.

The same holds of the trees that are left. A step that is expanded holds the body of its concept
(`Step.IsExpanded`), so a chain of nested invocations (`IsInvocationChain`) follows invocations
between admitted concepts and has a signature only once.
-/

set_option autoImplicit false

namespace LiveSpec

/-! ### The rules -/

/-- A step as it is copied into a scope, or as it stands when there is none. -/
def Step.within (step : Step) : Option ScopeId → Step
  | none => step
  | some scope => step.inScope scope

section Within

variable (step : Step) (parent : Option ScopeId)

/-- Copying a step into a scope changes nothing but its parent. -/
theorem Step.exists_within_eq : ∃ outer, step.within parent = { step with parent := outer } := by
  obtain ⟨value, text, line, arguments, isConcept, body, own, outer⟩ := step
  cases parent with
  | none => exact ⟨outer, rfl⟩
  | some scope =>
    by_cases hconcept : isConcept = true
    · exact ⟨some scope, if_pos hconcept⟩
    · exact ⟨outer, if_neg hconcept⟩

@[simp] theorem Step.value_within : (step.within parent).value = step.value := by
  obtain ⟨outer, h⟩ := step.exists_within_eq parent
  rw [h]

@[simp] theorem Step.arguments_within : (step.within parent).arguments = step.arguments := by
  obtain ⟨outer, h⟩ := step.exists_within_eq parent
  rw [h]

@[simp] theorem Step.line_within : (step.within parent).line = step.line := by
  obtain ⟨outer, h⟩ := step.exists_within_eq parent
  rw [h]

@[simp] theorem Step.body_within : (step.within parent).body = step.body := by
  obtain ⟨outer, h⟩ := step.exists_within_eq parent
  rw [h]

end Within

/-- An expanded invocation: the step with a body, in a scope of its own. -/
def Step.invoking (step : Step) (parent : Option ScopeId) (scope : ScopeId) (body : List Step) :
    Step :=
  { step with isConcept := true, parent, scope := some scope, body }

/-- The parent that a copied step is given does not matter when the step is expanded. -/
theorem Step.invoking_within (step : Step) (parent : Option ScopeId) (scope : ScopeId)
    (body : List Step) : (step.within parent).invoking parent scope body =
      step.invoking parent scope body := by
  obtain ⟨outer, h⟩ := step.exists_within_eq parent
  rw [h]
  rfl

/-- The mismatch of a call with its concept. -/
def Mismatch.ofCall (concept : Concept) (step : Step) : Mismatch :=
  ⟨concept.signature, concept.parameters.length, step.arguments.length, step.line⟩

/-- Steps that stand in the scope `parent` are expanded one after another. The rules lead from the
steps and the lookups made so far to the steps that are left, the lookups made by then, and the
mismatch that stopped the expansion, if one did. -/
inductive Expansion (dictionary : Dictionary) :
    Option ScopeId → Scopes → List Step → List Step → Scopes → Option Mismatch → Prop
  | nil {parent scopes} : Expansion dictionary parent scopes [] [] scopes none
  /-- The step invokes nothing. -/
  | atomic {parent scopes step rest rest' after outcome}
      (hnone : dictionary.search? step.value = none)
      (hrest : Expansion dictionary parent scopes rest rest' after outcome) :
      Expansion dictionary parent scopes (step :: rest) (step.within parent :: rest') after outcome
  /-- The call does not match its concept, and the steps after it are not touched. -/
  | mismatched {parent scopes step rest concept}
      (hconcept : dictionary.search? step.value = some concept)
      (hcount : concept.parameters.length ≠ step.arguments.length) :
      Expansion dictionary parent scopes (step :: rest) (step.within parent :: rest) scopes
        (some (.ofCall concept step))
  /-- The body has been expanded in the scope of the invocation. -/
  | invocation {parent scopes step rest rest' concept body inner after outcome}
      (hconcept : dictionary.search? step.value = some concept)
      (hcount : concept.parameters.length = step.arguments.length)
      (hbody : Expansion dictionary (some scopes.size)
        (scopes.push (.ofCall parent concept.parameters step.arguments)) concept.body body inner none)
      (hrest : Expansion dictionary parent inner rest rest' after outcome) :
      Expansion dictionary parent scopes (step :: rest)
        (step.invoking parent scopes.size body :: rest') after outcome
  /-- A mismatch in the body stopped the expansion. -/
  | stopped {parent scopes step rest concept body inner mismatch}
      (hconcept : dictionary.search? step.value = some concept)
      (hcount : concept.parameters.length = step.arguments.length)
      (hbody : Expansion dictionary (some scopes.size)
        (scopes.push (.ofCall parent concept.parameters step.arguments)) concept.body body inner
        (some mismatch)) :
      Expansion dictionary parent scopes (step :: rest)
        (step.invoking parent scopes.size body :: rest) inner (some mismatch)

namespace Expansion

variable {dictionary : Dictionary} {parent : Option ScopeId} {scopes after : Scopes}
  {steps left : List Step} {outcome : Option Mismatch}

/-! ### One outcome at most -/

/-- What a step that invokes nothing leads to. -/
theorem of_atomic {step : Step} {rest : List Step}
    (h : Expansion dictionary parent scopes (step :: rest) left after outcome)
    (hnone : dictionary.search? step.value = none) :
    ∃ rest', left = step.within parent :: rest' ∧
      Expansion dictionary parent scopes rest rest' after outcome := by
  cases h with
  | atomic _ hrest => exact ⟨_, rfl, hrest⟩
  | mismatched hconcept => rw [hnone] at hconcept; cases hconcept
  | invocation hconcept => rw [hnone] at hconcept; cases hconcept
  | stopped hconcept => rw [hnone] at hconcept; cases hconcept

/-- What a call with the wrong number of arguments leads to. -/
theorem of_mismatched {step : Step} {rest : List Step} {concept : Concept}
    (h : Expansion dictionary parent scopes (step :: rest) left after outcome)
    (hconcept : dictionary.search? step.value = some concept)
    (hcount : concept.parameters.length ≠ step.arguments.length) :
    left = step.within parent :: rest ∧ after = scopes ∧ outcome = some (.ofCall concept step) := by
  cases h with
  | atomic hnone => rw [hconcept] at hnone; cases hnone
  | mismatched hconcept' =>
    rw [hconcept] at hconcept'
    cases hconcept'
    exact ⟨rfl, rfl, rfl⟩
  | invocation hconcept' hcount' =>
    rw [hconcept] at hconcept'
    cases hconcept'
    exact absurd hcount' hcount
  | stopped hconcept' hcount' =>
    rw [hconcept] at hconcept'
    cases hconcept'
    exact absurd hcount' hcount

/-- What a matching call leads to: its body is expanded, and either that was stopped or the steps
after it are expanded too. -/
theorem of_invocation {step : Step} {rest : List Step} {concept : Concept}
    (h : Expansion dictionary parent scopes (step :: rest) left after outcome)
    (hconcept : dictionary.search? step.value = some concept)
    (hcount : concept.parameters.length = step.arguments.length) :
    ∃ body inner stop rest', left = step.invoking parent scopes.size body :: rest' ∧
      Expansion dictionary (some scopes.size)
        (scopes.push (.ofCall parent concept.parameters step.arguments)) concept.body body inner
        stop ∧
      (stop = none ∧ Expansion dictionary parent inner rest rest' after outcome ∨
        stop.isSome ∧ rest' = rest ∧ after = inner ∧ outcome = stop) := by
  cases h with
  | atomic hnone => rw [hconcept] at hnone; cases hnone
  | mismatched hconcept' hcount' =>
    rw [hconcept] at hconcept'
    cases hconcept'
    exact absurd hcount hcount'
  | invocation hconcept' _ hbody hrest =>
    rw [hconcept] at hconcept'
    cases hconcept'
    exact ⟨_, _, none, _, rfl, hbody, Or.inl ⟨rfl, hrest⟩⟩
  | stopped hconcept' _ hbody =>
    rw [hconcept] at hconcept'
    cases hconcept'
    exact ⟨_, _, some _, _, rfl, hbody, Or.inr ⟨rfl, rfl, rfl, rfl⟩⟩

/-- Expansion has one outcome at most. -/
theorem unique (h : Expansion dictionary parent scopes steps left after outcome)
    {left' : List Step} {after' : Scopes} {outcome' : Option Mismatch}
    (h' : Expansion dictionary parent scopes steps left' after' outcome') :
    left' = left ∧ after' = after ∧ outcome' = outcome := by
  induction h generalizing left' after' outcome' with
  | nil =>
    cases h'
    exact ⟨rfl, rfl, rfl⟩
  | atomic hnone _ ih =>
    obtain ⟨rest', rfl, hrest'⟩ := h'.of_atomic hnone
    obtain ⟨rfl, rfl, rfl⟩ := ih hrest'
    exact ⟨rfl, rfl, rfl⟩
  | mismatched hconcept hcount => exact h'.of_mismatched hconcept hcount
  | invocation hconcept hcount _ _ ihbody ihrest =>
    obtain ⟨body', inner', stop, rest', rfl, hbody', hend⟩ := h'.of_invocation hconcept hcount
    obtain ⟨rfl, rfl, rfl⟩ := ihbody hbody'
    rcases hend with ⟨-, hrest'⟩ | ⟨hstop, -⟩
    · obtain ⟨rfl, rfl, rfl⟩ := ihrest hrest'
      exact ⟨rfl, rfl, rfl⟩
    · cases hstop
  | stopped hconcept hcount _ ihbody =>
    obtain ⟨body', inner', stop, rest', rfl, hbody', hend⟩ := h'.of_invocation hconcept hcount
    obtain ⟨rfl, rfl, rfl⟩ := ihbody hbody'
    rcases hend with ⟨hstop, -⟩ | ⟨-, rfl, rfl, rfl⟩
    · cases hstop
    · exact ⟨rfl, rfl, rfl⟩

/-! ### One step after another -/

/-- Steps that are expanded without a mismatch are followed by the next ones. -/
theorem append {middle : Scopes} {first first' rest rest' : List Step}
    (h : Expansion dictionary parent scopes first first' middle none)
    (hrest : Expansion dictionary parent middle rest rest' after outcome) :
    Expansion dictionary parent scopes (first ++ rest) (first' ++ rest') after outcome := by
  generalize hnone : none = complete at h
  induction h with
  | nil => exact hrest
  | atomic hatomic _ ih => exact .atomic hatomic (ih hrest hnone)
  | mismatched => cases hnone
  | invocation hconcept hcount hbody _ _ ih => exact .invocation hconcept hcount hbody (ih hrest hnone)
  | stopped => cases hnone

/-- A mismatch in a step stops the steps after it. -/
theorem cons_of_single_stopped {step step' : Step} {mismatch : Mismatch}
    (h : Expansion dictionary parent scopes [step] [step'] after (some mismatch))
    (rest : List Step) :
    Expansion dictionary parent scopes (step :: rest) (step' :: rest) after (some mismatch) := by
  cases h with
  | atomic _ hnil => cases hnil
  | mismatched hconcept hcount => exact .mismatched hconcept hcount
  | invocation _ _ _ hnil => cases hnil
  | stopped hconcept hcount hbody => exact .stopped hconcept hcount hbody

/-- Expanding every step of a list in turn expands the list. Assumes: a mismatch is passed along
without a change, and every step is expanded by the rules. -/
theorem threadList_of_single (change : ExpansionState → Step → Step × ExpansionState)
    (hstop : ∀ scopes mismatch step,
      change ⟨scopes, some mismatch⟩ step = (step, ⟨scopes, some mismatch⟩))
    {steps : List Step}
    (hstep : ∀ step ∈ steps, ∀ scopes, Expansion dictionary parent scopes [step]
      [(change ⟨scopes, none⟩ step).1] (change ⟨scopes, none⟩ step).2.scopes
      (change ⟨scopes, none⟩ step).2.mismatch)
    (scopes : Scopes) :
    Expansion dictionary parent scopes steps (threadList change ⟨scopes, none⟩ steps).1
      (threadList change ⟨scopes, none⟩ steps).2.scopes
      (threadList change ⟨scopes, none⟩ steps).2.mismatch := by
  have hstays : ∀ (rest : List Step) (scopes : Scopes) (mismatch : Mismatch),
      threadList change ⟨scopes, some mismatch⟩ rest = (rest, ⟨scopes, some mismatch⟩) := by
    intro rest
    induction rest with
    | nil => intro _ _; rfl
    | cons step rest ih =>
      intro scopes mismatch
      rw [threadList_cons, hstop, ih]
  induction steps generalizing scopes with
  | nil => exact .nil
  | cons step rest ih =>
    have hfirst := hstep step List.mem_cons_self scopes
    rw [threadList_cons]
    generalize change ⟨scopes, none⟩ step = result at hfirst
    obtain ⟨step', inner, stop⟩ := result
    cases stop with
    | none =>
      exact hfirst.append (ih (fun other hother ↦ hstep other (List.mem_cons_of_mem _ hother)) inner)
    | some mismatch =>
      rw [hstays]
      exact cons_of_single_stopped hfirst rest

end Expansion

/-! ### The depth that is allowed -/

section Depth

variable {dictionary : Dictionary} {above : List String}

/-- The signatures of the invocations around a step with a given signature: each of them leads to the
step, and none comes twice. -/
structure Surrounds (dictionary : Dictionary) (above : List String) (signature : String) : Prop where
  different : above.Nodup
  admitted : ∀ outer ∈ above, dictionary.contains outer
  leading : dictionary.contains signature → ∀ outer ∈ above,
    Relation.TransGen dictionary.Invokes outer signature

theorem surrounds_nil (dictionary : Dictionary) (signature : String) :
    Surrounds dictionary [] signature :=
  ⟨List.nodup_nil, fun _ h ↦ absurd h List.not_mem_nil, fun _ _ h ↦ absurd h List.not_mem_nil⟩

/-- Assumes: a dictionary in which no concept invokes itself. The signature of an invocation differs
from those around it. -/
theorem Surrounds.nodup_cons {signature : String} (h : Surrounds dictionary above signature)
    (hacyclic : ∀ signature, ¬ Relation.TransGen dictionary.Invokes signature signature)
    (hadmitted : dictionary.contains signature) : (signature :: above).Nodup :=
  List.nodup_cons.mpr
    ⟨fun hin ↦ hacyclic signature (h.leading hadmitted signature hin), h.different⟩

/-- The steps of a body are surrounded by the invocation and what is around it. -/
theorem Surrounds.inside {signature : String} {concept : Concept}
    (h : Surrounds dictionary above signature)
    (hacyclic : ∀ signature, ¬ Relation.TransGen dictionary.Invokes signature signature)
    (hconcept : dictionary.search? signature = some concept) {child : Step}
    (hchild : child ∈ concept.body) : Surrounds dictionary (signature :: above) child.value := by
  have hadmitted : dictionary.contains signature := Dictionary.contains_iff.mpr ⟨concept, hconcept⟩
  refine ⟨h.nodup_cons hacyclic hadmitted, fun outer houter ↦ ?_, fun hcalled outer houter ↦ ?_⟩
  · rcases List.mem_cons.mp houter with rfl | hrest
    · exact hadmitted
    · exact h.admitted outer hrest
  · have hcall : dictionary.Invokes signature child.value :=
      ⟨concept, hconcept, List.mem_map_of_mem hchild, hcalled⟩
    rcases List.mem_cons.mp houter with rfl | hrest
    · exact .single hcall
    · exact (h.leading hadmitted outer hrest).tail hcall

/-- The expansion of a step of a copied body, unless a step before it was stopped. -/
def expandInside (dictionary : Dictionary) (depth : Nat) (scope : ScopeId) (state : ExpansionState)
    (child : Step) : Step × ExpansionState :=
  if state.mismatch.isSome then (child, state)
  else expandStep dictionary depth (some scope) state (child.within (some scope))

theorem expandStep_atomic {depth : Nat} {parent : Option ScopeId} {scopes : Scopes} {step : Step}
    (hnone : dictionary.search? step.value = none) :
    expandStep dictionary (depth + 1) parent ⟨scopes, none⟩ step = (step, ⟨scopes, none⟩) := by
  simp [expandStep, hnone]

theorem expandStep_mismatched {depth : Nat} {parent : Option ScopeId} {scopes : Scopes} {step : Step}
    {concept : Concept} (hconcept : dictionary.search? step.value = some concept)
    (hcount : concept.parameters.length ≠ step.arguments.length) :
    expandStep dictionary (depth + 1) parent ⟨scopes, none⟩ step =
      (step, ⟨scopes, some (.ofCall concept step)⟩) := by
  simp [expandStep, hconcept, hcount, Mismatch.ofCall]

theorem expandStep_invocation {depth : Nat} {parent : Option ScopeId} {scopes : Scopes} {step : Step}
    {concept : Concept} (hconcept : dictionary.search? step.value = some concept)
    (hcount : concept.parameters.length = step.arguments.length) :
    expandStep dictionary (depth + 1) parent ⟨scopes, none⟩ step =
      let result := threadList (expandInside dictionary depth scopes.size)
        ⟨scopes.push (.ofCall parent concept.parameters step.arguments), none⟩ concept.body
      (step.invoking parent scopes.size result.1, result.2) := by
  simp only [expandStep, hconcept, Option.isSome_none, Bool.false_eq_true, if_false,
    if_neg (not_not_intro hcount)]
  rfl

/-- Assumes: a dictionary in which no concept invokes itself, and a depth that makes up the size of
the dictionary with the invocations around the step. Expanding the step to that depth expands it by
the rules. -/
theorem expansion_expandStep
    (hacyclic : ∀ signature, ¬ Relation.TransGen dictionary.Invokes signature signature)
    {depth : Nat} {step : Step} (hsurrounds : Surrounds dictionary above step.value)
    (hdepth : above.length + depth = dictionary.size) (parent : Option ScopeId) (scopes : Scopes) :
    Expansion dictionary parent scopes [step]
      [(expandStep dictionary depth parent ⟨scopes, none⟩ (step.within parent)).1]
      (expandStep dictionary depth parent ⟨scopes, none⟩ (step.within parent)).2.scopes
      (expandStep dictionary depth parent ⟨scopes, none⟩ (step.within parent)).2.mismatch := by
  induction depth generalizing above step parent scopes with
  | zero =>
    -- all signatures are around the step, so its own is not among them
    refine .atomic ?_ .nil
    by_contra hsome
    have hadmitted : dictionary.contains step.value :=
      Dictionary.contains_iff.mpr (Option.ne_none_iff_exists'.mp hsome)
    have hlength := Dictionary.length_le_size (hsurrounds.nodup_cons hacyclic hadmitted)
      fun outer houter ↦ by
        rcases List.mem_cons.mp houter with rfl | hrest
        · exact hadmitted
        · exact hsurrounds.admitted outer hrest
    rw [List.length_cons] at hlength
    omega
  | succ depth ih =>
    cases hconcept : dictionary.search? step.value with
    | none =>
      rw [expandStep_atomic (by rw [Step.value_within]; exact hconcept)]
      exact .atomic hconcept .nil
    | some concept =>
      have hsame : dictionary.search? (step.within parent).value = some concept := by
        rw [Step.value_within]
        exact hconcept
      by_cases hcount : concept.parameters.length = step.arguments.length
      · have hbody := Expansion.threadList_of_single (expandInside dictionary depth scopes.size)
          (fun _ _ _ ↦ rfl)
          (fun child hchild inner ↦ ih (hsurrounds.inside hacyclic hconcept hchild)
            (by rw [List.length_cons]; omega) (some scopes.size) inner)
          (scopes.push (.ofCall parent concept.parameters step.arguments))
        rw [expandStep_invocation hsame (by rw [Step.arguments_within]; exact hcount),
          Step.arguments_within]
        generalize threadList _ _ concept.body = result at hbody
        obtain ⟨body, inner, stop⟩ := result
        simp only [Step.invoking_within]
        cases stop with
        | none => exact .invocation hconcept hcount hbody .nil
        | some mismatch => exact .stopped hconcept hcount hbody
      · rw [expandStep_mismatched hsame (by rw [Step.arguments_within]; exact hcount)]
        have hcall : Mismatch.ofCall concept (step.within parent) = .ofCall concept step := by
          simp [Mismatch.ofCall]
        rw [hcall]
        exact .mismatched hconcept hcount

/-- Assumes: a dictionary in which no concept invokes itself. Expanding a specification is a run by
the rules over its steps that comes to an end. -/
theorem expansion_expand
    (hacyclic : ∀ signature, ¬ Relation.TransGen dictionary.Invokes signature signature)
    (spec : Specification) :
    Expansion dictionary none spec.scopes spec.steps (spec.expand dictionary).1.steps
      (spec.expand dictionary).1.scopes (spec.expand dictionary).2 := by
  have hstop : ∀ scopes mismatch step,
      expandStep dictionary dictionary.size none ⟨scopes, some mismatch⟩ step =
        (step, ⟨scopes, some mismatch⟩) := by
    intro scopes mismatch step
    cases dictionary.size with
    | zero => rfl
    | succ depth => simp [expandStep]
  have hsteps := Expansion.threadList_of_single
    (expandStep dictionary dictionary.size none) hstop
    (fun step (_ : step ∈ spec.steps) scopes ↦ expansion_expandStep hacyclic (surrounds_nil dictionary step.value)
      (Nat.zero_add _) none scopes) spec.scopes
  rw [← Specification.steps_threadSteps, ← Specification.state_threadSteps] at hsteps
  exact hsteps

end Depth

/-! ### Chains of nested invocations -/

section Chains

variable {dictionary : Dictionary}

/-- The step has been expanded: it is the invocation of a concept, has a scope, and owns the steps of
the body of that concept. -/
def Step.IsExpanded (step : Step) (dictionary : Dictionary) : Prop :=
  ∃ concept, dictionary.search? step.value = some concept ∧ step.isConcept ∧ step.scope.isSome ∧
    step.body.map Step.value = concept.body.map Step.value

/-- Steps with the signatures of concepts, the outermost first, each in the body of the one before
it. -/
structure IsInvocationChain (dictionary : Dictionary) (chain : List Step) : Prop where
  nested : chain.IsChain fun outer inner ↦ inner ∈ outer.body
  invoking : ∀ step ∈ chain, dictionary.contains step.value

theorem IsInvocationChain.tail {outer : Step} {rest : List Step}
    (h : IsInvocationChain dictionary (outer :: rest)) : IsInvocationChain dictionary rest :=
  ⟨h.nested.tail, fun step hstep ↦ h.invoking step (List.mem_cons_of_mem _ hstep)⟩

/-- Assumes: a chain of nested invocations in which every step but the last has been expanded. Each
signature leads to the next one by an invocation between admitted concepts. -/
theorem IsInvocationChain.invokes {chain : List Step} (h : IsInvocationChain dictionary chain)
    (hexpanded : ∀ step ∈ chain.dropLast, step.IsExpanded dictionary) :
    (chain.map Step.value).IsChain dictionary.Invokes := by
  induction chain with
  | nil => exact .nil
  | cons outer rest ih =>
    cases rest with
    | nil => exact .singleton _
    | cons inner rest =>
      rw [List.dropLast_cons_cons] at hexpanded
      obtain ⟨concept, hconcept, -, -, hvalues⟩ := hexpanded outer List.mem_cons_self
      obtain ⟨hinner, -⟩ := List.isChain_cons_cons.mp h.nested
      refine List.isChain_cons_cons.mpr ⟨⟨concept, hconcept, ?_, ?_⟩, ?_⟩
      · rw [← hvalues]
        exact List.mem_map_of_mem hinner
      · exact h.invoking inner (List.mem_cons_of_mem _ List.mem_cons_self)
      · exact ih h.tail fun step hstep ↦ hexpanded step (List.mem_cons_of_mem _ hstep)

/-- Assumes: a dictionary in which no concept invokes itself. Signatures of which each leads to the
next one by an invocation are different. -/
theorem nodup_of_invokes
    (hacyclic : ∀ signature, ¬ Relation.TransGen dictionary.Invokes signature signature)
    {signatures : List String} (h : signatures.IsChain dictionary.Invokes) : signatures.Nodup := by
  have hleads : signatures.Pairwise (Relation.TransGen dictionary.Invokes) :=
    (h.imp fun _ _ hcall ↦ Relation.TransGen.single hcall).pairwise
  refine List.nodup_iff_pairwise_ne.mpr (hleads.imp fun {outer inner} hlead heq ↦ ?_)
  rw [← heq] at hlead
  exact hacyclic outer hlead

/-- Expansion changes no signature at its own level. -/
theorem Expansion.values {parent : Option ScopeId} {scopes after : Scopes} {steps left : List Step}
    {outcome : Option Mismatch}
    (h : Expansion dictionary parent scopes steps left after outcome) :
    left.map Step.value = steps.map Step.value := by
  induction h with
  | nil => rfl
  | atomic _ _ ih => rw [List.map_cons, List.map_cons, ih, Step.value_within]
  | mismatched => rw [List.map_cons, List.map_cons, Step.value_within]
  | invocation _ _ _ _ _ ih => rw [List.map_cons, List.map_cons, ih]; rfl
  | stopped => rfl

/-- The steps own no steps, which is how they are written. -/
def OwnNoSteps (steps : List Step) : Prop := ∀ step ∈ steps, step.body = []

/-- A chain that starts in steps that own none is one step long. -/
theorem IsInvocationChain.dropLast_eq_nil {steps : List Step} {head : Step} {rest : List Step}
    (h : IsInvocationChain dictionary (head :: rest)) (hhead : head ∈ steps)
    (hsteps : OwnNoSteps steps) : (head :: rest).dropLast = [] := by
  cases rest with
  | nil => rfl
  | cons inner rest =>
    have hinner := (List.isChain_cons_cons.mp h.nested).1
    rw [hsteps head hhead] at hinner
    exact absurd hinner List.not_mem_nil

/-- Assumes: a chain of nested invocations whose first step has been expanded. It is enough to look at
the chains that start in the body of that step. -/
theorem IsInvocationChain.isExpanded_of_body {head : Step} {rest : List Step}
    (h : IsInvocationChain dictionary (head :: rest)) (hhead : head.IsExpanded dictionary)
    (hbody : ∀ inner rest, IsInvocationChain dictionary (inner :: rest) → inner ∈ head.body →
      ∀ step ∈ (inner :: rest).dropLast, step.IsExpanded dictionary) :
    ∀ step ∈ (head :: rest).dropLast, step.IsExpanded dictionary := by
  intro step hstep
  cases rest with
  | nil => exact absurd hstep List.not_mem_nil
  | cons inner rest =>
    rw [List.dropLast_cons_cons] at hstep
    rcases List.mem_cons.mp hstep with rfl | hrest
    · exact hhead
    · exact hbody inner rest h.tail (List.isChain_cons_cons.mp h.nested).1 step hrest

/-- Assumes: an expansion without a mismatch, or one of steps that own none with concepts whose steps
own none. In the trees that are left, every step of a chain of nested invocations but the last has
been expanded. -/
theorem Expansion.isExpanded_of_chain {parent : Option ScopeId} {scopes after : Scopes}
    {steps left : List Step} {outcome : Option Mismatch}
    (h : Expansion dictionary parent scopes steps left after outcome)
    (hcomplete : outcome = none ∨ OwnNoSteps steps ∧
      ∀ signature concept, dictionary.search? signature = some concept → OwnNoSteps concept.body)
    {head : Step} {rest : List Step} (hchain : IsInvocationChain dictionary (head :: rest))
    (hhead : head ∈ left) : ∀ step ∈ (head :: rest).dropLast, step.IsExpanded dictionary := by
  induction h generalizing head rest with
  | nil => exact absurd hhead List.not_mem_nil
  | atomic hnone _ ih =>
    rcases List.mem_cons.mp hhead with rfl | hin
    · obtain ⟨concept, hconcept⟩ :=
        Dictionary.contains_iff.mp (hchain.invoking _ List.mem_cons_self)
      rw [Step.value_within, hnone] at hconcept
      cases hconcept
    · exact ih (hcomplete.imp_right fun hleaves ↦
        ⟨fun step hstep ↦ hleaves.1 step (List.mem_cons_of_mem _ hstep), hleaves.2⟩) hchain hin
  | mismatched _ _ =>
    obtain ⟨hsteps, -⟩ := hcomplete.resolve_left (Option.some_ne_none _)
    rw [hchain.dropLast_eq_nil hhead ?_]
    · exact fun step hstep ↦ absurd hstep List.not_mem_nil
    · intro step hstep
      rcases List.mem_cons.mp hstep with rfl | hin
      · rw [Step.body_within]
        exact hsteps _ List.mem_cons_self
      · exact hsteps step (List.mem_cons_of_mem _ hin)
  | invocation hconcept _ hbody _ ihbody ihrest =>
    rcases List.mem_cons.mp hhead with rfl | hin
    · exact hchain.isExpanded_of_body ⟨_, hconcept, rfl, rfl, hbody.values⟩
        fun inner rest hinner hmem ↦ ihbody (Or.inl rfl) hinner hmem
    · exact ihrest (hcomplete.imp_right fun hleaves ↦
        ⟨fun step hstep ↦ hleaves.1 step (List.mem_cons_of_mem _ hstep), hleaves.2⟩) hchain hin
  | stopped hconcept _ hbody ihbody =>
    obtain ⟨hsteps, hconcepts⟩ := hcomplete.resolve_left (Option.some_ne_none _)
    rcases List.mem_cons.mp hhead with rfl | hin
    · exact hchain.isExpanded_of_body ⟨_, hconcept, rfl, rfl, hbody.values⟩
        fun inner rest hinner hmem ↦
          ihbody (Or.inr ⟨hconcepts _ _ hconcept, hconcepts⟩) hinner hmem
    · rw [hchain.dropLast_eq_nil hin fun step hstep ↦ hsteps step (List.mem_cons_of_mem _ hstep)]
      exact fun step hstep ↦ absurd hstep List.not_mem_nil

/-- Admitted concepts own steps at one level only, if the given ones do. -/
theorem ownNoSteps_build {concepts : List Concept}
    (h : ∀ concept ∈ concepts, OwnNoSteps concept.body) {signature : String} {concept : Concept}
    (hconcept : (Dictionary.build concepts).1.search? signature = some concept) :
    OwnNoSteps concept.body := by
  obtain ⟨definition, isAdmitted, hmem, -, rfl⟩ := Dictionary.search?_build hconcept
  intro step hstep
  rw [Dictionary.body_markInvocations] at hstep
  obtain ⟨original, horiginal, rfl⟩ := List.mem_map.mp hstep
  exact h definition hmem original horiginal

end Chains

/-- No admitted concept invokes itself, directly or through others. So every expansion with the
dictionary comes to an end, with the outcome that `Specification.expand` gives and no other, and a
chain of nested invocations in the trees that are left has a signature only once and is no longer
than the dictionary. The chain starts in a step of the specification, and each of its steps but the
last has been expanded: that is so of every chain when there was no mismatch, and also after one when
the steps were expanded as they are written, that is, when neither those of the specification nor
those of the concepts own steps. -/
theorem build_acyclic_and_expansion_ends (concepts : List Concept) :
    let dictionary := (Dictionary.build concepts).1
    (∀ signature, ¬ Relation.TransGen dictionary.Invokes signature signature) ∧
      ∀ spec : Specification,
        (∀ left after outcome,
          Expansion dictionary none spec.scopes spec.steps left after outcome ↔
            left = (spec.expand dictionary).1.steps ∧ after = (spec.expand dictionary).1.scopes ∧
              outcome = (spec.expand dictionary).2) ∧
        ∀ chain, IsInvocationChain dictionary chain →
          (∀ step ∈ chain.head?, step ∈ (spec.expand dictionary).1.steps) →
          ((spec.expand dictionary).2 = none ∨
            (OwnNoSteps spec.steps ∧ ∀ concept ∈ concepts, OwnNoSteps concept.body) ∨
            ∀ step ∈ chain.dropLast, step.IsExpanded dictionary) →
          (chain.map Step.value).Nodup ∧ chain.length ≤ dictionary.size := by
  intro dictionary
  have hacyclic := Dictionary.not_invokes_self (Dictionary.wellFounded_invokes_build concepts)
  refine ⟨hacyclic, fun spec ↦ ?_⟩
  have hends := expansion_expand hacyclic spec
  refine ⟨fun left after outcome ↦ ⟨hends.unique, ?_⟩, fun chain hchain hstart hcomplete ↦ ?_⟩
  · rintro ⟨rfl, rfl, rfl⟩
    exact hends
  · have hexpanded : ∀ step ∈ chain.dropLast, step.IsExpanded dictionary := by
      rw [← or_assoc] at hcomplete
      rcases hcomplete with hcomplete | hexpanded
      · cases chain with
        | nil => exact fun step hstep ↦ absurd hstep List.not_mem_nil
        | cons head rest =>
          exact hends.isExpanded_of_chain (hcomplete.imp_right fun hleaves ↦
            ⟨hleaves.1, fun _ _ ↦ ownNoSteps_build hleaves.2⟩) hchain (hstart head rfl)
      · exact hexpanded
    have hdifferent := nodup_of_invokes hacyclic (hchain.invokes hexpanded)
    refine ⟨hdifferent, ?_⟩
    have hlength := Dictionary.length_le_size hdifferent fun signature hsignature ↦ by
      obtain ⟨step, hstep, rfl⟩ := List.mem_map.mp hsignature
      exact hchain.invoking step hstep
    rwa [List.length_map] at hlength

/-- A concept that invokes another one with its parameter, and one that invokes itself. -/
def loginConcepts : List Concept :=
  [.ofRoot ⟨"login.cpt"⟩
      { Step.written "Log in as \x7b\x7d" "Log in as <user>" 1 [.dynamic "user"] with
        body := [.written "Type \x7b\x7d" "Type <user>" 2 [.dynamic "user"]] },
    .ofRoot ⟨"login.cpt"⟩
      { Step.written "Type \x7b\x7d" "Type <text>" 4 [.dynamic "text"] with
        body := [.written "Press keys" "Press keys" 5 []] },
    .ofRoot ⟨"login.cpt"⟩
      { Step.written "Retry" "Retry" 7 [] with
        body := [.written "Retry" "Retry" 8 [], .written "Press keys" "Press keys" 9 []] }]

/-- A specification that invokes the first of these concepts. -/
def loginSpecification : Specification :=
  ⟨⟨"Login", 1⟩, ⟨"login.spec"⟩,
    [.context (.written "Log in as \x7b\x7d" "Log in as \"alice\"" 2 [.static "alice"])], .empty⟩

/-- The inner one of the invocations that this leads to. -/
def typingStep : Step :=
  (Step.written "Type \x7b\x7d" "Type <user>" 2 [.dynamic "user"]).invoking (some 0) 1
    [.written "Press keys" "Press keys" 5 []]

/-- The outer one. -/
def loginStep : Step :=
  (Step.written "Log in as \x7b\x7d" "Log in as \"alice\"" 2 [.static "alice"]).invoking none 0
    [typingStep]

/-- The two nested invocations have different signatures, and the dictionary holds two concepts. -/
theorem build_acyclic_and_expansion_ends_login :
    IsInvocationChain (Dictionary.build loginConcepts).1 [loginStep, typingStep] ∧
      loginStep ∈ (loginSpecification.expand (Dictionary.build loginConcepts).1).1.steps ∧
      (loginSpecification.expand (Dictionary.build loginConcepts).1).2 = none ∧
      ([loginStep, typingStep].map Step.value).Nodup ∧
      [loginStep, typingStep].length ≤ (Dictionary.build loginConcepts).1.size := by
  have hchain : IsInvocationChain (Dictionary.build loginConcepts).1 [loginStep, typingStep] := by
    refine ⟨List.isChain_cons_cons.mpr ⟨List.mem_cons_self, .singleton _⟩, fun step hstep ↦ ?_⟩
    rcases List.mem_cons.mp hstep with rfl | hinner
    · decide +kernel
    · rw [List.mem_singleton.mp hinner]
      decide +kernel
  have hsteps : (loginSpecification.expand (Dictionary.build loginConcepts).1).1.steps =
      [loginStep] := by decide +kernel
  have hmem : loginStep ∈
      (loginSpecification.expand (Dictionary.build loginConcepts).1).1.steps := by
    rw [hsteps]
    exact List.mem_cons_self
  have hnone : (loginSpecification.expand (Dictionary.build loginConcepts).1).2 = none := by decide +kernel
  have hresult := ((build_acyclic_and_expansion_ends loginConcepts).2 loginSpecification).2
    [loginStep, typingStep] hchain
    (fun step hstep ↦ by rw [← Option.some.inj (Option.mem_def.mp hstep)]; exact hmem)
    (Or.inl hnone)
  exact ⟨hchain, hmem, hnone, hresult⟩

end LiveSpec
