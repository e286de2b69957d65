import LiveSpec.Proofs.Concepts.FullExpansion

/-!
# Where expansion stops

The full expansion has its calls in the order in which the trees are read. Expanding the steps goes through the same
calls in this order, and stops at the first that does not fit its concept. What it leaves then can be told without
running it (`StopsAt`): the steps before the place are expanded, around it the invocations are open down to the one
that was refused, and this one and all steps after it stay as they are written or as they were copied. There is such
a place for every call of the full expansion (`FullExpansion.exists_stopsAt`).

The lookups that have been made by then are those of the calls before (`StopsAt.expansion`). For a specification,
`Specification.stopsAtFirst_expand` puts this together.
-/

set_option autoImplicit false

namespace LiveSpec

variable {dictionary : Dictionary} {parent : Option ScopeId} {next : ScopeId} {steps full left : List Step}
  {calls earlier : List ConceptCall} {call : ConceptCall}

/-- Steps that stand in the scope `parent`, and what is left of them when expansion stops at a call after some
earlier ones. The scopes are numbered from `next` on. -/
inductive StopsAt (dictionary : Dictionary) :
    Option ScopeId → ScopeId → List Step → List Step → List ConceptCall → ConceptCall → Prop
  /-- The call is one of the steps. It stays as it was copied, or as it is written where there is no scope to copy it
  into. -/
  | here {parent next before before' earlier step concept later}
      (hbefore : FullExpansion dictionary parent next before before' earlier)
      (hconcept : dictionary.search? step.value = some concept) :
      StopsAt dictionary parent next (before ++ step :: later) (before' ++ step.within parent :: later) earlier
        (step.call parent concept)
  /-- The call is inside of one of the steps. -/
  | inside {parent next before before' earlier step concept later body inner call}
      (hbefore : FullExpansion dictionary parent next before before' earlier)
      (hconcept : dictionary.search? step.value = some concept)
      (hbody : StopsAt dictionary (some (next + earlier.length)) (next + earlier.length + 1) concept.body body inner
        call) :
      StopsAt dictionary parent next (before ++ step :: later)
        (before' ++ step.invoking parent (next + earlier.length) body :: later)
        (earlier ++ step.call parent concept :: inner) call

namespace StopsAt

/-- A step that invokes nothing comes before the place. -/
theorem cons_atomic {step : Step} (hnone : dictionary.search? step.value = none)
    (h : StopsAt dictionary parent next steps left earlier call) :
    StopsAt dictionary parent next (step :: steps) (step.within parent :: left) earlier call := by
  cases h with
  | here hbefore hconcept => exact .here (.atomic hnone hbefore) hconcept
  | inside hbefore hconcept hbody => exact .inside (.atomic hnone hbefore) hconcept hbody

/-- An invocation comes before the place, with all calls in its body. -/
theorem cons_invocation {step : Step} {concept : Concept} {body : List Step} {inner : List ConceptCall}
    (hconcept : dictionary.search? step.value = some concept)
    (hbody : FullExpansion dictionary (some next) (next + 1) concept.body body inner)
    (h : StopsAt dictionary parent (next + 1 + inner.length) steps left earlier call) :
    StopsAt dictionary parent next (step :: steps) (step.invoking parent next body :: left)
      (step.call parent concept :: (inner ++ earlier)) call := by
  cases h with
  | here hbefore hlast => exact .here (.invocation hconcept hbody hbefore) hlast
  | @inside _ _ before before' earlier last called later lastBody lastInner _ hbefore hlast hlastBody =>
    have hnumber : next + 1 + inner.length + earlier.length =
        next + (step.call parent concept :: (inner ++ earlier)).length := by
      rw [List.length_cons, List.length_append, Nat.add_assoc, Nat.add_assoc, Nat.add_comm 1]
    rw [hnumber] at hlastBody ⊢
    have hall : StopsAt dictionary parent next _ (_ ++ _ :: later) _ call :=
      .inside (.invocation hconcept hbody hbefore) hlast hlastBody
    simpa only [List.cons_append, List.append_assoc] using hall

end StopsAt

/-- For every call of a full expansion there is what is left when expansion stops there. -/
theorem FullExpansion.exists_stopsAt (h : FullExpansion dictionary parent next steps full calls)
    {later : List ConceptCall} (hcalls : calls = earlier ++ call :: later) :
    ∃ left, StopsAt dictionary parent next steps left earlier call := by
  induction h generalizing earlier later with
  | nil => simp at hcalls
  | atomic hnone _ ih =>
    obtain ⟨left, hleft⟩ := ih hcalls
    exact ⟨_, hleft.cons_atomic hnone⟩
  | @invocation parent next step rest rest' concept body inner calls hconcept hbody _ ihbody ihrest =>
    cases earlier with
    | nil =>
      obtain ⟨rfl, -⟩ := List.cons.inj hcalls
      exact ⟨_, .here .nil hconcept⟩
    | cons first earlier =>
      obtain ⟨rfl, hsplit⟩ := List.cons.inj hcalls
      rcases List.append_eq_append_iff.mp hsplit with ⟨after, rfl, hrest⟩ | ⟨after, hinner, hrest⟩
      · obtain ⟨left, hleft⟩ := ihrest hrest
        exact ⟨_, hleft.cons_invocation hconcept hbody⟩
      · cases after with
        | nil =>
          rw [List.append_nil] at hinner
          subst hinner
          obtain ⟨left, hleft⟩ := @ihrest [] _ hrest.symm
          have hall := hleft.cons_invocation hconcept hbody
          rw [List.append_nil] at hall
          exact ⟨_, hall⟩
        | cons other after =>
          obtain ⟨rfl, -⟩ := List.cons.inj hrest
          obtain ⟨left, hleft⟩ := ihbody hinner
          exact ⟨_, .inside .nil hconcept hleft⟩

/-! ### The expansion that stops -/

/-- Assumes: calls that fit, and the next one that does not. Expansion stops there, after it has made the lookups of
the earlier calls. -/
theorem StopsAt.expansion (h : StopsAt dictionary parent next steps left earlier call) {scopes : Scopes}
    (hnext : scopes.size = next) (hearlier : ∀ other ∈ earlier, other.Fits) (hcall : ¬ call.Fits) :
    Expansion dictionary parent scopes steps left (scopes.pushAll (earlier.map ConceptCall.lookup))
      (some call.mismatch) := by
  induction h generalizing scopes with
  | here hbefore hconcept =>
    exact (hbefore.expansion hnext hearlier).append (.mismatched hconcept hcall)
  | @inside parent next before before' earlier step concept later body inner call hbefore hconcept _ ih =>
    rw [List.forall_mem_append, List.forall_mem_cons] at hearlier
    obtain ⟨hfirst, hfits, hinner⟩ := hearlier
    have hsize : (scopes.pushAll (earlier.map ConceptCall.lookup)).size = next + earlier.length := by
      rw [Scopes.size_pushAll, List.length_map, hnext]
    have hpushed : ((scopes.pushAll (earlier.map ConceptCall.lookup)).push
        (step.call parent concept).lookup).size = next + earlier.length + 1 := by
      rw [Scopes.size_push, hsize]
    have hbody := ih hpushed hinner hcall
    rw [List.map_append, List.map_cons, Scopes.pushAll_append, Scopes.pushAll_cons]
    rw [← hsize] at hbody ⊢
    exact (hbefore.expansion hnext hfirst).append (.stopped hconcept hfits hbody)

/-- The first call that does not fit, if there is one. -/
theorem exists_first_misfit {calls : List ConceptCall} (h : ∃ call ∈ calls, ¬ call.Fits) :
    ∃ earlier call later, calls = earlier ++ call :: later ∧ (∀ other ∈ earlier, other.Fits) ∧ ¬ call.Fits := by
  obtain ⟨call, hcall⟩ : ∃ call, calls.find? (¬ ·.Fits) = some call :=
    Option.isSome_iff_exists.mp (List.find?_isSome.mpr (by simpa using h))
  obtain ⟨hfits, earlier, later, hcalls, hearlier⟩ := List.find?_eq_some_iff_append.mp hcall
  exact ⟨earlier, call, later, hcalls, by simpa using hearlier, by simpa using hfits⟩

namespace FullExpansion

variable {concepts : List Concept} {spec : Specification}

/-- Assumes: calls that all fit. The full expansion is what expanding the specification leaves. -/
theorem expand_eq
    (h : FullExpansion (Dictionary.build concepts).1 none spec.scopes.size spec.steps full calls)
    (hfit : ∀ call ∈ calls, call.Fits) : spec.expand (Dictionary.build concepts).1 =
      ({ spec.withSteps full with scopes := spec.scopes.pushAll (calls.map ConceptCall.lookup) }, none) :=
  (h.expansion rfl hfit).expand_build_eq

/-- Assumes: a call that does not fit, after others that do. Expanding the specification stops there. -/
theorem exists_stopsAt_expand
    (h : FullExpansion (Dictionary.build concepts).1 none spec.scopes.size spec.steps full calls)
    {later : List ConceptCall} (hcalls : calls = earlier ++ call :: later)
    (hearlier : ∀ other ∈ earlier, other.Fits) (hcall : ¬ call.Fits) :
    ∃ left, StopsAt (Dictionary.build concepts).1 none spec.scopes.size spec.steps left earlier call ∧
      spec.expand (Dictionary.build concepts).1 =
        ({ spec.withSteps left with scopes := spec.scopes.pushAll (earlier.map ConceptCall.lookup) },
          some call.mismatch) := by
  obtain ⟨left, hleft⟩ := h.exists_stopsAt hcalls
  exact ⟨left, hleft, (hleft.expansion rfl hearlier hcall).expand_build_eq⟩

/-- Expanding the specification is refused exactly when some call does not fit. -/
theorem expand_ne_none_iff
    (h : FullExpansion (Dictionary.build concepts).1 none spec.scopes.size spec.steps full calls) :
    (spec.expand (Dictionary.build concepts).1).2 ≠ none ↔ ∃ call ∈ calls, ¬ call.Fits := by
  constructor
  · intro hrefused
    by_contra hfit
    push Not at hfit
    exact hrefused (by rw [h.expand_eq hfit])
  · intro hmisfit
    obtain ⟨earlier, call, later, hcalls, hearlier, hcall⟩ := exists_first_misfit hmisfit
    obtain ⟨left, -, hexpand⟩ := h.exists_stopsAt_expand hcalls hearlier hcall
    rw [hexpand]
    exact Option.some_ne_none _

end FullExpansion

/-- A specification has one full expansion. When all calls of it fit their concepts, it is what expansion leaves, with
the lookups of the calls in order. Otherwise expansion is refused, and it stops at the first call that does not fit:
the mismatch names its concept, the two numbers and its line, what is left are the steps with that place in them,
everything else stays as it is, and the lookups that were made are those of the calls before, in order. -/
theorem Specification.stopsAtFirst_expand (concepts : List Concept) (spec : Specification) :
    let dictionary := (Dictionary.build concepts).1
    ∃ full calls,
      (∀ full' calls', FullExpansion dictionary none spec.scopes.size spec.steps full' calls' ↔
        full' = full ∧ calls' = calls) ∧
      ((spec.expand dictionary).2 ≠ none ↔ ∃ call ∈ calls, ¬ call.Fits) ∧
      ((∀ call ∈ calls, call.Fits) → spec.expand dictionary =
        ({ spec.withSteps full with scopes := spec.scopes.pushAll (calls.map ConceptCall.lookup) }, none)) ∧
      ∀ earlier call later, calls = earlier ++ call :: later → (∀ other ∈ earlier, other.Fits) → ¬ call.Fits →
        ∃ left, StopsAt dictionary none spec.scopes.size spec.steps left earlier call ∧
          spec.expand dictionary =
            ({ spec.withSteps left with scopes := spec.scopes.pushAll (earlier.map ConceptCall.lookup) },
              some call.mismatch) := by
  intro dictionary
  obtain ⟨full, calls, hfull⟩ :=
    exists_fullExpansion (Dictionary.wellFounded_invokes_build concepts) spec.steps none spec.scopes.size
  refine ⟨full, calls, fun full' calls' ↦ ⟨hfull.unique, ?_⟩, hfull.expand_ne_none_iff, hfull.expand_eq,
    fun earlier call later hcalls hearlier hcall ↦ hfull.exists_stopsAt_expand hcalls hearlier hcall⟩
  rintro ⟨rfl, rfl⟩
  exact hfull

/-- A greeting calls a whisper with its parameter and then says nothing, where one word has to be said. -/
def greetConcept : Concept :=
  .ofRoot ⟨"greet.cpt"⟩
    { Step.written "Greet \x7b\x7d" "Greet <who>" 1 [.dynamic "who"] with
      body :=
        [{ Step.written "Whisper \x7b\x7d" "Whisper <who>" 2 [.dynamic "who"] with isConcept := true },
          { Step.written "Say \x7b\x7d" "Say \x7b\x7d" 3 [] with isConcept := true },
          .written "Leave" "Leave" 4 []] }

/-- A concept with one parameter, the step of which invokes nothing. -/
def speakingConcept (value text : String) (line : Nat) : Concept :=
  .ofRoot ⟨"greet.cpt"⟩
    { Step.written value text line [.dynamic "word"] with
      body := [.written "Speak \x7b\x7d" "Speak <word>" (line + 1) [.dynamic "word"]] }

def whisperConcept : Concept := speakingConcept "Whisper \x7b\x7d" "Whisper <word>" 5

def sayWordConcept : Concept := speakingConcept "Say \x7b\x7d" "Say <word>" 7

def whisperedConcepts : List Concept := [greetConcept, whisperConcept, sayWordConcept]

/-- A greeting and a word. -/
def greeting : Specification :=
  ⟨⟨"Greeting", 1⟩, ⟨"greet.spec"⟩,
    [.context (.written "Greet \x7b\x7d" "Greet \"ann\"" 2 [.static "ann"]),
      .context (.written "Say \x7b\x7d" "Say \"bye\"" 3 [.static "bye"])], .empty⟩

/-- The calls of the greeting in full, the one that says nothing among them. -/
def greetingCalls : List ConceptCall :=
  [⟨none, greetConcept, [.static "ann"], 2⟩, ⟨some 0, whisperConcept, [.dynamic "who"], 2⟩,
    ⟨some 0, sayWordConcept, [], 3⟩, ⟨none, sayWordConcept, [.static "bye"], 3⟩]

theorem fullExpansion_greeting :
    ∃ full, FullExpansion (Dictionary.build whisperedConcepts).1 none 0 greeting.steps full greetingCalls := by
  have hgreet : (Dictionary.build whisperedConcepts).1.search? "Greet \x7b\x7d" = some greetConcept := by
    decide +kernel
  have hwhisper : (Dictionary.build whisperedConcepts).1.search? "Whisper \x7b\x7d" = some whisperConcept := by
    decide +kernel
  have hsay : (Dictionary.build whisperedConcepts).1.search? "Say \x7b\x7d" = some sayWordConcept := by
    decide +kernel
  have hspeak : (Dictionary.build whisperedConcepts).1.search? "Speak \x7b\x7d" = none := by decide +kernel
  have hleave : (Dictionary.build whisperedConcepts).1.search? "Leave" = none := by decide +kernel
  obtain ⟨body, hbody⟩ : ∃ body, FullExpansion (Dictionary.build whisperedConcepts).1 (some 0) 1
      greetConcept.body body [⟨some 0, whisperConcept, [.dynamic "who"], 2⟩, ⟨some 0, sayWordConcept, [], 3⟩] :=
    ⟨_, @FullExpansion.invocation _ _ _ _ _ _ _ _ [] [_] hwhisper (.atomic hspeak .nil)
      (@FullExpansion.invocation _ _ _ _ _ _ _ _ [] [] hsay (.atomic hspeak .nil) (.atomic hleave .nil))⟩
  exact ⟨_, .invocation hgreet hbody
    (@FullExpansion.invocation _ _ _ _ _ _ _ _ [] [] hsay (.atomic hspeak .nil) .nil)⟩

/-- Expansion stops inside of the greeting, after the whisper, and the word is not touched. -/
theorem Specification.stopsAtFirst_expand_greeting :
    (∃ full, FullExpansion (Dictionary.build whisperedConcepts).1 none 0 greeting.steps full greetingCalls) ∧
      (greeting.expand (Dictionary.build whisperedConcepts).1).2 = some ⟨"Say \x7b\x7d", 1, 0, 3⟩ ∧
      (greeting.expand (Dictionary.build whisperedConcepts).1).1.scopes.toList =
        [⟨[("who", .static "ann")], none⟩, ⟨[("word", .dynamic "who")], some 0⟩] ∧
      ∃ left call, StopsAt (Dictionary.build whisperedConcepts).1 none 0 greeting.steps left
          (greetingCalls.take 2) call ∧ ¬ call.Fits ∧
        (greeting.expand (Dictionary.build whisperedConcepts).1).1.items =
          (greeting.withSteps left).items := by
  obtain ⟨given, hgiven⟩ := fullExpansion_greeting
  obtain ⟨full, calls, hunique, -, -, hstops⟩ := stopsAtFirst_expand whisperedConcepts greeting
  obtain ⟨rfl, rfl⟩ := (hunique given greetingCalls).mp hgiven
  obtain ⟨left, hleft, hexpand⟩ := hstops (greetingCalls.take 2) ⟨some 0, sayWordConcept, [], 3⟩
    (greetingCalls.drop 3) rfl (by decide) (by decide)
  rw [hexpand]
  exact ⟨⟨given, hgiven⟩, rfl, rfl, left, _, hleft, by decide, rfl⟩

end LiveSpec
