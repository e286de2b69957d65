import LiveSpec.Proofs.Concepts.Resolution

/-!
# Which names the contexts and the teardown use

Asking a specification for the uses of some names goes through the trees of its contexts and of its teardown. It
comes to every step of these trees at any depth, with the scope that the step stands in (`Step.StandsIn`,
`Step.any_mentions_iff`). There a reference counts when it ends in a reference to one of the names
(`Scopes.EndsIn`), and a cell of a table counts when it is written as a reference to one of them.

A cell in the body of a concept refers to a parameter of the concept, though, and is taken for a name outside
(`Specification.exists_cell_taken_as_written_form`). So a name that is used is always found, and what is found
beyond that are such cells (`Specification.mentionsInContextOrTearDown_iff`). A cell that ends in one of the names
needs no look of its own: when its own name is not the one it ends in, some call around it has passed a reference
that ends in the same name, and this reference counts (`Step.StandsIn.eq_or_passed`).
-/

set_option autoImplicit false

namespace LiveSpec

/-! ### Steps in their scopes -/

/-- The steps in some trees at any depth, each with the scope of the invocation that it directly stands in. -/
inductive Step.StandsIn (roots : List Step) : Option ScopeId → Step → Prop
  | top {step} (h : step ∈ roots) : StandsIn roots none step
  | inside {enclosing owner step} (howner : StandsIn roots enclosing owner) (h : step ∈ owner.body) :
    StandsIn roots owner.scope step

theorem Step.StandsIn.holds {spec : Specification} {roots : List Step} {enclosing : Option ScopeId}
    {step : Step} (h : Step.StandsIn roots enclosing step) (hroots : roots ⊆ spec.steps) :
    spec.Holds enclosing step := by
  induction h with
  | top hmem => exact .top (hroots hmem)
  | inside _ hmem ih => exact .inside ih hmem

theorem Specification.contexts_append_tearDownSteps_subset (spec : Specification) :
    spec.contexts ++ spec.tearDownSteps ⊆ spec.steps := by
  intro step hstep
  rcases List.mem_append.mp hstep with hcontext | htearDown
  · obtain ⟨item, hitem, hfound⟩ := List.mem_filterMap.mp hcontext
    refine List.mem_flatMap.mpr ⟨item, hitem, ?_⟩
    cases item with
    | context found =>
      obtain rfl := Option.some.inj hfound
      exact List.mem_singleton.mpr rfl
    | _ => cases hfound
  · obtain ⟨tearDown, hmem, hfound⟩ := List.mem_flatMap.mp htearDown
    obtain ⟨item, hitem, hitemFound⟩ := List.mem_filterMap.mp hmem
    refine List.mem_flatMap.mpr ⟨item, hitem, ?_⟩
    cases item with
    | tearDown other =>
      obtain rfl := Option.some.inj hitemFound
      exact hfound
    | _ => cases hitemFound

namespace Step

variable {scopes : Scopes} {names : List String}

theorem anyMentions_eq (enclosing : Option ScopeId) (steps : List Step) :
    anyMentions scopes names enclosing steps = steps.any (mentions scopes names enclosing) := by
  induction steps with
  | nil => simp [anyMentions]
  | cons step rest ih => simp [anyMentions, ih]

/-- A step mentions what its arguments do, or what the steps of its body do in its scope. -/
theorem mentions_eq (enclosing : Option ScopeId) (step : Step) :
    step.mentions scopes names enclosing =
      (step.arguments.any (Argument.mentions scopes names enclosing) ||
        step.body.any (mentions scopes names step.scope)) := by
  cases step
  rw [mentions, anyMentions_eq]

/-- Some trees mention one of the names when an argument of a step in them does, in the scope of the step. -/
theorem any_mentions_iff {roots : List Step} :
    roots.any (mentions scopes names none) = true ↔
      ∃ enclosing step, StandsIn roots enclosing step ∧
        step.arguments.any (Argument.mentions scopes names enclosing) = true := by
  rw [List.any_eq_true]
  constructor
  · rintro ⟨root, hroot, hmentions⟩
    have hdown : ∀ (step : Step) (enclosing : Option ScopeId), StandsIn roots enclosing step →
        step.mentions scopes names enclosing = true → ∃ enclosing step, StandsIn roots enclosing step ∧
          step.arguments.any (Argument.mentions scopes names enclosing) = true := by
      intro step
      induction step using Step.induction with
      | _ step ih =>
        intro enclosing hstands hmentions
        rw [mentions_eq, Bool.or_eq_true] at hmentions
        rcases hmentions with harguments | hbody
        · exact ⟨enclosing, step, hstands, harguments⟩
        · obtain ⟨child, hchild, hmentions⟩ := List.any_eq_true.mp hbody
          exact ih child hchild step.scope (.inside hstands hchild) hmentions
    exact hdown root none (.top hroot) hmentions
  · rintro ⟨enclosing, step, hstands, harguments⟩
    have hup : step.mentions scopes names enclosing = true := by
      rw [mentions_eq, harguments, Bool.true_or]
    clear harguments
    induction hstands with
    | top hmem => exact ⟨_, hmem, hup⟩
    | @inside enclosing owner step _ hmem ih =>
      refine ih ?_
      rw [mentions_eq, List.any_eq_true.mpr ⟨step, hmem, hup⟩, Bool.or_true]

end Step

/-! ### What counts -/

/-- A name in the scope `enclosing` ends in a reference to one of some names. -/
def Scopes.EndsIn (scopes : Scopes) (names : List String) (enclosing : Option ScopeId) (name : String) :
    Prop :=
  ∃ outer ∈ names, scopes.outermost enclosing name = .dynamic outer

/-- The names in angle brackets that an argument is written with: that of a reference, and those in the cells of
a table. -/
def Argument.writtenNames : Argument → List String
  | static _ => []
  | dynamic name => [name]
  | table content => content.cells.filterMap cellReference?
  | absentTable _ => []

/-- A reference counts when it ends in one of the names, and a cell when it is written as one of them. -/
theorem Argument.mentions_iff {scopes : Scopes} {names : List String} {enclosing : Option ScopeId}
    {argument : Argument} :
    argument.mentions scopes names enclosing = true ↔
      (∃ name, argument = .dynamic name ∧ scopes.EndsIn names enclosing name) ∨
        ∃ content, argument = .table content ∧
          ∃ name ∈ content.cells.filterMap cellReference?, name ∈ names := by
  cases argument with
  | static text => simp [mentions]
  | dynamic name =>
    simp only [mentions, Scopes.EndsIn, dynamic.injEq, exists_eq_left', reduceCtorEq, false_and,
      exists_false, or_false]
    cases scopes.outermost enclosing name <;> simp [reference?]
  | table content =>
    simp only [mentions, List.any_eq_true, reduceCtorEq, false_and, exists_false, false_or,
      table.injEq, exists_eq_left', List.mem_filterMap]
    constructor
    · rintro ⟨cell, hcell, hname⟩
      split at hname
      · next name hreference => exact ⟨name, ⟨cell, hcell, hreference⟩, by simpa using hname⟩
      · cases hname
    · rintro ⟨name, ⟨cell, hcell, hreference⟩, hname⟩
      exact ⟨cell, hcell, by simpa [hreference] using hname⟩
  | absentTable label => simp [mentions]

namespace Specification

/-- A context or teardown step, at any depth, is written with a name that ends in one of some names in the scope
of the step. -/
def Uses (spec : Specification) (names : List String) : Prop :=
  ∃ enclosing step argument name,
    Step.StandsIn (spec.contexts ++ spec.tearDownSteps) enclosing step ∧ argument ∈ step.arguments ∧
      name ∈ argument.writtenNames ∧ spec.scopes.EndsIn names enclosing name

/-- A context or teardown step, at any depth, has a table with a cell that is written as one of some names. -/
def HasCell (spec : Specification) (names : List String) : Prop :=
  ∃ enclosing step content name,
    Step.StandsIn (spec.contexts ++ spec.tearDownSteps) enclosing step ∧
      .table content ∈ step.arguments ∧ name ∈ content.cells.filterMap cellReference? ∧ name ∈ names

theorem mentionsInContextOrTearDown_iff_argument {spec : Specification} {names : List String} :
    spec.mentionsInContextOrTearDown names = true ↔
      (∃ enclosing step name, Step.StandsIn (spec.contexts ++ spec.tearDownSteps) enclosing step ∧
        .dynamic name ∈ step.arguments ∧ spec.scopes.EndsIn names enclosing name) ∨
      spec.HasCell names := by
  rw [mentionsInContextOrTearDown, Step.any_mentions_iff]
  constructor
  · rintro ⟨enclosing, step, hstands, harguments⟩
    obtain ⟨argument, hargument, hmentions⟩ := List.any_eq_true.mp harguments
    rcases Argument.mentions_iff.mp hmentions with ⟨name, rfl, hends⟩ | ⟨content, rfl, name, hcell, hname⟩
    · exact .inl ⟨enclosing, step, name, hstands, hargument, hends⟩
    · exact .inr ⟨enclosing, step, content, name, hstands, hargument, hcell, hname⟩
  · rintro (⟨enclosing, step, name, hstands, hargument, hends⟩ |
      ⟨enclosing, step, content, name, hstands, hargument, hcell, hname⟩)
    · exact ⟨enclosing, step, hstands, List.any_eq_true.mpr
        ⟨_, hargument, Argument.mentions_iff.mpr (.inl ⟨name, rfl, hends⟩)⟩⟩
    · exact ⟨enclosing, step, hstands, List.any_eq_true.mpr
        ⟨_, hargument, Argument.mentions_iff.mpr (.inr ⟨content, rfl, name, hcell, hname⟩)⟩⟩

end Specification

/-! ### Where a reference comes from -/

/-- An expanded step that owns steps is an invocation with a lookup. -/
theorem AreExpanded.isBound_of_mem_body {dictionary : Dictionary} {scopes : Scopes}
    {enclosing : Option ScopeId} {sources left : List Step} {owner step : Step}
    (h : AreExpanded dictionary scopes enclosing sources left) (howner : owner ∈ left)
    (hstep : step ∈ owner.body) : ∃ concept scope, owner.IsBound scopes enclosing concept scope := by
  rcases h.of_mem howner with ⟨-, hwritten⟩ | ⟨concept, scope, -, -, hbound, -⟩
  · simp [hwritten.body_eq] at hstep
  · exact ⟨concept, scope, hbound⟩

/-- Assumes: nested lookups. A name that ends in a reference inside of an invocation ends in it around the
invocation as well, or the invocation is given a reference that does. -/
theorem Step.IsBound.outermost_eq_dynamic {owner : Step} {scopes : Scopes} {enclosing : Option ScopeId}
    {concept : Concept} {scope : ScopeId} (h : owner.IsBound scopes enclosing concept scope)
    (hnested : scopes.IsNested) {name outer : String}
    (hends : scopes.outermost (some scope) name = .dynamic outer) :
    scopes.outermost enclosing name = .dynamic outer ∨
      ∃ passed, .dynamic passed ∈ owner.arguments ∧
        scopes.outermost enclosing passed = .dynamic outer := by
  simp only [Scopes.outermost, Option.bind_some, hnested.resolve_eq h.get?_eq] at hends
  cases hbound : Lookup.get? ⟨(concept.parameters.map Argument.label).zip owner.arguments, enclosing⟩
      name with
  | none =>
    rw [hbound] at hends
    exact .inl hends
  | some argument =>
    rw [hbound] at hends
    obtain ⟨before, after, hsplit, -⟩ := List.lookup_eq_some_iff.mp hbound
    have hargument : argument ∈ owner.arguments :=
      (List.of_mem_zip (hsplit ▸ List.mem_append_right before List.mem_cons_self)).2
    cases argument with
    | dynamic passed => exact .inr ⟨passed, hargument, hends⟩
    | static text => cases hends
    | table content => cases hends
    | absentTable label => cases hends

/-- Assumes: a specification whose steps are expanded, with nested lookups. A name that ends in a reference to
another one, in the scope of a step, does so because a step around it passes a reference that ends there too. -/
theorem Step.StandsIn.eq_or_passed {dictionary : Dictionary} {spec : Specification} {sources : List Step}
    (hexpanded : AreExpanded dictionary spec.scopes none sources spec.steps)
    (hnested : spec.scopes.IsNested) {roots : List Step} (hroots : roots ⊆ spec.steps)
    {enclosing : Option ScopeId} {step : Step} (h : Step.StandsIn roots enclosing step)
    {name outer : String} (hends : spec.scopes.outermost enclosing name = .dynamic outer) :
    name = outer ∨ ∃ enclosing step passed, Step.StandsIn roots enclosing step ∧
      .dynamic passed ∈ step.arguments ∧ spec.scopes.outermost enclosing passed = .dynamic outer := by
  induction h with
  | top _ => exact .inl (Argument.dynamic.inj hends)
  | @inside enclosing owner step howner hmem ih =>
    obtain ⟨sources, left, hleft, howned⟩ := hexpanded.exists_of_holds (howner.holds hroots)
    obtain ⟨concept, scope, hbound⟩ := hleft.isBound_of_mem_body howned hmem
    rw [hbound.scope_eq] at hends
    rcases hbound.outermost_eq_dynamic hnested hends with haround | ⟨passed, hargument, hpassed⟩
    · exact ih haround
    · exact .inr ⟨enclosing, owner, passed, howner, hargument, hpassed⟩

/-- Assumes: concepts and a specification that have been read, and an expansion without a mismatch. A
specification mentions one of some names in its contexts or its teardown exactly when it uses one of them
there, or when a cell of a table there is written as one of them, whatever that name is bound to. -/
theorem Specification.mentionsInContextOrTearDown_iff {concepts : List Concept}
    (hconcepts : ∀ concept ∈ concepts, concept.IsRead) {file : Path} {text : String}
    {spec : Specification} (hspec : Specification.parse file text = .ok spec)
    (hcomplete : (spec.expand (Dictionary.build concepts).1).2 = none) (names : List String) :
    let expanded := (spec.expand (Dictionary.build concepts).1).1
    expanded.mentionsInContextOrTearDown names = true ↔ expanded.Uses names ∨ expanded.HasCell names := by
  have hexpanded := areExpanded_steps_expand hconcepts hspec hcomplete
  have hnested := isNested_scopes_expand concepts hspec
  dsimp only
  generalize (spec.expand (Dictionary.build concepts).1).1 = expanded at hexpanded hnested ⊢
  rw [mentionsInContextOrTearDown_iff_argument]
  constructor
  · rintro (⟨enclosing, step, name, hstands, hargument, hends⟩ | hcell)
    · exact .inl ⟨enclosing, step, _, name, hstands, hargument, List.mem_singleton.mpr rfl, hends⟩
    · exact .inr hcell
  · rintro (⟨enclosing, step, argument, name, hstands, hargument, hname, hends⟩ | hcell)
    · cases argument with
      | static text => cases hname
      | absentTable label => cases hname
      | dynamic written =>
        obtain rfl := List.mem_singleton.mp hname
        exact .inl ⟨enclosing, step, name, hstands, hargument, hends⟩
      | table content =>
        -- The name in a cell is one of the names itself, or a call around the step passes a reference.
        obtain ⟨outer, hnames, houter⟩ := hends
        rcases hstands.eq_or_passed hexpanded hnested expanded.contexts_append_tearDownSteps_subset houter
          with rfl | ⟨outside, owner, passed, howner, hpassed, hends⟩
        · exact .inr ⟨enclosing, step, content, name, hstands, hargument, hname, hnames⟩
        · exact .inl ⟨outside, owner, passed, howner, hpassed, outer, hnames, hends⟩
    · exact .inr hcell

/-- A text in which a concept fills a cell of a table with its parameter. -/
def fillConceptText : String := "# Fill <row>\n* Enter\n|<row>|\n"

/-- A text that calls the concept with a literal, and with a reference to a column. -/
def filledFormText : String := "# Form\n* Fill \"x\"\n___\n* Fill <column>\n"

/-- The step in the body of the concept. -/
def enterStep : Step := .written "Enter \x7b\x7d" "Enter" 2 [.table ⟨["<row>"], [], 3⟩]

/-- What is read from the first text. -/
def fillConcepts : List Concept :=
  [⟨⟨"fill.cpt"⟩,
    ⟨"Fill \x7b\x7d", "Fill <row>", 1, [.dynamic "row"], true, [enterStep], none, none⟩⟩]

/-- What is read from the second text. -/
def filledForm : Specification :=
  ⟨⟨"Form", 1⟩, ⟨"form.spec"⟩,
    [.context (.written "Fill \x7b\x7d" "Fill \"x\"" 2 [.static "x"]),
      .tearDown ⟨3, [.written "Fill \x7b\x7d" "Fill <column>" 4 [.dynamic "column"]]⟩], .empty⟩

theorem isRead_fillConcepts : ∀ concept ∈ fillConcepts, concept.IsRead := by
  have hparse : Concept.parseAll ⟨"fill.cpt"⟩ fillConceptText = .ok fillConcepts := by decide +kernel
  exact fun concept hconcept ↦ ⟨_, _, _, hparse, hconcept⟩

theorem parse_filledFormText : Specification.parse ⟨"form.spec"⟩ filledFormText = .ok filledForm := by decide +kernel

/-- The calls in the form when they have been expanded. -/
def fillCalls : List Step :=
  [⟨"Fill \x7b\x7d", "Fill \"x\"", 2, [.static "x"], true, [enterStep], some 0, none⟩,
    ⟨"Fill \x7b\x7d", "Fill <column>", 4, [.dynamic "column"], true, [enterStep], some 1, none⟩]

/-- What the calls in the form are expanded to, and the lookups of the two invocations. -/
theorem expand_filledForm :
    let expanded := (filledForm.expand (Dictionary.build fillConcepts).1).1
    (filledForm.expand (Dictionary.build fillConcepts).1).2 = none ∧
      expanded.contexts ++ expanded.tearDownSteps = fillCalls ∧
      expanded.scopes.outermost (some 0) "row" = .static "x" ∧
      expanded.scopes.outermost (some 1) "row" = .dynamic "column" := by
  refine ⟨by decide +kernel, by decide +kernel, by decide +kernel, by decide +kernel⟩

/-- The cell in the body of the second call ends in the column, and so the column is mentioned. -/
theorem Specification.mentionsInContextOrTearDown_iff_form :
    let expanded := (filledForm.expand (Dictionary.build fillConcepts).1).1
    (∀ concept ∈ fillConcepts, concept.IsRead) ∧
      Specification.parse ⟨"form.spec"⟩ filledFormText = .ok filledForm ∧
      (filledForm.expand (Dictionary.build fillConcepts).1).2 = none ∧ expanded.Uses ["column"] ∧
      expanded.mentionsInContextOrTearDown ["column"] = true := by
  obtain ⟨hcomplete, hroots, -, hcolumn⟩ := expand_filledForm
  have huses : (filledForm.expand (Dictionary.build fillConcepts).1).1.Uses ["column"] := by
    refine ⟨some 1, enterStep, .table ⟨["<row>"], [], 3⟩, "row", ?_, List.mem_singleton.mpr rfl,
      by decide +kernel, "column", List.mem_singleton.mpr rfl, hcolumn⟩
    rw [hroots]
    exact .inside (.top (List.mem_cons_of_mem _ List.mem_cons_self)) (List.mem_singleton.mpr rfl)
  exact ⟨isRead_fillConcepts, parse_filledFormText, hcomplete, huses,
    (mentionsInContextOrTearDown_iff isRead_fillConcepts parse_filledFormText hcomplete ["column"]).mpr
      (.inl huses)⟩

/-- The name of the parameter is taken for a mention of a column of that name, although the cells end in a
literal and in another column. -/
theorem Specification.exists_cell_taken_as_written_form :
    let expanded := (filledForm.expand (Dictionary.build fillConcepts).1).1
    (∀ concept ∈ fillConcepts, concept.IsRead) ∧
      Specification.parse ⟨"form.spec"⟩ filledFormText = .ok filledForm ∧
      (filledForm.expand (Dictionary.build fillConcepts).1).2 = none ∧
      expanded.mentionsInContextOrTearDown ["row"] = true ∧ ¬ expanded.Uses ["row"] := by
  obtain ⟨hcomplete, hroots, hliteral, hcolumn⟩ := expand_filledForm
  refine ⟨isRead_fillConcepts, parse_filledFormText, hcomplete, by decide +kernel, ?_⟩
  rintro ⟨enclosing, step, argument, name, hstands, hargument, hname, outer, houter, hends⟩
  obtain rfl := List.mem_singleton.mp houter
  have hplaces : ∀ enclosing step, Step.StandsIn fillCalls enclosing step →
      (enclosing = none ∧ step ∈ fillCalls) ∨
        ((enclosing = some 0 ∨ enclosing = some 1) ∧ step = enterStep) := by
    intro enclosing step hstands
    induction hstands with
    | top hmem => exact .inl ⟨rfl, hmem⟩
    | inside _ hmem ih =>
      rcases ih with ⟨-, howner⟩ | ⟨-, rfl⟩
      · simp only [fillCalls, List.mem_cons, List.not_mem_nil, or_false] at howner
        rcases howner with rfl | rfl
        · exact .inr ⟨.inl rfl, List.mem_singleton.mp hmem⟩
        · exact .inr ⟨.inr rfl, List.mem_singleton.mp hmem⟩
      · exact absurd hmem List.not_mem_nil
  rw [hroots] at hstands
  rcases hplaces enclosing step hstands with ⟨rfl, hstep⟩ | ⟨hscope, rfl⟩
  · simp only [fillCalls, List.mem_cons, List.not_mem_nil, or_false] at hstep
    rcases hstep with rfl | rfl
    · obtain rfl := List.mem_singleton.mp hargument
      exact absurd hname List.not_mem_nil
    · obtain rfl := List.mem_singleton.mp hargument
      obtain rfl := List.mem_singleton.mp hname
      exact absurd (Argument.dynamic.inj hends) (by decide)
  · obtain rfl := List.mem_singleton.mp hargument
    have hcell : (Argument.table ⟨["<row>"], [], 3⟩).writtenNames = ["row"] := by decide +kernel
    rw [hcell] at hname
    obtain rfl := List.mem_singleton.mp hname
    rcases hscope with rfl | rfl
    · rw [hliteral] at hends
      cases hends
    · rw [hcolumn] at hends
      exact absurd (Argument.dynamic.inj hends) (by decide)

end LiveSpec
