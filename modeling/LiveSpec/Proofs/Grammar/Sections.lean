import LiveSpec.Proofs.Grammar.Layout
import LiveSpec.Proofs.Grammar.Reading

/-!
# The sections of a specification

A scenario heading, a step, a line of tags, a line of prose and the marker of the teardown each leave an
entry in a specification, with the number of their line (`entriesFrom`). The items of a specification are
these entries, sorted into sections: before the first scenario, in each scenario, and after the first
marker (`IsOpening`, `AreSections`, `IsTearDown`). In the first two the items are the entries of their lines
in order. After the marker the steps and the comments are kept apart, each in order.

A part of a text that has been read renders its lines in this way (`Part.Renders`), and the reader keeps it
so line by line (`Draft.renders_read`, `Draft.renders_readAll`).
-/

set_option autoImplicit false

namespace LiveSpec

/-! ### Entries -/

/-- The kinds of entries. -/
inductive EntryKind where
  | scenario
  | step
  | tags
  | comment
  | tearDown
  deriving DecidableEq, Repr, Inhabited

/-- What a line leaves in a specification. -/
inductive Entry where
  | scenario (text : String)
  | step (text : String)
  | tags (values : List String)
  | comment (text : String)
  | tearDown
  deriving DecidableEq, Repr, Inhabited

def Entry.kind : Entry → EntryKind
  | scenario _ => .scenario
  | step _ => .step
  | tags _ => .tags
  | comment _ => .comment
  | tearDown => .tearDown

/-- What a line leaves. The title goes to the head of the specification and rows go into tables. A heading
of any other level than those of titles and scenarios is prose. -/
def Line.entry? : Line → Option Entry
  | heading 1 _ => none
  | heading 2 text => some (.scenario text)
  | heading _ text => some (.comment text)
  | step text => some (.step text)
  | tableRow _ => none
  | tags values => some (.tags values)
  | tearDown => some .tearDown
  | comment text => some (.comment text)
  | blank => none

/-- The entries of some lines with their numbers, the first of which is given. -/
def entriesFrom (first : Nat) (lines : List Line) : List (Nat × Entry) :=
  (lines.zipIdx first).filterMap fun (line, number) ↦ line.entry?.map (number, ·)

/-- The entries of one kind. -/
def entriesOfKind (kind : EntryKind) (entries : List (Nat × Entry)) : List (Nat × Entry) :=
  entries.filter fun entry ↦ entry.2.kind = kind

def Comment.entry (comment : Comment) : Nat × Entry := (comment.line, .comment comment.value)

def Tags.entry (tags : Tags) : Nat × Entry := (tags.line, .tags tags.values)

def Step.entry (step : Step) : Nat × Entry := (step.line, .step step.text)

def ScenarioItem.entry : ScenarioItem → Nat × Entry
  | comment found => found.entry
  | tags found => found.entry
  | step found => found.entry

/-- The entry of the heading. -/
def Scenario.entry (scenario : Scenario) : Nat × Entry :=
  (scenario.heading.line, .scenario scenario.heading.value)

/-- The entry of an item and those of the items that it owns. -/
def SpecItem.entries : SpecItem → List (Nat × Entry)
  | comment found => [found.entry]
  | tags found => [found.entry]
  | dataTable _ => []
  | context step => [step.entry]
  | scenario found => found.entry :: found.items.map ScenarioItem.entry
  | tearDown found => (found.line, .tearDown) :: found.steps.map Step.entry

/-- The line that an item begins with. -/
def SpecItem.line : SpecItem → Nat
  | comment found => found.line
  | tags found => found.line
  | dataTable table => table.line
  | context step => step.line
  | scenario found => found.heading.line
  | tearDown found => found.line

/-- An item that stands before the scenarios and the teardown. -/
def SpecItem.isOpening : SpecItem → Bool
  | scenario _ => false
  | tearDown _ => false
  | _ => true

section Entries

variable {first : Nat} {lines : List Line} {line : Line} {kind : EntryKind}

@[simp] theorem entriesFrom_nil (first : Nat) : entriesFrom first [] = [] := rfl

theorem entriesFrom_append (first : Nat) (lines below : List Line) :
    entriesFrom first (lines ++ below) =
      entriesFrom first lines ++ entriesFrom (first + lines.length) below := by
  simp [entriesFrom, List.zipIdx_append]

theorem entriesFrom_cons (first : Nat) (line : Line) (below : List Line) :
    entriesFrom first (line :: below) =
      (line.entry?.map (first, ·)).toList ++ entriesFrom (first + 1) below := by
  cases hentry : line.entry? <;> simp [entriesFrom, List.zipIdx_cons, hentry]

/-- One more line leaves its entry at the end. -/
theorem entriesFrom_concat (first : Nat) (lines : List Line) (line : Line) :
    entriesFrom first (lines ++ [line]) =
      entriesFrom first lines ++ (line.entry?.map (first + lines.length, ·)).toList := by
  rw [entriesFrom_append, entriesFrom_cons, entriesFrom_nil, List.append_nil]

/-- Every entry is that of the line with its number. -/
theorem mem_entriesFrom {number : Nat} {entry : Entry} :
    (number, entry) ∈ entriesFrom first lines ↔
      ∃ before line after, lines = before ++ line :: after ∧ number = first + before.length ∧
        line.entry? = some entry := by
  constructor
  · intro h
    obtain ⟨⟨line, found⟩, hmem, hentry⟩ := List.mem_filterMap.mp h
    obtain ⟨entry', hline, hpair⟩ := Option.map_eq_some_iff.mp hentry
    cases hpair
    obtain ⟨hfirst, hlast, hget⟩ := List.mem_zipIdx hmem
    refine ⟨lines.take (number - first), line, lines.drop (number - first + 1), ?_, ?_, hline⟩
    · rw [hget, List.getElem_cons_drop, List.take_append_drop]
    · rw [List.length_take]
      omega
  · rintro ⟨before, line, after, rfl, rfl, hentry⟩
    rw [entriesFrom_append, entriesFrom_cons, hentry]
    simp

/-- The numbers of the lines increase. -/
theorem sorted_entriesFrom (first : Nat) (lines : List Line) :
    ((entriesFrom first lines).map Prod.fst).Pairwise (· < ·) := by
  induction lines generalizing first with
  | nil => simp
  | cons line rest ih =>
    have hlater : ∀ number ∈ (entriesFrom (first + 1) rest).map Prod.fst, first < number := by
      intro number hnumber
      obtain ⟨⟨found, entry⟩, hmem, rfl⟩ := List.mem_map.mp hnumber
      obtain ⟨before, -, -, -, rfl, -⟩ := mem_entriesFrom.mp hmem
      omega
    rw [entriesFrom_cons]
    cases hentry : line.entry? with
    | none => simpa using ih (first + 1)
    | some entry => exact List.pairwise_cons.mpr ⟨hlater, ih (first + 1)⟩

theorem mem_entriesOfKind {entries : List (Nat × Entry)} {entry : Nat × Entry} :
    entry ∈ entriesOfKind kind entries ↔ entry ∈ entries ∧ entry.2.kind = kind := by
  simp [entriesOfKind]

@[simp] theorem entriesOfKind_append (kind : EntryKind) (entries others : List (Nat × Entry)) :
    entriesOfKind kind (entries ++ others) = entriesOfKind kind entries ++ entriesOfKind kind others :=
  List.filter_append ..

theorem entriesOfKind_eq_self {entries : List (Nat × Entry)}
    (h : ∀ entry ∈ entries, entry.2.kind = kind) : entriesOfKind kind entries = entries := by
  simpa [entriesOfKind] using h

theorem entriesOfKind_eq_nil {entries : List (Nat × Entry)}
    (h : ∀ entry ∈ entries, entry.2.kind ≠ kind) : entriesOfKind kind entries = [] := by
  simpa [entriesOfKind] using h

/-- So do those of one kind. -/
theorem sorted_entriesOfKind (kind : EntryKind) (first : Nat) (lines : List Line) :
    ((entriesOfKind kind (entriesFrom first lines)).map Prod.fst).Pairwise (· < ·) :=
  (sorted_entriesFrom first lines).sublist (List.filter_sublist.map _)

/-- The number of the line after a section, counted from the line after its first one. -/
theorem length_append_cons_succ (front : List Line) (line : Line) (body : List Line) :
    (front ++ line :: body).length + 1 = front.length + 2 + body.length := by
  rw [List.length_append, List.length_cons]
  omega

end Entries

/-! ### Sections -/

/-- The items before the first scenario and the teardown, and the lines that they come from. Their entries
are those of the lines. The data table, if there is one, stands where its header row does. -/
structure IsOpening (lines : List Line) (items : List SpecItem) : Prop where
  lines_open : ∀ line ∈ lines, line.endsOpening = false
  items_open : ∀ item ∈ items, item.isOpening = true
  entries_eq : items.flatMap SpecItem.entries = entriesFrom 1 lines
  increasing : (items.map SpecItem.line).Pairwise (· < ·)
  line_le : ∀ item ∈ items, item.line ≤ lines.length

/-- The items before the teardown, and the lines that they come from: those before the first scenario, and
then the scenarios, each with the entries between its heading and the next section. -/
inductive AreSections : List Line → List SpecItem → Prop
  | opening {lines items} (h : IsOpening lines items) : AreSections lines items
  | scenario {front body items text found} (hfront : AreSections front items)
    (hbody : ∀ line ∈ body, line.endsOpening = false)
    (hheading : found.heading = ⟨text, front.length + 1⟩)
    (hitems : found.items.map ScenarioItem.entry = entriesFrom (front.length + 2) body) :
    AreSections (front ++ .heading 2 text :: body) (items ++ [.scenario found])

/-- The steps and the comments after the marker of the teardown, and the lines that they come from. -/
structure IsTearDown (first : Nat) (lines : List Line) (steps : List Step) (comments : List Comment) :
    Prop where
  lines_after : ∀ line ∈ lines, line.isScenarioHeading = false ∧ line.isTags = false
  steps_eq : steps.map Step.entry = entriesOfKind .step (entriesFrom first lines)
  comments_eq : comments.map Comment.entry = entriesOfKind .comment (entriesFrom first lines)

/-- The items of a specification, and the lines that they come from: the first marker of the teardown, if
there is one, ends what comes before, and the comments after it stand behind the teardown. -/
inductive AreItems : List Line → List SpecItem → Prop
  | before {lines items} (h : AreSections lines items) : AreItems lines items
  | after {front rest items steps comments} (hfront : AreSections front items)
    (hrest : IsTearDown (front.length + 2) rest steps comments) :
    AreItems (front ++ .tearDown :: rest)
      (items ++ .tearDown ⟨front.length + 1, steps⟩ :: comments.map .comment)

/-- The part of a text that has been read has the entries of its lines in sections. -/
def Part.Renders (lines : List Line) : Part → Prop
  | .opening items => IsOpening lines items.reverse
  | .scenario before current => ∃ front body text, lines = front ++ .heading 2 text :: body ∧
      AreSections front before.reverse ∧ (∀ line ∈ body, line.endsOpening = false) ∧
      current.heading = ⟨text, front.length + 1⟩ ∧
      current.items.reverse.map ScenarioItem.entry = entriesFrom (front.length + 2) body
  | .tearDown before marker steps comments => ∃ front rest, lines = front ++ .tearDown :: rest ∧
      AreSections front before.reverse ∧ marker = front.length + 1 ∧
      IsTearDown (front.length + 2) rest steps.reverse comments.reverse

/-! ### Reading keeps the sections -/

section Reading

variable {lines : List Line} {line : Line} {number : Nat} {part next : Part} {items : List SpecItem}

/-- A line that ends no section before the teardown and leaves an item with its own number. -/
theorem IsOpening.concat (h : IsOpening lines items) (line : Line) (item : SpecItem)
    (hline : line.endsOpening = false) (hitem : item.isOpening = true)
    (hnumber : item.line = lines.length + 1)
    (hentries : item.entries = (line.entry?.map (lines.length + 1, ·)).toList) :
    IsOpening (lines ++ [line]) (items ++ [item]) where
  lines_open := by
    simpa [or_imp, forall_and] using ⟨h.lines_open, hline⟩
  items_open := by
    simpa [or_imp, forall_and] using ⟨h.items_open, hitem⟩
  entries_eq := by
    rw [List.flatMap_append, h.entries_eq, entriesFrom_concat, Nat.add_comm 1, ← hentries]
    simp
  increasing := by
    rw [List.map_append, List.pairwise_append]
    refine ⟨h.increasing, List.pairwise_singleton _ _, fun earlier hearlier later hlater ↦ ?_⟩
    obtain ⟨other, hother, rfl⟩ := List.mem_map.mp hearlier
    have hle := h.line_le other hother
    rw [List.mem_singleton.mp hlater, hnumber]
    omega
  line_le := by
    intro other hother
    rw [List.length_append, List.length_singleton]
    rcases List.mem_append.mp hother with hold | hnew
    · exact Nat.le_succ_of_le (h.line_le other hold)
    · rw [List.mem_singleton.mp hnew]
      exact Nat.le_of_eq hnumber

/-- A line that leaves nothing and ends nothing. -/
theorem IsOpening.concat_quiet (h : IsOpening lines items) (hline : line.endsOpening = false)
    (hentry : line.entry? = none) : IsOpening (lines ++ [line]) items where
  lines_open := by
    simpa [or_imp, forall_and] using ⟨h.lines_open, hline⟩
  items_open := h.items_open
  entries_eq := by
    rw [h.entries_eq, entriesFrom_concat, hentry]
    simp
  increasing := h.increasing
  line_le other hother := by
    rw [List.length_append]
    exact Nat.le_add_right_of_le (h.line_le other hother)

/-- The item that was read last is changed, but not its line or its entries. -/
theorem IsOpening.changeLast {item changed : SpecItem} (h : IsOpening lines (items ++ [item]))
    (hitem : changed.isOpening = true) (hnumber : changed.line = item.line)
    (hentries : changed.entries = item.entries) : IsOpening lines (items ++ [changed]) where
  lines_open := h.lines_open
  items_open := by
    have hold := h.items_open
    simp only [List.mem_append, List.mem_singleton, or_imp, forall_and, forall_eq] at hold ⊢
    exact ⟨hold.1, hitem⟩
  entries_eq := by
    rw [← h.entries_eq]
    simp [hentries]
  increasing := by
    have hold := h.increasing
    rw [List.map_append, List.map_singleton] at hold ⊢
    rwa [hnumber]
  line_le := by
    have hold := h.line_le
    simp only [List.mem_append, List.mem_singleton, or_imp, forall_and, forall_eq] at hold ⊢
    exact ⟨hold.1, hnumber ▸ hold.2⟩

/-- A line after the marker that is no scenario heading and no tags leaves a step, a comment or neither. -/
theorem IsTearDown.concat {first : Nat} {steps : List Step} {comments : List Comment}
    (h : IsTearDown first lines steps comments) (line : Line) (added : List Step)
    (addedComments : List Comment)
    (hline : line.isScenarioHeading = false ∧ line.isTags = false)
    (hsteps : added.map Step.entry =
      entriesOfKind .step (line.entry?.map (first + lines.length, ·)).toList)
    (hcomments : addedComments.map Comment.entry =
      entriesOfKind .comment (line.entry?.map (first + lines.length, ·)).toList) :
    IsTearDown first (lines ++ [line]) (steps ++ added) (comments ++ addedComments) where
  lines_after := by
    have hold := h.lines_after
    intro other hother
    rcases List.mem_append.mp hother with hbefore | hlast
    · exact hold other hbefore
    · rw [List.mem_singleton.mp hlast]
      exact hline
  steps_eq := by
    rw [List.map_append, h.steps_eq, hsteps, entriesFrom_concat, entriesOfKind_append]
  comments_eq := by
    rw [List.map_append, h.comments_eq, hcomments, entriesFrom_concat, entriesOfKind_append]

/-- One more item of a scenario comes from one more line of it. -/
theorem map_entry_concat {first : Nat} {found : List ScenarioItem} {entry : Entry}
    (h : found.map ScenarioItem.entry = entriesFrom first lines) (line : Line) (item : ScenarioItem)
    (hitem : item.entry = (first + lines.length, entry)) (hentry : line.entry? = some entry) :
    (found ++ [item]).map ScenarioItem.entry = entriesFrom first (lines ++ [line]) := by
  rw [List.map_append, h, entriesFrom_concat, hentry, List.map_singleton, hitem]
  rfl

namespace Line

theorem isScenarioHeading_iff :
    line.isScenarioHeading = true ↔ ∃ text, line.entry? = some (.scenario text) := by
  unfold isScenarioHeading entry?
  split
  · simp
  · split <;> simp_all

theorem isTags_iff : line.isTags = true ↔ ∃ values, line.entry? = some (.tags values) := by
  unfold isTags entry?
  split
  · simp
  · split <;> simp_all

theorem isTearDown_iff : line.isTearDown = true ↔ line.entry? = some .tearDown := by
  unfold isTearDown entry?
  split
  · simp
  · split <;> simp_all

/-- Any line but a scenario heading and tags may stand after the marker of the teardown. -/
theorem mayFollowTearDown_iff : line.isScenarioHeading = false ∧ line.isTags = false ↔
    ∀ entry, line.entry? = some entry → entry.kind ≠ .scenario ∧ entry.kind ≠ .tags := by
  rw [Bool.eq_false_iff, Bool.eq_false_iff, ne_eq, ne_eq, isScenarioHeading_iff, isTags_iff]
  constructor
  · rintro ⟨hscenario, htags⟩ entry hentry
    cases entry with
    | scenario text => exact absurd ⟨text, hentry⟩ hscenario
    | tags values => exact absurd ⟨values, hentry⟩ htags
    | _ => simp [Entry.kind]
  · exact fun h ↦
      ⟨fun ⟨text, hentry⟩ ↦ (h _ hentry).1 rfl, fun ⟨values, hentry⟩ ↦ (h _ hentry).2 rfl⟩

/-- A line whose entry is neither a scenario heading nor the marker of the teardown ends no section. -/
theorem endsOpening_eq_false (h : ∀ entry, line.entry? = some entry →
    entry.kind ≠ .scenario ∧ entry.kind ≠ .tearDown) : line.endsOpening = false := by
  rw [Bool.eq_false_iff, ne_eq, endsOpening, Bool.or_eq_true, isScenarioHeading_iff, isTearDown_iff]
  rintro (⟨text, hentry⟩ | hentry)
  · exact (h _ hentry).1 rfl
  · exact (h _ hentry).2 rfl

end Line

namespace Part.Renders

/-- Extending the span of a scenario leaves its entries as they are. -/
theorem cover (h : part.Renders lines) (number : Nat) : (part.cover number).Renders lines := by
  cases part <;> exact h

/-- A line that leaves nothing may come next. -/
theorem quiet (h : part.Renders lines) (hentry : line.entry? = none) : part.Renders (lines ++ [line]) := by
  have hends : line.endsOpening = false := Line.endsOpening_eq_false (by simp [hentry])
  cases part with
  | opening items => exact h.concat_quiet hends hentry
  | scenario before current =>
    obtain ⟨front, body, text, rfl, hfront, hbody, hheading, hitems⟩ := h
    refine ⟨front, body ++ [line], text, by simp, hfront, ?_, hheading, ?_⟩
    · simpa [or_imp, forall_and] using ⟨hbody, hends⟩
    · rw [entriesFrom_concat, hentry]
      simpa using hitems
  | tearDown before marker steps comments =>
    obtain ⟨front, rest, rfl, hfront, hmarker, hrest⟩ := h
    have hline : line.isScenarioHeading = false ∧ line.isTags = false :=
      Line.mayFollowTearDown_iff.mpr (by simp [hentry])
    have hconcat := hrest.concat line [] [] hline (by simp [hentry, entriesOfKind])
      (by simp [hentry, entriesOfKind])
    exact ⟨front, rest ++ [line], by simp, hfront, hmarker, by simpa using hconcat⟩

/-- A line of prose is a comment of the section that it stands in. -/
theorem addComment {text : String} (h : part.Renders lines) (hentry : line.entry? = some (.comment text)) :
    (part.addComment ⟨text, lines.length + 1⟩).Renders (lines ++ [line]) := by
  have hends : line.endsOpening = false := Line.endsOpening_eq_false (by simp [hentry, Entry.kind])
  cases part with
  | opening items =>
    have hconcat := h.concat line (.comment ⟨text, lines.length + 1⟩) hends rfl rfl (by rw [hentry]; rfl)
    simpa [Renders, Part.addComment] using hconcat
  | scenario before current =>
    obtain ⟨front, body, heading, rfl, hfront, hbody, hheading, hitems⟩ := h
    refine ⟨front, body ++ [line], heading, by simp, hfront, ?_, hheading, ?_⟩
    · simpa [or_imp, forall_and] using ⟨hbody, hends⟩
    · have hconcat := map_entry_concat hitems line (.comment ⟨text, _⟩)
        (congrArg (·, _) (length_append_cons_succ front (.heading 2 heading) body)) hentry
      simpa [ScenarioDraft.add] using hconcat
  | tearDown before marker steps comments =>
    obtain ⟨front, rest, rfl, hfront, hmarker, hrest⟩ := h
    have hline : line.isScenarioHeading = false ∧ line.isTags = false :=
      Line.mayFollowTearDown_iff.mpr (by simp [hentry, Entry.kind])
    have hconcat := hrest.concat line [] [⟨text, front.length + 2 + rest.length⟩] hline
      (by simp [hentry, entriesOfKind, Entry.kind])
      (by simp [hentry, entriesOfKind, Entry.kind, Comment.entry])
    rw [length_append_cons_succ]
    exact ⟨front, rest ++ [line], by simp, hfront, hmarker, by simpa using hconcat⟩

/-- A step is a context, a step of the scenario or one of the teardown. -/
theorem addStep {step : Step} (h : part.Renders lines) (hentry : line.entry? = some (.step step.text))
    (hnumber : step.line = lines.length + 1) : (part.addStep step).Renders (lines ++ [line]) := by
  have hends : line.endsOpening = false := Line.endsOpening_eq_false (by simp [hentry, Entry.kind])
  cases part with
  | opening items =>
    have hconcat := h.concat line (.context step) hends rfl hnumber (by rw [hentry, ← hnumber]; rfl)
    simpa [Renders, Part.addStep] using hconcat
  | scenario before current =>
    obtain ⟨front, body, heading, rfl, hfront, hbody, hheading, hitems⟩ := h
    refine ⟨front, body ++ [line], heading, by simp, hfront, ?_, hheading, ?_⟩
    · simpa [or_imp, forall_and] using ⟨hbody, hends⟩
    · have hsame := hnumber.trans (length_append_cons_succ front _ body)
      have hconcat := map_entry_concat hitems line (.step step) (congrArg (·, _) hsame) hentry
      simpa [ScenarioDraft.add] using hconcat
  | tearDown before marker steps comments =>
    obtain ⟨front, rest, rfl, hfront, hmarker, hrest⟩ := h
    have hline : line.isScenarioHeading = false ∧ line.isTags = false :=
      Line.mayFollowTearDown_iff.mpr (by simp [hentry, Entry.kind])
    have hsame := hnumber.trans (length_append_cons_succ front _ rest)
    have hconcat := hrest.concat line [step] [] hline
      (by simp [hentry, entriesOfKind, Entry.kind, Step.entry, hsame])
      (by simp [hentry, entriesOfKind, Entry.kind])
    exact ⟨front, rest ++ [line], by simp, hfront, hmarker, by simpa using hconcat⟩

/-- Tags belong to the specification or to a scenario. -/
theorem addTags {values : List String} (h : part.Renders lines)
    (htags : part.addTags ⟨values, lines.length + 1⟩ = .ok next) :
    next.Renders (lines ++ [.tags values]) := by
  cases part with
  | opening items =>
    cases htags
    have hconcat := h.concat (.tags values) (.tags ⟨values, lines.length + 1⟩) rfl rfl rfl rfl
    simpa [Renders] using hconcat
  | scenario before current =>
    cases htags
    obtain ⟨front, body, heading, rfl, hfront, hbody, hheading, hitems⟩ := h
    refine ⟨front, body ++ [.tags values], heading, by simp, hfront, ?_, hheading, ?_⟩
    · simpa [or_imp, forall_and] using ⟨hbody, (rfl : (Line.tags values).endsOpening = false)⟩
    · have hconcat := map_entry_concat hitems (.tags values) (.tags ⟨values, _⟩)
        (congrArg (·, _) (length_append_cons_succ front (.heading 2 heading) body)) rfl
      simpa [ScenarioDraft.add] using hconcat
  | tearDown => cases htags

/-- The scenario that is being read may be closed. -/
theorem areSections_closed (h : part.Renders lines) (hpart : ∀ before marker steps comments,
    part ≠ .tearDown before marker steps comments) : AreSections lines part.closed.reverse := by
  cases part with
  | opening items => exact .opening h
  | scenario before current =>
    obtain ⟨front, body, heading, rfl, hfront, hbody, hheading, hitems⟩ := h
    rw [Part.closed, List.reverse_cons]
    exact .scenario hfront hbody hheading hitems
  | tearDown before marker steps comments => exact absurd rfl (hpart before marker steps comments)

theorem areItems (h : part.Renders lines) : AreItems lines part.items := by
  cases part with
  | tearDown before marker steps comments =>
    obtain ⟨front, rest, rfl, hfront, rfl, hrest⟩ := h
    have hitems := AreItems.after hfront hrest
    simpa [Part.items, Part.closed] using hitems
  | _ => exact .before (h.areSections_closed (by simp))

/-- A scenario heading opens a section of its own. -/
theorem openScenario {text : String} (h : part.Renders lines)
    (hscenario : part.openScenario text (lines.length + 1) = .ok next) :
    next.Renders (lines ++ [.heading 2 text]) := by
  cases part with
  | tearDown => cases hscenario
  | _ =>
    cases hscenario
    exact ⟨lines, [], text, rfl, h.areSections_closed (by simp), by simp, rfl, rfl⟩

/-- The first marker of the teardown opens the last section, and later ones leave nothing. -/
theorem openTearDown (h : part.Renders lines) :
    (part.openTearDown (lines.length + 1)).Renders (lines ++ [.tearDown]) := by
  cases part with
  | tearDown before marker steps comments =>
    obtain ⟨front, rest, rfl, hfront, hmarker, hrest⟩ := h
    have hconcat := hrest.concat .tearDown [] [] ⟨rfl, rfl⟩ rfl rfl
    exact ⟨front, rest ++ [.tearDown], by simp, hfront, hmarker, by simpa using hconcat⟩
  | _ => exact ⟨lines, [], rfl, h.areSections_closed (by simp), rfl, ⟨by simp, rfl, rfl⟩⟩

/-- Changing the step that was read last leaves the entries as they are if it keeps its own. -/
theorem changeLastStep {change : Step → Except Fault Step} (h : part.Renders lines)
    (hchange : ∀ step changed, change step = .ok changed → changed.entry = step.entry)
    (hread : part.changeLastStep change = .ok next) : next.Renders lines := by
  unfold Part.changeLastStep at hread
  split at hread
  · rename_i step items
    obtain ⟨changed, hchanged, rfl⟩ := map_eq_ok_iff.mp hread
    have hentry := hchange step changed hchanged
    rw [Renders, List.reverse_cons] at h ⊢
    exact h.changeLast rfl (congrArg Prod.fst hentry) (congrArg (fun entry ↦ [entry]) hentry)
  · rename_i before heading last step items
    obtain ⟨changed, hchanged, rfl⟩ := map_eq_ok_iff.mp hread
    obtain ⟨front, body, text, rfl, hfront, hbody, hheading, hitems⟩ := h
    refine ⟨front, body, text, rfl, hfront, hbody, hheading, ?_⟩
    rw [← hitems]
    simp [ScenarioItem.entry, hchange step changed hchanged]
  · rename_i before marker step steps comments
    obtain ⟨changed, hchanged, rfl⟩ := map_eq_ok_iff.mp hread
    obtain ⟨front, rest, rfl, hfront, hmarker, hrest⟩ := h
    refine ⟨front, rest, rfl, hfront, hmarker, hrest.lines_after, ?_, hrest.comments_eq⟩
    rw [← hrest.steps_eq]
    simp [hchange step changed hchanged]
  · cases hread

/-- The header row of the data table is an item without an entry. -/
theorem openDataTable {cells : List String} (h : part.Renders lines)
    (htable : part.openDataTable cells (lines.length + 1) = .ok next) :
    next.Renders (lines ++ [.tableRow cells]) := by
  cases part with
  | opening items =>
    simp only [Part.openDataTable] at htable
    split_ifs at htable
    cases htable
    have hconcat := h.concat (.tableRow cells) (.dataTable (.ofHeaderRow cells (lines.length + 1)))
      rfl rfl rfl rfl
    simpa [Renders] using hconcat
  | _ => cases htable

theorem readDataRow {cells : List String} (h : part.Renders lines)
    (hread : part.readDataRow cells = .ok next) : next.Renders lines := by
  unfold Part.readDataRow at hread
  split at hread
  · rename_i table items
    obtain ⟨extended, hextended, rfl⟩ := map_eq_ok_iff.mp hread
    have hline : extended.line = table.line := by
      unfold Table.readRow at hextended
      split_ifs at hextended <;> cases hextended <;> rfl
    rw [Renders, List.reverse_cons] at h ⊢
    exact h.changeLast rfl hline rfl
  · cases hread
    exact h

end Part.Renders

/-- A row below a step changes neither the line nor the text of the step. -/
theorem Step.entry_readRow {step changed : Step} {inTable : Bool} {cells : List String}
    (h : step.readRow inTable cells number = .ok changed) : changed.entry = step.entry := by
  unfold Step.readRow at h
  split at h
  · obtain ⟨table, -, rfl⟩ := map_eq_ok_iff.mp h
    rfl
  · cases h
    rfl

/-- A step has the number of its line and the text on it. -/
theorem StepText.entry_of_parse {text : String} {step : Step} (h : StepText.parse text number = .ok step)
    (htrimmed : Text.trimString text = text) : step.entry = (number, .step text) := by
  obtain ⟨pieces, -, rfl⟩ := exists_pieces_of_parse h
  rw [Text.trimString] at htrimmed
  simp [Step.entry, stepOfPieces, Step.written, htrimmed]

namespace Draft

variable {draft after : Draft}

/-- A table row leaves no entry. -/
theorem renders_readRow {cells : List String} (h : draft.part.Renders lines)
    (hread : draft.readRow (lines.length + 1) cells = .ok after) :
    after.part.Renders (lines ++ [.tableRow cells]) := by
  unfold readRow at hread
  split at hread
  · obtain ⟨-, -, hread⟩ := bind_eq_ok_iff.mp hread
    obtain ⟨part, hpart, hread⟩ := bind_eq_ok_iff.mp hread
    cases hread
    exact h.openDataTable hpart
  · obtain ⟨part, hpart, hread⟩ := bind_eq_ok_iff.mp hread
    cases hread
    exact (h.readDataRow hpart).quiet rfl
  · obtain ⟨part, hpart, hread⟩ := bind_eq_ok_iff.mp hread
    cases hread
    exact (h.changeLastStep (fun _ _ hrow ↦ Step.entry_readRow hrow) hpart).quiet rfl
  · obtain ⟨part, hpart, hread⟩ := bind_eq_ok_iff.mp hread
    cases hread
    exact (h.changeLastStep (fun _ _ hrow ↦ Step.entry_readRow hrow) hpart).quiet rfl

/-- Assumes: a draft that renders some lines, and a next line without white space around the text of a
step. With this line read the draft renders it too. -/
theorem renders_read (h : draft.part.Renders lines)
    (hread : draft.read (lines.length + 1) line = .ok after)
    (htrimmed : ∀ text, line = .step text → Text.trimString text = text) :
    after.part.Renders (lines ++ [line]) := by
  unfold read at hread
  split at hread
  · cases hread
    exact h.quiet rfl
  · split_ifs at hread
    cases hread
    exact (h.cover _).quiet rfl
  · obtain ⟨-, -, hread⟩ := bind_eq_ok_iff.mp hread
    obtain ⟨part, hpart, hread⟩ := bind_eq_ok_iff.mp hread
    cases hread
    exact h.openScenario hpart
  · rename_i level text htitle hscenario
    cases hread
    refine (h.cover _).addComment ?_
    unfold Line.entry?
    split <;> simp_all
  · cases hread
    exact (h.cover _).addComment rfl
  · rename_i text
    obtain ⟨-, -, hread⟩ := bind_eq_ok_iff.mp hread
    obtain ⟨step, hstep, hread⟩ := bind_eq_ok_iff.mp hread
    cases hread
    have hentry := StepText.entry_of_parse hstep (htrimmed text rfl)
    refine (h.cover _).addStep ?_ (congrArg Prod.fst hentry)
    exact congrArg some (congrArg Prod.snd hentry).symm
  · obtain ⟨part, hpart, hread⟩ := bind_eq_ok_iff.mp hread
    cases hread
    exact (h.cover _).addTags hpart
  · obtain ⟨-, -, hread⟩ := bind_eq_ok_iff.mp hread
    cases hread
    exact h.openTearDown
  · exact renders_readRow (h.cover _) hread

/-- The same for all lines of a text, one after another. -/
theorem renders_readAll {below : List Line} (h : draft.part.Renders lines)
    (hread : draft.readAll (lines.length + 1) below = .ok after)
    (htrimmed : ∀ text, Line.step text ∈ below → Text.trimString text = text) :
    after.part.Renders (lines ++ below) := by
  induction below generalizing draft lines with
  | nil =>
    cases hread
    rwa [List.append_nil]
  | cons line rest ih =>
    unfold readAll at hread
    split at hread
    · cases hread
    · rename_i next hnext
      have hline := renders_read h hnext fun text hstep ↦ htrimmed text (hstep ▸ List.mem_cons_self)
      have hrest := ih hline (by simpa using hread)
        fun text hstep ↦ htrimmed text (List.mem_cons_of_mem _ hstep)
      simpa using hrest

theorem renders_empty : Draft.empty.part.Renders [] :=
  ⟨by simp, by simp, rfl, by simp, by simp⟩

end Draft

end Reading

/-- The text of a step has no white space around it on a line that has been classified. -/
theorem Line.trimString_of_mem_classifyAll {text source : String}
    (h : Line.step source ∈ Line.classifyAll text) : Text.trimString source = source := by
  obtain ⟨line, -, hline⟩ := List.mem_map.mp h
  unfold classify classifyTrimmed at hline
  split at hline
  · cases hline
  · cases hline
  · cases hline
  · split_ifs at hline
    · cases hline
      simp [content, Text.trimString, Text.trim_trim]
    · unfold classifyUnmarked at hline
      split_ifs at hline
  · unfold classifyUnmarked at hline
    split_ifs at hline

end LiveSpec
