import LiveSpec.Proofs.Document.Scope
import Mathlib.Data.List.Basic

/-!
# The climb through the scopes

Resolving a name is a climb that asks one lookup after another (`Scopes.turn`). A turn by itself does not tell
whether the climb comes to an end. That follows from how the lookups were made: each inside an earlier one, and
binding a name moves no lookup (`Scopes.IsBuilt.isNested`). Then no lookup is asked twice, and the climb ends
after at most as many turns as there are lookups (`Scopes.IsNested.exists_ends`).

What it ends with can be said without a climb, by recursion on the enclosing scopes (`Scopes.Unfolds`). The
recursion has one solution, since a scope is enclosed by earlier ones only (`Scopes.Unfolds.unique`), and it
reads no lookups but those of the scope and of what encloses it (`Scopes.climb_congr`).
`Scopes.resolves_of_isBuilt` puts this together.
-/

set_option autoImplicit false

namespace LiveSpec.Scopes

variable {scopes other : Scopes} {scope : ScopeId} {name : String} {met : Option Argument}

/-! ### How lookups are made -/

/-- Lookups that were made one after another, each inside an earlier one or inside none, with names bound in
between. -/
inductive IsBuilt : Scopes → Prop
  | empty : IsBuilt .empty
  | push {scopes : Scopes} {lookup : Lookup} (h : IsBuilt scopes)
    (hparent : ∀ outer ∈ lookup.parent, outer < scopes.size) : IsBuilt (scopes.push lookup)
  | set {scopes : Scopes} (h : IsBuilt scopes) (scope : ScopeId) (name : String) (argument : Argument) :
    IsBuilt (scopes.set scope name argument)

/-- Binding a name changes the lookup behind the handle and no other. -/
theorem get?_set (scopes : Scopes) (changed scope : ScopeId) (name : String) (argument : Argument) :
    (scopes.set changed name argument).get? scope =
      if changed = scope then (scopes.get? scope).map fun lookup ↦ lookup.set name argument
      else scopes.get? scope := by
  simp [set, get?, Array.getElem?_modify]

/-- Binding a name leaves every lookup inside the same one. -/
theorem IsNested.set (h : scopes.IsNested) (changed : ScopeId) (name : String) (argument : Argument) :
    (scopes.set changed name argument).IsNested := by
  intro scope found outer hfound houter
  rw [get?_set] at hfound
  split_ifs at hfound
  · obtain ⟨lookup, hlookup, rfl⟩ := Option.map_eq_some_iff.mp hfound
    exact h scope lookup outer hlookup houter
  · exact h scope found outer hfound houter

theorem IsBuilt.isNested (h : scopes.IsBuilt) : scopes.IsNested := by
  induction h with
  | empty => exact isNested_empty
  | push _ hparent ih => exact ih.push hparent
  | set _ scope name argument ih => exact ih.set scope name argument

/-! ### Turn by turn -/

/-- Where a climb stands: the scope to ask next, if there is one, the name to ask it for, and the last
reference met. -/
structure Climb where
  scope : Option ScopeId
  name : String
  met : Option Argument
  deriving DecidableEq, Repr

/-- One turn of a climb: it goes on in the enclosing scope or ends with an answer. -/
def turn (scopes : Scopes) (climb : Climb) : Climb ⊕ Option Argument :=
  match climb.scope with
  | none => .inr climb.met
  | some scope =>
    match scopes.get? scope with
    | none => .inr none
    | some lookup =>
      match lookup.read climb.name climb.met with
      | .answer argument => .inr (some argument)
      | .ask wanted met => .inl ⟨lookup.parent, wanted, met⟩

/-- A climb goes on for a number of turns and then ends with an answer. -/
inductive Ends (scopes : Scopes) : Climb → Nat → Option Argument → Prop
  | now {climb : Climb} {answer : Option Argument} (h : scopes.turn climb = .inr answer) :
    Ends scopes climb 0 answer
  | later {climb next : Climb} {turns : Nat} {answer : Option Argument}
    (h : scopes.turn climb = .inl next) (hnext : Ends scopes next turns answer) :
    Ends scopes climb (turns + 1) answer

/-- Assumes: nested lookups. A climb asks no more lookups than there are up to the one it starts with. -/
theorem IsNested.exists_ends_climb (h : scopes.IsNested) (scope : Nat) (name : String)
    (met : Option Argument) :
    ∃ turns ≤ scope + 1, scopes.Ends ⟨some scope, name, met⟩ turns (scopes.climb scope name met) := by
  induction scope using Nat.strongRecOn generalizing name met with
  | _ scope ih =>
    cases hlookup : scopes.get? scope with
    | none =>
      have hclimb : scopes.climb scope name met = none := by
        rw [climb, hlookup]
      exact ⟨0, Nat.zero_le _, .now (by simp [turn, hlookup, hclimb])⟩
    | some lookup =>
      rw [h.climb_step hlookup]
      cases hread : lookup.read name met with
      | answer argument => exact ⟨0, Nat.zero_le _, .now (by simp [turn, hlookup, hread])⟩
      | ask wanted last =>
        have hturn : scopes.turn ⟨some scope, name, met⟩ = .inl ⟨lookup.parent, wanted, last⟩ := by
          simp [turn, hlookup, hread]
        cases hparent : lookup.parent with
        | none =>
          rw [hparent] at hturn
          exact ⟨1, by omega, .later hturn (.now rfl)⟩
        | some outer =>
          rw [hparent] at hturn
          have hless := h scope lookup outer hlookup hparent
          obtain ⟨turns, hturns, hends⟩ := ih outer hless wanted last
          exact ⟨turns + 1, Nat.succ_le_succ (Nat.le_trans hturns hless), .later hturn hends⟩

/-- Assumes: nested lookups. The climb of a name ends with what the name resolves to, after at most as many
turns as there are lookups. -/
theorem IsNested.exists_ends (h : scopes.IsNested) (scope : ScopeId) (name : String) :
    ∃ turns ≤ scopes.size, scopes.Ends ⟨some scope, name, none⟩ turns (scopes.resolve scope name) := by
  by_cases hscope : scope < scopes.size
  · obtain ⟨turns, hturns, hends⟩ := h.exists_ends_climb scope name none
    exact ⟨turns, Nat.le_trans hturns hscope, hends⟩
  · have hnone : scopes.get? scope = none := Array.getElem?_eq_none (Nat.le_of_not_lt hscope)
    have hresolve : scopes.resolve scope name = none := by
      rw [resolve, climb, hnone]
    exact ⟨0, Nat.zero_le _, .now (by simp [turn, hnone, hresolve])⟩

/-! ### The recursion behind the climb -/

/-- What names mean in the scopes, by recursion: a binding that is no reference means itself. A reference means
what its name means in the enclosing scope, or itself if it means nothing there. A name that is not bound means
what it means in the enclosing scope, and nothing if there is none. -/
def Unfolds (scopes : Scopes) (meaning : ScopeId → String → Option Argument) : Prop :=
  ∀ scope name, meaning scope name =
    match scopes.get? scope with
    | none => none
    | some lookup =>
      match lookup.get? name with
      | none => lookup.parent.bind fun outer ↦ meaning outer name
      | some (.dynamic wanted) =>
        (lookup.parent.bind fun outer ↦ meaning outer wanted).or (some (.dynamic wanted))
      | some argument => some argument

/-- Assumes: nested lookups. Resolving follows the recursion. -/
theorem IsNested.unfolds_resolve (h : scopes.IsNested) : scopes.Unfolds scopes.resolve := by
  intro scope name
  cases hlookup : scopes.get? scope with
  | none => rw [resolve, climb, hlookup]
  | some lookup =>
    rw [h.resolve_eq hlookup]
    dsimp only
    cases lookup.get? name with
    | none => rfl
    | some argument =>
      cases argument with
      | dynamic wanted =>
        simp only [passed, outermost]
        cases lookup.parent.bind fun outer ↦ scopes.resolve outer wanted <;> rfl
      | _ => rfl

/-- Assumes: nested lookups. Only one meaning of the names follows the recursion. -/
theorem Unfolds.unique (hnested : scopes.IsNested) {meaning another : ScopeId → String → Option Argument}
    (h : scopes.Unfolds meaning) (hanother : scopes.Unfolds another) : meaning = another := by
  funext scope
  induction scope using Nat.strongRecOn with
  | _ scope ih =>
    funext name
    rw [h scope name, hanother scope name]
    cases hlookup : scopes.get? scope with
    | none => rfl
    | some lookup =>
      have houter : ∀ wanted, (lookup.parent.bind fun outer ↦ meaning outer wanted) =
          lookup.parent.bind fun outer ↦ another outer wanted := by
        intro wanted
        cases hparent : lookup.parent with
        | none => rfl
        | some outer => exact congrFun (ih outer (hnested scope lookup outer hlookup hparent)) wanted
      simp only [houter]

/-! ### What resolving depends on -/

/-- One scope encloses another: it is that scope, or it encloses the one around it. -/
inductive Encloses (scopes : Scopes) : ScopeId → ScopeId → Prop
  | self {scope : ScopeId} : Encloses scopes scope scope
  | around {around scope outer : ScopeId} {lookup : Lookup} (hlookup : scopes.get? scope = some lookup)
    (hparent : lookup.parent = some outer) (h : Encloses scopes around outer) :
    Encloses scopes around scope

/-- Assumes: nested lookups. No scope is enclosed by a later one. -/
theorem Encloses.le (hnested : scopes.IsNested) {around : ScopeId} (h : scopes.Encloses around scope) :
    around ≤ scope := by
  induction h with
  | self => exact Nat.le_refl _
  | around hlookup hparent _ ih =>
    exact Nat.le_trans ih (Nat.le_of_lt (hnested _ _ _ hlookup hparent))

/-- Assumes: other lookups that agree in a scope and in those that enclose it. A climb from that scope ends
with the same. -/
theorem climb_congr
    (h : ∀ around, scopes.Encloses around scope → other.get? around = scopes.get? around) (name : String)
    (met : Option Argument) : other.climb scope name met = scopes.climb scope name met := by
  induction scope using Nat.strongRecOn generalizing name met with
  | _ scope ih =>
    rw [climb, climb, h scope .self]
    cases hlookup : scopes.get? scope with
    | none => rfl
    | some lookup =>
      dsimp only
      cases lookup.read name met with
      | answer argument => rfl
      | ask wanted last =>
        cases hparent : lookup.parent with
        | none => rfl
        | some outer =>
          dsimp only
          split_ifs with hless
          · exact ih outer hless (fun around haround ↦ h around (.around hlookup hparent haround)) wanted last
          · rfl

/-- Assumes: lookups that were made one after another, each inside an earlier one if in any, with names bound at
any time. The climb of a name ends in every scope, after at most as many turns as there are lookups. What it ends
with is the one meaning that follows the recursion. Lookups that agree in a scope and in those that enclose it
make no difference to what a name resolves to there. -/
theorem resolves_of_isBuilt (h : scopes.IsBuilt) :
    (∀ scope name, ∃ turns ≤ scopes.size,
      scopes.Ends ⟨some scope, name, none⟩ turns (scopes.resolve scope name)) ∧
    (∀ meaning, scopes.Unfolds meaning ↔ meaning = scopes.resolve) ∧
    ∀ scope (other : Scopes),
      (∀ around, scopes.Encloses around scope → other.get? around = scopes.get? around) →
        ∀ name, other.resolve scope name = scopes.resolve scope name := by
  have hnested := h.isNested
  refine ⟨hnested.exists_ends, fun meaning ↦ ⟨fun hmeaning ↦ ?_, ?_⟩, fun scope other hsame name ↦ ?_⟩
  · exact hmeaning.unique hnested hnested.unfolds_resolve
  · rintro rfl
    exact hnested.unfolds_resolve
  · exact climb_congr hsame name none

/-- An invocation inside another one, whose parameter was bound anew after both were made. -/
def forwardingScopes : Scopes :=
  ((empty.push ⟨[("name", .static "x")], none⟩).push
    ⟨[("target", .dynamic "name"), ("row", .dynamic "column")], some 0⟩).set 0 "name" (.static "y")

/-- The inner invocation forwards the new binding, and a reference that is bound nowhere means itself. One more
invocation beside it makes no difference. -/
theorem resolves_of_isBuilt_forwarding :
    forwardingScopes.IsBuilt ∧
      (∃ turns ≤ 2, forwardingScopes.Ends ⟨some 1, "target", none⟩ turns (some (.static "y"))) ∧
      forwardingScopes.Unfolds forwardingScopes.resolve ∧
      forwardingScopes.resolve 1 "row" = some (.dynamic "column") ∧
      (forwardingScopes.push ⟨[("target", .static "z")], some 0⟩).resolve 1 "target" =
        some (.static "y") := by
  have hbuilt : forwardingScopes.IsBuilt :=
    .set (.push (.push .empty (by simp)) (by simp [empty])) 0 "name" (.static "y")
  obtain ⟨hends, hmeaning, hcongr⟩ := resolves_of_isBuilt hbuilt
  have htarget : forwardingScopes.resolve 1 "target" = some (.static "y") := by decide +kernel
  have hturns := hends 1 "target"
  rw [htarget] at hturns
  refine ⟨hbuilt, hturns, (hmeaning _).mpr rfl, by decide +kernel,
    (hcongr 1 _ (fun around haround ↦ ?_) _).trans htarget⟩
  have hless : around < forwardingScopes.size :=
    Nat.lt_of_le_of_lt (haround.le hbuilt.isNested) (by decide)
  rw [get?_eq_getElem?, get?_eq_getElem?, toList_push, List.getElem?_append_left (by simpa using hless)]

end LiveSpec.Scopes
