import LiveSpec.Document.Usage
import Mathlib.Data.List.Basic
import Mathlib.Data.List.Nodup

/-!
# Bindings and the names that they resolve

Binding different names one after another keeps them in order (`Lookup.setAll_of_nodup`), and asking for
the name at a position gives the argument at that position (`lookup_zip_of_nodup`).

The lookups of a specification are nested: each knows an earlier one, if any (`Scopes.IsNested`). Then
resolving follows the nesting (`Scopes.IsNested.resolve_eq`): what a name is bound to is the answer
unless it is a reference, a reference is resolved in the enclosing scope and stands for itself where
that gives nothing, and a name that is not bound is resolved in the enclosing scope. The climb that does
this remembers the last reference met, and that is its answer exactly when resolving gives nothing
(`Scopes.IsNested.climb_eq`).
-/

set_option autoImplicit false

namespace LiveSpec

/-! ### Binding different names -/

theorem bindIn_of_not_mem {name : String} {bindings : List (String × Argument)}
    (h : name ∉ bindings.map Prod.fst) (argument : Argument) :
    bindIn name argument bindings = bindings ++ [(name, argument)] := by
  induction bindings with
  | nil => rfl
  | cons binding rest ih =>
    simp only [List.map_cons, List.mem_cons, not_or] at h
    rw [bindIn, if_neg (Ne.symm h.1), ih h.2, List.cons_append]

/-- Binding names does not change what the lookup is nested in. -/
theorem Lookup.parent_setAll (lookup : Lookup) (bindings : List (String × Argument)) :
    (lookup.setAll bindings).parent = lookup.parent := by
  induction bindings generalizing lookup with
  | nil => rfl
  | cons binding rest ih => exact ih (lookup.set binding.1 binding.2)

/-- Assumes: names that differ from each other and from those bound already. Binding them adds their
bindings in order. -/
theorem Lookup.setAll_of_nodup {lookup : Lookup} {bindings : List (String × Argument)}
    (h : (lookup.names ++ bindings.map Prod.fst).Nodup) :
    lookup.setAll bindings = ⟨lookup.bindings ++ bindings, lookup.parent⟩ := by
  induction bindings generalizing lookup with
  | nil => simp [setAll]
  | cons binding rest ih =>
    have hnew : binding.1 ∉ lookup.names := by
      intro hbound
      exact (List.nodup_append.mp h).2.2 _ hbound _ (by simp) rfl
    have hset : lookup.set binding.1 binding.2 =
        ⟨lookup.bindings ++ [binding], lookup.parent⟩ := by
      rw [set, bindIn_of_not_mem hnew]
    rw [setAll, List.foldl_cons, hset]
    refine (ih ?_).trans (by simp)
    simpa [names] using h

/-- Assumes: keys that differ from each other. The key at a position is found with the value there. -/
theorem lookup_zip_of_nodup {α : Type} {keys : List String} {values : List α} (h : keys.Nodup)
    {position : Nat} {key : String} {value : α} (hkey : keys[position]? = some key)
    (hvalue : values[position]? = some value) : (keys.zip values).lookup key = some value := by
  induction keys generalizing values position with
  | nil => simp at hkey
  | cons first keys ih =>
    cases values with
    | nil => simp at hvalue
    | cons head values =>
      rw [List.nodup_cons] at h
      cases position with
      | zero => simp_all
      | succ position =>
        simp only [List.getElem?_cons_succ] at hkey hvalue
        have hother : (key == first) = false := by
          rw [beq_eq_false_iff_ne]
          rintro rfl
          exact h.1 (List.mem_of_getElem? hkey)
        rw [List.zip_cons_cons, List.lookup_cons, hother]
        exact ih h.2 hkey hvalue

/-- A key that is not among the given ones is not found. -/
theorem lookup_zip_of_not_mem {α : Type} {keys : List String} {key : String} (h : key ∉ keys)
    (values : List α) : (keys.zip values).lookup key = none := by
  rw [List.lookup_eq_none_iff]
  intro pair hpair
  rw [bne_iff_ne]
  rintro rfl
  exact h (List.of_mem_zip hpair).1

/-! ### Lookups in the order in which they were made -/

namespace Scopes

variable {scopes : Scopes} {scope : ScopeId} {lookup : Lookup}

theorem get?_eq_getElem? (scopes : Scopes) (scope : ScopeId) :
    scopes.get? scope = scopes.toList[scope]? := by
  simp [get?, toList]

theorem lt_size_of_get? (h : scopes.get? scope = some lookup) : scope < scopes.size :=
  (Array.getElem?_eq_some_iff.mp h).1

@[simp] theorem size_push (scopes : Scopes) (lookup : Lookup) :
    (scopes.push lookup).size = scopes.size + 1 := Array.size_push lookup

@[simp] theorem toList_push (scopes : Scopes) (lookup : Lookup) :
    (scopes.push lookup).toList = scopes.toList ++ [lookup] := Array.toList_push

@[simp] theorem length_toList (scopes : Scopes) : scopes.toList.length = scopes.size :=
  Array.length_toList

/-- A lookup is found behind the handle that was next when it was made. -/
theorem get?_push_size (scopes : Scopes) (lookup : Lookup) :
    (scopes.push lookup).get? scopes.size = some lookup := by
  simp [get?_eq_getElem?]

/-- Assumes: lookups that were made after others. The earlier ones are found behind their handles. -/
theorem get?_of_isPrefix {later : Scopes} (h : scopes.toList <+: later.toList)
    (hlookup : scopes.get? scope = some lookup) : later.get? scope = some lookup := by
  obtain ⟨rest, hrest⟩ := h
  have hlength : scope < scopes.toList.length := by simpa using lt_size_of_get? hlookup
  rw [get?_eq_getElem?] at hlookup ⊢
  rw [← hrest, List.getElem?_append_left hlength, hlookup]

/-- Every lookup is nested in an earlier one, if in any. -/
def IsNested (scopes : Scopes) : Prop :=
  ∀ (scope : ScopeId) (lookup : Lookup) (outer : ScopeId), scopes.get? scope = some lookup →
    lookup.parent = some outer → outer < scope

theorem isNested_empty : Scopes.empty.IsNested := by
  intro scope lookup outer hlookup
  simp [Scopes.empty, get?] at hlookup

/-- Assumes: nested lookups, and one to add that knows one of them, if any. -/
theorem IsNested.push (h : scopes.IsNested) (hparent : ∀ outer ∈ lookup.parent, outer < scopes.size) :
    (scopes.push lookup).IsNested := by
  intro scope found outer hfound houter
  by_cases hnew : scope = scopes.size
  · subst hnew
    rw [get?_push_size, Option.some.injEq] at hfound
    subst hfound
    exact hparent outer houter
  · have hbound : scope < scopes.size := by
      have hlast := lt_size_of_get? hfound
      rw [size_push] at hlast
      exact Nat.lt_of_le_of_ne (Nat.le_of_lt_succ hlast) hnew
    rw [get?_eq_getElem?, toList_push, List.getElem?_append_left (by simpa using hbound),
      ← get?_eq_getElem?] at hfound
    exact h scope found outer hfound houter

/-! ### Climbing -/

/-- Assumes: nested lookups. What the climb does in one of them. -/
theorem IsNested.climb_step (h : scopes.IsNested) (hlookup : scopes.get? scope = some lookup)
    (name : String) (met : Option Argument) :
    scopes.climb scope name met =
      match lookup.read name met with
      | .answer argument => some argument
      | .ask wanted met =>
        match lookup.parent with
        | none => met
        | some outer => scopes.climb outer wanted met := by
  rw [climb]
  simp only [hlookup]
  cases lookup.read name met with
  | answer argument => rfl
  | ask wanted met =>
    cases hparent : lookup.parent with
    | none => rfl
    | some outer => simp [h scope lookup outer hlookup hparent]

/-- Assumes: nested lookups. The climb gives what the name resolves to and falls back on the last
reference met when it resolves to nothing. -/
theorem IsNested.climb_eq (h : scopes.IsNested) (hscope : scope < scopes.size) (name : String)
    (met : Option Argument) :
    scopes.climb scope name met = (scopes.resolve scope name).or met := by
  induction scope using Nat.strongRecOn generalizing name met with
  | _ scope ih =>
    obtain ⟨lookup, hlookup⟩ : ∃ lookup, scopes.get? scope = some lookup :=
      ⟨_, Array.getElem?_eq_getElem hscope⟩
    rw [resolve, h.climb_step hlookup, h.climb_step hlookup]
    cases hparent : lookup.parent with
    | none => cases hbound : lookup.get? name with
      | none => simp [Lookup.read, hbound]
      | some argument => cases argument <;> simp [Lookup.read, hbound]
    | some outer =>
      have hless := h scope lookup outer hlookup hparent
      have houter := ih outer hless (Nat.lt_trans hless hscope)
      cases hbound : lookup.get? name with
      | none => simp [Lookup.read, hbound, houter name]
      | some argument => cases argument <;> simp [Lookup.read, hbound, houter _ (some _)]

/-- What an argument of a call stands for in the body of the invocation around the call: a reference
for what it resolves to there, anything else for itself. -/
def passed (scopes : Scopes) (enclosing : Option ScopeId) : Argument → Argument
  | .dynamic name => scopes.outermost enclosing name
  | argument => argument

/-- Assumes: nested lookups. A bound name resolves to what its argument stands for around the lookup,
and any other name to what it resolves to there. -/
theorem IsNested.resolve_eq (h : scopes.IsNested) (hlookup : scopes.get? scope = some lookup)
    (name : String) :
    scopes.resolve scope name =
      match lookup.get? name with
      | some argument => some (scopes.passed lookup.parent argument)
      | none => lookup.parent.bind fun outer ↦ scopes.resolve outer name := by
  rw [resolve, h.climb_step hlookup]
  cases hparent : lookup.parent with
  | none => cases hbound : lookup.get? name with
    | none => simp [Lookup.read, hbound]
    | some argument => cases argument <;> simp [Lookup.read, hbound, passed, outermost]
  | some outer =>
    have houter : outer < scopes.size :=
      Nat.lt_trans (h scope lookup outer hlookup hparent) (lt_size_of_get? hlookup)
    cases hbound : lookup.get? name with
    | none => simp [Lookup.read, hbound, resolve]
    | some argument =>
      cases argument with
      | dynamic wanted =>
        simp only [Lookup.read, hbound, passed, outermost, h.climb_eq houter]
        cases hfound : scopes.resolve outer wanted <;> simp [hfound]
      | _ => simp [Lookup.read, hbound, passed]

end Scopes

end LiveSpec
