import Mathlib.Data.List.Basic
import Mathlib.Data.List.Nodup
import Mathlib.Logic.Function.Basic

/-!
# Lexical environments

A stack of scopes, the innermost first, each with a name and the values it binds to
keys. A key has the value that the nearest scope binds to it. What a scope binds
shadows what the scopes around it bind, and when it ends they are seen again.
-/

namespace Dang

/-- The scopes from the innermost outwards, each with its name and its bindings. -/
abbrev Environment (ν κ β : Type) := List (ν × (κ → Option β))

namespace Environment

variable {ν κ β : Type} {environment inner outer : Environment ν κ β} {name : ν} {key : κ}
  {bound : κ → Option β}

/-- The value that the nearest scope binds to the key. -/
def lookup (environment : Environment ν κ β) (key : κ) : Option β :=
  environment.findSome? fun scope => scope.2 key

section Names

variable [DecidableEq ν]

/-- The scopes from the one with the name outwards. -/
def fromScope (environment : Environment ν κ β) (name : ν) : Environment ν κ β :=
  environment.dropWhile fun scope => decide (scope.1 ≠ name)

/-- The value that the scope with the name itself binds to the key. -/
def binding (environment : Environment ν κ β) (name : ν) (key : κ) : Option β :=
  (environment.fromScope name).head?.bind fun scope => scope.2 key

theorem fromScope_append (fresh : name ∉ inner.map Prod.fst) :
    fromScope (inner ++ (name, bound) :: outer) name = (name, bound) :: outer := by
  induction inner with
  | nil => simp [fromScope]
  | cons scope rest ih =>
      simp only [List.map_cons, List.mem_cons, not_or] at fresh
      have apart : scope.1 ≠ name := Ne.symm fresh.1
      simp only [fromScope, List.cons_append, List.dropWhile_cons, apart, ne_eq, not_false_eq_true,
        decide_true, if_true]
      exact ih fresh.2

theorem binding_append (fresh : name ∉ inner.map Prod.fst) :
    binding (inner ++ (name, bound) :: outer) name key = bound key := by
  simp only [binding, fromScope_append fresh, List.head?_cons, Option.bind_some]

variable [DecidableEq κ] {value : β}

/-- Binding a key in the scope with the name. -/
def declare (environment : Environment ν κ β) (name : ν) (key : κ) (value : β) :
    Environment ν κ β :=
  environment.map fun scope =>
    (scope.1, if scope.1 = name then Function.update scope.2 key (some value) else scope.2)

/-- Binding a key in a scope changes no scope with another name. -/
theorem declare_of_not_mem (fresh : name ∉ environment.map Prod.fst) :
    environment.declare name key value = environment := by
  unfold declare
  calc
    environment.map _ = environment.map id := by
      apply List.map_congr_left
      intro scope mem
      have apart : scope.1 ≠ name := by
        rintro rfl
        exact fresh (List.mem_map_of_mem mem)
      simp [apart]
    _ = environment := List.map_id _

theorem declare_append (freshInner : name ∉ inner.map Prod.fst)
    (freshOuter : name ∉ outer.map Prod.fst) :
    declare (inner ++ (name, bound) :: outer) name key value =
      inner ++ (name, Function.update bound key (some value)) :: outer := by
  have split : declare (inner ++ (name, bound) :: outer) name key value =
      inner.declare name key value ++
        (name, Function.update bound key (some value)) :: outer.declare name key value := by
    simp [declare]
  rw [split, declare_of_not_mem freshInner, declare_of_not_mem freshOuter]

theorem map_fst_declare : (environment.declare name key value).map Prod.fst =
    environment.map Prod.fst := by
  simp [declare, Function.comp_def]

section Innermost

variable {scope : ν} {other : κ}

/-- Binding a key in the innermost scope. -/
theorem declare_cons (apart : name ∉ outer.map Prod.fst) (key : κ) (value : β) :
    declare ((name, bound) :: outer) name key value =
      (name, Function.update bound key (some value)) :: outer := by
  have nowhere : name ∉ ([] : Environment ν κ β).map Prod.fst := List.not_mem_nil
  exact declare_append nowhere apart

theorem binding_declare_self (apart : name ∉ outer.map Prod.fst) (key : κ) (value : β) :
    (declare ((name, bound) :: outer) name key value).binding name key = some value := by
  rw [declare_cons apart, binding, fromScope]
  simp

/-- What a scope binds to another key, or another scope to any key, stays. -/
theorem binding_declare_of_ne (apart : name ∉ outer.map Prod.fst) (value : β)
    (different : scope ≠ name ∨ other ≠ key) :
    (declare ((name, bound) :: outer) name key value).binding scope other =
      binding ((name, bound) :: outer) scope other := by
  rw [declare_cons apart, binding, binding, fromScope, fromScope]
  by_cases here : name = scope
  · have keys : other ≠ key := by
      rcases different with scopes | keys
      · exact absurd here.symm scopes
      · exact keys
    simp [here, Function.update_of_ne keys]
  · simp [here]

theorem lookup_declare_of_ne (apart : name ∉ outer.map Prod.fst) (value : β)
    (different : other ≠ key) :
    (declare ((name, bound) :: outer) name key value).lookup other =
      lookup ((name, bound) :: outer) other := by
  simp only [declare_cons apart, lookup, List.findSome?_cons, Function.update_of_ne different]

/-- Binding a key in the innermost scope to the value it has is seen by no lookup. -/
theorem lookup_declare_same {value : β} (apart : name ∉ outer.map Prod.fst)
    (unbound : bound key = none)
    (found : lookup ((name, bound) :: outer) key = some value) :
    ((declare ((name, bound) :: outer) name key value).fromScope scope).lookup other =
      (fromScope ((name, bound) :: outer) scope).lookup other := by
  rw [declare_cons apart, fromScope, fromScope]
  by_cases here : name = scope
  · simp only [here, List.dropWhile_cons, ne_eq, not_true_eq_false, decide_false, lookup,
      List.findSome?_cons, Bool.false_eq_true, if_false]
    by_cases same : other = key
    · simp only [lookup, List.findSome?_cons, unbound] at found
      rw [same, Function.update_self, unbound]
      exact found.symm
    · rw [Function.update_of_ne same]
  · simp [here]

end Innermost

end Names

end Environment

end Dang
