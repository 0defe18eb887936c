/-
Scopes as ordered maps.

An ordered map is a list of keys with a value at each. Nothing is said about how it is
kept. The operations on scopes have a meaning there: what becomes of the keys, and what
becomes of the values. A scope is seen as such a map by its names and its bindings.

* `view_insert`, `view_project`, `view_overlay`, `view_ofList`: seeing a scope commutes
  with each operation.
* `view_injective`: a scope is determined by what is seen of it.
* `Recipe`: all ways to build a scope, and `view_scope`: a scope that was built is the
  ordered map that its recipe describes.
* `built_scope_is_ordered_map`: both, for every scope that can be built.
-/

import Mathlib.Data.List.Basic
import Comprehension.Proofs.ScopeLaws

namespace Comprehension

/-- A finite map whose keys have an order. -/
@[ext] structure OrderedMap (V : Type) where
  keys : List Name
  value : Name → Option V

namespace OrderedMap

variable {V : Type}

/-- No keys. -/
def empty : OrderedMap V := ⟨[], fun _ => none⟩

/-- A new key goes to the end, a known one stays where it is; its value is the new one. -/
def insert (M : OrderedMap V) (n : Name) (v : V) : OrderedMap V where
  keys := if n ∈ M.keys then M.keys else M.keys ++ [n]
  value k := if k = n then some v else M.value k

/-- The keys among the given names, in the order in which these first occur. -/
def restrict (M : OrderedMap V) (names : List Name) : OrderedMap V where
  keys := (names.filter fun n => n ∈ M.keys).eraseDups
  value k := if k ∈ names then M.value k else none

/-- The keys of the first map, then those that only the second has. Where both have a
value, that of the second counts. -/
def extend (M M' : OrderedMap V) : OrderedMap V where
  keys := M.keys ++ M'.keys.filter fun n => n ∉ M.keys
  value k := (M'.value k).or (M.value k)

/-- The keys in the order in which they first occur, each with its last value. -/
def ofPairs (pairs : List (Name × V)) : OrderedMap V where
  keys := (pairs.map Prod.fst).eraseDups
  value k := ((pairs.filter fun p => p.1 = k).getLast?).map Prod.snd

end OrderedMap

namespace Scope

variable {V : Type}

/-- What is seen of a scope: its names and its bindings. -/
def view (s : Scope V) : OrderedMap V := ⟨s.names, s.get?⟩

/-! ### Operations -/

theorem view_empty : (empty : Scope V).view = OrderedMap.empty := rfl

theorem view_insert (s : Scope V) (n : Name) (v : V) :
    (s.insert n v).view = s.view.insert n v := by
  ext1
  · exact s.names_insert n v
  · funext k
    exact s.get?_insert n k v

theorem view_project (s : Scope V) (names : List Name) :
    (s.project names).view = s.view.restrict names := by
  ext1
  · have bound : names.filter s.contains = names.filter fun n => n ∈ s.names := by
      refine List.filter_congr fun n _ => ?_
      rw [Bool.eq_iff_iff, contains_iff, decide_eq_true_eq]
    show (s.project names).names = _
    rw [names_project, bound]
    rfl
  · funext k
    exact s.get?_project names k

theorem view_overlay (s t : Scope V) : (s.overlay t).view = s.view.extend t.view := by
  ext1
  · -- the upper scope repeats no name, so there is no repetition to drop
    have fresh : (t.names.filter fun n => n ∉ s.names).Nodup := t.names_nodup.filter _
    show (s.insertAll t.entries).names = s.names ++ t.names.filter fun n => n ∉ s.names
    rw [names_insertAll_eq_append]
    exact congrArg (s.names ++ ·) (eraseDups_eq_self fresh)
  · funext k
    exact s.get?_overlay t k

/-- The first binding from the end is the last one. -/
theorem find?_reverse (n : Name) (pairs : List (Name × V)) :
    find? n pairs.reverse = ((pairs.filter fun p => p.1 = n).getLast?).map Prod.snd := by
  induction pairs with
  | nil => rfl
  | cons p rest ih =>
    rw [List.reverse_cons, find?_append, ih]
    by_cases same : p.1 = n
    · rw [List.filter_cons_of_pos (by simpa using same), List.getLast?_cons]
      cases (rest.filter fun p => p.1 = n).getLast? with
      | none => simp [find?, same]
      | some q => rfl
    · rw [List.filter_cons_of_neg (by simpa using same)]
      simp [find?, same]

theorem view_ofList (pairs : List (Name × V)) :
    (ofList pairs).view = OrderedMap.ofPairs pairs := by
  ext1
  · show (ofList pairs).names = _
    rw [ofList, names_insertAll, names_empty, List.nil_append]
    rfl
  · funext k
    show (ofList pairs).get? k = _
    rw [ofList, get?_insertAll, get?_empty, Option.or_none, find?_reverse]
    rfl

theorem view_insertAll (s : Scope V) (pairs : List (Name × V)) :
    (s.insertAll pairs).view = pairs.foldl (fun M p => M.insert p.1 p.2) s.view := by
  induction pairs generalizing s with
  | nil => rfl
  | cons p rest ih => rw [insertAll_cons, ih, view_insert, List.foldl_cons]

/-! ### Nothing is hidden -/

/-- The entries can be read off the names and the bindings. -/
theorem entries_eq (s : Scope V) :
    s.entries = s.names.filterMap fun n => (s.get? n).map fun v => (n, v) := by
  have found : ∀ p ∈ s.entries, ((s.get? p.1).map fun v => (p.1, v)) = some p := by
    intro p hp
    rw [get?_of_mem_entries hp]
    rfl
  rw [names, List.filterMap_map]
  exact (List.filterMap_some.symm).trans (List.filterMap_congr found).symm

/-- **A scope is determined by what is seen of it.** -/
theorem view_injective {s t : Scope V} (same : s.view = t.view) : s = t := by
  have names : s.names = t.names := congrArg OrderedMap.keys same
  have values : s.get? = t.get? := congrArg OrderedMap.value same
  ext1
  rw [s.entries_eq, t.entries_eq, names, values]

/-! ### Recipes -/

/-- A way to build a scope. -/
inductive Recipe (V : Type) where
  | new
  | insert (base : Recipe V) (n : Name) (v : V)
  | project (base : Recipe V) (names : List Name)
  | extend (base other : Recipe V)
  | ofPairs (pairs : List (Name × V))

namespace Recipe

/-- The scope that is built. -/
def scope : Recipe V → Scope V
  | .new => Scope.empty
  | .insert base n v => base.scope.insert n v
  | .project base names => base.scope.project names
  | .extend base other => base.scope.overlay other.scope
  | .ofPairs pairs => Scope.ofList pairs

/-- The ordered map that the recipe describes. -/
def meaning : Recipe V → OrderedMap V
  | .new => .empty
  | .insert base n v => base.meaning.insert n v
  | .project base names => base.meaning.restrict names
  | .extend base other => base.meaning.extend other.meaning
  | .ofPairs pairs => .ofPairs pairs

/-- **What is built is what was described.** -/
theorem view_scope (recipe : Recipe V) : recipe.scope.view = recipe.meaning := by
  induction recipe with
  | new => exact view_empty
  | insert base n v ih => rw [scope, view_insert, ih, meaning]
  | project base names ih => rw [scope, view_project, ih, meaning]
  | extend base other ih ih' => rw [scope, view_overlay, ih, ih', meaning]
  | ofPairs pairs => exact view_ofList pairs

end Recipe

/-- **Every scope that can be built is an ordered map.** It repeats no name, it is the map
that its recipe describes, and no other scope is. At every such scope each operation does
what it does to maps: inserting sets one name and lists it last if it is new; restricting
keeps the listed names that are bound, in the order of the list; overlaying adds the names
that are new and takes all values of the upper scope. Collecting pairs is inserting them one
after the other, and leaves each name where it first occurs with the value it has last. -/
theorem built_scope_is_ordered_map (recipe upper : Recipe V) :
    recipe.scope.names.Nodup ∧
      recipe.scope.view = recipe.meaning ∧
      (∀ s : Scope V, s.view = recipe.meaning → s = recipe.scope) ∧
      (∀ n v, (recipe.scope.insert n v).view = recipe.scope.view.insert n v) ∧
      (∀ names, (recipe.scope.project names).view = recipe.scope.view.restrict names) ∧
      (recipe.scope.overlay upper.scope).view = recipe.scope.view.extend upper.scope.view ∧
      ∀ pairs : List (Name × V),
        Scope.ofList pairs = pairs.foldl (fun s p => s.insert p.1 p.2) Scope.empty ∧
          (Scope.ofList pairs).view = OrderedMap.ofPairs pairs ∧
          OrderedMap.ofPairs pairs =
            pairs.foldl (fun M p => M.insert p.1 p.2) OrderedMap.empty := by
  refine ⟨recipe.scope.names_nodup, recipe.view_scope, ?_, recipe.scope.view_insert,
    recipe.scope.view_project, recipe.scope.view_overlay upper.scope,
    fun pairs => ⟨rfl, view_ofList pairs, ?_⟩⟩
  · intro s same
    exact view_injective (same.trans recipe.view_scope.symm)
  · rw [← view_ofList, ofList, view_insertAll, view_empty]

/-- The later value of `a` stands in the place of the earlier, and asking twice for a name, or
for one that is not bound, adds nothing. -/
example : (Recipe.project (.extend (.ofPairs [(⟨"a"⟩, 1), (⟨"b"⟩, 2), (⟨"a"⟩, 3)])
      (.insert .new ⟨"c"⟩ 4)) [⟨"c"⟩, ⟨"z"⟩, ⟨"a"⟩, ⟨"c"⟩]).scope.entries =
    [(⟨"c"⟩, 4), (⟨"a"⟩, 3)] := by
  decide

end Scope

end Comprehension
