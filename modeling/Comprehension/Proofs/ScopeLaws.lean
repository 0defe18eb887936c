/-
Laws of scopes: names and values of everything built by insertion.

A scope is known by two views, the list of its names and the value at each name. Here
each operation is described in both: `insertAll`, and `project` and `overlay`, which
are insertions in a row.

* `names_insertAll`, `names_project`, `names_overlay`: names stand in order of first
  occurrence.
* `get?_insertAll`, `get?_project`, `get?_overlay`: the last value inserted for a name
  wins, over whatever the scope held before.
* `AgreeOn`: two scopes bind all names of a list, to the same values. Inserting the
  same pairs into both keeps the agreement and extends it by the inserted names.
-/

import Comprehension.Scope
import Comprehension.Proofs.FirstOccurrence

namespace Comprehension

namespace Scope

variable {V : Type}

/-! ### Looking names up in a list of pairs -/

theorem find?_append (n : Name) (ps qs : List (Name × V)) :
    find? n (ps ++ qs) = (find? n ps).or (find? n qs) := by
  induction ps with
  | nil => rfl
  | cons p rest ih =>
    obtain ⟨k, v⟩ := p
    by_cases h : k = n
    · simp [find?, h]
    · simp [find?, h, ih]

/-- Pairs that all come from one function give its value at every name they list. -/
theorem find?_eq_of_forall {f : Name → Option V} {pairs : List (Name × V)}
    (fromFun : ∀ p ∈ pairs, f p.1 = some p.2) (n : Name) :
    find? n pairs = if n ∈ pairs.map Prod.fst then f n else none := by
  induction pairs with
  | nil => rfl
  | cons p rest ih =>
    obtain ⟨k, v⟩ := p
    obtain ⟨head, tail⟩ := List.forall_mem_cons.mp fromFun
    by_cases h : k = n
    · subst h
      simp [find?, head]
    · have hne : ¬ n = k := fun e => h e.symm
      simp only [find?, if_neg h, ih tail, List.map_cons, List.mem_cons, hne, false_or]

theorem find?_isSome_iff (n : Name) (pairs : List (Name × V)) :
    (find? n pairs).isSome = true ↔ n ∈ pairs.map Prod.fst := by
  induction pairs with
  | nil => simp [find?]
  | cons p rest ih =>
    obtain ⟨k, v⟩ := p
    by_cases h : k = n
    · simp [find?, h]
    · have hne : ¬ n = k := fun e => h e.symm
      simp only [find?, if_neg h, ih, List.map_cons, List.mem_cons, hne, false_or]

/-! ### Which names are bound -/

theorem names_nodup (s : Scope V) : s.names.Nodup := s.nodup

theorem contains_iff {s : Scope V} {n : Name} : s.contains n = true ↔ n ∈ s.names :=
  find?_isSome_iff n s.entries

theorem mem_names_iff {s : Scope V} {n : Name} : n ∈ s.names ↔ ∃ v, s.get? n = some v :=
  contains_iff.symm.trans Option.isSome_iff_exists

theorem get?_eq_none_iff {s : Scope V} {n : Name} : s.get? n = none ↔ n ∉ s.names := by
  rw [mem_names_iff]
  constructor
  · rintro absent ⟨v, bound⟩
    rw [absent] at bound
    cases bound
  · intro h
    cases bound : s.get? n with
    | none => rfl
    | some v => exact absurd ⟨v, bound⟩ h

/-- Every entry is the one that looking its name up gives, as no name has two. -/
theorem get?_of_mem_entries {s : Scope V} {p : Name × V} (mem : p ∈ s.entries) :
    s.get? p.1 = some p.2 := by
  obtain ⟨entries, nodup⟩ := s
  simp only at mem
  show find? p.1 entries = some p.2
  induction entries with
  | nil => cases mem
  | cons q rest ih =>
    obtain ⟨fresh, nodup⟩ := List.nodup_cons.mp nodup
    rcases List.mem_cons.mp mem with rfl | later
    · simp [find?]
    · have hne : ¬ q.1 = p.1 := fun e => fresh (e ▸ List.mem_map_of_mem later)
      simp only [find?, if_neg hne]
      exact ih nodup later

/-! ### Insertion in a row -/

/-- After insertions the names stand in order of first occurrence. -/
theorem names_insertAll (s : Scope V) (pairs : List (Name × V)) :
    (s.insertAll pairs).names = (s.names ++ pairs.map Prod.fst).eraseDups := by
  induction pairs generalizing s with
  | nil => rw [insertAll_nil, List.map_nil, List.append_nil, eraseDups_eq_self s.names_nodup]
  | cons p rest ih =>
    have step : (s.insert p.1 p.2).names = (s.names ++ [p.1]).eraseDups := by
      rw [names_insert, eraseDups_append_singleton, eraseDups_eq_self s.names_nodup]
    rw [insertAll_cons, ih, step, eraseDups_eraseDups_append, List.append_assoc,
      List.singleton_append, List.map_cons]

/-- The last value inserted for a name wins. -/
theorem get?_insertAll (s : Scope V) (pairs : List (Name × V)) (n : Name) :
    (s.insertAll pairs).get? n = (find? n pairs.reverse).or (s.get? n) := by
  induction pairs generalizing s with
  | nil => rfl
  | cons p rest ih =>
    obtain ⟨k, v⟩ := p
    rw [insertAll_cons, ih, List.reverse_cons, find?_append, get?_insert, Option.or_assoc]
    by_cases h : n = k
    · simp [find?, h]
    · have hne : ¬ k = n := fun e => h e.symm
      simp [find?, h, hne]

theorem get?_insertAll_of_notMem (s : Scope V) {pairs : List (Name × V)} {n : Name}
    (fresh : n ∉ pairs.map Prod.fst) : (s.insertAll pairs).get? n = s.get? n := by
  have absent : find? n pairs.reverse = none := by
    cases found : find? n pairs.reverse with
    | none => rfl
    | some v =>
      have listed := (find?_isSome_iff n pairs.reverse).mp (by rw [found]; rfl)
      rw [List.map_reverse, List.mem_reverse] at listed
      exact absurd listed fresh
  rw [get?_insertAll, absent, Option.none_or]

/-- Pairs after the last one for a name have no say about it. -/
theorem get?_insertAll_of_last (s : Scope V) {before after : List (Name × V)} {n : Name} (v : V)
    (last : n ∉ after.map Prod.fst) :
    (s.insertAll (before ++ (n, v) :: after)).get? n = some v := by
  rw [insertAll_append, insertAll_cons, get?_insertAll_of_notMem _ last, get?_insert, if_pos rfl]

/-- Names that a scope has stay where they are; the new ones follow, in order of first
occurrence. -/
theorem names_insertAll_eq_append (s : Scope V) (pairs : List (Name × V)) :
    (s.insertAll pairs).names =
      s.names ++ ((pairs.map Prod.fst).filter fun n => n ∉ s.names).eraseDups := by
  have fresh : (pairs.map Prod.fst).removeAll s.names =
      (pairs.map Prod.fst).filter fun n => n ∉ s.names := by
    apply List.filter_congr
    intro n _
    simp
  rw [names_insertAll, List.eraseDups_append, eraseDups_eq_self s.names_nodup, fresh]

/-! ### Restriction -/

/-- The pairs that restricting a scope inserts. -/
theorem map_fst_filterMap_get? (s : Scope V) (names : List Name) :
    (names.filterMap fun n => (s.get? n).map fun v => (n, v)).map Prod.fst =
      names.filter s.contains := by
  induction names with
  | nil => rfl
  | cons n rest ih =>
    cases h : s.get? n with
    | none => simp [h, contains, ih]
    | some v => simp [h, contains, ih]

theorem names_project (s : Scope V) (names : List Name) :
    (s.project names).names = (names.filter s.contains).eraseDups := by
  rw [project, ofList, names_insertAll, map_fst_filterMap_get?, names_empty, List.nil_append]

theorem get?_project (s : Scope V) (names : List Name) (n : Name) :
    (s.project names).get? n = if n ∈ names then s.get? n else none := by
  have fromScope : ∀ p ∈ (names.filterMap fun k => (s.get? k).map fun v => (k, v)).reverse,
      s.get? p.1 = some p.2 := by
    intro p hp
    obtain ⟨k, -, hk⟩ := List.mem_filterMap.mp (List.mem_reverse.mp hp)
    obtain ⟨v, bound, rfl⟩ := Option.map_eq_some_iff.mp hk
    exact bound
  rw [project, ofList, get?_insertAll, find?_eq_of_forall fromScope, get?_empty, Option.or_none]
  simp only [List.map_reverse, List.mem_reverse, map_fst_filterMap_get?, List.mem_filter]
  by_cases listed : n ∈ names
  · cases bound : s.get? n with
    | none => simp [contains, bound]
    | some v => simp [contains, bound, listed]
  · simp [listed]

/-- Restricting to bound names that are listed once gives those names. -/
theorem names_project_of_forall {s : Scope V} {names : List Name} (nodup : names.Nodup)
    (bound : ∀ n ∈ names, n ∈ s.names) : (s.project names).names = names := by
  have all : names.filter s.contains = names :=
    List.filter_eq_self.mpr fun n hn => contains_iff.mpr (bound n hn)
  rw [names_project, all, eraseDups_eq_self nodup]

/-! ### Overlay -/

theorem names_overlay (s t : Scope V) : (s.overlay t).names = (s.names ++ t.names).eraseDups :=
  names_insertAll s t.entries

/-- The upper scope decides about every name it binds. -/
theorem get?_overlay (s t : Scope V) (n : Name) :
    (s.overlay t).get? n = (t.get? n).or (s.get? n) := by
  have fromUpper : ∀ p ∈ t.entries.reverse, t.get? p.1 = some p.2 :=
    fun p hp => get?_of_mem_entries (List.mem_reverse.mp hp)
  rw [overlay, get?_insertAll, find?_eq_of_forall fromUpper]
  simp only [List.map_reverse, List.mem_reverse]
  by_cases h : n ∈ t.entries.map Prod.fst
  · rw [if_pos h]
  · rw [if_neg h, get?_eq_none_iff.mpr h]

/-! ### Agreement -/

/-- Both scopes bind every listed name, to the same value. -/
def AgreeOn (names : List Name) (s t : Scope V) : Prop :=
  ∀ n ∈ names, ∃ v, s.get? n = some v ∧ t.get? n = some v

theorem AgreeOn.mono {names names' : List Name} {s t : Scope V} (agree : AgreeOn names s t)
    (sub : ∀ n ∈ names', n ∈ names) : AgreeOn names' s t :=
  fun n hn => agree n (sub n hn)

/-- Inserting the same pairs into both scopes keeps the agreement and extends it by
the inserted names. -/
theorem AgreeOn.insertAll {names : List Name} {s t : Scope V} (agree : AgreeOn names s t)
    (pairs : List (Name × V)) :
    AgreeOn (names ++ pairs.map Prod.fst) (s.insertAll pairs) (t.insertAll pairs) := by
  intro n hn
  rw [get?_insertAll, get?_insertAll]
  cases found : find? n pairs.reverse with
  | some v => exact ⟨v, rfl, rfl⟩
  | none =>
    rw [Option.none_or, Option.none_or]
    rcases List.mem_append.mp hn with old | new
    · exact agree n old
    · have listed := (find?_isSome_iff n pairs.reverse).mpr (by simpa using new)
      rw [found] at listed
      cases listed

end Scope

end Comprehension
