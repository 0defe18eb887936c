/-
Lists in order of first occurrence.

`List.eraseDups` keeps the first occurrence of each element. Both ordered containers
of the library have it as their list view: a `NameSet` after insertions lists the
names in order of first occurrence, and so do the names of a `Scope`.

* `nodup_eraseDups`, `filter_eraseDups`, `eraseDups_eraseDups_append`: the result
  repeats nothing, filtering may be done before or after, and names that were listed
  once already need not be listed again.
* `NameSet.toList_insertAll`, `NameSet.toList_eraseAll`: the two mutators of a name
  set on whole lists.
-/

import Comprehension.NameSet

namespace Comprehension

section Lists

variable {α : Type} [BEq α] [LawfulBEq α]

theorem nodup_eraseDups (l : List α) : l.eraseDups.Nodup := by
  match l with
  | [] => simp
  | a :: rest =>
    have shorter : (rest.filter fun b => !b == a).length < (a :: rest).length :=
      Nat.lt_succ_of_le (List.length_filter_le _ rest)
    rw [List.eraseDups_cons, List.nodup_cons]
    refine ⟨?_, nodup_eraseDups _⟩
    intro mem
    have kept := (List.mem_filter.mp (List.mem_eraseDups.mp mem)).2
    simp at kept
termination_by l.length
decreasing_by exact shorter

/-- A list without repetitions is its own list of first occurrences. -/
theorem eraseDups_eq_self {l : List α} (nodup : l.Nodup) : l.eraseDups = l := by
  induction l with
  | nil => rfl
  | cons a rest ih =>
    obtain ⟨fresh, nodup⟩ := List.nodup_cons.mp nodup
    have all : (rest.filter fun b => !b == a) = rest := by
      rw [List.filter_eq_self]
      intro b hb
      have differs : b ≠ a := fun e => fresh (e ▸ hb)
      simp [differs]
    rw [List.eraseDups_cons, all, ih nodup]

/-- A filter neither creates nor moves first occurrences. -/
theorem filter_eraseDups (p : α → Bool) (l : List α) :
    l.eraseDups.filter p = (l.filter p).eraseDups := by
  match l with
  | [] => rfl
  | a :: rest =>
    have shorter : (rest.filter fun b => !b == a).length < (a :: rest).length :=
      Nat.lt_succ_of_le (List.length_filter_le _ rest)
    have ih := filter_eraseDups p (rest.filter fun b => !b == a)
    rw [List.filter_filter] at ih
    rw [List.eraseDups_cons]
    by_cases ha : p a = true
    · rw [List.filter_cons_of_pos ha, List.filter_cons_of_pos ha, List.eraseDups_cons, ih,
        List.filter_filter]
      simp only [Bool.and_comm]
    · -- a rejected head is rejected wherever it occurs, so leaving it out early is harmless
      have same : (rest.filter fun b => p b && !b == a) = rest.filter p := by
        apply List.filter_congr
        intro b _
        by_cases hb : b = a
        · subst hb; simp [ha]
        · simp [hb]
      rw [List.filter_cons_of_neg ha, List.filter_cons_of_neg ha, ih, same]
termination_by l.length
decreasing_by exact shorter

/-- The list of first occurrences grows by an element exactly when it is new. -/
theorem eraseDups_append_singleton (l : List α) (a : α) :
    (l ++ [a]).eraseDups = if a ∈ l then l.eraseDups else l.eraseDups ++ [a] := by
  rw [List.eraseDups_append]
  by_cases h : a ∈ l
  · have none : [a].removeAll l = [] := by simp [List.removeAll, h]
    rw [if_pos h, none, List.eraseDups_nil, List.append_nil]
  · have all : [a].removeAll l = [a] := by simp [List.removeAll, h]
    rw [if_neg h, all, List.eraseDups_cons]
    rfl

/-- What stands in front may be cleared of repetitions first. -/
theorem eraseDups_eraseDups_append (l l' : List α) :
    (l.eraseDups ++ l').eraseDups = (l ++ l').eraseDups := by
  have same : l'.removeAll l.eraseDups = l'.removeAll l := by
    apply List.filter_congr
    intro b _
    by_cases h : b ∈ l <;> simp [h]
  rw [List.eraseDups_append, List.eraseDups_append, same, eraseDups_eq_self (nodup_eraseDups l)]

end Lists

/-! ### Name sets -/

namespace NameSet

/-- Inserting a list leaves the names in order of first occurrence. -/
theorem toList_insertAll (s : NameSet) (names : List Name) :
    (s.insertAll names).toList = (s.toList ++ names).eraseDups := by
  induction names generalizing s with
  | nil => rw [insertAll_nil, List.append_nil, eraseDups_eq_self s.nodup]
  | cons n rest ih =>
    have step : (s.insert n).toList = (s.toList ++ [n]).eraseDups := by
      rw [toList_insert, eraseDups_append_singleton, eraseDups_eq_self s.nodup]
    rw [insertAll_cons, ih, step, eraseDups_eraseDups_append, List.append_assoc,
      List.singleton_append]

theorem toList_ofList (names : List Name) : (ofList names).toList = names.eraseDups :=
  toList_insertAll empty names

/-- Erasing a list leaves the other names where they were. -/
theorem toList_eraseAll (s : NameSet) (names : List Name) :
    (s.eraseAll names).toList = s.toList.filter fun n => !names.contains n := by
  induction names generalizing s with
  | nil => exact (List.filter_eq_self.mpr fun _ _ => rfl).symm
  | cons k rest ih =>
    rw [eraseAll_cons, ih, toList_erase, s.nodup.erase_eq_filter, List.filter_filter]
    apply List.filter_congr
    intro n _
    by_cases h : n = k
    · simp [h]
    · simp [h, bne]

end NameSet

end Comprehension
