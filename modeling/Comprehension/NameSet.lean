/-
Ordered sets of names.

A `NameSet` lists each of its names once, in the order in which they came in, and
keeps a search tree of the same names so that membership is asked of the tree and
never of the list. Both views are part of the value, tied together by `nodup` and
`mem_index`:

* inserting a name that is present changes nothing, and a new one goes to the end;
* removing a name forgets its place, so that inserting it again puts it last.
-/

import Comprehension.Name

namespace Comprehension

/-- A set of names that remembers the order of insertion. -/
structure NameSet where
  /-- The names, in order of insertion. -/
  toList : List Name
  /-- The same names, keyed for membership. -/
  index : Std.TreeSet Name
  nodup : toList.Nodup
  mem_index : ∀ n, n ∈ index ↔ n ∈ toList

namespace NameSet

/-- Membership, asked of the search tree. -/
def contains (s : NameSet) (n : Name) : Bool := s.index.contains n

theorem contains_iff {s : NameSet} {n : Name} : s.contains n = true ↔ n ∈ s.toList :=
  s.mem_index n

def empty : NameSet where
  toList := []
  index := ∅
  nodup := List.nodup_nil
  mem_index n := by simp

instance : EmptyCollection NameSet := ⟨empty⟩

/-- Adds a name at the end unless it is present. -/
def insert (s : NameSet) (n : Name) : NameSet :=
  if h : s.contains n = true then s
  else
    { toList := s.toList ++ [n]
      index := s.index.insert n
      nodup := by
        have fresh : n ∉ s.toList := fun mem => h (contains_iff.mpr mem)
        refine List.nodup_append.mpr ⟨s.nodup, by simp, ?_⟩
        intro a ha b hb hab
        rw [List.mem_singleton.mp hb] at hab
        exact fresh (hab ▸ ha)
      mem_index := fun k => by
        rw [Std.TreeSet.mem_insert, s.mem_index, List.mem_append, List.mem_singleton,
          Std.LawfulEqOrd.compare_eq_iff_eq, or_comm, eq_comm] }

/-- Removes a name together with its place in the order. -/
def erase (s : NameSet) (n : Name) : NameSet :=
  if s.contains n then
    { toList := s.toList.erase n
      index := s.index.erase n
      nodup := s.nodup.erase n
      mem_index := fun k => by
        rw [Std.TreeSet.mem_erase, s.mem_index, s.nodup.mem_erase_iff, ne_eq,
          Std.LawfulEqOrd.compare_eq_iff_eq, eq_comm] }
  else s

/-- Adds names one after the other. -/
def insertAll (s : NameSet) (names : List Name) : NameSet := names.foldl insert s

/-- Removes names one after the other. -/
def eraseAll (s : NameSet) (names : List Name) : NameSet := names.foldl erase s

/-- The distinct names of a list, in order of first occurrence. -/
def ofList (names : List Name) : NameSet := empty.insertAll names

/-! ### The list view -/

@[simp] theorem toList_empty : empty.toList = [] := rfl

theorem toList_insert (s : NameSet) (n : Name) :
    (s.insert n).toList = if n ∈ s.toList then s.toList else s.toList ++ [n] := by
  unfold insert
  split
  · rename_i h; rw [if_pos (contains_iff.mp h)]
  · rename_i h; rw [if_neg fun mem => h (contains_iff.mpr mem)]

theorem toList_erase (s : NameSet) (n : Name) :
    (s.erase n).toList = s.toList.erase n := by
  unfold erase
  split
  · rfl
  · rename_i h
    exact (List.erase_of_not_mem fun mem => h (contains_iff.mpr mem)).symm

@[simp] theorem insertAll_nil (s : NameSet) : s.insertAll [] = s := rfl

@[simp] theorem insertAll_cons (s : NameSet) (n : Name) (names : List Name) :
    s.insertAll (n :: names) = (s.insert n).insertAll names := rfl

@[simp] theorem eraseAll_nil (s : NameSet) : s.eraseAll [] = s := rfl

@[simp] theorem eraseAll_cons (s : NameSet) (n : Name) (names : List Name) :
    s.eraseAll (n :: names) = (s.erase n).eraseAll names := rfl

end NameSet

end Comprehension
