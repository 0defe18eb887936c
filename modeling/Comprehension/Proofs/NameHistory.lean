/-
Histories of name sets.

A name set is changed by inserting and removing names, singly or in a row. What it holds
is a matter of its history: a name is present if some insertion of it has not been undone
by a later removal, and its place in the order is that of the earliest such insertion.

* `Present`, `EnteredAt`: both notions, said of the history alone.
* `Reflects`: the list and the search tree of a set are what a history says.
* `Reflects.apply`: one more step keeps it so, and `reflects_replay`: every history.
* `after_reflects_history`: the same for edits, and what follows for single edits.
-/

import Mathlib.Data.List.Induction
import Comprehension.Proofs.FirstOccurrence

namespace Comprehension

namespace NameSet

/-! ### Histories -/

/-- One name comes in or goes out. -/
inductive Step where
  | insert (n : Name)
  | erase (n : Name)
deriving DecidableEq

/-- The set after one more step. -/
def Step.apply (s : NameSet) : Step → NameSet
  | .insert n => s.insert n
  | .erase n => s.erase n

/-- The set that a history makes, from the empty one. -/
def replay (history : List Step) : NameSet := history.foldl Step.apply empty

/-- The name is inserted, and not removed after that. -/
def Present (history : List Step) (n : Name) : Prop :=
  ∃ before after, history = before ++ .insert n :: after ∧ .erase n ∉ after

/-- The name is inserted at the index, not removed after that and not present before: of
the insertions since its last removal this is the earliest. -/
def EnteredAt (history : List Step) (n : Name) (i : Nat) : Prop :=
  ∃ before after, history = before ++ .insert n :: after ∧ .erase n ∉ after ∧
    before.length = i ∧ ¬ Present before n

/-! ### One step more -/

/-- A split of a list with one more element is at that element, or a split of the list. -/
theorem append_singleton_eq_split {history before after : List Step} {x y : Step} :
    history ++ [x] = before ++ y :: after ↔
      (history = before ∧ x = y ∧ after = []) ∨
        ∃ after', after = after' ++ [x] ∧ history = before ++ y :: after' := by
  constructor
  · intro split
    rcases List.eq_nil_or_concat after with rfl | ⟨after', z, rfl⟩
    · obtain ⟨same, last⟩ := List.append_inj' split rfl
      exact .inl ⟨same, List.singleton_inj.mp last, rfl⟩
    · rw [List.concat_eq_append, ← List.cons_append, ← List.append_assoc] at split
      obtain ⟨same, last⟩ := List.append_inj' split rfl
      exact .inr ⟨after', by rw [List.concat_eq_append, last], same⟩
  · rintro (⟨rfl, rfl, rfl⟩ | ⟨after', rfl, rfl⟩)
    · rfl
    · rw [List.append_assoc, List.cons_append]

section Snoc

variable {history : List Step} {n k : Name} {i : Nat}

/-- An insertion that no removal follows, one step later: it is that step, or it was there
before and the step does not undo it. -/
theorem exists_insert_append_singleton (P : List Step → Prop) (history : List Step) (n : Name)
    (x : Step) :
    (∃ before after, history ++ [x] = before ++ .insert n :: after ∧ .erase n ∉ after ∧
        P before) ↔
      (x = .insert n ∧ P history) ∨
        x ≠ .erase n ∧ ∃ before after, history = before ++ .insert n :: after ∧
          .erase n ∉ after ∧ P before := by
  constructor
  · rintro ⟨before, after, split, kept, holds⟩
    rcases append_singleton_eq_split.mp split with ⟨rfl, same, -⟩ | ⟨after', rfl, rfl⟩
    · exact .inl ⟨same, holds⟩
    · rw [List.mem_append, List.mem_singleton, not_or] at kept
      exact .inr ⟨Ne.symm kept.2, before, after', rfl, kept.1, holds⟩
  · rintro (⟨rfl, holds⟩ | ⟨differ, before, after, rfl, kept, holds⟩)
    · exact ⟨history, [], rfl, List.not_mem_nil, holds⟩
    · refine ⟨before, after ++ [x], by rw [List.append_assoc, List.cons_append], ?_, holds⟩
      rw [List.mem_append, List.mem_singleton, not_or]
      exact ⟨kept, Ne.symm differ⟩

theorem not_present_nil : ¬ Present [] n := by
  rintro ⟨before, after, split, -⟩
  simp at split

theorem present_append_insert : Present (history ++ [.insert k]) n ↔ n = k ∨ Present history n := by
  have step := exists_insert_append_singleton (fun _ => True) history n (.insert k)
  simpa [Present, eq_comm] using step

theorem present_append_erase : Present (history ++ [.erase k]) n ↔ Present history n ∧ n ≠ k := by
  have step := exists_insert_append_singleton (fun _ => True) history n (.erase k)
  simpa [Present, eq_comm, and_comm] using step

theorem EnteredAt.present (entered : EnteredAt history n i) : Present history n := by
  obtain ⟨before, after, split, kept, -⟩ := entered
  exact ⟨before, after, split, kept⟩

theorem EnteredAt.lt_length (entered : EnteredAt history n i) : i < history.length := by
  obtain ⟨before, after, rfl, -, rfl, -⟩ := entered
  simp

/-- Inserting a name gives it a place only if it has none. -/
theorem enteredAt_append_insert :
    EnteredAt (history ++ [.insert k]) n i ↔
      EnteredAt history n i ∨ n = k ∧ i = history.length ∧ ¬ Present history n := by
  unfold EnteredAt
  rw [exists_insert_append_singleton, or_comm]
  simp [eq_comm]

/-- Removing a name takes its place away, and no other. -/
theorem enteredAt_append_erase :
    EnteredAt (history ++ [.erase k]) n i ↔ EnteredAt history n i ∧ n ≠ k := by
  unfold EnteredAt
  rw [exists_insert_append_singleton]
  simp [eq_comm, and_comm]

end Snoc

/-- A present name has entered at one index. -/
theorem Present.enteredAt {history : List Step} {n : Name} (present : Present history n) :
    ∃ i, EnteredAt history n i ∧ ∀ j, EnteredAt history n j → j = i := by
  induction history using List.reverseRecOn with
  | nil => exact absurd present not_present_nil
  | append_singleton history step ih =>
    cases step with
    | insert k =>
      by_cases known : Present history n
      · obtain ⟨i, entered, unique⟩ := ih known
        refine ⟨i, enteredAt_append_insert.mpr (.inl entered), fun j again => ?_⟩
        rcases enteredAt_append_insert.mp again with old | ⟨-, -, absent⟩
        · exact unique j old
        · exact absurd known absent
      · have same := (present_append_insert.mp present).resolve_right known
        refine ⟨history.length, enteredAt_append_insert.mpr (.inr ⟨same, rfl, known⟩), ?_⟩
        intro j again
        rcases enteredAt_append_insert.mp again with old | ⟨-, last, -⟩
        · exact absurd old.present known
        · exact last
    | erase k =>
      obtain ⟨known, differ⟩ := present_append_erase.mp present
      obtain ⟨i, entered, unique⟩ := ih known
      refine ⟨i, enteredAt_append_erase.mpr ⟨entered, differ⟩, fun j again => ?_⟩
      exact unique j (enteredAt_append_erase.mp again).1

/-! ### Sets and their histories -/

/-- A set is what its history says. -/
structure Reflects (s : NameSet) (history : List Step) : Prop where
  /-- No name is listed twice. -/
  nodup : s.toList.Nodup
  /-- The list holds the names that are present. -/
  mem_toList : ∀ n, n ∈ s.toList ↔ Present history n
  /-- So does the search tree. -/
  mem_index : ∀ n, n ∈ s.index ↔ Present history n
  /-- The list has the order in which its names entered. -/
  ordered : s.toList.Pairwise fun a b =>
    ∀ i j, EnteredAt history a i → EnteredAt history b j → i < j

theorem mem_toList_insert {s : NameSet} {n k : Name} :
    n ∈ (s.insert k).toList ↔ n = k ∨ n ∈ s.toList := by
  rw [toList_insert]
  split
  · rename_i known
    exact ⟨.inr, fun mem => mem.elim (fun same => same ▸ known) id⟩
  · rw [List.mem_append, List.mem_singleton, or_comm]

theorem mem_toList_erase {s : NameSet} {n k : Name} :
    n ∈ (s.erase k).toList ↔ n ∈ s.toList ∧ n ≠ k := by
  rw [toList_erase, s.nodup.mem_erase_iff, and_comm]

theorem reflects_empty : Reflects empty [] where
  nodup := List.nodup_nil
  mem_toList _ := iff_of_false List.not_mem_nil not_present_nil
  mem_index n := (empty.mem_index n).trans (iff_of_false List.not_mem_nil not_present_nil)
  ordered := List.Pairwise.nil

section Apply

variable {s : NameSet} {history : List Step} (reflects : Reflects s history) (k : Name)

include reflects

/-- Inserting a name that is present moves none; a new one enters after all others. -/
theorem Reflects.insert : Reflects (s.insert k) (history ++ [.insert k]) := by
  have present (n : Name) : n ∈ (s.insert k).toList ↔ Present (history ++ [.insert k]) n := by
    rw [mem_toList_insert, present_append_insert, reflects.mem_toList]
  -- names that were there keep their index
  have kept {a : Name} {i : Nat} (mem : a ∈ s.toList)
      (entered : EnteredAt (history ++ [.insert k]) a i) : EnteredAt history a i := by
    rcases enteredAt_append_insert.mp entered with old | ⟨-, -, absent⟩
    · exact old
    · exact absurd ((reflects.mem_toList a).mp mem) absent
  have old : s.toList.Pairwise fun a b => ∀ i j, EnteredAt (history ++ [.insert k]) a i →
      EnteredAt (history ++ [.insert k]) b j → i < j :=
    reflects.ordered.imp_of_mem fun memA memB before i j enteredA enteredB =>
      before i j (kept memA enteredA) (kept memB enteredB)
  refine ⟨(s.insert k).nodup, present, fun n => ((s.insert k).mem_index n).trans (present n), ?_⟩
  rw [toList_insert]
  split
  · exact old
  · rename_i fresh
    have absent : ¬ Present history k := fun known => fresh ((reflects.mem_toList k).mpr known)
    refine List.pairwise_append.mpr ⟨old, List.pairwise_singleton _ k, ?_⟩
    intro a memA b memB i j enteredA enteredB
    rw [List.mem_singleton.mp memB] at enteredB
    rcases enteredAt_append_insert.mp enteredB with earlier | ⟨-, last, -⟩
    · exact absurd earlier.present absent
    · rw [last]
      exact (kept memA enteredA).lt_length

/-- Removing a name leaves the others in their order. -/
theorem Reflects.erase : Reflects (s.erase k) (history ++ [.erase k]) := by
  have present (n : Name) : n ∈ (s.erase k).toList ↔ Present (history ++ [.erase k]) n := by
    rw [mem_toList_erase, present_append_erase, reflects.mem_toList]
  refine ⟨(s.erase k).nodup, present, fun n => ((s.erase k).mem_index n).trans (present n), ?_⟩
  rw [toList_erase]
  refine (reflects.ordered.sublist List.erase_sublist).imp fun before i j enteredA enteredB => ?_
  exact before i j (enteredAt_append_erase.mp enteredA).1 (enteredAt_append_erase.mp enteredB).1

/-- **One more step**: what the set holds follows its history. -/
theorem Reflects.apply (step : Step) : Reflects (step.apply s) (history ++ [step]) := by
  cases step with
  | insert n => exact reflects.insert n
  | erase n => exact reflects.erase n

end Apply

theorem replay_append_singleton (history : List Step) (step : Step) :
    replay (history ++ [step]) = step.apply (replay history) := List.foldl_append

/-- **Every history** is reflected by the set it makes. -/
theorem reflects_replay (history : List Step) : Reflects (replay history) history := by
  induction history using List.reverseRecOn with
  | nil => exact reflects_empty
  | append_singleton history step ih =>
    rw [replay_append_singleton]
    exact ih.apply step

/-! ### Edits -/

/-- A change to a name set: one name in, a row of names in, or one name out. -/
inductive Edit where
  | insert (n : Name)
  | extend (names : List Name)
  | remove (n : Name)

namespace Edit

def apply (s : NameSet) : Edit → NameSet
  | .insert n => s.insert n
  | .extend names => s.insertAll names
  | .remove n => s.erase n

/-- The single steps of an edit. -/
def steps : Edit → List Step
  | .insert n => [.insert n]
  | .extend names => names.map .insert
  | .remove n => [.erase n]

theorem apply_eq_foldl (s : NameSet) (edit : Edit) :
    edit.apply s = edit.steps.foldl Step.apply s := by
  cases edit with
  | insert n => rfl
  | extend names =>
    rw [steps, List.foldl_map]
    rfl
  | remove n => rfl

end Edit

/-- The set after a row of edits, from the empty one. -/
def after (edits : List Edit) : NameSet := edits.foldl Edit.apply empty

/-- The single steps of a row of edits. -/
def history (edits : List Edit) : List Step := edits.flatMap Edit.steps

theorem after_eq_replay (edits : List Edit) : after edits = replay (history edits) := by
  rw [after, replay, history, List.foldl_flatMap]
  congr
  funext s edit
  exact edit.apply_eq_foldl s

theorem after_append (edits edits' : List Edit) :
    after (edits ++ edits') = edits'.foldl Edit.apply (after edits) := List.foldl_append

theorem insert_eq_self {s : NameSet} {n : Name} (known : n ∈ s.toList) : s.insert n = s :=
  dif_pos (contains_iff.mpr known)

theorem erase_eq_self {s : NameSet} {n : Name} (absent : n ∉ s.toList) : s.erase n = s :=
  if_neg fun known => absent (contains_iff.mp known)

/-- **A name set is what its history says, whatever the edits.** Its list and its search
tree hold the same names: those that were inserted and not removed after that. The list
repeats none and has them in the order of their entry, which for each is the earliest
insertion since its last removal. So to insert a name that is present, or to remove one that
is not, changes nothing at all, and a name that is not present goes to the end, also when
it was removed before. -/
theorem after_reflects_history (edits : List Edit) :
    Reflects (after edits) (history edits) ∧
      (∀ n, Present (history edits) n →
        ∃ i, EnteredAt (history edits) n i ∧ ∀ j, EnteredAt (history edits) n j → j = i) ∧
      (∀ n, Present (history edits) n → after (edits ++ [.insert n]) = after edits) ∧
      (∀ n, ¬ Present (history edits) n → after (edits ++ [.remove n]) = after edits) ∧
      (∀ n, ¬ Present (history edits) n →
        (after (edits ++ [.insert n])).toList = (after edits).toList ++ [n]) ∧
      ∀ n, (after (edits ++ [.remove n, .insert n])).toList =
        (after edits).toList.erase n ++ [n] := by
  have reflects : Reflects (after edits) (history edits) := by
    rw [after_eq_replay]
    exact reflects_replay _
  refine ⟨reflects, fun n => Present.enteredAt, ?_, ?_, ?_, ?_⟩
  · intro n present
    rw [after_append]
    exact insert_eq_self ((reflects.mem_toList n).mpr present)
  · intro n absent
    rw [after_append]
    exact erase_eq_self fun mem => absent ((reflects.mem_toList n).mp mem)
  · intro n absent
    have fresh : n ∉ (after edits).toList := fun mem => absent ((reflects.mem_toList n).mp mem)
    rw [after_append]
    show ((after edits).insert n).toList = _
    rw [toList_insert, if_neg fresh]
  · intro n
    rw [after_append]
    show (((after edits).erase n).insert n).toList = _
    have gone : n ∉ ((after edits).erase n).toList := fun mem => (mem_toList_erase.mp mem).2 rfl
    rw [toList_insert, if_neg gone, toList_erase]

/-- A repeated insertion leaves `b` in front, and a removal sends `a` to the end. -/
example : (after [.extend [⟨"b"⟩, ⟨"a"⟩, ⟨"b"⟩], .insert ⟨"c"⟩, .remove ⟨"a"⟩, .remove ⟨"z"⟩,
    .insert ⟨"a"⟩]).toList = [⟨"b"⟩, ⟨"c"⟩, ⟨"a"⟩] := by
  decide

end NameSet

end Comprehension
