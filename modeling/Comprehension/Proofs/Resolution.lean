/-
Which reads are resolved, by the index of their expression.

Every expression of a comprehension has an index: a source or guard that of its clause,
the final expression the number of clauses. A name is in sight of an expression if it is
captured or bound by a generator clause at a smaller index. So a source does not see its
own pattern, and a guard sees the generator it follows.

* `wellScoped_iff_inSight`: a comprehension is well scoped if every declared read is in
  sight of its expression.
* `checkClauses_eq_error_iff`: otherwise the check names the first read that is not.
* `compile_accepts_or_blames_first`: both for compiling accepted clauses.
-/

import Comprehension.Proofs.ReadBack

namespace Comprehension

variable {m : Type → Type} {ε V : Type}

/-! ### Reads by index -/

/-- The declared reads of every expression: those of the clauses in order, then those of
the final expression. -/
def readsByIndex (final : List Name) (clauses : List (Clause m ε V)) : List (List Name) :=
  clauses.map Clause.reads ++ [final]

/-- The name is bound by a generator clause at an index smaller than the given one, or
was `bound` before all of the clauses. -/
def BoundBefore (bound : List Name) (clauses : List (Clause m ε V)) (index : Nat)
    (n : Name) : Prop :=
  n ∈ bound ∨ ∃ j < index, ∃ pattern source,
    clauses[j]? = some (.generator pattern source) ∧ n ∈ pattern.names

/-- The expression at an index can be given a value for the name. -/
def InSight (environment : Scope V) (bound : List Name) (clauses : List (Clause m ε V))
    (index : Nat) (n : Name) : Prop :=
  n ∈ environment.names ∨ BoundBefore bound clauses index n

/-- `name` is the first read that is not in sight: everything read at smaller indices is,
and so is what the expression at `index` declares ahead of it. -/
structure FirstUnresolved (environment : Scope V) (final bound : List Name)
    (clauses : List (Clause m ε V)) (name : Name) (index : Nat) : Prop where
  earlier : ∀ i < index, ∀ reads ∈ (readsByIndex final clauses)[i]?, ∀ n ∈ reads,
    InSight environment bound clauses i n
  here : ∃ before after, (readsByIndex final clauses)[index]? = some (before ++ name :: after) ∧
    (∀ n ∈ before, InSight environment bound clauses index n) ∧
    ¬ InSight environment bound clauses index name

/-! ### One clause at a time -/

theorem Clause.mem_boundNames_iff {c : Clause m ε V} {n : Name} :
    n ∈ c.boundNames ↔ ∃ pattern source, c = .generator pattern source ∧ n ∈ pattern.names := by
  cases c with
  | generator pattern source =>
    constructor
    · intro binds
      exact ⟨pattern, source, rfl, binds⟩
    · rintro ⟨_, _, same, binds⟩
      cases same
      exact binds
  | guard predicate => simp [Clause.boundNames]

@[simp] theorem boundBefore_zero {bound : List Name} {clauses : List (Clause m ε V)} {n : Name} :
    BoundBefore bound clauses 0 n ↔ n ∈ bound := by
  simp [BoundBefore]

/-- Past a clause, what it binds counts as bound before. -/
@[simp] theorem boundBefore_succ {bound : List Name} {c : Clause m ε V}
    {rest : List (Clause m ε V)} {index : Nat} {n : Name} :
    BoundBefore bound (c :: rest) (index + 1) n ↔
      BoundBefore (bound ++ c.boundNames) rest index n := by
  rw [BoundBefore, BoundBefore, List.mem_append, or_assoc, Clause.mem_boundNames_iff]
  refine or_congr_right ?_
  constructor
  · rintro ⟨j, lt, pattern, source, found, binds⟩
    cases j with
    | zero => exact .inl ⟨pattern, source, Option.some.inj found, binds⟩
    | succ j => exact .inr ⟨j, Nat.lt_of_succ_lt_succ lt, pattern, source, found, binds⟩
  · rintro (⟨pattern, source, rfl, binds⟩ | ⟨j, lt, pattern, source, found, binds⟩)
    · exact ⟨0, Nat.succ_pos index, pattern, source, rfl, binds⟩
    · exact ⟨j + 1, Nat.succ_lt_succ lt, pattern, source, found, binds⟩

@[simp] theorem inSight_zero {environment : Scope V} {bound : List Name}
    {clauses : List (Clause m ε V)} {n : Name} :
    InSight environment bound clauses 0 n ↔ n ∈ bound ∨ n ∈ environment.names := by
  rw [InSight, boundBefore_zero, or_comm]

@[simp] theorem inSight_succ {environment : Scope V} {bound : List Name} {c : Clause m ε V}
    {rest : List (Clause m ε V)} {index : Nat} {n : Name} :
    InSight environment bound (c :: rest) (index + 1) n ↔
      InSight environment (bound ++ c.boundNames) rest index n := by
  rw [InSight, boundBefore_succ, InSight]

namespace Sequence

/-- **Well scoped means every read in sight**, each at the index of its expression. -/
theorem wellScoped_iff_inSight {environment : Scope V} {final bound : List Name}
    {clauses : List (Clause m ε V)} :
    WellScoped environment final bound clauses ↔
      ∀ index, ∀ reads ∈ (readsByIndex final clauses)[index]?, ∀ n ∈ reads,
        InSight environment bound clauses index n := by
  induction clauses generalizing bound with
  | nil =>
    rw [wellScoped_nil_iff]
    constructor
    · rintro resolvable (_ | index) reads found n hn
      · cases found
        exact inSight_zero.mpr (resolvable n hn)
      · cases found
    · intro all n hn
      exact inSight_zero.mp (all 0 final rfl n hn)
  | cons c rest ih =>
    rw [wellScoped_cons_iff, ih]
    constructor
    · rintro ⟨head, tail⟩ (_ | index) reads found n hn
      · cases found
        exact inSight_zero.mpr (head n hn)
      · exact inSight_succ.mpr (tail index reads found n hn)
    · intro all
      refine ⟨fun n hn => inSight_zero.mp (all 0 c.reads rfl n hn), ?_⟩
      intro index reads found n hn
      exact inSight_succ.mp (all (index + 1) reads found n hn)

/-! ### The first fault -/

theorem unresolved?_eq_some_iff {environment : Scope V} {bound reads : List Name} {n : Name} :
    unresolved? environment bound reads = some n ↔
      ∃ before after, reads = before ++ n :: after ∧ Resolvable environment bound before ∧
        ¬ (n ∈ bound ∨ n ∈ environment.names) := by
  have visible : ∀ k, (bound.contains k || environment.contains k) = true ↔
      k ∈ bound ∨ k ∈ environment.names := by
    intro k
    rw [← Scope.contains_iff, Bool.or_eq_true, List.contains_iff_mem]
  rw [unresolved?, List.find?_eq_some_iff_append, Bool.not_eq_true', ← Bool.not_eq_true, visible]
  simp only [Bool.not_not, visible, Resolvable]
  constructor
  · rintro ⟨missing, before, after, split, seen⟩
    exact ⟨before, after, split, seen, missing⟩
  · rintro ⟨before, after, split, seen, missing⟩
    exact ⟨missing, before, after, split, seen⟩

theorem checkReads_eq_error_iff {environment : Scope V} {bound reads : List Name} {index : Nat}
    {fault : Fault} :
    checkReads environment bound index reads = .error fault ↔
      ∃ n, unresolved? environment bound reads = some n ∧
        fault = .malformed (.unboundName n index) := by
  rw [checkReads]
  cases unresolved? environment bound reads with
  | none => simp
  | some n => simp [eq_comm]

/-- At the first clause the first unresolved read is the one that the check of its reads
finds. -/
theorem firstUnresolved_zero_iff {environment : Scope V} {final bound : List Name}
    {clauses : List (Clause m ε V)} {reads : List Name}
    (first : (readsByIndex final clauses)[0]? = some reads) {n : Name} :
    FirstUnresolved environment final bound clauses n 0 ↔
      unresolved? environment bound reads = some n := by
  rw [unresolved?_eq_some_iff]
  constructor
  · rintro ⟨-, before, after, found, seen, missing⟩
    rw [first] at found
    refine ⟨before, after, Option.some.inj found, fun k hk => inSight_zero.mp (seen k hk), ?_⟩
    exact fun visible => missing (inSight_zero.mpr visible)
  · rintro ⟨before, after, rfl, seen, missing⟩
    refine ⟨fun i lt => absurd lt (Nat.not_lt_zero i), before, after, first, ?_, ?_⟩
    · exact fun k hk => inSight_zero.mpr (seen k hk)
    · exact fun visible => missing (inSight_zero.mp visible)

/-- Further on it is the first one of the clauses that follow, and the first clause has
none. -/
theorem firstUnresolved_succ_iff {environment : Scope V} {final bound : List Name}
    {c : Clause m ε V} {rest : List (Clause m ε V)} {n : Name} {index : Nat} :
    FirstUnresolved environment final bound (c :: rest) n (index + 1) ↔
      Resolvable environment bound c.reads ∧
        FirstUnresolved environment final (bound ++ c.boundNames) rest n index := by
  constructor
  · rintro ⟨earlier, before, after, found, seen, missing⟩
    refine ⟨fun k hk => inSight_zero.mp (earlier 0 (Nat.succ_pos index) c.reads rfl k hk), ?_, ?_⟩
    · intro i lt reads listed k hk
      exact inSight_succ.mp (earlier (i + 1) (Nat.succ_lt_succ lt) reads listed k hk)
    · refine ⟨before, after, found, fun k hk => inSight_succ.mp (seen k hk), ?_⟩
      exact fun visible => missing (inSight_succ.mpr visible)
  · rintro ⟨head, earlier, before, after, found, seen, missing⟩
    refine ⟨?_, before, after, found, fun k hk => inSight_succ.mpr (seen k hk), ?_⟩
    · rintro (_ | i) lt reads listed k hk
      · cases listed
        exact inSight_zero.mpr (head k hk)
      · exact inSight_succ.mpr (earlier i (Nat.lt_of_succ_lt_succ lt) reads listed k hk)
    · exact fun visible => missing (inSight_succ.mp visible)

/-- A check that goes on with another fails with the fault of the first of the two that
fails. -/
theorem bind_eq_error_iff {first : Except Fault Unit} {second : Except Fault Unit}
    {fault : Fault} :
    (do first; second : Except Fault Unit) = .error fault ↔
      first = .error fault ∨ first = .ok () ∧ second = .error fault := by
  cases first with
  | error other => simp [Bind.bind, Except.bind]
  | ok u => simp [Bind.bind, Except.bind]

/-- **The check fails with the first unresolved read**, at the index of its expression. -/
theorem checkClauses_eq_error_iff {environment : Scope V} {final bound : List Name} {index : Nat}
    {clauses : List (Clause m ε V)} {fault : Fault} :
    checkClauses environment final bound index clauses = .error fault ↔
      ∃ name i, fault = .malformed (.unboundName name (index + i)) ∧
        FirstUnresolved environment final bound clauses name i := by
  induction clauses generalizing bound index with
  | nil =>
    rw [checkClauses, checkReads_eq_error_iff]
    constructor
    · rintro ⟨n, unresolved, rfl⟩
      exact ⟨n, 0, rfl, (firstUnresolved_zero_iff rfl).mpr unresolved⟩
    · rintro ⟨n, _ | i, rfl, first⟩
      · exact ⟨n, (firstUnresolved_zero_iff rfl).mp first, rfl⟩
      · -- there is no expression after the final one
        obtain ⟨-, before, after, found, -⟩ := first
        cases found
  | cons c rest ih =>
    rw [checkClauses, bind_eq_error_iff, checkReads_eq_error_iff, checkReads_eq_ok_iff, ih]
    constructor
    · rintro (⟨n, unresolved, rfl⟩ | ⟨head, n, i, rfl, first⟩)
      · exact ⟨n, 0, rfl, (firstUnresolved_zero_iff rfl).mpr unresolved⟩
      · refine ⟨n, i + 1, ?_, firstUnresolved_succ_iff.mpr ⟨head, first⟩⟩
        rw [Nat.add_right_comm, Nat.add_assoc]
    · rintro ⟨n, _ | i, rfl, first⟩
      · exact .inl ⟨n, (firstUnresolved_zero_iff rfl).mp first, rfl⟩
      · obtain ⟨head, first⟩ := firstUnresolved_succ_iff.mp first
        refine .inr ⟨head, n, i, ?_, first⟩
        rw [Nat.add_right_comm, Nat.add_assoc]

end Sequence

/-! ### Compiling -/

/-- Compiling fails exactly as the check of the clauses does. -/
theorem compile_eq_error_iff {s : Sequence m ε V} {final : Expression m ε V V} {fault : Fault} :
    s.compile final = .error fault ↔
      Sequence.checkClauses s.environment final.reads [] 0 s.clauses = .error fault := by
  rw [Sequence.compile]
  cases Sequence.checkClauses s.environment final.reads [] 0 s.clauses with
  | error other => simp [Bind.bind, Except.bind]
  | ok u => simp [Bind.bind, Except.bind, Pure.pure, Except.pure]

/-- **Compiling accepts exactly the well-scoped comprehensions and names the first
fault.** It succeeds if and only if every declared read is captured or bound by a
generator clause at a smaller index. Otherwise the fault is an unbound name: the first
one, in declared order, of the expression with the least index that reads one. There is
no other way to fail. -/
theorem compile_accepts_or_blames_first {clauses : List (Clause m ε V)} {environment : Scope V}
    {s : Sequence m ε V} (accepted : Sequence.ofClauses clauses environment = .ok s)
    (final : Expression m ε V V) :
    ((∃ chain, s.compile final = .ok chain) ↔
      ∀ index, ∀ reads ∈ (readsByIndex final.reads clauses)[index]?, ∀ n ∈ reads,
        InSight environment [] clauses index n) ∧
    ∀ fault, s.compile final = .error fault ↔
      ∃ name index, fault = .malformed (.unboundName name index) ∧
        FirstUnresolved environment final.reads [] clauses name index := by
  obtain ⟨rfl, rfl⟩ := of_ofClauses accepted
  constructor
  · rw [← Sequence.wellScoped_iff_inSight]
    constructor
    · rintro ⟨chain, compiled⟩
      exact wellScoped_of_compile compiled
    · intro wellScoped
      exact ⟨_, compile_eq_ok_iff.mpr ⟨wellScoped, rfl⟩⟩
  · intro fault
    rw [compile_eq_error_iff, Sequence.checkClauses_eq_error_iff]
    simp only [Nat.zero_add]

namespace Sample

/-- The generator of `(y, k) <- [x, y, z]`, which reads a name of its own pattern and one
that nothing binds. -/
def circular : Generator Id Fault Item where
  pattern := .tuple [.name ⟨"y"⟩, .name ⟨"k"⟩]
  source := .onReads [⟨"x"⟩, ⟨"y"⟩, ⟨"z"⟩] .row
  guards := []

/-- The sequence of `x <- xs, x ≤ k, (y, k) <- [x, y, z]`. -/
def misscoped : Sequence Id Fault Item where
  first := outer
  rest := [circular]
  environment := .ofList [(⟨"k"⟩, .number 2), (⟨"xs"⟩, .row [.number 1])]
  distinct := by decide

end Sample

/-- In the first sample every read is in sight, as it compiles. In the other one the
second source, at index 2, is blamed for reading `y`, which its own pattern binds. -/
theorem sample_accepts_or_blames_first :
    Sequence.ofClauses Sample.sequence.clauses Sample.sequence.environment =
        .ok Sample.sequence ∧
      (∀ index, ∀ reads ∈ (readsByIndex Sample.final.reads Sample.sequence.clauses)[index]?,
        ∀ n ∈ reads, InSight Sample.sequence.environment [] Sample.sequence.clauses index n) ∧
      Sequence.ofClauses Sample.misscoped.clauses Sample.misscoped.environment =
        .ok Sample.misscoped ∧
      Sample.misscoped.compile Sample.final = .error (.malformed (.unboundName ⟨"y"⟩ 2)) ∧
      FirstUnresolved Sample.misscoped.environment Sample.final.reads []
        Sample.misscoped.clauses ⟨"y"⟩ 2 := by
  have accepted : Sequence.ofClauses Sample.sequence.clauses Sample.sequence.environment =
    .ok Sample.sequence := rfl
  have accepted' : Sequence.ofClauses Sample.misscoped.clauses Sample.misscoped.environment =
    .ok Sample.misscoped := rfl
  have resolved := (compile_accepts_or_blames_first accepted Sample.final).1.mp ⟨_, rfl⟩
  have blame := (compile_accepts_or_blames_first accepted' Sample.final).2
    (.malformed (.unboundName ⟨"y"⟩ 2))
  obtain ⟨name, index, same, first⟩ := blame.mp rfl
  cases same
  exact ⟨accepted, resolved, accepted', rfl, first⟩

end Comprehension
