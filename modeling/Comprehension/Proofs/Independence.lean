/-
Captured values that nothing depends on.

The environment is consulted for the names that are read lexically: at an index where no
generator clause has bound them yet. Compiling asks it three things, whether a read is
captured, which values a stage is to hold and what the entry scope is, and all three are
about such names only. Two environments that agree on them cannot be told apart, not even
by closures that look up names they have not declared.

* `readLexically_of_mem_needed`: what a stage needs and no generator further out binds is
  read lexically.
* `stage_congr`, `checkClauses_congr`: stages and faults depend on those names only.
* `compile_ignores_unread_captures`: the same for compiling and running, and what it says
  about values that are unused or shadowed and about the order of captures.
-/

import Mathlib.Data.List.Find
import Mathlib.Data.List.Nodup
import Comprehension.Proofs.Evaluation
import Comprehension.Proofs.Resolution

namespace Comprehension

variable {m : Type → Type} {ε V : Type}

namespace Scope

/-- Restricting two scopes to names on which they agree gives the same scope. -/
theorem project_congr {s t : Scope V} {names : List Name}
    (same : ∀ n ∈ names, s.get? n = t.get? n) : s.project names = t.project names := by
  rw [project, project]
  congr 1
  refine List.filterMap_congr fun n hn => ?_
  rw [same n hn]

/-- Where no name has two pairs, the order of the pairs does not matter. -/
theorem find?_perm {ps qs : List (Name × V)} (perm : ps.Perm qs)
    (nodup : (ps.map Prod.fst).Nodup) (n : Name) : find? n ps = find? n qs := by
  induction perm with
  | nil => rfl
  | cons p _ ih =>
    obtain ⟨-, nodup⟩ := List.nodup_cons.mp nodup
    rw [find?, find?, ih nodup]
  | swap p q rest =>
    have differ : p.1 ≠ q.1 := by
      intro same
      exact (List.nodup_cons.mp nodup).1 (by simp [same])
    by_cases hp : p.1 = n
    · have hq : q.1 ≠ n := fun same => differ (hp.trans same.symm)
      simp [find?, hp, hq]
    · simp [find?, hp]
  | trans first _ ih ih' =>
    rw [ih nodup, ih' ((first.map Prod.fst).nodup_iff.mp nodup)]

theorem get?_insertAll_perm (s : Scope V) {ps qs : List (Name × V)} (perm : ps.Perm qs)
    (nodup : (ps.map Prod.fst).Nodup) (n : Name) :
    (s.insertAll ps).get? n = (s.insertAll qs).get? n := by
  have reversed : ps.reverse.Perm qs.reverse :=
    (List.reverse_perm ps).trans (perm.trans (List.reverse_perm qs).symm)
  have nodup' : (ps.reverse.map Prod.fst).Nodup := by
    rw [List.map_reverse]
    exact List.nodup_reverse.mpr nodup
  rw [get?_insertAll, get?_insertAll, find?_perm reversed nodup']

end Scope

/-! ### Lexical reads -/

/-- Some expression reads the name at an index where no generator clause has bound it. -/
def ReadLexically (final bound : List Name) (clauses : List (Clause m ε V)) (n : Name) : Prop :=
  ∃ index, ∃ reads ∈ (readsByIndex final clauses)[index]?,
    n ∈ reads ∧ ¬ BoundBefore bound clauses index n

theorem readLexically_nil_iff {final bound : List Name} {n : Name} :
    ReadLexically final bound ([] : List (Clause m ε V)) n ↔ n ∈ final ∧ n ∉ bound := by
  constructor
  · rintro ⟨_ | index, reads, found, read, unbound⟩
    · cases found
      exact ⟨read, fun mem => unbound (boundBefore_zero.mpr mem)⟩
    · cases found
  · rintro ⟨read, unbound⟩
    exact ⟨0, final, rfl, read, fun mem => unbound (boundBefore_zero.mp mem)⟩

theorem readLexically_cons_iff {final bound : List Name} {c : Clause m ε V}
    {rest : List (Clause m ε V)} {n : Name} :
    ReadLexically final bound (c :: rest) n ↔
      (n ∈ c.reads ∧ n ∉ bound) ∨ ReadLexically final (bound ++ c.boundNames) rest n := by
  constructor
  · rintro ⟨_ | index, reads, found, read, unbound⟩
    · cases found
      exact .inl ⟨read, fun mem => unbound (boundBefore_zero.mpr mem)⟩
    · exact .inr ⟨index, reads, found, read, fun mem => unbound (boundBefore_succ.mpr mem)⟩
  · rintro (⟨read, unbound⟩ | ⟨index, reads, found, read, unbound⟩)
    · exact ⟨0, c.reads, rfl, read, fun mem => unbound (boundBefore_zero.mp mem)⟩
    · exact ⟨index + 1, reads, found, read, fun mem => unbound (boundBefore_succ.mp mem)⟩

theorem readLexically_guards_iff {final bound : List Name}
    {guards : List (Expression m ε V Bool)} {rest : List (Clause m ε V)} {n : Name} :
    ReadLexically final bound (guards.map .guard ++ rest) n ↔
      (n ∈ guards.flatMap (fun p => p.reads) ∧ n ∉ bound) ∨ ReadLexically final bound rest n := by
  induction guards with
  | nil => simp
  | cons p guards ih =>
    rw [List.map_cons, List.cons_append, readLexically_cons_iff, Clause.boundNames,
      List.append_nil, ih, ← or_assoc, ← or_and_right, List.flatMap_cons, List.mem_append]
    rfl

/-- A generator reads by its source, by its guards, and then by what follows. -/
theorem readLexically_generator_iff {final bound : List Name} {g : Generator m ε V}
    {rest : List (Generator m ε V)} {n : Name} :
    ReadLexically final bound ((g :: rest).flatMap Generator.clauses) n ↔
      (n ∈ g.source.reads ∧ n ∉ bound) ∨
        (n ∈ g.guardReads ∧ n ∉ bound ++ g.pattern.names) ∨
          ReadLexically final (bound ++ g.pattern.names) (rest.flatMap Generator.clauses) n := by
  rw [List.flatMap_cons, Generator.clauses, List.cons_append, readLexically_cons_iff,
    readLexically_guards_iff]
  rfl

namespace Sequence

/-- **What a stage needs from outside is bound further out or read lexically.** -/
theorem readLexically_of_mem_needed {final bound : List Name} {g : Generator m ε V}
    {rest : List (Generator m ε V)} {n : Name} (needs : n ∈ (needed final g rest).toList)
    (unbound : n ∉ bound) :
    ReadLexically final bound ((g :: rest).flatMap Generator.clauses) n := by
  induction rest generalizing bound g with
  | nil =>
    obtain ⟨read, other⟩ := mem_needed_nil.mp needs
    have unbound' : n ∉ bound ++ g.pattern.names := by simp [unbound, other]
    refine readLexically_generator_iff.mpr (.inr ?_)
    rcases read with byFinal | byGuard
    · exact .inr (readLexically_nil_iff.mpr ⟨byFinal, unbound'⟩)
    · exact .inl ⟨byGuard, unbound'⟩
  | cons next rest ih =>
    obtain ⟨read, other⟩ := mem_needed_cons.mp needs
    have unbound' : n ∉ bound ++ g.pattern.names := by simp [unbound, other]
    refine readLexically_generator_iff.mpr (.inr ?_)
    rcases read with deeper | bySource | byGuard
    · exact .inr (ih deeper unbound')
    · exact .inr (readLexically_generator_iff.mpr (.inl ⟨bySource, unbound'⟩))
    · exact .inl ⟨byGuard, unbound'⟩

/-! ### The three uses of the environment -/

section Congruence

variable {environment environment' : Scope V}

theorem checkReads_congr {bound reads : List Name}
    (agree : ∀ n ∈ reads, n ∉ bound → environment.get? n = environment'.get? n) (index : Nat) :
    checkReads environment bound index reads = checkReads environment' bound index reads := by
  have same : unresolved? environment bound reads = unresolved? environment' bound reads := by
    refine List.find?_congr fun n hn => ?_
    by_cases mem : n ∈ bound
    · simp [mem]
    · rw [Scope.contains, Scope.contains, agree n hn mem]
  rw [checkReads, checkReads, same]

/-- The check gives the same answer over environments that agree on lexical reads. -/
theorem checkClauses_congr {final bound : List Name} {clauses : List (Clause m ε V)}
    (agree : ∀ n, ReadLexically final bound clauses n →
      environment.get? n = environment'.get? n) (index : Nat) :
    checkClauses environment final bound index clauses =
      checkClauses environment' final bound index clauses := by
  induction clauses generalizing bound index with
  | nil =>
    refine checkReads_congr (fun n hn unbound => ?_) index
    exact agree n (readLexically_nil_iff.mpr ⟨hn, unbound⟩)
  | cons c rest ih =>
    have head := checkReads_congr (fun n hn unbound =>
      agree n (readLexically_cons_iff.mpr (.inl ⟨hn, unbound⟩))) index
    have tail := ih (fun n read => agree n (readLexically_cons_iff.mpr (.inr read))) (index + 1)
    rw [checkClauses, checkClauses, head, tail]

/-- The values that a stage holds are those of lexical reads. -/
theorem stageOf_congr {final bound : List Name} {g : Generator m ε V}
    {rest : List (Generator m ε V)}
    (agree : ∀ n, ReadLexically final bound ((g :: rest).flatMap Generator.clauses) n →
      environment.get? n = environment'.get? n) (depth : Nat) (last : Node m ε V) :
    stageOf environment depth bound g (needed final g rest) last =
      stageOf environment' depth bound g (needed final g rest) last := by
  have held : environment.project
      ((needed final g rest).toList.filter fun n => !bound.contains n) =
        environment'.project ((needed final g rest).toList.filter fun n => !bound.contains n) := by
    refine Scope.project_congr fun n hn => ?_
    obtain ⟨needs, unbound⟩ := List.mem_filter.mp hn
    exact agree n (readLexically_of_mem_needed needs (by simpa using unbound))
  rw [stageOf, stageOf, held]

/-- **A stage depends on the lexical reads from it on only.** -/
theorem stage_congr {final : Expression m ε V V} {bound : List Name} {g : Generator m ε V}
    {rest : List (Generator m ε V)}
    (agree : ∀ n, ReadLexically final.reads bound ((g :: rest).flatMap Generator.clauses) n →
      environment.get? n = environment'.get? n) (depth : Nat) :
    stage environment final depth bound g rest = stage environment' final depth bound g rest := by
  induction rest generalizing depth bound g with
  | nil => rw [stage_nil, stage_nil, stageOf_congr agree]
  | cons next rest ih =>
    have inner := ih (fun n read =>
      agree n (readLexically_generator_iff.mpr (.inr (.inr read)))) (depth + 1)
    rw [stage_cons, stage_cons, inner, stageOf_congr agree]

end Congruence

/-! ### Compiling and running -/

/-- The same clauses over another environment. -/
def capturing (s : Sequence m ε V) (environment : Scope V) : Sequence m ε V :=
  { s with environment }

/-- Whether clauses are accepted does not depend on the environment. -/
theorem ofClauses_capturing {clauses : List (Clause m ε V)} {environment : Scope V}
    {s : Sequence m ε V} (accepted : ofClauses clauses environment = .ok s)
    (environment' : Scope V) :
    ofClauses clauses environment' = .ok (s.capturing environment') := by
  unfold ofClauses at accepted ⊢
  split at accepted
  · cases accepted
  · cases accepted
  · split at accepted
    · cases accepted
    · cases accepted
      rfl

theorem compile_capturing_congr (s : Sequence m ε V) {final : Expression m ε V V}
    {environment environment' : Scope V}
    (agree : ∀ n, ReadLexically final.reads [] s.clauses n →
      environment.get? n = environment'.get? n) :
    (s.capturing environment).compile final = (s.capturing environment').compile final := by
  have checked := checkClauses_congr agree 0
  have root : stage environment final 0 [] s.first s.rest =
    stage environment' final 0 [] s.first s.rest := stage_congr agree 0
  have entry : environment.project s.first.source.reads =
      environment'.project s.first.source.reads := by
    refine Scope.project_congr fun n hn => agree n ?_
    exact readLexically_generator_iff.mpr (.inl ⟨hn, List.not_mem_nil⟩)
  show (do checkClauses environment final.reads [] 0 s.clauses
           pure (Chain.mk (stage environment final 0 [] s.first s.rest)
             (environment.project s.first.source.reads)) : Except Fault (Chain m ε V)) = _
  rw [checked, root, entry]
  rfl

section Running

variable [Monad m] [OfFault ε] [Splittable V] [Capable m ε V] [Journal m]

/-- Over the two environments the sequence compiles alike, to equal chains or with the
same fault, and runs alike under every handler. -/
structure SameOver (s : Sequence m ε V) (final : Expression m ε V V)
    (environment environment' : Scope V) : Prop where
  compile : (s.capturing environment).compile final = (s.capturing environment').compile final
  evaluate : ∀ handler : Handler m ε V,
    (s.capturing environment).evaluate handler final =
      (s.capturing environment').evaluate handler final

theorem sameOver_of_agree (s : Sequence m ε V) {final : Expression m ε V V}
    {environment environment' : Scope V}
    (agree : ∀ n, ReadLexically final.reads [] s.clauses n →
      environment.get? n = environment'.get? n) :
    s.SameOver final environment environment' := by
  have compiled := s.compile_capturing_congr agree
  refine ⟨compiled, fun handler => ?_⟩
  rw [Sequence.evaluate, Sequence.evaluate, compileReporting, compileReporting, compiled]

end Running

end Sequence

/-- **Captured values that are not read lexically cannot influence anything.** Accepted
clauses are accepted over every environment. Over two environments that give the same
answer for every name that is read lexically, they compile to equal chains or fail alike,
and all their runs are equal, whatever the closures look up. So capturing a value changes
nothing if its name is not read lexically, be it unused or read only where a generator
has shadowed it, and the order in which values are captured makes no difference. -/
theorem compile_ignores_unread_captures [Monad m] [OfFault ε] [Splittable V] [Capable m ε V]
    [Journal m] {clauses : List (Clause m ε V)} {environment : Scope V} {s : Sequence m ε V}
    (accepted : Sequence.ofClauses clauses environment = .ok s) (final : Expression m ε V V) :
    (∀ environment', Sequence.ofClauses clauses environment' = .ok (s.capturing environment')) ∧
    (∀ environment', (∀ n, ReadLexically final.reads [] clauses n →
        environment.get? n = environment'.get? n) → s.SameOver final environment environment') ∧
    (∀ n v, ¬ ReadLexically final.reads [] clauses n →
        s.SameOver final environment (environment.insert n v)) ∧
    ∀ captures captures' : List (Name × V), captures.Perm captures' →
      (captures.map Prod.fst).Nodup →
        s.SameOver final (environment.insertAll captures) (environment.insertAll captures') := by
  have same := (of_ofClauses accepted).1
  subst same
  refine ⟨Sequence.ofClauses_capturing accepted, fun _ => s.sameOver_of_agree, ?_, ?_⟩
  · intro n v unread
    refine s.sameOver_of_agree fun k read => ?_
    have differ : k ≠ n := fun same => unread (same ▸ read)
    rw [Scope.get?_insert, if_neg differ]
  · intro captures captures' perm nodup
    exact s.sameOver_of_agree fun k _ => environment.get?_insertAll_perm perm nodup k

/-- Neither a value for `x`, which is read only where the first generator has bound it, nor
the order of two captures makes a difference to the sample. -/
theorem sample_ignores_unread_captures :
    Sequence.ofClauses Sample.sequence.clauses Sample.sequence.environment =
        .ok Sample.sequence ∧
      ¬ ReadLexically Sample.final.reads [] Sample.sequence.clauses ⟨"x"⟩ ∧
      Sample.sequence.SameOver Sample.final Sample.sequence.environment
        (Sample.sequence.environment.insert ⟨"x"⟩ (.number 7)) ∧
      Sample.sequence.SameOver Sample.final
        (Sample.sequence.environment.insertAll [(⟨"k"⟩, .number 3), (⟨"limit"⟩, .number 4)])
        (Sample.sequence.environment.insertAll [(⟨"limit"⟩, .number 4), (⟨"k"⟩, .number 3)]) := by
  have accepted : Sequence.ofClauses Sample.sequence.clauses Sample.sequence.environment =
    .ok Sample.sequence := rfl
  have unread : ¬ ReadLexically Sample.final.reads [] Sample.sequence.clauses ⟨"x"⟩ := by
    rw [Sequence.clauses, Sequence.generators, readLexically_generator_iff]
    simp only [Sample.sequence, readLexically_generator_iff, List.flatMap_nil,
      readLexically_nil_iff]
    decide
  obtain ⟨-, -, insert, order⟩ := compile_ignores_unread_captures accepted Sample.final
  exact ⟨accepted, unread, insert _ _ unread, order _ _ (.swap ..) (by decide)⟩

end Comprehension
