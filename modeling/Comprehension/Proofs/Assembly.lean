/-
What compiling accepts, and which stage stands where.

A position in a sequence is a split `generators = before ++ g :: rest`. The stage of
`g` is assembled from the three parts alone, and it is found at the depth
`before.length` of the chain. What the stage takes along is decided by `needed`, the
set of names that the expressions from the stage on still need from outside.

* `compile_eq_ok_iff`: compiling succeeds exactly on well-scoped sequences, and then
  gives the assembled stages and the entry scope.
* `getElem?_stages_stage`: the stage at each depth.
* `mem_needed_nil`, `mem_needed_cons`, `WellScoped.resolvable_needed`: what is needed,
  and that all of it is bound further out or captured.
-/

import Comprehension.Chain.Assembly
import Comprehension.Proofs.ScopeLaws

namespace Comprehension

variable {m : Type → Type} {ε V : Type}

/-- An element at an index splits its list there. -/
theorem exists_split_of_getElem? {α : Type} {l : List α} {i : Nat} {a : α}
    (found : l[i]? = some a) : ∃ before rest, l = before ++ a :: rest ∧ before.length = i := by
  obtain ⟨bound, rfl⟩ := List.getElem?_eq_some_iff.mp found
  refine ⟨l.take i, l.drop (i + 1), ?_, List.length_take_of_le (Nat.le_of_lt bound)⟩
  rw [List.getElem_cons_drop, List.take_append_drop]

/-- The names bound by a row of generators, in order. -/
def boundBy (generators : List (Generator m ε V)) : List Name :=
  generators.flatMap fun g => g.pattern.names

@[simp] theorem boundBy_nil : boundBy ([] : List (Generator m ε V)) = [] := rfl

@[simp] theorem boundBy_cons (g : Generator m ε V) (rest : List (Generator m ε V)) :
    boundBy (g :: rest) = g.pattern.names ++ boundBy rest := rfl

@[simp] theorem boundBy_append (gs hs : List (Generator m ε V)) :
    boundBy (gs ++ hs) = boundBy gs ++ boundBy hs := List.flatMap_append

/-- The names that the guards of a generator read, in order. -/
def Generator.guardReads (g : Generator m ε V) : List Name := g.guards.flatMap fun p => p.reads

theorem Generator.mem_guardReads {g : Generator m ε V} {n : Name} :
    n ∈ g.guardReads ↔ ∃ p ∈ g.guards, n ∈ p.reads := List.mem_flatMap

namespace Sequence

theorem nodup_boundBy (s : Sequence m ε V) : (boundBy s.generators).Nodup := s.distinct

/-! ### Resolving reads -/

/-- Every name of a list is among `bound` or captured. -/
def Resolvable (environment : Scope V) (bound reads : List Name) : Prop :=
  ∀ n ∈ reads, n ∈ bound ∨ n ∈ environment.names

/-- Every declared read is captured or bound by a clause that comes before; the final
expression comes after all clauses. -/
structure WellScoped (environment : Scope V) (final : List Name)
    (bound : List Name) (clauses : List (Clause m ε V)) : Prop where
  clause : ∀ before c after, clauses = before ++ c :: after →
    Resolvable environment (bound ++ before.flatMap Clause.boundNames) c.reads
  final : Resolvable environment (bound ++ clauses.flatMap Clause.boundNames) final

theorem wellScoped_nil_iff {environment : Scope V} {final bound : List Name} :
    WellScoped environment final bound ([] : List (Clause m ε V)) ↔
      Resolvable environment bound final := by
  constructor
  · intro h
    simpa using h.final
  · intro resolvable
    refine ⟨fun before c after split => ?_, by simpa using resolvable⟩
    exact absurd split (by simp)

theorem wellScoped_cons_iff {environment : Scope V} {final bound : List Name}
    {c : Clause m ε V} {rest : List (Clause m ε V)} :
    WellScoped environment final bound (c :: rest) ↔
      Resolvable environment bound c.reads ∧
        WellScoped environment final (bound ++ c.boundNames) rest := by
  constructor
  · intro h
    refine ⟨by simpa using h.clause [] c rest rfl, ?_, ?_⟩
    · intro before d after split
      have later := h.clause (c :: before) d after (by rw [split]; rfl)
      rwa [List.flatMap_cons, ← List.append_assoc] at later
    · have last := h.final
      rwa [List.flatMap_cons, ← List.append_assoc] at last
  · rintro ⟨head, tail⟩
    refine ⟨?_, ?_⟩
    · intro before d after split
      cases before with
      | nil =>
        cases split
        simpa using head
      | cons b before =>
        cases split
        rw [List.flatMap_cons, ← List.append_assoc]
        exact tail.clause before d after rfl
    · rw [List.flatMap_cons, ← List.append_assoc]
      exact tail.final

theorem unresolved?_eq_none_iff {environment : Scope V} {bound reads : List Name} :
    unresolved? environment bound reads = none ↔ Resolvable environment bound reads := by
  rw [unresolved?, List.find?_eq_none]
  constructor
  · intro none n hn
    have := none n hn
    by_cases h : n ∈ bound
    · exact .inl h
    · exact .inr (Scope.contains_iff.mp (by simpa [h] using this))
  · intro resolvable n hn
    rcases resolvable n hn with bound | captured
    · simp [bound]
    · simp [Scope.contains_iff.mpr captured]

theorem checkReads_eq_ok_iff {environment : Scope V} {bound reads : List Name} (index : Nat) :
    checkReads environment bound index reads = .ok () ↔ Resolvable environment bound reads := by
  rw [← unresolved?_eq_none_iff, checkReads]
  cases unresolved? environment bound reads with
  | none => simp
  | some n => simp

/-- The check passes exactly the well-scoped clauses. -/
theorem checkClauses_eq_ok_iff {environment : Scope V} {final bound : List Name} (index : Nat)
    {clauses : List (Clause m ε V)} :
    checkClauses environment final bound index clauses = .ok () ↔
      WellScoped environment final bound clauses := by
  induction clauses generalizing bound index with
  | nil => rw [checkClauses, checkReads_eq_ok_iff, wellScoped_nil_iff]
  | cons c rest ih =>
    rw [wellScoped_cons_iff, ← ih (index + 1), ← checkReads_eq_ok_iff index, checkClauses]
    cases checkReads environment bound index c.reads with
    | error fault => simp [Bind.bind, Except.bind]
    | ok u => simp [Bind.bind, Except.bind]

/-- Guards bind nothing, so they all see the same names. -/
theorem wellScoped_guards_iff {environment : Scope V} {final bound : List Name}
    {guards : List (Expression m ε V Bool)} {rest : List (Clause m ε V)} :
    WellScoped environment final bound (guards.map .guard ++ rest) ↔
      Resolvable environment bound (guards.flatMap fun p => p.reads) ∧
        WellScoped environment final bound rest := by
  induction guards with
  | nil => simp [Resolvable]
  | cons p guards ih =>
    rw [List.map_cons, List.cons_append, wellScoped_cons_iff, Clause.boundNames, List.append_nil,
      ih, ← and_assoc]
    simp only [Resolvable, List.flatMap_cons, List.forall_mem_append, Clause.reads]

/-- A generator's source sees what is bound before it, its guards the pattern too. -/
theorem wellScoped_generator_iff {environment : Scope V} {final bound : List Name}
    {g : Generator m ε V} {rest : List (Generator m ε V)} :
    WellScoped environment final bound ((g :: rest).flatMap Generator.clauses) ↔
      Resolvable environment bound g.source.reads ∧
        Resolvable environment (bound ++ g.pattern.names) g.guardReads ∧
          WellScoped environment final (bound ++ g.pattern.names)
            (rest.flatMap Generator.clauses) := by
  rw [List.flatMap_cons, Generator.clauses, List.cons_append, wellScoped_cons_iff,
    wellScoped_guards_iff]
  rfl

/-- What follows a row of generators is well scoped over the names they bind. -/
theorem WellScoped.drop {environment : Scope V} {final bound : List Name}
    {before rest : List (Generator m ε V)}
    (h : WellScoped environment final bound ((before ++ rest).flatMap Generator.clauses)) :
    WellScoped environment final (bound ++ boundBy before) (rest.flatMap Generator.clauses) := by
  induction before generalizing bound with
  | nil => simpa using h
  | cons g before ih =>
    have later := ih (wellScoped_generator_iff.mp h).2.2
    rwa [List.append_assoc] at later

/-! ### What the stages need from outside -/

/-- The names that a generator and those after it need from outside; the source of the
first is not counted, as it is evaluated outside its own stage. -/
def needed (final : List Name) : Generator m ε V → List (Generator m ε V) → NameSet
  | g, [] => needs g (NameSet.ofList final)
  | g, next :: rest => needs g ((needed final next rest).insertAll next.source.reads)

theorem toList_needs (g : Generator m ε V) (body : NameSet) :
    (needs g body).toList =
      (body.toList ++ g.guardReads).eraseDups.filter fun n => !g.pattern.names.contains n := by
  rw [needs, NameSet.toList_eraseAll, NameSet.toList_insertAll, Generator.guardReads]

theorem toList_needed_nil (final : List Name) (g : Generator m ε V) :
    (needed final g []).toList =
      (final ++ g.guardReads).eraseDups.filter fun n => !g.pattern.names.contains n := by
  rw [needed, toList_needs, NameSet.toList_ofList, eraseDups_eraseDups_append]

theorem toList_needed_cons (final : List Name) (g next : Generator m ε V)
    (rest : List (Generator m ε V)) :
    (needed final g (next :: rest)).toList =
      ((needed final next rest).toList ++ next.source.reads ++ g.guardReads).eraseDups.filter
        fun n => !g.pattern.names.contains n := by
  rw [needed, toList_needs, NameSet.toList_insertAll, eraseDups_eraseDups_append]

theorem mem_needed_nil {final : List Name} {g : Generator m ε V} {n : Name} :
    n ∈ (needed final g []).toList ↔
      (n ∈ final ∨ n ∈ g.guardReads) ∧ n ∉ g.pattern.names := by
  rw [toList_needed_nil, List.mem_filter, List.mem_eraseDups, List.mem_append]
  simp

theorem mem_needed_cons {final : List Name} {g next : Generator m ε V}
    {rest : List (Generator m ε V)} {n : Name} :
    n ∈ (needed final g (next :: rest)).toList ↔
      (n ∈ (needed final next rest).toList ∨ n ∈ next.source.reads ∨ n ∈ g.guardReads) ∧
        n ∉ g.pattern.names := by
  rw [toList_needed_cons, List.mem_filter, List.mem_eraseDups, List.mem_append, List.mem_append,
    or_assoc]
  simp

/-- What is read inside a pattern is bound by it or needed from outside. -/
theorem mem_names_or_needed_nil {final : List Name} {g : Generator m ε V} {n : Name}
    (read : n ∈ final ∨ n ∈ g.guardReads) :
    n ∈ g.pattern.names ∨ n ∈ (needed final g []).toList := by
  by_cases own : n ∈ g.pattern.names
  · exact .inl own
  · exact .inr (mem_needed_nil.mpr ⟨read, own⟩)

theorem mem_names_or_needed_cons {final : List Name} {g next : Generator m ε V}
    {rest : List (Generator m ε V)} {n : Name}
    (read : n ∈ (needed final next rest).toList ∨ n ∈ next.source.reads ∨ n ∈ g.guardReads) :
    n ∈ g.pattern.names ∨ n ∈ (needed final g (next :: rest)).toList := by
  by_cases own : n ∈ g.pattern.names
  · exact .inl own
  · exact .inr (mem_needed_cons.mpr ⟨read, own⟩)

theorem mem_names_or_needed_of_guardReads {final : List Name} {g : Generator m ε V}
    {rest : List (Generator m ε V)} {n : Name} (read : n ∈ g.guardReads) :
    n ∈ g.pattern.names ∨ n ∈ (needed final g rest).toList := by
  cases rest with
  | nil => exact mem_names_or_needed_nil (.inr read)
  | cons next rest => exact mem_names_or_needed_cons (.inr (.inr read))

/-- A pattern's own names are never needed from outside. -/
theorem not_mem_needed_of_mem_names {final : List Name} {g : Generator m ε V}
    {rest : List (Generator m ε V)} {n : Name} (own : n ∈ g.pattern.names) :
    n ∉ (needed final g rest).toList := by
  cases rest with
  | nil => exact fun h => (mem_needed_nil.mp h).2 own
  | cons next rest => exact fun h => (mem_needed_cons.mp h).2 own

/-- What is resolved inside a pattern, and not by it, is resolved outside. -/
theorem resolved_outside {environment : Scope V} {bound own : List Name} {n : Name}
    (inside : n ∈ bound ++ own ∨ n ∈ environment.names) (other : n ∉ own) :
    n ∈ bound ∨ n ∈ environment.names := by
  rcases inside with inside | captured
  · rcases List.mem_append.mp inside with outer | mem
    · exact .inl outer
    · exact absurd mem other
  · exact .inr captured

/-- **All that is needed can be had**: in a well-scoped sequence every needed name is
bound further out or captured. -/
theorem WellScoped.resolvable_needed {environment : Scope V} {final bound : List Name}
    {g : Generator m ε V} {rest : List (Generator m ε V)}
    (h : WellScoped environment final bound ((g :: rest).flatMap Generator.clauses)) :
    Resolvable environment bound (needed final g rest).toList := by
  induction rest generalizing bound g with
  | nil =>
    obtain ⟨-, guards, last⟩ := wellScoped_generator_iff.mp h
    intro n hn
    obtain ⟨read, other⟩ := mem_needed_nil.mp hn
    rcases read with byFinal | byGuard
    · exact resolved_outside (wellScoped_nil_iff.mp last n byFinal) other
    · exact resolved_outside (guards n byGuard) other
  | cons next rest ih =>
    obtain ⟨-, guards, inner⟩ := wellScoped_generator_iff.mp h
    intro n hn
    obtain ⟨read, other⟩ := mem_needed_cons.mp hn
    rcases read with deeper | bySource | byGuard
    · exact resolved_outside (ih inner n deeper) other
    · exact resolved_outside ((wellScoped_generator_iff.mp inner).1 n bySource) other
    · exact resolved_outside (guards n byGuard) other

/-! ### Stages by position -/

variable (environment : Scope V) (final : Expression m ε V V)

/-- The stage of the generator `g` at `depth`, with those of `rest` nested inside. -/
def stage (depth : Nat) (before : List Name) (g : Generator m ε V)
    (rest : List (Generator m ε V)) : Stage m ε V :=
  (assemble environment final depth before g rest).1

theorem assemble_snd (depth : Nat) (before : List Name) (g : Generator m ε V)
    (rest : List (Generator m ε V)) :
    (assemble environment final depth before g rest).2 = needed final.reads g rest := by
  induction rest generalizing depth before g with
  | nil => rfl
  | cons next rest ih =>
    show needs g ((assemble environment final (depth + 1) (before ++ g.pattern.names)
      next rest).2.insertAll next.source.reads) = _
    rw [ih, needed]

theorem stage_nil (depth : Nat) (before : List Name) (g : Generator m ε V) :
    stage environment final depth before g [] =
      stageOf environment depth before g (needed final.reads g []) (.map final) := rfl

theorem stage_cons (depth : Nat) (before : List Name) (g next : Generator m ε V)
    (rest : List (Generator m ε V)) :
    stage environment final depth before g (next :: rest) =
      stageOf environment depth before g (needed final.reads g (next :: rest))
        (.flatMap
          (stage environment final (depth + 1) (before ++ g.pattern.names) next rest).toFrame
          (stage environment final (depth + 1) (before ++ g.pattern.names) next rest).node) := by
  have needs := assemble_snd environment final depth before g (next :: rest)
  rw [← needs]
  rfl

/-- All of a stage but its nodes, from its position. -/
theorem toFrame_stage (depth : Nat) (before : List Name) (g : Generator m ε V)
    (rest : List (Generator m ε V)) :
    (stage environment final depth before g rest).toFrame =
      (stageOf environment depth before g (needed final.reads g rest) (.map final)).toFrame := by
  cases rest with
  | nil => rw [stage_nil]
  | cons next rest => rw [stage_cons]; rfl

section Fields

variable (depth : Nat) (before : List Name) (g : Generator m ε V) (rest : List (Generator m ε V))

@[simp] theorem depth_stage : (stage environment final depth before g rest).depth = depth := by
  rw [toFrame_stage]; rfl

@[simp] theorem pattern_stage :
    (stage environment final depth before g rest).pattern = g.pattern := by
  rw [toFrame_stage]; rfl

@[simp] theorem source_stage : (stage environment final depth before g rest).source = g.source := by
  rw [toFrame_stage]; rfl

theorem carried_stage :
    (stage environment final depth before g rest).carried =
      (needed final.reads g rest).toList.filter fun n => before.contains n := by
  rw [toFrame_stage]; rfl

theorem lexical_stage :
    (stage environment final depth before g rest).lexical =
      environment.project
        ((needed final.reads g rest).toList.filter fun n => !before.contains n) := by
  rw [toFrame_stage]; rfl

end Fields

/-- Filters nest no stages of their own. -/
theorem stages_guarded (index : Nat) (guards : List (Expression m ε V Bool)) (node : Node m ε V) :
    (guarded index guards node).stages = node.stages := by
  induction guards generalizing index with
  | nil => rfl
  | cons p guards ih => exact ih (index + 1)

theorem stages_stage_nil (depth : Nat) (before : List Name) (g : Generator m ε V) :
    (stage environment final depth before g []).stages =
      [stage environment final depth before g []] := by
  rw [Stage.stages, stage_nil]
  exact congrArg _ (stages_guarded 0 g.guards (.map final))

theorem stages_stage_cons (depth : Nat) (before : List Name) (g next : Generator m ε V)
    (rest : List (Generator m ε V)) :
    (stage environment final depth before g (next :: rest)).stages =
      stage environment final depth before g (next :: rest) ::
        (stage environment final (depth + 1) (before ++ g.pattern.names) next rest).stages := by
  rw [Stage.stages, stage_cons]
  exact congrArg _ (stages_guarded 0 g.guards _)

theorem length_stages_stage (depth : Nat) (before : List Name) (g : Generator m ε V)
    (rest : List (Generator m ε V)) :
    (stage environment final depth before g rest).stages.length = rest.length + 1 := by
  induction rest generalizing depth before g with
  | nil => rw [stages_stage_nil]; rfl
  | cons next rest ih => rw [stages_stage_cons, List.length_cons, ih, List.length_cons]

/-- **The stage at each depth** is the one of the generator at that position. -/
theorem getElem?_stages_stage (depth : Nat) (bound : List Name) (first : Generator m ε V)
    (others : List (Generator m ε V)) {before : List (Generator m ε V)} {g : Generator m ε V}
    {rest : List (Generator m ε V)} (split : first :: others = before ++ g :: rest) :
    (stage environment final depth bound first others).stages[before.length]? =
      some (stage environment final (depth + before.length) (bound ++ boundBy before) g rest) := by
  induction before generalizing depth bound first others with
  | nil =>
    cases split
    simp [Stage.stages]
  | cons b before ih =>
    obtain ⟨rfl, others_eq⟩ := List.cons.inj split
    cases others with
    | nil => exact absurd others_eq (by simp)
    | cons next others =>
      have inner := ih (depth + 1) (bound ++ first.pattern.names) next others others_eq
      rw [stages_stage_cons, List.length_cons, List.getElem?_cons_succ, inner, boundBy_cons,
        List.append_assoc, Nat.add_right_comm, Nat.add_assoc]

end Sequence

/-! ### Compiling -/

section Compile

variable {s : Sequence m ε V} {final : Expression m ε V V} {chain : Chain m ε V}

open Sequence

/-- **Compiling succeeds exactly on well-scoped sequences**, and then gives the stages
by position, and what the outermost source reads as the entry scope. -/
theorem compile_eq_ok_iff :
    s.compile final = .ok chain ↔
      WellScoped s.environment final.reads [] s.clauses ∧
        chain = ⟨stage s.environment final 0 [] s.first s.rest,
          s.environment.project s.first.source.reads⟩ := by
  rw [← checkClauses_eq_ok_iff 0, Sequence.compile]
  cases checkClauses s.environment final.reads [] 0 s.clauses with
  | error fault => simp [Bind.bind, Except.bind]
  | ok u =>
    simp only [Bind.bind, Except.bind, Pure.pure, Except.pure, Except.ok.injEq, true_and]
    exact eq_comm

theorem wellScoped_of_compile (compiled : s.compile final = .ok chain) :
    WellScoped s.environment final.reads [] s.clauses := (compile_eq_ok_iff.mp compiled).1

theorem root_of_compile (compiled : s.compile final = .ok chain) :
    chain.root = stage s.environment final 0 [] s.first s.rest := by
  rw [(compile_eq_ok_iff.mp compiled).2]

theorem entry_of_compile (compiled : s.compile final = .ok chain) :
    chain.entry = s.environment.project s.first.source.reads := by
  rw [(compile_eq_ok_iff.mp compiled).2]

theorem length_stages_of_compile (compiled : s.compile final = .ok chain) :
    chain.stages.length = s.generators.length := by
  rw [Chain.stages, root_of_compile compiled, length_stages_stage]; rfl

/-- What is well scoped at each position of a compiled sequence. -/
theorem wellScoped_at (compiled : s.compile final = .ok chain)
    {before : List (Generator m ε V)} {g : Generator m ε V} {rest : List (Generator m ε V)}
    (split : s.generators = before ++ g :: rest) :
    WellScoped s.environment final.reads (boundBy before)
      ((g :: rest).flatMap Generator.clauses) := by
  have all := wellScoped_of_compile compiled
  rw [Sequence.clauses, split] at all
  exact all.drop

theorem stage_at (compiled : s.compile final = .ok chain)
    {before : List (Generator m ε V)} {g : Generator m ε V} {rest : List (Generator m ε V)}
    (split : s.generators = before ++ g :: rest) :
    chain.stages[before.length]? =
      some (stage s.environment final before.length (boundBy before) g rest) := by
  have found := getElem?_stages_stage s.environment final 0 [] s.first s.rest split
  rwa [Nat.zero_add, List.nil_append, ← root_of_compile compiled] at found

end Compile

/-! ### A comprehension to look at -/

/-- The expression that applies a function to the values of its reads. -/
def Expression.onReads {α : Type} [Monad m] (reads : List Name) (f : List V → α) :
    Expression m ε V α where
  reads := reads
  label := none
  eval s := pure (f (reads.filterMap s.get?))

namespace Sample

/-- Numbers, and rows of values. -/
inductive Item where
  | number (n : Nat)
  | row (items : List Item)

/-- Two numbers, the first at most the second. -/
def ascending : List Item → Bool
  | [.number a, .number b] => a ≤ b
  | _ => false

/-- The generator of `x <- xs, x ≤ k`. -/
def outer : Generator Id Fault Item where
  pattern := .name ⟨"x"⟩
  source := .ofName ⟨"xs"⟩
  guards := [.onReads [⟨"x"⟩, ⟨"k"⟩] ascending]

/-- The generator of `(y, k) <- pairs, y ≤ x, y ≤ limit`. -/
def inner : Generator Id Fault Item where
  pattern := .tuple [.name ⟨"y"⟩, .name ⟨"k"⟩]
  source := .ofName ⟨"pairs"⟩
  guards := [.onReads [⟨"y"⟩, ⟨"x"⟩] ascending, .onReads [⟨"y"⟩, ⟨"limit"⟩] ascending]

/-- The sequence of `[(k, x) | x <- xs, x ≤ k, (y, k) <- pairs, y ≤ x, y ≤ limit]`. The
first guard reads the captured `k`, the final expression the one bound after it. -/
def sequence : Sequence Id Fault Item where
  first := outer
  rest := [inner]
  environment := .ofList
    [(⟨"k"⟩, .number 2), (⟨"limit"⟩, .number 5),
      (⟨"xs"⟩, .row [.number 1, .number 2, .number 3]),
      (⟨"pairs"⟩, .row [.row [.number 1, .number 10], .row [.number 2, .number 20]])]
  distinct := by decide

def final : Expression Id Fault Item Item := .onReads [⟨"k"⟩, ⟨"x"⟩] .row

end Sample

end Comprehension
