/-
Reading the clauses back off a chain.

A chain is read from the outside in: each stage gives a generator clause, each of its
filters a guard clause, and its last node leads to the next stage or to the final
expression. Compiling loses, repeats and reorders nothing: what is read back from a
compiled chain is the list of clauses that was compiled, with the final expression.

* `of_ofClauses`, `Sequence.exists_ofClauses`: what is accepted, and that it is kept.
* `readBack_stage`: reading back the stage of a generator gives its clauses and those
  of the generators after it.
* `filters_stage`: the filters of a stage are its guards, numbered from the outside in.
* `terminal_stage_nil`, `terminal_stage_cons`: its last node holds the final expression
  or leads to the next stage.
* `compile_reads_back`: all of this for a compiled chain, with its counts.
-/

import Comprehension.Proofs.Assembly

namespace Comprehension

variable {m : Type → Type} {ε V : Type}

/-- The clauses a node was made from, and the final expression at its end. -/
def Node.readBack : Node m ε V → List (Clause m ε V) × Expression m ε V V
  | .map body => ([], body)
  | .flatMap next node =>
      (.generator next.pattern next.source :: node.readBack.1, node.readBack.2)
  | .filter _ predicate node => (.guard predicate :: node.readBack.1, node.readBack.2)

/-- The clauses a stage was made from, and the final expression at its end. -/
def Stage.readBack (s : Stage m ε V) : List (Clause m ε V) × Expression m ε V V :=
  (.generator s.pattern s.source :: s.node.readBack.1, s.node.readBack.2)

def Chain.readBack (c : Chain m ε V) : List (Clause m ε V) × Expression m ε V V :=
  c.root.readBack

/-- The filters of a stage from the outside in, each with its number. -/
def Node.filters : Node m ε V → List (Expression m ε V Bool × Nat)
  | .filter guard predicate node => (predicate, guard) :: node.filters
  | _ => []

/-! ### Accepted clauses -/

/-- An accepted list of clauses is kept as it is, and so is its environment. -/
theorem of_ofClauses {clauses : List (Clause m ε V)} {environment : Scope V}
    {s : Sequence m ε V} (accepted : Sequence.ofClauses clauses environment = .ok s) :
    s.clauses = clauses ∧ s.environment = environment := by
  unfold Sequence.ofClauses at accepted
  split at accepted
  · cases accepted
  · cases accepted
  · rename_i pattern source rest
    split at accepted
    · cases accepted
    · cases accepted
      refine ⟨?_, rfl⟩
      show (Generator.clauses _ ++ _) = _
      rw [Generator.clauses, List.cons_append]
      exact congrArg _ (Sequence.clauses_gather rest)

/-- Clauses that start with a generator and repeat no name are gathered. -/
theorem Sequence.exists_ofClauses_gather {pattern : Pattern} {rest : List (Clause m ε V)}
    (fresh : firstRepeat? [] (pattern.names ++ rest.flatMap Clause.boundNames) = none)
    (source : Expression m ε V V) (environment : Scope V) :
    ∃ distinct, ofClauses (.generator pattern source :: rest) environment =
      .ok ⟨⟨pattern, source, (gather rest).1⟩, (gather rest).2, environment, distinct⟩ := by
  rw [ofClauses]
  split
  · rename_i n repeated
    rw [fresh] at repeated
    cases repeated
  · refine ⟨?_, rfl⟩
    rw [List.flatMap_cons, flatMap_names_gather]
    exact (firstRepeat?_eq_none_iff.mp fresh).1

/-- So they are accepted. -/
theorem Sequence.exists_ofClauses {pattern : Pattern} {source : Expression m ε V V}
    {rest : List (Clause m ε V)}
    (distinct : (pattern.names ++ rest.flatMap Clause.boundNames).Nodup)
    (environment : Scope V) :
    ∃ s, Sequence.ofClauses (.generator pattern source :: rest) environment = .ok s := by
  have fresh : firstRepeat? [] (pattern.names ++ rest.flatMap Clause.boundNames) = none :=
    firstRepeat?_eq_none_iff.mpr ⟨distinct, fun _ _ => List.not_mem_nil⟩
  obtain ⟨_, accepted⟩ := exists_ofClauses_gather fresh source environment
  exact ⟨_, accepted⟩

theorem flatMap_boundNames_clauses (generators : List (Generator m ε V)) :
    (generators.flatMap Generator.clauses).flatMap Clause.boundNames = boundBy generators := by
  induction generators with
  | nil => rfl
  | cons g rest ih =>
    have own : g.clauses.flatMap Clause.boundNames = g.pattern.names := by
      simp [Generator.clauses, Clause.boundNames, List.flatMap_map]
    rw [List.flatMap_cons, List.flatMap_append, own, ih, boundBy_cons]

/-! ### Filters -/

section Guarded

variable (index : Nat) (guards : List (Expression m ε V Bool)) (node : Node m ε V)

theorem readBack_guarded :
    (Sequence.guarded index guards node).readBack =
      (guards.map .guard ++ node.readBack.1, node.readBack.2) := by
  induction guards generalizing index with
  | nil => rfl
  | cons p guards ih => rw [Sequence.guarded, Node.readBack, ih]; rfl

theorem filters_guarded :
    (Sequence.guarded index guards node).filters = guards.zipIdx index ++ node.filters := by
  induction guards generalizing index with
  | nil => rfl
  | cons p guards ih => rw [Sequence.guarded, Node.filters, ih]; rfl

theorem terminal_guarded : (Sequence.guarded index guards node).terminal = node.terminal := by
  induction guards generalizing index with
  | nil => rfl
  | cons p guards ih => exact ih (index + 1)

theorem guardCount_guarded :
    (Sequence.guarded index guards node).guardCount = node.guardCount + guards.length := by
  induction guards generalizing index with
  | nil => rfl
  | cons p guards ih =>
    rw [Sequence.guarded, Node.guardCount, ih, List.length_cons, Nat.add_assoc]

end Guarded

/-! ### Stages -/

namespace Sequence

variable (environment : Scope V) (final : Expression m ε V V)

/-- **Reading a stage back** gives the clauses of its generator and of those after it. -/
theorem readBack_stage (depth : Nat) (before : List Name) (g : Generator m ε V)
    (rest : List (Generator m ε V)) :
    (stage environment final depth before g rest).readBack =
      ((g :: rest).flatMap Generator.clauses, final) := by
  induction rest generalizing depth before g with
  | nil =>
    rw [Stage.readBack, stage_nil, stageOf, readBack_guarded]
    simp [Node.readBack, Generator.clauses]
  | cons next rest ih =>
    have inner := ih (depth + 1) (before ++ g.pattern.names) next
    rw [Stage.readBack] at inner
    rw [Stage.readBack, stage_cons, stageOf, readBack_guarded, Node.readBack, inner]
    simp [Generator.clauses]

theorem filters_stage (depth : Nat) (before : List Name) (g : Generator m ε V)
    (rest : List (Generator m ε V)) :
    (stage environment final depth before g rest).node.filters = g.guards.zipIdx := by
  cases rest with
  | nil => rw [stage_nil, stageOf, filters_guarded, Node.filters, List.append_nil]; simp
  | cons next rest => rw [stage_cons, stageOf, filters_guarded, Node.filters, List.append_nil]; simp

/-- The last node of the innermost stage holds the final expression. -/
theorem terminal_stage_nil (depth : Nat) (before : List Name) (g : Generator m ε V) :
    (stage environment final depth before g []).node.terminal = .map final := by
  rw [stage_nil, stageOf, terminal_guarded, Node.terminal]
  nofun

/-- The last node of any other stage leads to the stage after it. -/
theorem terminal_stage_cons (depth : Nat) (before : List Name) (g next : Generator m ε V)
    (rest : List (Generator m ε V)) :
    (stage environment final depth before g (next :: rest)).node.terminal =
      .flatMap
        (stage environment final (depth + 1) (before ++ g.pattern.names) next rest).toFrame
        (stage environment final (depth + 1) (before ++ g.pattern.names) next rest).node := by
  rw [stage_cons, stageOf, terminal_guarded, Node.terminal]
  nofun

/-- Only the innermost stage ends in a `map`. -/
theorem of_terminal_stage_eq_map {depth : Nat} {before : List Name} {g : Generator m ε V}
    {rest : List (Generator m ε V)} {body : Expression m ε V V}
    (terminal : (stage environment final depth before g rest).node.terminal = .map body) :
    rest = [] ∧ body = final := by
  cases rest with
  | nil =>
    rw [terminal_stage_nil] at terminal
    cases terminal
    exact ⟨rfl, rfl⟩
  | cons next rest =>
    rw [terminal_stage_cons] at terminal
    cases terminal

/-- A stage that ends in a `flatMap` leads to the stage of the generator after it. -/
theorem of_terminal_stage_eq_flatMap {depth : Nat} {before : List Name} {g : Generator m ε V}
    {rest : List (Generator m ε V)} {next : Frame m ε V} {node : Node m ε V}
    (terminal : (stage environment final depth before g rest).node.terminal =
      .flatMap next node) :
    ∃ inner others, rest = inner :: others ∧
      next = (stage environment final (depth + 1) (before ++ g.pattern.names) inner
        others).toFrame ∧
      node = (stage environment final (depth + 1) (before ++ g.pattern.names) inner
        others).node := by
  cases rest with
  | nil =>
    rw [terminal_stage_nil] at terminal
    cases terminal
  | cons inner others =>
    rw [terminal_stage_cons] at terminal
    cases terminal
    exact ⟨inner, others, rfl, rfl, rfl⟩

theorem guardCount_stage (depth : Nat) (before : List Name) (g : Generator m ε V)
    (rest : List (Generator m ε V)) :
    (stage environment final depth before g rest).node.guardCount =
      ((g :: rest).flatMap fun g => g.guards).length := by
  induction rest generalizing depth before g with
  | nil => rw [stage_nil, stageOf, guardCount_guarded]; simp [Node.guardCount]
  | cons next rest ih =>
    rw [stage_cons, stageOf, guardCount_guarded, Node.guardCount, ih]
    simp only [List.flatMap_cons, List.length_append]
    omega

theorem map_depth_stages (depth : Nat) (before : List Name) (g : Generator m ε V)
    (rest : List (Generator m ε V)) :
    (stage environment final depth before g rest).stages.map (fun st => st.depth) =
      List.range' depth (rest.length + 1) := by
  induction rest generalizing depth before g with
  | nil => rw [stages_stage_nil, List.map_singleton, depth_stage]; rfl
  | cons next rest ih =>
    rw [stages_stage_cons, List.map_cons, ih, depth_stage]
    exact List.range'_succ.symm

end Sequence

/-! ### Counting clauses -/

theorem countP_isGenerator (generators : List (Generator m ε V)) :
    (generators.flatMap Generator.clauses).countP Clause.isGenerator = generators.length := by
  induction generators with
  | nil => rfl
  | cons g rest ih =>
    have guards : (g.guards.map Clause.guard).countP Clause.isGenerator = 0 := by
      rw [List.countP_eq_zero]
      intro c hc
      obtain ⟨p, -, rfl⟩ := List.mem_map.mp hc
      simp [Clause.isGenerator]
    rw [List.flatMap_cons, List.countP_append, ih, Generator.clauses,
      List.countP_cons_of_pos (by rfl), guards, List.length_cons]
    omega

theorem length_clauses (generators : List (Generator m ε V)) :
    (generators.flatMap Generator.clauses).length =
      generators.length + (generators.flatMap fun g => g.guards).length := by
  induction generators with
  | nil => rfl
  | cons g rest ih =>
    simp only [List.flatMap_cons, List.length_append, ih, Generator.clauses, List.length_cons,
      List.length_map]
    omega

/-! ### Chains -/

/-- **Compiling loses, repeats and reorders nothing.** Reading the chain back gives the
clauses that were accepted, in order, and the final expression. The stages are numbered
from the outside in, and so are the filters of each stage, one for each guard of its
generator. Every stage but the last leads to the next, and the last one ends in a `map`
over the final expression. The counts of the chain are those of the sequence, which are
those of the clauses. -/
theorem compile_reads_back {clauses : List (Clause m ε V)} {environment : Scope V}
    {s : Sequence m ε V} {final : Expression m ε V V} {chain : Chain m ε V}
    (accepted : Sequence.ofClauses clauses environment = .ok s)
    (compiled : s.compile final = .ok chain) :
    chain.readBack = (clauses, final) ∧
      chain.stages.map (fun st => st.depth) = List.range s.generators.length ∧
      (∀ d g, s.generators[d]? = some g →
        ∃ st, chain.stages[d]? = some st ∧
          st.node.filters.map Prod.fst = g.guards ∧
          st.node.filters.map Prod.snd = List.range g.guards.length ∧
          (d + 1 = s.generators.length → st.node.terminal = .map final) ∧
          (d + 1 < s.generators.length → ∃ next, chain.stages[d + 1]? = some next ∧
            st.node.terminal = .flatMap next.toFrame next.node)) ∧
      (chain.generatorCount = s.generatorCount ∧ chain.guardCount = s.guardCount) ∧
      s.generatorCount = clauses.countP Clause.isGenerator ∧
      s.guardCount = clauses.length - clauses.countP Clause.isGenerator := by
  obtain ⟨same, -⟩ := of_ofClauses accepted
  have root := root_of_compile compiled
  have generators : clauses.countP Clause.isGenerator = s.generators.length := by
    rw [← same, Sequence.clauses, countP_isGenerator]
  refine ⟨?_, ?_, ?_, ⟨?_, ?_⟩, generators.symm, ?_⟩
  · rw [Chain.readBack, root, Sequence.readBack_stage, ← same]
    rfl
  · rw [Chain.stages, root, Sequence.map_depth_stages, List.range_eq_range']
    rfl
  · intro d g found
    obtain ⟨before, rest, split, rfl⟩ := exists_split_of_getElem? found
    have count : s.generators.length = before.length + 1 + rest.length := by
      rw [split, List.length_append, List.length_cons]
      omega
    refine ⟨_, stage_at compiled split, ?_, ?_, ?_, ?_⟩
    · rw [Sequence.filters_stage, List.zipIdx_map_fst]
    · rw [Sequence.filters_stage, List.zipIdx_map_snd, List.range_eq_range']
    · intro last
      cases rest with
      | nil => exact Sequence.terminal_stage_nil ..
      | cons next rest => simp only [List.length_cons] at count; omega
    · intro more
      cases rest with
      | nil => simp only [List.length_nil] at count; omega
      | cons next rest =>
        have split' : s.generators = (before ++ [g]) ++ next :: rest := by
          rw [split, List.append_assoc, List.singleton_append]
        have found' := stage_at compiled split'
        rw [List.length_append, List.length_singleton, boundBy_append, boundBy_cons, boundBy_nil,
          List.append_nil] at found'
        exact ⟨_, found', Sequence.terminal_stage_cons ..⟩
  · exact length_stages_of_compile compiled
  · rw [Chain.guardCount, root, Sequence.guardCount_stage]
    rfl
  · rw [generators, ← same, Sequence.clauses, length_clauses, Nat.add_sub_cancel_left]
    rfl

theorem sample_reads_back :
    Sequence.ofClauses Sample.sequence.clauses Sample.sequence.environment =
        .ok Sample.sequence ∧
      ∃ chain, Sample.sequence.compile Sample.final = .ok chain ∧
        chain.readBack = (Sample.sequence.clauses, Sample.final) ∧
        chain.stages.map (fun st => st.depth) = [0, 1] ∧
        chain.generatorCount = 2 ∧ chain.guardCount = 3 := by
  have accepted : Sequence.ofClauses Sample.sequence.clauses Sample.sequence.environment =
    .ok Sample.sequence := rfl
  refine ⟨accepted, _, rfl, ?_⟩
  obtain ⟨readBack, depths, -, ⟨generators, guards⟩, -, -⟩ := compile_reads_back accepted
    (rfl : Sample.sequence.compile Sample.final = .ok _)
  exact ⟨readBack, depths, generators, guards⟩

end Comprehension
