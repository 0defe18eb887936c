/-
Compiling preserves meaning.

The direct interpreter takes the clauses as they stand and carries the full scope: the
environment overlaid with every name bound so far. It knows no stages and takes nothing
along. A compiled chain, in which every stage has only the names it needs, does the same
calls with the same continuations, as long as no closure looks beyond its declared
reads.

* `interpret`: the direct interpreter, by recursion on the clauses.
* `Sequence.Tracks`: the invariant. The captured scope agrees with the full one on all
  that is needed, and the full one is the environment but for the names bound so far.
* `run_stage_eq_interpretAfter`: a stage runs like the clauses it was made from.
* `evaluate_eq_interpret`: the same for a compiled chain.
-/

import Comprehension.Proofs.Capture
import Comprehension.Proofs.Matching
import Comprehension.Proofs.Evaluation

namespace Comprehension

variable {m : Type → Type} {ε V : Type}

/-! ### Closures that keep to their declared reads -/

/-- The expression behaves alike in any two scopes that bind all its declared reads to
the same values. -/
def Expression.RespectsReads {α : Type} (e : Expression m ε V α) : Prop :=
  ∀ s t : Scope V, Scope.AgreeOn e.reads s t → e.eval s = e.eval t

/-- The expression of the clause keeps to its declared reads. -/
def Clause.RespectsReads : Clause m ε V → Prop
  | .generator _ source => source.RespectsReads
  | .guard predicate => predicate.RespectsReads

/-- A function of the values of the declared reads depends on nothing else. -/
theorem Expression.respectsReads_onReads {α : Type} [Monad m] (reads : List Name)
    (f : List V → α) : (Expression.onReads reads f : Expression m ε V α).RespectsReads := by
  intro s t agree
  have same : reads.filterMap s.get? = reads.filterMap t.get? := by
    refine List.filterMap_congr fun n hn => ?_
    obtain ⟨v, found, found'⟩ := agree n hn
    rw [found, found']
  exact congrArg (fun vs => pure (f vs)) same

theorem Expression.respectsReads_ofName [Monad m] [OfFault ε] (n : Name) :
    (Expression.ofName n : Expression m ε V V).RespectsReads := by
  intro s t agree
  obtain ⟨v, found, found'⟩ := agree n List.mem_cons_self
  simp only [Expression.ofName, Scope.lookup, found, found']

/-! ### The direct interpreter -/

section Interpreter

variable [Monad m] [OfFault ε] [Splittable V] [Capable m ε V]

/-- Interprets the clauses that follow a generator, given the generator's depth and
pattern, the number of its guards met so far, the full scope around it and the value to
go on with. -/
def interpretAfter (handler : Handler m ε V) (final : Expression m ε V V) :
    List (Clause m ε V) → Nat → Pattern → Nat → Scope V → V → ExceptT ε m V
  | [], depth, pattern, _, scope, v => do
      let ops ← Fault.lift (Operations.resolve depth v)
      handler (.generator depth) .map ops <| .body fun element => do
        let inner ← Fault.lift (pattern.extend depth element scope)
        final.eval inner
  | .guard predicate :: rest, depth, pattern, index, scope, v => do
      let ops ← Fault.lift (Operations.resolve depth v)
      let kept ← handler (.guarded depth index) .filter ops <| .predicate fun element => do
        let inner ← Fault.lift (pattern.extend depth element scope)
        predicate.eval inner
      interpretAfter handler final rest depth pattern (index + 1) scope kept
  | .generator next source :: rest, depth, pattern, _, scope, v => do
      let ops ← Fault.lift (Operations.resolve depth v)
      handler (.generator depth) .flatMap ops <| .body fun element => do
        let inner ← Fault.lift (pattern.extend depth element scope)
        let w ← source.eval inner
        interpretAfter handler final rest (depth + 1) next 0 inner w

/-- Interprets clauses over an environment. -/
def interpret (handler : Handler m ε V) (final : Expression m ε V V) (environment : Scope V) :
    List (Clause m ε V) → ExceptT ε m V
  | [] => Fault.lift (.error (.malformed .empty))
  | .guard _ :: _ => Fault.lift (.error (.malformed .leadingGuard))
  | .generator pattern source :: rest => do
      let v ← source.eval environment
      interpretAfter handler final rest 0 pattern 0 environment v

end Interpreter

/-! ### The full scope and the captured ones -/

/-- After a match the scopes agree on what the pattern binds too. -/
theorem agreeOn_insertAll {names own reads : List Name} {s t : Scope V}
    (agree : Scope.AgreeOn names s t) {pairs : List (Name × V)}
    (bound : pairs.map Prod.fst = own) (found : ∀ n ∈ reads, n ∈ own ∨ n ∈ names) :
    Scope.AgreeOn reads (s.insertAll pairs) (t.insertAll pairs) := by
  refine (agree.insertAll pairs).mono fun n hn => ?_
  rw [bound, List.mem_append]
  exact (found n hn).symm

namespace Sequence

/-- What a stage has captured keeps up with the full scope around it, where the names
`before` are bound and the names `needed` are still to be read. -/
structure Tracks (environment : Scope V) (before needed : List Name)
    (captured full : Scope V) : Prop where
  /-- On all that is needed the two scopes agree. -/
  agree : Scope.AgreeOn needed captured full
  /-- But for the names bound so far, the full scope is the environment. -/
  outside : ∀ n, n ∉ before → full.get? n = environment.get? n

variable {environment : Scope V} {final : Expression m ε V V} {depth : Nat} {before : List Name}
  {g : Generator m ε V} {rest : List (Generator m ε V)}

/-- A stage captures what is needed from a scope that has the right values for the names
bound so far; for all others it holds the captured values, and so does the full scope. -/
theorem tracks_capture_stage {outer full : Scope V}
    (present : ∀ n ∈ (needed final.reads g rest).toList, n ∈ full.names)
    (inside : ∀ n ∈ (needed final.reads g rest).toList, n ∈ before →
      outer.get? n = full.get? n)
    (outside : ∀ n, n ∉ before → full.get? n = environment.get? n) :
    Tracks environment before (needed final.reads g rest).toList
      ((stage environment final depth before g rest).capture outer) full := by
  refine ⟨fun n hn => ?_, outside⟩
  obtain ⟨v, found⟩ := Scope.mem_names_iff.mp (present n hn)
  refine ⟨v, ?_, found⟩
  rw [get?_capture_stage, if_pos hn]
  by_cases bound : n ∈ before
  · rw [if_pos bound, inside n hn bound, found]
  · rw [if_neg bound, ← outside n bound, found]

/-- **One step inwards**: an element is bound in both scopes, and the next stage captures
what it needs from the smaller one. -/
theorem Tracks.next {next : Generator m ε V} {captured full : Scope V}
    (tracks : Tracks environment before (needed final.reads g (next :: rest)).toList
      captured full) {pairs : List (Name × V)} (bound : pairs.map Prod.fst = g.pattern.names) :
    Tracks environment (before ++ g.pattern.names) (needed final.reads next rest).toList
      ((stage environment final (depth + 1) (before ++ g.pattern.names) next rest).capture
        (captured.insertAll pairs)) (full.insertAll pairs) := by
  have agree := agreeOn_insertAll tracks.agree bound fun n hn =>
    mem_names_or_needed_cons (.inl hn)
  refine tracks_capture_stage ?_ ?_ ?_
  · intro n hn
    obtain ⟨v, -, found⟩ := agree n hn
    exact Scope.mem_names_iff.mpr ⟨v, found⟩
  · intro n hn _
    obtain ⟨v, found, found'⟩ := agree n hn
    rw [found, found']
  · intro n fresh
    rw [List.mem_append, not_or, ← bound] at fresh
    rw [Scope.get?_insertAll_of_notMem full fresh.2, tracks.outside n fresh.1]

end Sequence

/-! ### The simulation -/

section Simulation

variable [Monad m] [LawfulMonad m] [OfFault ε] [Splittable V] [Capable m ε V]

omit [Capable m ε V] in
/-- Matching an element in two scopes goes on alike in both if what follows does, for
the pairs that the match inserts. -/
theorem lift_extend_congr {β : Type} {depth : Nat} {p : Pattern} {element : V}
    {s t : Scope V} {k k' : Scope V → ExceptT ε m β}
    (same : ∀ pairs : List (Name × V), pairs.map Prod.fst = p.names →
      k (s.insertAll pairs) = k' (t.insertAll pairs)) :
    (Fault.lift (p.extend depth element s) >>= k : ExceptT ε m β) =
      Fault.lift (p.extend depth element t) >>= k' := by
  cases entry : p.extend depth element s with
  | error fault =>
    rw [Pattern.extend_eq_error entry t]
    exact lift_error_bind fault k k'
  | ok scope =>
    obtain ⟨pairs, bound, rfl, everywhere⟩ := Pattern.exists_pairs_of_extend entry
    rw [everywhere t, lift_ok_bind, lift_ok_bind, same pairs bound]

omit [Capable m ε V] in
/-- A closure that keeps to its declared reads does not notice the rest of the scope. -/
theorem eval_extend_congr {α : Type} {depth : Nat} {p : Pattern} {element : V}
    {names : List Name} {s t : Scope V} (agree : Scope.AgreeOn names s t)
    {e : Expression m ε V α} (respects : e.RespectsReads)
    (found : ∀ n ∈ e.reads, n ∈ p.names ∨ n ∈ names) :
    (Fault.lift (p.extend depth element s) >>= e.eval : ExceptT ε m α) =
      Fault.lift (p.extend depth element t) >>= e.eval := by
  refine lift_extend_congr fun pairs bound => respects _ _ ?_
  exact agreeOn_insertAll agree bound found

omit [LawfulMonad m] in
/-- The filters of a stage run like its guards, if the tests and what follows do. -/
theorem run_guarded_eq_interpretAfter (handler : Handler m ε V) {final : Expression m ε V V}
    {f : Frame m ε V} {captured full : Scope V} {last : Node m ε V}
    {guards : List (Expression m ε V Bool)} {rest : List (Clause m ε V)}
    (tests : ∀ p ∈ guards, ∀ element,
      (Fault.lift (f.enter captured element) >>= p.eval : ExceptT ε m Bool) =
        Fault.lift (f.pattern.extend f.depth element full) >>= p.eval)
    (ends : ∀ index v, last.run handler f captured v =
      interpretAfter handler final rest f.depth f.pattern index full v) (index : Nat) (v : V) :
    (Sequence.guarded index guards last).run handler f captured v =
      interpretAfter handler final (guards.map .guard ++ rest) f.depth f.pattern index full v := by
  induction guards generalizing index v with
  | nil => exact ends index v
  | cons p guards ih =>
    rw [Sequence.guarded, Node.run, List.map_cons, List.cons_append, interpretAfter]
    refine bind_congr fun ops => ?_
    congr 1
    · congr 2
      funext element
      exact tests p List.mem_cons_self element
    · funext kept
      exact ih (fun q hq => tests q (List.mem_cons_of_mem _ hq)) (index + 1) kept

namespace Sequence

variable {environment : Scope V} {final : Expression m ε V V} {depth : Nat} {before : List Name}
  {g : Generator m ε V} {rest : List (Generator m ε V)}

omit [Capable m ε V] in
/-- A guard finds its reads in the captured scope and in the full one alike. -/
theorem guard_extend_congr (respects : ∀ c ∈ g.clauses, c.RespectsReads)
    {captured full : Scope V}
    (agree : Scope.AgreeOn (needed final.reads g rest).toList captured full)
    {p : Expression m ε V Bool} (mem : p ∈ g.guards) (element : V) :
    (Fault.lift (g.pattern.extend depth element captured) >>= p.eval : ExceptT ε m Bool) =
      Fault.lift (g.pattern.extend depth element full) >>= p.eval := by
  have keeps : p.RespectsReads :=
    respects (.guard p) (List.mem_cons_of_mem _ (List.mem_map_of_mem mem))
  refine eval_extend_congr agree keeps fun n hn => mem_names_or_needed_of_guardReads ?_
  exact Generator.mem_guardReads.mpr ⟨p, mem, hn⟩

/-- **A stage runs like the clauses it was made from**, if what it has captured keeps up
with the full scope. -/
theorem run_stage_eq_interpretAfter (handler : Handler m ε V)
    (respectsFinal : final.RespectsReads)
    (respects : ∀ h ∈ g :: rest, ∀ c ∈ h.clauses, c.RespectsReads) {captured full : Scope V}
    (tracks : Tracks environment before (needed final.reads g rest).toList captured full)
    (v : V) :
    (stage environment final depth before g rest).node.run handler
        (stage environment final depth before g rest).toFrame captured v =
      interpretAfter handler final (g.guards.map .guard ++ rest.flatMap Generator.clauses)
        depth g.pattern 0 full v := by
  induction rest generalizing depth before g captured full v with
  | nil =>
    rw [stage_nil]
    refine run_guarded_eq_interpretAfter handler ?_ ?_ 0 v
    · intro p hp
      exact guard_extend_congr (respects g List.mem_cons_self) tracks.agree hp
    · intro index v
      rw [Node.run, List.flatMap_nil, interpretAfter]
      refine bind_congr fun ops => ?_
      congr 2
      funext element
      exact eval_extend_congr tracks.agree respectsFinal fun n hn =>
        mem_names_or_needed_nil (.inl hn)
  | cons next rest ih =>
    rw [stage_cons]
    refine run_guarded_eq_interpretAfter handler ?_ ?_ 0 v
    · intro p hp
      exact guard_extend_congr (respects g List.mem_cons_self) tracks.agree hp
    · intro index v
      rw [Node.run, List.flatMap_cons, Generator.clauses, List.cons_append, interpretAfter]
      refine bind_congr fun ops => ?_
      congr 2
      funext element
      refine lift_extend_congr fun pairs bound => ?_
      have respects' : ∀ h ∈ next :: rest, ∀ c ∈ h.clauses, c.RespectsReads :=
        fun h hh => respects h (List.mem_cons_of_mem _ hh)
      have source : next.source.RespectsReads :=
        respects' next List.mem_cons_self (.generator next.pattern next.source) List.mem_cons_self
      have agree := agreeOn_insertAll tracks.agree bound fun n hn =>
        mem_names_or_needed_cons (.inr (.inl hn))
      rw [source_stage, source _ _ agree]
      refine bind_congr fun w => ?_
      exact ih respects' (tracks.next bound) w

end Sequence

end Simulation

/-! ### Compiled chains -/

section Compiled

variable {s : Sequence m ε V} {final : Expression m ε V V} {chain : Chain m ε V}

/-- What the outermost source reads is the same in the entry scope and the environment. -/
theorem agreeOn_entry (compiled : s.compile final = .ok chain) :
    Scope.AgreeOn s.first.source.reads chain.entry s.environment := by
  intro n hn
  have wellScoped := wellScoped_of_compile compiled
  rcases (Sequence.wellScoped_generator_iff.mp wellScoped).1 n hn with bound | captured
  · cases bound
  · obtain ⟨v, found⟩ := Scope.mem_names_iff.mp captured
    refine ⟨v, ?_, found⟩
    rw [entry_of_compile compiled, Scope.get?_project, if_pos hn, found]

/-- At the root nothing is bound yet: all that is needed comes from the environment. -/
theorem tracks_root (compiled : s.compile final = .ok chain) :
    Sequence.Tracks s.environment [] (Sequence.needed final.reads s.first s.rest).toList
      (chain.root.capture chain.entry) s.environment := by
  rw [root_of_compile compiled]
  refine Sequence.tracks_capture_stage ?_ ?_ ?_
  · intro n hn
    rcases (wellScoped_of_compile compiled).resolvable_needed n hn with bound | captured
    · cases bound
    · exact captured
  · intro n _ bound
    cases bound
  · intro n _
    rfl

/-- Where no closure looks beyond its declared reads, a compiled chain evaluates the first
source in the environment and goes on with the clauses after it. -/
theorem evaluate_eq_interpretAfter [Monad m] [LawfulMonad m] [OfFault ε] [Splittable V]
    [Capable m ε V] (compiled : s.compile final = .ok chain)
    (respects : ∀ c ∈ s.clauses, c.RespectsReads) (respectsFinal : final.RespectsReads)
    (handler : Handler m ε V) :
    chain.evaluate handler = (do
      let v ← s.first.source.eval s.environment
      interpretAfter handler final
        (s.first.guards.map .guard ++ s.rest.flatMap Generator.clauses) 0 s.first.pattern 0
        s.environment v) := by
  have respects' : ∀ g ∈ s.first :: s.rest, ∀ c ∈ g.clauses, c.RespectsReads :=
    fun g hg c hc => respects c (List.mem_flatMap.mpr ⟨g, hg, hc⟩)
  have source : s.first.source.RespectsReads := respects' s.first List.mem_cons_self
    (.generator s.first.pattern s.first.source) List.mem_cons_self
  have tracks := tracks_root compiled
  rw [root_of_compile compiled] at tracks
  rw [Chain.evaluate, Stage.run, root_of_compile compiled, Sequence.source_stage,
    source _ _ (agreeOn_entry compiled)]
  refine bind_congr fun v => ?_
  exact Sequence.run_stage_eq_interpretAfter handler respectsFinal respects' tracks v

end Compiled

/-- **Compiling preserves meaning.** Take clauses that are accepted over an environment,
with a final expression, such that no closure looks beyond its declared reads. If they
compile, evaluating the chain is interpreting the clauses directly: same result and same
effects, for every handler and whatever the operations of the values do. They do compile
if every read is bound or captured. -/
theorem evaluate_eq_interpret [Monad m] [LawfulMonad m] [OfFault ε] [Splittable V]
    [Capable m ε V] {clauses : List (Clause m ε V)} {environment : Scope V}
    {s : Sequence m ε V} {final : Expression m ε V V}
    (accepted : Sequence.ofClauses clauses environment = .ok s)
    (respects : ∀ c ∈ clauses, c.RespectsReads) (respectsFinal : final.RespectsReads) :
    (∀ chain, s.compile final = .ok chain → ∀ handler : Handler m ε V,
      chain.evaluate handler = interpret handler final environment clauses) ∧
    (Sequence.WellScoped environment final.reads [] clauses →
      ∃ chain, s.compile final = .ok chain) := by
  obtain ⟨rfl, rfl⟩ := of_ofClauses accepted
  refine ⟨?_, fun wellScoped => ⟨_, compile_eq_ok_iff.mpr ⟨wellScoped, rfl⟩⟩⟩
  intro chain compiled handler
  rw [evaluate_eq_interpretAfter compiled respects respectsFinal, Sequence.clauses,
    Sequence.generators, List.flatMap_cons, Generator.clauses, List.cons_append, interpret]

/-- The closures of the sample keep to their declared reads. -/
theorem Sample.respects_clauses : ∀ c ∈ sequence.clauses, c.RespectsReads := by
  rw [show sequence.clauses = outer.clauses ++ inner.clauses from rfl]
  simp only [outer, inner, Generator.clauses, List.map_cons, List.map_nil, List.cons_append,
    List.nil_append, List.forall_mem_cons, Clause.RespectsReads]
  exact ⟨Expression.respectsReads_ofName _, Expression.respectsReads_onReads _ _,
    Expression.respectsReads_ofName _, Expression.respectsReads_onReads _ _,
    Expression.respectsReads_onReads _ _, List.forall_mem_nil _⟩

theorem sample_evaluate_eq_interpret :
    Sequence.ofClauses Sample.sequence.clauses Sample.sequence.environment =
        .ok Sample.sequence ∧
      (∀ c ∈ Sample.sequence.clauses, c.RespectsReads) ∧ Sample.final.RespectsReads ∧
      ∃ chain, Sample.sequence.compile Sample.final = .ok chain ∧
        (∀ handler, chain.evaluate handler = interpret handler Sample.final
          Sample.sequence.environment Sample.sequence.clauses) ∧
        chain.evaluate .direct = pure (.row [.row [.number 10, .number 1],
          .row [.number 10, .number 2], .row [.number 20, .number 2]]) := by
  have accepted : Sequence.ofClauses Sample.sequence.clauses Sample.sequence.environment =
    .ok Sample.sequence := rfl
  have respectsFinal : Sample.final.RespectsReads := Expression.respectsReads_onReads _ _
  have same := (evaluate_eq_interpret accepted Sample.respects_clauses respectsFinal).1 _ rfl
  exact ⟨accepted, Sample.respects_clauses, respectsFinal, _, rfl, same, (same .direct).trans rfl⟩

end Comprehension
