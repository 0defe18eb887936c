/-
Comprehensions over optional values are straight-line programs.

An optional value holds at most one item, so no clause is passed twice. A compiled chain
still nests its stages, matches an element anew for every guard, and sends an absent value
through all filters that follow. What it does is to walk the clauses in order and stop at
the first value that is absent, guard that is false or error.

* `straightLine`: the walk, for closures that may fail and have effects.
* `Supplied`: wherever the walk comes, sources give values of the kind in question. Other
  kinds of values may have operations of their own.
* `interpretAfter_absent`, `interpretAfter_item`: the clauses after a generator, on a value
  that holds nothing and on one that holds an item.
* `counting`: the walk with the number of closures it has called. `run_straightLine` and
  `run_straightLine_logged` tie it to the walk and to one in which every closure writes
  down its index.
* `evaluate_eq_straightLine`: all of this for a compiled chain.
-/

import Comprehension.Carrier.List
import Comprehension.Carrier.Optional
import Comprehension.Proofs.DirectInterpreter

namespace Comprehension

variable {m : Type → Type} {ε V : Type}

/-- The values in question offer the operations of what they hold: an item, nothing, or no
operations at all. Optional values are among them; of all other values nothing is said. -/
structure OptionalForm.Governs (form : OptionalForm V) (held? : V → Option (Option V))
    (inQuestion : V → Prop) (m : Type → Type) (ε : Type) [Monad m] [Capable m ε V] : Prop where
  present : ∀ v, inQuestion (form.present v)
  absent : inQuestion form.absent
  held_present : ∀ v, held? (form.present v) = some (some v)
  held_absent : held? form.absent = some none
  operations : ∀ v, inQuestion v →
    (Capable.operations v : Option (Operations m ε V)) = (held? v).map form.operations

namespace OptionalForm

section Calls

variable [Monad m] [OfFault ε] (form : OptionalForm V) (site : Site)

/-- With nothing inside, no call reaches its continuation. -/
theorem direct_absent {capability : Capability} {k : Continuation m ε V}
    (accepted : k.accepts capability = true) :
    Handler.direct site capability (form.operations none) k = pure form.absent := by
  cases k with
  | body run =>
    cases capability with
    | map => rfl
    | flatMap => rfl
    | filter => cases accepted
  | predicate test =>
    cases capability with
    | filter => rfl
    | map => cases accepted
    | flatMap => cases accepted

theorem direct_map_present (item : V) (run : V → ExceptT ε m V) :
    Handler.direct site .map (form.operations (some item)) (.body run) = (do
      let w ← run item
      return form.present w) := rfl

theorem direct_flatMap_present (item : V) (run : V → ExceptT ε m V) :
    Handler.direct site .flatMap (form.operations (some item)) (.body run) = run item := rfl

theorem direct_filter_present (item : V) (test : V → ExceptT ε m Bool) :
    Handler.direct site .filter (form.operations (some item)) (.predicate test) = (do
      let keep ← test item
      return if keep then form.present item else form.absent) := rfl

end Calls

end OptionalForm

/-! ### What a computation gives -/

/-- The computation fails, or gives a value of which `holds` is true, for every way its
effects may turn out. -/
def Yields [Monad m] {α : Type} (x : ExceptT ε m α) (holds : α → Prop) : Prop :=
  ∃ outcomes : ExceptT ε m {a : α // holds a}, x = Subtype.val <$> outcomes

namespace Yields

variable [Monad m] [LawfulMonad m] {α β : Type} {x : ExceptT ε m α} {holds holds' : α → Prop}

theorem pure {a : α} (ha : holds a) : Yields (Pure.pure a : ExceptT ε m α) holds :=
  ⟨Pure.pure ⟨a, ha⟩, by rw [map_pure]⟩

theorem of_forall (x : ExceptT ε m α) (all : ∀ a, holds a) : Yields x holds := by
  refine ⟨(fun a => ⟨a, all a⟩) <$> x, ?_⟩
  rw [Functor.map_map, id_map']

theorem mono (yields : Yields x holds) (weaker : ∀ a, holds a → holds' a) : Yields x holds' := by
  obtain ⟨outcomes, rfl⟩ := yields
  refine ⟨(fun a => ⟨a.1, weaker a.1 a.2⟩) <$> outcomes, ?_⟩
  rw [Functor.map_map]

/-- What follows matters only for the values that the computation gives. -/
theorem congr (yields : Yields x holds) {k k' : α → ExceptT ε m β}
    (same : ∀ a, holds a → k a = k' a) : x >>= k = x >>= k' := by
  obtain ⟨outcomes, rfl⟩ := yields
  rw [bind_map_left, bind_map_left]
  exact bind_congr fun a => same a.1 a.2

end Yields

/-! ### The walk -/

section Walk

variable [Monad m] [OfFault ε] [Splittable V] (form : OptionalForm V)
  (held? : V → Option (Option V)) (final : Expression m ε V V)

/-- The number of generators passed after a clause. -/
def Clause.depthAfter : Clause m ε V → Nat → Nat
  | .generator _ _, depth => depth + 1
  | .guard _, depth => depth

/-- Takes one clause, given the number of generators passed and the scope bound so far. A
generator calls its source and binds the item that the value holds; it fails if the value
offers no operations or the item does not fit. A guard calls its predicate. The answer is
the scope to go on in, or nothing where the value is absent or the guard false. -/
def Clause.step (depth : Nat) (scope : Scope V) :
    Clause m ε V → ExceptT ε m (Option (Scope V))
  | .generator pattern source => do
      let v ← source.eval scope
      match held? v with
      | none => Fault.lift (.error (.unsupportedValue depth))
      | some none => return none
      | some (some item) => do
          let inner ← Fault.lift (pattern.extend depth item scope)
          return some inner
  | .guard predicate => do
      let keep ← predicate.eval scope
      return if keep then some scope else none

/-- Walks the clauses in order. The walk stops with the absent value where a clause gives
nothing to go on in; at its end the final value is wrapped up. -/
def straightLine : List (Clause m ε V) → Nat → Scope V → ExceptT ε m V
  | [], _, scope => do
      let v ← final.eval scope
      return form.present v
  | c :: rest, depth, scope => do
      match ← c.step held? depth scope with
      | none => return form.absent
      | some inner => straightLine rest (c.depthAfter depth) inner

/-- Wherever the walk comes, sources give values in question. -/
def Supplied (inQuestion : V → Prop) : List (Clause m ε V) → Nat → Scope V → Prop
  | [], _, _ => True
  | .guard predicate :: rest, depth, scope =>
      Yields (predicate.eval scope) fun keep => keep = true → Supplied inQuestion rest depth scope
  | .generator pattern source :: rest, depth, scope =>
      Yields (source.eval scope) fun v => inQuestion v ∧
        ∀ item inner, held? v = some (some item) → pattern.extend depth item scope = .ok inner →
          Supplied inQuestion rest (depth + 1) inner

/-- The same walk with the number of closures it has called: one for each clause it has
come to, and one for the final expression. -/
def counting : (clauses : List (Clause m ε V)) → Nat → Scope V →
    m (Except ε V × Fin (clauses.length + 2))
  | [], _, scope => do
      let answer ← (final.eval scope).run
      return (answer.map form.present, 1)
  | c :: rest, depth, scope => do
      match ← (c.step held? depth scope).run with
      | .error e => return (.error e, 1)
      | .ok none => return (.ok form.absent, 1)
      | .ok (some inner) => do
          let walked ← counting rest (c.depthAfter depth) inner
          return (walked.1, walked.2.succ)

/-- What becomes of a value at a generator: it goes on with an item that it holds. -/
def onHeld (depth : Nat) (v : V) (go : V → ExceptT ε m V) : ExceptT ε m V :=
  match held? v with
  | none => Fault.lift (.error (.unsupportedValue depth))
  | some none => pure form.absent
  | some (some item) => go item

variable [LawfulMonad m]

omit [OfFault ε] in
/-- Where all values are in question, nothing is asked of the sources. -/
theorem supplied_of_forall {inQuestion : V → Prop} (all : ∀ v, inQuestion v)
    (clauses : List (Clause m ε V)) (depth : Nat) (scope : Scope V) :
    Supplied held? inQuestion clauses depth scope := by
  induction clauses generalizing depth scope with
  | nil => trivial
  | cons c rest ih =>
    cases c with
    | guard predicate => exact Yields.of_forall _ fun keep _ => ih depth scope
    | generator pattern source =>
      exact Yields.of_forall _ fun v => ⟨all v, fun item inner _ _ => ih (depth + 1) inner⟩

theorem straightLine_guard (predicate : Expression m ε V Bool) (rest : List (Clause m ε V))
    (depth : Nat) (scope : Scope V) :
    straightLine form held? final (.guard predicate :: rest) depth scope = (do
      let keep ← predicate.eval scope
      if keep then straightLine form held? final rest depth scope else pure form.absent) := by
  rw [straightLine, Clause.step, bind_assoc]
  refine bind_congr fun keep => ?_
  rw [pure_bind]
  cases keep with
  | false => rfl
  | true => rfl

theorem straightLine_generator (pattern : Pattern) (source : Expression m ε V V)
    (rest : List (Clause m ε V)) (depth : Nat) (scope : Scope V) :
    straightLine form held? final (.generator pattern source :: rest) depth scope = (do
      let v ← source.eval scope
      onHeld form held? depth v fun item => do
        let inner ← Fault.lift (pattern.extend depth item scope)
        straightLine form held? final rest (depth + 1) inner) := by
  rw [straightLine, Clause.step, bind_assoc]
  refine bind_congr fun v => ?_
  rw [onHeld]
  cases held? v with
  | none => exact lift_error_bind_eq ..
  | some held =>
    cases held with
    | none => exact pure_bind ..
    | some item =>
      simp only [bind_assoc, pure_bind]
      rfl

end Walk

/-! ### The simulation -/

section Simulation

variable [Monad m] [LawfulMonad m] [OfFault ε] [Splittable V] [Capable m ε V]
  {form : OptionalForm V} {held? : V → Option (Option V)} {inQuestion : V → Prop}
  {final : Expression m ε V V}

omit [LawfulMonad m] [OfFault ε] [Splittable V] in
theorem resolve_optional (governs : form.Governs held? inQuestion m ε) {v : V}
    (asked : inQuestion v) {held : Option V} (holds : held? v = some held) (depth : Nat) :
    (Operations.resolve depth v : Except Fault (Operations m ε V)) =
      .ok (form.operations held) := by
  rw [Operations.resolve, governs.operations v asked, holds]
  rfl

/-- A value without operations stops every continuation of the walk. -/
theorem interpretAfter_unsupported (governs : form.Governs held? inQuestion m ε) {v : V}
    (asked : inQuestion v) (holds : held? v = none) (clauses : List (Clause m ε V)) (depth : Nat)
    (pattern : Pattern) (index : Nat) (scope : Scope V) :
    interpretAfter .direct final clauses depth pattern index scope v =
      Fault.lift (.error (.unsupportedValue depth)) := by
  have resolved : (Operations.resolve depth v : Except Fault (Operations m ε V)) =
      .error (.unsupportedValue depth) := by
    rw [Operations.resolve, governs.operations v asked, holds]
    rfl
  cases clauses with
  | nil => rw [interpretAfter, resolved, lift_error_bind_eq]
  | cons c rest =>
    cases c with
    | guard predicate => rw [interpretAfter, resolved, lift_error_bind_eq]
    | generator next source => rw [interpretAfter, resolved, lift_error_bind_eq]

/-- An absent value passes all filters and operations untouched, and calls no closure. -/
theorem interpretAfter_absent (governs : form.Governs held? inQuestion m ε) {v : V}
    (asked : inQuestion v) (holds : held? v = some none) (clauses : List (Clause m ε V))
    (depth : Nat) (pattern : Pattern) (index : Nat) (scope : Scope V) :
    interpretAfter .direct final clauses depth pattern index scope v = pure form.absent := by
  induction clauses generalizing index v with
  | nil =>
    rw [interpretAfter, resolve_optional governs asked holds, lift_ok_bind,
      form.direct_absent _ rfl]
  | cons c rest ih =>
    cases c with
    | guard predicate =>
      rw [interpretAfter, resolve_optional governs asked holds, lift_ok_bind,
        form.direct_absent _ rfl, pure_bind]
      exact ih governs.absent governs.held_absent (index + 1)
    | generator next source =>
      rw [interpretAfter, resolve_optional governs asked holds, lift_ok_bind,
        form.direct_absent _ rfl]

/-- So only what follows an item is left to say. -/
theorem interpretAfter_eq_onHeld (governs : form.Governs held? inQuestion m ε)
    {clauses : List (Clause m ε V)} {depth : Nat} {pattern : Pattern} {index : Nat}
    {scope : Scope V} {go : V → ExceptT ε m V} {v : V} (asked : inQuestion v)
    (goes : ∀ item, held? v = some (some item) →
      interpretAfter .direct final clauses depth pattern index scope v = go item) :
    interpretAfter .direct final clauses depth pattern index scope v =
      onHeld form held? depth v go := by
  rw [onHeld]
  cases holds : held? v with
  | none => exact interpretAfter_unsupported governs asked holds ..
  | some held =>
    cases held with
    | none => exact interpretAfter_absent governs asked holds ..
    | some item => exact goes item holds

/-- **The clauses after a generator, on an item**: it is bound, and the walk goes on. The
guards all match it again, with the same outcome. -/
theorem interpretAfter_item (governs : form.Governs held? inQuestion m ε) {v item : V}
    (asked : inQuestion v) (holds : held? v = some (some item)) {clauses : List (Clause m ε V)}
    {depth : Nat} {pattern : Pattern} {scope : Scope V}
    (supplied : ∀ inner, pattern.extend depth item scope = .ok inner →
      Supplied held? inQuestion clauses (depth + 1) inner) (index : Nat) :
    interpretAfter .direct final clauses depth pattern index scope v = (do
      let inner ← Fault.lift (pattern.extend depth item scope)
      straightLine form held? final clauses (depth + 1) inner) := by
  induction clauses generalizing depth pattern index scope v item with
  | nil =>
    rw [interpretAfter, resolve_optional governs asked holds, lift_ok_bind,
      form.direct_map_present, bind_assoc]
    rfl
  | cons c rest ih =>
    cases c with
    | guard predicate =>
      rw [interpretAfter, resolve_optional governs asked holds, lift_ok_bind,
        form.direct_filter_present]
      cases entry : pattern.extend depth item scope with
      | error fault => simp only [lift_error_bind_eq]
      | ok inner =>
        rw [lift_ok_bind, lift_ok_bind, bind_assoc, straightLine_guard]
        refine (supplied inner entry).congr fun keep supplied => ?_
        rw [pure_bind]
        cases keep with
        | false => exact interpretAfter_absent governs governs.absent governs.held_absent ..
        | true =>
          -- the item is matched again, and enters the same scope
          have again : ∀ inner', pattern.extend depth item scope = .ok inner' →
              Supplied held? inQuestion rest (depth + 1) inner' := by
            intro inner' entry'
            cases entry.symm.trans entry'
            exact supplied rfl
          refine (ih (governs.present item) (governs.held_present item) again (index + 1)).trans ?_
          rw [entry, lift_ok_bind]
          rfl
    | generator next source =>
      rw [interpretAfter, resolve_optional governs asked holds, lift_ok_bind,
        form.direct_flatMap_present]
      refine lift_bind_congr fun inner entry => ?_
      rw [straightLine_generator]
      refine (supplied inner entry).congr ?_
      rintro w ⟨asked, supplied⟩
      exact interpretAfter_eq_onHeld governs asked fun item held =>
        ih asked held (fun inner => supplied item inner held) 0

/-- A compiled chain over optional values is the walk over its clauses. -/
theorem evaluate_optional (governs : form.Governs held? inQuestion m ε) {s : Sequence m ε V}
    {chain : Chain m ε V} (compiled : s.compile final = .ok chain)
    (respects : ∀ c ∈ s.clauses, c.RespectsReads) (respectsFinal : final.RespectsReads)
    (supplied : Supplied held? inQuestion s.clauses 0 s.environment) :
    chain.evaluate .direct = straightLine form held? final s.clauses 0 s.environment := by
  rw [Sequence.clauses, Sequence.generators, List.flatMap_cons, Generator.clauses,
    List.cons_append] at supplied ⊢
  rw [evaluate_eq_interpretAfter compiled respects respectsFinal, straightLine_generator]
  refine supplied.congr ?_
  rintro v ⟨asked, supplied⟩
  exact interpretAfter_eq_onHeld governs asked fun item held =>
    interpretAfter_item governs asked held (fun inner => supplied item inner held) 0

end Simulation

/-! ### Calls written down -/

/-- Computations that also write down the indices of the closures they call. -/
abbrev Logging (m : Type → Type) : Type → Type := StateT (List Nat) m

/-- The expression, which first writes down an index. -/
def Expression.logged {α : Type} [Monad m] (index : Nat) (e : Expression m ε V α) :
    Expression (Logging m) ε V α where
  reads := e.reads
  label := e.label
  eval scope := ExceptT.mk do
    modify fun calls => calls ++ [index]
    StateT.lift (e.eval scope).run

/-- The clause with its expression writing down an index. -/
def Clause.logged [Monad m] (index : Nat) : Clause m ε V → Clause (Logging m) ε V
  | .generator pattern source => .generator pattern (source.logged index)
  | .guard predicate => .guard (predicate.logged index)

/-- The clauses, each writing down its own index, counted from the given one. -/
def numbered [Monad m] (index : Nat) (clauses : List (Clause m ε V)) :
    List (Clause (Logging m) ε V) :=
  (clauses.zipIdx index).map fun p => p.1.logged p.2

section Logged

variable [Monad m]

@[simp] theorem numbered_nil (index : Nat) :
    numbered index ([] : List (Clause m ε V)) = [] := rfl

@[simp] theorem numbered_cons (index : Nat) (c : Clause m ε V) (rest : List (Clause m ε V)) :
    numbered index (c :: rest) = c.logged index :: numbered (index + 1) rest := rfl

@[simp] theorem Clause.reads_logged (index : Nat) (c : Clause m ε V) :
    (c.logged index).reads = c.reads := by
  cases c <;> rfl

@[simp] theorem Clause.boundNames_logged (index : Nat) (c : Clause m ε V) :
    (c.logged index).boundNames = c.boundNames := by
  cases c <;> rfl

@[simp] theorem Clause.depthAfter_logged (index : Nat) (c : Clause m ε V) (depth : Nat) :
    (c.logged index).depthAfter depth = c.depthAfter depth := by
  cases c <;> rfl

theorem Expression.RespectsReads.logged {α : Type} {e : Expression m ε V α}
    (respects : e.RespectsReads) (index : Nat) : (e.logged index).RespectsReads := by
  intro s t agree
  simp only [Expression.logged, respects s t agree]

theorem respectsReads_numbered {clauses : List (Clause m ε V)}
    (respects : ∀ c ∈ clauses, c.RespectsReads) (index : Nat) :
    ∀ c ∈ numbered index clauses, c.RespectsReads := by
  intro c hc
  obtain ⟨⟨c, i⟩, mem, rfl⟩ := List.mem_map.mp hc
  have keeps := respects c (List.fst_mem_of_mem_zipIdx mem)
  cases c with
  | generator pattern source => exact keeps.logged i
  | guard predicate => exact keeps.logged i

/-- Writing calls down changes neither reads nor binders. -/
theorem wellScoped_numbered_iff {environment : Scope V} {final bound : List Name}
    {clauses : List (Clause m ε V)} (index : Nat) :
    Sequence.WellScoped environment final bound (numbered index clauses) ↔
      Sequence.WellScoped environment final bound clauses := by
  induction clauses generalizing bound index with
  | nil => rw [numbered_nil, Sequence.wellScoped_nil_iff, Sequence.wellScoped_nil_iff]
  | cons c rest ih =>
    rw [numbered_cons, Sequence.wellScoped_cons_iff, Sequence.wellScoped_cons_iff,
      Clause.reads_logged, Clause.boundNames_logged, ih]

theorem flatMap_boundNames_numbered (clauses : List (Clause m ε V)) (index : Nat) :
    (numbered index clauses).flatMap Clause.boundNames =
      clauses.flatMap Clause.boundNames := by
  induction clauses generalizing index with
  | nil => rfl
  | cons c rest ih =>
    rw [numbered_cons, List.flatMap_cons, List.flatMap_cons, Clause.boundNames_logged, ih]

/-- An expression that writes down an index does nothing else besides. -/
theorem run_logged [LawfulMonad m] {α : Type} (index : Nat) (e : Expression m ε V α)
    (scope : Scope V) (calls : List Nat) :
    ((e.logged index).eval scope).run.run calls =
      (fun answer => (answer, calls ++ [index])) <$> (e.eval scope).run := by
  simp [Expression.logged]

end Logged

/-- It gives the same values. -/
theorem Yields.logged [Monad m] [LawfulMonad m] {α : Type} {e : Expression m ε V α}
    {scope : Scope V} {holds : α → Prop} (yields : Yields (e.eval scope) holds) (index : Nat) :
    Yields ((e.logged index).eval scope) holds := by
  obtain ⟨outcomes, gives⟩ := yields
  refine ⟨ExceptT.mk do
    modify fun calls => calls ++ [index]
    StateT.lift outcomes.run, ?_⟩
  apply ExceptT.ext
  apply StateT.ext
  intro calls
  rw [run_logged, gives, ExceptT.run_map, ExceptT.run_map, StateT.run_map, ExceptT.run_mk]
  simp

/-- So the sources give values in question also when calls are written down. -/
theorem Supplied.numbered [Monad m] [LawfulMonad m] [Splittable V] {held? : V → Option (Option V)}
    {inQuestion : V → Prop} {clauses : List (Clause m ε V)} {depth : Nat} {scope : Scope V}
    (supplied : Supplied held? inQuestion clauses depth scope) (index : Nat) :
    Supplied held? inQuestion (numbered index clauses) depth scope := by
  induction clauses generalizing depth scope index with
  | nil => trivial
  | cons c rest ih =>
    cases c with
    | guard predicate =>
      refine (supplied.logged index).mono fun keep supplied holds => ?_
      exact ih (supplied holds) (index + 1)
    | generator pattern source =>
      refine (supplied.logged index).mono ?_
      rintro v ⟨asked, supplied⟩
      refine ⟨asked, fun item inner held entry => ?_⟩
      exact ih (supplied item inner held entry) (index + 1)

section Counting

variable [Monad m] [LawfulMonad m] [OfFault ε] [Splittable V] (form : OptionalForm V)
  (held? : V → Option (Option V)) (final : Expression m ε V V)

/-- **A clause calls its closure once**: what it writes down is its index, however it
ends. -/
theorem run_step_logged (index depth : Nat) (scope : Scope V) (c : Clause m ε V)
    (calls : List Nat) :
    ((c.logged index).step held? depth scope).run.run calls =
      (fun answer => (answer, calls ++ [index])) <$> (c.step held? depth scope).run := by
  cases c with
  | guard predicate =>
    rw [Clause.logged, Clause.step, Clause.step, ExceptT.run_bind, StateT.run_bind, run_logged,
      bind_map_left, ExceptT.run_bind, map_bind]
    refine bind_congr fun answer => ?_
    cases answer with
    | error e => simp
    | ok keep => simp
  | generator pattern source =>
    rw [Clause.logged, Clause.step, Clause.step, ExceptT.run_bind, StateT.run_bind, run_logged,
      bind_map_left, ExceptT.run_bind, map_bind]
    refine bind_congr fun answer => ?_
    cases answer with
    | error e => simp
    | ok v =>
      cases held : held? v with
      | none => simp [held, Fault.lift]
      | some inside =>
        cases inside with
        | none => simp [held]
        | some item =>
          cases entry : pattern.extend depth item scope with
          | error fault => simp [held, entry, Fault.lift]
          | ok inner => simp [held, entry, Fault.lift]

/-- Counting changes no outcome. -/
theorem run_straightLine (clauses : List (Clause m ε V)) (depth : Nat) (scope : Scope V) :
    (straightLine form held? final clauses depth scope).run =
      Prod.fst <$> counting form held? final clauses depth scope := by
  induction clauses generalizing depth scope with
  | nil =>
    rw [straightLine, counting, ExceptT.run_bind, map_bind]
    refine bind_congr fun answer => ?_
    cases answer with
    | error e => simp [Except.map]
    | ok v => simp [Except.map]
  | cons c rest ih =>
    rw [straightLine, counting, ExceptT.run_bind, map_bind]
    refine bind_congr fun answer => ?_
    cases answer with
    | error e => simp
    | ok next =>
      cases next with
      | none => simp
      | some inner => simp [ih]

/-- **The calls are those of the first clauses, in order**: a walk whose closures write
down their indices writes down as many as it has called, one after the other. -/
theorem run_straightLine_logged (clauses : List (Clause m ε V)) (depth : Nat) (scope : Scope V)
    (index : Nat) (calls : List Nat) :
    (straightLine form held? (final.logged (index + clauses.length)) (numbered index clauses)
        depth scope).run.run calls =
      (fun walked => (walked.1, calls ++ List.range' index walked.2)) <$>
        counting form held? final clauses depth scope := by
  induction clauses generalizing depth scope index calls with
  | nil =>
    rw [numbered_nil, straightLine, counting, ExceptT.run_bind, StateT.run_bind, run_logged,
      bind_map_left, map_bind]
    refine bind_congr fun answer => ?_
    cases answer with
    | error e => simp [Except.map]
    | ok v => simp [Except.map]
  | cons c rest ih =>
    rw [numbered_cons, straightLine, counting, ExceptT.run_bind, StateT.run_bind,
      run_step_logged, bind_map_left, map_bind]
    refine bind_congr fun answer => ?_
    cases answer with
    | error e => simp
    | ok next =>
      cases next with
      | none => simp
      | some inner =>
        have walked := ih (c.depthAfter depth) inner (index + 1) (calls ++ [index])
        rw [Nat.add_right_comm, Nat.add_assoc] at walked
        simp only [List.append_assoc, List.singleton_append, ← List.range'_succ] at walked
        simp [walked]

end Counting

/-! ### Compiled chains -/

/-- The clauses of a sequence are accepted again when their calls are written down. -/
theorem exists_ofClauses_numbered [Monad m] (s : Sequence m ε V) (environment : Scope V) :
    ∃ logged, Sequence.ofClauses (numbered 0 s.clauses) environment = .ok logged := by
  have distinct := s.nodup_boundBy
  rw [← flatMap_boundNames_clauses, ← flatMap_boundNames_numbered _ 0] at distinct
  exact Sequence.exists_ofClauses distinct environment

/-- **Comprehensions over optional values are straight-line programs.** Take values among
which some, the optional ones included, offer the operations of optional values or none at
all, and a comprehension that compiles, with closures that keep to their declared reads;
they may fail and have effects. Wherever the walk comes, let sources give such values; other
values may offer what they like. If there are no others, that asks for nothing
(`supplied_of_forall`). Evaluating the chain is walking the clauses in order: each clause
calls its closure in the scope bound so far, and the walk stops at the first error, absent
value or false guard. If every closure writes down its index, the clauses are accepted and
compile again, and what the run writes down is `0`, `1` and so on up to the last closure
called: each is called at most once, in the order of the clauses, and none after the
stop. -/
theorem evaluate_eq_straightLine [Monad m] [LawfulMonad m] [OfFault ε] [Splittable V]
    [Capable m ε V] [Capable (Logging m) ε V] {form : OptionalForm V}
    {held? : V → Option (Option V)} {inQuestion : V → Prop}
    (governs : form.Governs held? inQuestion m ε)
    (governsLogging : form.Governs held? inQuestion (Logging m) ε) {s : Sequence m ε V}
    {final : Expression m ε V V} {chain : Chain m ε V} (compiled : s.compile final = .ok chain)
    (respects : ∀ c ∈ s.clauses, c.RespectsReads) (respectsFinal : final.RespectsReads)
    (supplied : Supplied held? inQuestion s.clauses 0 s.environment) :
    chain.evaluate .direct = straightLine form held? final s.clauses 0 s.environment ∧
      (chain.evaluate .direct).run =
        Prod.fst <$> counting form held? final s.clauses 0 s.environment ∧
      ∃ logged chain', Sequence.ofClauses (numbered 0 s.clauses) s.environment = .ok logged ∧
        logged.compile (final.logged s.clauses.length) = .ok chain' ∧
        (chain'.evaluate .direct).run.run [] =
          (fun walked => (walked.1, List.range walked.2)) <$>
            counting form held? final s.clauses 0 s.environment := by
  have walks := evaluate_optional governs compiled respects respectsFinal supplied
  refine ⟨walks, by rw [walks, run_straightLine], ?_⟩
  obtain ⟨logged, accepted⟩ := exists_ofClauses_numbered s s.environment
  obtain ⟨clauses, environment⟩ := of_ofClauses accepted
  have wellScoped : Sequence.WellScoped logged.environment (final.logged s.clauses.length).reads
      [] logged.clauses := by
    rw [clauses, environment]
    exact (wellScoped_numbered_iff 0).mpr (wellScoped_of_compile compiled)
  have compiled' := compile_eq_ok_iff.mpr ⟨wellScoped, rfl⟩
  have respects' : ∀ c ∈ logged.clauses, c.RespectsReads := by
    rw [clauses]
    exact respectsReads_numbered respects 0
  have supplied' : Supplied held? inQuestion logged.clauses 0 logged.environment := by
    rw [clauses, environment]
    exact supplied.numbered 0
  refine ⟨logged, _, accepted, compiled', ?_⟩
  have calls := run_straightLine_logged form held? final s.clauses 0 s.environment 0 []
  rw [Nat.zero_add] at calls
  rw [evaluate_optional governsLogging compiled' respects' (respectsFinal.logged _) supplied',
    clauses, environment, calls]
  simp only [List.nil_append, List.range_eq_range']

namespace Sample

/-- Numbers, optional values and lists. -/
inductive Cell where
  | number (n : Nat)
  | just (cell : Cell)
  | nothing
  | list (cells : List Cell)

/-- Cells stand for optional values. -/
def cells : OptionalForm Cell where
  present := .just
  absent := .nothing

/-- What a cell holds as an optional value. -/
def heldBy : Cell → Option (Option Cell)
  | .number _ => none
  | .just cell => some (some cell)
  | .nothing => some none
  | .list _ => none

/-- Lists of cells have operations of their own. -/
def cellLists : ListForm Fault Cell where
  pack := .list
  unpack?
    | .list cells => some cells
    | _ => none
  refuse _ := .invalidContinuation .flatMap

instance : Splittable Cell where

instance {m : Type → Type} [Monad m] : Capable m Fault Cell where
  operations
    | .list items => some (cellLists.operations items)
    | cell => (heldBy cell).map cells.operations

theorem governs_cells {m : Type → Type} [Monad m] :
    cells.Governs heldBy (fun cell => cellLists.unpack? cell = none) m Fault where
  present _ := rfl
  absent := rfl
  held_present _ := rfl
  held_absent := rfl
  operations cell asked := by
    cases cell with
    | list items => cases asked
    | number n => rfl
    | just cell => rfl
    | nothing => rfl

/-- Two numbers, the first at most the second. -/
def ascendingCells : List Cell → Bool
  | [.number a, .number b] => a ≤ b
  | _ => false

/-- The sequence of `x <- a, x ≤ k, y <- b`, where `b` is a list. -/
def optional : Sequence Id Fault Cell where
  first := ⟨.name ⟨"x"⟩, .ofName ⟨"a"⟩, [.onReads [⟨"x"⟩, ⟨"k"⟩] ascendingCells]⟩
  rest := [⟨.name ⟨"y"⟩, .ofName ⟨"b"⟩, []⟩]
  environment := .ofList
    [(⟨"a"⟩, .just (.number 3)), (⟨"b"⟩, .list [.number 4]), (⟨"k"⟩, .number 2)]
  distinct := by decide

/-- The walk does not come to the list, as the guard before it is false. -/
theorem supplied_optional : Supplied heldBy (fun cell => cellLists.unpack? cell = none)
    optional.clauses 0 optional.environment := by
  show Yields (pure (Cell.just (.number 3)) : ExceptT Fault Id Cell) _
  refine Yields.pure ⟨rfl, fun item inner held entry => ?_⟩
  cases held
  cases entry
  show Yields (pure false : ExceptT Fault Id Bool) _
  exact Yields.pure nofun

end Sample

/-- The guard is false, so the source after it and the final expression are not called. -/
theorem sample_straightLine :
    ∃ chain, Sample.optional.compile (.ofName ⟨"y"⟩) = .ok chain ∧
      chain.evaluate .direct = pure Sample.Cell.nothing ∧
      ∃ logged chain', Sequence.ofClauses (numbered 0 Sample.optional.clauses)
          Sample.optional.environment = .ok logged ∧
        logged.compile (Expression.logged 3 (.ofName ⟨"y"⟩)) = .ok chain' ∧
        (chain'.evaluate .direct).run.run [] = pure (.ok .nothing, [0, 1]) := by
  have respects : ∀ c ∈ Sample.optional.clauses, c.RespectsReads := by
    rw [show Sample.optional.clauses = [.generator (.name ⟨"x"⟩) (.ofName ⟨"a"⟩),
      .guard (.onReads [⟨"x"⟩, ⟨"k"⟩] Sample.ascendingCells),
      .generator (.name ⟨"y"⟩) (.ofName ⟨"b"⟩)] from rfl]
    simp only [List.forall_mem_cons, Clause.RespectsReads]
    exact ⟨Expression.respectsReads_ofName _, Expression.respectsReads_onReads _ _,
      Expression.respectsReads_ofName _, List.forall_mem_nil _⟩
  obtain ⟨walks, -, logged, chain', accepted, compiled, calls⟩ :=
    evaluate_eq_straightLine Sample.governs_cells Sample.governs_cells
      (rfl : Sample.optional.compile (.ofName ⟨"y"⟩) = .ok _) respects
      (Expression.respectsReads_ofName _) Sample.supplied_optional
  exact ⟨_, rfl, walks.trans rfl, logged, chain', accepted, compiled, calls.trans rfl⟩

end Comprehension
