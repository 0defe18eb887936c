/-
Where the faults of a run come from.

A run of a compiled chain meets errors of four kinds: those of the closures, those of the
operations, and two that the evaluation itself raises, for a value without operations and
for an element that does not fit its pattern. Operations pass on the errors of their
continuations, from any depth, so an error is judged by what can have raised it and not by
where it comes out.

* `Raises`: the errors that a computation can end with, and how they arise in a sequence
  of two.
* `Pattern.exists_tuple_of_walk`: a match is stopped by a tuple of the pattern.
* `Sequence.Explains`: the faults that a sequence can be blamed for.
* `explains_of_evaluate`: no other fault comes out of a run.
-/

import Comprehension.Proofs.Calls

namespace Comprehension

variable {m : Type → Type} {ε V : Type}

/-! ### The errors of a computation -/

section Raises

variable [Monad m] [MonadAttach m] {α β : Type}

/-- The computation can end with this error. -/
def Raises (x : ExceptT ε m α) (e : ε) : Prop := MonadAttach.CanReturn x.run (.error e)

/-- The continuation can end with this error, on some element. -/
def Continuation.Raises : Continuation m ε V → ε → Prop
  | .body run, e => ∃ element, Comprehension.Raises (run element) e
  | .predicate test, e => ∃ element, Comprehension.Raises (test element) e

variable [LawfulMonad m] [LawfulMonadAttach m]

theorem not_raises_pure (a : α) (e : ε) : ¬ Raises (pure a : ExceptT ε m α) e := by
  intro raised
  cases LawfulMonadAttach.eq_of_canReturn_pure raised

/-- An error of a sequence of two is an error of the first or of the second. -/
theorem Raises.of_bind {x : ExceptT ε m α} {k : α → ExceptT ε m β} {e : ε}
    (raised : Raises (x >>= k) e) : Raises x e ∨ ∃ a, Raises (k a) e := by
  rw [Raises, ExceptT.run_bind] at raised
  obtain ⟨answer, returned, after⟩ := LawfulMonadAttach.canReturn_bind_imp' raised
  cases answer with
  | error e' =>
    cases LawfulMonadAttach.eq_of_canReturn_pure after
    exact .inl returned
  | ok a => exact .inr ⟨a, after⟩

/-- A check raises its own fault. -/
theorem Raises.of_lift [OfFault ε] {x : Except Fault α} {e : ε}
    (raised : Raises (Fault.lift x : ExceptT ε m α) e) :
    ∃ fault, x = .error fault ∧ e = OfFault.ofFault fault := by
  cases x with
  | error fault =>
    cases LawfulMonadAttach.eq_of_canReturn_pure raised
    exact ⟨fault, rfl, rfl⟩
  | ok a => exact absurd raised (not_raises_pure a e)

/-- An error after a check is the fault of the check or an error of what follows it. -/
theorem Raises.of_lift_bind [OfFault ε] {x : Except Fault α} {k : α → ExceptT ε m β} {e : ε}
    (raised : Raises (Fault.lift x >>= k) e) :
    (∃ fault, x = .error fault ∧ e = OfFault.ofFault fault) ∨ ∃ a, x = .ok a ∧ Raises (k a) e := by
  cases x with
  | error fault =>
    rw [lift_error_bind_eq] at raised
    obtain ⟨_, failed, same⟩ := raised.of_lift
    cases failed
    exact .inl ⟨fault, rfl, same⟩
  | ok a =>
    rw [lift_ok_bind] at raised
    exact .inr ⟨a, rfl, raised⟩

end Raises

/-! ### Where a match stops -/

namespace Pattern

/-- A pattern that stands somewhere in another, or is it. -/
inductive Within : Pattern → Pattern → Prop where
  | refl (p : Pattern) : Within p p
  | part {p q : Pattern} {parts : List Pattern} : q ∈ parts → Within p q → Within p (.tuple parts)

variable [Splittable V]

mutual

/-- **A walk stops at a tuple of its pattern**, and names the number of its parts. -/
theorem exists_tuple_of_walk {p : Pattern} {v : V} {k : Nat} (stopped : (walk p v).2 = some k) :
    ∃ parts : List Pattern, parts.length = k ∧ Within (.tuple parts) p := by
  match p with
  | .name n => cases stopped
  | .wildcard => cases stopped
  | .tuple ps =>
    cases split : parts? v ps.length with
    | none =>
      simp only [walk, split, Option.some.injEq] at stopped
      exact ⟨ps, stopped, .refl _⟩
    | some vs =>
      simp only [walk, split] at stopped
      obtain ⟨q, mem, parts, length, within⟩ := exists_tuple_of_walkAll stopped
      exact ⟨parts, length, .part mem within⟩

theorem exists_tuple_of_walkAll {ps : List Pattern} {vs : List V} {k : Nat}
    (stopped : (walkAll ps vs).2 = some k) :
    ∃ q ∈ ps, ∃ parts : List Pattern, parts.length = k ∧ Within (.tuple parts) q := by
  match ps, vs with
  | [], _ => cases stopped
  | _ :: _, [] => cases stopped
  | p :: ps, v :: vs =>
    rcases walked : walk p v with ⟨pairs, _ | j⟩
    · simp only [walkAll, walked] at stopped
      obtain ⟨q, mem, found⟩ := exists_tuple_of_walkAll stopped
      exact ⟨q, List.mem_cons_of_mem _ mem, found⟩
    · simp only [walkAll, walked] at stopped
      have here : (walk p v).2 = some k := by rw [walked]; exact stopped
      exact ⟨p, List.mem_cons_self, exists_tuple_of_walk here⟩

end

/-- A match fails with the depth it was given and the size of a tuple of the pattern. -/
theorem exists_tuple_of_extend {depth : Nat} {p : Pattern} {v : V} {s : Scope V} {fault : Fault}
    (failed : p.extend depth v s = .error fault) :
    ∃ parts : List Pattern, Within (.tuple parts) p ∧
      fault = .patternMismatch parts.length depth := by
  rw [extend_eq] at failed
  rcases walked : walk p v with ⟨pairs, _ | k⟩
  · rw [walked] at failed
    cases failed
  · rw [walked] at failed
    have stopped : (walk p v).2 = some k := by rw [walked]
    obtain ⟨parts, rfl, within⟩ := exists_tuple_of_walk stopped
    exact ⟨parts, within, (Except.error.inj failed).symm⟩

end Pattern

/-! ### What each part may raise -/

/-- The errors of a caller: faults of the library, and errors of the caller's own. -/
inductive CallerError (D : Type) where
  | fault (fault : Fault)
  | domain (error : D)

instance {D : Type} : OfFault (CallerError D) := ⟨.fault⟩

/-- The faults that a run of the sequence can be blamed for: a value without operations at
one of its generators, a value without `filter` at a generator that has a guard, and an
element that does not split into the parts of a tuple in its generator's pattern. -/
def Sequence.Explains (s : Sequence m ε V) : Fault → Prop
  | .unsupportedValue depth => depth < s.generatorCount
  | .missingCapability capability depth =>
      capability = .filter ∧ ∃ g, s.generators[depth]? = some g ∧ g.guards ≠ []
  | .patternMismatch expected depth =>
      ∃ g, s.generators[depth]? = some g ∧
        ∃ parts : List Pattern, parts.length = expected ∧ Pattern.Within (.tuple parts) g.pattern
  | .malformed _ => False
  | .invalidContinuation _ => False
  | .unboundName _ => False

section Closures

variable {D α : Type} [Monad m] [MonadAttach m]

/-- The expression raises errors of the caller's own only, or the fault of looking up one
of its declared reads. -/
def Expression.RaisesOwn (e : Expression m (CallerError D) V α) : Prop :=
  ∀ scope error, Raises (e.eval scope) error → (∃ own, error = .domain own) ∨
    ∃ n ∈ e.reads, ∃ fault, scope.lookup n = .error fault ∧ error = .fault fault

def Clause.RaisesOwn : Clause m (CallerError D) V → Prop
  | .generator _ source => source.RaisesOwn
  | .guard predicate => predicate.RaisesOwn

/-- Each operation, called with a continuation of its kind, raises errors of the caller's
own only, or errors of the continuation. -/
def Operations.Relays (ops : Operations m (CallerError D) V) : Prop :=
  ∀ site capability k error, k.accepts capability = true → ops.offers capability = true →
    Raises (ops.invoke site capability k) error → (∃ own, error = .domain own) ∨ k.Raises error

omit [Monad m] in
/-- Where all its declared reads are bound, the expression raises the caller's errors only. -/
theorem Expression.RaisesOwn.domain {e : Expression m (CallerError D) V α} (own : e.RaisesOwn)
    {scope : Scope V} (bound : ∀ n ∈ e.reads, n ∈ scope.names) {error : CallerError D}
    (raised : Raises (e.eval scope) error) : ∃ own, error = .domain own := by
  rcases own scope error raised with domain | ⟨n, read, fault, failed, -⟩
  · exact domain
  · obtain ⟨v, found⟩ := Scope.mem_names_iff.mp (bound n read)
    rw [Scope.lookup, found] at failed
    cases failed

end Closures

/-- An error that the sequence allows: one of the caller's own, or a fault it explains. -/
def Sequence.Allows {D : Type} (s : Sequence m ε V) : CallerError D → Prop
  | .fault fault => s.Explains fault
  | .domain _ => True

section Runs

variable {D : Type} [Monad m] [LawfulMonad m] [MonadAttach m] [LawfulMonadAttach m] [Splittable V]
  [Capable m (CallerError D) V] {s : Sequence m (CallerError D) V}
  {final : Expression m (CallerError D) V V} {chain : Chain m (CallerError D) V}

omit [Monad m] [LawfulMonad m] [MonadAttach m] [LawfulMonadAttach m]
  [Capable m (CallerError D) V] in
/-- The source of an entered stage finds its declared reads in the scope around. -/
theorem reads_bound_of_entered (compiled : s.compile final = .ok chain)
    {st : Stage m (CallerError D) V} {outer : Scope V} (entered : chain.Entered st outer) :
    ∀ n ∈ st.source.reads, n ∈ outer.names := by
  cases entered with
  | root =>
    intro n read
    rw [root_of_compile compiled, Sequence.source_stage] at read
    rw [names_entry_of_compile compiled]
    exact List.mem_eraseDups.mpr read
  | @next _ _ _ _ next node entered terminal entry =>
    exact ((delivers_of_entered compiled entered entry).2.1 next node terminal).2.2

/-- **One node.** Its call and what follows raise only allowed errors if its continuation
and what follows do. -/
theorem allows_of_layer (compiled : s.compile final = .ok chain)
    (relays : ∀ v (ops : Operations m (CallerError D) V), Capable.operations v = some ops →
      ops.Relays) {st : Stage m (CallerError D) V} {outer : Scope V}
    (entered : chain.Entered st outer) {i : Nat} {node : Node m (CallerError D) V}
    (layer : st.node.layers[i]? = some node)
    (inside : ∀ error, (node.continuation .direct st.toFrame (st.capture outer)).Raises error →
      s.Allows error)
    (follows : ∀ answer error,
      Raises (node.proceed .direct st.toFrame (st.capture outer) answer) error → s.Allows error)
    {v : V} {error : CallerError D}
    (raised : Raises (node.run .direct st.toFrame (st.capture outer) v) error) :
    s.Allows error := by
  obtain ⟨g, here, -⟩ := generator_of_entered compiled entered
  rw [Node.run_eq_call] at raised
  rcases raised.of_lift_bind with ⟨fault, unresolved, rfl⟩ | ⟨ops, resolved, raised⟩
  · -- the value has no operations
    obtain ⟨-, rfl⟩ := Operations.resolve_eq_error_iff.mp unresolved
    exact (List.getElem?_eq_some_iff.mp here).1
  rcases raised.of_bind with call | ⟨answer, after⟩
  · cases offered : ops.offers node.kind with
    | true =>
      have offers := Operations.resolve_eq_ok_iff.mp resolved
      have accepted := node.accepts_continuation .direct st.toFrame (st.capture outer)
      rcases relays v ops offers _ _ _ _ accepted offered call with ⟨own, rfl⟩ | passed
      · trivial
      · exact inside error passed
    | false =>
      obtain ⟨kind, missing⟩ := Operations.eq_filter_of_not_offers offered
      rw [Handler.direct, kind, Operations.invoke_of_missing missing] at call
      obtain ⟨_, failed, rfl⟩ := call.of_lift
      cases failed
      cases layer_of_entered compiled entered here layer with
      | filter found =>
        refine ⟨rfl, g, here, fun none => ?_⟩
        rw [none] at found
        cases found
      | map last => cases kind
      | flatMap more => cases kind
  · exact follows answer error after

omit [Capable m (CallerError D) V] in
/-- An element that does not fit raises an allowed error; the rest is up to what follows. -/
theorem allows_of_enter (compiled : s.compile final = .ok chain)
    {st : Stage m (CallerError D) V} {outer : Scope V} (entered : chain.Entered st outer)
    {α : Type} {element : V} {k : Scope V → ExceptT (CallerError D) m α} {error : CallerError D}
    (raised : Raises (Fault.lift (st.enter (st.capture outer) element) >>= k) error)
    (follows : ∀ scope, st.enter (st.capture outer) element = .ok scope →
      Raises (k scope) error → s.Allows error) : s.Allows error := by
  rcases raised.of_lift_bind with ⟨fault, failed, rfl⟩ | ⟨scope, entry, raised⟩
  · obtain ⟨g, here, pattern, -⟩ := generator_of_entered compiled entered
    obtain ⟨parts, within, rfl⟩ := Pattern.exists_tuple_of_extend failed
    rw [pattern] at within
    exact ⟨g, here, parts, rfl, within⟩
  · exact follows scope entry raised

/-- A stage raises only allowed errors if its nodes do: its source has its reads. -/
theorem allows_of_stage (compiled : s.compile final = .ok chain)
    (closures : ∀ c ∈ s.clauses, c.RaisesOwn) {st : Stage m (CallerError D) V} {outer : Scope V}
    (entered : chain.Entered st outer) {error : CallerError D}
    (raised : Raises (st.run .direct outer) error)
    (nodes : ∀ v, Raises (st.node.run .direct st.toFrame (st.capture outer) v) error →
      s.Allows error) : s.Allows error := by
  rcases raised.of_bind with failed | ⟨v, raised⟩
  · have own : st.source.RaisesOwn := closures _ (source_mem_clauses compiled entered)
    obtain ⟨domain, rfl⟩ := own.domain (reads_bound_of_entered compiled entered) failed
    trivial
  · exact nodes v raised

/-- The nodes of an entered stage raise only allowed errors. -/
theorem allows_of_entered (compiled : s.compile final = .ok chain)
    (relays : ∀ v (ops : Operations m (CallerError D) V), Capable.operations v = some ops →
      ops.Relays) (closures : ∀ c ∈ s.clauses, c.RaisesOwn) (closing : final.RaisesOwn)
    {st : Stage m (CallerError D) V} {outer : Scope V} (entered : chain.Entered st outer) {v : V}
    {error : CallerError D}
    (raised : Raises (st.node.run .direct st.toFrame (st.capture outer) v) error) :
    s.Allows error := by
  refine entered.layers_induction (motive := fun st outer _ node => ∀ v error,
    Raises (node.run .direct st.toFrame (st.capture outer) v) error → s.Allows error)
    ?_ ?_ ?_ v error raised
  · intro st outer i body entered layer v error raised
    refine allows_of_layer compiled relays entered layer ?_ ?_ raised
    · rintro error ⟨element, raised⟩
      refine allows_of_enter compiled entered raised fun scope entry failed => ?_
      have terminal := Node.terminal_of_mem_layers rfl (List.mem_of_getElem? layer)
      have delivers := (delivers_of_entered compiled entered entry).2.2 body terminal
      cases eq_final_of_layer compiled entered layer
      obtain ⟨domain, rfl⟩ := closing.domain delivers.2.2 failed
      trivial
    · intro answer error raised
      exact absurd raised (not_raises_pure answer error)
  · intro st outer i next node entered layer inside v error raised
    refine allows_of_layer compiled relays entered layer ?_ ?_ raised
    · rintro error ⟨element, raised⟩
      refine allows_of_enter compiled entered raised fun scope entry raised => ?_
      obtain ⟨entered', ih⟩ := inside element scope entry
      exact allows_of_stage compiled closures entered' raised fun w => ih w error
    · intro answer error raised
      exact absurd raised (not_raises_pure answer error)
  · intro st outer i guard predicate node entered layer ih v error raised
    refine allows_of_layer compiled relays entered layer ?_ ih raised
    rintro error ⟨element, raised⟩
    refine allows_of_enter compiled entered raised fun scope entry failed => ?_
    have mem := Node.mem_filters_of_mem_layers (List.mem_of_getElem? layer)
    have delivers := (delivers_of_entered compiled entered entry).1 predicate guard mem
    have own : predicate.RaisesOwn := closures _ (guard_mem_clauses compiled entered layer)
    obtain ⟨domain, rfl⟩ := own.domain delivers.2.2 failed
    trivial

end Runs

/-- **The faults that come out of a run.** Take errors that are faults of the library or
errors of the caller's own, a comprehension that compiles, operations that raise only the
caller's errors and those of their continuations, and closures that raise only the caller's
errors and the fault of looking up a declared read. A fault that evaluating the chain can
end with is a value without operations at one of the generators, a value without `filter`
at a generator that has a guard, or an element that does not split into the parts of a
tuple in the pattern of its generator. No malformed sequence, wrong continuation, unbound
name or other missing operation is ever reported. -/
theorem explains_of_evaluate {D : Type} [Monad m] [LawfulMonad m] [MonadAttach m]
    [LawfulMonadAttach m] [Splittable V] [Capable m (CallerError D) V]
    {s : Sequence m (CallerError D) V} {final : Expression m (CallerError D) V V}
    {chain : Chain m (CallerError D) V} (compiled : s.compile final = .ok chain)
    (relays : ∀ v (ops : Operations m (CallerError D) V), Capable.operations v = some ops →
      ops.Relays) (closures : ∀ c ∈ s.clauses, c.RaisesOwn) (closing : final.RaisesOwn)
    {fault : Fault} (raised : Raises (chain.evaluate .direct) (.fault fault)) :
    s.Explains fault :=
  allows_of_stage compiled closures .root raised fun _ =>
    allows_of_entered compiled relays closures closing .root

/-! ### Lists relay errors -/

section Lists

variable {D : Type} [Monad m] [LawfulMonad m] [MonadAttach m] [LawfulMonadAttach m]

theorem Raises.of_mapItems {body : V → ExceptT ε m V} {items : List V} {e : ε}
    (raised : Raises (ListForm.mapItems body items) e) : ∃ element, Raises (body element) e := by
  induction items with
  | nil => exact absurd raised (not_raises_pure _ _)
  | cons item rest ih =>
    rcases raised.of_bind with here | ⟨w, raised⟩
    · exact ⟨item, here⟩
    · rcases raised.of_bind with later | ⟨ws, raised⟩
      · exact ih later
      · exact absurd raised (not_raises_pure _ _)

theorem Raises.of_keepItems {test : V → ExceptT ε m Bool} {items : List V} {e : ε}
    (raised : Raises (ListForm.keepItems test items) e) : ∃ element, Raises (test element) e := by
  induction items with
  | nil => exact absurd raised (not_raises_pure _ _)
  | cons item rest ih =>
    rcases raised.of_bind with here | ⟨keep, raised⟩
    · exact ⟨item, here⟩
    · rcases raised.of_bind with later | ⟨vs, raised⟩
      · exact ih later
      · exact absurd raised (not_raises_pure _ _)

theorem Raises.of_joinItems {form : ListForm ε V} {body : V → ExceptT ε m V} {items : List V}
    {e : ε} (raised : Raises (form.joinItems body items) e) :
    (∃ w, e = form.refuse w) ∨ ∃ element, Raises (body element) e := by
  induction items with
  | nil => exact absurd raised (not_raises_pure _ _)
  | cons item rest ih =>
    rcases raised.of_bind with here | ⟨w, raised⟩
    · exact .inr ⟨item, here⟩
    · split at raised
      · rcases raised.of_bind with later | ⟨ws, raised⟩
        · exact ih later
        · exact absurd raised (not_raises_pure _ _)
      · cases LawfulMonadAttach.eq_of_canReturn_pure raised
        exact .inl ⟨w, rfl⟩

/-- The operations of lists relay errors, if values that are no lists are refused with an
error of the caller's own. -/
theorem ListForm.relays_operations {form : ListForm (CallerError D) V}
    (refuses : ∀ w, ∃ own, form.refuse w = .domain own) (items : List V) :
    (form.operations items : Operations m (CallerError D) V).Relays := by
  intro site capability k error accepted offered raised
  cases k with
  | body run =>
    cases capability with
    | map =>
      rcases raised.of_bind with inside | ⟨ws, raised⟩
      · exact .inr inside.of_mapItems
      · exact absurd raised (not_raises_pure _ _)
    | flatMap =>
      rcases raised.of_bind with inside | ⟨ws, raised⟩
      · rcases inside.of_joinItems with ⟨w, rfl⟩ | passed
        · exact .inl (refuses w)
        · exact .inr passed
      · exact absurd raised (not_raises_pure _ _)
    | filter => cases accepted
  | predicate test =>
    cases capability with
    | map => cases accepted
    | flatMap => cases accepted
    | filter =>
      rcases raised.of_bind with inside | ⟨vs, raised⟩
      · exact .inr inside.of_keepItems
      · exact absurd raised (not_raises_pure _ _)

/-- Reading a name raises the fault of looking it up. -/
theorem Expression.raisesOwn_ofName (n : Name) :
    (Expression.ofName n : Expression m (CallerError D) V V).RaisesOwn := by
  intro scope error raised
  obtain ⟨fault, failed, rfl⟩ := Raises.of_lift raised
  exact .inr ⟨n, List.mem_cons_self, fault, failed, rfl⟩

end Lists

namespace Sample

/-- Rows stand for lists, and what is no row is refused with a word. -/
def wordedRows : ListForm (CallerError String) Item where
  pack := .row
  unpack? := rows.unpack?
  refuse _ := .domain "no row"

instance : Capable Id (CallerError String) Item where
  operations
    | .row items => some (wordedRows.operations items)
    | .number _ => none

/-- The sequence of `x <- xs, (y, z) <- pairs`, where one of the pairs is a number. -/
def unpaired : Sequence Id (CallerError String) Item where
  first := ⟨.name ⟨"x"⟩, .ofName ⟨"xs"⟩, []⟩
  rest := [⟨.tuple [.name ⟨"y"⟩, .name ⟨"z"⟩], .ofName ⟨"pairs"⟩, []⟩]
  environment := .ofList
    [(⟨"xs"⟩, .row [.number 1]),
      (⟨"pairs"⟩, .row [.row [.number 1, .number 10], .number 2])]
  distinct := by decide

end Sample

/-- The second pair does not split, inside the call of the outer generator. -/
theorem sample_explains :
    ∃ chain, Sample.unpaired.compile (.ofName ⟨"y"⟩) = .ok chain ∧
      Raises (chain.evaluate .direct) (.fault (.patternMismatch 2 1)) ∧
      Sample.unpaired.Explains (.patternMismatch 2 1) := by
  have relays : ∀ v (ops : Operations Id (CallerError String) Sample.Item),
      Capable.operations v = some ops → ops.Relays := by
    intro v ops offers
    cases v with
    | number n => cases offers
    | row items =>
      cases offers
      exact ListForm.relays_operations (fun _ => ⟨"no row", rfl⟩) items
  have closures : ∀ c ∈ Sample.unpaired.clauses, c.RaisesOwn := by
    rw [show Sample.unpaired.clauses = [.generator (.name ⟨"x"⟩) (.ofName ⟨"xs"⟩),
      .generator (.tuple [.name ⟨"y"⟩, .name ⟨"z"⟩]) (.ofName ⟨"pairs"⟩)] from rfl]
    simp only [List.forall_mem_cons, Clause.RaisesOwn]
    exact ⟨Expression.raisesOwn_ofName _, Expression.raisesOwn_ofName _, List.forall_mem_nil _⟩
  have compiled : Sample.unpaired.compile (.ofName ⟨"y"⟩) = .ok _ := rfl
  refine ⟨_, compiled, rfl, ?_⟩
  exact explains_of_evaluate compiled relays closures (Expression.raisesOwn_ofName _) rfl

end Comprehension
