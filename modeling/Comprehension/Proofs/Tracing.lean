/-
Tracing shows in the record and nowhere else.

A traced handler is part of every continuation that a run makes, so its events stand
inside the calls of the stages further out as well as around them. That they make no
difference is proved for any notion of agreement between computations that sequencing
keeps: if the operations, the closures and the handlers keep it, so do whole runs.

That is asked of the handler inside as of all others. A handler that looks at the record
sees the events in it, and a closure may take them out again (`sample_tracing_noticed`).

* `Agreement`: a relation between computations that is kept by sequencing, and what it is
  for operations, expressions and handlers to keep it.
* `Agreement.evaluate`: runs with related handlers are related.
* `Recording`: computations that keep a record, in which events stand beside all other
  effects.
* `run_iterate_traced`: what traced handlers do at one call, whatever is inside.
* `upToTracing`, `following`: agreement up to the events of traced handlers, and agreement
  along a translation of the record.
* `traced_transparent`: all of this, for any number of traced handlers around another.
-/

import Mathlib.Logic.Function.Iterate
import Comprehension.Proofs.Calls

namespace Comprehension

variable {m : Type → Type} {ε V : Type}

/-! ### Agreement between computations -/

/-- A relation between computations with errors that holds of a computation that ends at
once and itself, and is kept by sequencing. -/
structure Agreement (m : Type → Type) [Monad m] (ε : Type) where
  Rel : {α : Type} → ExceptT ε m α → ExceptT ε m α → Prop
  pure : ∀ {α : Type} (a : α), Rel (Pure.pure a) (Pure.pure a)
  throw : ∀ {α : Type} (e : ε), Rel (throw e : ExceptT ε m α) (throw e)
  bind : ∀ {α β : Type} {x y : ExceptT ε m α} {k k' : α → ExceptT ε m β}, Rel x y →
    (∀ a, Rel (k a) (k' a)) → Rel (x >>= k) (y >>= k')

section Agreement

variable [Monad m] (R : Agreement m ε)

/-- Continuations of one kind that are related on every element. -/
def Continuation.Related : Continuation m ε V → Continuation m ε V → Prop
  | .body run, .body run' => ∀ element, R.Rel (run element) (run' element)
  | .predicate test, .predicate test' => ∀ element, R.Rel (test element) (test' element)
  | .body _, .predicate _ => False
  | .predicate _, .body _ => False

/-- Called with related continuations, the operations give related results. -/
def Operations.Keeps [OfFault ε] (ops : Operations m ε V) : Prop :=
  ∀ site capability k k', Continuation.Related R k k' →
    R.Rel (ops.invoke site capability k) (ops.invoke site capability k')

/-- Given operations that keep the relation and related continuations, the handlers give
related results. -/
def Handler.Related [OfFault ε] (handler handler' : Handler m ε V) : Prop :=
  ∀ site capability (ops : Operations m ε V) k k', ops.Keeps R → Continuation.Related R k k' →
    R.Rel (handler site capability ops k) (handler' site capability ops k')

/-- In every scope, the expression is related to itself. -/
def Expression.Keeps {α : Type} (e : Expression m ε V α) : Prop :=
  ∀ scope, R.Rel (e.eval scope) (e.eval scope)

def Clause.Keeps : Clause m ε V → Prop
  | .generator _ source => source.Keeps R
  | .guard predicate => predicate.Keeps R

/-- The operations of all values and the closures of the chain keep the relation. -/
structure Agreement.Covers [OfFault ε] [Capable m ε V] (c : Chain m ε V) : Prop where
  operations : ∀ v (ops : Operations m ε V), Capable.operations v = some ops → ops.Keeps R
  closures : ∀ clause ∈ c.readBack.1, clause.Keeps R
  final : c.readBack.2.Keeps R

/-- A compiled chain has the closures of its clauses. -/
theorem Agreement.covers_of_compile [OfFault ε] [Capable m ε V] {s : Sequence m ε V}
    {final : Expression m ε V V} {chain : Chain m ε V} (compiled : s.compile final = .ok chain)
    (operations : ∀ v (ops : Operations m ε V), Capable.operations v = some ops → ops.Keeps R)
    (closures : ∀ clause ∈ s.clauses, clause.Keeps R) (keeps : final.Keeps R) : R.Covers chain := by
  have read : chain.readBack = (s.clauses, final) := by
    rw [Chain.readBack, root_of_compile compiled, Sequence.readBack_stage]
    rfl
  refine ⟨operations, ?_, ?_⟩
  · rw [read]
    exact closures
  · rw [read]
    exact keeps

/-- The direct handler keeps every relation that the operations keep. -/
theorem Handler.related_direct [OfFault ε] :
    Handler.Related R (Handler.direct : Handler m ε V) Handler.direct :=
  fun site capability _ k k' keeps related => keeps site capability k k' related

namespace Agreement

variable [LawfulMonad m] [OfFault ε] {α β : Type}

/-- After a check, only its outcome has to be looked at. -/
theorem lift_bind {x : Except Fault α} {k k' : α → ExceptT ε m β}
    (same : ∀ a, x = .ok a → R.Rel (k a) (k' a)) :
    R.Rel (Fault.lift x >>= k) (Fault.lift x >>= k') := by
  cases x with
  | error fault =>
    rw [lift_error_bind_eq, lift_error_bind_eq]
    exact R.throw _
  | ok a =>
    rw [lift_ok_bind, lift_ok_bind]
    exact same a rfl

variable [Splittable V] [Capable m ε V] {R}

/-- **The nodes of a stage run alike with related handlers.** -/
theorem run_node
    (operations : ∀ v (ops : Operations m ε V), Capable.operations v = some ops → ops.Keeps R)
    {handler handler' : Handler m ε V} (related : Handler.Related R handler handler')
    {node : Node m ε V} (closures : ∀ clause ∈ node.readBack.1, clause.Keeps R)
    (final : node.readBack.2.Keeps R) (f : Frame m ε V) (captured : Scope V) (v : V) :
    R.Rel (node.run handler f captured v) (node.run handler' f captured v) := by
  induction node generalizing f captured v with
  | map body =>
    refine R.lift_bind fun ops resolved => ?_
    refine related _ _ ops _ _ (operations v ops (Operations.resolve_eq_ok_iff.mp resolved)) ?_
    exact fun element => R.lift_bind fun scope _ => final scope
  | flatMap next node ih =>
    refine R.lift_bind fun ops resolved => ?_
    refine related _ _ ops _ _ (operations v ops (Operations.resolve_eq_ok_iff.mp resolved)) ?_
    obtain ⟨source, closures⟩ := List.forall_mem_cons.mp closures
    exact fun element => R.lift_bind fun scope _ =>
      R.bind (source scope) fun w => ih closures final next (next.capture scope) w
  | filter guard predicate node ih =>
    obtain ⟨test, closures⟩ := List.forall_mem_cons.mp closures
    refine R.lift_bind fun ops resolved => R.bind ?_ fun kept => ih closures final f captured kept
    refine related _ _ ops _ _ (operations v ops (Operations.resolve_eq_ok_iff.mp resolved)) ?_
    exact fun element => R.lift_bind fun scope _ => test scope

/-- **Runs with related handlers are related.** -/
theorem evaluate {c : Chain m ε V} (covers : R.Covers c) {handler handler' : Handler m ε V}
    (related : Handler.Related R handler handler') :
    R.Rel (c.evaluate handler) (c.evaluate handler') := by
  obtain ⟨source, closures⟩ := List.forall_mem_cons.mp covers.closures
  refine R.bind (source c.entry) fun v => ?_
  exact run_node covers.operations related closures covers.final _ _ v

end Agreement

end Agreement

/-! ### Records -/

/-- What stands in a record: events, the marks of a handler that writes down its calls and
their ends, and any other effects. -/
inductive Entry (A : Type) where
  | event (event : Event)
  /-- A handler was called, for a value that offers these operations. -/
  | called (site : Site) (capability : Capability) (offered : List Capability)
  /-- It has answered, with a value or an error. -/
  | answered (site : Site) (capability : Capability) (ok : Bool)
  | effect (effect : A)

/-- Computations that keep a record. -/
abbrev Recording (A : Type) (n : Type → Type) : Type → Type := StateT (List (Entry A)) n

section Records

variable {A : Type} {n : Type → Type} [Monad n] {α β : Type}

/-- Adds an entry to the record. -/
def write (entry : Entry A) : Recording A n Unit := modify fun log => log ++ [entry]

instance : Journal (Recording A n) := ⟨fun event => write (.event event)⟩

/-- The handler that writes down the calls it gets and how they end. -/
def Handler.marked (handler : Handler (Recording A n) ε V) : Handler (Recording A n) ε V :=
  fun site capability ops k => ExceptT.mk do
    write (.called site capability ops.offered)
    let answer ← (handler site capability ops k).run
    write (.answered site capability answer.isOk)
    pure answer

/-- How a computation goes on from an outcome and the record so far. -/
def continued (k : α → ExceptT ε (Recording A n) β) :
    Except ε α × List (Entry A) → n (Except ε β × List (Entry A))
  | (.ok a, log) => (k a).run.run log
  | (.error e, log) => pure (.error e, log)

/-- An outcome, with the entries that are due to it at the end of the record. -/
def closing (entries : Except ε α → List (Entry A)) (p : Except ε α × List (Entry A)) :
    Except ε α × List (Entry A) :=
  (p.1, p.2 ++ entries p.1)

/-- The events that report the failure of a call, one for each traced handler. -/
def failures (depth : Nat) (site : Site) (capability : Capability) :
    Except ε V → List (Entry A)
  | .ok _ => []
  | .error _ => List.replicate depth (.event (.failed site capability))

theorem run_run_bind (x : ExceptT ε (Recording A n) α) (k : α → ExceptT ε (Recording A n) β)
    (log : List (Entry A)) : (x >>= k).run.run log = x.run.run log >>= continued k := by
  rw [ExceptT.run_bind, StateT.run_bind]
  refine bind_congr fun p => ?_
  rcases p with ⟨_ | a, log'⟩
  · rfl
  · rfl

variable [LawfulMonad n]

/-- **What a traced handler adds to the record**: one event before the call, and one after
it if the call has failed. -/
theorem run_traced (handler : Handler (Recording A n) ε V) (site : Site)
    (capability : Capability) (ops : Operations (Recording A n) ε V)
    (k : Continuation (Recording A n) ε V) (log : List (Entry A)) :
    (handler.traced site capability ops k).run.run log =
      closing (failures 1 site capability) <$>
        (handler site capability ops k).run.run
          (log ++ [.event (.dispatching site capability (ops.offers capability))]) := by
  have recorded : ∀ event (log : List (Entry A)),
      (Journal.record event : Recording A n Unit).run log = pure ((), log ++ [.event event]) :=
    fun _ _ => rfl
  rw [Handler.traced, ExceptT.run_mk, StateT.run_bind, recorded, pure_bind, StateT.run_bind,
    map_eq_pure_bind]
  refine bind_congr fun p => ?_
  rcases p with ⟨_ | v, log'⟩
  · simp [recorded, closing, failures]
  · simp [closing, failures]

/-- The same for several traced handlers around one another. -/
theorem run_iterate_traced (depth : Nat) (handler : Handler (Recording A n) ε V) (site : Site)
    (capability : Capability) (ops : Operations (Recording A n) ε V)
    (k : Continuation (Recording A n) ε V) (log : List (Entry A)) :
    (Handler.traced^[depth] handler site capability ops k).run.run log =
      closing (failures depth site capability) <$>
        (handler site capability ops k).run.run (log ++ List.replicate depth
          (.event (.dispatching site capability (ops.offers capability)))) := by
  induction depth generalizing log with
  | zero =>
    have nothing : (closing (failures 0 site capability) :
        Except ε V × List (Entry A) → Except ε V × List (Entry A)) = id := by
      funext p
      rcases p with ⟨_ | v, log'⟩ <;> simp [closing, failures]
    rw [nothing, id_map, List.replicate_zero, List.append_nil]
    rfl
  | succ depth ih =>
    rw [Function.iterate_succ_apply', run_traced, ih, ← comp_map, List.append_assoc,
      List.singleton_append, ← List.replicate_succ]
    congr 1
    funext p
    rcases p with ⟨_ | v, log'⟩
    · simp [closing, failures, List.replicate_succ']
    · simp [closing, failures]

theorem run_marked (handler : Handler (Recording A n) ε V) (site : Site)
    (capability : Capability) (ops : Operations (Recording A n) ε V)
    (k : Continuation (Recording A n) ε V) (log : List (Entry A)) :
    (handler.marked site capability ops k).run.run log =
      closing (fun answer => [.answered site capability answer.isOk]) <$>
        (handler site capability ops k).run.run
          (log ++ [.called site capability ops.offered]) := by
  have written : ∀ (entry : Entry A) (log : List (Entry A)),
      (write entry : Recording A n Unit).run log = pure ((), log ++ [entry]) := fun _ _ => rfl
  rw [Handler.marked, ExceptT.run_mk, StateT.run_bind, written, pure_bind, StateT.run_bind,
    map_eq_pure_bind]
  refine bind_congr fun p => ?_
  simp [written, closing]

/-! ### The record without the events of traced handlers -/

def Entry.isTracing : Entry A → Bool
  | .event (.dispatching _ _ _) => true
  | .event (.failed _ _) => true
  | .event (.compiled _ _ _) => false
  | .called _ _ _ => false
  | .answered _ _ _ => false
  | .effect _ => false

/-- The entries that are no events of a traced handler, in order. -/
def untraced (log : List (Entry A)) : List (Entry A) := log.filter fun entry => !entry.isTracing

/-- An outcome with the rest of its record. -/
def bare (p : α × List (Entry A)) : α × List (Entry A) := (p.1, untraced p.2)

@[simp] theorem untraced_append (log log' : List (Entry A)) :
    untraced (log ++ log') = untraced log ++ untraced log' :=
  List.filter_append ..

@[simp] theorem untraced_untraced (log : List (Entry A)) :
    untraced (untraced log) = untraced log := by
  simp [untraced]

theorem untraced_replicate {entry : Entry A} (tracing : entry.isTracing = true)
    (depth : Nat) : untraced (List.replicate depth entry) = [] := by
  simp [untraced, tracing]

theorem bare_comp_closing (entries : Except ε α → List (Entry A)) :
    bare ∘ closing entries = closing (untraced ∘ entries) ∘ bare := by
  funext p
  simp [bare, closing]

theorem untraced_comp_failures (depth : Nat) (site : Site) (capability : Capability) :
    (untraced ∘ failures depth site capability : Except ε V → List (Entry A)) = fun _ => [] := by
  funext answer
  cases answer with
  | ok v => rfl
  | error e => exact untraced_replicate rfl depth

/-- Agreement up to the events of traced handlers: from records that are alike without
them, the computations come to the same outcome with records that are alike without
them. -/
def upToTracing (A : Type) (n : Type → Type) [Monad n] [LawfulMonad n] (ε : Type) :
    Agreement (Recording A n) ε where
  Rel x y := ∀ log log', untraced log = untraced log' →
    bare <$> x.run.run log = bare <$> y.run.run log'
  pure a := by
    intro log log' same
    simp [bare, same]
  throw e := by
    intro log log' same
    simp [bare, same]
  bind := by
    intro α β x y k k' first follow log log' same
    -- both ways to go on come to the same, from any two outcomes that are alike
    have onward : ∀ p : Except ε α × List (Entry A),
        bare <$> continued k p = bare <$> continued k' (bare p) := by
      rintro ⟨_ | a, record⟩
      · simp [continued, bare]
      · exact follow a record (untraced record) (untraced_untraced record).symm
    have onward' : ∀ p : Except ε α × List (Entry A),
        bare <$> continued k' p = bare <$> continued k' (bare p) := by
      rintro ⟨_ | a, record⟩
      · simp [continued, bare]
      · exact (follow a record record rfl).symm.trans (onward (.ok a, record))
    calc
      bare <$> (x >>= k).run.run log
        = x.run.run log >>= fun p => bare <$> continued k p := by rw [run_run_bind, map_bind]
      _ = (bare <$> x.run.run log) >>= fun p => bare <$> continued k' p := by
        rw [bind_map_left]
        exact bind_congr onward
      _ = (bare <$> y.run.run log') >>= fun p => bare <$> continued k' p := by
        rw [first log log' same]
      _ = y.run.run log' >>= fun p => bare <$> continued k' p := by
        rw [bind_map_left]
        exact bind_congr fun p => (onward' p).symm
      _ = bare <$> (y >>= k').run.run log' := by rw [run_run_bind, map_bind]

/-- A handler may be traced any number of times over, up to the events of that. -/
theorem Handler.related_iterate_traced [OfFault ε] {handler : Handler (Recording A n) ε V}
    (related : Handler.Related (upToTracing A n ε) handler handler) (depth : Nat) :
    Handler.Related (upToTracing A n ε) (Handler.traced^[depth] handler) handler := by
  intro site capability ops k k' keeps continuations log log' same
  have unseen : (closing fun _ => [] : Except ε V × List (Entry A) → _) = id := by
    funext p
    simp [closing]
  rw [run_iterate_traced, ← comp_map, bare_comp_closing, untraced_comp_failures, unseen,
    Function.id_comp]
  refine related site capability ops k k' keeps continuations _ log' ?_
  rw [untraced_append, untraced_replicate rfl, List.append_nil, same]

/-- Writing down the calls of a handler keeps agreement up to tracing. -/
theorem Handler.related_marked [OfFault ε] {handler : Handler (Recording A n) ε V}
    (related : Handler.Related (upToTracing A n ε) handler handler) :
    Handler.Related (upToTracing A n ε) handler.marked handler.marked := by
  intro site capability ops k k' keeps continuations log log' same
  have inside := related site capability ops k k' keeps continuations
    (log ++ [.called site capability ops.offered]) (log' ++ [.called site capability ops.offered])
    (by rw [untraced_append, same, untraced_append])
  rw [run_marked, run_marked, ← comp_map, ← comp_map, bare_comp_closing, comp_map, inside, comp_map]

/-! ### The record with the events of traced handlers -/

/-- Puts the events of so many traced handlers where they belong: before each call of the
handler inside, and after each call that has failed. -/
def Entry.announced (depth : Nat) : Entry A → List (Entry A)
  | .called site capability offered =>
      List.replicate depth (.event (.dispatching site capability (offered.contains capability))) ++
        [.called site capability offered]
  | .answered site capability ok =>
      .answered site capability ok ::
        if ok then [] else List.replicate depth (.event (.failed site capability))
  | .event e => [.event e]
  | .effect a => [.effect a]

def announced (depth : Nat) (log : List (Entry A)) : List (Entry A) :=
  log.flatMap (Entry.announced depth)

@[simp] theorem announced_append (depth : Nat) (log log' : List (Entry A)) :
    announced depth (log ++ log') = announced depth log ++ announced depth log' :=
  List.flatMap_append

@[simp] theorem announced_singleton (depth : Nat) (entry : Entry A) :
    announced depth [entry] = entry.announced depth := by
  simp [announced]

theorem contains_offered (ops : Operations m ε V) (capability : Capability) :
    ops.offered.contains capability = ops.offers capability := by
  rw [Bool.eq_iff_iff, List.contains_iff_mem, Operations.offered, List.mem_filter]
  exact and_iff_right (Capability.mem_all capability)

/-- An outcome with its record translated. -/
def along (t : List (Entry A) → List (Entry A)) (p : α × List (Entry A)) : α × List (Entry A) :=
  (p.1, t p.2)

/-- Agreement along a translation of the record: from the translated record, the first
computation comes to what the second one comes to, with the record translated. -/
def following (t : List (Entry A) → List (Entry A)) (n : Type → Type) [Monad n] [LawfulMonad n]
    (ε : Type) : Agreement (Recording A n) ε where
  Rel x y := ∀ log, x.run.run (t log) = along t <$> y.run.run log
  pure a := by
    intro log
    simp [along]
  throw e := by
    intro log
    simp [along]
  bind := by
    intro α β x y k k' first follow log
    have onward : ∀ p : Except ε α × List (Entry A),
        continued k (along t p) = along t <$> continued k' p := by
      rintro ⟨_ | a, record⟩
      · simp [continued, along]
      · exact follow a record
    rw [run_run_bind, run_run_bind, first, bind_map_left, map_bind]
    exact bind_congr onward

/-- The events of traced handlers around one that writes down its calls stand next to
what it writes. -/
theorem Handler.related_iterate_traced_marked [OfFault ε] {depth : Nat}
    {handler : Handler (Recording A n) ε V}
    (related : Handler.Related (following (announced depth) n ε) handler handler) :
    Handler.Related (following (announced depth) n ε) (Handler.traced^[depth] handler.marked)
      handler.marked := by
  intro site capability ops k k' keeps continuations log
  have inside := related site capability ops k k' keeps continuations
    (log ++ [.called site capability ops.offered])
  have closed : closing (failures depth site capability) ∘
        closing (fun answer => [.answered site capability answer.isOk]) ∘ along (announced depth) =
      along (announced depth) ∘ closing (ε := ε) (α := V) (A := A)
        fun answer => [.answered site capability answer.isOk] := by
    funext p
    rcases p with ⟨_ | v, record⟩
    · simp [closing, along, failures, Entry.announced, Except.isOk, Except.toBool]
    · simp [closing, along, failures, Entry.announced, Except.isOk, Except.toBool]
  rw [announced_append, announced_singleton, Entry.announced, contains_offered,
    ← List.append_assoc] at inside
  rw [run_iterate_traced, run_marked, run_marked, inside, ← comp_map, ← comp_map, ← comp_map,
    Function.comp_assoc, closed]

end Records

/-- **Tracing is transparent to all who do not look at it.** Take any chain, any handler and
any number of traced handlers around it.

First, whatever the handler, the operations and the closures do, at each call every traced
handler adds one event of its own to the record, with the site and the capability of the
call and whether the value offers it. The handler is called right after that, and right
after its answer every traced handler adds one more event exactly if the call has failed.

Second, let the operations, the closures and the handler keep agreement up to the events of
traced handlers: none of them looks at those events. Then the run with the traced handlers
has the same outcome as the run with the handler itself, and without those events the same
record in the same order. That also holds if the handler writes down the calls it gets, so it
gets the same calls in the same order.

Third, let them agree along the translation that adds such events at the marks of calls. So
they neither look at these events nor take any out, and set no marks of calls themselves;
they may put down events of their own. Then the record of the whole run with the traced
handlers is the one without, except that right before each call of the handler there is one
event for each traced handler, and right after each call that has failed one more for each. -/
theorem traced_transparent {A : Type} {n : Type → Type} [Monad n] [LawfulMonad n] [OfFault ε]
    [Splittable V] [Capable (Recording A n) ε V] (c : Chain (Recording A n) ε V)
    (handler : Handler (Recording A n) ε V) (depth : Nat) :
    (∀ site capability ops k log,
      (Handler.traced^[depth] handler site capability ops k).run.run log =
        closing (failures depth site capability) <$>
          (handler site capability ops k).run.run (log ++ List.replicate depth
            (.event (.dispatching site capability (ops.offers capability))))) ∧
    ((upToTracing A n ε).Covers c → Handler.Related (upToTracing A n ε) handler handler →
      ∀ log,
        bare <$> (c.evaluate (Handler.traced^[depth] handler)).run.run log =
          bare <$> (c.evaluate handler).run.run log ∧
        bare <$> (c.evaluate (Handler.traced^[depth] handler.marked)).run.run log =
          bare <$> (c.evaluate handler.marked).run.run log) ∧
    ((following (announced depth) n ε).Covers c →
      Handler.Related (following (announced depth) n ε) handler handler → ∀ log,
        (c.evaluate (Handler.traced^[depth] handler.marked)).run.run (announced depth log) =
          along (announced depth) <$> (c.evaluate handler.marked).run.run log) := by
  refine ⟨run_iterate_traced depth handler, ?_, ?_⟩
  · intro covers related log
    have plain := Handler.related_iterate_traced related depth
    have marked := Handler.related_iterate_traced (Handler.related_marked related) depth
    exact ⟨Agreement.evaluate covers plain log log rfl,
      Agreement.evaluate covers marked log log rfl⟩
  · intro covers related log
    exact Agreement.evaluate covers (Handler.related_iterate_traced_marked related) log

/-! ### Lists keep every agreement -/

section Lists

variable [Monad m] (R : Agreement m ε)

theorem Agreement.lift [OfFault ε] {α : Type} (x : Except Fault α) :
    R.Rel (Fault.lift x : ExceptT ε m α) (Fault.lift x) := by
  cases x with
  | error fault => exact R.throw _
  | ok a => exact R.pure a

theorem Agreement.mapItems {body body' : V → ExceptT ε m V}
    (related : ∀ v, R.Rel (body v) (body' v)) (items : List V) :
    R.Rel (ListForm.mapItems body items) (ListForm.mapItems body' items) := by
  induction items with
  | nil => exact R.pure []
  | cons v rest ih => exact R.bind (related v) fun w => R.bind ih fun ws => R.pure (w :: ws)

theorem Agreement.joinItems (form : ListForm ε V) {body body' : V → ExceptT ε m V}
    (related : ∀ v, R.Rel (body v) (body' v)) (items : List V) :
    R.Rel (form.joinItems body items) (form.joinItems body' items) := by
  induction items with
  | nil => exact R.pure []
  | cons v rest ih =>
    refine R.bind (related v) fun w => ?_
    cases form.unpack? w with
    | none => exact R.throw (form.refuse w)
    | some ws => exact R.bind ih fun us => R.pure (ws ++ us)

theorem Agreement.keepItems {test test' : V → ExceptT ε m Bool}
    (related : ∀ v, R.Rel (test v) (test' v)) (items : List V) :
    R.Rel (ListForm.keepItems test items) (ListForm.keepItems test' items) := by
  induction items with
  | nil => exact R.pure []
  | cons v rest ih => exact R.bind (related v) fun keep => R.bind ih fun vs => R.pure _

/-- The operations of a list keep every agreement. -/
theorem ListForm.keeps_operations [OfFault ε] (form : ListForm ε V) (items : List V) :
    (form.operations items : Operations m ε V).Keeps R := by
  intro site capability k k' related
  cases k with
  | body run =>
    cases k' with
    | predicate test => exact related.elim
    | body run' =>
      cases capability with
      | map => exact R.bind (R.mapItems related items) fun ws => R.pure (form.pack ws)
      | flatMap => exact R.bind (R.joinItems form related items) fun ws => R.pure (form.pack ws)
      | filter => exact R.throw _
  | predicate test =>
    cases k' with
    | body run => exact related.elim
    | predicate test' =>
      cases capability with
      | map => exact R.throw _
      | flatMap => exact R.throw _
      | filter => exact R.bind (R.keepItems related items) fun vs => R.pure (form.pack vs)

end Lists

namespace Sample

instance {A : Type} {n : Type → Type} [Monad n] : Capable (Recording A n) Fault Item where
  operations
    | .row items => some (rows.operations items)
    | .number _ => none

/-- Reads `y`, and notes that in the record. -/
def noting : Expression (Recording Nat Id) Fault Item Item where
  reads := [⟨"y"⟩]
  label := none
  eval scope := do
    ExceptT.lift (write (.effect 1))
    Fault.lift (scope.lookup ⟨"y"⟩)

/-- The sequence of `x <- xs, (y, z) <- pairs`, where one of the pairs is a number. -/
def unevenPairs : Sequence (Recording Nat Id) Fault Item where
  first := ⟨.name ⟨"x"⟩, .ofName ⟨"xs"⟩, []⟩
  rest := [⟨.tuple [.name ⟨"y"⟩, .name ⟨"z"⟩], .ofName ⟨"pairs"⟩, []⟩]
  environment := .ofList
    [(⟨"xs"⟩, .row [.number 1, .number 2]),
      (⟨"pairs"⟩, .row [.row [.number 1, .number 10], .number 2])]
  distinct := by decide

/-- The operations of the sample values keep every agreement. -/
theorem keeps_items (R : Agreement (Recording Nat Id) Fault) (v : Item)
    (ops : Operations (Recording Nat Id) Fault Item) (offers : Capable.operations v = some ops) :
    ops.Keeps R := by
  cases v with
  | number n => cases offers
  | row items =>
    cases offers
    exact ListForm.keeps_operations R rows items

/-- The sample keeps every agreement that the note in its final expression keeps. -/
theorem covers_unevenPairs {chain : Chain (Recording Nat Id) Fault Item}
    (compiled : unevenPairs.compile noting = .ok chain) {R : Agreement (Recording Nat Id) Fault}
    (note : R.Rel (ExceptT.lift (write (.effect 1))) (ExceptT.lift (write (.effect 1)))) :
    R.Covers chain := by
  refine R.covers_of_compile compiled (keeps_items R) ?_ ?_
  · show ∀ clause ∈ [Clause.generator (.name ⟨"x"⟩) (.ofName ⟨"xs"⟩),
      .generator (.tuple [.name ⟨"y"⟩, .name ⟨"z"⟩]) (.ofName ⟨"pairs"⟩)], clause.Keeps R
    simp only [List.forall_mem_cons, Clause.Keeps]
    exact ⟨fun scope => R.lift _, fun scope => R.lift _, List.forall_mem_nil _⟩
  · exact fun scope => R.bind note fun _ => R.lift _

end Sample

/-- One traced handler around the direct one: the second pair does not split, so both
calls fail. -/
theorem sample_traced_transparent :
    ∃ chain, Sample.unevenPairs.compile Sample.noting = .ok chain ∧
      (upToTracing Nat Id Fault).Covers chain ∧ (following (announced 1) Id Fault).Covers chain ∧
      bare ((chain.evaluate (Handler.traced^[1] Handler.direct)).run.run []).run =
        (.error (.patternMismatch 2 1), [.effect 1]) ∧
      (chain.evaluate (Handler.traced^[1] Handler.direct.marked)).run.run [] =
        pure (.error (.patternMismatch 2 1),
          [.event (.dispatching (.generator 0) .flatMap true),
            .called (.generator 0) .flatMap [.map, .flatMap, .filter],
            .event (.dispatching (.generator 1) .map true),
            .called (.generator 1) .map [.map, .flatMap, .filter],
            .effect 1,
            .answered (.generator 1) .map false,
            .event (.failed (.generator 1) .map),
            .answered (.generator 0) .flatMap false,
            .event (.failed (.generator 0) .flatMap)]) := by
  have compiled : Sample.unevenPairs.compile Sample.noting = .ok _ := rfl
  have upTo : (upToTracing Nat Id Fault).Covers _ :=
    Sample.covers_unevenPairs compiled fun log log' same => by
      show (_, untraced (log ++ [.effect 1])) = (_, untraced (log' ++ [.effect 1]))
      rw [untraced_append, same, untraced_append]
      rfl
  have along : (following (announced 1) Id Fault).Covers _ :=
    Sample.covers_unevenPairs compiled fun log => by
      show (_, announced 1 log ++ [.effect 1]) = (_, announced 1 (log ++ [.effect 1]))
      rw [announced_append]
      rfl
  obtain ⟨-, erased, placed⟩ :=
    traced_transparent _ (Handler.direct : Handler (Recording Nat Id) Fault Sample.Item) 1
  have outcome := erased upTo (Handler.related_direct _) []
  have record := placed along (Handler.related_direct _) []
  exact ⟨_, compiled, upTo, along, outcome.1.trans rfl, record.trans rfl⟩

namespace Sample

/-- The sequence of `x <- [1]`. -/
def lone : Sequence (Recording Nat Id) Fault Item where
  first := ⟨.name ⟨"x"⟩, .constant (.row [.number 1]), []⟩
  rest := []
  environment := .empty
  distinct := by decide

/-- Refuses to make a call once a traced handler has left an event in the record. -/
def wary : Handler (Recording Nat Id) Fault Item :=
  fun site capability ops k => ExceptT.mk do
    let log ← get
    if log.any Entry.isTracing then
      return .error (.invalidContinuation capability)
    (ops.invoke site capability k).run

/-- Reads `x`, and takes the events of traced handlers out of the record. -/
def wiping : Expression (Recording Nat Id) Fault Item Item where
  reads := [⟨"x"⟩]
  label := none
  eval scope := do
    ExceptT.lift (modify untraced)
    Fault.lift (scope.lookup ⟨"x"⟩)

theorem covers_lone {R : Agreement (Recording Nat Id) Fault}
    {final : Expression (Recording Nat Id) Fault Item Item}
    {chain : Chain (Recording Nat Id) Fault Item} (compiled : lone.compile final = .ok chain)
    (keeps : final.Keeps R) : R.Covers chain := by
  refine R.covers_of_compile compiled (keeps_items R) ?_ keeps
  intro clause mem
  cases List.mem_singleton.mp mem
  exact fun scope => R.pure _

end Sample

/-- **Tracing can be noticed.** The chains of `x <- [1]` have operations and closures that
agree up to the events of traced handlers.

A traced handler around one that is traced itself leaves two events for the one call of it,
and the record without such events is not that of the handler inside. A handler that
looks at the record fails only when it is traced. And where a closure takes the events out
of the record, a call leaves none. -/
theorem sample_tracing_noticed :
    ∃ chain wiped, Sample.lone.compile (.ofName ⟨"x"⟩) = .ok chain ∧
      Sample.lone.compile Sample.wiping = .ok wiped ∧
      (upToTracing Nat Id Fault).Covers chain ∧ (upToTracing Nat Id Fault).Covers wiped ∧
      bare ((chain.evaluate Handler.direct.traced.traced).run.run []).run ≠
        ((chain.evaluate Handler.direct.traced).run.run []).run ∧
      (chain.evaluate Handler.direct.traced.marked.traced).run.run [] =
        pure (.ok (.row [.number 1]),
          [.event (.dispatching (.generator 0) .map true),
            .called (.generator 0) .map [.map, .flatMap, .filter],
            .event (.dispatching (.generator 0) .map true),
            .answered (.generator 0) .map true]) ∧
      (chain.evaluate Sample.wary).run.run [] = pure (.ok (.row [.number 1]), []) ∧
      (chain.evaluate Sample.wary.traced).run.run [] =
        pure (.error (.invalidContinuation .map),
          [.event (.dispatching (.generator 0) .map true),
            .event (.failed (.generator 0) .map)]) ∧
      (wiped.evaluate Handler.direct.marked.traced).run.run [] =
        pure (.ok (.row [.number 1]),
          [.called (.generator 0) .map [.map, .flatMap, .filter],
            .answered (.generator 0) .map true]) := by
  have compiled : Sample.lone.compile (.ofName ⟨"x"⟩) = .ok _ := rfl
  have compiled' : Sample.lone.compile Sample.wiping = .ok _ := rfl
  have named : (Expression.ofName ⟨"x"⟩ : Expression _ _ Sample.Item _).Keeps
      (upToTracing Nat Id Fault) := fun scope => Agreement.lift _ _
  have wiping : Sample.wiping.Keeps (upToTracing Nat Id Fault) := by
    refine fun scope => Agreement.bind _ ?_ fun _ => Agreement.lift _ _
    intro log log' same
    show ((.ok (), untraced (untraced log)) : Except Fault Unit × _) =
      (.ok (), untraced (untraced log'))
    rw [same]
  refine ⟨_, _, compiled, compiled', Sample.covers_lone compiled named,
    Sample.covers_lone compiled' wiping, ?_, rfl, rfl, rfl, rfl⟩
  intro same
  have lengths : 0 = 1 := congrArg (fun p => p.2.length) same
  cases lengths

end Comprehension
