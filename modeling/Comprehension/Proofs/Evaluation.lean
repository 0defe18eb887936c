/-
Which closures a run calls, and in which scopes.

The scopes of a run follow from the chain and from the elements that the operations
pass to the continuations; nothing else has a say. `Chain.Entered` collects the stages
with the scopes they can be entered in, for all elements, however often and in whatever
order the continuations are called.

A `Probe` puts other computations in the place of a chain's closures. `evaluate_probed`
says that a run evaluates closures in those scopes only: a probe that agrees with the
closures there changes no run, whatever the handler and the operations do.
-/

import Comprehension.Carrier.List
import Comprehension.Evaluation
import Comprehension.Proofs.ReadBack

namespace Comprehension

/-! ### Checks inside computations -/

section Lift

variable {m : Type → Type} {ε α β : Type} [Monad m] [LawfulMonad m] [OfFault ε]

@[simp] theorem lift_ok_bind (a : α) (k : α → ExceptT ε m β) :
    (Fault.lift (.ok a) >>= k : ExceptT ε m β) = k a := by
  rw [Fault.lift, pure_bind]

/-- A failed check ends the computation, so what was to follow does not matter. -/
theorem lift_error_bind {α' : Type} (fault : Fault) (k : α → ExceptT ε m β)
    (k' : α' → ExceptT ε m β) :
    (Fault.lift (.error fault) >>= k : ExceptT ε m β) = Fault.lift (.error fault) >>= k' := by
  apply ExceptT.ext
  simp [Fault.lift]

theorem lift_error_bind_eq (fault : Fault) (k : α → ExceptT ε m β) :
    (Fault.lift (.error fault) >>= k : ExceptT ε m β) = Fault.lift (.error fault) := by
  apply ExceptT.ext
  simp [Fault.lift]

/-- What follows a check matters only for the outcome that the check has. -/
theorem lift_bind_congr {x : Except Fault α} {k k' : α → ExceptT ε m β}
    (same : ∀ a, x = .ok a → k a = k' a) :
    (Fault.lift x >>= k : ExceptT ε m β) = Fault.lift x >>= k' := by
  cases x with
  | error fault => exact lift_error_bind fault k k'
  | ok a => rw [lift_ok_bind, lift_ok_bind, same a rfl]

end Lift

variable {m : Type → Type} {ε V : Type}

/-! ### Scopes of a run -/

/-- The stages of a chain with the scopes they can be entered in. A stage inside
another is entered in the scope of an element that the outer one was given. -/
inductive Chain.Entered [Splittable V] (c : Chain m ε V) : Stage m ε V → Scope V → Prop where
  | root : Entered c c.root c.entry
  | next {st : Stage m ε V} {outer scope : Scope V} {element : V} {next : Frame m ε V}
      {node : Node m ε V} : Entered c st outer → st.node.terminal = .flatMap next node →
      st.enter (st.capture outer) element = .ok scope → Entered c { next with node } scope

/-! ### Probes -/

/-- Where an expression stands in a chain. -/
inductive Place where
  | source (depth : Nat)
  | guard (depth index : Nat)
  | final
deriving DecidableEq

/-- Computations to put in the place of a chain's closures. -/
structure Probe (m : Type → Type) (ε V : Type) where
  value : Place → Expression m ε V V → Scope V → ExceptT ε m V
  test : Place → Expression m ε V Bool → Scope V → ExceptT ε m Bool

/-- The frame with its source replaced. -/
def Frame.probed (probe : Probe m ε V) (f : Frame m ε V) : Frame m ε V :=
  { f with source := { f.source with eval := probe.value (.source f.depth) f.source } }

/-- The nodes of a stage at `depth`, with all their closures replaced. -/
def Node.probed (probe : Probe m ε V) : Nat → Node m ε V → Node m ε V
  | _, .map body => .map { body with eval := probe.value .final body }
  | _, .flatMap next node => .flatMap (next.probed probe) (node.probed probe next.depth)
  | depth, .filter guard predicate node =>
      .filter guard { predicate with eval := probe.test (.guard depth guard) predicate }
        (node.probed probe depth)

def Stage.probed (probe : Probe m ε V) (s : Stage m ε V) : Stage m ε V :=
  { s.toFrame.probed probe with node := s.node.probed probe s.depth }

def Chain.probed (probe : Probe m ε V) (c : Chain m ε V) : Chain m ε V :=
  { c with root := c.root.probed probe }

/-- A probe agrees with the closures of a chain in every scope that a run can evaluate
them in. -/
structure Probe.Agrees [Splittable V] (probe : Probe m ε V) (c : Chain m ε V) : Prop where
  source : ∀ st outer, c.Entered st outer →
    probe.value (.source st.depth) st.source outer = st.source.eval outer
  guard : ∀ st outer element scope, c.Entered st outer →
    st.enter (st.capture outer) element = .ok scope →
    ∀ p i, (p, i) ∈ st.node.filters → probe.test (.guard st.depth i) p scope = p.eval scope
  final : ∀ st outer element scope, c.Entered st outer →
    st.enter (st.capture outer) element = .ok scope →
    ∀ body, st.node.terminal = .map body → probe.value .final body scope = body.eval scope

section Run

variable [Monad m] [LawfulMonad m] [OfFault ε] [Splittable V] [Capable m ε V]

/-- The nodes of an entered stage run alike with and without an agreeing probe. -/
theorem run_probed_node {probe : Probe m ε V} {c : Chain m ε V} (agrees : probe.Agrees c)
    (handler : Handler m ε V) {st : Stage m ε V} {outer : Scope V} (entered : c.Entered st outer)
    {node : Node m ε V} (filters : ∀ f ∈ node.filters, f ∈ st.node.filters)
    (terminal : node.terminal = st.node.terminal) (v : V) :
    (node.probed probe st.depth).run handler (st.toFrame.probed probe) (st.capture outer) v =
      node.run handler st.toFrame (st.capture outer) v := by
  induction node generalizing st outer v with
  | map body =>
    rw [Node.probed, Node.run, Node.run]
    refine bind_congr fun ops => ?_
    congr 2
    funext element
    refine lift_bind_congr fun scope entry => ?_
    exact agrees.final st outer element scope entered entry body terminal.symm
  | flatMap next node ih =>
    rw [Node.probed, Node.run, Node.run]
    refine bind_congr fun ops => ?_
    congr 2
    funext element
    refine lift_bind_congr fun scope entry => ?_
    -- the element's scope is the one that the next stage is entered in
    have inner : c.Entered { next with node } scope := entered.next terminal.symm entry
    have source := agrees.source _ scope inner
    show probe.value (.source next.depth) next.source scope >>= _ = _
    rw [source]
    refine bind_congr fun w => ?_
    exact ih inner (fun f hf => hf) rfl w
  | filter guard predicate node ih =>
    rw [Node.probed, Node.run, Node.run]
    refine bind_congr fun ops => ?_
    congr 1
    · congr 2
      funext element
      refine lift_bind_congr fun scope entry => ?_
      exact agrees.guard st outer element scope entered entry predicate guard
        (filters _ List.mem_cons_self)
    · funext kept
      exact ih entered (fun f hf => filters f (List.mem_cons_of_mem _ hf)) terminal kept

/-- **A run evaluates closures in the scopes of `Entered` only**: a probe that agrees
with the closures there changes no run. -/
theorem evaluate_probed {probe : Probe m ε V} {c : Chain m ε V} (agrees : probe.Agrees c)
    (handler : Handler m ε V) : (c.probed probe).evaluate handler = c.evaluate handler := by
  have source := agrees.source c.root c.entry .root
  show probe.value (.source c.root.depth) c.root.source c.entry >>= _ = _
  rw [source]
  refine bind_congr fun v => ?_
  exact run_probed_node agrees handler .root (fun f hf => hf) rfl v

end Run

/-! ### Rows as sources -/

namespace Sample

instance : Splittable Item where
  split
    | .row items, _ => some items
    | .number _, _ => none

/-- Rows stand for lists. -/
def rows : ListForm Fault Item where
  pack := .row
  unpack?
    | .row items => some items
    | .number _ => none
  refuse _ := .invalidContinuation .flatMap

instance : Capable Id Fault Item where
  operations
    | .row items => some (rows.operations items)
    | .number _ => none

/-- The sample computations take no events down. -/
instance : Journal Id where
  record _ := pure ()

end Sample

end Comprehension
