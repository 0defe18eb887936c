/-
Running chains.

A stage evaluates its source in the scope around it, takes along what it captures,
and hands the value to its nodes. Each node resolves the operations of the value it
is given and calls its operation through the handler; the value a filter gives back
is what the next node works on. The continuation of a node matches the element
against the pattern afresh each time it is called, and may be called at any time.
-/

import Comprehension.Chain.Assembly
import Comprehension.Handler

namespace Comprehension

variable {m : Type → Type} {ε V : Type}
variable [Monad m] [OfFault ε] [Splittable V] [Capable m ε V]

/-- Runs the nodes of the stage `f` on a value, with `captured` as what the stage has
taken along. -/
def Node.run (handler : Handler m ε V) :
    Node m ε V → Frame m ε V → Scope V → V → ExceptT ε m V
  | .map body, f, captured, v => do
      let ops ← Fault.lift (Operations.resolve f.depth v)
      handler (.generator f.depth) .map ops <| .body fun element => do
        let scope ← Fault.lift (f.enter captured element)
        body.eval scope
  | .flatMap next node, f, captured, v => do
      let ops ← Fault.lift (Operations.resolve f.depth v)
      handler (.generator f.depth) .flatMap ops <| .body fun element => do
        let scope ← Fault.lift (f.enter captured element)
        let inner ← next.source.eval scope
        node.run handler next (next.capture scope) inner
  | .filter guard predicate node, f, captured, v => do
      let ops ← Fault.lift (Operations.resolve f.depth v)
      let kept ← handler (.guarded f.depth guard) .filter ops <| .predicate fun element => do
        let scope ← Fault.lift (f.enter captured element)
        predicate.eval scope
      node.run handler f captured kept

/-- Runs a stage inside the scope `outer`. -/
def Stage.run (handler : Handler m ε V) (s : Stage m ε V) (outer : Scope V) :
    ExceptT ε m V := do
  let v ← s.source.eval outer
  s.node.run handler s.toFrame (s.capture outer) v

/-- Evaluates a chain, making every call through the handler. -/
def Chain.evaluate (handler : Handler m ε V) (c : Chain m ε V) : ExceptT ε m V :=
  c.root.run handler c.entry

/-- Compiles a sequence and reports the chain to the journal. -/
def Sequence.compileReporting [Journal m] (s : Sequence m ε V) (final : Expression m ε V V) :
    ExceptT ε m (Chain m ε V) := do
  let chain ← Fault.lift (s.compile final)
  ExceptT.lift (Journal.record chain.compiledEvent)
  return chain

/-- Compiles a sequence and evaluates the chain. -/
def Sequence.evaluate [Journal m] (handler : Handler m ε V) (s : Sequence m ε V)
    (final : Expression m ε V V) : ExceptT ε m V := do
  let chain ← s.compileReporting final
  chain.evaluate handler

end Comprehension
