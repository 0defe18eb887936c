/-
Handlers: who makes the calls.

Every operation that a chain performs goes through a handler, which is told the
site, the capability, the operations of the value and the continuation. The direct
handler makes the call and nothing else. A traced handler reports to the journal
around the calls of another handler. Any function of the same type will do.
-/

import Comprehension.Operations
import Comprehension.Event

namespace Comprehension

/-- A way to carry out the operations of a chain. -/
abbrev Handler (m : Type → Type) (ε V : Type) : Type :=
  Site → Capability → Operations m ε V → Continuation m ε V → ExceptT ε m V

namespace Handler

variable {m : Type → Type} {ε V : Type} [Monad m]

/-- Calls the operation. -/
def direct [OfFault ε] : Handler m ε V :=
  fun site capability ops continuation => ops.invoke site capability continuation

/-- Reports each call of `inner` before it is made, and afterwards if it failed. The
answer is passed on unchanged. -/
def traced [Journal m] (inner : Handler m ε V) : Handler m ε V :=
  fun site capability ops continuation => ExceptT.mk do
    Journal.record (.dispatching site capability (ops.offers capability))
    let answer ← (inner site capability ops continuation).run
    match answer with
    | .ok v => pure (.ok v)
    | .error e => do
        Journal.record (.failed site capability)
        pure (.error e)

end Handler

/-- The handlers that the library itself provides, as data. -/
inductive Strategy where
  | direct
  | traced (inner : Strategy)
deriving DecidableEq

/-- The handler a strategy describes. -/
def Strategy.handler {m : Type → Type} {ε V : Type} [Monad m] [OfFault ε] [Journal m] :
    Strategy → Handler m ε V
  | .direct => Handler.direct
  | .traced inner => Handler.traced inner.handler

end Comprehension
