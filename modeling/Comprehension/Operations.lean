/-
What a value offers to a comprehension.

A value that can stand as a source offers `map` and `flatMap`, and possibly
`filter`. Each takes a continuation: a body, which turns an element into a value, or
a predicate, which tests one. What an operation does with its continuation is the
value's own business: it may call it never, once, many times, or keep it for later.
-/

import Comprehension.Fault

namespace Comprehension

/-- What is to be done with each element. -/
inductive Continuation (m : Type → Type) (ε V : Type) where
  /-- Turns an element into a value. -/
  | body (run : V → ExceptT ε m V)
  /-- Tests an element. -/
  | predicate (test : V → ExceptT ε m Bool)

namespace Continuation

variable {m : Type → Type} {ε V : Type}

/-- Whether a capability takes continuations of this kind: `filter` takes
predicates, the other two take bodies. -/
def accepts : Continuation m ε V → Capability → Bool
  | .body _, .map => true
  | .body _, .flatMap => true
  | .body _, .filter => false
  | .predicate _, .map => false
  | .predicate _, .flatMap => false
  | .predicate _, .filter => true

end Continuation

/-- The operations of one value. -/
structure Operations (m : Type → Type) (ε V : Type) where
  map : (V → ExceptT ε m V) → ExceptT ε m V
  flatMap : (V → ExceptT ε m V) → ExceptT ε m V
  filter : Option ((V → ExceptT ε m Bool) → ExceptT ε m V)

/-- Values that may offer operations. A value that offers none cannot be a source. -/
class Capable (m : Type → Type) (ε V : Type) where
  operations : V → Option (Operations m ε V)

namespace Operations

variable {m : Type → Type} {ε V : Type}

/-- Whether a capability is among the operations. -/
def offers (ops : Operations m ε V) : Capability → Bool
  | .map => true
  | .flatMap => true
  | .filter => ops.filter.isSome

/-- The capabilities on offer, in order. -/
def offered (ops : Operations m ε V) : List Capability := Capability.all.filter ops.offers

/-- Calls an operation with a continuation. A missing `filter` is reported before a
continuation of the wrong kind. -/
def invoke [Monad m] [OfFault ε] (ops : Operations m ε V) (site : Site) :
    Capability → Continuation m ε V → ExceptT ε m V
  | .map, .body run => ops.map run
  | .flatMap, .body run => ops.flatMap run
  | .filter, continuation =>
      match ops.filter, continuation with
      | none, _ => Fault.lift (.error (.missingCapability .filter site.depth))
      | some filter, .predicate test => filter test
      | some _, .body _ => Fault.lift (.error (.invalidContinuation .filter))
  | .map, .predicate _ => Fault.lift (.error (.invalidContinuation .map))
  | .flatMap, .predicate _ => Fault.lift (.error (.invalidContinuation .flatMap))

/-- The operations of the value at a generator, or the fault that it has none. -/
def resolve [Capable m ε V] (depth : Nat) (v : V) : Except Fault (Operations m ε V) :=
  match (Capable.operations v : Option (Operations m ε V)) with
  | some ops => .ok ops
  | none => .error (.unsupportedValue depth)

end Operations

end Comprehension
