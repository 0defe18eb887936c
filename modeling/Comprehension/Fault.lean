/-
What can go wrong.

A `Fault` is a cause. Malformations are found while a comprehension is put together
or compiled; the other faults arise while it runs. The wording of each is given
once, in `Malformation.message` and `Fault.message`. Values bring an error type of
their own; `OfFault` says how a fault becomes one of those errors.
-/

import Comprehension.Name
import Comprehension.Capability

namespace Comprehension

/-- Why a list of clauses is no comprehension. -/
inductive Malformation where
  /-- There is no clause at all. -/
  | empty
  /-- The first clause is a guard, which has nothing to test. -/
  | leadingGuard
  /-- A name is bound twice. -/
  | duplicateName (name : Name)
  /-- The expression of clause number `clause` reads a name that is neither bound
  before it nor captured. The final expression counts as the clause after the last. -/
  | unboundName (name : Name) (clause : Nat)
deriving DecidableEq

/-- A fault raised by the library itself. -/
inductive Fault where
  | malformed (reason : Malformation)
  /-- The value at generator `depth` offers no operations. -/
  | unsupportedValue (depth : Nat)
  /-- The value at generator `depth` lacks one operation. -/
  | missingCapability (capability : Capability) (depth : Nat)
  /-- An operation was given a continuation of the other kind. -/
  | invalidContinuation (capability : Capability)
  /-- An element at generator `depth` does not split into `expected` parts. -/
  | patternMismatch (expected depth : Nat)
  /-- A name was looked up in a scope that does not bind it. -/
  | unboundName (name : Name)
deriving DecidableEq

def Malformation.message : Malformation → String
  | .empty => "the sequence has no clauses"
  | .leadingGuard => "a guard cannot precede the first generator"
  | .duplicateName name => s!"name `{name}` is bound more than once"
  | .unboundName name clause => s!"clause {clause} reads unbound name `{name}`"

def Fault.message : Fault → String
  | .malformed reason => s!"malformed clause sequence: {reason.message}"
  | .unsupportedValue depth => s!"generator {depth}: source value exposes no capabilities"
  | .missingCapability capability depth =>
      s!"generator {depth}: capability `{capability}` is not supported"
  | .invalidContinuation capability =>
      s!"capability `{capability}` received a continuation of the wrong kind"
  | .patternMismatch expected depth =>
      s!"generator {depth}: bound value does not destructure into {expected} parts"
  | .unboundName name => s!"name `{name}` is not in scope"

/-- Error types in which every fault has a place. -/
class OfFault (ε : Type) where
  ofFault : Fault → ε

instance : OfFault Fault := ⟨id⟩

/-- Runs a check of the library inside a computation whose errors are `ε`. -/
def Fault.lift {m : Type → Type} {ε α : Type} [Monad m] [OfFault ε] :
    Except Fault α → ExceptT ε m α
  | .ok a => pure a
  | .error fault => throw (OfFault.ofFault fault)

end Comprehension
