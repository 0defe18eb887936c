/-
Clauses: the lines of a comprehension.

A generator clause draws elements from a source and binds each by a pattern; a
guard clause tests the bindings made so far and belongs to the generator before it.
-/

import Comprehension.Expression
import Comprehension.Pattern

namespace Comprehension

/-- One line of a comprehension. -/
inductive Clause (m : Type → Type) (ε V : Type) where
  /-- Draw each element of `source` and bind it by `pattern`. -/
  | generator (pattern : Pattern) (source : Expression m ε V V)
  /-- Keep the elements of the generator before for which `predicate` holds. -/
  | guard (predicate : Expression m ε V Bool)

namespace Clause

variable {m : Type → Type} {ε V : Type}

/-- The names a clause binds; a guard binds none. -/
def boundNames : Clause m ε V → List Name
  | .generator pattern _ => pattern.names
  | .guard _ => []

/-- The names the clause's expression declares to read. -/
def reads : Clause m ε V → List Name
  | .generator _ source => source.reads
  | .guard predicate => predicate.reads

def isGenerator : Clause m ε V → Bool
  | .generator _ _ => true
  | .guard _ => false

end Clause

end Comprehension
