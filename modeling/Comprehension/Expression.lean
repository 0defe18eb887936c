/-
Expressions: the leaves of a comprehension.

An expression is a computation over a scope together with the names it declares to
read. The computation is opaque: it may have effects in `m`, fail with an error `ε`,
and in principle look at any name of the scope it is given. Compilation goes by the
declared reads alone. A label, if there is one, is what the expression is called
when a chain is written out.
-/

import Comprehension.NameSet
import Comprehension.Scope

namespace Comprehension

/-- A computation of an `α` over a scope, with its declared reads. -/
structure Expression (m : Type → Type) (ε V α : Type) where
  /-- The names the computation depends on, in order. -/
  reads : List Name
  /-- What to call the expression in rendered chains. -/
  label : Option String
  /-- The computation itself. -/
  eval : Scope V → ExceptT ε m α

namespace Expression

variable {m : Type → Type} {ε V α : Type}

/-- An expression that reads the listed names. A name listed twice counts once, at
its first place. -/
def reading (reads : List Name) (eval : Scope V → ExceptT ε m α) : Expression m ε V α where
  reads := (NameSet.ofList reads).toList
  label := none
  eval := eval

/-- An expression that reads nothing and gives a fixed answer. -/
def constant [Monad m] (a : α) : Expression m ε V α where
  reads := []
  label := none
  eval := fun _ => pure a

/-- The expression that reads one name. It is labelled with that name. -/
def ofName [Monad m] [OfFault ε] (n : Name) : Expression m ε V V where
  reads := [n]
  label := some n.text
  eval := fun s => Fault.lift (s.lookup n)

/-- The same expression under another label. -/
def labelled (e : Expression m ε V α) (label : String) : Expression m ε V α :=
  { e with label := some label }

/-- The label, or a stand-in when there is none. -/
def labelOr (e : Expression m ε V α) (standIn : String) : String := e.label.getD standIn

end Expression

end Comprehension
