/-
Drafts: comprehensions being written.

A draft takes generators, guards and captures in any order and checks nothing. The
clauses stand in the order in which they were added and the captures form a scope of
their own, so it makes no difference where among the clauses a value is captured.
-/

import Comprehension.Sequence

namespace Comprehension

/-- A comprehension being written: clauses and captures added so far, in any order
and not yet checked. -/
structure Draft (m : Type → Type) (ε V : Type) where
  clauses : List (Clause m ε V)
  environment : Scope V

namespace Draft

variable {m : Type → Type} {ε V : Type}

def empty : Draft m ε V := ⟨[], ∅⟩

/-- Adds a generator. -/
def bind (d : Draft m ε V) (pattern : Pattern) (source : Expression m ε V V) : Draft m ε V :=
  { d with clauses := d.clauses ++ [.generator pattern source] }

/-- Adds a guard. -/
def guard (d : Draft m ε V) (predicate : Expression m ε V Bool) : Draft m ε V :=
  { d with clauses := d.clauses ++ [.guard predicate] }

/-- Captures a value; capturing a name again replaces its value. -/
def capture (d : Draft m ε V) (n : Name) (v : V) : Draft m ε V :=
  { d with environment := d.environment.insert n v }

/-- The sequence of the clauses added, over the values captured. -/
def build (d : Draft m ε V) : Except Fault (Sequence m ε V) :=
  Sequence.ofClauses d.clauses d.environment

end Draft

end Comprehension
