/-
Chains: comprehensions in compiled form.

A chain is a nest of stages, one for each generator. A stage evaluates its source,
passes the value through a filter for each guard, and ends in a `flatMap` whose body
is the next stage, or in a `map` over the final expression. The nodes of a stage are
listed from the outside in, which is the order in which they are called.

Each stage says which names it takes along: `carried` are bound by generators before
it and looked up in the scope around the stage when the stage is entered; `lexical`
are captured values, fixed when the chain was compiled. `Frame.capture` and
`Frame.enter` build the one scope that all expressions of the stage's nodes, and the
source of the next stage, are evaluated in.
-/

import Comprehension.Sequence

namespace Comprehension

/-- All of a stage but its nodes. -/
structure Frame (m : Type → Type) (ε V : Type) where
  /-- The number of generators around this one. -/
  depth : Nat
  pattern : Pattern
  source : Expression m ε V V
  /-- The names taken along from generators before this one. -/
  carried : List Name
  /-- The captured values that the stage depends on. -/
  lexical : Scope V

/-- The calls of a stage, from the outside in. -/
inductive Node (m : Type → Type) (ε V : Type) where
  /-- The last call of the innermost stage: gives the final expression for each
  element. -/
  | map (body : Expression m ε V V)
  /-- The last call of any other stage: enters the next one for each element. -/
  | flatMap (next : Frame m ε V) (node : Node m ε V)
  /-- Keeps the elements that pass guard number `guard`, then goes on with `node`. -/
  | filter (guard : Nat) (predicate : Expression m ε V Bool) (node : Node m ε V)

/-- A generator in compiled form. -/
structure Stage (m : Type → Type) (ε V : Type) extends Frame m ε V where
  node : Node m ε V

/-- A compiled comprehension: the outermost stage and the scope its source is
evaluated in. -/
structure Chain (m : Type → Type) (ε V : Type) where
  root : Stage m ε V
  entry : Scope V

variable {m : Type → Type} {ε V : Type}

namespace Frame

/-- The names a stage takes along: the carried ones, then the captured ones. -/
def capturedNames (f : Frame m ε V) : List Name := f.carried ++ f.lexical.names

/-- What a stage takes along from the scope around it. -/
def capture (f : Frame m ε V) (outer : Scope V) : Scope V :=
  (outer.project f.carried).overlay f.lexical

/-- The scope for one element: what was taken along, extended by the pattern. -/
def enter [Splittable V] (f : Frame m ε V) (captured : Scope V) (element : V) :
    Except Fault (Scope V) :=
  f.pattern.extend f.depth element captured

end Frame

namespace Node

/-- The operation a node calls. -/
def kind : Node m ε V → Capability
  | .map _ => .map
  | .flatMap _ _ => .flatMap
  | .filter _ _ _ => .filter

/-- The node that ends the stage, past all filters. -/
def terminal : Node m ε V → Node m ε V
  | .filter _ _ node => node.terminal
  | node => node

/-- A node with those after it in the same stage, from the outside in. -/
def layers : Node m ε V → List (Node m ε V)
  | .filter guard predicate node => .filter guard predicate node :: node.layers
  | node => [node]

/-- The stages nested inside a node, outermost first. -/
def stages : Node m ε V → List (Stage m ε V)
  | .map _ => []
  | .flatMap next node => { next with node } :: node.stages
  | .filter _ _ node => node.stages

/-- The number of filters in a node, those of nested stages included. -/
def guardCount : Node m ε V → Nat
  | .map _ => 0
  | .flatMap _ node => node.guardCount
  | .filter _ _ node => node.guardCount + 1

end Node

/-- A stage with those nested in it, outermost first. -/
def Stage.stages (s : Stage m ε V) : List (Stage m ε V) := s :: s.node.stages

namespace Chain

/-- All stages, outermost first. -/
def stages (c : Chain m ε V) : List (Stage m ε V) := c.root.stages

def generatorCount (c : Chain m ε V) : Nat := c.stages.length

def guardCount (c : Chain m ε V) : Nat := c.root.node.guardCount

end Chain

end Comprehension
