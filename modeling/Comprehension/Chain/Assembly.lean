/-
From a sequence to its chain.

Compiling first checks that every declared read can be resolved: by a generator that
comes before the clause, or by the environment. The clauses are taken in order and
the final expression last, so the fault names the first unresolved read of the first
clause that has one.

The chain is then assembled from the inside out. On the way the names that the part
built so far still needs from outside are kept in an ordered set: the guards' reads
come in, the pattern's names go out, and what is left is taken along by the stage.
Of those, the names bound by generators further out are carried and the others are
captured values. The reads of a stage's source are needed by the stage around it.
-/

import Comprehension.Chain
import Comprehension.Event

namespace Comprehension

variable {m : Type → Type} {ε V : Type}

namespace Sequence

/-! ### Resolving reads -/

/-- The first of the names that is neither bound nor in the environment. -/
def unresolved? (environment : Scope V) (bound reads : List Name) : Option Name :=
  reads.find? fun n => !(bound.contains n || environment.contains n)

/-- Checks the reads of the clause at `index`. -/
def checkReads (environment : Scope V) (bound : List Name) (index : Nat) (reads : List Name) :
    Except Fault Unit :=
  match unresolved? environment bound reads with
  | some n => .error (.malformed (.unboundName n index))
  | none => .ok ()

/-- Checks clauses from `index` on, and the final expression's reads after them. A
clause sees the names bound by the clauses before it and not its own. -/
def checkClauses (environment : Scope V) (final : List Name) :
    List Name → Nat → List (Clause m ε V) → Except Fault Unit
  | bound, index, [] => checkReads environment bound index final
  | bound, index, c :: rest => do
      checkReads environment bound index c.reads
      checkClauses environment final (bound ++ c.boundNames) (index + 1) rest

/-! ### Assembling stages -/

/-- Wraps a node in filters for guards numbered from `index` on, the first guard
outermost. -/
def guarded : Nat → List (Expression m ε V Bool) → Node m ε V → Node m ε V
  | _, [], node => node
  | index, predicate :: rest, node => .filter index predicate (guarded (index + 1) rest node)

/-- The names a stage needs from outside: those its body needs and its guards read,
less those its pattern binds. -/
def needs (g : Generator m ε V) (body : NameSet) : NameSet :=
  (body.insertAll (g.guards.flatMap fun p => p.reads)).eraseAll g.pattern.names

/-- The stage of a generator at `depth`, given the names bound `before` it, the names
it needs from outside and the node that ends it. -/
def stageOf (environment : Scope V) (depth : Nat) (before : List Name) (g : Generator m ε V)
    (needed : NameSet) (last : Node m ε V) : Stage m ε V where
  depth := depth
  pattern := g.pattern
  source := g.source
  carried := needed.toList.filter fun n => before.contains n
  lexical := environment.project (needed.toList.filter fun n => !before.contains n)
  node := guarded 0 g.guards last

/-- The stage of a generator with those of the generators after it nested inside, and
the names it needs from outside. -/
def assemble (environment : Scope V) (final : Expression m ε V V) :
    Nat → List Name → Generator m ε V → List (Generator m ε V) → Stage m ε V × NameSet
  | depth, before, g, [] =>
      let needed := needs g (NameSet.ofList final.reads)
      (stageOf environment depth before g needed (.map final), needed)
  | depth, before, g, next :: rest =>
      let (inner, innerNeeds) :=
        assemble environment final (depth + 1) (before ++ g.pattern.names) next rest
      let needed := needs g (innerNeeds.insertAll next.source.reads)
      (stageOf environment depth before g needed (.flatMap inner.toFrame inner.node), needed)

/-- Compiles a sequence and its final expression. The entry scope holds what the
outermost source reads. -/
def compile (s : Sequence m ε V) (final : Expression m ε V V) : Except Fault (Chain m ε V) := do
  checkClauses s.environment final.reads [] 0 s.clauses
  return {
    root := (assemble s.environment final 0 [] s.first s.rest).1
    entry := s.environment.project s.first.source.reads }

end Sequence

/-- The event that reports a freshly compiled chain. -/
def Chain.compiledEvent (c : Chain m ε V) : Event :=
  .compiled c.generatorCount c.guardCount c.entry.size

end Comprehension
