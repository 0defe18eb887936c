/-
Chains written out as the calls they stand for.

A stage reads `source.filter(|p| guard).flatMap(|p| …)`, with the next stage inside
the parentheses, and the innermost one ends in `.map(|p| result)`. Expressions go by
their labels. One without a label is called after its place: `source2` is the source
of generator 2, `guard2_0` its first guard, and `result` the final expression.
-/

import Comprehension.Chain

namespace Comprehension

variable {m : Type → Type} {ε V : Type}

/-- The text of a source. -/
def Frame.renderSource (f : Frame m ε V) : String := f.source.labelOr s!"source{f.depth}"

/-- A call of an operation with a closure over a pattern. -/
def renderCall (capability : Capability) (pattern : Pattern) (body : String) : String :=
  s!".{capability}(|{pattern}| {body})"

/-- The calls of a node of the stage `f`. -/
def Node.render : Node m ε V → Frame m ε V → String
  | .map body, f => renderCall .map f.pattern (body.labelOr "result")
  | .flatMap next node, f =>
      renderCall .flatMap f.pattern (next.renderSource ++ node.render next)
  | .filter guard predicate node, f =>
      renderCall .filter f.pattern (predicate.labelOr s!"guard{f.depth}_{guard}") ++
        node.render f

/-- A stage: its source, then its calls. -/
def Stage.render (s : Stage m ε V) : String := s.renderSource ++ s.node.render s.toFrame

/-- A chain is written as its outermost stage. -/
def Chain.render (c : Chain m ε V) : String := c.root.render

instance : ToString (Stage m ε V) := ⟨Stage.render⟩

instance : ToString (Chain m ε V) := ⟨Chain.render⟩

end Comprehension
