/-
Optional values as sources of a comprehension.

A value that stands for something or nothing offers the operations of a list with at
most one item, except that the answer of `flatMap` is whatever its body gives. With
nothing inside, no continuation is ever called.
-/

import Comprehension.Operations

namespace Comprehension

/-- How optional values are represented among the values. -/
structure OptionalForm (V : Type) where
  /-- The value that holds another. -/
  present : V → V
  /-- The value that holds none. -/
  absent : V

namespace OptionalForm

variable {m : Type → Type} {ε V : Type} [Monad m]

/-- The operations of an optional value, given what it holds. -/
def operations (form : OptionalForm V) (held : Option V) : Operations m ε V where
  map body :=
    match held with
    | some v => do
        let w ← body v
        return form.present w
    | none => return form.absent
  flatMap body :=
    match held with
    | some v => body v
    | none => return form.absent
  filter := some fun test =>
    match held with
    | some v => do
        let keep ← test v
        return if keep then form.present v else form.absent
    | none => return form.absent

end OptionalForm

end Comprehension
