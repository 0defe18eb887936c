/-
Lists as sources of a comprehension.

A value that stands for a list of values offers the operations of lists: `map` gives
one value for each item, `flatMap` joins the lists that its body gives, `filter`
keeps the items that pass. Items are taken in order, each exactly once, and the first
error stops the operation.

Which values stand for lists is left open: `pack` makes one of a list, and `unpack?`
recognises one. A body of `flatMap` that gives anything else is refused.
-/

import Comprehension.Operations

namespace Comprehension

/-- How lists are represented among the values. -/
structure ListForm (ε V : Type) where
  /-- The value that stands for a list. -/
  pack : List V → V
  /-- The list that a value stands for. -/
  unpack? : V → Option (List V)
  /-- The error for a value that stands for no list. -/
  refuse : V → ε

namespace ListForm

variable {m : Type → Type} {ε V : Type} [Monad m]

/-- Runs a body on each item, in order. -/
def mapItems (body : V → ExceptT ε m V) : List V → ExceptT ε m (List V)
  | [] => pure []
  | v :: rest => do
      let w ← body v
      let ws ← mapItems body rest
      pure (w :: ws)

/-- Joins the lists that a body gives, in order. -/
def joinItems (form : ListForm ε V) (body : V → ExceptT ε m V) : List V → ExceptT ε m (List V)
  | [] => pure []
  | v :: rest => do
      let w ← body v
      match form.unpack? w with
      | some ws => do
          let us ← form.joinItems body rest
          pure (ws ++ us)
      | none => throw (form.refuse w)

/-- Keeps the items that pass a test, in order. -/
def keepItems (test : V → ExceptT ε m Bool) : List V → ExceptT ε m (List V)
  | [] => pure []
  | v :: rest => do
      let keep ← test v
      let vs ← keepItems test rest
      pure (if keep then v :: vs else vs)

/-- The operations of a list. -/
def operations (form : ListForm ε V) (items : List V) : Operations m ε V where
  map body := do
    let ws ← mapItems body items
    return form.pack ws
  flatMap body := do
    let ws ← form.joinItems body items
    return form.pack ws
  filter := some fun test => do
    let vs ← keepItems test items
    return form.pack vs

end ListForm

end Comprehension
