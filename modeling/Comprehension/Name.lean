/-
Names of bindings.

A name is a piece of text. The library compares names and lists them in the
order in which they were introduced; it never looks inside one. The order on
names is the order of their texts by code point, and it is lawful, so that a
search tree may be keyed by names.
-/

import Std.Data.TreeSet

namespace Comprehension

/-- The identifier of a binding: introduced by a generator's pattern or captured
from the surroundings of a comprehension. -/
structure Name where
  text : String
deriving DecidableEq

namespace Name

instance : ToString Name := ⟨text⟩

/-- Names are ordered as their texts are, by code point. -/
instance : Ord Name := ⟨fun a b => compare a.text b.text⟩

instance : Std.TransOrd Name where
  eq_swap {a b} :=
    show compare a.text b.text = (compare b.text a.text).swap from Std.OrientedOrd.eq_swap
  isLE_trans {a b c} := fun (hab : (compare a.text b.text).isLE)
    (hbc : (compare b.text c.text).isLE) =>
    show (compare a.text c.text).isLE from Std.TransOrd.isLE_trans hab hbc

instance : Std.LawfulEqOrd Name where
  compare_self {a} := show compare a.text a.text = .eq from Std.ReflOrd.compare_self
  eq_of_compare {a b} h := by
    have same : a.text = b.text := Std.LawfulEqOrd.eq_of_compare h
    cases a; cases b; exact congrArg mk same

end Name

end Comprehension
