/-
The three operations a comprehension asks of its values, and the sites at which it
asks for them.

A comprehension is built from `map`, `flatMap` and `filter` alone. A site says for
which generator, and for which of its guards, an operation is called.
-/

namespace Comprehension

/-- One of the operations that a value may offer, in the order in which they are
listed. -/
inductive Capability where
  | map
  | flatMap
  | filter
deriving DecidableEq

namespace Capability

/-- Every capability, in order. -/
def all : List Capability := [.map, .flatMap, .filter]

/-- The name under which a capability is written. -/
def name : Capability → String
  | .map => "map"
  | .flatMap => "flatMap"
  | .filter => "filter"

/-- Finds a capability by name; `flat_map` is a second spelling of `flatMap`. -/
def ofName? : String → Option Capability
  | "map" => some .map
  | "flatMap" => some .flatMap
  | "flat_map" => some .flatMap
  | "filter" => some .filter
  | _ => none

instance : ToString Capability := ⟨name⟩

@[simp] theorem ofName?_name (c : Capability) : ofName? c.name = some c := by
  cases c <;> rfl

theorem mem_all (c : Capability) : c ∈ all := by
  cases c <;> simp [all]

end Capability

/-- Where an operation is called: the depth of the generator, counted from the
outermost, and for a filter the position of the guard among that generator's
guards. -/
structure Site where
  depth : Nat
  guard : Option Nat
deriving DecidableEq

namespace Site

/-- The site of a generator's own `map` or `flatMap`. -/
def generator (depth : Nat) : Site := ⟨depth, none⟩

/-- The site of a generator's filter for one of its guards. -/
def guarded (depth guard : Nat) : Site := ⟨depth, some guard⟩

/-- A site in words. -/
def render : Site → String
  | ⟨depth, none⟩ => s!"generator {depth}"
  | ⟨depth, some guard⟩ => s!"generator {depth} guard {guard}"

instance : ToString Site := ⟨render⟩

end Site

end Comprehension
