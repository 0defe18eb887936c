/-
Patterns: how a generator binds the elements drawn from its source.

A pattern is a name, a wildcard or a tuple of patterns. Matching walks the pattern
from left to right, outermost first: a name takes the value at its place, a
wildcard takes nothing, and a tuple of `k` parts is entered only if the value there
splits into exactly `k` parts. The walk stops at the first tuple that cannot be
entered; the names that came before it stay bound.
-/

import Comprehension.Scope

namespace Comprehension

/-- What a generator binds. -/
inductive Pattern where
  /-- Binds the whole value to a name. -/
  | name (name : Name)
  /-- Accepts any value and binds nothing. -/
  | wildcard
  /-- Splits the value and matches part by part. -/
  | tuple (parts : List Pattern)

/-- Values that may come apart into parts. `split v k` is what `v` gives when it is
asked for `k` parts; a value may refuse, and may also answer with a different number
of them. A value splits into nothing unless it says otherwise. -/
class Splittable (V : Type) where
  split : V → Nat → Option (List V) := fun _ _ => none

namespace Pattern

/-- The pattern a plain word stands for: `_` is the wildcard and any other word a
name. A name spelled `_` is written `Pattern.name`. -/
def ofWord (word : String) : Pattern :=
  if word = "_" then .wildcard else .name ⟨word⟩

mutual

/-- The names a pattern binds, from left to right. -/
def names : Pattern → List Name
  | .name n => [n]
  | .wildcard => []
  | .tuple parts => namesOfAll parts

/-- The names bound by a row of patterns. -/
def namesOfAll : List Pattern → List Name
  | [] => []
  | p :: ps => p.names ++ namesOfAll ps

end

mutual

/-- A pattern as it is written: a tuple in parentheses, a wildcard as `_`. -/
def render : Pattern → String
  | .name n => n.text
  | .wildcard => "_"
  | .tuple parts => "(" ++ ", ".intercalate (renderAll parts) ++ ")"

def renderAll : List Pattern → List String
  | [] => []
  | p :: ps => p.render :: renderAll ps

end

instance : ToString Pattern := ⟨render⟩

mutual

/-- Equality of patterns is decidable, part by part. -/
def decEq : (p q : Pattern) → Decidable (p = q)
  | .name a, .name b =>
      if h : a = b then isTrue (h ▸ rfl) else isFalse fun e => h (by injection e)
  | .wildcard, .wildcard => isTrue rfl
  | .tuple ps, .tuple qs =>
      match decEqAll ps qs with
      | isTrue h => isTrue (h ▸ rfl)
      | isFalse h => isFalse fun e => h (by injection e)
  | .name _, .wildcard => isFalse nofun
  | .name _, .tuple _ => isFalse nofun
  | .wildcard, .name _ => isFalse nofun
  | .wildcard, .tuple _ => isFalse nofun
  | .tuple _, .name _ => isFalse nofun
  | .tuple _, .wildcard => isFalse nofun

def decEqAll : (ps qs : List Pattern) → Decidable (ps = qs)
  | [], [] => isTrue rfl
  | p :: ps, q :: qs =>
      match decEq p q, decEqAll ps qs with
      | isTrue hp, isTrue hps => isTrue (hp ▸ hps ▸ rfl)
      | isFalse hp, _ => isFalse fun e => hp (by injection e)
      | _, isFalse hps => isFalse fun e => hps (by injection e)
  | [], _ :: _ => isFalse nofun
  | _ :: _, [] => isFalse nofun

end

instance : DecidableEq Pattern := decEq

section Matching

variable {V : Type} [Splittable V]

/-- The parts of a value, if it splits into exactly `k` of them. -/
def parts? (v : V) (k : Nat) : Option (List V) :=
  (Splittable.split v k).filter fun vs => vs.length = k

/-- A match under way: it binds names in a scope and may stop with a fault, which
keeps what was bound before. -/
abbrev Binding (V α : Type) : Type := ExceptT Fault (StateM (Scope V)) α

mutual

/-- Matches a value of generator `depth` against a pattern. -/
def bind (depth : Nat) : Pattern → V → Binding V Unit
  | .name n, v => modify fun s => s.insert n v
  | .wildcard, _ => pure ()
  | .tuple ps, v =>
      match parts? v ps.length with
      | some vs => bindAll depth ps vs
      | none => throw (.patternMismatch ps.length depth)

/-- Matches a row of values against a row of patterns of the same length. -/
def bindAll (depth : Nat) : List Pattern → List V → Binding V Unit
  | p :: ps, v :: vs => do
      bind depth p v
      bindAll depth ps vs
  | _, _ => pure ()

end

/-- The scope after a successful match, or the fault that stopped it. -/
def extend (depth : Nat) (p : Pattern) (v : V) (s : Scope V) : Except Fault (Scope V) :=
  match (bind depth p v).run s with
  | (.ok (), s') => .ok s'
  | (.error fault, _) => .error fault

end Matching

end Pattern

end Comprehension
