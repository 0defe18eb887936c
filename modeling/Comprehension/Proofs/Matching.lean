/-
What a match binds.

Matching is a walk over the pattern that changes a scope as it goes. The walk itself
does not look at the scope: `Pattern.walk` gives the pairs it binds, in order, and the
tuple it stops at, if any, from the pattern and the value alone.

* `Pattern.run_bind`: matching inserts the pairs of the walk, one after the other,
  and fails exactly when the walk stops.
* `Pattern.extend_eq`: so whether a match succeeds, and with which fault it fails, is
  the same in every scope.
* `Pattern.map_fst_walk`: a walk that is not stopped binds the names of the pattern,
  in order.
-/

import Comprehension.Pattern
import Comprehension.Proofs.ScopeLaws

namespace Comprehension

namespace Pattern

variable {V : Type} [Splittable V]

mutual

/-- The pairs that matching a value binds, and the number of parts of the tuple that
the walk cannot enter, if there is one. -/
def walk : Pattern → V → List (Name × V) × Option Nat
  | .name n, v => ([(n, v)], none)
  | .wildcard, _ => ([], none)
  | .tuple ps, v =>
      match parts? v ps.length with
      | some vs => walkAll ps vs
      | none => ([], some ps.length)

/-- The walk over a row of patterns, which ends with the first that is stopped. -/
def walkAll : List Pattern → List V → List (Name × V) × Option Nat
  | p :: ps, v :: vs =>
      match walk p v with
      | (pairs, none) => (pairs ++ (walkAll ps vs).1, (walkAll ps vs).2)
      | (pairs, some k) => (pairs, some k)
  | _, _ => ([], none)

end

/-- How a match ends, by the tuple its walk was stopped at. -/
def ending (depth : Nat) : Option Nat → Except Fault Unit
  | none => .ok ()
  | some k => .error (.patternMismatch k depth)

omit [Splittable V] in
/-- A match of two parts goes on with the second in the scope that the first left,
unless the first failed. -/
theorem run_seq (first second : Binding V Unit) (s : Scope V) :
    (do first; second : Binding V Unit).run s =
      match first.run s with
      | (.ok (), s') => second.run s'
      | (.error fault, s') => (.error fault, s') := by
  show (first.run >>= ExceptT.bindCont fun _ => second) s = _
  show (let (a, s') := first.run s; ExceptT.bindCont (fun _ => second) a s') = _
  rcases first.run s with ⟨_ | _, s'⟩ <;> rfl

mutual

/-- **Matching inserts the pairs of the walk**, whatever the scope, and ends as the
walk does. -/
theorem run_bind (depth : Nat) (p : Pattern) (v : V) (s : Scope V) :
    (bind depth p v).run s = (ending depth (walk p v).2, s.insertAll (walk p v).1) := by
  match p with
  | .name n => rfl
  | .wildcard => rfl
  | .tuple ps =>
    cases split : parts? v ps.length with
    | none => simp only [bind, walk, split]; rfl
    | some vs => simp only [bind, walk, split]; exact run_bindAll depth ps vs s

theorem run_bindAll (depth : Nat) (ps : List Pattern) (vs : List V) (s : Scope V) :
    (bindAll depth ps vs).run s =
      (ending depth (walkAll ps vs).2, s.insertAll (walkAll ps vs).1) := by
  match ps, vs with
  | [], _ => rfl
  | _ :: _, [] => rfl
  | p :: ps, v :: vs =>
    have head := run_bind depth p v s
    rcases walked : walk p v with ⟨pairs, _ | k⟩
    · have tail := run_bindAll depth ps vs (s.insertAll pairs)
      rw [walked] at head
      simp only [bindAll, run_seq, head, walkAll, walked, ending, tail, Scope.insertAll_append]
    · rw [walked] at head
      simp only [bindAll, run_seq, head, walkAll, walked, ending]

end

/-- **Matching in a scope is inserting into it**: success and fault depend on the
pattern and the value only. -/
theorem extend_eq (depth : Nat) (p : Pattern) (v : V) (s : Scope V) :
    p.extend depth v s =
      match walk p v with
      | (pairs, none) => .ok (s.insertAll pairs)
      | (_, some k) => .error (.patternMismatch k depth) := by
  rw [extend, run_bind]
  rcases walk p v with ⟨pairs, _ | k⟩ <;> rfl

/-! ### The names that a walk binds -/

theorem length_of_parts? {v : V} {k : Nat} {vs : List V} (split : parts? v k = some vs) :
    vs.length = k := by
  simpa using (Option.filter_eq_some_iff.mp split).2

mutual

/-- A walk that is not stopped binds the names of its pattern, in order. -/
theorem map_fst_walk {p : Pattern} {v : V} (ends : (walk p v).2 = none) :
    (walk p v).1.map Prod.fst = p.names := by
  match p with
  | .name n => rfl
  | .wildcard => rfl
  | .tuple ps =>
    cases split : parts? v ps.length with
    | none => simp [walk, split] at ends
    | some vs =>
      simp only [walk, split, names] at ends ⊢
      exact map_fst_walkAll (length_of_parts? split) ends

theorem map_fst_walkAll {ps : List Pattern} {vs : List V} (row : vs.length = ps.length)
    (ends : (walkAll ps vs).2 = none) : (walkAll ps vs).1.map Prod.fst = namesOfAll ps := by
  match ps, vs with
  | [], _ => rfl
  | _ :: _, [] => cases row
  | p :: ps, v :: vs =>
    rcases walked : walk p v with ⟨pairs, _ | k⟩
    · simp only [walkAll, walked] at ends ⊢
      have head := map_fst_walk (p := p) (v := v) (by rw [walked])
      have tail := map_fst_walkAll (Nat.succ.inj row) ends
      rw [walked] at head
      rw [List.map_append, head, tail, namesOfAll]
    · simp [walkAll, walked] at ends

end

/-- **What a successful match does to the scope**: it inserts pairs for the names of
the pattern, the same pairs in every scope. -/
theorem exists_pairs_of_extend {depth : Nat} {p : Pattern} {v : V} {s s' : Scope V}
    (entered : p.extend depth v s = .ok s') :
    ∃ pairs : List (Name × V), pairs.map Prod.fst = p.names ∧ s' = s.insertAll pairs ∧
      ∀ t : Scope V, p.extend depth v t = .ok (t.insertAll pairs) := by
  rw [extend_eq] at entered
  rcases walked : walk p v with ⟨pairs, _ | k⟩
  · rw [walked] at entered
    have bound := map_fst_walk (p := p) (v := v) (by rw [walked])
    rw [walked] at bound
    refine ⟨pairs, bound, (Except.ok.inj entered).symm, fun t => ?_⟩
    rw [extend_eq, walked]
  · rw [walked] at entered
    cases entered

/-- A match that fails in one scope fails in every scope, with the same fault. -/
theorem extend_eq_error {depth : Nat} {p : Pattern} {v : V} {s : Scope V} {fault : Fault}
    (failed : p.extend depth v s = .error fault) (t : Scope V) :
    p.extend depth v t = .error fault := by
  rw [extend_eq] at failed ⊢
  rcases walked : walk p v with ⟨pairs, _ | k⟩
  · rw [walked] at failed
    cases failed
  · rw [walked] at failed
    exact failed

end Pattern

end Comprehension
