/-
Well-formed sequences of clauses.

A `Sequence` is what a list of clauses becomes once it has been accepted: at least
one generator, each with the guards that follow it, no name bound twice, and the
environment of captured values. A leading guard or an empty list has no
representation here, so nothing downstream has to treat those cases.

`Sequence.ofClauses` is the one way in. It reports an empty list first, then a
leading guard, then the first name that repeats an earlier one in the order in which
the patterns are written. `Sequence.clauses` is the way back to the flat list.
-/

import Comprehension.Clause

namespace Comprehension

/-- A generator with the guards that belong to it, in source order. -/
structure Generator (m : Type → Type) (ε V : Type) where
  pattern : Pattern
  source : Expression m ε V V
  guards : List (Expression m ε V Bool)

/-- The flat clauses of a generator: itself, then its guards. -/
def Generator.clauses {m : Type → Type} {ε V : Type} (g : Generator m ε V) :
    List (Clause m ε V) :=
  .generator g.pattern g.source :: g.guards.map .guard

/-- A well-formed comprehension, its final expression apart. -/
structure Sequence (m : Type → Type) (ε V : Type) where
  first : Generator m ε V
  rest : List (Generator m ε V)
  /-- The captured values. -/
  environment : Scope V
  /-- No name is bound twice. -/
  distinct : ((first :: rest).flatMap fun g => g.pattern.names).Nodup

/-! ### The first repeated name -/

/-- The first name of the list that occurs among `seen` or earlier in the list. -/
def firstRepeat? (seen : List Name) : List Name → Option Name
  | [] => none
  | n :: ns => if n ∈ seen then some n else firstRepeat? (n :: seen) ns

/-- There is no repeat exactly when the list has no duplicate and avoids `seen`. -/
theorem firstRepeat?_eq_none_iff {seen names : List Name} :
    firstRepeat? seen names = none ↔ names.Nodup ∧ ∀ n ∈ names, n ∉ seen := by
  induction names generalizing seen with
  | nil => simp [firstRepeat?]
  | cons n ns ih =>
    by_cases h : n ∈ seen
    · simp [firstRepeat?, h]
    · simp only [firstRepeat?, if_neg h, ih, List.nodup_cons, List.mem_cons, not_or,
        forall_eq_or_imp]
      constructor
      · rintro ⟨nodup, avoid⟩
        exact ⟨⟨fun mem => (avoid n mem).1 rfl, nodup⟩, h, fun k mem => (avoid k mem).2⟩
      · rintro ⟨⟨fresh, nodup⟩, _, avoid⟩
        exact ⟨nodup, fun k mem => ⟨fun e => fresh (e ▸ mem), avoid k mem⟩⟩

namespace Sequence

variable {m : Type → Type} {ε V : Type}

/-- All generators, outermost first. -/
def generators (s : Sequence m ε V) : List (Generator m ε V) := s.first :: s.rest

/-- The flat list of clauses. -/
def clauses (s : Sequence m ε V) : List (Clause m ε V) := s.generators.flatMap Generator.clauses

def generatorCount (s : Sequence m ε V) : Nat := s.generators.length

def guardCount (s : Sequence m ε V) : Nat := (s.generators.flatMap fun g => g.guards).length

/-! ### From clauses to generators -/

/-- Sorts clauses into the guards that stand in front and the generators after them,
each with its own guards. -/
def gather : List (Clause m ε V) → List (Expression m ε V Bool) × List (Generator m ε V)
  | [] => ([], [])
  | .guard predicate :: rest =>
      let (guards, generators) := gather rest
      (predicate :: guards, generators)
  | .generator pattern source :: rest =>
      let (guards, generators) := gather rest
      ([], ⟨pattern, source, guards⟩ :: generators)

/-- Gathering keeps the bound names and their order. -/
theorem flatMap_names_gather (clauses : List (Clause m ε V)) :
    (gather clauses).2.flatMap (fun g => g.pattern.names) =
      clauses.flatMap Clause.boundNames := by
  induction clauses with
  | nil => rfl
  | cons c rest ih =>
    cases c with
    | generator pattern source => simp [gather, Clause.boundNames, ih]
    | guard predicate => simp [gather, Clause.boundNames, ih]

/-- Gathering loses nothing: the guards in front and the flat clauses of the
generators are the given list. -/
theorem clauses_gather (clauses : List (Clause m ε V)) :
    (gather clauses).1.map Clause.guard ++ (gather clauses).2.flatMap Generator.clauses =
      clauses := by
  induction clauses with
  | nil => rfl
  | cons c rest ih =>
    cases c with
    | generator pattern source => simp [gather, Generator.clauses, ih]
    | guard predicate => simp [gather, ih]

/-- Accepts a list of clauses over an environment, or says what is wrong with it. -/
def ofClauses (clauses : List (Clause m ε V)) (environment : Scope V) :
    Except Fault (Sequence m ε V) :=
  match clauses with
  | [] => .error (.malformed .empty)
  | .guard _ :: _ => .error (.malformed .leadingGuard)
  | .generator pattern source :: rest =>
      match h : firstRepeat? [] (pattern.names ++ rest.flatMap Clause.boundNames) with
      | some n => .error (.malformed (.duplicateName n))
      | none =>
          .ok {
            first := ⟨pattern, source, (gather rest).1⟩
            rest := (gather rest).2
            environment := environment
            distinct := by
              rw [List.flatMap_cons, flatMap_names_gather]
              exact (firstRepeat?_eq_none_iff.mp h).1 }

end Sequence

end Comprehension
