/-
What becomes of a draft.

A draft is written line by line: generators, guards and captures in any order. Of the lines
only two things count, the clauses among them and the captures among them, each in its own
order. Building then accepts the clauses or says what is wrong with them.

A name is repeated if it stands at two positions. Here a position is the index of a clause,
followed by the position in its pattern, so positions are ordered as the text is, within a
pattern and across generators alike.

* `Draft.write_eq`: the draft that lines make.
* `firstRepeat?_eq_some_iff`: the name that is blamed, by what stands before it.
* `Sequence.exists_listed`: the names of clauses, by position.
* `judged_ofClauses`: each verdict, and when it is given.
* `build_write_judged`: drafts are judged by their clauses, wherever values are captured.
-/

import Comprehension.Draft
import Comprehension.Proofs.Positions
import Comprehension.Proofs.ReadBack

namespace Comprehension

variable {m : Type → Type} {ε V : Type}

/-! ### Lines of a draft -/

namespace Draft

/-- One line of a draft. -/
inductive Line (m : Type → Type) (ε V : Type) where
  | capture (n : Name) (v : V)
  | bind (pattern : Pattern) (source : Expression m ε V V)
  | guard (predicate : Expression m ε V Bool)

namespace Line

/-- Adds the line to a draft. -/
def addTo (d : Draft m ε V) : Line m ε V → Draft m ε V
  | .capture n v => d.capture n v
  | .bind pattern source => d.bind pattern source
  | .guard predicate => d.guard predicate

/-- The clause that the line adds. -/
def clause? : Line m ε V → Option (Clause m ε V)
  | .capture _ _ => none
  | .bind pattern source => some (.generator pattern source)
  | .guard predicate => some (.guard predicate)

/-- The value that the line captures, with its name. -/
def captured? : Line m ε V → Option (Name × V)
  | .capture n v => some (n, v)
  | .bind _ _ => none
  | .guard _ => none

theorem addTo_eq (d : Draft m ε V) (line : Line m ε V) :
    line.addTo d =
      ⟨d.clauses ++ line.clause?.toList, d.environment.insertAll line.captured?.toList⟩ := by
  cases line with
  | capture n v =>
    show (⟨d.clauses, _⟩ : Draft m ε V) = ⟨d.clauses ++ [], _⟩
    rw [List.append_nil]
    rfl
  | bind pattern source => rfl
  | guard predicate => rfl

end Line

/-- The draft with these lines. -/
def write (lines : List (Line m ε V)) : Draft m ε V := lines.foldl Line.addTo empty

theorem foldl_addTo (lines : List (Line m ε V)) (d : Draft m ε V) :
    lines.foldl Line.addTo d =
      ⟨d.clauses ++ lines.filterMap Line.clause?,
        d.environment.insertAll (lines.filterMap Line.captured?)⟩ := by
  induction lines generalizing d with
  | nil => simp
  | cons line rest ih =>
    rw [List.foldl_cons, ih, Line.addTo_eq]
    simp only [List.append_assoc, ← Scope.insertAll_append]
    cases line <;> rfl

/-- **A draft is its clauses and its captures**, each in the order of the lines. -/
theorem write_eq (lines : List (Line m ε V)) :
    write lines =
      ⟨lines.filterMap Line.clause?, Scope.ofList (lines.filterMap Line.captured?)⟩ :=
  foldl_addTo lines empty

end Draft

/-! ### The name that is blamed -/

/-- The first repeat of a list, by what stands before it. -/
theorem firstRepeat?_eq_some_iff {seen names : List Name} {n : Name} :
    firstRepeat? seen names = some n ↔
      ∃ before after, names = before ++ n :: after ∧ (n ∈ seen ∨ n ∈ before) ∧
        before.Nodup ∧ ∀ k ∈ before, k ∉ seen := by
  induction names generalizing seen with
  | nil => simp [firstRepeat?]
  | cons k rest ih =>
    by_cases known : k ∈ seen
    · rw [firstRepeat?, if_pos known]
      constructor
      · rintro ⟨⟩
        exact ⟨[], rest, rfl, .inl known, List.nodup_nil, List.forall_mem_nil _⟩
      · rintro ⟨_ | ⟨b, before⟩, after, split, -, -, avoid⟩
        · cases split
          rfl
        · cases split
          exact absurd known (avoid k List.mem_cons_self)
    · have moved (before : List Name) :
          (n ∈ k :: seen ∨ n ∈ before) ↔ (n ∈ seen ∨ n ∈ k :: before) := by
        rw [List.mem_cons, List.mem_cons, or_assoc, or_left_comm]
      rw [firstRepeat?, if_neg known, ih]
      constructor
      · rintro ⟨before, after, rfl, repeated, nodup, avoid⟩
        have fresh : k ∉ before := fun mem => avoid k mem List.mem_cons_self
        refine ⟨k :: before, after, rfl, (moved before).mp repeated,
          List.nodup_cons.mpr ⟨fresh, nodup⟩, List.forall_mem_cons.mpr ⟨known, ?_⟩⟩
        exact fun j mem seen => avoid j mem (List.mem_cons_of_mem k seen)
      · rintro ⟨_ | ⟨b, before⟩, after, split, repeated, nodup, avoid⟩
        · cases split
          exact absurd (repeated.resolve_right List.not_mem_nil) known
        · cases split
          obtain ⟨fresh, nodup⟩ := List.nodup_cons.mp nodup
          obtain ⟨-, avoid⟩ := List.forall_mem_cons.mp avoid
          refine ⟨before, after, rfl, (moved before).mpr repeated, nodup, fun j mem => ?_⟩
          rw [List.mem_cons]
          rintro (rfl | seen)
          · exact fresh mem
          · exact avoid j mem seen

theorem firstRepeat?_nil_eq_some_iff {names : List Name} {n : Name} :
    firstRepeat? [] names = some n ↔
      ∃ before after, names = before ++ n :: after ∧ n ∈ before ∧ before.Nodup := by
  simp [firstRepeat?_eq_some_iff]

namespace Sequence

/-- The name is bound at the position, which is the index of a generator and a position in
its pattern. -/
def BoundAt (clauses : List (Clause m ε V)) (position : List Nat) (n : Name) : Prop :=
  ∃ i rest pattern source, position = i :: rest ∧
    clauses[i]? = some (.generator pattern source) ∧ pattern.At rest (.name n)

/-- The pattern of a clause. A guard binds as little as a wildcard does. -/
def patternOf : Clause m ε V → Pattern
  | .generator pattern _ => pattern
  | .guard _ => .wildcard

theorem namesOfAll_map_patternOf (clauses : List (Clause m ε V)) :
    Pattern.namesOfAll (clauses.map patternOf) = clauses.flatMap Clause.boundNames := by
  induction clauses with
  | nil => rfl
  | cons c rest ih =>
    rw [List.map_cons, Pattern.namesOfAll, ih, List.flatMap_cons]
    cases c <;> rfl

/-- Clauses bind their names where the tuple of their patterns does. -/
theorem at_tuple_iff {clauses : List (Clause m ε V)} {position : List Nat} {n : Name} :
    (Pattern.tuple (clauses.map patternOf)).At position (.name n) ↔
      BoundAt clauses position n := by
  constructor
  · rintro (_ | @⟨_, i, p, _, rest, found, stands⟩)
    rw [List.getElem?_map] at found
    obtain ⟨c, found', rfl⟩ := Option.map_eq_some_iff.mp found
    cases c with
    | generator pattern source => exact ⟨i, rest, pattern, source, rfl, found', stands⟩
    | guard predicate => cases stands
  · rintro ⟨i, rest, pattern, source, rfl, found, stands⟩
    refine .part ?_ stands
    rw [List.getElem?_map, found]
    rfl

/-- The names that clauses bind are those at their positions, in order. -/
theorem exists_listed (clauses : List (Clause m ε V)) :
    ∃ sites, Listed (BoundAt clauses) sites ∧
      sites.map Prod.snd = clauses.flatMap Clause.boundNames := by
  obtain ⟨sites, listed, names⟩ := Pattern.exists_sites (.tuple (clauses.map patternOf))
  refine ⟨sites, ⟨listed.ordered, fun position n => ?_⟩, ?_⟩
  · exact (listed.mem_iff position n).trans at_tuple_iff
  · rw [names, Pattern.names, namesOfAll_map_patternOf]

/-! ### Verdicts -/

/-- The verdict on clauses over an environment: each answer is given in exactly one case. -/
structure Judged (clauses : List (Clause m ε V)) (environment : Scope V)
    (verdict : Except Fault (Sequence m ε V)) : Prop where
  empty_iff : verdict = .error (.malformed .empty) ↔ clauses = []
  leadingGuard_iff : verdict = .error (.malformed .leadingGuard) ↔
    ∃ predicate rest, clauses = .guard predicate :: rest
  /-- The name blamed is the first that occurs among those before it. -/
  duplicateName_iff : ∀ n, verdict = .error (.malformed (.duplicateName n)) ↔
    (∃ pattern source rest, clauses = .generator pattern source :: rest) ∧
      ∃ before after, clauses.flatMap Clause.boundNames = before ++ n :: after ∧
        n ∈ before ∧ before.Nodup
  /-- What is accepted is those clauses over that environment. -/
  accepted_iff : (∃ s, verdict = .ok s ∧ s.clauses = clauses ∧ s.environment = environment) ↔
    (∃ pattern source rest, clauses = .generator pattern source :: rest) ∧
      (clauses.flatMap Clause.boundNames).Nodup

theorem ofClauses_of_firstRepeat {pattern : Pattern} {source : Expression m ε V V}
    {rest : List (Clause m ε V)} {n : Name}
    (repeated : firstRepeat? [] (pattern.names ++ rest.flatMap Clause.boundNames) = some n)
    (environment : Scope V) :
    ofClauses (.generator pattern source :: rest) environment =
      .error (.malformed (.duplicateName n)) := by
  rw [ofClauses]
  split
  · rename_i k found
    rw [repeated] at found
    cases found
    rfl
  · rename_i found
    rw [repeated] at found
    cases found

/-- **Every list of clauses gets the verdict it deserves.** -/
theorem judged_ofClauses (clauses : List (Clause m ε V)) (environment : Scope V) :
    Judged clauses environment (ofClauses clauses environment) := by
  match clauses with
  | [] => constructor <;> simp [ofClauses]
  | .guard predicate :: rest => constructor <;> simp [ofClauses]
  | .generator pattern source :: rest =>
    have names : (Clause.generator pattern source :: rest).flatMap Clause.boundNames =
        pattern.names ++ rest.flatMap Clause.boundNames := rfl
    have blamed (k : Name) : firstRepeat? [] (pattern.names ++ rest.flatMap Clause.boundNames) =
        some k ↔ _ := firstRepeat?_nil_eq_some_iff
    cases found : firstRepeat? [] (pattern.names ++ rest.flatMap Clause.boundNames) with
    | some n =>
      have repeated : ¬ (pattern.names ++ rest.flatMap Clause.boundNames).Nodup := fun nodup => by
        rw [firstRepeat?_eq_none_iff.mpr ⟨nodup, fun _ _ => List.not_mem_nil⟩] at found
        cases found
      rw [ofClauses_of_firstRepeat found]
      refine ⟨by simp, by simp, fun k => ?_, ?_⟩
      · rw [names, ← blamed, found]
        simp
      · rw [names]
        simp [repeated]
    | none =>
      have nodup := (firstRepeat?_eq_none_iff.mp found).1
      obtain ⟨s, accepted⟩ :
          ∃ s, ofClauses (.generator pattern source :: rest) environment = .ok s :=
        exists_ofClauses nodup environment
      rw [accepted]
      refine ⟨by simp, by simp, fun k => ?_, ?_⟩
      · rw [names, ← blamed, found]
        simp
      · exact ⟨fun _ => ⟨⟨pattern, source, rest, rfl⟩, nodup⟩,
          fun _ => ⟨s, rfl, of_ofClauses accepted⟩⟩

end Sequence

/-! ### Building a draft -/

/-- **Building judges the clauses of a draft, wherever its values are captured.** The draft
that lines make builds as its clauses do over its captures, each name at the place of its
first capture and with the value of its last; lines with the same clauses and captures in
another interleaving build the same. Any list of clauses is refused if it is empty, or
starts with a guard, or else for the name at the first position that repeats an earlier
one; and if none of this is so, it is accepted as it is. -/
theorem build_write_judged (lines : List (Draft.Line m ε V)) (clauses : List (Clause m ε V))
    (environment : Scope V) :
    let captured := lines.filterMap Draft.Line.captured?
    (Draft.write lines).build =
        Sequence.ofClauses (lines.filterMap Draft.Line.clause?) (Scope.ofList captured) ∧
      (Scope.ofList captured).names = (captured.map Prod.fst).eraseDups ∧
      (∀ before n v after, captured = before ++ (n, v) :: after → n ∉ after.map Prod.fst →
        (Scope.ofList captured).get? n = some v) ∧
      (∀ lines', lines'.filterMap Draft.Line.clause? = lines.filterMap Draft.Line.clause? →
        lines'.filterMap Draft.Line.captured? = captured →
        (Draft.write lines').build = (Draft.write lines).build) ∧
      Sequence.Judged clauses environment (Sequence.ofClauses clauses environment) ∧
      (∀ n, (∃ before after, clauses.flatMap Clause.boundNames = before ++ n :: after ∧
          n ∈ before ∧ before.Nodup) ↔
        ∃ position, Repeats (Sequence.BoundAt clauses) position n ∧
          ∀ position' k, Repeats (Sequence.BoundAt clauses) position' k →
            ¬ position' < position) ∧
      ((clauses.flatMap Clause.boundNames).Nodup ↔
        ∀ position n, ¬ Repeats (Sequence.BoundAt clauses) position n) := by
  intro captured
  have build (lines : List (Draft.Line m ε V)) : (Draft.write lines).build =
      Sequence.ofClauses (lines.filterMap Draft.Line.clause?)
        (Scope.ofList (lines.filterMap Draft.Line.captured?)) := by
    rw [Draft.build, Draft.write_eq]
  obtain ⟨sites, listed, names⟩ := Sequence.exists_listed clauses
  refine ⟨build lines, ?_, ?_, ?_, Sequence.judged_ofClauses clauses environment, ?_, ?_⟩
  · rw [Scope.ofList, Scope.names_insertAll, Scope.names_empty, List.nil_append]
  · intro before n v after split last
    rw [split]
    exact Scope.get?_insertAll_of_last _ v last
  · intro lines' sameClauses sameCaptures
    rw [build, build, sameClauses, sameCaptures]
  · intro n
    rw [← names]
    exact listed.exists_first_repeat_iff n
  · rw [← names]
    exact listed.nodup_iff

end Comprehension
