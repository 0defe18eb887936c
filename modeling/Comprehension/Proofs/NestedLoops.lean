/-
Comprehensions over lists are nested loops.

A compiled chain passes a whole list through the filters of a stage before it enters the
next one, and joins the results on the way out. Over lists, with closures that neither
fail nor have effects, the values it gives are those that loops inside one another push,
testing each guard as soon as its names are bound.

* `loops`: the values pushed by the nested loops, by recursion on the clauses.
* `Selects`: one way to choose an item from every generator so that all guards hold.
  `selections` lists them in order: `mem_selections_iff`, `pairwise_selections` and
  `map_snd_selections` say that it has each of them, each once and in lexicographic
  order, and that they give the values of the loops.
* `interpretAfter_list`: the clauses after a generator, on a list.
* `evaluate_eq_nested_loops`: the same for a compiled chain.
-/

import Comprehension.Proofs.DirectInterpreter

namespace Comprehension

variable {m : Type → Type} {ε V : Type}

/-! ### Lists as values -/

namespace ListForm

/-- The values that are recognised as lists offer the operations of lists. -/
structure Governs (form : ListForm ε V) (m : Type → Type) [Monad m] [Capable m ε V] : Prop where
  unpack_pack : ∀ items, form.unpack? (form.pack items) = some items
  operations : ∀ v items, form.unpack? v = some items →
    (Capable.operations v : Option (Operations m ε V)) = some (form.operations items)

section Pure

variable [Monad m] [LawfulMonad m]

theorem mapItems_eq_pure {body : V → ExceptT ε m V} {f : V → V} {items : List V}
    (gives : ∀ item ∈ items, body item = pure (f item)) :
    mapItems body items = pure (items.map f) := by
  induction items with
  | nil => rfl
  | cons item rest ih =>
    obtain ⟨head, tail⟩ := List.forall_mem_cons.mp gives
    rw [mapItems, head, pure_bind, ih tail, pure_bind, List.map_cons]

theorem joinItems_eq_pure {form : ListForm ε V} {body : V → ExceptT ε m V} {f : V → List V}
    {items : List V}
    (gives : ∀ item ∈ items, ∃ w, body item = pure w ∧ form.unpack? w = some (f item)) :
    form.joinItems body items = pure (items.flatMap f) := by
  induction items with
  | nil => rfl
  | cons item rest ih =>
    obtain ⟨⟨w, head, unpacked⟩, tail⟩ := List.forall_mem_cons.mp gives
    rw [joinItems, head, pure_bind, unpacked]
    simp only [ih tail, pure_bind, List.flatMap_cons]

theorem keepItems_eq_pure {test : V → ExceptT ε m Bool} {p : V → Bool} {items : List V}
    (gives : ∀ item ∈ items, test item = pure (p item)) :
    keepItems test items = pure (items.filter p) := by
  induction items with
  | nil => rfl
  | cons item rest ih =>
    obtain ⟨head, tail⟩ := List.forall_mem_cons.mp gives
    rw [keepItems, head, pure_bind, ih tail, pure_bind, List.filter_cons]

variable [OfFault ε] (form : ListForm ε V) (site : Site)

theorem direct_map_eq_pure {body : V → ExceptT ε m V} {f : V → V} {items : List V}
    (gives : ∀ item ∈ items, body item = pure (f item)) :
    Handler.direct site .map (form.operations items) (.body body) =
      pure (form.pack (items.map f)) := by
  simp only [Handler.direct, Operations.invoke, operations, mapItems_eq_pure gives, pure_bind]

theorem direct_flatMap_eq_pure {body : V → ExceptT ε m V} {f : V → List V} {items : List V}
    (gives : ∀ item ∈ items, ∃ w, body item = pure w ∧ form.unpack? w = some (f item)) :
    Handler.direct site .flatMap (form.operations items) (.body body) =
      pure (form.pack (items.flatMap f)) := by
  simp only [Handler.direct, Operations.invoke, operations, joinItems_eq_pure gives, pure_bind]

theorem direct_filter_eq_pure {test : V → ExceptT ε m Bool} {p : V → Bool} {items : List V}
    (gives : ∀ item ∈ items, test item = pure (p item)) :
    Handler.direct site .filter (form.operations items) (.predicate test) =
      pure (form.pack (items.filter p)) := by
  simp only [Handler.direct, Operations.invoke, operations, keepItems_eq_pure gives, pure_bind]

end Pure

end ListForm

/-- The value fits the pattern: the walk is not stopped. -/
def Pattern.Fits [Splittable V] (p : Pattern) (v : V) : Prop := (p.walk v).2 = none

theorem Pattern.extend_of_fits [Splittable V] {p : Pattern} {v : V} (fits : p.Fits v)
    (depth : Nat) (s : Scope V) : p.extend depth v s = .ok (s.insertAll (p.walk v).1) := by
  rw [extend_eq]
  rcases walked : p.walk v with ⟨pairs, _ | k⟩
  · rfl
  · rw [Fits, walked] at fits
    cases fits

/-! ### The loops -/

/-- What the closures compute, as plain functions of the scope: the items of a source, the
outcome of a guard and the value of the final expression. -/
structure Plain (m : Type → Type) (ε V : Type) where
  items : Expression m ε V V → Scope V → List V
  holds : Expression m ε V Bool → Scope V → Bool
  value : Expression m ε V V → Scope V → V

section Loops

variable [Splittable V] (plain : Plain m ε V) (final : Expression m ε V V)

/-- The values that nested loops push: a generator is a loop over the items of its source,
a guard is a test, and innermost the final value is pushed. -/
def loops : List (Clause m ε V) → Scope V → List V
  | [], scope => [plain.value final scope]
  | .guard predicate :: rest, scope =>
      if plain.holds predicate scope then loops rest scope else []
  | .generator pattern source :: rest, scope =>
      (plain.items source scope).flatMap fun item =>
        loops rest (scope.insertAll (pattern.walk item).1)

/-- A choice of one item for every generator, given by its position among the items of the
source, under which every guard holds, and the value of the final expression. -/
inductive Selects : List (Clause m ε V) → Scope V → List Nat → V → Prop where
  | final {scope : Scope V} : Selects [] scope [] (plain.value final scope)
  | guard {predicate : Expression m ε V Bool} {rest : List (Clause m ε V)} {scope : Scope V}
      {choice : List Nat} {v : V} : plain.holds predicate scope = true →
      Selects rest scope choice v → Selects (.guard predicate :: rest) scope choice v
  | generator {pattern : Pattern} {source : Expression m ε V V} {rest : List (Clause m ε V)}
      {scope : Scope V} {i : Nat} {item : V} {choice : List Nat} {v : V} :
      (plain.items source scope)[i]? = some item →
      Selects rest (scope.insertAll (pattern.walk item).1) choice v →
      Selects (.generator pattern source :: rest) scope (i :: choice) v

/-- All choices with their values, the first generator varying slowest. -/
def selections : List (Clause m ε V) → Scope V → List (List Nat × V)
  | [], scope => [([], plain.value final scope)]
  | .guard predicate :: rest, scope =>
      if plain.holds predicate scope then selections rest scope else []
  | .generator pattern source :: rest, scope =>
      (plain.items source scope).zipIdx.flatMap fun p =>
        (selections rest (scope.insertAll (pattern.walk p.1).1)).map fun q => (p.2 :: q.1, q.2)

variable {plain final}

/-- **No choice is lost and none is let through against a guard.** -/
theorem mem_selections_iff {clauses : List (Clause m ε V)} {scope : Scope V}
    {choice : List Nat} {v : V} :
    (choice, v) ∈ selections plain final clauses scope ↔
      Selects plain final clauses scope choice v := by
  induction clauses generalizing scope choice with
  | nil =>
    rw [selections, List.mem_singleton]
    constructor
    · intro same
      cases same
      exact .final
    · intro selects
      cases selects
      rfl
  | cons c rest ih =>
    cases c with
    | guard predicate =>
      rw [selections]
      constructor
      · intro mem
        by_cases holds : plain.holds predicate scope = true
        · rw [if_pos holds] at mem
          exact .guard holds (ih.mp mem)
        · rw [if_neg holds] at mem
          cases mem
      · intro selects
        cases selects with
        | guard holds selects =>
          rw [if_pos holds]
          exact ih.mpr selects
    | generator pattern source =>
      rw [selections, List.mem_flatMap]
      constructor
      · rintro ⟨⟨item, i⟩, drawn, mem⟩
        obtain ⟨⟨others, w⟩, chosen, same⟩ := List.mem_map.mp mem
        cases same
        exact .generator (List.mk_mem_zipIdx_iff_getElem?.mp drawn) (ih.mp chosen)
      · intro selects
        cases selects with
        | @generator _ _ _ _ i item others _ drawn selects =>
          refine ⟨(item, i), List.mk_mem_zipIdx_iff_getElem?.mpr drawn, ?_⟩
          exact List.mem_map.mpr ⟨(others, v), ih.mpr selects, rfl⟩

/-- **Choices come in lexicographic order, each once.** -/
theorem pairwise_selections (clauses : List (Clause m ε V)) (scope : Scope V) :
    (selections plain final clauses scope).Pairwise fun a b => a.1 < b.1 := by
  induction clauses generalizing scope with
  | nil => exact List.pairwise_singleton _ _
  | cons c rest ih =>
    cases c with
    | guard predicate =>
      rw [selections]
      by_cases holds : plain.holds predicate scope = true
      · rw [if_pos holds]
        exact ih scope
      · rw [if_neg holds]
        exact List.Pairwise.nil
    | generator pattern source =>
      rw [selections, List.pairwise_flatMap]
      constructor
      · -- under one item the order is that of the choices after it
        rintro ⟨item, i⟩ -
        rw [List.pairwise_map]
        refine (ih _).imp fun {a b} less => ?_
        exact List.cons_lt_cons_iff.mpr (.inr ⟨rfl, less⟩)
      · -- an earlier item comes first, whatever is chosen after it
        have positions : ((plain.items source scope).zipIdx).Pairwise fun p q => p.2 < q.2 := by
          rw [← List.pairwise_map, List.zipIdx_map_snd]
          exact List.pairwise_lt_range'
        refine positions.imp fun {p q} less a ha b hb => ?_
        obtain ⟨a', -, rfl⟩ := List.mem_map.mp ha
        obtain ⟨b', -, rfl⟩ := List.mem_map.mp hb
        exact List.cons_lt_cons_iff.mpr (.inl less)

/-- **Each choice contributes the one value that the loops push for it.** -/
theorem map_snd_selections (clauses : List (Clause m ε V)) (scope : Scope V) :
    (selections plain final clauses scope).map Prod.snd = loops plain final clauses scope := by
  induction clauses generalizing scope with
  | nil => rfl
  | cons c rest ih =>
    cases c with
    | guard predicate =>
      rw [selections, loops]
      by_cases holds : plain.holds predicate scope = true
      · rw [if_pos holds, if_pos holds, ih]
      · rw [if_neg holds, if_neg holds, List.map_nil]
    | generator pattern source =>
      have inner : ∀ p : V × Nat,
          ((selections plain final rest (scope.insertAll (pattern.walk p.1).1)).map fun q =>
            (p.2 :: q.1, q.2)).map Prod.snd =
            loops plain final rest (scope.insertAll (pattern.walk p.1).1) := by
        intro p
        rw [List.map_map]
        exact ih _
      rw [selections, loops, List.map_flatMap]
      simp only [inner]
      rw [← List.flatMap_map Prod.fst fun item =>
        loops plain final rest (scope.insertAll (pattern.walk item).1), List.zipIdx_map_fst]

end Loops

/-! ### Closures without effects -/

/-- Wherever the loops come, the closures compute what `plain` says, without effects and
without failing: every source gives a list whose items all fit the pattern, and guards and
the final expression give their outcomes. -/
def Plain.Describes [Monad m] [Splittable V] (plain : Plain m ε V) (form : ListForm ε V)
    (final : Expression m ε V V) : List (Clause m ε V) → Scope V → Prop
  | [], scope => final.eval scope = pure (plain.value final scope)
  | .guard predicate :: rest, scope =>
      predicate.eval scope = pure (plain.holds predicate scope) ∧
        (plain.holds predicate scope = true → plain.Describes form final rest scope)
  | .generator pattern source :: rest, scope =>
      (∃ v, source.eval scope = pure v ∧ form.unpack? v = some (plain.items source scope)) ∧
        ∀ item ∈ plain.items source scope, pattern.Fits item ∧
          plain.Describes form final rest (scope.insertAll (pattern.walk item).1)

/-- Testing in front of a loop is testing inside it. -/
theorem flatMap_filter {α β : Type} (p : α → Bool) (f : α → List β) (l : List α) :
    (l.filter p).flatMap f = l.flatMap fun a => if p a then f a else [] := by
  induction l with
  | nil => rfl
  | cons a rest ih =>
    by_cases h : p a = true
    · rw [List.filter_cons_of_pos h, List.flatMap_cons, List.flatMap_cons, if_pos h, ih]
    · rw [List.filter_cons_of_neg h, List.flatMap_cons, if_neg h, List.nil_append, ih]

section Simulation

variable [Monad m] [LawfulMonad m] [OfFault ε] [Splittable V] [Capable m ε V]
  {form : ListForm ε V} {plain : Plain m ε V} {final : Expression m ε V V}

omit [LawfulMonad m] [OfFault ε] [Splittable V] in
theorem resolve_list (governs : form.Governs m) {v : V} {items : List V}
    (unpacked : form.unpack? v = some items) (depth : Nat) :
    (Operations.resolve depth v : Except Fault (Operations m ε V)) =
      .ok (form.operations items) := by
  rw [Operations.resolve, governs.operations v items unpacked]

omit [Capable m ε V] in
/-- An item that fits is bound, and its computation goes on in the scope of the loops. -/
theorem lift_extend_of_fits {β : Type} {pattern : Pattern} {item : V} (fits : pattern.Fits item)
    (depth : Nat) (scope : Scope V) (k : Scope V → ExceptT ε m β) :
    (Fault.lift (pattern.extend depth item scope) >>= k : ExceptT ε m β) =
      k (scope.insertAll (pattern.walk item).1) := by
  rw [Pattern.extend_of_fits fits, lift_ok_bind]

/-- **The clauses after a generator, on a list**: they give the values that the loops push
for each of its items. -/
theorem interpretAfter_list (governs : form.Governs m) {clauses : List (Clause m ε V)}
    {pattern : Pattern} {scope : Scope V} {v : V} {items : List V}
    (unpacked : form.unpack? v = some items)
    (described : ∀ item ∈ items, pattern.Fits item ∧
      plain.Describes form final clauses (scope.insertAll (pattern.walk item).1))
    (depth index : Nat) :
    interpretAfter .direct final clauses depth pattern index scope v =
      pure (form.pack (items.flatMap fun item =>
        loops plain final clauses (scope.insertAll (pattern.walk item).1))) := by
  induction clauses generalizing depth index pattern scope v items with
  | nil =>
    rw [interpretAfter, resolve_list governs unpacked, lift_ok_bind]
    have values : ∀ item ∈ items,
        (Fault.lift (pattern.extend depth item scope) >>= final.eval : ExceptT ε m V) =
          pure (plain.value final (scope.insertAll (pattern.walk item).1)) := by
      intro item mem
      obtain ⟨fits, gives⟩ := described item mem
      rw [lift_extend_of_fits fits, gives]
    rw [form.direct_map_eq_pure _ values, List.map_eq_flatMap]
    rfl
  | cons c rest ih =>
    cases c with
    | guard predicate =>
      rw [interpretAfter, resolve_list governs unpacked, lift_ok_bind]
      have tests : ∀ item ∈ items,
          (Fault.lift (pattern.extend depth item scope) >>= predicate.eval : ExceptT ε m Bool) =
            pure (plain.holds predicate (scope.insertAll (pattern.walk item).1)) := by
        intro item mem
        obtain ⟨fits, gives, -⟩ := described item mem
        rw [lift_extend_of_fits fits, gives]
      rw [form.direct_filter_eq_pure _ tests, pure_bind]
      refine (ih (governs.unpack_pack _) ?_ depth (index + 1)).trans ?_
      · intro item mem
        obtain ⟨mem, holds⟩ := List.mem_filter.mp mem
        obtain ⟨fits, -, goesOn⟩ := described item mem
        exact ⟨fits, goesOn holds⟩
      · rw [flatMap_filter]
        rfl
    | generator next source =>
      rw [interpretAfter, resolve_list governs unpacked, lift_ok_bind]
      refine form.direct_flatMap_eq_pure _ fun item mem => ?_
      obtain ⟨fits, ⟨w, gives, unpacked'⟩, described'⟩ := described item mem
      refine ⟨_, ?_, governs.unpack_pack _⟩
      rw [lift_extend_of_fits fits, gives, pure_bind]
      exact ih unpacked' described' (depth + 1) 0

end Simulation

/-! ### Compiled chains -/

/-- Compiling and evaluating is reporting the chain and evaluating it. -/
theorem Sequence.evaluate_of_compile [Monad m] [LawfulMonad m] [OfFault ε] [Splittable V]
    [Capable m ε V] [Journal m] {s : Sequence m ε V} {final : Expression m ε V V}
    {chain : Chain m ε V} (compiled : s.compile final = .ok chain) (handler : Handler m ε V) :
    s.evaluate handler final = (do
      ExceptT.lift (Journal.record chain.compiledEvent)
      chain.evaluate handler) := by
  rw [Sequence.evaluate, Sequence.compileReporting, compiled, lift_ok_bind, bind_assoc]
  simp only [pure_bind]

/-- **Comprehensions over lists are nested loops.** Take values among which lists offer the
operations of lists, a comprehension that compiles, and closures that keep to their
declared reads and, wherever the loops come, neither fail nor have effects, with sources
that give lists whose items fit the patterns. Compiling and evaluating gives the list of
the values that the nested loops push. There is one for every choice of an item from each
generator under which all guards hold, and they stand in the lexicographic order of the
choices. -/
theorem evaluate_eq_nested_loops [Monad m] [LawfulMonad m] [OfFault ε] [Splittable V]
    [Capable m ε V] [Journal m] {form : ListForm ε V} (governs : form.Governs m)
    {s : Sequence m ε V} {final : Expression m ε V V} {chain : Chain m ε V}
    (compiled : s.compile final = .ok chain) (respects : ∀ c ∈ s.clauses, c.RespectsReads)
    (respectsFinal : final.RespectsReads) {plain : Plain m ε V}
    (described : plain.Describes form final s.clauses s.environment) :
    chain.evaluate .direct =
        pure (form.pack (loops plain final s.clauses s.environment)) ∧
      s.evaluate .direct final = (do
        ExceptT.lift (Journal.record chain.compiledEvent)
        pure (form.pack (loops plain final s.clauses s.environment))) ∧
      loops plain final s.clauses s.environment =
        (selections plain final s.clauses s.environment).map Prod.snd ∧
      (∀ choice v, (choice, v) ∈ selections plain final s.clauses s.environment ↔
        Selects plain final s.clauses s.environment choice v) ∧
      (selections plain final s.clauses s.environment).Pairwise fun a b => a.1 < b.1 := by
  have evaluated : chain.evaluate .direct =
      pure (form.pack (loops plain final s.clauses s.environment)) := by
    obtain ⟨⟨v, gives, unpacked⟩, described⟩ := described
    rw [evaluate_eq_interpretAfter compiled respects respectsFinal, gives, pure_bind]
    exact interpretAfter_list governs unpacked described 0 0
  refine ⟨evaluated, ?_, (map_snd_selections _ _).symm, fun _ _ => mem_selections_iff,
    pairwise_selections _ _⟩
  rw [Sequence.evaluate_of_compile compiled, evaluated]

namespace Sample

/-- The sample closures as plain functions. What they are where a closure fails, or a
source gives no row, makes no difference. -/
def plain : Plain Id Fault Item where
  items source scope :=
    match (source.eval scope).run with
    | .ok (.row items) => items
    | _ => []
  holds predicate scope :=
    match (predicate.eval scope).run with
    | .ok keep => keep
    | .error _ => false
  value final scope :=
    match (final.eval scope).run with
    | .ok v => v
    | .error _ => .row []

theorem governs_rows : rows.Governs Id where
  unpack_pack _ := rfl
  operations v items unpacked := by
    cases v with
    | number n => cases unpacked
    | row _ =>
      cases unpacked
      rfl

/-- The first two numbers pass the first guard; under the first one only the first pair
passes the guards after it, under the second one both do. -/
theorem describes_sequence : plain.Describes rows final sequence.clauses sequence.environment := by
  refine ⟨⟨_, rfl, rfl⟩, ?_⟩
  show ∀ item ∈ [Item.number 1, .number 2, .number 3], _
  simp only [List.forall_mem_cons]
  refine ⟨⟨rfl, rfl, fun _ => ⟨⟨_, rfl, rfl⟩, ?_⟩⟩, ⟨rfl, rfl, fun _ => ⟨⟨_, rfl, rfl⟩, ?_⟩⟩,
    ⟨rfl, rfl, nofun⟩, nofun⟩
  · show ∀ item ∈ [Item.row [.number 1, .number 10], .row [.number 2, .number 20]], _
    simp only [List.forall_mem_cons]
    exact ⟨⟨rfl, rfl, fun _ => ⟨rfl, fun _ => rfl⟩⟩, ⟨rfl, rfl, nofun⟩, nofun⟩
  · show ∀ item ∈ [Item.row [.number 1, .number 10], .row [.number 2, .number 20]], _
    simp only [List.forall_mem_cons]
    exact ⟨⟨rfl, rfl, fun _ => ⟨rfl, fun _ => rfl⟩⟩, ⟨rfl, rfl, fun _ => ⟨rfl, fun _ => rfl⟩⟩,
      nofun⟩

end Sample

/-- Three choices are left of six. -/
theorem sample_nested_loops :
    Sample.rows.Governs Id ∧ (∀ c ∈ Sample.sequence.clauses, c.RespectsReads) ∧
      Sample.final.RespectsReads ∧
      Sample.plain.Describes Sample.rows Sample.final Sample.sequence.clauses
        Sample.sequence.environment ∧
      Sample.sequence.evaluate .direct Sample.final = pure (.row [.row [.number 10, .number 1],
        .row [.number 10, .number 2], .row [.number 20, .number 2]]) ∧
      (selections Sample.plain Sample.final Sample.sequence.clauses
        Sample.sequence.environment).map Prod.fst = [[0, 0], [1, 0], [1, 1]] := by
  have respectsFinal : Sample.final.RespectsReads := Expression.respectsReads_onReads _ _
  obtain ⟨-, evaluated, -, -, -⟩ := evaluate_eq_nested_loops Sample.governs_rows
    (rfl : Sample.sequence.compile Sample.final = .ok _) Sample.respects_clauses respectsFinal
    Sample.describes_sequence
  exact ⟨Sample.governs_rows, Sample.respects_clauses, respectsFinal, Sample.describes_sequence,
    evaluated.trans rfl, rfl⟩

end Comprehension
