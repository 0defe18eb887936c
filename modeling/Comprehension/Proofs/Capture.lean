/-
What the stages take along.

A stage carries names bound further out and holds captured values. Which names these
are is read off the clauses: a read resolves to the generator in sight that binds the
name, or else to the environment. A guard sees its own generator and those before it,
a source only those before its own, and the final expression sees all of them.

* `toList_needed`: the names a stage needs from outside are those read from the stage
  on and not resolved there, in the order in which a scan from the final expression
  outwards first meets them.
* `names_capture_stage`, `get?_capture_stage`: the scope that a stage captures.
* `compile_captures_exactly`: what each stage of a compiled chain carries and holds,
  as sets and in order.
-/

import Mathlib.Data.List.Basic
import Comprehension.Proofs.Assembly

namespace Comprehension

variable {m : Type → Type} {ε V : Type}

/-- A read of a name at a place where the first `visible` generators are in sight. -/
structure Occurrence where
  name : Name
  visible : Nat

namespace Occurrence

/-- The read is resolved by generator `b`, which is in sight and binds the name. -/
def ResolvesTo (generators : List (Generator m ε V)) (o : Occurrence) (b : Nat) : Prop :=
  b < o.visible ∧ ∃ g ∈ generators[b]?, o.name ∈ g.pattern.names

/-- The read is resolved by the environment: no generator in sight binds the name. -/
def Lexical (generators : List (Generator m ε V)) (o : Occurrence) : Prop :=
  ∀ b < o.visible, ∀ g ∈ generators[b]?, o.name ∉ g.pattern.names

instance (generators : List (Generator m ε V)) (o : Occurrence) (b : Nat) :
    Decidable (o.ResolvesTo generators b) :=
  inferInstanceAs (Decidable (b < o.visible ∧ ∃ g ∈ generators[b]?, o.name ∈ g.pattern.names))

instance (generators : List (Generator m ε V)) (o : Occurrence) :
    Decidable (o.Lexical generators) :=
  inferInstanceAs (Decidable (∀ b < o.visible, ∀ g ∈ generators[b]?, o.name ∉ g.pattern.names))

/-- A read is lexical or resolved by a generator in sight. -/
theorem lexical_or_resolvesTo (generators : List (Generator m ε V)) {o : Occurrence} {d : Nat}
    (bound : o.visible ≤ d) :
    o.Lexical generators ∨ ∃ b < d, o.ResolvesTo generators b := by
  by_cases resolved : ∃ b < d, o.ResolvesTo generators b
  · exact .inr resolved
  · refine .inl fun b inSight g found binds => resolved ?_
    exact ⟨b, Nat.lt_of_lt_of_le inSight bound, inSight, g, found, binds⟩

end Occurrence

/-- The reads that a stage at depth `d` has to provide for: those of the guards from
its own on, of the sources after its own, and of the final expression. -/
inductive ReadFrom (generators : List (Generator m ε V)) (final : List Name) (d : Nat) :
    Occurrence → Prop where
  | final {n : Name} : n ∈ final → ReadFrom generators final d ⟨n, generators.length⟩
  | guard {e : Nat} {g : Generator m ε V} {p : Expression m ε V Bool} {n : Name} :
      generators[e]? = some g → d ≤ e → p ∈ g.guards → n ∈ p.reads →
      ReadFrom generators final d ⟨n, e + 1⟩
  | source {e : Nat} {g : Generator m ε V} {n : Name} :
      generators[e]? = some g → d < e → n ∈ g.source.reads →
      ReadFrom generators final d ⟨n, e⟩

/-- The reads of a generator's guards, in order. -/
def Generator.guardOccurrences (g : Generator m ε V) (e : Nat) : List Occurrence :=
  g.guardReads.map fun n => ⟨n, e + 1⟩

/-- The reads of a generator's source, in order. -/
def Generator.sourceOccurrences (g : Generator m ε V) (e : Nat) : List Occurrence :=
  g.source.reads.map fun n => ⟨n, e⟩

/-- The reads that a stage at depth `d` has to provide for, in the order of a scan: the
final expression first, then the generators from the last one down to `d`, each with
its guards in order and, unless it is the stage's own, its source. -/
def occurrences (generators : List (Generator m ε V)) (final : List Name) (d : Nat) :
    List Occurrence :=
  (final.map fun n => ⟨n, generators.length⟩) ++
    ((generators.drop d).zipIdx d).reverse.flatMap fun p =>
      p.1.guardOccurrences p.2 ++ if d < p.2 then p.1.sourceOccurrences p.2 else []

/-- The scan meets exactly the reads that the stage has to provide for. -/
theorem mem_occurrences_iff {generators : List (Generator m ε V)} {final : List Name} {d : Nat}
    {o : Occurrence} : o ∈ occurrences generators final d ↔ ReadFrom generators final d o := by
  have position : ∀ (g : Generator m ε V) (e : Nat),
      (g, e) ∈ ((generators.drop d).zipIdx d).reverse ↔ d ≤ e ∧ generators[e]? = some g := by
    intro g e
    rw [List.mem_reverse, List.mk_mem_zipIdx_iff_le_and_getElem?_sub, List.getElem?_drop]
    constructor
    · rintro ⟨le, found⟩
      rw [Nat.add_sub_cancel' le] at found
      exact ⟨le, found⟩
    · rintro ⟨le, found⟩
      rw [Nat.add_sub_cancel' le]
      exact ⟨le, found⟩
  rw [occurrences, List.mem_append, List.mem_map, List.mem_flatMap]
  constructor
  · rintro (⟨n, read, rfl⟩ | ⟨⟨g, e⟩, mem, met⟩)
    · exact .final read
    · obtain ⟨le, found⟩ := (position g e).mp mem
      rcases List.mem_append.mp met with byGuard | bySource
      · obtain ⟨n, read, rfl⟩ := List.mem_map.mp byGuard
        obtain ⟨p, hp, read⟩ := Generator.mem_guardReads.mp read
        exact .guard found le hp read
      · by_cases lt : d < e
        · rw [if_pos lt] at bySource
          obtain ⟨n, read, rfl⟩ := List.mem_map.mp bySource
          exact .source found lt read
        · rw [if_neg lt] at bySource
          cases bySource
  · intro read
    cases read with
    | final read => exact .inl ⟨_, read, rfl⟩
    | @guard e g p n found le hp read =>
      refine .inr ⟨(g, e), (position g e).mpr ⟨le, found⟩, List.mem_append_left _ ?_⟩
      exact List.mem_map.mpr ⟨n, Generator.mem_guardReads.mpr ⟨p, hp, read⟩, rfl⟩
    | @source e g n found lt read =>
      refine .inr ⟨(g, e), (position g e).mpr ⟨Nat.le_of_lt lt, found⟩, ?_⟩
      rw [if_pos lt]
      exact List.mem_append_right _ (List.mem_map.mpr ⟨n, read, rfl⟩)

/-- At every place that the stage at depth `d` provides for, that generator is in
sight. -/
theorem ReadFrom.lt_visible {generators : List (Generator m ε V)} {final : List Name} {d : Nat}
    {o : Occurrence} (depth : d < generators.length) (read : ReadFrom generators final d o) :
    d < o.visible := by
  cases read with
  | final _ => exact depth
  | guard _ le _ _ => exact Nat.lt_succ_of_le le
  | source _ lt _ => exact lt

/-! ### The scan, one generator at a time -/

section Scan

variable {generators before : List (Generator m ε V)} {g : Generator m ε V} (final : List Name)

theorem occurrences_last (split : generators = before ++ [g]) :
    occurrences generators final before.length =
      (final.map fun n => ⟨n, before.length + 1⟩) ++ g.guardOccurrences before.length := by
  subst split
  simp [occurrences]

/-- One step outwards adds the source of the generator just left and the guards of the
one come to. -/
theorem occurrences_step {next : Generator m ε V} {rest : List (Generator m ε V)}
    (split : generators = before ++ g :: next :: rest) :
    occurrences generators final before.length =
      occurrences generators final (before.length + 1) ++
        next.sourceOccurrences (before.length + 1) ++ g.guardOccurrences before.length := by
  have here : generators.drop before.length = g :: next :: rest := by
    rw [split, List.drop_left]
  have inner : generators.drop (before.length + 1) = next :: rest := by
    rw [← List.drop_drop, here]
    rfl
  -- further in, the source is met at either depth
  have deeper : ∀ p ∈ (rest.zipIdx (before.length + 2)).reverse,
      (p.1.guardOccurrences p.2 ++
        if before.length < p.2 then p.1.sourceOccurrences p.2 else []) =
      p.1.guardOccurrences p.2 ++
        if before.length + 1 < p.2 then p.1.sourceOccurrences p.2 else [] := by
    intro p hp
    have le := List.le_snd_of_mem_zipIdx (List.mem_reverse.mp hp)
    rw [if_pos (by omega), if_pos (by omega)]
  rw [occurrences, occurrences, here, inner]
  simp only [List.zipIdx_cons, List.reverse_cons, List.flatMap_append, List.flatMap_singleton,
    List.flatMap_congr deeper]
  simp

end Scan

/-! ### What is needed, in order -/

section Needed

variable {generators before rest : List (Generator m ε V)} {g : Generator m ε V}

theorem getElem?_of_split (split : generators = before ++ g :: rest) :
    generators[before.length]? = some g := by
  rw [split, List.getElem?_append_right (Nat.le_refl _), Nat.sub_self, List.getElem?_cons_zero]

/-- A generator before the split binds a name of `boundBy before`. -/
theorem mem_boundBy_iff (split : generators = before ++ g :: rest) {n : Name} :
    n ∈ boundBy before ↔
      ∃ b < before.length, ∃ h ∈ generators[b]?, n ∈ h.pattern.names := by
  rw [boundBy, List.mem_flatMap]
  constructor
  · rintro ⟨h, mem, binds⟩
    obtain ⟨b, found⟩ := List.mem_iff_getElem?.mp mem
    have lt := (List.getElem?_eq_some_iff.mp found).1
    exact ⟨b, lt, h, by rw [split, List.getElem?_append_left lt]; exact found, binds⟩
  · rintro ⟨b, lt, h, found, binds⟩
    rw [split, List.getElem?_append_left lt] at found
    exact ⟨h, List.mem_of_getElem? found, binds⟩

/-- No name bound before a generator is bound by it again. -/
theorem not_mem_names_of_mem_boundBy (distinct : (boundBy generators).Nodup)
    (split : generators = before ++ g :: rest) {n : Name} (outer : n ∈ boundBy before) :
    n ∉ g.pattern.names := by
  rw [split, boundBy_append, boundBy_cons] at distinct
  intro own
  exact (List.nodup_append.mp distinct).2.2 n outer n (List.mem_append_left _ own) rfl

theorem nodup_names_of_split (distinct : (boundBy generators).Nodup)
    (split : generators = before ++ g :: rest) : g.pattern.names.Nodup := by
  rw [split, boundBy_append, boundBy_cons] at distinct
  exact (List.nodup_append.mp (List.nodup_append.mp distinct).2.1).1

/-- Leaving a pattern, the reads it resolves drop out and no others. -/
theorem open_step (distinct : (boundBy generators).Nodup)
    (split : generators = before ++ g :: rest) {o : Occurrence}
    (inSight : before.length < o.visible) :
    ((o.Lexical generators ∨ ∃ b < before.length + 1, o.ResolvesTo generators b) ∧
        o.name ∉ g.pattern.names) ↔
      (o.Lexical generators ∨ ∃ b < before.length, o.ResolvesTo generators b) := by
  have here := getElem?_of_split split
  constructor
  · rintro ⟨lexical | ⟨b, lt, resolves⟩, other⟩
    · exact .inl lexical
    · refine .inr ⟨b, ?_, resolves⟩
      rcases Nat.lt_succ_iff_lt_or_eq.mp lt with before | rfl
      · exact before
      · obtain ⟨-, h, found, binds⟩ := resolves
        rw [here] at found
        cases found
        exact absurd binds other
  · rintro (lexical | ⟨b, lt, resolves⟩)
    · exact ⟨.inl lexical, lexical _ inSight g here⟩
    · refine ⟨.inr ⟨b, Nat.lt_succ_of_lt lt, resolves⟩, ?_⟩
      obtain ⟨-, h, found, binds⟩ := resolves
      exact not_mem_names_of_mem_boundBy distinct split
        ((mem_boundBy_iff split).mpr ⟨b, lt, h, found, binds⟩)

/-- The reads of a list that the generators before `d`, or the environment, resolve. -/
def openReads (generators : List (Generator m ε V)) (d : Nat) (reads : List Occurrence) :
    List Occurrence :=
  reads.filter fun o => o.Lexical generators ∨ ∃ b < d, o.ResolvesTo generators b

/-- Where only `d` generators are in sight, no read is resolved further in. -/
theorem openReads_eq_self (generators : List (Generator m ε V)) {d : Nat}
    {reads : List Occurrence} (inSight : ∀ o ∈ reads, o.visible ≤ d) :
    openReads generators d reads = reads := by
  rw [openReads, List.filter_eq_self]
  intro o ho
  exact decide_eq_true (o.lexical_or_resolvesTo generators (inSight o ho))

/-- Taking the names of a pattern out leaves the reads that are open outside it. -/
theorem filter_openReads (distinct : (boundBy generators).Nodup)
    (split : generators = before ++ g :: rest) {reads : List Occurrence}
    (inSight : ∀ o ∈ reads, before.length < o.visible) :
    (((openReads generators (before.length + 1) reads).map Occurrence.name).filter fun n =>
        !g.pattern.names.contains n) =
      (openReads generators before.length reads).map Occurrence.name := by
  rw [List.filter_map, openReads, List.filter_filter, openReads]
  congr 1
  apply List.filter_congr
  intro o ho
  have step := open_step distinct split (inSight o ho)
  simp only [Function.comp_apply, List.contains_eq_mem, ← decide_not, ← Bool.decide_and, ← step,
    and_comm]

theorem lt_visible_of_mem_occurrences {final : List Name}
    (split : generators = before ++ g :: rest) {o : Occurrence}
    (met : o ∈ occurrences generators final before.length) : before.length < o.visible := by
  refine (mem_occurrences_iff.mp met).lt_visible ?_
  rw [split, List.length_append, List.length_cons]
  omega

/-- **What a stage needs from outside, in order**: the names of the reads it provides
for that are resolved further out or by the environment, in order of first occurrence
in the scan. -/
theorem toList_needed (final : List Name) (distinct : (boundBy generators).Nodup)
    (split : generators = before ++ g :: rest) :
    (Sequence.needed final g rest).toList =
      ((openReads generators before.length (occurrences generators final before.length)).map
        Occurrence.name).eraseDups := by
  have guardsInSight : ∀ (h : Generator m ε V) (e : Nat), ∀ o ∈ h.guardOccurrences e,
      o.visible ≤ e + 1 := by
    intro h e o ho
    obtain ⟨n, -, rfl⟩ := List.mem_map.mp ho
    exact Nat.le_refl _
  have sourceInSight : ∀ (h : Generator m ε V) (e : Nat), ∀ o ∈ h.sourceOccurrences e,
      o.visible ≤ e := by
    intro h e o ho
    obtain ⟨n, -, rfl⟩ := List.mem_map.mp ho
    exact Nat.le_refl _
  -- innermost first: each step outwards adds reads, then takes the pattern's names out
  induction rest generalizing before g with
  | nil =>
    have inSight : ∀ o ∈ occurrences generators final before.length,
        o.visible ≤ before.length + 1 := by
      rw [occurrences_last final split]
      intro o ho
      rcases List.mem_append.mp ho with byFinal | byGuard
      · obtain ⟨n, -, rfl⟩ := List.mem_map.mp byFinal
        exact Nat.le_refl _
      · exact guardsInSight g _ o byGuard
    rw [← filter_openReads distinct split fun o => lt_visible_of_mem_occurrences split,
      ← filter_eraseDups, openReads_eq_self generators inSight, occurrences_last final split,
      Sequence.toList_needed_nil]
    simp [Generator.guardOccurrences, Function.comp_def]
  | cons next rest ih =>
    have inner := @ih (before ++ [g]) next (by simp [split])
    rw [List.length_append, List.length_singleton] at inner
    have grown : openReads generators (before.length + 1)
          (occurrences generators final before.length) =
        openReads generators (before.length + 1)
            (occurrences generators final (before.length + 1)) ++
          next.sourceOccurrences (before.length + 1) ++ g.guardOccurrences before.length := by
      have source := openReads_eq_self generators (sourceInSight next (before.length + 1))
      have guards := openReads_eq_self generators (guardsInSight g before.length)
      rw [occurrences_step final split]
      simp only [openReads, List.filter_append] at source guards ⊢
      rw [source, guards]
    rw [← filter_openReads distinct split fun o => lt_visible_of_mem_occurrences split,
      ← filter_eraseDups, grown, Sequence.toList_needed_cons, inner, List.append_assoc,
      eraseDups_eraseDups_append]
    simp [Generator.guardOccurrences, Generator.sourceOccurrences, Function.comp_def]

/-- Among the open reads, those of names bound before the stage are resolved there. -/
theorem open_and_mem_boundBy_iff (split : generators = before ++ g :: rest) {o : Occurrence}
    (inSight : before.length < o.visible) :
    (o.name ∈ boundBy before ∧
        (o.Lexical generators ∨ ∃ b < before.length, o.ResolvesTo generators b)) ↔
      ∃ b < before.length, o.ResolvesTo generators b := by
  rw [mem_boundBy_iff split]
  constructor
  · rintro ⟨⟨b, lt, h, found, binds⟩, _⟩
    exact ⟨b, lt, Nat.lt_trans lt inSight, h, found, binds⟩
  · rintro ⟨b, lt, inner, h, found, binds⟩
    exact ⟨⟨b, lt, h, found, binds⟩, .inr ⟨b, lt, inner, h, found, binds⟩⟩

/-- Among the open reads, those of other names are lexical. -/
theorem open_and_not_mem_boundBy_iff (split : generators = before ++ g :: rest) {o : Occurrence}
    (inSight : before.length < o.visible) :
    (o.name ∉ boundBy before ∧
        (o.Lexical generators ∨ ∃ b < before.length, o.ResolvesTo generators b)) ↔
      o.Lexical generators := by
  rw [mem_boundBy_iff split]
  constructor
  · rintro ⟨unbound, lexical | ⟨b, lt, -, h, found, binds⟩⟩
    · exact lexical
    · exact absurd ⟨b, lt, h, found, binds⟩ unbound
  · intro lexical
    refine ⟨?_, .inl lexical⟩
    rintro ⟨b, lt, h, found, binds⟩
    exact lexical b (Nat.lt_trans lt inSight) h found binds

/-- The needed names that are bound before the stage, in order. -/
theorem filter_needed_bound (final : List Name) (distinct : (boundBy generators).Nodup)
    (split : generators = before ++ g :: rest) :
    ((Sequence.needed final g rest).toList.filter fun n => (boundBy before).contains n) =
      (((occurrences generators final before.length).filter fun o =>
        ∃ b < before.length, o.ResolvesTo generators b).map Occurrence.name).eraseDups := by
  rw [toList_needed final distinct split, filter_eraseDups, List.filter_map, openReads,
    List.filter_filter]
  congr 2
  apply List.filter_congr
  intro o ho
  have iff := open_and_mem_boundBy_iff split (lt_visible_of_mem_occurrences split ho)
  simp only [Function.comp_apply, List.contains_eq_mem, ← Bool.decide_and, iff]

/-- The other needed names, in order. -/
theorem filter_needed_lexical (final : List Name) (distinct : (boundBy generators).Nodup)
    (split : generators = before ++ g :: rest) :
    ((Sequence.needed final g rest).toList.filter fun n => !(boundBy before).contains n) =
      (((occurrences generators final before.length).filter fun o =>
        o.Lexical generators).map Occurrence.name).eraseDups := by
  rw [toList_needed final distinct split, filter_eraseDups, List.filter_map, openReads,
    List.filter_filter]
  congr 2
  apply List.filter_congr
  intro o ho
  have iff := open_and_not_mem_boundBy_iff split (lt_visible_of_mem_occurrences split ho)
  simp only [Function.comp_apply, List.contains_eq_mem, ← decide_not, ← Bool.decide_and, iff]

end Needed

/-! ### The scope that a stage captures -/

namespace Sequence

section Captured

variable {environment : Scope V} {final : Expression m ε V V} {depth : Nat} {before : List Name}
  {g : Generator m ε V} {rest : List (Generator m ε V)}

/-- No needed captured value is missing, so the held values are those of all needed
names that are not bound further out. -/
theorem names_lexical_stage
    (resolvable : Resolvable environment before (needed final.reads g rest).toList) :
    (stage environment final depth before g rest).lexical.names =
      (needed final.reads g rest).toList.filter fun n => !before.contains n := by
  rw [lexical_stage]
  refine Scope.names_project_of_forall ((needed final.reads g rest).nodup.filter _) ?_
  intro n hn
  obtain ⟨mem, unbound⟩ := List.mem_filter.mp hn
  rcases resolvable n mem with bound | captured
  · simp [bound] at unbound
  · exact captured

/-- What a stage takes along is what it needs. -/
theorem mem_capturedNames_stage
    (resolvable : Resolvable environment before (needed final.reads g rest).toList) {n : Name} :
    n ∈ (stage environment final depth before g rest).capturedNames ↔
      n ∈ (needed final.reads g rest).toList := by
  rw [Frame.capturedNames, names_lexical_stage resolvable, carried_stage, List.mem_append,
    List.mem_filter, List.mem_filter]
  by_cases bound : n ∈ before
  · simp [bound]
  · simp [bound]

theorem nodup_capturedNames_stage
    (resolvable : Resolvable environment before (needed final.reads g rest).toList) :
    (stage environment final depth before g rest).capturedNames.Nodup := by
  have nodup := (needed final.reads g rest).nodup
  rw [Frame.capturedNames, names_lexical_stage resolvable, carried_stage]
  refine List.nodup_append.mpr ⟨nodup.filter _, nodup.filter _, ?_⟩
  rintro a ha b hb rfl
  have bound := (List.mem_filter.mp ha).2
  have unbound := (List.mem_filter.mp hb).2
  rw [bound] at unbound
  cases unbound

/-- Carried, held and own names are all different. -/
theorem nodup_names_stage (own : g.pattern.names.Nodup)
    (resolvable : Resolvable environment before (needed final.reads g rest).toList) :
    ((stage environment final depth before g rest).capturedNames ++ g.pattern.names).Nodup := by
  refine List.nodup_append.mpr ⟨nodup_capturedNames_stage resolvable, own, ?_⟩
  rintro a ha b hb rfl
  have needed := (mem_capturedNames_stage resolvable).mp ha
  exact not_mem_needed_of_mem_names hb needed

/-- **The names that a stage captures** in a scope that binds all it carries: the
carried names, then the held ones. -/
theorem names_capture_stage {outer : Scope V}
    (resolvable : Resolvable environment before (needed final.reads g rest).toList)
    (covers : ∀ n ∈ (stage environment final depth before g rest).carried, n ∈ outer.names) :
    ((stage environment final depth before g rest).capture outer).names =
      (stage environment final depth before g rest).capturedNames := by
  have nodup : (stage environment final depth before g rest).capturedNames.Nodup :=
    nodup_capturedNames_stage resolvable
  rw [Frame.capture, Scope.names_overlay,
    Scope.names_project_of_forall (List.nodup_append.mp nodup).1 covers]
  exact eraseDups_eq_self nodup

/-- **The values that a stage captures**: those of the surrounding scope for names
bound further out, and the captured ones for all others. -/
theorem get?_capture_stage (outer : Scope V) (n : Name) :
    ((stage environment final depth before g rest).capture outer).get? n =
      if n ∈ (needed final.reads g rest).toList then
        if n ∈ before then outer.get? n else environment.get? n
      else none := by
  rw [Frame.capture, Scope.get?_overlay, lexical_stage, carried_stage, Scope.get?_project,
    Scope.get?_project]
  by_cases mem : n ∈ (needed final.reads g rest).toList
  · by_cases bound : n ∈ before
    · simp [mem, bound]
    · simp [mem, bound]
  · simp [mem]

end Captured

end Sequence

/-! ### Compiled chains -/

/-- What the carried names are, from the order in which they are listed. -/
theorem mem_resolved_iff {generators : List (Generator m ε V)} {final : List Name} {d : Nat}
    (depth : d < generators.length) {n : Name} :
    n ∈ (((occurrences generators final d).filter fun o =>
        ∃ b < d, o.ResolvesTo generators b).map Occurrence.name).eraseDups ↔
      (∃ b < d, ∃ g ∈ generators[b]?, n ∈ g.pattern.names) ∧
        ∃ visible, ReadFrom generators final d ⟨n, visible⟩ := by
  rw [List.mem_eraseDups, List.mem_map]
  constructor
  · rintro ⟨⟨_, visible⟩, mem, rfl⟩
    obtain ⟨met, resolved⟩ := List.mem_filter.mp mem
    obtain ⟨b, lt, -, g, found, binds⟩ := of_decide_eq_true resolved
    exact ⟨⟨b, lt, g, found, binds⟩, visible, mem_occurrences_iff.mp met⟩
  · rintro ⟨⟨b, lt, g, found, binds⟩, visible, read⟩
    have inSight := Nat.lt_trans lt (read.lt_visible depth)
    refine ⟨⟨n, visible⟩, List.mem_filter.mpr ⟨mem_occurrences_iff.mpr read, ?_⟩, rfl⟩
    exact decide_eq_true ⟨b, lt, inSight, g, found, binds⟩

/-- What the held names are, from the order in which they are listed. -/
theorem mem_lexical_iff {generators : List (Generator m ε V)} {final : List Name} {d : Nat}
    {n : Name} :
    n ∈ (((occurrences generators final d).filter fun o =>
        o.Lexical generators).map Occurrence.name).eraseDups ↔
      ∃ visible, ReadFrom generators final d ⟨n, visible⟩ ∧
        Occurrence.Lexical generators ⟨n, visible⟩ := by
  rw [List.mem_eraseDups, List.mem_map]
  constructor
  · rintro ⟨⟨_, visible⟩, mem, rfl⟩
    obtain ⟨met, lexical⟩ := List.mem_filter.mp mem
    exact ⟨visible, mem_occurrences_iff.mp met, of_decide_eq_true lexical⟩
  · rintro ⟨visible, read, lexical⟩
    refine ⟨⟨n, visible⟩, List.mem_filter.mpr ⟨mem_occurrences_iff.mpr read, ?_⟩, rfl⟩
    exact decide_eq_true lexical

/-- The entry scope holds all that the outermost source reads, in order. -/
theorem names_entry_of_compile {s : Sequence m ε V} {final : Expression m ε V V}
    {chain : Chain m ε V} (compiled : s.compile final = .ok chain) :
    chain.entry.names = s.first.source.reads.eraseDups := by
  have source := (Sequence.wellScoped_generator_iff.mp (wellScoped_of_compile compiled)).1
  have all : s.first.source.reads.filter s.environment.contains = s.first.source.reads := by
    rw [List.filter_eq_self]
    intro n hn
    rcases source n hn with bound | captured
    · cases bound
    · exact Scope.contains_iff.mpr captured
  rw [entry_of_compile compiled, Scope.names_project, all]

/-- **Captures are exact.** The stage of each generator carries the names that are
bound before it and read from it on, and holds the captured values of the names that
are read lexically from it on, and nothing else. No name is taken along twice, and none
that the generator binds itself. Both lists stand in order of first occurrence in the
scan from the final expression outwards. The entry scope holds what the outermost
source reads, in order. -/
theorem compile_captures_exactly {s : Sequence m ε V} {final : Expression m ε V V}
    {chain : Chain m ε V} (compiled : s.compile final = .ok chain) :
    (∀ d g, s.generators[d]? = some g → ∃ st, chain.stages[d]? = some st ∧
      st.pattern = g.pattern ∧
      (∀ n, n ∈ st.carried ↔
        (∃ b < d, ∃ h ∈ s.generators[b]?, n ∈ h.pattern.names) ∧
          ∃ visible, ReadFrom s.generators final.reads d ⟨n, visible⟩) ∧
      (∀ n, n ∈ st.lexical.names ↔
        ∃ visible, ReadFrom s.generators final.reads d ⟨n, visible⟩ ∧
          Occurrence.Lexical s.generators ⟨n, visible⟩) ∧
      (∀ n ∈ st.lexical.names, st.lexical.get? n = s.environment.get? n) ∧
      (st.carried ++ st.lexical.names ++ g.pattern.names).Nodup ∧
      st.carried = (((occurrences s.generators final.reads d).filter fun o =>
        ∃ b < d, o.ResolvesTo s.generators b).map Occurrence.name).eraseDups ∧
      st.lexical.names = (((occurrences s.generators final.reads d).filter fun o =>
        o.Lexical s.generators).map Occurrence.name).eraseDups) ∧
    chain.entry.names = s.first.source.reads.eraseDups ∧
      ∀ n ∈ s.first.source.reads, chain.entry.get? n = s.environment.get? n := by
  refine ⟨?_, ?_, ?_⟩
  · intro d g found
    obtain ⟨before, rest, split, rfl⟩ := exists_split_of_getElem? found
    have depth := (List.getElem?_eq_some_iff.mp found).1
    have resolvable := (wellScoped_at compiled split).resolvable_needed
    have distinct := s.nodup_boundBy
    have carried : (Sequence.stage s.environment final before.length (boundBy before) g
        rest).carried = _ :=
      (Sequence.carried_stage ..).trans (filter_needed_bound final.reads distinct split)
    have lexical : (Sequence.stage s.environment final before.length (boundBy before) g
        rest).lexical.names = _ :=
      (Sequence.names_lexical_stage resolvable).trans
        (filter_needed_lexical final.reads distinct split)
    refine ⟨_, stage_at compiled split, Sequence.pattern_stage .., ?_, ?_, ?_, ?_, carried, lexical⟩
    · intro n
      rw [carried, mem_resolved_iff depth]
    · intro n
      rw [lexical, mem_lexical_iff]
    · intro n hn
      rw [Sequence.names_lexical_stage resolvable] at hn
      rw [Sequence.lexical_stage, Scope.get?_project, if_pos hn]
    · exact Sequence.nodup_names_stage (nodup_names_of_split distinct split) resolvable
  · exact names_entry_of_compile compiled
  · intro n hn
    rw [entry_of_compile compiled, Scope.get?_project, if_pos hn]

/-- The inner stage carries `x` and holds `limit`. The outer one holds the captured `k`
for its guard, although the inner one binds that name. -/
theorem sample_captures_exactly :
    ∃ chain, Sample.sequence.compile Sample.final = .ok chain ∧
      (∃ st, chain.stages[0]? = some st ∧ st.carried = [] ∧
        st.lexical.names = [⟨"limit"⟩, ⟨"pairs"⟩, ⟨"k"⟩]) ∧
      (∃ st, chain.stages[1]? = some st ∧ st.carried = [⟨"x"⟩] ∧
        st.lexical.names = [⟨"limit"⟩]) ∧
      chain.entry.names = [⟨"xs"⟩] := by
  refine ⟨_, rfl, ?_⟩
  obtain ⟨stages, entry, -⟩ := compile_captures_exactly
    (rfl : Sample.sequence.compile Sample.final = .ok _)
  obtain ⟨outer, foundOuter, -, -, -, -, -, carriedOuter, lexicalOuter⟩ :=
    stages 0 Sample.outer rfl
  obtain ⟨inner, foundInner, -, -, -, -, -, carriedInner, lexicalInner⟩ :=
    stages 1 Sample.inner rfl
  refine ⟨⟨outer, foundOuter, carriedOuter.trans ?_, lexicalOuter.trans ?_⟩,
    ⟨inner, foundInner, carriedInner.trans ?_, lexicalInner.trans ?_⟩, entry⟩
  all_goals decide

end Comprehension
