/-
Matching is a walk over the positions of a pattern.

A position says which part to take at each tuple, from the outside in. Positions are
ordered as lists are: what stands further left comes first, and a tuple before its parts.
That is the order in which a pattern is read.

Matching goes from position to position in that order. It comes to a part only if every
tuple around it can be entered, which means that the value there splits into exactly as
many parts as the tuple has.

* `Pattern.At`, `Pattern.Reaches`, `Pattern.Blocked`: what stands at a position, the value
  that arrives there, and the tuples that cannot be entered.
* `Tour`: the names met on the way, in order and without a gap, up to the first tuple that
  cannot be entered; `Tour.append` and `Tour.halt` put tours together.
* `exists_tour_walk`: what a match binds is a tour of its pattern.
* `Pattern.exists_sites`: the names of a pattern are those at its positions, in order, and
  `Listed.exists_first_repeat_iff`: where a name is repeated first.
* `run_bind_eq_tour`: what a match does to a scope, and how it ends.
-/

import Comprehension.Proofs.Matching

namespace Comprehension

variable {V : Type}

/-! ### Positions -/

namespace Pattern

/-- The pattern at a position. -/
inductive At : Pattern → List Nat → Pattern → Prop where
  | here {p : Pattern} : At p [] p
  | part {ps : List Pattern} {i : Nat} {p q : Pattern} {rest : List Nat} :
      ps[i]? = some p → At p rest q → At (.tuple ps) (i :: rest) q

variable [Splittable V]

/-- Asked for so many parts, the value gives exactly that many, and these are they. -/
def SplitsInto (v : V) (k : Nat) (vs : List V) : Prop :=
  Splittable.split v k = some vs ∧ vs.length = k

/-- Matching a value comes to a position: the pattern that stands there, and the value that
arrives there. Every tuple on the way is entered. -/
inductive Reaches : Pattern → V → List Nat → Pattern → V → Prop where
  | here {p : Pattern} {v : V} : Reaches p v [] p v
  | part {ps : List Pattern} {v : V} {vs : List V} {i : Nat} {p q : Pattern} {w u : V}
      {rest : List Nat} : SplitsInto v ps.length vs → ps[i]? = some p → vs[i]? = some w →
      Reaches p w rest q u → Reaches (.tuple ps) v (i :: rest) q u

/-- At the position stands a tuple of `k` parts, and the value that arrives there does not
split into so many. -/
def Blocked (p : Pattern) (v : V) (position : List Nat) (k : Nat) : Prop :=
  ∃ ps w, Reaches p v position (.tuple ps) w ∧ ps.length = k ∧ ∀ vs, ¬ SplitsInto w k vs

theorem parts?_eq_some_iff {v : V} {k : Nat} {vs : List V} :
    parts? v k = some vs ↔ SplitsInto v k vs := by
  rw [parts?, Option.filter_eq_some_iff, decide_eq_true_eq, SplitsInto]

end Pattern

/-! ### Tours -/

/-- What there is to meet on a walk: the positions of names, the values that arrive there,
and the tuples that cannot be entered. -/
structure Terrain (V : Type) where
  name : List Nat → Name → Prop
  arrives : List Nat → Name → V → Prop
  blocked : List Nat → Nat → Prop

namespace Terrain

@[ext] theorem ext {T T' : Terrain V} (name : ∀ position n, T.name position n ↔ T'.name position n)
    (arrives : ∀ position n v, T.arrives position n v ↔ T'.arrives position n v)
    (blocked : ∀ position k, T.blocked position k ↔ T'.blocked position k) : T = T' := by
  obtain ⟨_, _, _⟩ := T
  obtain ⟨_, _, _⟩ := T'
  congr
  · funext position n
    exact propext (name position n)
  · funext position n v
    exact propext (arrives position n v)
  · funext position k
    exact propext (blocked position k)

/-- Nothing to meet. -/
def empty : Terrain V := ⟨fun _ _ => False, fun _ _ _ => False, fun _ _ => False⟩

/-- The terrain inside part number `i` of a tuple. -/
def inside (T : Terrain V) (i : Nat) : Terrain V where
  name position n := ∃ rest, position = i :: rest ∧ T.name rest n
  arrives position n v := ∃ rest, position = i :: rest ∧ T.arrives rest n v
  blocked position k := ∃ rest, position = i :: rest ∧ T.blocked rest k

/-- Two terrains taken together. -/
def join (T T' : Terrain V) : Terrain V where
  name position n := T.name position n ∨ T'.name position n
  arrives position n v := T.arrives position n v ∨ T'.arrives position n v
  blocked position k := T.blocked position k ∨ T'.blocked position k

/-- There is a name at the position, or a tuple that cannot be entered. -/
def Has (T : Terrain V) (position : List Nat) : Prop :=
  (∃ n, T.name position n) ∨ ∃ k, T.blocked position k

/-- All of the first terrain comes before all of the second. -/
def Precedes (T T' : Terrain V) : Prop :=
  ∀ position position', T.Has position → T'.Has position' → position < position'

end Terrain

/-- What is met on a walk over a terrain: the names that are bound, each with its position
and its value, and the tuple that the walk stops at, if there is one. -/
structure Tour (T : Terrain V) (bound : List (List Nat × Name × V))
    (stop : Option (List Nat × Nat)) : Prop where
  /-- The names are bound in the order of their positions. -/
  ordered : bound.Pairwise fun a b => a.1 < b.1
  /-- Each stands at its position and is bound to the value that arrives there. -/
  arrived : ∀ a ∈ bound, T.name a.1 a.2.1 ∧ T.arrives a.1 a.2.1 a.2.2
  /-- All of them come before the stop. -/
  ahead : ∀ a ∈ bound, ∀ x ∈ stop, a.1 < x.1
  /-- No name that comes before the stop is left out. -/
  complete : ∀ position n, T.name position n → (∀ x ∈ stop, position < x.1) →
    ∃ v, (position, n, v) ∈ bound
  /-- The walk stops at a tuple that cannot be entered. -/
  stopped : ∀ x ∈ stop, T.blocked x.1 x.2
  /-- No such tuple comes before the one it stops at. -/
  first : ∀ position k, T.blocked position k → ∃ x ∈ stop, ¬ position < x.1

namespace Tour

variable {T T' : Terrain V} {bound bound' : List (List Nat × Name × V)}
  {stop : Option (List Nat × Nat)}

theorem empty : Tour (Terrain.empty : Terrain V) [] none where
  ordered := List.Pairwise.nil
  arrived := List.forall_mem_nil _
  ahead := List.forall_mem_nil _
  complete _ _ nothing := nothing.elim
  stopped := nofun
  first _ _ nothing := nothing.elim

/-- A tour inside a part is a tour with longer positions. -/
theorem inside (tour : Tour T bound stop) (i : Nat) :
    Tour (T.inside i) (bound.map fun a => (i :: a.1, a.2)) (stop.map fun x => (i :: x.1, x.2)) where
  ordered := by
    rw [List.pairwise_map]
    exact tour.ordered.imp fun less => List.cons_lt_cons_iff.mpr (.inr ⟨rfl, less⟩)
  arrived := by
    intro _ mem
    obtain ⟨a, mem', rfl⟩ := List.mem_map.mp mem
    obtain ⟨name, arrives⟩ := tour.arrived a mem'
    exact ⟨⟨_, rfl, name⟩, _, rfl, arrives⟩
  ahead := by
    intro _ mem _ halts
    obtain ⟨a, mem', rfl⟩ := List.mem_map.mp mem
    obtain ⟨x, halts', rfl⟩ := Option.map_eq_some_iff.mp halts
    exact List.cons_lt_cons_iff.mpr (.inr ⟨rfl, tour.ahead a mem' x halts'⟩)
  complete := by
    rintro _ n ⟨rest, rfl, name⟩ before
    obtain ⟨v, mem⟩ := tour.complete rest n name fun x halts => by
      have less := before (i :: x.1, x.2) (Option.mem_map_of_mem _ halts)
      simpa using List.cons_lt_cons_iff.mp less
    exact ⟨v, List.mem_map.mpr ⟨_, mem, rfl⟩⟩
  stopped := by
    intro _ halts
    obtain ⟨x, halts', rfl⟩ := Option.map_eq_some_iff.mp halts
    exact ⟨_, rfl, tour.stopped x halts'⟩
  first := by
    rintro _ k ⟨rest, rfl, blocked⟩
    obtain ⟨x, halts, late⟩ := tour.first rest k blocked
    refine ⟨_, Option.mem_map_of_mem _ halts, fun less => late ?_⟩
    simpa using List.cons_lt_cons_iff.mp less

/-- A tour that is not stopped goes on with what comes after it. -/
theorem append (tour : Tour T bound none) (tour' : Tour T' bound' stop)
    (precedes : T.Precedes T') : Tour (T.join T') (bound ++ bound') stop where
  ordered := by
    refine List.pairwise_append.mpr ⟨tour.ordered, tour'.ordered, fun a mem b mem' => ?_⟩
    exact precedes _ _ (.inl ⟨_, (tour.arrived a mem).1⟩) (.inl ⟨_, (tour'.arrived b mem').1⟩)
  arrived := by
    intro a mem
    rcases List.mem_append.mp mem with mem | mem
    · obtain ⟨name, arrives⟩ := tour.arrived a mem
      exact ⟨.inl name, .inl arrives⟩
    · obtain ⟨name, arrives⟩ := tour'.arrived a mem
      exact ⟨.inr name, .inr arrives⟩
  ahead := by
    intro a mem x halts
    rcases List.mem_append.mp mem with mem | mem
    · exact precedes _ _ (.inl ⟨_, (tour.arrived a mem).1⟩) (.inr ⟨_, tour'.stopped x halts⟩)
    · exact tour'.ahead a mem x halts
  complete := by
    rintro position n (name | name) before
    · obtain ⟨v, mem⟩ := tour.complete position n name nofun
      exact ⟨v, List.mem_append_left _ mem⟩
    · obtain ⟨v, mem⟩ := tour'.complete position n name before
      exact ⟨v, List.mem_append_right _ mem⟩
  stopped := fun x halts => .inr (tour'.stopped x halts)
  first := by
    rintro position k (blocked | blocked)
    · obtain ⟨x, halts, -⟩ := tour.first position k blocked
      cases halts
    · exact tour'.first position k blocked

/-- A tour that is stopped has nothing to do with what comes after it. -/
theorem halt {x : List Nat × Nat} (tour : Tour T bound (some x)) (precedes : T.Precedes T') :
    Tour (T.join T') bound (some x) where
  ordered := tour.ordered
  arrived := fun a mem => ⟨.inl (tour.arrived a mem).1, .inl (tour.arrived a mem).2⟩
  ahead := tour.ahead
  complete := by
    rintro position n (name | name) before
    · exact tour.complete position n name before
    · have after := precedes _ _ (.inr ⟨_, tour.stopped x rfl⟩) (.inl ⟨n, name⟩)
      exact absurd (before x rfl) (List.lt_asymm after)
  stopped := fun y halts => .inl (tour.stopped y halts)
  first := by
    rintro position k (blocked | blocked)
    · exact tour.first position k blocked
    · have after := precedes _ _ (.inr ⟨_, tour.stopped x rfl⟩) (.inr ⟨k, blocked⟩)
      exact ⟨x, rfl, List.lt_asymm after⟩

/-- A tour is not stopped exactly if there is nothing to stop it. -/
theorem stop_eq_none_iff (tour : Tour T bound stop) :
    stop = none ↔ ∀ position k, ¬ T.blocked position k := by
  constructor
  · rintro rfl position k blocked
    obtain ⟨x, halts, -⟩ := tour.first position k blocked
    cases halts
  · intro free
    exact Option.eq_none_iff_forall_not_mem.mpr fun x halts => free _ _ (tour.stopped x halts)

/-- The last of the pairs for a name is the one at its last position. -/
theorem exists_split_of_last (tour : Tour T bound stop) {a : List Nat × Name × V} (mem : a ∈ bound)
    (last : ∀ b ∈ bound, b.2.1 = a.2.1 → ¬ a.1 < b.1) :
    ∃ before after, bound = before ++ a :: after ∧ ∀ b ∈ after, b.2.1 ≠ a.2.1 := by
  obtain ⟨before, after, rfl⟩ := List.append_of_mem mem
  refine ⟨before, after, rfl, fun b mem' same => ?_⟩
  have later := (List.pairwise_cons.mp (List.pairwise_append.mp tour.ordered).2.1).1 b mem'
  exact last b (by simp [mem']) same later

end Tour

/-! ### Names by position -/

/-- The list holds the names at their positions, in order: `At position n` says that `n`
stands at the position. -/
structure Listed (At : List Nat → Name → Prop) (sites : List (List Nat × Name)) : Prop where
  ordered : sites.Pairwise fun a b => a.1 < b.1
  mem_iff : ∀ position n, (position, n) ∈ sites ↔ At position n

/-- The name at the position stands at an earlier one as well. -/
def Repeats (At : List Nat → Name → Prop) (position : List Nat) (n : Name) : Prop :=
  At position n ∧ ∃ earlier, earlier < position ∧ At earlier n

namespace Listed

variable {At : List Nat → Name → Prop} {sites : List (List Nat × Name)}

/-- What is listed in front of a position is what comes before it. -/
theorem front {before after : List (List Nat × Name)} {x : List Nat × Name}
    (listed : Listed At (before ++ x :: after)) :
    Listed (fun position n => At position n ∧ position < x.1) before where
  ordered := (List.pairwise_append.mp listed.ordered).1
  mem_iff := by
    obtain ⟨-, back, apart⟩ := List.pairwise_append.mp listed.ordered
    intro position n
    rw [← listed.mem_iff, List.mem_append, List.mem_cons]
    constructor
    · intro mem
      exact ⟨.inl mem, apart _ mem x List.mem_cons_self⟩
    · rintro ⟨mem | rfl | mem, less⟩
      · exact mem
      · exact absurd less (List.lt_irrefl _)
      · exact absurd less (List.lt_asymm ((List.pairwise_cons.mp back).1 _ mem))

theorem nodup_iff (listed : Listed At sites) :
    (sites.map Prod.snd).Nodup ↔ ∀ position n, ¬ Repeats At position n := by
  rw [List.Nodup, List.pairwise_map]
  constructor
  · rintro nodup position n ⟨stands, earlier, less, stands'⟩
    obtain ⟨before, after, rfl⟩ := List.append_of_mem ((listed.mem_iff position n).mpr stands)
    have mem := (listed.front.mem_iff earlier n).mpr ⟨stands', less⟩
    exact (List.pairwise_append.mp nodup).2.2 _ mem _ List.mem_cons_self rfl
  · intro single
    refine listed.ordered.imp_of_mem fun {a b} mem mem' less same => ?_
    refine single b.1 b.2 ⟨(listed.mem_iff _ _).mp mem', a.1, less, (listed.mem_iff _ _).mp ?_⟩
    rw [← same]
    exact mem

/-- **The first name of the list that repeats an earlier one** is the one at the first
position where a name is repeated. -/
theorem exists_first_repeat_iff (listed : Listed At sites) (n : Name) :
    (∃ before after, sites.map Prod.snd = before ++ n :: after ∧ n ∈ before ∧ before.Nodup) ↔
      ∃ position, Repeats At position n ∧
        ∀ position' k, Repeats At position' k → ¬ position' < position := by
  constructor
  · rintro ⟨_, _, split, repeated, nodup⟩
    obtain ⟨before, rest, rfl, rfl, split'⟩ := List.map_eq_append_iff.mp split
    obtain ⟨x, after, rfl, rfl, -⟩ := List.map_eq_cons_iff.mp split'
    obtain ⟨a, mem, same⟩ := List.mem_map.mp repeated
    have earlier := (listed.front.mem_iff a.1 a.2).mp mem
    rw [same] at earlier
    refine ⟨x.1, ⟨(listed.mem_iff _ _).mp (by simp), a.1, earlier.2, earlier.1⟩, ?_⟩
    rintro position k ⟨stands, earlier, less, stands'⟩ less'
    refine listed.front.nodup_iff.mp nodup position k ?_
    exact ⟨⟨stands, less'⟩, earlier, less, stands', List.lt_trans less less'⟩
  · rintro ⟨position, ⟨stands, earlier, less, stands'⟩, least⟩
    obtain ⟨before, after, rfl⟩ := List.append_of_mem ((listed.mem_iff position n).mpr stands)
    refine ⟨before.map Prod.snd, after.map Prod.snd, by simp, ?_, ?_⟩
    · exact List.mem_map.mpr ⟨(earlier, n), (listed.front.mem_iff _ _).mpr ⟨stands', less⟩, rfl⟩
    · refine listed.front.nodup_iff.mpr ?_
      rintro position' k ⟨⟨stands, less⟩, earlier, less', stands', -⟩
      exact least position' k ⟨stands, earlier, less', stands'⟩ less

end Listed

/-! ### The terrain of a pattern -/

namespace Pattern

/-- A position in a row of patterns with their values, whose parts are counted from `i`. -/
def InRow (F : Pattern → V → List Nat → Prop) (i : Nat) (ps : List Pattern) (vs : List V)
    (position : List Nat) : Prop :=
  ∃ j p v rest, position = (i + j) :: rest ∧ ps[j]? = some p ∧ vs[j]? = some v ∧ F p v rest

theorem not_inRow_nil {F : Pattern → V → List Nat → Prop} {i : Nat} {vs : List V}
    {position : List Nat} : ¬ InRow F i [] vs position := by
  rintro ⟨j, p, v, rest, -, found, -⟩
  cases found

theorem inRow_cons_iff {F : Pattern → V → List Nat → Prop} {i : Nat} {p : Pattern}
    {ps : List Pattern} {v : V} {vs : List V} {position : List Nat} :
    InRow F i (p :: ps) (v :: vs) position ↔
      (∃ rest, position = i :: rest ∧ F p v rest) ∨ InRow F (i + 1) ps vs position := by
  constructor
  · rintro ⟨_ | j, q, w, rest, rfl, found, found', holds⟩
    · cases found
      cases found'
      exact .inl ⟨rest, rfl, holds⟩
    · refine .inr ⟨j, q, w, rest, ?_, found, found', holds⟩
      rw [Nat.add_right_comm, Nat.add_assoc]
  · rintro (⟨rest, rfl, holds⟩ | ⟨j, q, w, rest, rfl, found, found', holds⟩)
    · exact ⟨0, p, v, rest, rfl, rfl, rfl, holds⟩
    · refine ⟨j + 1, q, w, rest, ?_, found, found', holds⟩
      rw [Nat.add_right_comm, Nat.add_assoc]

/-- The positions of a row come after all those of the parts before it. -/
theorem le_head_of_inRow {F : Pattern → V → List Nat → Prop} {i : Nat} {ps : List Pattern}
    {vs : List V} {position : List Nat} (row : InRow F i ps vs position) :
    ∃ j rest, position = j :: rest ∧ i ≤ j := by
  obtain ⟨j, -, -, rest, rfl, -⟩ := row
  exact ⟨i + j, rest, rfl, Nat.le_add_right i j⟩

variable [Splittable V]

/-- What there is to meet in a pattern with a value. -/
def terrain (p : Pattern) (v : V) : Terrain V where
  name position n := p.At position (.name n)
  arrives position n w := p.Reaches v position (.name n) w
  blocked := p.Blocked v

/-- What there is to meet in a row of patterns with their values. -/
def rowTerrain (i : Nat) (ps : List Pattern) (vs : List V) : Terrain V where
  name position n := InRow (fun p _ rest => p.At rest (.name n)) i ps vs position
  arrives position n w := InRow (fun p v rest => p.Reaches v rest (.name n) w) i ps vs position
  blocked position k := InRow (fun p v rest => p.Blocked v rest k) i ps vs position

theorem rowTerrain_nil (i : Nat) (vs : List V) : rowTerrain i [] vs = Terrain.empty :=
  Terrain.ext (fun _ _ => iff_false_intro not_inRow_nil)
    (fun _ _ _ => iff_false_intro not_inRow_nil) fun _ _ => iff_false_intro not_inRow_nil

theorem rowTerrain_cons (i : Nat) (p : Pattern) (ps : List Pattern) (v : V) (vs : List V) :
    rowTerrain i (p :: ps) (v :: vs) =
      ((p.terrain v).inside i).join (rowTerrain (i + 1) ps vs) :=
  Terrain.ext (fun _ _ => inRow_cons_iff) (fun _ _ _ => inRow_cons_iff) fun _ _ => inRow_cons_iff

theorem precedes_rowTerrain (T : Terrain V) (i : Nat) (ps : List Pattern) (vs : List V) :
    (T.inside i).Precedes (rowTerrain (i + 1) ps vs) := by
  intro position position' has has'
  have own : ∃ rest, position = i :: rest := by
    rcases has with ⟨n, rest, rfl, -⟩ | ⟨k, rest, rfl, -⟩
    · exact ⟨rest, rfl⟩
    · exact ⟨rest, rfl⟩
  have others : ∃ j rest, position' = j :: rest ∧ i + 1 ≤ j := by
    rcases has' with ⟨n, row⟩ | ⟨k, row⟩
    · exact le_head_of_inRow row
    · exact le_head_of_inRow row
  obtain ⟨rest, rfl⟩ := own
  obtain ⟨j, rest', rfl, lt⟩ := others
  exact List.cons_lt_cons_iff.mpr (.inl lt)

/-- A tuple that is entered has nothing of its own: all there is to meet is in its parts. -/
theorem terrain_tuple {ps : List Pattern} {v : V} {vs : List V}
    (splits : SplitsInto v ps.length vs) : (tuple ps).terrain v = rowTerrain 0 ps vs := by
  have same : ∀ {vs'}, SplitsInto v ps.length vs' → vs' = vs :=
    fun splits' => Option.some.inj (splits'.1.symm.trans splits.1)
  refine Terrain.ext ?_ ?_ ?_
  · intro position n
    constructor
    · rintro (_ | @⟨_, i, p, _, rest, found, occurs⟩)
      have lt : i < vs.length := splits.2 ▸ (List.getElem?_eq_some_iff.mp found).1
      exact ⟨i, p, vs[i], rest, by rw [Nat.zero_add], found, List.getElem?_eq_getElem lt, occurs⟩
    · rintro ⟨i, p, w, rest, rfl, found, -, occurs⟩
      rw [Nat.zero_add]
      exact .part found occurs
  · intro position n u
    constructor
    · rintro (_ | @⟨_, _, vs', i, p, _, w, _, rest, splits', found, found', reaches⟩)
      cases same splits'
      exact ⟨i, p, w, rest, by rw [Nat.zero_add], found, found', reaches⟩
    · rintro ⟨i, p, w, rest, rfl, found, found', reaches⟩
      rw [Nat.zero_add]
      exact .part splits found found' reaches
  · intro position k
    constructor
    · rintro ⟨qs, u, _ | @⟨_, _, vs', i, p, _, w, _, rest, splits', found, found', reaches⟩, arity,
        unsplit⟩
      · exact absurd (arity ▸ splits) (unsplit vs)
      · cases same splits'
        exact ⟨i, p, w, rest, by rw [Nat.zero_add], found, found', qs, u, reaches, arity, unsplit⟩
    · rintro ⟨i, p, w, rest, rfl, found, found', qs, u, reaches, arity, unsplit⟩
      rw [Nat.zero_add]
      exact ⟨qs, u, .part splits found found' reaches, arity, unsplit⟩

theorem tour_name (n : Name) (v : V) : Tour ((name n).terrain v) [([], n, v)] none where
  ordered := List.pairwise_singleton _ _
  arrived := by
    intro a mem
    cases List.mem_singleton.mp mem
    exact ⟨.here, .here⟩
  ahead := nofun
  complete := by
    rintro _ _ ⟨⟩ -
    exact ⟨v, List.mem_singleton_self _⟩
  stopped := nofun
  first := by
    rintro _ _ ⟨_, _, ⟨⟩, _⟩

theorem tour_wildcard (v : V) : Tour (wildcard.terrain v) [] none where
  ordered := List.Pairwise.nil
  arrived := List.forall_mem_nil _
  ahead := List.forall_mem_nil _
  complete := by
    rintro _ _ ⟨⟩
  stopped := nofun
  first := by
    rintro _ _ ⟨_, _, ⟨⟩, _⟩

/-- A tuple that cannot be entered comes before everything in it. -/
theorem tour_blocked {ps : List Pattern} {v : V} (unsplit : ∀ vs, ¬ SplitsInto v ps.length vs) :
    Tour ((tuple ps).terrain v) [] (some ([], ps.length)) where
  ordered := List.Pairwise.nil
  arrived := List.forall_mem_nil _
  ahead := List.forall_mem_nil _
  complete position n _ before := absurd (before _ rfl) (List.not_lt_nil position)
  stopped := by
    rintro _ ⟨⟩
    exact ⟨ps, v, .here, rfl, unsplit⟩
  first position _ _ := ⟨_, rfl, List.not_lt_nil position⟩

mutual

/-- **What a match binds is a tour of its pattern.** -/
theorem exists_tour_walk (p : Pattern) (v : V) :
    ∃ bound stop, Tour (p.terrain v) bound stop ∧
      p.walk v = (bound.map Prod.snd, stop.map Prod.snd) := by
  match p with
  | .name n => exact ⟨_, _, tour_name n v, rfl⟩
  | .wildcard => exact ⟨_, _, tour_wildcard v, rfl⟩
  | .tuple ps =>
    cases split : parts? v ps.length with
    | none =>
      have unsplit : ∀ vs, ¬ SplitsInto v ps.length vs := fun vs splits => by
        rw [parts?_eq_some_iff.mpr splits] at split
        cases split
      refine ⟨_, _, tour_blocked unsplit, ?_⟩
      simp only [walk, split]
      rfl
    | some vs =>
      have splits := parts?_eq_some_iff.mp split
      rw [terrain_tuple splits]
      simp only [walk, split]
      exact exists_tour_walkAll 0 ps vs splits.2

theorem exists_tour_walkAll (i : Nat) (ps : List Pattern) (vs : List V)
    (row : vs.length = ps.length) :
    ∃ bound stop, Tour (rowTerrain i ps vs) bound stop ∧
      walkAll ps vs = (bound.map Prod.snd, stop.map Prod.snd) := by
  match ps, vs with
  | [], _ =>
    refine ⟨[], none, ?_, rfl⟩
    rw [rowTerrain_nil]
    exact Tour.empty
  | _ :: _, [] => cases row
  | p :: ps, v :: vs =>
    have precedes := precedes_rowTerrain (p.terrain v) i ps vs
    obtain ⟨bound, stop, tour, walked⟩ := exists_tour_walk p v
    rw [rowTerrain_cons]
    cases stop with
    | some x =>
      refine ⟨_, _, (tour.inside i).halt precedes, ?_⟩
      simp [walkAll, walked]
    | none =>
      obtain ⟨bound', stop', tour', walked'⟩ :=
        exists_tour_walkAll (i + 1) ps vs (Nat.succ.inj row)
      refine ⟨_, _, (tour.inside i).append tour' precedes, ?_⟩
      simp [walkAll, walked, walked']

end

mutual

/-- The names that a walk binds are the first ones of its pattern. -/
theorem isPrefix_map_fst_walk (p : Pattern) (v : V) : (p.walk v).1.map Prod.fst <+: p.names := by
  match p with
  | .name n => exact List.prefix_rfl
  | .wildcard => exact List.prefix_rfl
  | .tuple ps =>
    cases split : parts? v ps.length with
    | none =>
      simp only [walk, split]
      exact List.nil_prefix
    | some vs =>
      simp only [walk, split, names]
      exact isPrefix_map_fst_walkAll ps vs

theorem isPrefix_map_fst_walkAll (ps : List Pattern) (vs : List V) :
    (walkAll ps vs).1.map Prod.fst <+: namesOfAll ps := by
  match ps, vs with
  | [], _ => exact List.nil_prefix
  | _ :: _, [] => exact List.nil_prefix
  | p :: ps, v :: vs =>
    have head := isPrefix_map_fst_walk p v
    rcases walked : walk p v with ⟨pairs, _ | k⟩
    · have whole := map_fst_walk (p := p) (v := v) (by rw [walked])
      rw [walked] at whole
      simp only [walkAll, walked, List.map_append, namesOfAll, whole]
      exact (List.prefix_append_right_inj _).mpr (isPrefix_map_fst_walkAll ps vs)
    · rw [walked] at head
      simp only [walkAll, walked, namesOfAll]
      exact head.trans (List.prefix_append _ _)

end

omit [Splittable V] in
/-- **The names of a pattern are those at its positions**, in order. -/
theorem exists_sites (p : Pattern) :
    ∃ sites, Listed (fun position n => p.At position (.name n)) sites ∧
      sites.map Prod.snd = p.names := by
  -- a value that splits into as many parts as it is asked for stops no tour
  let _ : Splittable Unit := ⟨fun _ k => some (List.replicate k ())⟩
  have free : ∀ position k, ¬ p.Blocked () position k := by
    rintro position k ⟨_, _, _, _, unsplit⟩
    exact unsplit (List.replicate k ()) ⟨rfl, List.length_replicate⟩
  obtain ⟨bound, stop, tour, walked⟩ := exists_tour_walk p ()
  obtain rfl := tour.stop_eq_none_iff.mpr free
  have whole := map_fst_walk (p := p) (v := ()) (by rw [walked]; rfl)
  refine ⟨bound.map fun a => (a.1, a.2.1), ⟨?_, ?_⟩, ?_⟩
  · rw [List.pairwise_map]
    exact tour.ordered
  · intro position n
    constructor
    · intro mem
      obtain ⟨a, mem', same⟩ := List.mem_map.mp mem
      cases same
      exact (tour.arrived a mem').1
    · intro occurs
      obtain ⟨v, mem⟩ := tour.complete position n occurs nofun
      exact List.mem_map.mpr ⟨_, mem, rfl⟩
  · rw [walked, List.map_map] at whole
    rw [← whole, List.map_map]
    rfl

/-! ### What a match does -/

/-- **Matching is a tour of the pattern.** It binds the names it comes to, in order, up to
the first tuple that cannot be entered, and fails for that tuple. Names that the scope had
stay where they are and the new ones follow; the last value bound to a name is the one it
has after; all other names keep theirs. -/
theorem run_bind_eq_tour (depth : Nat) (p : Pattern) (v : V) (s : Scope V) :
    ∃ bound stop after, Tour (p.terrain v) bound stop ∧
      (bind depth p v).run s =
        (match stop with
          | none => .ok ()
          | some x => .error (.patternMismatch x.2 depth), after) ∧
      after = s.insertAll (bound.map Prod.snd) ∧
      (stop = none ↔ ∀ position k, ¬ p.Blocked v position k) ∧
      (bound.map fun a => a.2.1) <+: p.names ∧
      (stop = none → (bound.map fun a => a.2.1) = p.names) ∧
      after.names =
        s.names ++ ((bound.map fun a => a.2.1).filter fun n => n ∉ s.names).eraseDups ∧
      (∀ a ∈ bound, (∀ b ∈ bound, b.2.1 = a.2.1 → ¬ a.1 < b.1) →
        after.get? a.2.1 = some a.2.2) ∧
      ∀ n, (∀ a ∈ bound, a.2.1 ≠ n) → after.get? n = s.get? n := by
  obtain ⟨bound, stop, tour, walked⟩ := exists_tour_walk p v
  have names : ((bound.map Prod.snd).map Prod.fst) = bound.map fun a => a.2.1 := by
    rw [List.map_map]
    rfl
  have front := isPrefix_map_fst_walk p v
  rw [walked, names] at front
  refine ⟨bound, stop, _, tour, ?_, rfl, tour.stop_eq_none_iff, front, ?_, ?_, ?_, ?_⟩
  · rw [run_bind, walked]
    cases stop <;> rfl
  · rintro rfl
    have whole := map_fst_walk (p := p) (v := v) (by rw [walked]; rfl)
    rwa [walked, names] at whole
  · rw [Scope.names_insertAll_eq_append, names]
  · intro a mem last
    obtain ⟨before, after, rfl, others⟩ := tour.exists_split_of_last mem last
    rw [List.map_append, List.map_cons]
    refine Scope.get?_insertAll_of_last s a.2.2 ?_
    rw [List.map_map]
    intro mem'
    obtain ⟨b, mem', same⟩ := List.mem_map.mp mem'
    exact others b mem' same
  · intro n absent
    refine Scope.get?_insertAll_of_notMem s ?_
    rw [names]
    intro mem
    obtain ⟨a, mem', same⟩ := List.mem_map.mp mem
    exact absent a mem' same

end Pattern

end Comprehension
