/-
The calls of a run over lists, as a tree.

Over lists, every entry into a stage draws a list from the source, and each item of it has
its fate: a guard drops it, or it survives them all and leads to an entry into the next
stage, or in the last stage to a call of the final expression. All calls of the run can be
read off the tree of fates.

The calls of one entry go breadth first: all items come to the first guard before any comes
to the second, and the next stage is entered only when all guards are done with. Across
stages they go depth first: an item is done with before the next one is turned to.

* `callsFor`: the calls made for an item that survives, down to the last stage.
* `Fits`: the fates belong to the lists that were drawn and to the stages of a chain.
* `reached`: the choices of one surviving item from each of the first stages, with the call
  that was made for them. `mem_reached_iff` and `pairwise_reached` say that it has each of
  them, once and in lexicographic order.
* `filterMap_callsFor`, `countP_callsFor`: the calls of each closure are those of the
  choices, and how often the handler is called.
-/

import Comprehension.Proofs.NestedLoops
import Comprehension.Proofs.Notes

namespace Comprehension

variable {m : Type → Type} {ε V : Type}

/-! ### Fates -/

/-- What becomes of an item, with the scope made for it. -/
inductive Fate (V : Type) where
  /-- Guard number `guard` is the first that does not hold of it. -/
  | dropped (scope : Scope V) (guard : Nat)
  /-- The final expression gives its value. -/
  | final (scope : Scope V) (v : V)
  /-- The next stage is entered: its source gives a value, and these are the fates of that
  value's items. -/
  | entered (scope : Scope V) (given : V) (inner : List (Fate V))

namespace Fate

def scope : Fate V → Scope V
  | .dropped scope _ => scope
  | .final scope _ => scope
  | .entered scope _ _ => scope

/-- The first `j` guards hold of the item. -/
def survives (j : Nat) : Fate V → Bool
  | .dropped _ guard => j ≤ guard
  | .final _ _ => true
  | .entered _ _ _ => true

/-- The call that is made for an item which survives all guards: the scope and the value
given. -/
def call? : Fate V → Option (Scope V × V)
  | .dropped _ _ => none
  | .final scope v => some (scope, v)
  | .entered scope given _ => some (scope, given)

/-- The fates of the items that are drawn for the item. -/
def inner : Fate V → List (Fate V)
  | .dropped _ _ => []
  | .final _ _ => []
  | .entered _ _ inner => inner

theorem survives_of_le {j k : Nat} (le : j ≤ k) {x : Fate V} (survives : x.survives k = true) :
    x.survives j = true := by
  cases x with
  | dropped scope guard =>
    rw [Fate.survives, decide_eq_true_eq] at survives ⊢
    exact Nat.le_trans le survives
  | final scope v => rfl
  | entered scope given inner => rfl

end Fate

/-! ### The calls of an entry -/

/-- The calls for guard `j` of the stage at depth `d`: the handler is called, and then the
guard for every item that survives the guards before it. -/
def guardCalls (d : Nat) (fates : List (Fate V)) (j : Nat) : List (Happening V) :=
  .dispatch (.guarded d j) .filter ::
    (fates.filter fun x => x.survives j).map fun x =>
      .test (.guard d j) x.scope (x.survives (j + 1))

/-- The calls of the stage at depth `d` from guard `j` on, with so many guards to go: each
guard in turn, then the handler once more, and then `body` for each item. -/
def stageCalls (body : Fate V → List (Happening V)) (last : Bool) (d j guards : Nat)
    (fates : List (Fate V)) : List (Happening V) :=
  (List.range' j guards).flatMap (guardCalls d fates) ++
    .dispatch (.generator d) (if last then .map else .flatMap) :: fates.flatMap body

/-- The calls made for an item that survives: the final expression, or a whole entry into
the stage at depth `d`. The numbers of guards are those of the stage and of the stages
inside it. -/
def callsFor : List Nat → Nat → Fate V → List (Happening V)
  | _, _, .dropped _ _ => []
  | _, _, .final scope v => [.value .final scope v]
  | [], _, .entered _ _ _ => []
  | guards :: inside, d, .entered scope given inner =>
      .value (.source d) scope given ::
        stageCalls (callsFor inside (d + 1)) inside.isEmpty d 0 guards inner

theorem callsFor_dropped (guards : List Nat) (d : Nat) (scope : Scope V) (guard : Nat) :
    callsFor guards d (.dropped scope guard) = [] := by
  cases guards <;> rfl

/-- What comes after guard `j` has to do with the items that survive it only. -/
theorem stageCalls_succ {body : Fate V → List (Happening V)} (last : Bool) (d j guards : Nat)
    {fates : List (Fate V)} (dropped : ∀ scope guard, body (.dropped scope guard) = [])
    (survive : ∀ x ∈ fates, x.survives j = true) :
    stageCalls body last d j (guards + 1) fates =
      .dispatch (.guarded d j) .filter ::
        (fates.map (fun x => .test (.guard d j) x.scope (x.survives (j + 1))) ++
          stageCalls body last d (j + 1) guards (fates.filter fun x => x.survives (j + 1))) := by
  have own : guardCalls d fates j = .dispatch (.guarded d j) .filter ::
      fates.map fun x => .test (.guard d j) x.scope (x.survives (j + 1)) := by
    rw [guardCalls, List.filter_eq_self.mpr survive]
  have later : (List.range' (j + 1) guards).flatMap (guardCalls d fates) =
      (List.range' (j + 1) guards).flatMap
        (guardCalls d (fates.filter fun x => x.survives (j + 1))) := by
    refine List.flatMap_congr fun i mem => ?_
    have le : j + 1 ≤ i := (List.mem_range'_1.mp mem).1
    rw [guardCalls, guardCalls, List.filter_filter]
    congr 2
    refine List.filter_congr fun x _ => ?_
    cases survives : x.survives i with
    | false => rfl
    | true => rw [x.survives_of_le le survives]; rfl
  have bodies : fates.flatMap body =
      (fates.filter fun x => x.survives (j + 1)).flatMap body := by
    rw [flatMap_filter]
    refine List.flatMap_congr fun x _ => ?_
    cases x with
    | dropped scope guard => rw [dropped, ite_self]
    | final scope v => rfl
    | entered scope given inner => rfl
  rw [stageCalls, stageCalls, List.range'_succ, List.flatMap_cons, own, later, bodies]
  simp only [List.cons_append, List.append_assoc]

/-! ### Trees of a chain -/

/-- The number of guards of a stage. -/
def Stage.guards (st : Stage m ε V) : Nat := st.node.filters.length

/-- The fate is one of an item that survives, at the stages that come next. Where there is
none, the final expression is called. Otherwise the first one is entered, in the scope of
the item: the value of its source stands for a list, and each item of that list has a fate,
in order, with the scope that the stage makes for it. -/
def Fits [Splittable V] (form : ListForm ε V) : List (Stage m ε V) → Fate V → Prop
  | [], x => ∃ scope v, x = .final scope v
  | st :: rest, x => ∃ outer given inner items, x = .entered outer given inner ∧
      form.unpack? given = some items ∧
        List.Forall₂ (fun item y => st.enter (st.capture outer) item = .ok y.scope ∧
          ((∃ guard < st.guards, y = .dropped y.scope guard) ∨ Fits form rest y)) items inner

/-- What follows from being related to an item holds of all that are related to one. -/
theorem forall_mem_of_forall₂ {α β : Type} {R : α → β → Prop} {P : β → Prop} {as : List α}
    {bs : List β} (related : List.Forall₂ R as bs) (holds : ∀ a b, R a b → P b) :
    ∀ b ∈ bs, P b := by
  induction related with
  | nil => exact List.forall_mem_nil _
  | cons head _ ih => exact List.forall_mem_cons.mpr ⟨holds _ _ head, ih⟩

/-- Surviving items, one from each of the stages on the way down, by their positions in the
lists that were drawn; and the call that is made for them. -/
inductive Leads : Fate V → List Nat → Scope V → V → Prop where
  | here {x : Fate V} {scope : Scope V} {v : V} : x.call? = some (scope, v) → Leads x [] scope v
  | step {x y : Fate V} {i : Nat} {path : List Nat} {scope : Scope V} {v : V} :
      x.inner[i]? = some y → Leads y path scope v → Leads x (i :: path) scope v

/-- The choices of `k` surviving items with the calls made for them, the first varying
slowest. -/
def reached : Nat → Fate V → List (List Nat × Scope V × V)
  | 0, x => x.call?.toList.map fun call => ([], call)
  | k + 1, x => x.inner.zipIdx.flatMap fun p =>
      (reached k p.1).map fun q => (p.2 :: q.1, q.2)

/-- **No choice of surviving items is left out**, and there are no others. -/
theorem mem_reached_iff {k : Nat} {x : Fate V} {path : List Nat} {scope : Scope V} {v : V} :
    (path, scope, v) ∈ reached k x ↔ path.length = k ∧ Leads x path scope v := by
  induction k generalizing x path with
  | zero =>
    rw [reached, List.mem_map]
    constructor
    · rintro ⟨call, mem, same⟩
      cases same
      exact ⟨rfl, .here (Option.mem_toList.mp mem)⟩
    · rintro ⟨length, leads⟩
      cases leads with
      | here call => exact ⟨(scope, v), Option.mem_toList.mpr call, rfl⟩
      | step _ _ => cases length
  | succ k ih =>
    rw [reached, List.mem_flatMap]
    constructor
    · rintro ⟨⟨y, i⟩, drawn, mem⟩
      obtain ⟨⟨rest, call⟩, mem', same⟩ := List.mem_map.mp mem
      cases same
      obtain ⟨length, leads⟩ := ih.mp mem'
      exact ⟨congrArg (· + 1) length, .step (List.mk_mem_zipIdx_iff_getElem?.mp drawn) leads⟩
    · rintro ⟨length, leads⟩
      cases leads with
      | here _ => cases length
      | @step _ y i rest _ _ drawn leads =>
        refine ⟨(y, i), List.mk_mem_zipIdx_iff_getElem?.mpr drawn, ?_⟩
        exact List.mem_map.mpr ⟨(rest, scope, v), ih.mpr ⟨Nat.succ.inj length, leads⟩, rfl⟩

/-- **Choices come in lexicographic order, each once.** -/
theorem pairwise_reached (k : Nat) (x : Fate V) :
    (reached k x).Pairwise fun a b => a.1 < b.1 := by
  induction k generalizing x with
  | zero =>
    rw [reached, List.pairwise_map]
    cases x.call? with
    | none => exact List.Pairwise.nil
    | some call => exact List.pairwise_singleton _ _
  | succ k ih =>
    rw [reached, List.pairwise_flatMap]
    constructor
    · rintro ⟨y, i⟩ -
      rw [List.pairwise_map]
      exact (ih y).imp fun less => List.cons_lt_cons_iff.mpr (.inr ⟨rfl, less⟩)
    · have positions : x.inner.zipIdx.Pairwise fun p q => p.2 < q.2 := by
        rw [← List.pairwise_map, List.zipIdx_map_snd]
        exact List.pairwise_lt_range'
      refine positions.imp fun {p q} less a ha b hb => ?_
      obtain ⟨a', -, rfl⟩ := List.mem_map.mp ha
      obtain ⟨b', -, rfl⟩ := List.mem_map.mp hb
      exact List.cons_lt_cons_iff.mpr (.inl less)

/-! ### How often closures and the handler are called -/

namespace Happening

/-- A call at the place: the scope and the value given. -/
def call? (place : Place) : Happening V → Option (Scope V × V)
  | .value place' scope v => if place' = place then some (scope, v) else none
  | .test _ _ _ => none
  | .dispatch _ _ => none

/-- The handler is called for the stage at depth `d`. -/
def dispatchesAt (d : Nat) : Happening V → Bool
  | .value _ _ _ => false
  | .test _ _ _ => false
  | .dispatch site _ => site.depth = d

/-- The depth of a call of a source or of the handler. -/
def depth? : Happening V → Option Nat
  | .value (.source d) _ _ => some d
  | .value _ _ _ => none
  | .test _ _ _ => none
  | .dispatch site _ => some site.depth

theorem depth?_of_call? {d : Nat} {h : Happening V} {call : Scope V × V}
    (called : h.call? (.source d) = some call) : h.depth? = some d := by
  cases h with
  | value place scope v =>
    by_cases same : place = .source d
    · rw [same]
      rfl
    · rw [call?, if_neg same] at called
      cases called
  | test place scope passed => cases called
  | dispatch site capability => cases called

theorem depth?_of_dispatchesAt {d : Nat} {h : Happening V} (dispatches : h.dispatchesAt d = true) :
    h.depth? = some d := by
  cases h with
  | value place scope v => cases dispatches
  | test place scope passed => cases dispatches
  | dispatch site capability => exact congrArg some (of_decide_eq_true dispatches)

end Happening

/-- A stage makes its own calls and those of the stages inside it. -/
theorem le_depth_of_mem_callsFor {guards : List Nat} {d : Nat} {x : Fate V} {h : Happening V}
    (mem : h ∈ callsFor guards d x) {e : Nat} (depth : h.depth? = some e) : d ≤ e := by
  induction guards generalizing d x with
  | nil => cases x <;> simp_all [callsFor, Happening.depth?]
  | cons count inside ih =>
    cases x with
    | dropped scope guard => simp [callsFor] at mem
    | final scope v => simp_all [callsFor, Happening.depth?]
    | entered scope given inner =>
      rw [callsFor, stageCalls, List.mem_cons, List.mem_append, List.mem_cons, List.mem_flatMap,
        List.mem_flatMap] at mem
      rcases mem with rfl | ⟨j, -, mem⟩ | rfl | ⟨y, -, mem⟩
      · cases depth
        exact Nat.le_refl _
      · rcases List.mem_cons.mp mem with rfl | mem
        · cases depth
          exact Nat.le_refl _
        · obtain ⟨_, -, rfl⟩ := List.mem_map.mp mem
          cases depth
      · cases depth
        exact Nat.le_refl _
      · exact Nat.le_of_succ_le (ih mem)

/-! #### Closures -/

theorem filterMap_guardCalls (place : Place) (d : Nat) (fates : List (Fate V)) (j : Nat) :
    (guardCalls d fates j).filterMap (Happening.call? place) = [] := by
  rw [List.filterMap_eq_nil_iff]
  intro h mem
  rcases List.mem_cons.mp mem with rfl | mem
  · rfl
  · obtain ⟨_, -, rfl⟩ := List.mem_map.mp mem
    rfl

/-- Sources and the final expression are called in the bodies only. -/
theorem filterMap_stageCalls (place : Place) (body : Fate V → List (Happening V)) (last : Bool)
    (d j guards : Nat) (fates : List (Fate V)) :
    (stageCalls body last d j guards fates).filterMap (Happening.call? place) =
      fates.flatMap fun x => (body x).filterMap (Happening.call? place) := by
  have tests : ((List.range' j guards).flatMap (guardCalls d fates)).filterMap
      (Happening.call? place) = [] := by
    rw [List.filterMap_flatMap]
    simp only [filterMap_guardCalls, List.flatMap_eq_nil_iff, implies_true]
  rw [stageCalls, List.filterMap_append, tests, List.nil_append, List.filterMap_cons,
    List.filterMap_flatMap]
  rfl

theorem map_snd_reached_succ (k : Nat) (x : Fate V) :
    (reached (k + 1) x).map Prod.snd = x.inner.flatMap fun y => (reached k y).map Prod.snd := by
  have one : ∀ p : Fate V × Nat,
      ((reached k p.1).map fun q => (p.2 :: q.1, q.2)).map Prod.snd =
        (reached k p.1).map Prod.snd := by
    intro p
    rw [List.map_map]
    rfl
  rw [reached, List.map_flatMap]
  simp only [one]
  rw [← List.flatMap_map Prod.fst fun y => (reached k y).map Prod.snd, List.zipIdx_map_fst]

theorem reached_dropped (k : Nat) (scope : Scope V) (guard : Nat) :
    reached k (.dropped scope guard) = [] := by
  cases k <;> rfl

/-- The expression that is called for `k` surviving items: the source at depth `d + k`, or
past the last stage the final expression. -/
def calledAt (stages d k : Nat) : Place := if k < stages then .source (d + k) else .final

theorem calledAt_succ (stages d k : Nat) :
    calledAt (stages + 1) d (k + 1) = calledAt stages (d + 1) k := by
  simp only [calledAt, Nat.add_lt_add_iff_right, Nat.add_assoc, Nat.add_comm 1 k]

variable [Splittable V] {form : ListForm ε V}

/-- An item below a surviving one is dropped by a guard, or survives. -/
theorem dropped_or_fits {st : Stage m ε V} {rest : List (Stage m ε V)} {x : Fate V}
    (fits : Fits form (st :: rest) x) :
    ∀ y ∈ x.inner, (∃ scope guard, y = .dropped scope guard) ∨ Fits form rest y := by
  obtain ⟨outer, given, inner, items, rfl, -, fates⟩ := fits
  refine forall_mem_of_forall₂ fates fun item y fate => ?_
  rcases fate.2 with ⟨guard, -, dropped⟩ | fits
  · exact .inl ⟨_, guard, dropped⟩
  · exact .inr fits

/-- **Closures are called for the choices of surviving items**, in their order. -/
theorem filterMap_callsFor {stages : List (Stage m ε V)} {x : Fate V} (fits : Fits form stages x)
    {k : Nat} (le : k ≤ stages.length) (d : Nat) :
    (callsFor (stages.map Stage.guards) d x).filterMap
        (Happening.call? (calledAt stages.length d k)) =
      (reached k x).map Prod.snd := by
  induction stages generalizing x k d with
  | nil =>
    obtain ⟨scope, v, rfl⟩ := fits
    obtain rfl := Nat.le_zero.mp le
    rfl
  | cons st rest ih =>
    have below := dropped_or_fits fits
    obtain ⟨outer, given, inner, -, rfl, -, -⟩ := fits
    rw [List.map_cons, callsFor, List.filterMap_cons, filterMap_stageCalls]
    cases k with
    | zero =>
      have inside : (inner.flatMap fun y => (callsFor (rest.map Stage.guards) (d + 1) y).filterMap
          (Happening.call? (.source d))) = [] := by
        rw [List.flatMap_eq_nil_iff]
        intro y _
        rw [List.filterMap_eq_nil_iff]
        intro h mem
        cases called : h.call? (.source d) with
        | none => rfl
        | some call =>
          have le := le_depth_of_mem_callsFor mem (Happening.depth?_of_call? called)
          exact absurd le (Nat.not_succ_le_self d)
      have place : calledAt (st :: rest).length d 0 = .source d := rfl
      rw [place, inside]
      simp [Happening.call?, reached, Fate.call?]
    | succ k =>
      have place : calledAt (st :: rest).length d (k + 1) = calledAt rest.length (d + 1) k :=
        calledAt_succ rest.length d k
      have other : (Happening.value (.source d) outer given).call?
          (calledAt rest.length (d + 1) k) = none := by
        refine if_neg ?_
        rw [calledAt]
        split
        · intro same
          injection same with same
          omega
        · nofun
      rw [place, other, map_snd_reached_succ]
      refine List.flatMap_congr fun y mem => ?_
      rcases below y mem with ⟨scope, guard, rfl⟩ | fits
      · rw [callsFor_dropped, reached_dropped]
        rfl
      · exact ih fits (Nat.le_of_succ_le_succ le) (d + 1)

/-! #### The handler -/

omit [Splittable V] in
theorem countP_guardCalls (e d : Nat) (fates : List (Fate V)) (j : Nat) :
    (guardCalls d fates j).countP (Happening.dispatchesAt e) = if d = e then 1 else 0 := by
  have tests : ((fates.filter fun x => x.survives j).map fun x =>
      Happening.test (.guard d j) x.scope (x.survives (j + 1))).countP
        (Happening.dispatchesAt e) = 0 := by
    rw [List.countP_map]
    exact List.countP_eq_zero.mpr fun _ _ => nofun
  have own : (Happening.dispatch (V := V) (.guarded d j) .filter).dispatchesAt e =
    decide (d = e) := rfl
  rw [guardCalls, List.countP_cons, tests, Nat.zero_add, own]
  simp only [decide_eq_true_eq]

omit [Splittable V] in
/-- A stage calls the handler once for each guard and once more. -/
theorem countP_stageCalls (e : Nat) (body : Fate V → List (Happening V)) (last : Bool)
    (d j guards : Nat) (fates : List (Fate V)) :
    (stageCalls body last d j guards fates).countP (Happening.dispatchesAt e) =
      (if d = e then guards + 1 else 0) +
        (fates.flatMap body).countP (Happening.dispatchesAt e) := by
  have tests : ((List.range' j guards).flatMap (guardCalls d fates)).countP
      (Happening.dispatchesAt e) = if d = e then guards else 0 := by
    induction guards generalizing j with
    | zero => simp
    | succ guards ih =>
      rw [List.range'_succ, List.flatMap_cons, List.countP_append, countP_guardCalls, ih]
      split <;> omega
  have own (capability : Capability) :
      (Happening.dispatch (V := V) (.generator d) capability).dispatchesAt e = decide (d = e) := rfl
  rw [stageCalls, List.countP_append, tests, List.countP_cons, own]
  simp only [decide_eq_true_eq]
  split <;> omega

theorem countP_flatMap_eq_mul {α β γ : Type} {l : List α} {f : α → List β} {g : α → List γ}
    {p : β → Bool} {c : Nat} (each : ∀ a ∈ l, (f a).countP p = c * (g a).length) :
    (l.flatMap f).countP p = c * (l.flatMap g).length := by
  induction l with
  | nil => rfl
  | cons a rest ih =>
    obtain ⟨head, tail⟩ := List.forall_mem_cons.mp each
    rw [List.flatMap_cons, List.flatMap_cons, List.countP_append, List.length_append, head,
      ih tail, Nat.mul_add]

/-- **For each entry into a stage the handler is called once for each guard and once more.** -/
theorem countP_callsFor {stages : List (Stage m ε V)} {x : Fate V} (fits : Fits form stages x)
    {k : Nat} {st : Stage m ε V} (found : stages[k]? = some st) (d : Nat) :
    (callsFor (stages.map Stage.guards) d x).countP (Happening.dispatchesAt (d + k)) =
      (st.guards + 1) * (reached k x).length := by
  induction stages generalizing x k d with
  | nil => cases found
  | cons first rest ih =>
    have below := dropped_or_fits fits
    obtain ⟨outer, given, inner, -, rfl, -, -⟩ := fits
    have source : ¬ (Happening.value (.source d) outer given).dispatchesAt (d + k) = true := nofun
    rw [List.map_cons, callsFor, List.countP_cons_of_neg source, countP_stageCalls]
    cases k with
    | zero =>
      have inside : (inner.flatMap (callsFor (rest.map Stage.guards) (d + 1))).countP
          (Happening.dispatchesAt d) = 0 := by
        rw [List.countP_eq_zero]
        intro h mem dispatches
        obtain ⟨y, -, mem⟩ := List.mem_flatMap.mp mem
        have le := le_depth_of_mem_callsFor mem (Happening.depth?_of_dispatchesAt dispatches)
        exact Nat.not_succ_le_self d le
      cases found
      rw [Nat.add_zero, inside, if_pos rfl]
      exact (Nat.mul_one _).symm
    | succ k =>
      have calls : (reached (k + 1) (Fate.entered outer given inner)).length =
          (inner.flatMap fun y => (reached k y).map Prod.snd).length := by
        rw [← List.length_map Prod.snd, map_snd_reached_succ]
        rfl
      rw [if_neg (by omega), Nat.zero_add, calls, ← Nat.add_assoc, Nat.add_right_comm]
      refine countP_flatMap_eq_mul fun y mem => ?_
      rw [List.length_map]
      rcases below y mem with ⟨scope, guard, rfl⟩ | fits
      · rw [callsFor_dropped, reached_dropped]
        rfl
      · exact ih fits found (d + 1)

end Comprehension
