/-
The trail that a failing run leaves in the record.

An error leaves a run through all the calls that are in progress. With traced calls each
of them reports it, so the record ends with one failure event for each of them, from the
call in which the error arose out to the call of the first generator.

* `Chain.Reaches`, `Chain.Arises`: the points that a run comes to, and the errors that
  arise there.
* `Origin.trail`: the failure events for an error, by where it arose.
* `keepsTrail_call`: what one traced call adds to the trail.
* `evaluate_leaves_trail`: the record after a run.
-/

import Comprehension.Proofs.Provenance
import Comprehension.Proofs.Scripts

namespace Comprehension

variable {A σ ε V α : Type}

/-! ### Where errors arise -/

/-- A point of a run: about to evaluate the source of a stage in the scope around it, with
a value in hand after so many filters, or in the call of the node after so many filters,
about to call the continuation on an element. -/
inductive Point (m : Type → Type) (ε V : Type) where
  | source (st : Stage m ε V) (outer : Scope V)
  | hand (st : Stage m ε V) (outer : Scope V) (index : Nat) (v : V)
  | element (st : Stage m ε V) (outer : Scope V) (index : Nat) (element : V)

section Reaches

variable [OfFault ε] [Splittable V] [Capable (Acting A σ) ε V]

/-- The continuation of a node of an entered stage, in a run with traced calls. -/
def Stage.continuation (st : Stage (Acting A σ) ε V) (outer : Scope V)
    (node : Node (Acting A σ) ε V) : Continuation (Acting A σ) ε V :=
  node.continuation (.traced .direct) st.toFrame (st.capture outer)

/-- The world in which the call of a node starts. -/
def World.calling (w : World A σ) (st : Stage (Acting A σ) ε V) (node : Node (Acting A σ) ε V)
    (ops : Operations (Acting A σ) ε V) : World A σ :=
  w.note [.dispatching (node.site st.depth) node.kind (ops.offers node.kind)]

/-- The points that a run with traced calls comes to from the world `start`, each with the
world there. -/
inductive Chain.Reaches (c : Chain (Acting A σ) ε V) (start : World A σ) :
    Point (Acting A σ) ε V → World A σ → Prop where
  | root : Reaches c start (.source c.root c.entry) start
  | hand {st : Stage (Acting A σ) ε V} {outer : Scope V} {w after : World A σ} {v : V} :
      Reaches c start (.source st outer) w →
      outcome (st.source.eval outer) w = (.ok v, after) →
      Reaches c start (.hand st outer 0 v) after
  | kept {st : Stage (Acting A σ) ε V} {outer : Scope V} {i guard : Nat} {v answer : V}
      {predicate : Expression (Acting A σ) ε V Bool} {node : Node (Acting A σ) ε V}
      {ops : Operations (Acting A σ) ε V} {w after : World A σ} :
      Reaches c start (.hand st outer i v) w →
      st.node.layers[i]? = some (.filter guard predicate node) →
      Capable.operations v = some ops →
      outcome (Handler.traced .direct (.guarded st.depth guard) .filter ops
        (st.continuation outer (.filter guard predicate node))) w = (.ok answer, after) →
      Reaches c start (.hand st outer (i + 1) answer) after
  | element {st : Stage (Acting A σ) ε V} {outer : Scope V} {i : Nat} {v element : V}
      {node : Node (Acting A σ) ε V} {ops : Operations (Acting A σ) ε V} {w there : World A σ} :
      Reaches c start (.hand st outer i v) w → st.node.layers[i]? = some node →
      Capable.operations v = some ops →
      ops.Calls node.kind (st.continuation outer node) (w.calling st node ops) element there →
      Reaches c start (.element st outer i element) there
  | inner {st : Stage (Acting A σ) ε V} {outer scope : Scope V} {i : Nat} {element : V}
      {next : Frame (Acting A σ) ε V} {node : Node (Acting A σ) ε V} {w : World A σ} :
      Reaches c start (.element st outer i element) w →
      st.node.layers[i]? = some (.flatMap next node) →
      st.enter (st.capture outer) element = .ok scope →
      Reaches c start (.source { next with node } scope) w

/-- Where an error arises: in a source, in resolving the operations of a value, in matching
an element, in a guard, in the final expression, or in an operation itself. -/
inductive Origin where
  | source (depth : Nat)
  | resolving (depth : Nat)
  | matching (site : Site) (capability : Capability)
  | guard (depth index : Nat)
  | final (depth : Nat)
  | operation (site : Site) (capability : Capability)

namespace Origin

/-- The number of the generator. -/
def stage : Origin → Nat
  | source depth => depth
  | resolving depth => depth
  | matching site _ => site.depth
  | guard depth _ => depth
  | final depth => depth
  | operation site _ => site.depth

/-- The failure event of the call that is in progress at that generator, if there is
one. -/
def here : Origin → List Event
  | source _ => []
  | resolving _ => []
  | matching site capability => [.failed site capability]
  | guard depth index => [.failed (.guarded depth index) .filter]
  | final depth => [.failed (.generator depth) .map]
  | operation site capability => [.failed site capability]

/-- The failure events from there out to generator `depth`. -/
def trailTo (depth : Nat) (o : Origin) : List Event :=
  o.here ++ ((List.range' depth (o.stage - depth)).reverse.map fun i =>
    .failed (.generator i) .flatMap)

/-- **The trail of an error**: the call in progress where it arose, if there is one, and
then the `flatMap` of each generator around it, from the inside out. -/
def trail (o : Origin) : List Event :=
  o.here ++ ((List.range o.stage).reverse.map fun i => .failed (.generator i) .flatMap)

theorem trailTo_zero (o : Origin) : o.trailTo 0 = o.trail := by
  rw [trailTo, trail, List.range_eq_range', Nat.sub_zero]

theorem trailTo_stage (o : Origin) : o.trailTo o.stage = o.here := by
  simp [trailTo]

theorem trailTo_succ {o : Origin} {depth : Nat} (inside : depth + 1 ≤ o.stage) :
    o.trailTo (depth + 1) ++ [.failed (.generator depth) .flatMap] = o.trailTo depth := by
  have count : o.stage - depth = o.stage - (depth + 1) + 1 := by omega
  rw [trailTo, trailTo, count, List.range'_succ]
  simp

end Origin

/-- In a run from the world `start` an error arises, and leaves a world. -/
inductive Chain.Arises (c : Chain (Acting A σ) ε V) (start : World A σ) :
    Origin → ε → World A σ → Prop where
  | source {st : Stage (Acting A σ) ε V} {outer : Scope V} {w after : World A σ} {e : ε} :
      c.Reaches start (.source st outer) w →
      outcome (st.source.eval outer) w = (.error e, after) →
      Arises c start (.source st.depth) e after
  | resolving {st : Stage (Acting A σ) ε V} {outer : Scope V} {i : Nat} {v : V}
      {w : World A σ} :
      c.Reaches start (.hand st outer i v) w →
      (Capable.operations v : Option (Operations (Acting A σ) ε V)) = none →
      Arises c start (.resolving st.depth) (OfFault.ofFault (.unsupportedValue st.depth)) w
  | matching {st : Stage (Acting A σ) ε V} {outer : Scope V} {i : Nat} {element : V}
      {node : Node (Acting A σ) ε V} {fault : Fault} {w : World A σ} :
      c.Reaches start (.element st outer i element) w → st.node.layers[i]? = some node →
      st.enter (st.capture outer) element = .error fault →
      Arises c start (.matching (node.site st.depth) node.kind) (OfFault.ofFault fault) w
  | guard {st : Stage (Acting A σ) ε V} {outer scope : Scope V} {i guard : Nat} {element : V}
      {predicate : Expression (Acting A σ) ε V Bool} {node : Node (Acting A σ) ε V}
      {w after : World A σ} {e : ε} :
      c.Reaches start (.element st outer i element) w →
      st.node.layers[i]? = some (.filter guard predicate node) →
      st.enter (st.capture outer) element = .ok scope →
      outcome (predicate.eval scope) w = (.error e, after) →
      Arises c start (.guard st.depth guard) e after
  | final {st : Stage (Acting A σ) ε V} {outer scope : Scope V} {i : Nat} {element : V}
      {body : Expression (Acting A σ) ε V V} {w after : World A σ} {e : ε} :
      c.Reaches start (.element st outer i element) w →
      st.node.layers[i]? = some (.map body) →
      st.enter (st.capture outer) element = .ok scope →
      outcome (body.eval scope) w = (.error e, after) →
      Arises c start (.final st.depth) e after
  | operation {st : Stage (Acting A σ) ε V} {outer : Scope V} {i : Nat} {v : V}
      {node : Node (Acting A σ) ε V} {ops : Operations (Acting A σ) ε V} {w after : World A σ}
      {e : ε} :
      c.Reaches start (.hand st outer i v) w → st.node.layers[i]? = some node →
      Capable.operations v = some ops →
      ops.Breaks (node.site st.depth) node.kind (st.continuation outer node)
        (w.calling st node ops) e after →
      Arises c start (.operation (node.site st.depth) node.kind) e after

/-! ### The trail of one call -/

/-- The error arose since the world `w`, at generator `depth` or further in, and the
record ends with its trail out to there. -/
def Chain.Trails (c : Chain (Acting A σ) ε V) (start : World A σ) (depth : Nat) (w : World A σ)
    (e : ε) (after : World A σ) : Prop :=
  ∃ origin arose, c.Arises start origin e arose ∧ depth ≤ origin.stage ∧ w.Clean arose ∧
    after = arose.note (origin.trailTo depth)

/-- The same inside a call: what is missing to the trail is the failure event of the call. -/
def Chain.TrailsInside (c : Chain (Acting A σ) ε V) (start : World A σ) (site : Site)
    (capability : Capability) (w : World A σ) (e : ε) (after : World A σ) : Prop :=
  ∃ origin arose trail, c.Arises start origin e arose ∧ site.depth ≤ origin.stage ∧
    w.Clean arose ∧ after = arose.note trail ∧
    trail ++ [.failed site capability] = origin.trailTo site.depth

/-- From the world `w` the computation reports no failure if it gives a value, and else
leaves the trail of its error out to generator `depth`. -/
def Chain.KeepsTrail (c : Chain (Acting A σ) ε V) (start : World A σ) (depth : Nat)
    (x : ExceptT ε (Acting A σ) α) (w : World A σ) : Prop :=
  Ends x w (fun _ => w.Clean) (c.Trails start depth w)

/-- The same of the continuation of a node, wherever the call of the node calls it. -/
def Chain.ContinuesTrail (c : Chain (Acting A σ) ε V) (start : World A σ)
    (st : Stage (Acting A σ) ε V) (outer : Scope V) (i : Nat) (node : Node (Acting A σ) ε V) :
    Prop :=
  ∀ element w, c.Reaches start (.element st outer i element) w →
    (st.continuation outer node).EndsOn element w w.Clean
      (c.TrailsInside start (node.site st.depth) node.kind w)

variable {c : Chain (Acting A σ) ε V} {start w between after : World A σ} {e : ε} {origin : Origin}
  {depth : Nat} {site : Site} {capability : Capability}

/-- What happens before an error arises may be counted in, if no failure is reported. -/
theorem Chain.KeepsTrail.since {x : ExceptT ε (Acting A σ) α}
    (keeps : c.KeepsTrail start depth x between) (clean : w.Clean between) :
    Ends x between (fun _ => w.Clean) (c.Trails start depth w) := by
  apply Ends.mono keeps
  · intro _ after since
    exact clean.trans since
  · rintro e after ⟨origin, arose, arises, inside, since, same⟩
    exact ⟨origin, arose, arises, inside, clean.trans since, same⟩

theorem Chain.TrailsInside.since (trails : c.TrailsInside start site capability between e after)
    (clean : w.Clean between) : c.TrailsInside start site capability w e after := by
  obtain ⟨origin, arose, trail, arises, inside, since, same, whole⟩ := trails
  exact ⟨origin, arose, trail, arises, inside, clean.trans since, same, whole⟩

/-- The call itself completes the trail. -/
theorem Chain.TrailsInside.trails (trails : c.TrailsInside start site capability w e after)
    (here : site.depth = depth) :
    c.Trails start depth w e (after.note [.failed site capability]) := by
  obtain ⟨origin, arose, trail, arises, inside, since, rfl, whole⟩ := trails
  rw [here] at inside whole
  refine ⟨origin, arose, arises, inside, since, ?_⟩
  rw [World.note_note, whole]

/-- An error that arises outside of any call of the stage leaves no event there. -/
theorem Chain.Arises.trails (arises : c.Arises start origin e after)
    (stage : origin.stage = depth) (here : origin.here = []) (clean : w.Clean after) :
    c.Trails start depth w e after := by
  refine ⟨origin, after, arises, Nat.le_of_eq stage.symm, clean, ?_⟩
  rw [← stage, Origin.trailTo_stage, here, World.note_nil]

/-- An error that arises in a call of the stage starts the trail there. -/
theorem Chain.Arises.trailsInside (arises : c.Arises start origin e after)
    (stage : origin.stage = site.depth) (here : origin.here = [.failed site capability])
    (clean : w.Clean after) : c.TrailsInside start site capability w e after := by
  refine ⟨origin, after, [], arises, Nat.le_of_eq stage.symm, clean, after.note_nil.symm, ?_⟩
  rw [← stage, Origin.trailTo_stage, here]
  rfl

/-- An error of the next stage goes on through the `flatMap` around it. -/
theorem Chain.Trails.trailsInside (trails : c.Trails start (depth + 1) w e after) :
    c.TrailsInside start (.generator depth) .flatMap w e after := by
  obtain ⟨origin, arose, arises, inside, since, same⟩ := trails
  refine ⟨origin, arose, _, arises, Nat.le_of_succ_le inside, since, same, ?_⟩
  exact Origin.trailTo_succ inside

variable {st : Stage (Acting A σ) ε V} {outer : Scope V} {i : Nat} {node : Node (Acting A σ) ε V}
  {v : V} {ops : Operations (Acting A σ) ε V}

/-- **One traced call.** If it fails, then of itself or with an error of its continuation,
and it adds its own failure event to the trail of that. -/
theorem keepsTrail_call (prompt : ops.Prompt) (reached : c.Reaches start (.hand st outer i v) w)
    (layer : st.node.layers[i]? = some node) (offers : Capable.operations v = some ops)
    (inside : c.ContinuesTrail start st outer i node) :
    c.KeepsTrail start st.depth (Handler.traced .direct (node.site st.depth) node.kind ops
      (st.continuation outer node)) w := by
  have depth : (node.site st.depth).depth = st.depth := by cases node <;> rfl
  have started : w.Clean (w.calling st node ops) := w.clean_dispatching _ _ _
  have accepted := node.accepts_continuation (.traced .direct) st.toFrame (st.capture outer)
  apply ends_traced
  refine (ends_invoke prompt accepted _ fun element there calls =>
    inside element there (.element reached layer offers calls)).mono ?_ ?_
  · exact fun _ _ clean => started.trans clean
  · rintro e after (⟨breaks, clean⟩ | ⟨there, clean, broken⟩)
    · have arises := Chain.Arises.operation reached layer offers breaks
      exact (arises.trailsInside rfl rfl (started.trans clean)).trails depth
    · exact (broken.since (started.trans clean)).trails depth

/-- One node: the value in hand is resolved, the call is made, and what follows takes the
answer. -/
theorem keepsTrail_node
    (prompt : ∀ v (ops : Operations (Acting A σ) ε V), Capable.operations v = some ops → ops.Prompt)
    (reached : c.Reaches start (.hand st outer i v) w) (layer : st.node.layers[i]? = some node)
    (inside : c.ContinuesTrail start st outer i node)
    (follows : ∀ ops answer after, Capable.operations v = some ops →
      outcome (Handler.traced .direct (node.site st.depth) node.kind ops
        (st.continuation outer node)) w = (.ok answer, after) →
      c.KeepsTrail start st.depth
        (node.proceed (.traced .direct) st.toFrame (st.capture outer) answer) after) :
    c.KeepsTrail start st.depth
      (node.run (.traced .direct) st.toFrame (st.capture outer) v) w := by
  rw [Node.run_eq_call]
  apply ends_bind
  apply ends_lift
  · intro ops resolved
    have offers := Operations.resolve_eq_ok_iff.mp resolved
    have call := keepsTrail_call (prompt v ops offers) reached layer offers inside
    apply ends_bind
    apply ends_of_outcome
    · intro answer after ended
      exact (follows ops answer after offers ended).since (Ends.ok call ended)
    · intro e after ended
      exact Ends.error call ended
  · intro fault unresolved
    obtain ⟨none, rfl⟩ := Operations.resolve_eq_error_iff.mp unresolved
    exact (Chain.Arises.resolving reached none).trails rfl rfl (.refl w)

/-- One element: it is matched, and what follows takes its scope. -/
theorem ends_enter {element : V}
    (reached : c.Reaches start (.element st outer i element) w)
    (layer : st.node.layers[i]? = some node) {k : Scope V → ExceptT ε (Acting A σ) α}
    (follows : ∀ scope, st.enter (st.capture outer) element = .ok scope →
      Ends (k scope) w (fun _ => w.Clean)
        (c.TrailsInside start (node.site st.depth) node.kind w)) :
    Ends (Fault.lift (st.enter (st.capture outer) element) >>= k) w (fun _ => w.Clean)
      (c.TrailsInside start (node.site st.depth) node.kind w) := by
  apply ends_bind
  apply ends_lift
  · exact follows
  · intro fault failed
    exact (Chain.Arises.matching reached layer failed).trailsInside rfl rfl (.refl w)

/-- One stage: its source gives the first value in hand. -/
theorem keepsTrail_stage (quiet : st.source.Quiet)
    (reached : c.Reaches start (.source st outer) w)
    (nodes : ∀ v between, c.Reaches start (.hand st outer 0 v) between →
      c.KeepsTrail start st.depth
        (st.node.run (.traced .direct) st.toFrame (st.capture outer) v) between) :
    c.KeepsTrail start st.depth (st.run (.traced .direct) outer) w := by
  apply ends_bind
  apply ends_of_outcome
  · intro v between ended
    exact (nodes v between (.hand reached ended)).since ((quiet _).clean ended)
  · intro e after ended
    exact (Chain.Arises.source reached ended).trails rfl rfl ((quiet _).clean ended)

/-! ### Whole runs -/

/-- The nodes of an entered stage leave the trail of an error out to the stage. -/
theorem keepsTrail_of_entered {s : Sequence (Acting A σ) ε V}
    {final : Expression (Acting A σ) ε V V} (compiled : s.compile final = .ok c)
    (prompt : ∀ v (ops : Operations (Acting A σ) ε V), Capable.operations v = some ops → ops.Prompt)
    (closures : ∀ clause ∈ s.clauses, clause.Quiet) (closing : final.Quiet)
    (entered : c.Entered st outer) (reached : c.Reaches start (.hand st outer 0 v) w) :
    c.KeepsTrail start st.depth
      (st.node.run (.traced .direct) st.toFrame (st.capture outer) v) w := by
  -- that the point was reached goes along, since an error has to be traced to where it arose
  refine entered.layers_induction (motive := fun st outer i node => ∀ v w,
    c.Reaches start (.hand st outer i v) w → c.KeepsTrail start st.depth
      (node.run (.traced .direct) st.toFrame (st.capture outer) v) w) ?_ ?_ ?_ v w reached
  · intro st outer i body entered layer v w reached
    apply keepsTrail_node prompt reached layer
    · intro element between reached
      refine ends_enter reached layer fun scope entry => ?_
      cases eq_final_of_layer compiled entered layer
      apply ends_of_outcome
      · intro answer after ended
        exact (closing _).clean ended
      · intro e after ended
        have arises := Chain.Arises.final reached layer entry ended
        exact arises.trailsInside rfl rfl ((closing _).clean ended)
    · intro ops answer after _ _
      exact World.Clean.refl after
  · intro st outer i next node entered layer inside v w reached
    have terminal := Node.terminal_of_mem_layers rfl (List.mem_of_getElem? layer)
    have depth : next.depth = st.depth + 1 := depth_next_of_entered compiled entered terminal
    apply keepsTrail_node prompt reached layer
    · intro element between reached
      refine ends_enter reached layer fun scope entry => ?_
      obtain ⟨entered', ih⟩ := inside element scope entry
      have quiet : next.source.Quiet := closures _ (source_mem_clauses compiled entered')
      -- the trail of the stage inside ends one generator further in than the call
      have keeps := keepsTrail_stage quiet (.inner reached layer entry) ih
      rw [depth] at keeps
      exact Ends.mono keeps (fun _ _ clean => clean) fun _ _ trails => trails.trailsInside
    · intro ops answer after _ _
      exact World.Clean.refl after
  · intro st outer i guard predicate node entered layer ih v w reached
    apply keepsTrail_node prompt reached layer
    · intro element between reached
      refine ends_enter reached layer fun scope entry => ?_
      have quiet : predicate.Quiet := closures _ (guard_mem_clauses compiled entered layer)
      apply ends_of_outcome
      · intro answer after ended
        exact (quiet _).clean ended
      · intro e after ended
        have arises := Chain.Arises.guard reached layer entry ended
        exact arises.trailsInside rfl rfl ((quiet _).clean ended)
    · intro ops answer after offers ended
      exact ih answer after (.kept reached layer offers ended)

end Reaches

/-- **The trail of a failing run.** Take a comprehension that compiles, operations that call
their continuation only while they run and give back at once the first error it gives them,
and closures that put no failure events down. Evaluate the chain with traced calls.

If that succeeds, no failure event was put down. If it fails, the error is one that arose
in the run: in the source of a stage, in resolving its value, in matching an element, in a
guard, in the final expression or in an operation itself. Up to there no failure event was
put down. The world is the one that the error has left, but for the trail of the error at
the end of the record: the failure event of the call that was in progress at that stage, if
there was one, and then one of `flatMap` for each generator around it, from the inside out.
So no closure was called after the error, and the error came out as it arose. -/
theorem evaluate_leaves_trail [OfFault ε] [Splittable V] [Capable (Acting A σ) ε V]
    {s : Sequence (Acting A σ) ε V} {final : Expression (Acting A σ) ε V V}
    {chain : Chain (Acting A σ) ε V} (compiled : s.compile final = .ok chain)
    (prompt : ∀ v (ops : Operations (Acting A σ) ε V), Capable.operations v = some ops → ops.Prompt)
    (closures : ∀ clause ∈ s.clauses, clause.Quiet) (closing : final.Quiet) (w : World A σ) :
    match outcome (chain.evaluate (.traced .direct)) w with
    | (.ok _, after) => w.Clean after
    | (.error e, after) => ∃ origin arose, chain.Arises w origin e arose ∧ w.Clean arose ∧
        after = arose.note origin.trail := by
  have quiet : chain.root.source.Quiet := closures _ (source_mem_clauses compiled .root)
  have first : chain.root.depth = 0 := by
    rw [root_of_compile compiled, Sequence.depth_stage]
  have keeps := keepsTrail_stage quiet (.root : chain.Reaches w _ w) fun v between =>
    keepsTrail_of_entered compiled prompt closures closing .root
  rw [first] at keeps
  apply Ends.mono keeps
  · exact fun _ _ clean => clean
  · rintro e after ⟨origin, arose, arises, -, clean, rfl⟩
    exact ⟨origin, arose, arises, clean, by rw [Origin.trailTo_zero]⟩

namespace Sample

/-- Numbers, optional values and lists. -/
inductive Box where
  | number (n : Nat)
  | just (box : Box)
  | nothing
  | list (boxes : List Box)

instance : Splittable Box where

def optionalBoxes : OptionalForm Box where
  present := .just
  absent := .nothing

def listedBoxes : ListForm (CallerError String) Box where
  pack := .list
  unpack?
    | .list boxes => some boxes
    | _ => none
  refuse _ := .domain "no list"

instance {A σ : Type} : Capable (Acting A σ) (CallerError String) Box where
  operations
    | .number _ => none
    | .just box => some (optionalBoxes.operations (some box))
    | .nothing => some (optionalBoxes.operations none)
    | .list boxes => some (listedBoxes.operations boxes)

theorem prompt_boxes {A σ : Type} (box : Box)
    (ops : Operations (Acting A σ) (CallerError String) Box)
    (offers : Capable.operations box = some ops) : ops.Prompt := by
  cases box with
  | number n => cases offers
  | just box =>
    cases offers
    exact OptionalForm.prompt_operations _ _
  | nothing =>
    cases offers
    exact OptionalForm.prompt_operations _ _
  | list boxes =>
    cases offers
    exact ListForm.prompt_operations _ _

/-- Holds of every number, after noting it in the record, and fails on anything else. -/
def numeric : Expression (Acting Nat Unit) (CallerError String) Box Bool where
  reads := [⟨"y"⟩]
  label := none
  eval scope := do
    let y ← Fault.lift (scope.lookup ⟨"y"⟩)
    match y with
    | .number n => do
        ExceptT.lift (write (.effect n))
        pure true
    | _ => throw (.domain "no number")

theorem quiet_numeric : numeric.Quiet := by
  intro scope w
  apply ends_bind
  apply ends_lift
  · intro y _
    cases y with
    | number n => exact ⟨[.effect n], rfl, by simp [Entry.isFailure]⟩
    | just box => exact .refl w
    | nothing => exact .refl w
    | list boxes => exact .refl w
  · intro fault _
    exact .refl w

/-- The sequence of `x <- a, y <- ys, numeric y`, where one of the `ys` is no number. -/
def mixed : Sequence (Acting Nat Unit) (CallerError String) Box where
  first := ⟨.name ⟨"x"⟩, .ofName ⟨"a"⟩, []⟩
  rest := [⟨.name ⟨"y"⟩, .ofName ⟨"ys"⟩, [numeric]⟩]
  environment := .ofList
    [(⟨"a"⟩, .just (.number 1)), (⟨"ys"⟩, .list [.number 5, .nothing, .number 7])]
  distinct := by decide

theorem quiet_mixed : ∀ clause ∈ mixed.clauses, clause.Quiet := by
  rw [show mixed.clauses = [.generator (.name ⟨"x"⟩) (.ofName ⟨"a"⟩),
    .generator (.name ⟨"y"⟩) (.ofName ⟨"ys"⟩), .guard numeric] from rfl]
  simp only [List.forall_mem_cons, Clause.Quiet]
  exact ⟨Expression.quiet_ofName _, Expression.quiet_ofName _, quiet_numeric,
    List.forall_mem_nil _⟩

end Sample

/-- The guard fails on the second element: its filter reports that, then the `flatMap`
around it, and the third element is not tested. -/
theorem sample_leaves_trail :
    ∃ chain, Sample.mixed.compile (.ofName ⟨"y"⟩) = .ok chain ∧
      ∃ origin arose, chain.Arises ⟨[], ()⟩ origin (.domain "no number") arose ∧
        World.Clean ⟨[], ()⟩ arose ∧
        outcome (chain.evaluate (.traced .direct)) ⟨[], ()⟩ =
          (.error (.domain "no number"), arose.note origin.trail) ∧
        arose.note origin.trail =
          ⟨[.event (.dispatching (.generator 0) .flatMap true),
            .event (.dispatching (.guarded 1 0) .filter true),
            .effect 5,
            .event (.failed (.guarded 1 0) .filter),
            .event (.failed (.generator 0) .flatMap)], ()⟩ := by
  have compiled : Sample.mixed.compile (.ofName ⟨"y"⟩) = .ok _ := rfl
  obtain ⟨origin, arose, arises, clean, after⟩ := evaluate_leaves_trail compiled
    Sample.prompt_boxes Sample.quiet_mixed (Expression.quiet_ofName _) ⟨[], ()⟩
  exact ⟨_, compiled, origin, arose, arises, clean, after ▸ rfl, after.symm⟩

end Comprehension
