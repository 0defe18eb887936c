/-
The calls that a run makes.

Each node of a stage makes one call: it resolves the operations of the value in hand and
gives the handler its site, its capability, those operations and a continuation. Which
calls there can be follows from the sequence that was compiled, whatever the handler and
the operations do with the continuations.

* `Node.run_eq_call`: a node as its one call and what it does with the answer.
* `Chain.Entered.layers_induction`: what holds of every node of every entered stage, by
  the nodes after it and the stages inside it.
* `layer_of_entered`: which node an entered stage of a compiled chain has after how many
  filters.
* `Chain.InHand`: the values that the calls are about.
* `evaluate_eq_of_agree_on_calls`: handlers that agree on the calls of a chain run it
  alike.
-/

import Comprehension.Proofs.Delivery

namespace Comprehension

variable {m : Type → Type} {ε V : Type}

/-! ### The call of a node -/

namespace Node

/-- Where a node of a stage at `depth` makes its call. -/
def site (depth : Nat) : Node m ε V → Site
  | .map _ => .generator depth
  | .flatMap _ _ => .generator depth
  | .filter guard _ _ => .guarded depth guard

section Call

variable [Monad m] [OfFault ε] [Splittable V] [Capable m ε V] (handler : Handler m ε V)
  (f : Frame m ε V) (captured : Scope V)

/-- The continuation that a node of the stage `f` gives to the handler. -/
def continuation : Node m ε V → Continuation m ε V
  | .map body => .body fun element => do
      let scope ← Fault.lift (f.enter captured element)
      body.eval scope
  | .flatMap next node => .body fun element => do
      let scope ← Fault.lift (f.enter captured element)
      Stage.run handler { next with node } scope
  | .filter _ predicate _ => .predicate fun element => do
      let scope ← Fault.lift (f.enter captured element)
      predicate.eval scope

/-- What a node does with the answer to its call: a filter goes on with the next node. -/
def proceed : Node m ε V → V → ExceptT ε m V
  | .map _, answer => pure answer
  | .flatMap _ _, answer => pure answer
  | .filter _ _ node, answer => node.run handler f captured answer

/-- **A node makes one call.** -/
theorem run_eq_call [LawfulMonad m] (node : Node m ε V) (v : V) :
    node.run handler f captured v = (do
      let ops ← Fault.lift (Operations.resolve f.depth v)
      let answer ← handler (node.site f.depth) node.kind ops
        (node.continuation handler f captured)
      node.proceed handler f captured answer) := by
  cases node with
  | map body =>
    simp only [proceed, bind_pure]
    rfl
  | flatMap next node =>
    simp only [proceed, bind_pure]
    rfl
  | filter guard predicate node => rfl

/-- A node gives a continuation of the kind that its operation takes. -/
theorem accepts_continuation (node : Node m ε V) :
    (node.continuation handler f captured).accepts node.kind = true := by
  cases node <;> rfl

end Call

/-! ### Layers -/

/-- A stage ends in the one node that no other follows. -/
theorem terminal_of_mem_layers {node last : Node m ε V} (single : last.layers = [last])
    (mem : last ∈ node.layers) : node.terminal = last := by
  induction node with
  | map _ => exact (List.mem_singleton.mp mem).symm
  | flatMap _ _ => exact (List.mem_singleton.mp mem).symm
  | filter guard predicate node ih =>
    rcases List.mem_cons.mp mem with rfl | inside
    · have none : node.layers = [] := (List.cons.inj single).2
      cases node <;> cases none
    · exact ih inside

theorem mem_filters_of_mem_layers {node rest : Node m ε V} {guard : Nat}
    {predicate : Expression m ε V Bool} (mem : .filter guard predicate rest ∈ node.layers) :
    (predicate, guard) ∈ node.filters := by
  induction node with
  | map _ => cases List.mem_singleton.mp mem
  | flatMap _ _ => cases List.mem_singleton.mp mem
  | filter _ _ node ih =>
    rcases List.mem_cons.mp mem with same | inside
    · cases same
      exact List.mem_cons_self
    · exact List.mem_cons_of_mem _ (ih inside)

/-- Where the nodes from an index on are those of a node, that node stands at the index. -/
theorem getElem?_layers_of_drop {node rest : Node m ε V} {i : Nat}
    (here : node.layers.drop i = rest.layers) : node.layers[i]? = some rest := by
  have head : rest.layers[0]? = some rest := by
    cases rest <;> rfl
  rw [← here, List.getElem?_drop, Nat.add_zero] at head
  exact head

end Node

/-- **Induction over the nodes of a run.** A property of the nodes of entered stages, each
with the number of filters before it, holds of the first node of every entered stage, if
it holds of each `map`, of each `flatMap` whose stage inside has it wherever that stage is
entered, and of each filter whose next node has it. -/
theorem Chain.Entered.layers_induction [Splittable V] {c : Chain m ε V}
    {motive : Stage m ε V → Scope V → Nat → Node m ε V → Prop}
    (map : ∀ st outer i body, c.Entered st outer → st.node.layers[i]? = some (.map body) →
      motive st outer i (.map body))
    (flatMap : ∀ st outer i next node, c.Entered st outer →
      st.node.layers[i]? = some (.flatMap next node) →
      (∀ element scope, st.enter (st.capture outer) element = .ok scope →
        c.Entered { next with node } scope ∧ motive { next with node } scope 0 node) →
      motive st outer i (.flatMap next node))
    (filter : ∀ st outer i guard predicate node, c.Entered st outer →
      st.node.layers[i]? = some (.filter guard predicate node) → motive st outer (i + 1) node →
      motive st outer i (.filter guard predicate node))
    {st : Stage m ε V} {outer : Scope V} (entered : c.Entered st outer) :
    motive st outer 0 st.node := by
  -- the nodes from `i` on are those of the node at hand; a new stage starts again at `0`
  suffices all : ∀ (node : Node m ε V) (st : Stage m ε V) (outer : Scope V) (i : Nat),
      c.Entered st outer → st.node.layers.drop i = node.layers → motive st outer i node from
    all st.node st outer 0 entered rfl
  intro node
  induction node with
  | map body =>
    intro st outer i entered here
    exact map st outer i body entered (Node.getElem?_layers_of_drop here)
  | flatMap next node ih =>
    intro st outer i entered here
    have layer := Node.getElem?_layers_of_drop here
    refine flatMap st outer i next node entered layer fun element scope entry => ?_
    have terminal := Node.terminal_of_mem_layers rfl (List.mem_of_getElem? layer)
    have inner : c.Entered { next with node } scope := entered.next terminal entry
    exact ⟨inner, ih _ scope 0 inner rfl⟩
  | filter guard predicate node ih =>
    intro st outer i entered here
    have layer := Node.getElem?_layers_of_drop here
    refine filter st outer i guard predicate node entered layer (ih st outer (i + 1) entered ?_)
    rw [← List.drop_drop, here]
    rfl

/-! ### The nodes of a compiled chain -/

/-- A stage at `depth` has this node after `index` filters: the filter of the guard with
that number, or at the end a `map` over the final expression in the last stage and a
`flatMap` in every other. -/
inductive Sequence.Layer (s : Sequence m ε V) (final : Expression m ε V V) (depth : Nat)
    (g : Generator m ε V) : Nat → Node m ε V → Prop where
  | filter {index : Nat} {predicate : Expression m ε V Bool} {node : Node m ε V} :
      g.guards[index]? = some predicate → Layer s final depth g index (.filter index predicate node)
  | map : depth + 1 = s.generatorCount → Layer s final depth g g.guards.length (.map final)
  | flatMap {next : Frame m ε V} {node : Node m ε V} : depth + 1 < s.generatorCount →
      Layer s final depth g g.guards.length (.flatMap next node)

theorem getElem?_layers_guarded {last : Node m ε V} (single : last.layers = [last])
    {guards : List (Expression m ε V Bool)} {first i : Nat} {node : Node m ε V}
    (layer : (Sequence.guarded first guards last).layers[i]? = some node) :
    (∃ predicate rest, guards[i]? = some predicate ∧
      node = .filter (first + i) predicate rest) ∨ (i = guards.length ∧ node = last) := by
  induction guards generalizing first i with
  | nil =>
    rw [Sequence.guarded, single, List.getElem?_singleton] at layer
    split at layer
    · rename_i start
      exact .inr ⟨start, (Option.some.inj layer).symm⟩
    · cases layer
  | cons predicate guards ih =>
    rw [Sequence.guarded, Node.layers] at layer
    cases i with
    | zero =>
      cases layer
      exact .inl ⟨predicate, _, rfl, rfl⟩
    | succ i =>
      rw [List.getElem?_cons_succ] at layer
      rcases ih layer with ⟨p, rest, found, rfl⟩ | ⟨rfl, rfl⟩
      · refine .inl ⟨p, rest, found, ?_⟩
        rw [Nat.add_right_comm, Nat.add_assoc]
      · exact .inr ⟨rfl, rfl⟩

section Compiled

variable [Splittable V] {s : Sequence m ε V} {final : Expression m ε V V} {chain : Chain m ε V}

/-- An entered stage is that of the generator at its depth. -/
theorem generator_of_entered (compiled : s.compile final = .ok chain) {st : Stage m ε V}
    {outer : Scope V} (entered : chain.Entered st outer) :
    ∃ g, s.generators[st.depth]? = some g ∧ st.pattern = g.pattern ∧ st.source = g.source ∧
      st.node.filters = g.guards.zipIdx := by
  obtain ⟨before, g, rest, split, rfl, -⟩ := exists_position_of_entered compiled entered
  refine ⟨g, ?_, Sequence.pattern_stage .., Sequence.source_stage .., Sequence.filters_stage ..⟩
  rw [Sequence.depth_stage]
  exact getElem?_of_split split

/-- **Which node stands where** in an entered stage. -/
theorem layer_of_entered (compiled : s.compile final = .ok chain) {st : Stage m ε V}
    {outer : Scope V} (entered : chain.Entered st outer) {g : Generator m ε V}
    (here : s.generators[st.depth]? = some g) {i : Nat} {node : Node m ε V}
    (layer : st.node.layers[i]? = some node) : s.Layer final st.depth g i node := by
  obtain ⟨before, g', rest, split, rfl, -⟩ := exists_position_of_entered compiled entered
  rw [Sequence.depth_stage, getElem?_of_split split] at here
  cases here
  have count : s.generatorCount = before.length + (rest.length + 1) := by
    rw [Sequence.generatorCount, split, List.length_append, List.length_cons]
  cases rest with
  | nil =>
    rw [Sequence.stage_nil] at layer ⊢
    rcases getElem?_layers_guarded rfl layer with ⟨p, rest, found, rfl⟩ | ⟨rfl, rfl⟩
    · rw [Nat.zero_add]
      exact .filter found
    · exact .map count.symm
  | cons next rest =>
    rw [Sequence.stage_cons] at layer ⊢
    rcases getElem?_layers_guarded rfl layer with ⟨p, rest, found, rfl⟩ | ⟨rfl, rfl⟩
    · rw [Nat.zero_add]
      exact .filter found
    · refine .flatMap ?_
      rw [count, List.length_cons]
      show before.length + 1 < _
      omega

/-- The closures of an entered stage are those of the sequence. -/
theorem source_mem_clauses (compiled : s.compile final = .ok chain) {st : Stage m ε V}
    {outer : Scope V} (entered : chain.Entered st outer) :
    .generator st.pattern st.source ∈ s.clauses := by
  obtain ⟨g, here, pattern, source, -⟩ := generator_of_entered compiled entered
  rw [pattern, source]
  exact List.mem_flatMap.mpr ⟨g, List.mem_of_getElem? here, List.mem_cons_self⟩

theorem guard_mem_clauses (compiled : s.compile final = .ok chain) {st : Stage m ε V}
    {outer : Scope V} (entered : chain.Entered st outer) {i guard : Nat}
    {predicate : Expression m ε V Bool} {node : Node m ε V}
    (layer : st.node.layers[i]? = some (.filter guard predicate node)) :
    .guard predicate ∈ s.clauses := by
  obtain ⟨g, here, -⟩ := generator_of_entered compiled entered
  cases layer_of_entered compiled entered here layer with
  | filter found =>
    have mem := List.mem_map_of_mem (f := Clause.guard) (List.mem_of_getElem? found)
    exact List.mem_flatMap.mpr ⟨g, List.mem_of_getElem? here, List.mem_cons_of_mem _ mem⟩

theorem eq_final_of_layer (compiled : s.compile final = .ok chain) {st : Stage m ε V}
    {outer : Scope V} (entered : chain.Entered st outer) {i : Nat} {body : Expression m ε V V}
    (layer : st.node.layers[i]? = some (.map body)) : body = final := by
  obtain ⟨g, here, -⟩ := generator_of_entered compiled entered
  cases layer_of_entered compiled entered here layer with
  | map last => rfl

end Compiled

/-! ### The values in hand -/

theorem Operations.resolve_eq_ok_iff [Capable m ε V] {depth : Nat} {v : V}
    {ops : Operations m ε V} :
    Operations.resolve depth v = .ok ops ↔ Capable.operations v = some ops := by
  rw [Operations.resolve]
  cases (Capable.operations v : Option (Operations m ε V)) with
  | none => simp
  | some _ => simp

theorem Operations.resolve_eq_error_iff [Capable m ε V] {depth : Nat} {v : V} {fault : Fault} :
    (Operations.resolve depth v : Except Fault (Operations m ε V)) = .error fault ↔
      (Capable.operations v : Option (Operations m ε V)) = none ∧
        fault = .unsupportedValue depth := by
  rw [Operations.resolve]
  cases (Capable.operations v : Option (Operations m ε V)) with
  | none => simp [eq_comm]
  | some _ => simp

/-- The operation that a value may lack is `filter`. -/
theorem Operations.eq_filter_of_not_offers {ops : Operations m ε V} {capability : Capability}
    (missing : ops.offers capability = false) : capability = .filter ∧ ops.filter = none := by
  cases capability with
  | map => cases missing
  | flatMap => cases missing
  | filter => exact ⟨rfl, by simpa [Operations.offers] using missing⟩

theorem Operations.invoke_of_missing [Monad m] [OfFault ε] {ops : Operations m ε V}
    (missing : ops.filter = none) {site : Site} {k : Continuation m ε V} :
    ops.invoke site .filter k =
      Fault.lift (.error (.missingCapability .filter site.depth)) := by
  simp only [Operations.invoke, missing]

section Calls

variable [Monad m] [OfFault ε] [Splittable V] [Capable m ε V]

/-- The values that a run with a handler works on: `InHand st outer i v` says that the
stage, entered in the scope `outer`, may have the value `v` in hand after `i` filters. At
first that is what its source gives, and then what the filter before has answered. -/
inductive Chain.InHand [MonadAttach m] (c : Chain m ε V) (handler : Handler m ε V) :
    Stage m ε V → Scope V → Nat → V → Prop where
  | source {st : Stage m ε V} {outer : Scope V} {v : V} : c.Entered st outer →
      MonadAttach.CanReturn (st.source.eval outer) v → InHand c handler st outer 0 v
  | filter {st : Stage m ε V} {outer : Scope V} {i guard : Nat} {v answer : V}
      {predicate : Expression m ε V Bool} {node : Node m ε V} {ops : Operations m ε V} :
      InHand c handler st outer i v →
      st.node.layers[i]? = some (.filter guard predicate node) →
      Capable.operations v = some ops →
      MonadAttach.CanReturn (handler (.guarded st.depth guard) .filter ops
        (Node.continuation handler st.toFrame (st.capture outer)
          (.filter guard predicate node))) answer →
      InHand c handler st outer (i + 1) answer

/-- The operations are those of a value that a run may have in hand at the site: after
the filters before a guard, or after all of them. -/
def Chain.Supplies [MonadAttach m] (c : Chain m ε V) (handler : Handler m ε V) (site : Site)
    (ops : Operations m ε V) : Prop :=
  ∃ st outer v, c.Entered st outer ∧ st.depth = site.depth ∧
    c.InHand handler st outer (site.guard.getD st.node.filters.length) v ∧
      Capable.operations v = some ops

/-- The form of a call: at a guard of a generator it is a `filter` with a predicate, and
at the generator itself a `map` with a body if the generator is the last one, and else a
`flatMap` with a body. -/
def Sequence.Permits (s : Sequence m ε V) (site : Site) (capability : Capability)
    (k : Continuation m ε V) : Prop :=
  ∃ g, s.generators[site.depth]? = some g ∧
    match site.guard with
    | some index => index < g.guards.length ∧ capability = .filter ∧ ∃ test, k = .predicate test
    | none =>
        (capability = if site.depth + 1 = s.generatorCount then .map else .flatMap) ∧
          ∃ run, k = .body run

omit [Monad m] [OfFault ε] [Splittable V] [Capable m ε V] in
/-- Calls of this form name a generator and fit their operation. -/
theorem Sequence.Permits.wellFormed {s : Sequence m ε V} {site : Site} {capability : Capability}
    {k : Continuation m ε V} (permits : s.Permits site capability k) :
    site.depth < s.generatorCount ∧ k.accepts capability = true := by
  obtain ⟨g, found, form⟩ := permits
  refine ⟨(List.getElem?_eq_some_iff.mp found).1, ?_⟩
  split at form
  · obtain ⟨-, rfl, test, rfl⟩ := form
    rfl
  · obtain ⟨rfl, run, rfl⟩ := form
    split <;> rfl

variable {s : Sequence m ε V} {final : Expression m ε V V} {chain : Chain m ε V}

/-- **Every call of a compiled chain has the form of its site.** -/
theorem permits_of_layer (compiled : s.compile final = .ok chain) {st : Stage m ε V}
    {outer : Scope V} (entered : chain.Entered st outer) {i : Nat} {node : Node m ε V}
    (layer : st.node.layers[i]? = some node) (handler : Handler m ε V) :
    s.Permits (node.site st.depth) node.kind
      (node.continuation handler st.toFrame (st.capture outer)) := by
  obtain ⟨g, here, -⟩ := generator_of_entered compiled entered
  refine ⟨g, by cases node <;> exact here, ?_⟩
  cases layer_of_entered compiled entered here layer with
  | filter found => exact ⟨(List.getElem?_eq_some_iff.mp found).1, rfl, _, rfl⟩
  | map last => exact ⟨(if_pos last).symm, _, rfl⟩
  | flatMap inside => exact ⟨(if_neg (Nat.ne_of_lt inside)).symm, _, rfl⟩

/-- The value in hand at a node is the one that the site of its call stands for. -/
theorem supplies_of_layer [MonadAttach m] (compiled : s.compile final = .ok chain)
    {st : Stage m ε V} {outer : Scope V} (entered : chain.Entered st outer) {i : Nat}
    {node : Node m ε V} (layer : st.node.layers[i]? = some node) {handler : Handler m ε V} {v : V}
    (hand : chain.InHand handler st outer i v) {ops : Operations m ε V}
    (offers : Capable.operations v = some ops) :
    chain.Supplies handler (node.site st.depth) ops := by
  obtain ⟨g, here, -, -, filters⟩ := generator_of_entered compiled entered
  have count : st.node.filters.length = g.guards.length := by
    rw [filters, List.length_zipIdx]
  refine ⟨st, outer, v, entered, by cases node <;> rfl, ?_, offers⟩
  cases layer_of_entered compiled entered here layer with
  | filter found => exact hand
  | map last => rwa [← count] at hand
  | flatMap inside => rwa [← count] at hand

omit [OfFault ε] in
/-- What follows a computation matters only for what the computation can return. -/
theorem bind_congr_of_canReturn [LawfulMonad m] [MonadAttach m] [WeaklyLawfulMonadAttach m]
    {α β : Type} {x : ExceptT ε m α} {k k' : α → ExceptT ε m β}
    (same : ∀ a, MonadAttach.CanReturn x a → k a = k' a) : x >>= k = x >>= k' :=
  calc
    x >>= k = MonadAttach.attach x >>= fun a => k a.1 :=
      WeaklyLawfulMonadAttach.attach_bind_val.symm
    _ = MonadAttach.attach x >>= fun a => k' a.1 := bind_congr fun a => same a.1 a.2
    _ = x >>= k' := WeaklyLawfulMonadAttach.attach_bind_val

/-- The handlers agree on every call of a compiled chain that a run with the first one may
make: on all calls of the right form with the operations of a value in hand. -/
def Handler.AgreesOnCalls [MonadAttach m] (handler handler' : Handler m ε V)
    (s : Sequence m ε V) (chain : Chain m ε V) : Prop :=
  ∀ site capability ops k, s.Permits site capability k → chain.Supplies handler site ops →
    handler site capability ops k = handler' site capability ops k

section Agreement

variable [LawfulMonad m] [MonadAttach m] [WeaklyLawfulMonadAttach m]
  {handler handler' : Handler m ε V}

/-- A node runs alike with both handlers if its continuation is the same with both, and so
is what follows the answers to its call. -/
theorem run_congr_of_layer (compiled : s.compile final = .ok chain)
    (agree : handler.AgreesOnCalls handler' s chain) {st : Stage m ε V} {outer : Scope V}
    (entered : chain.Entered st outer) {i : Nat} {node : Node m ε V}
    (layer : st.node.layers[i]? = some node) {v : V} (hand : chain.InHand handler st outer i v)
    (same : node.continuation handler st.toFrame (st.capture outer) =
      node.continuation handler' st.toFrame (st.capture outer))
    (follows : ∀ ops answer, Capable.operations v = some ops →
      MonadAttach.CanReturn (handler (node.site st.depth) node.kind ops
        (node.continuation handler st.toFrame (st.capture outer))) answer →
      node.proceed handler st.toFrame (st.capture outer) answer =
        node.proceed handler' st.toFrame (st.capture outer) answer) :
    node.run handler st.toFrame (st.capture outer) v =
      node.run handler' st.toFrame (st.capture outer) v := by
  rw [Node.run_eq_call, Node.run_eq_call, ← same]
  refine lift_bind_congr fun ops resolved => ?_
  have offers := Operations.resolve_eq_ok_iff.mp resolved
  have permits := permits_of_layer compiled entered layer handler
  have supplies := supplies_of_layer compiled entered layer hand offers
  rw [← agree _ _ ops _ permits supplies]
  exact bind_congr_of_canReturn fun answer returned => follows ops answer offers returned

/-- The nodes of an entered stage run alike with both handlers, on every value in hand. -/
theorem run_congr_of_agreesOnCalls (compiled : s.compile final = .ok chain)
    (agree : handler.AgreesOnCalls handler' s chain) {st : Stage m ε V} {outer : Scope V}
    (entered : chain.Entered st outer) {v : V} (hand : chain.InHand handler st outer 0 v) :
    st.node.run handler st.toFrame (st.capture outer) v =
      st.node.run handler' st.toFrame (st.capture outer) v := by
  refine entered.layers_induction (motive := fun st outer i node =>
    ∀ v, chain.InHand handler st outer i v → node.run handler st.toFrame (st.capture outer) v =
      node.run handler' st.toFrame (st.capture outer) v) ?_ ?_ ?_ v hand
  · intro st outer i body entered layer v hand
    exact run_congr_of_layer compiled agree entered layer hand rfl fun _ _ _ _ => rfl
  · intro st outer i next node entered layer inside v hand
    refine run_congr_of_layer compiled agree entered layer hand ?_ fun _ _ _ _ => rfl
    rw [Node.continuation, Node.continuation]
    congr 1
    funext element
    refine lift_bind_congr fun scope entry => ?_
    obtain ⟨entered', ih⟩ := inside element scope entry
    -- the value that the next source gives is the first one in hand there
    exact bind_congr_of_canReturn fun w returned => ih w (.source entered' returned)
  · intro st outer i guard predicate node entered layer ih v hand
    refine run_congr_of_layer compiled agree entered layer hand rfl ?_
    intro ops answer offers returned
    exact ih answer (.filter hand layer offers returned)

end Agreement

end Calls

/-- **Every call of a run is well formed.** Take a compiled chain and two handlers that
agree on all calls of the following form: the site names a generator; at one of its guards
the capability is `filter` and the continuation a predicate; at the generator itself the
continuation is a body and the capability `map` for the last generator and `flatMap` for
any other; the operations are those of a value in hand there, which is one that the
source of the stage gives or, after a filter, one that the handler has answered to it. Then
the chain evaluates alike with both handlers, whatever they do with their continuations. So
no run makes any other call. Calls of this form have a depth below the number of generators
and a continuation of the kind that the operation takes. -/
theorem evaluate_eq_of_agree_on_calls [Monad m] [LawfulMonad m] [MonadAttach m]
    [WeaklyLawfulMonadAttach m] [OfFault ε] [Splittable V] [Capable m ε V] {s : Sequence m ε V}
    {final : Expression m ε V V} {chain : Chain m ε V} (compiled : s.compile final = .ok chain) :
    (∀ handler handler' : Handler m ε V, handler.AgreesOnCalls handler' s chain →
      chain.evaluate handler = chain.evaluate handler') ∧
    ∀ site capability k, s.Permits site capability k →
      site.depth < s.generatorCount ∧ k.accepts capability = true := by
  refine ⟨?_, fun site capability k permits => permits.wellFormed⟩
  intro handler handler' agree
  refine bind_congr_of_canReturn fun v returned => ?_
  exact run_congr_of_agreesOnCalls compiled agree .root (.source .root returned)

namespace Sample

/-- Makes a call only if its depth is below `2`, its continuation fits and its value
offers `filter`, and fails otherwise. -/
def strict : Handler Id Fault Item := fun site capability ops k =>
  if site.depth < 2 ∧ k.accepts capability = true ∧ ops.offers .filter = true then
    ops.invoke site capability k
  else
    throw (.invalidContinuation capability)

theorem direct_agreesOnCalls_strict (chain : Chain Id Fault Item) :
    Handler.direct.AgreesOnCalls strict sequence chain := by
  intro site capability ops k permits supplies
  obtain ⟨depth, accepted⟩ := permits.wellFormed
  obtain ⟨st, outer, v, -, -, -, offers⟩ := supplies
  have filters : ops.offers .filter = true := by
    cases v with
    | number n => cases offers
    | row items =>
      cases offers
      rfl
  exact (if_pos ⟨depth, accepted, filters⟩).symm

end Sample

/-- The strict handler turns nothing away that the sample asks of it. -/
theorem sample_agree_on_calls :
    ∃ chain, Sample.sequence.compile Sample.final = .ok chain ∧
      Handler.direct.AgreesOnCalls Sample.strict Sample.sequence chain ∧
      chain.evaluate Sample.strict = pure (.row [.row [.number 10, .number 1],
        .row [.number 10, .number 2], .row [.number 20, .number 2]]) := by
  have compiled : Sample.sequence.compile Sample.final = .ok _ := rfl
  have agree := Sample.direct_agreesOnCalls_strict
  have same := (evaluate_eq_of_agree_on_calls compiled).1 _ _ (agree _)
  exact ⟨_, compiled, agree _, same.symm.trans rfl⟩

end Comprehension
