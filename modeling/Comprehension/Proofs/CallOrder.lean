/-
In which order a run over lists makes its calls.

Take values among which lists offer the operations of lists, closures that do not fail
wherever the run comes, sources that give lists and patterns that match their items.
Closures may have effects, and so may the handler, which forwards its calls. Then the notes
on a run are the calls of a tree of fates.

* `Node.RunsThrough`, `Chain.RunsThrough`: the closures do not fail where the run comes.
* `notes_final`, `notes_guard`, `notes_entry`: the calls for one item at a node.
* `notes_node`: the calls of a stage, by induction on its nodes; `exists_woven` is the step for
  a guard, which puts the items that it drops back among those that it keeps.
* `evaluate_calls_in_order`: the calls of a whole run.
-/

import Comprehension.Proofs.CallTree

namespace Comprehension

variable {m : Type → Type} {ε V : Type} {n : Type → Type}

/-! ### Runs without failures -/

section RunsThrough

variable [Monad n] [Splittable V]

/-- From this node on, all that is called for the item runs through: the pattern matches it,
the closures give their values off the record, and every source gives a list whose items run
through in turn. A guard that gives `false` ends it. -/
def Node.RunsThrough (form : ListForm ε V) :
    Node (Noted V n) ε V → Frame (Noted V n) ε V → Scope V → V → Prop
  | .map body, f, captured, item => ∃ scope, f.enter captured item = .ok scope ∧
      Gives (body.eval scope) fun _ => True
  | .flatMap next node, f, captured, item => ∃ scope, f.enter captured item = .ok scope ∧
      Gives (next.source.eval scope) fun v => ∃ items, form.unpack? v = some items ∧
        ∀ item ∈ items, node.RunsThrough form next (next.capture scope) item
  | .filter _ predicate node, f, captured, item => ∃ scope, f.enter captured item = .ok scope ∧
      Gives (predicate.eval scope) fun passed =>
        passed = true → node.RunsThrough form f captured item

/-- The outermost source gives a list, and all that is called for its items runs through. -/
def Chain.RunsThrough (form : ListForm ε V) (chain : Chain (Noted V n) ε V) : Prop :=
  Gives (chain.root.source.eval chain.entry) fun v => ∃ items, form.unpack? v = some items ∧
    ∀ item ∈ items,
      chain.root.node.RunsThrough form chain.root.toFrame (chain.root.capture chain.entry) item

end RunsThrough

/-! ### Numbers of stages and guards -/

/-- Guards are numbered from `j` on, and stages from depth `d` on. -/
def Node.Numbered : Nat → Nat → Node m ε V → Prop
  | _, _, .map _ => True
  | d, _, .flatMap next node => next.depth = d + 1 ∧ node.Numbered (d + 1) 0
  | d, j, .filter guard _ node => guard = j ∧ node.Numbered d (j + 1)

namespace Sequence

theorem numbered_guarded {d j : Nat} (guards : List (Expression m ε V Bool)) {node : Node m ε V}
    (numbered : node.Numbered d (j + guards.length)) : (guarded j guards node).Numbered d j := by
  induction guards generalizing j with
  | nil => exact numbered
  | cons p guards ih =>
    refine ⟨rfl, ih ?_⟩
    rwa [List.length_cons, ← Nat.add_assoc, Nat.add_right_comm] at numbered

theorem numbered_stage (environment : Scope V) (final : Expression m ε V V) (d : Nat)
    (before : List Name) (g : Generator m ε V) (rest : List (Generator m ε V)) :
    (stage environment final d before g rest).node.Numbered d 0 := by
  induction rest generalizing d before g with
  | nil =>
    rw [stage_nil]
    exact numbered_guarded g.guards trivial
  | cons next rest ih =>
    rw [stage_cons]
    exact numbered_guarded g.guards ⟨depth_stage .., ih ..⟩

/-- The stages have the guards of their generators. -/
theorem map_guards_stage (environment : Scope V) (final : Expression m ε V V) (d : Nat)
    (before : List Name) (g : Generator m ε V) (rest : List (Generator m ε V)) :
    (stage environment final d before g rest).stages.map Stage.guards =
      (g :: rest).map fun h => h.guards.length := by
  induction rest generalizing d before g with
  | nil =>
    rw [stages_stage_nil, List.map_singleton, Stage.guards, filters_stage, List.length_zipIdx]
    rfl
  | cons next rest ih =>
    rw [stages_stage_cons, List.map_cons, ih, Stage.guards, filters_stage, List.length_zipIdx]
    rfl

end Sequence

theorem map_guards_of_compile {s : Sequence m ε V} {final : Expression m ε V V}
    {chain : Chain m ε V} (compiled : s.compile final = .ok chain) :
    chain.stages.map Stage.guards = s.generators.map fun g => g.guards.length := by
  rw [Chain.stages, root_of_compile compiled]
  exact Sequence.map_guards_stage ..

/-! ### The values of the final expression -/

/-- The values that the final expression gave, in order. -/
def finals (hs : List (Happening V)) : List V :=
  (hs.filterMap (Happening.call? .final)).map Prod.snd

theorem finals_append (hs hs' : List (Happening V)) :
    finals (hs ++ hs') = finals hs ++ finals hs' := by
  rw [finals, List.filterMap_append, List.map_append, finals, finals]

theorem finals_dispatch (site : Site) (capability : Capability) (hs : List (Happening V)) :
    finals (.dispatch site capability :: hs) = finals hs := rfl

theorem finals_tests (place : Place) (k : Nat) (fates : List (Fate V)) :
    finals (fates.map fun x => .test place x.scope (x.survives k)) = [] := by
  rw [finals, List.filterMap_map, List.map_eq_nil_iff, List.filterMap_eq_nil_iff]
  exact fun _ _ => rfl

/-! ### One item -/

section Items

variable [Splittable V]

/-- The fate is one of the item at this node, from guard `j` on: a guard that is still to
come drops it, or it survives. -/
def ItemFits (form : ListForm ε V) (f : Frame m ε V) (captured : Scope V) (node : Node m ε V)
    (j : Nat) (item : V) (x : Fate V) : Prop :=
  f.enter captured item = .ok x.scope ∧
    ((∃ guard, j ≤ guard ∧ guard < j + node.filters.length ∧ x = .dropped x.scope guard) ∨
      Fits form node.stages x)

variable {form : ListForm ε V} {f : Frame m ε V} {captured : Scope V} {node : Node m ε V} {j : Nat}

theorem survives_of_fits {stages : List (Stage m ε V)} {x : Fate V} (fits : Fits form stages x)
    (j : Nat) : x.survives j = true := by
  cases stages with
  | nil =>
    obtain ⟨scope, v, rfl⟩ := fits
    rfl
  | cons st rest =>
    obtain ⟨outer, given, inner, -, rfl, -, -⟩ := fits
    rfl

theorem ItemFits.survives {item : V} {x : Fate V} (fits : ItemFits form f captured node j item x) :
    x.survives j = true := by
  rcases fits.2 with ⟨guard, le, -, dropped⟩ | fits
  · rw [dropped]
    exact decide_eq_true le
  · exact survives_of_fits fits j

/-- A guard does not change the fate of an item that it keeps. -/
theorem ItemFits.behind {predicate : Expression m ε V Bool} {item : V} {x : Fate V}
    (fits : ItemFits form f captured node (j + 1) item x) :
    ItemFits form f captured (.filter j predicate node) j item x := by
  refine ⟨fits.1, fits.2.imp ?_ fun fits => fits⟩
  rintro ⟨guard, le, lt, dropped⟩
  refine ⟨guard, Nat.le_of_succ_le le, ?_, dropped⟩
  rw [Node.filters, List.length_cons]
  omega

/-- At the first node of a stage, the fates of its items are those of an entry. -/
theorem ItemFits.of_first {f : Frame m ε V} {item : V} {x : Fate V}
    (fits : ItemFits form f captured node 0 item x) :
    f.enter captured item = .ok x.scope ∧
      ((∃ guard < node.filters.length, x = .dropped x.scope guard) ∨
        Fits form node.stages x) := by
  refine ⟨fits.1, fits.2.imp ?_ fun fits => fits⟩
  rintro ⟨guard, -, lt, dropped⟩
  rw [Nat.zero_add] at lt
  exact ⟨guard, lt, dropped⟩

omit [Splittable V] in
/-- Items that a list of calls was made for, each with a fate that explains its call. -/
theorem exists_fates {α : Type} (values : α → List V) {P : V → Fate V → Prop}
    {calls : Fate V → List (Happening V)} {items : List V} {made : List (α × List (Happening V))}
    (each : List.Forall₂ (fun item call =>
      ∃ x, P item x ∧ call.2 = calls x ∧ finals call.2 = values call.1) items made) :
    ∃ fates, List.Forall₂ P items fates ∧ made.flatMap Prod.snd = fates.flatMap calls ∧
      finals (made.flatMap Prod.snd) = made.flatMap fun call => values call.1 := by
  induction each with
  | nil => exact ⟨[], .nil, rfl, rfl⟩
  | cons head _ ih =>
    obtain ⟨x, holds, explains, gave⟩ := head
    obtain ⟨fates, holds', explains', gave'⟩ := ih
    refine ⟨x :: fates, .cons holds holds', ?_, ?_⟩
    · rw [List.flatMap_cons, List.flatMap_cons, explains, explains']
    · rw [List.flatMap_cons, List.flatMap_cons, finals_append, gave, gave']

/-- **What a guard drops is put back among what it keeps.** The items that pass have their
fates from the nodes after the guard; each of the others is dropped here. -/
theorem exists_woven {predicate : Expression m ε V Bool} {items : List V}
    {made : List (Bool × List (Happening V))}
    (tested : List.Forall₂ (fun item call => ∃ scope, f.enter captured item = .ok scope ∧
      call.2 = [.test (.guard f.depth j) scope call.1]) items made)
    {kept : List (Fate V)}
    (fits : List.Forall₂ (ItemFits form f captured node (j + 1)) (Notes.passed items made) kept) :
    ∃ fates, List.Forall₂ (ItemFits form f captured (.filter j predicate node) j) items fates ∧
      (fates.filter fun x => x.survives (j + 1)) = kept ∧
      made.flatMap Prod.snd =
        fates.map fun x => .test (.guard f.depth j) x.scope (x.survives (j + 1)) := by
  induction tested generalizing kept with
  | nil =>
    cases fits
    exact ⟨[], .nil, rfl, rfl⟩
  | @cons item call items made head _ ih =>
    obtain ⟨scope, entry, noted⟩ := head
    obtain ⟨passed, hs⟩ := call
    cases passed with
    | true =>
      obtain _ | @⟨_, x, _, kept, own, others⟩ := fits
      obtain ⟨fates, fits', survivors, tests⟩ := ih others
      have same : scope = x.scope := Except.ok.inj (entry.symm.trans own.1)
      refine ⟨x :: fates, .cons own.behind fits', ?_, ?_⟩
      · rw [List.filter_cons_of_pos own.survives, survivors]
      · rw [List.flatMap_cons, List.map_cons, tests, own.survives, ← same, noted]
        rfl
    | false =>
      obtain ⟨fates, fits', survivors, tests⟩ := ih fits
      have own : ItemFits form f captured (.filter j predicate node) j item
          (.dropped scope j) := by
        refine ⟨entry, .inl ⟨j, Nat.le_refl j, ?_, rfl⟩⟩
        rw [Node.filters, List.length_cons]
        omega
      have drops : (Fate.dropped scope j).survives (j + 1) = false :=
        decide_eq_false (Nat.not_succ_le_self j)
      refine ⟨.dropped scope j :: fates, .cons own fits', ?_, ?_⟩
      · rw [List.filter_cons_of_neg (Bool.eq_false_iff.mp drops), survivors]
      · rw [List.flatMap_cons, List.map_cons, tests, drops, noted]
        rfl

end Items

/-! ### The nodes of a stage -/

section Run

variable [Monad n] [LawfulMonad n] [OfFault ε] [Splittable V]

/-- The notes on the nodes of a stage from guard `j` on: the items have their fates, and the
calls are those that the fates call for. The value is the list of what the final expression
gave. -/
def NodeNotes (form : ListForm ε V) (f : Frame m ε V) (captured : Scope V) (node : Node m ε V)
    (j : Nat) (items : List V) (w : V) (hs : List (Happening V)) : Prop :=
  w = form.pack (finals hs) ∧
    ∃ fates, List.Forall₂ (ItemFits form f captured node j) items fates ∧
      hs = stageCalls (callsFor (node.stages.map Stage.guards) (f.depth + 1))
        (node.stages.map Stage.guards).isEmpty f.depth j node.filters.length fates

section Item

variable {form : ListForm ε V} {f : Frame (Noted V n) ε V} {captured : Scope V} {item : V} (j : Nat)

/-- For an item that comes to the end of the last stage, the final expression is called. -/
theorem notes_final {body : Expression (Noted V n) ε V V}
    (runs : (Node.map body).RunsThrough form f captured item) :
    Notes (do
        let scope ← Fault.lift (f.enter captured item)
        Probe.noting.value .final body scope) fun w hs =>
      ∃ x, ItemFits form f captured (.map body) j item x ∧
        hs = callsFor [] (f.depth + 1) x ∧ finals hs = [w] := by
  obtain ⟨scope, entry, gives⟩ := runs
  rw [entry, lift_ok_bind]
  refine (gives.notes_value .final).mono ?_
  rintro w _ ⟨-, rfl⟩
  exact ⟨.final scope w, ⟨entry, .inr ⟨scope, w, rfl⟩⟩, rfl, rfl⟩

/-- For an item that comes to a guard, the guard is called. -/
theorem notes_guard {predicate : Expression (Noted V n) ε V Bool} {node : Node (Noted V n) ε V}
    (runs : (Node.filter j predicate node).RunsThrough form f captured item) :
    Notes (do
        let scope ← Fault.lift (f.enter captured item)
        Probe.noting.test (.guard f.depth j) predicate scope) fun passed hs =>
      (∃ scope, f.enter captured item = .ok scope ∧
        hs = [.test (.guard f.depth j) scope passed]) ∧
          (passed = true → node.RunsThrough form f captured item) := by
  obtain ⟨scope, entry, gives⟩ := runs
  rw [entry, lift_ok_bind]
  refine (gives.notes_test _).mono ?_
  rintro passed _ ⟨holds, rfl⟩
  exact ⟨⟨scope, rfl, rfl⟩, holds⟩

end Item

variable [Capable (Noted V n) ε V] {form : ListForm ε V} {handler : Handler (Noted V n) ε V}

/-- For an item that comes to the end of any other stage, the next one is entered. -/
theorem notes_entry (j : Nat) (governs : form.Governs (Noted V n)) {f next : Frame (Noted V n) ε V}
    {captured : Scope V} {item : V} {node : Node (Noted V n) ε V} (depth : next.depth = f.depth + 1)
    (inside : ∀ {captured v items}, form.unpack? v = some items →
      (∀ item ∈ items, node.RunsThrough form next captured item) →
      Notes ((node.probed .noting next.depth).run handler.noted (next.probed .noting) captured v)
        (NodeNotes form next captured node 0 items))
    (runs : (Node.flatMap next node).RunsThrough form f captured item) :
    Notes (do
        let scope ← Fault.lift (f.enter captured item)
        let inner ← Probe.noting.value (.source next.depth) next.source scope
        (node.probed .noting next.depth).run handler.noted (next.probed .noting)
          (next.capture scope) inner) fun w hs =>
      ∃ ws, form.unpack? w = some ws ∧
        ∃ x, ItemFits form f captured (.flatMap next node) j item x ∧
          hs = callsFor ((Node.flatMap next node).stages.map Stage.guards) (f.depth + 1) x ∧
            finals hs = ws := by
  obtain ⟨scope, entry, gives⟩ := runs
  rw [entry, lift_ok_bind]
  refine (gives.notes_value (.source next.depth)).bind ?_
  rintro v _ ⟨⟨items, unpacked, runs⟩, rfl⟩
  refine (inside unpacked runs).mono ?_
  rintro _ hs ⟨rfl, fates, fits, calls⟩
  refine ⟨_, governs.unpack_pack _, .entered scope v fates, ⟨entry, .inr ?_⟩, ?_, rfl⟩
  · exact ⟨scope, v, fates, items, rfl, unpacked, fits.imp fun _ _ => ItemFits.of_first⟩
  · rw [calls, ← depth]
    rfl

/-- **The calls of a stage from one of its nodes on.** -/
theorem notes_node (governs : form.Governs (Noted V n)) (forwards : handler.Forwards)
    {node : Node (Noted V n) ε V} {f : Frame (Noted V n) ε V} {captured : Scope V} {j : Nat}
    {v : V} {items : List V} (numbered : node.Numbered f.depth j)
    (unpacked : form.unpack? v = some items)
    (runs : ∀ item ∈ items, node.RunsThrough form f captured item) :
    Notes ((node.probed .noting f.depth).run handler.noted (f.probed .noting) captured v)
      (NodeNotes form f captured node j items) := by
  induction node generalizing f captured j v items with
  | map body =>
    rw [Node.probed, Node.run, resolve_list governs unpacked, lift_ok_bind]
    have each := Notes.mapItems fun item mem => notes_final j (runs item mem)
    refine (forwards.notes_pack rfl each).mono ?_
    rintro _ _ ⟨_, _, ⟨made, explained, rfl, rfl⟩, rfl, rfl⟩
    obtain ⟨fates, fits, calls, gave⟩ := exists_fates (fun w => [w]) explained
    refine ⟨?_, fates, fits, ?_⟩
    · rw [finals_dispatch, gave, List.map_eq_flatMap]
    · rw [calls]
      rfl
  | flatMap next node ih =>
    rw [Node.probed, Node.run, resolve_list governs unpacked, lift_ok_bind]
    obtain ⟨depth, numbered⟩ := numbered
    have each := Notes.joinItems fun item mem =>
      notes_entry j governs depth (ih (depth ▸ numbered)) (runs item mem)
    refine (forwards.notes_pack rfl each).mono ?_
    rintro _ _ ⟨_, _, ⟨made, explained, rfl, rfl⟩, rfl, rfl⟩
    obtain ⟨fates, fits, calls, gave⟩ := exists_fates id explained
    refine ⟨?_, fates, fits, ?_⟩
    · rw [finals_dispatch, gave]
      rfl
    · rw [calls]
      rfl
  | filter guard predicate node ih =>
    rw [Node.probed, Node.run, resolve_list governs unpacked, lift_ok_bind]
    obtain ⟨rfl, numbered⟩ := numbered
    have each := Notes.keepItems fun item mem => notes_guard guard (runs item mem)
    refine (forwards.notes_pack rfl each).bind ?_
    rintro _ _ ⟨_, _, ⟨made, tested, rfl, rfl⟩, rfl, rfl⟩
    have runs' := Notes.forall_mem_passed (tested.imp fun _ _ noted => noted.2)
    refine (ih numbered (governs.unpack_pack _) runs').mono ?_
    rintro _ _ ⟨rfl, kept, fits, rfl⟩
    obtain ⟨fates, fits', survivors, tests⟩ :=
      exists_woven (tested.imp fun _ _ noted => noted.1) fits
    refine ⟨?_, fates, fits', ?_⟩
    · rw [finals_append, finals_dispatch, tests, finals_tests, List.nil_append]
    · have survive := forall_mem_of_forall₂ fits' fun _ _ => ItemFits.survives
      rw [tests, Node.filters, List.length_cons,
        stageCalls_succ _ _ _ _ (callsFor_dropped _ _) survive, survivors]
      rfl

/-! ### Whole runs -/

/-- The calls of a run are those of an entry into the first stage. -/
theorem notes_evaluate (governs : form.Governs (Noted V n)) (forwards : handler.Forwards)
    {chain : Chain (Noted V n) ε V} (depth : chain.root.depth = 0)
    (numbered : chain.root.node.Numbered chain.root.depth 0) (runs : chain.RunsThrough form) :
    Notes ((chain.probed .noting).evaluate handler.noted) fun w hs =>
      w = form.pack (finals hs) ∧ ∃ given fates,
        Fits form chain.stages (.entered chain.entry given fates) ∧
          hs = callsFor (chain.stages.map Stage.guards) 0 (.entered chain.entry given fates) := by
  refine (runs.notes_value (.source chain.root.depth)).bind ?_
  rintro given _ ⟨⟨items, unpacked, runs⟩, rfl⟩
  refine (notes_node governs forwards numbered unpacked runs).mono ?_
  rintro _ hs ⟨rfl, fates, fits, calls⟩
  refine ⟨rfl, given, fates, ?_, ?_⟩
  · exact ⟨chain.entry, given, fates, items, rfl, unpacked, fits.imp fun _ _ => ItemFits.of_first⟩
  · rw [calls, depth]
    rfl

/-- **Over lists, calls are made breadth first in a stage and depth first across stages.**
Take values among which lists offer the operations of lists, a comprehension that compiles,
closures that do not fail wherever the run comes, with sources that give lists whose items
match the patterns, and a handler that forwards. Closures and handler may have effects. Then
the run succeeds, and its calls are those of a tree of fates: the outermost source is called,
and then, in any entry into a stage, each guard in turn for the items that survive the guards
before it, and after the guards, for each item that survives them all, a whole entry into the
next stage or the final expression. The handler is called before each guard and once more
after them. So the source at depth `d` is called once for each choice of `d` surviving items,
in lexicographic order, and so is the final expression; and for each call of that source the
handler is called once for each guard of the stage and once more. -/
theorem evaluate_calls_in_order (governs : form.Governs (Noted V n)) (forwards : handler.Forwards)
    {s : Sequence (Noted V n) ε V} {final : Expression (Noted V n) ε V V}
    {chain : Chain (Noted V n) ε V} (compiled : s.compile final = .ok chain)
    (runs : chain.RunsThrough form) :
    Notes ((chain.probed .noting).evaluate handler.noted) fun w hs => ∃ given fates,
      let run := Fate.entered chain.entry given fates
      Fits form chain.stages run ∧
      hs = callsFor (s.generators.map fun g => g.guards.length) 0 run ∧
      w = form.pack (finals hs) ∧
      (∀ d < s.generators.length, hs.filterMap (Happening.call? (.source d)) =
        (reached d run).map Prod.snd) ∧
      hs.filterMap (Happening.call? .final) =
        (reached s.generators.length run).map Prod.snd ∧
      (∀ d, (reached d run).Pairwise (fun a b => a.1 < b.1) ∧
        ∀ path scope v, (path, scope, v) ∈ reached d run ↔
          path.length = d ∧ Leads run path scope v) ∧
      ∀ d g, s.generators[d]? = some g → hs.countP (Happening.dispatchesAt d) =
        (g.guards.length + 1) * (hs.filterMap (Happening.call? (.source d))).length := by
  have depth : chain.root.depth = 0 := by
    rw [root_of_compile compiled, Sequence.depth_stage]
  have numbered : chain.root.node.Numbered chain.root.depth 0 := by
    rw [depth, root_of_compile compiled]
    exact Sequence.numbered_stage ..
  have guards := map_guards_of_compile compiled
  have length := length_stages_of_compile compiled
  refine (notes_evaluate governs forwards depth numbered runs).mono ?_
  rintro _ _ ⟨rfl, given, fates, fits, rfl⟩
  have sources : ∀ d < s.generators.length,
      (callsFor (chain.stages.map Stage.guards) 0 (.entered chain.entry given fates)).filterMap
        (Happening.call? (.source d)) =
          (reached d (.entered chain.entry given fates)).map Prod.snd := by
    intro d lt
    rw [← length] at lt
    have called := filterMap_callsFor fits (Nat.le_of_lt lt) 0
    rwa [calledAt, if_pos lt, Nat.zero_add] at called
  have last := filterMap_callsFor fits (Nat.le_refl _) 0
  rw [calledAt, if_neg (Nat.lt_irrefl _), length] at last
  refine ⟨given, fates, fits, by rw [guards], rfl, sources, last, ?_, ?_⟩
  · exact fun d => ⟨pairwise_reached d _, fun _ _ _ => mem_reached_iff⟩
  · intro d g found
    have lt := (List.getElem?_eq_some_iff.mp found).1
    have count := congrArg (fun l => l[d]?) guards
    simp only [List.getElem?_map, found, Option.map_some, Option.map_eq_some_iff] at count
    obtain ⟨st, found', same⟩ := count
    have called := countP_callsFor fits found' 0
    rw [Nat.zero_add] at called
    rw [called, same, sources d lt, List.length_map]

end Run

namespace Sample

/-- Rows offer the operations of lists to computations that keep a count and take notes. -/
instance : Capable (Noted Item (StateM Nat)) Fault Item where
  operations
    | .row items => some (rows.operations items)
    | .number _ => none

theorem governs_noted_rows : rows.Governs (Noted Item (StateM Nat)) where
  unpack_pack _ := rfl
  operations v items unpacked := by
    cases v with
    | number n => cases unpacked
    | row _ =>
      cases unpacked
      rfl

/-- The expression that counts its calls. -/
def counted {α : Type} (e : Expression (Noted Item (StateM Nat)) Fault Item α) :
    Expression (Noted Item (StateM Nat)) Fault Item α where
  reads := e.reads
  label := e.label
  eval scope := do
    let a ← e.eval scope
    offRecord (modify (· + 1))
    return a

/-- Events are counted as well. -/
instance : Journal (StateM Nat) where
  record _ := modify (· + 1)

theorem gives_counted {α : Type} {e : Expression (Noted Item (StateM Nat)) Fault Item α}
    {scope : Scope Item} {a : α} {holds : α → Prop} (gives : e.eval scope = pure a) (h : holds a) :
    Gives ((counted e).eval scope) holds := by
  refine ⟨do modify (· + 1); pure ⟨a, h⟩, ?_⟩
  show (e.eval scope >>= _) = _
  rw [gives]
  rfl

/-- The sequence of `x <- xs, x ≤ k, y <- ys`, whose closures count their calls. -/
def counter : Sequence (Noted Item (StateM Nat)) Fault Item where
  first := ⟨.name ⟨"x"⟩, counted (.ofName ⟨"xs"⟩), [counted (.onReads [⟨"x"⟩, ⟨"k"⟩] ascending)]⟩
  rest := [⟨.name ⟨"y"⟩, counted (.ofName ⟨"ys"⟩), []⟩]
  environment := .ofList [(⟨"k"⟩, .number 1), (⟨"xs"⟩, .row [.number 1, .number 2]),
    (⟨"ys"⟩, .row [.number 3, .number 4])]
  distinct := by decide

/-- The final expression `(x, y)`. -/
def pair : Expression (Noted Item (StateM Nat)) Fault Item Item :=
  counted (.onReads [⟨"x"⟩, ⟨"y"⟩] .row)

/-- The first item passes the guard and the second does not. -/
theorem runsThrough_counter {chain : Chain (Noted Item (StateM Nat)) Fault Item}
    (compiled : counter.compile pair = .ok chain) : chain.RunsThrough rows := by
  cases compiled
  refine gives_counted rfl ⟨_, rfl, ?_⟩
  show ∀ item ∈ [Item.number 1, .number 2], _
  simp only [List.forall_mem_cons]
  refine ⟨⟨_, rfl, gives_counted rfl fun _ => ⟨_, rfl, gives_counted rfl ⟨_, rfl, ?_⟩⟩⟩,
    ⟨_, rfl, gives_counted rfl nofun⟩, nofun⟩
  show ∀ item ∈ [Item.number 3, .number 4], _
  simp only [List.forall_mem_cons]
  exact ⟨⟨_, rfl, gives_counted rfl trivial⟩, ⟨_, rfl, gives_counted rfl trivial⟩, nofun⟩

end Sample

/-- The outermost source is called once. Its stage has a guard, so the handler is called twice
for it; for the other stage it is called as often as that stage is entered. -/
theorem sample_calls_in_order :
    ∃ chain, Sample.counter.compile Sample.pair = .ok chain ∧
      Sample.rows.Governs (Noted Sample.Item (StateM Nat)) ∧
      (Handler.traced .direct :
        Handler (Noted Sample.Item (StateM Nat)) Fault Sample.Item).Forwards ∧
      chain.RunsThrough Sample.rows ∧
      Notes ((chain.probed .noting).evaluate (Handler.traced .direct).noted) fun _ hs =>
        (hs.filterMap (Happening.call? (.source 0))).length = 1 ∧
          hs.countP (Happening.dispatchesAt 0) = 2 ∧
          hs.countP (Happening.dispatchesAt 1) =
            (hs.filterMap (Happening.call? (.source 1))).length := by
  have forwards : (Handler.traced .direct :
      Handler (Noted Sample.Item (StateM Nat)) Fault Sample.Item).Forwards :=
    Strategy.forwards_handler (.traced .direct)
  have runs := Sample.runsThrough_counter (rfl : Sample.counter.compile Sample.pair = .ok _)
  refine ⟨_, rfl, Sample.governs_noted_rows, forwards, runs, ?_⟩
  refine (evaluate_calls_in_order Sample.governs_noted_rows forwards
    (rfl : Sample.counter.compile Sample.pair = .ok _) runs).mono ?_
  rintro _ hs ⟨given, fates, -, -, -, sources, -, -, dispatches⟩
  have once : (hs.filterMap (Happening.call? (.source 0))).length = 1 := by
    rw [sources 0 (by decide)]
    rfl
  refine ⟨once, ?_, ?_⟩
  · rw [dispatches 0 _ rfl, once]
    rfl
  · rw [dispatches 1 _ rfl]
    exact Nat.one_mul _

end Comprehension
