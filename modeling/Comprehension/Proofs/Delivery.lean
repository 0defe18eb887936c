/-
The scopes in which the closures of a compiled chain are evaluated.

Whenever a stage of a compiled chain is entered, the scope around it binds every name
that the stage carries, and the scope of each element binds the carried names, the held
ones and those of the pattern, in that order and each once. Every expression evaluated
there finds its declared reads.

* `exists_position_of_entered`: the invariant of all runs, by induction on the way to
  the stage.
* `compile_delivers_reads`: what it says about scopes, probes and checks.
-/

import Comprehension.Proofs.Capture
import Comprehension.Proofs.Matching
import Comprehension.Proofs.Evaluation

namespace Comprehension

variable {m : Type → Type} {ε V : Type}

/-! ### One stage -/

namespace Sequence

variable {environment : Scope V} {final : Expression m ε V V} {depth : Nat} {before : List Name}
  {g : Generator m ε V} {rest : List (Generator m ε V)}

/-- What is bound by the pattern or needed from outside is in the scope of an element. -/
theorem mem_capturedNames_append
    (resolvable : Resolvable environment before (needed final.reads g rest).toList) {n : Name}
    (h : n ∈ g.pattern.names ∨ n ∈ (needed final.reads g rest).toList) :
    n ∈ (stage environment final depth before g rest).capturedNames ++ g.pattern.names := by
  rcases h with own | needed
  · exact List.mem_append_right _ own
  · exact List.mem_append_left _ ((mem_capturedNames_stage resolvable).mpr needed)

variable [Splittable V]

/-- **The names in the scope of an element**: those taken along, then those of the
pattern. -/
theorem names_enter_stage (own : g.pattern.names.Nodup)
    (resolvable : Resolvable environment before (needed final.reads g rest).toList)
    {outer scope : Scope V} {element : V}
    (covers : ∀ n ∈ (stage environment final depth before g rest).carried, n ∈ outer.names)
    (entry : (stage environment final depth before g rest).enter
      ((stage environment final depth before g rest).capture outer) element = .ok scope) :
    scope.names =
      (stage environment final depth before g rest).capturedNames ++ g.pattern.names := by
  rw [Frame.enter, pattern_stage] at entry
  obtain ⟨pairs, bound, rfl, -⟩ := Pattern.exists_pairs_of_extend entry
  rw [Scope.names_insertAll, names_capture_stage resolvable covers, bound]
  exact eraseDups_eq_self (nodup_names_stage own resolvable)

end Sequence

/-! ### All runs -/

/-- The scope binds the names of the stage, in order and each once, and the declared
reads are among them. -/
def Frame.Delivers (f : Frame m ε V) (scope : Scope V) (reads : List Name) : Prop :=
  scope.names = f.carried ++ f.lexical.names ++ f.pattern.names ∧ scope.names.Nodup ∧
    ∀ n ∈ reads, n ∈ scope.names

section Runs

variable [Splittable V] {s : Sequence m ε V} {final : Expression m ε V V} {chain : Chain m ε V}

open Sequence

/-- **Every stage is entered at its position, in a scope that covers it.** -/
theorem exists_position_of_entered (compiled : s.compile final = .ok chain)
    {st : Stage m ε V} {outer : Scope V} (entered : chain.Entered st outer) :
    ∃ before g rest, s.generators = before ++ g :: rest ∧
      st = stage s.environment final before.length (boundBy before) g rest ∧
        ∀ n ∈ st.carried, n ∈ outer.names := by
  induction entered with
  | root =>
    refine ⟨[], s.first, s.rest, rfl, root_of_compile compiled, ?_⟩
    intro n hn
    rw [root_of_compile compiled, carried_stage] at hn
    exact absurd (List.mem_filter.mp hn).2 (by simp)
  | @next st outer scope element next node _ terminal entry ih =>
    obtain ⟨before, g, rest, split, rfl, covers⟩ := ih
    have resolvable := (wellScoped_at compiled split).resolvable_needed
    obtain ⟨inner, others, rfl, rfl, rfl⟩ := of_terminal_stage_eq_flatMap _ _ terminal
    refine ⟨before ++ [g], inner, others, by simp [split], by simp, ?_⟩
    intro n hn
    have carried : n ∈ (stage s.environment final (before.length + 1)
      (boundBy before ++ g.pattern.names) inner others).carried := hn
    rw [carried_stage] at carried
    have needed := (List.mem_filter.mp carried).1
    rw [names_enter_stage (nodup_names_of_split s.nodup_boundBy split) resolvable covers entry]
    exact mem_capturedNames_append resolvable (mem_names_or_needed_cons (.inl needed))

/-- What the position of an entered stage says about the scopes made there. -/
structure Frame.CapturesCleanly (f : Frame m ε V) (outer : Scope V) : Prop where
  /-- Restricting the scope around the stage misses no carried name. -/
  present : ∀ n ∈ f.carried, n ∈ outer.names
  /-- Laying the held values over it replaces nothing. -/
  fresh : ∀ n ∈ f.lexical.names, n ∉ (outer.project f.carried).names
  names : (f.capture outer).names = f.carried ++ f.lexical.names
  /-- Binding an element replaces nothing either, neither a name taken along nor one
  that the pattern has bound itself. -/
  ownFresh : ∀ n ∈ f.pattern.names, n ∉ (f.capture outer).names
  ownNodup : f.pattern.names.Nodup

theorem capturesCleanly_of_entered (compiled : s.compile final = .ok chain)
    {st : Stage m ε V} {outer : Scope V} (entered : chain.Entered st outer) :
    st.CapturesCleanly outer := by
  obtain ⟨before, g, rest, split, rfl, covers⟩ := exists_position_of_entered compiled entered
  have resolvable := (wellScoped_at compiled split).resolvable_needed
  have own := nodup_names_of_split s.nodup_boundBy split
  have captured := names_capture_stage resolvable covers
  have nodup : ((stage s.environment final before.length (boundBy before) g rest).capturedNames ++
    g.pattern.names).Nodup := nodup_names_stage own resolvable
  rw [List.nodup_append, Frame.capturedNames, List.nodup_append] at nodup
  obtain ⟨⟨carried, -, apart⟩, -, ownApart⟩ := nodup
  refine ⟨covers, ?_, captured, ?_, by simpa using own⟩
  · intro n held
    rw [Scope.names_project_of_forall carried covers]
    exact fun mem => apart n mem n held rfl
  · intro n mem
    rw [pattern_stage] at mem
    rw [captured]
    exact fun taken => ownApart n taken n mem rfl

/-- Every expression evaluated in the scope of an element finds its declared reads. -/
theorem delivers_of_entered (compiled : s.compile final = .ok chain)
    {st : Stage m ε V} {outer scope : Scope V} {element : V} (entered : chain.Entered st outer)
    (entry : st.enter (st.capture outer) element = .ok scope) :
    (∀ p i, (p, i) ∈ st.node.filters → st.Delivers scope p.reads) ∧
      (∀ next node, st.node.terminal = .flatMap next node →
        st.Delivers scope next.source.reads) ∧
      (∀ body, st.node.terminal = .map body → st.Delivers scope body.reads) := by
  obtain ⟨before, g, rest, split, rfl, covers⟩ := exists_position_of_entered compiled entered
  have resolvable := (wellScoped_at compiled split).resolvable_needed
  have own := nodup_names_of_split s.nodup_boundBy split
  have names := names_enter_stage own resolvable covers entry
  -- the names are settled; each kind of expression then has its reads among them
  have delivers : ∀ reads : List Name,
      (∀ n ∈ reads, n ∈ g.pattern.names ∨ n ∈ (needed final.reads g rest).toList) →
      (stage s.environment final before.length (boundBy before) g rest).Delivers scope reads := by
    intro reads found
    refine ⟨by rw [names, pattern_stage]; rfl, scope.names_nodup, ?_⟩
    intro n hn
    rw [names]
    exact mem_capturedNames_append resolvable (found n hn)
  refine ⟨?_, ?_, ?_⟩
  · intro p i mem
    rw [filters_stage] at mem
    refine delivers p.reads fun n hn => mem_names_or_needed_of_guardReads ?_
    exact Generator.mem_guardReads.mpr ⟨p, List.fst_mem_of_mem_zipIdx mem, hn⟩
  · intro next node terminal
    obtain ⟨inner, others, rfl, rfl, rfl⟩ := of_terminal_stage_eq_flatMap _ _ terminal
    rw [source_stage]
    exact delivers _ fun n hn => mem_names_or_needed_cons (.inr (.inl hn))
  · intro body terminal
    obtain ⟨rfl, rfl⟩ := of_terminal_stage_eq_map _ _ terminal
    exact delivers _ fun n hn => mem_names_or_needed_nil (.inl hn)

/-- An entered stage is the one at its depth. -/
theorem getElem?_stages_of_entered (compiled : s.compile final = .ok chain)
    {st : Stage m ε V} {outer : Scope V} (entered : chain.Entered st outer) :
    chain.stages[st.depth]? = some st := by
  obtain ⟨before, g, rest, split, rfl, -⟩ := exists_position_of_entered compiled entered
  rw [depth_stage]
  exact stage_at compiled split

/-- A stage that ends in a `map` is the last one. -/
theorem getLast?_stages_of_entered (compiled : s.compile final = .ok chain)
    {st : Stage m ε V} {outer : Scope V} (entered : chain.Entered st outer)
    {body : Expression m ε V V} (terminal : st.node.terminal = .map body) :
    chain.stages.getLast? = some st := by
  obtain ⟨before, g, rest, split, rfl, -⟩ := exists_position_of_entered compiled entered
  obtain ⟨rfl, -⟩ := of_terminal_stage_eq_map _ _ terminal
  rw [List.getLast?_eq_getElem?, length_stages_of_compile compiled, split, List.length_append,
    List.length_singleton, Nat.add_sub_cancel]
  exact stage_at compiled split

/-- Stages are numbered one after the other. -/
theorem depth_next_of_entered (compiled : s.compile final = .ok chain)
    {st : Stage m ε V} {outer : Scope V} (entered : chain.Entered st outer) {next : Frame m ε V}
    {node : Node m ε V} (terminal : st.node.terminal = .flatMap next node) :
    next.depth = st.depth + 1 := by
  obtain ⟨before, g, rest, split, rfl, -⟩ := exists_position_of_entered compiled entered
  obtain ⟨inner, others, rfl, rfl, rfl⟩ := of_terminal_stage_eq_flatMap _ _ terminal
  rw [depth_stage, depth_stage]

end Runs

/-! ### Probes and checks -/

/-- A probe agrees with the closures of a chain wherever they are given what the
compiler promises: the outermost source the entry scope, and every other expression a
scope with the names of its stage and all its declared reads. -/
structure Probe.AgreesOnDelivered (probe : Probe m ε V) (chain : Chain m ε V) : Prop where
  first : probe.value (.source 0) chain.root.source chain.entry =
    chain.root.source.eval chain.entry
  source : ∀ d st next scope, chain.stages[d]? = some st → chain.stages[d + 1]? = some next →
    st.Delivers scope next.source.reads →
    probe.value (.source (d + 1)) next.source scope = next.source.eval scope
  guard : ∀ d st p i scope, chain.stages[d]? = some st → (p, i) ∈ st.node.filters →
    st.Delivers scope p.reads → probe.test (.guard d i) p scope = p.eval scope
  final : ∀ st body scope, chain.stages.getLast? = some st → st.node.terminal = .map body →
    st.Delivers scope body.reads → probe.value .final body scope = body.eval scope

/-- In a compiled chain, every closure is given what the compiler promises. -/
theorem Probe.AgreesOnDelivered.agrees [Splittable V] {s : Sequence m ε V}
    {final : Expression m ε V V} {chain : Chain m ε V} (compiled : s.compile final = .ok chain)
    {probe : Probe m ε V} (h : probe.AgreesOnDelivered chain) : probe.Agrees chain where
  source := by
    intro st outer entered
    cases entered with
    | root =>
      have depth : chain.root.depth = 0 := by
        rw [root_of_compile compiled, Sequence.depth_stage]
      rw [depth]
      exact h.first
    | @next st outer _ element next node entered terminal entry =>
      have here := getElem?_stages_of_entered compiled entered
      have there := getElem?_stages_of_entered compiled (entered.next terminal entry)
      have delivers := (delivers_of_entered compiled entered entry).2.1 next node terminal
      have depth := depth_next_of_entered compiled entered terminal
      simp only [depth] at there ⊢
      exact h.source st.depth st _ _ here there delivers
  guard := by
    intro st outer element scope entered entry p i mem
    have delivers := (delivers_of_entered compiled entered entry).1 p i mem
    exact h.guard st.depth st p i scope (getElem?_stages_of_entered compiled entered) mem delivers
  final := by
    intro st outer element scope entered entry body terminal
    have delivers := (delivers_of_entered compiled entered entry).2.2 body terminal
    exact h.final st body scope (getLast?_stages_of_entered compiled entered terminal) terminal
      delivers

/-- Evaluates an expression after checking that all its declared reads are bound. -/
def Expression.evalChecked {α : Type} [Monad m] [OfFault ε] (e : Expression m ε V α)
    (scope : Scope V) : ExceptT ε m α :=
  match e.reads.find? fun n => !scope.contains n with
  | some n => throw (OfFault.ofFault (.unboundName n))
  | none => e.eval scope

theorem Expression.evalChecked_eq {α : Type} [Monad m] [OfFault ε] {e : Expression m ε V α}
    {scope : Scope V} (bound : ∀ n ∈ e.reads, n ∈ scope.names) :
    e.evalChecked scope = e.eval scope := by
  have none : (e.reads.find? fun n => !scope.contains n) = none := by
    rw [List.find?_eq_none]
    intro n hn
    simp [Scope.contains_iff.mpr (bound n hn)]
  rw [Expression.evalChecked, none]

/-- The probe that checks the declared reads of every closure before it runs. -/
def Probe.checking [Monad m] [OfFault ε] : Probe m ε V where
  value _ e := e.evalChecked
  test _ e := e.evalChecked

theorem agreesOnDelivered_checking [Monad m] [OfFault ε] {s : Sequence m ε V}
    {final : Expression m ε V V} {chain : Chain m ε V} (compiled : s.compile final = .ok chain) :
    Probe.checking.AgreesOnDelivered chain where
  first := by
    refine Expression.evalChecked_eq fun n read => ?_
    rw [root_of_compile compiled, Sequence.source_stage] at read
    rw [names_entry_of_compile compiled]
    exact List.mem_eraseDups.mpr read
  source _ _ _ _ _ _ delivers := Expression.evalChecked_eq delivers.2.2
  guard _ _ _ _ _ _ _ delivers := Expression.evalChecked_eq delivers.2.2
  final _ _ _ _ _ delivers := Expression.evalChecked_eq delivers.2.2

/-- **Declared reads are never missing at run time.** In a compiled chain a closure is
only ever evaluated in a scope whose names are those carried by its stage, those held by
it and those of its pattern, in that order and each once, with all its declared reads
among them; the outermost source is given the entry scope. So closures that differ in
other scopes only give the same runs, under every handler. Wherever a stage is entered,
taking names along misses none and replaces none, and neither does binding an element.
Checking for missing reads before each evaluation changes no run. -/
theorem compile_delivers_reads [Monad m] [LawfulMonad m] [OfFault ε] [Splittable V]
    [Capable m ε V] {s : Sequence m ε V} {final : Expression m ε V V} {chain : Chain m ε V}
    (compiled : s.compile final = .ok chain) :
    (∀ probe : Probe m ε V, probe.AgreesOnDelivered chain → ∀ handler : Handler m ε V,
      (chain.probed probe).evaluate handler = chain.evaluate handler) ∧
    (∀ st outer, chain.Entered st outer → st.CapturesCleanly outer ∧
      ∀ element scope, st.enter (st.capture outer) element = .ok scope →
        (∀ p i, (p, i) ∈ st.node.filters → st.Delivers scope p.reads) ∧
        (∀ next node, st.node.terminal = .flatMap next node →
          st.Delivers scope next.source.reads) ∧
        (∀ body, st.node.terminal = .map body → st.Delivers scope body.reads)) ∧
    ∀ handler : Handler m ε V,
      (chain.probed .checking).evaluate handler = chain.evaluate handler := by
  refine ⟨?_, ?_, ?_⟩
  · intro probe agrees handler
    exact evaluate_probed (agrees.agrees compiled) handler
  · intro st outer entered
    refine ⟨capturesCleanly_of_entered compiled entered, fun element scope entry => ?_⟩
    exact delivers_of_entered compiled entered entry
  · intro handler
    exact evaluate_probed ((agreesOnDelivered_checking compiled).agrees compiled) handler

/-- The element `1` is bound beside the three held values, where the guard finds its
reads. -/
theorem sample_delivers_reads :
    ∃ chain, Sample.sequence.compile Sample.final = .ok chain ∧
      (chain.probed .checking).evaluate .direct = chain.evaluate .direct ∧
      chain.root.CapturesCleanly chain.entry ∧
      ∃ scope, chain.root.enter (chain.root.capture chain.entry) (.number 1) = .ok scope ∧
        scope.names = [⟨"limit"⟩, ⟨"pairs"⟩, ⟨"k"⟩, ⟨"x"⟩] ∧
        ∀ p i, (p, i) ∈ chain.root.node.filters → ∀ n ∈ p.reads, n ∈ scope.names := by
  refine ⟨_, rfl, ?_⟩
  obtain ⟨-, runs, checked⟩ := compile_delivers_reads
    (rfl : Sample.sequence.compile Sample.final = .ok _)
  obtain ⟨clean, scopes⟩ := runs _ _ .root
  obtain ⟨guards, -, -⟩ := scopes (.number 1) _ rfl
  refine ⟨checked .direct, clean, _, rfl, ?_, fun p i mem => (guards p i mem).2.2⟩
  exact (guards _ _ List.mem_cons_self).1

end Comprehension
