/-
What a closure can see.

Scopes are made for a stage, not for an expression: all expressions of a stage, and the
source of the next one, are evaluated in the same scope. So a closure sees more than the
names it declares. It sees the names of its stage's pattern, and whatever any expression of
the stage or further in reads from outside. That is all it sees: looking up any other name
fails.

* `InView`: the names in the scope of an element, by what is bound and read where.
* `mem_names_iff_inView`: the scope of an element binds exactly these.
* `Probe.restricting`: closures that are shut off from some names.
* `closures_see_what_is_in_view`: for every run, what closures can look up, and what makes no
  difference to them.
* `sample_sees_undeclared`: a guard that declares nothing and sees a name all the same.
-/

import Comprehension.Proofs.Delivery

namespace Comprehension

variable {m : Type → Type} {ε V : Type}

/-! ### Scopes with fewer names -/

namespace Scope

/-- The bindings for the listed names, where they stand. -/
def restrict (s : Scope V) (names : List Name) : Scope V where
  entries := s.entries.filter fun entry => entry.1 ∈ names
  nodup := s.nodup.sublist (List.filter_sublist.map Prod.fst)

theorem restrict_eq_self {s : Scope V} {names : List Name} (all : ∀ n ∈ s.names, n ∈ names) :
    s.restrict names = s := by
  refine Scope.ext (List.filter_eq_self.mpr fun entry mem => ?_)
  exact decide_eq_true (all entry.1 (List.mem_map_of_mem mem))

/-- Looking a name up fails exactly if the scope does not bind it. -/
theorem lookup_eq_error_iff {s : Scope V} {n : Name} :
    s.lookup n = .error (.unboundName n) ↔ n ∉ s.names := by
  rw [← get?_eq_none_iff, lookup]
  cases s.get? n <;> simp

end Scope

/-! ### Names in view -/

/-- The name is in view inside generator `d`: its pattern binds the name, or an expression
from there inwards reads it from outside, where an earlier generator binds it or it is
captured. -/
def InView (generators : List (Generator m ε V)) (final : List Name) (d : Nat) (n : Name) : Prop :=
  (∃ g ∈ generators[d]?, n ∈ g.pattern.names) ∨
    ∃ visible, ReadFrom generators final d ⟨n, visible⟩ ∧
      (Occurrence.Lexical generators ⟨n, visible⟩ ∨
        ∃ b < d, Occurrence.ResolvesTo generators ⟨n, visible⟩ b)

section Chains

variable {s : Sequence m ε V} {final : Expression m ε V V} {chain : Chain m ε V}

open Sequence

/-- The names that a stage provides for are the names in view there. -/
theorem mem_names_iff_inView (compiled : s.compile final = .ok chain) {d : Nat} {st : Stage m ε V}
    (found : chain.stages[d]? = some st) {n : Name} :
    n ∈ st.carried ++ st.lexical.names ++ st.pattern.names ↔
      InView s.generators final.reads d n := by
  have depth : d < s.generators.length := by
    rw [← length_stages_of_compile compiled]
    exact (List.getElem?_eq_some_iff.mp found).1
  obtain ⟨before, rest, split, rfl⟩ := exists_split_of_getElem? (List.getElem?_eq_getElem depth)
  generalize s.generators[before.length] = g at split
  obtain rfl := Option.some.inj ((stage_at compiled split).symm.trans found)
  have resolvable := (wellScoped_at compiled split).resolvable_needed
  -- taken along is what is needed, which is what is read and open here
  have taken : n ∈ (stage s.environment final before.length (boundBy before) g rest).capturedNames ↔
      ∃ visible, ReadFrom s.generators final.reads before.length ⟨n, visible⟩ ∧
        (Occurrence.Lexical s.generators ⟨n, visible⟩ ∨
          ∃ b < before.length, Occurrence.ResolvesTo s.generators ⟨n, visible⟩ b) := by
    rw [mem_capturedNames_stage resolvable, toList_needed final.reads s.nodup_boundBy split,
      List.mem_eraseDups, List.mem_map]
    constructor
    · rintro ⟨⟨_, visible⟩, met, rfl⟩
      obtain ⟨met, isOpen⟩ := List.mem_filter.mp met
      exact ⟨visible, mem_occurrences_iff.mp met, of_decide_eq_true isOpen⟩
    · rintro ⟨visible, read, isOpen⟩
      exact ⟨_, List.mem_filter.mpr ⟨mem_occurrences_iff.mpr read, decide_eq_true isOpen⟩, rfl⟩
  rw [List.mem_append, pattern_stage, InView, getElem?_of_split split, ← taken, Or.comm]
  simp [Frame.capturedNames]

/-- The outermost source is given its declared reads and nothing else. -/
theorem mem_names_entry_iff (compiled : s.compile final = .ok chain) {n : Name} :
    n ∈ chain.entry.names ↔ n ∈ chain.root.source.reads := by
  rw [names_entry_of_compile compiled, List.mem_eraseDups, root_of_compile compiled, source_stage]

variable [Splittable V]

/-- The scope of an element binds the names in view. -/
theorem mem_names_enter_iff (compiled : s.compile final = .ok chain) {st : Stage m ε V}
    {outer scope : Scope V} {element : V} (entered : chain.Entered st outer)
    (entry : st.enter (st.capture outer) element = .ok scope) {n : Name} :
    n ∈ scope.names ↔ InView s.generators final.reads st.depth n := by
  rw [← mem_names_iff_inView compiled (getElem?_stages_of_entered compiled entered)]
  obtain ⟨before, g, rest, split, rfl, covers⟩ := exists_position_of_entered compiled entered
  have resolvable := (wellScoped_at compiled split).resolvable_needed
  rw [names_enter_stage (nodup_names_of_split s.nodup_boundBy split) resolvable covers entry,
    pattern_stage]
  rfl

end Chains

/-! ### Closures shut off from names -/

/-- The probe that lets each closure see some names only, chosen by its place and its
declared reads. -/
def Probe.restricting (shown : Place → List Name → List Name) : Probe m ε V where
  value place e scope := e.eval (scope.restrict (shown place e.reads))
  test place e scope := e.eval (scope.restrict (shown place e.reads))

/-- Each closure is shown all that is in view at its place. -/
structure ShowsView (s : Sequence m ε V) (final : Expression m ε V V) (chain : Chain m ε V)
    (shown : Place → List Name → List Name) : Prop where
  first : ∀ n ∈ chain.root.source.reads, n ∈ shown (.source 0) chain.root.source.reads
  source : ∀ d next, chain.stages[d + 1]? = some next →
    ∀ n, InView s.generators final.reads d n → n ∈ shown (.source (d + 1)) next.source.reads
  guard : ∀ d st p i, chain.stages[d]? = some st → (p, i) ∈ st.node.filters →
    ∀ n, InView s.generators final.reads d n → n ∈ shown (.guard d i) p.reads
  final : ∀ d st body, chain.stages[d]? = some st → st.node.terminal = .map body →
    ∀ n, InView s.generators final.reads d n → n ∈ shown .final body.reads

theorem ShowsView.agreesOnDelivered {s : Sequence m ε V} {final : Expression m ε V V}
    {chain : Chain m ε V} {shown : Place → List Name → List Name}
    (compiled : s.compile final = .ok chain) (shows : ShowsView s final chain shown) :
    (Probe.restricting shown).AgreesOnDelivered chain where
  first := by
    refine congrArg chain.root.source.eval (Scope.restrict_eq_self fun n mem => ?_)
    exact shows.first n ((mem_names_entry_iff compiled).mp mem)
  source := by
    intro d st next scope found found' delivers
    refine congrArg next.source.eval (Scope.restrict_eq_self fun n mem => ?_)
    rw [delivers.1, mem_names_iff_inView compiled found] at mem
    exact shows.source d next found' n mem
  guard := by
    intro d st p i scope found filter delivers
    refine congrArg p.eval (Scope.restrict_eq_self fun n mem => ?_)
    rw [delivers.1, mem_names_iff_inView compiled found] at mem
    exact shows.guard d st p i found filter n mem
  final := by
    intro st body scope last terminal delivers
    rw [List.getLast?_eq_getElem?] at last
    refine congrArg body.eval (Scope.restrict_eq_self fun n mem => ?_)
    rw [delivers.1, mem_names_iff_inView compiled last] at mem
    exact shows.final _ st body last terminal n mem

/-! ### All runs -/

/-- **Closures see what is in view at their place, declared or not.** In a compiled chain
the outermost source is given its declared reads and no other name. Every other expression
is given the scope of an element, however the run came there, and that scope binds exactly
the names in view: looking up a name fails for being unbound if and only if the name is not
in view. Shutting closures off from names that are not in view changes no run, under any
handler. So closures whose reads list all that is in view see only what they declare. -/
theorem closures_see_what_is_in_view [Monad m] [LawfulMonad m] [OfFault ε] [Splittable V]
    [Capable m ε V] {s : Sequence m ε V} {final : Expression m ε V V} {chain : Chain m ε V}
    (compiled : s.compile final = .ok chain) :
    (∀ n, (n ∈ chain.entry.names ↔ n ∈ chain.root.source.reads) ∧
      (chain.entry.lookup n = .error (.unboundName n) ↔ n ∉ chain.root.source.reads)) ∧
    (∀ st outer element scope, chain.Entered st outer →
      st.enter (st.capture outer) element = .ok scope →
      ∀ n, (n ∈ scope.names ↔ InView s.generators final.reads st.depth n) ∧
        (scope.lookup n = .error (.unboundName n) ↔
          ¬ InView s.generators final.reads st.depth n)) ∧
    (∀ shown, ShowsView s final chain shown → ∀ handler : Handler m ε V,
      (chain.probed (.restricting shown)).evaluate handler = chain.evaluate handler) := by
  refine ⟨fun n => ?_, fun st outer element scope entered entry n => ?_,
    fun shown shows handler => ?_⟩
  · rw [Scope.lookup_eq_error_iff, mem_names_entry_iff compiled]
    exact ⟨Iff.rfl, Iff.rfl⟩
  · rw [Scope.lookup_eq_error_iff, mem_names_enter_iff compiled entered entry]
    exact ⟨Iff.rfl, Iff.rfl⟩
  · exact evaluate_probed ((shows.agreesOnDelivered compiled).agrees compiled) handler

namespace Sample

/-- Reads `x` and declares nothing. -/
def undeclared : Expression Id Fault Item Bool where
  reads := []
  label := none
  eval scope := do
    let _ ← Fault.lift (scope.lookup ⟨"x"⟩)
    return true

/-- The sequence of `x <- xs` with a guard that does not declare what it reads. -/
def leaky : Sequence Id Fault Item where
  first := ⟨.name ⟨"x"⟩, .ofName ⟨"xs"⟩, [undeclared]⟩
  rest := []
  environment := .ofList [(⟨"xs"⟩, .row [.number 1])]
  distinct := by decide

/-- All that is ever in view is `x`. -/
theorem eq_of_inView_leaky {d : Nat} {n : Name} (inView : InView leaky.generators [] d n) :
    n = ⟨"x"⟩ := by
  rcases inView with ⟨g, found, binds⟩ | ⟨visible, read, -⟩
  · cases List.mem_singleton.mp (List.mem_of_getElem? found)
    exact List.mem_singleton.mp binds
  · cases read with
    | final mem => cases mem
    | guard found _ guard mem =>
      cases List.mem_singleton.mp (List.mem_of_getElem? found)
      cases List.mem_singleton.mp guard
      cases mem
    | source found inside _ =>
      have single : visible < 1 := (List.getElem?_eq_some_iff.mp found).1
      omega

end Sample

/-- Beside `x` nothing can be looked up in the scope of an element, the captured `xs`
included, and closures that are shown these two run as before. -/
theorem sample_sees_what_is_in_view :
    ∃ chain, Sample.leaky.compile (.constant (.number 1)) = .ok chain ∧
      (∃ scope, chain.root.enter (chain.root.capture chain.entry) (.number 1) = .ok scope ∧
        ∀ n, n ≠ ⟨"x"⟩ → scope.lookup n = .error (.unboundName n)) ∧
      (chain.probed (.restricting fun _ _ => [⟨"x"⟩, ⟨"xs"⟩])).evaluate .direct =
        chain.evaluate .direct := by
  refine ⟨_, rfl, ?_⟩
  obtain ⟨-, scopes, runs⟩ := closures_see_what_is_in_view
    (rfl : Sample.leaky.compile (.constant (.number 1)) = .ok _)
  have only {d : Nat} {n : Name} (inView : InView Sample.leaky.generators [] d n) :
      n ∈ [(⟨"x"⟩ : Name), ⟨"xs"⟩] := by
    rw [Sample.eq_of_inView_leaky inView]
    exact List.mem_cons_self
  refine ⟨⟨_, rfl, fun n other => ?_⟩, runs _ ⟨?_, ?_, ?_, ?_⟩ .direct⟩
  · exact (scopes _ _ (.number 1) _ .root rfl n).2.mpr fun inView =>
      other (Sample.eq_of_inView_leaky inView)
  · decide
  · exact fun _ _ _ _ => only
  · exact fun _ _ _ _ _ _ _ => only
  · exact fun _ _ _ _ _ _ => only

/-- A guard that declares no reads is given a scope that binds `x` and looks `x` up with
success. Shown only what it declares, it would fail. -/
theorem sample_sees_undeclared :
    ∃ chain, Sample.leaky.compile (.constant (.number 1)) = .ok chain ∧
      (Sample.undeclared, 0) ∈ chain.root.node.filters ∧ Sample.undeclared.reads = [] ∧
      (∃ scope, chain.root.enter (chain.root.capture chain.entry) (.number 1) = .ok scope ∧
        scope.names = [⟨"x"⟩] ∧ scope.lookup ⟨"x"⟩ = .ok (.number 1)) ∧
      (chain.evaluate .direct).run = .ok (.row [.number 1]) ∧
      ((chain.probed (.restricting fun _ reads => reads)).evaluate .direct).run =
        .error (.unboundName ⟨"x"⟩) :=
  ⟨_, rfl, List.mem_cons_self, rfl, ⟨_, rfl, rfl, rfl⟩, rfl, rfl⟩

end Comprehension
