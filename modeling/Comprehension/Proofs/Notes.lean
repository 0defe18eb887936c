/-
Runs that are written down.

To say in which order a run makes its calls, the calls are written down as they are made.
`Probe.noting` makes every closure note its call and what it gave, and `Handler.noted` makes a
handler note every call that it is asked to make. Whatever closures and handlers do besides,
they do off the record, in an arbitrary monad.

* `Notes x post`: the computation succeeds, and `post` holds of its value together with what
  it notes. `Notes.pure`, `Notes.bind` and the rules for lists say how notes add up: in order.
* `Gives x holds`: the computation succeeds off the record, with a value as `holds` says.
* `Handler.Forwards`: the handler makes the call it is asked to make, once, and passes the
  answer on. `Strategy.forwards_handler`: so do all handlers of the library.
-/

import Mathlib.Data.List.Forall2
import Comprehension.Proofs.Evaluation

namespace Comprehension

/-! ### Computations that take notes -/

/-- Computations that take notes. -/
abbrev Noting (H : Type) (n : Type → Type) : Type → Type := StateT (List H) n

section Logic

variable {H ε α β V : Type} {n : Type → Type} [Monad n]

/-- Takes a note. -/
def note (h : H) : ExceptT ε (Noting H n) Unit := ExceptT.lift (modify fun notes => notes ++ [h])

/-- Acts off the record. -/
def offRecord (y : n α) : ExceptT ε (Noting H n) α := ExceptT.lift (StateT.lift y)

/-- The computation succeeds, and `post` holds of its value and the notes it takes, for
every way the effects of `n` may turn out. -/
def Notes (x : ExceptT ε (Noting H n) α) (post : α → List H → Prop) : Prop :=
  ∃ outcomes : n {p : α × List H // post p.1 p.2}, ∀ notes,
    x.run.run notes = (fun p => (.ok p.1.1, notes ++ p.1.2)) <$> outcomes

/-- The computation succeeds off the record, with a value of which `holds` is true. -/
def Gives (x : ExceptT ε (Noting H n) α) (holds : α → Prop) : Prop :=
  ∃ outcomes : n {a : α // holds a}, x = offRecord (Subtype.val <$> outcomes)

variable [LawfulMonad n]

theorem run_note (h : H) (notes : List H) :
    (note h : ExceptT ε (Noting H n) Unit).run.run notes = pure (.ok (), notes ++ [h]) := by
  have modified : (modify (fun notes => notes ++ [h]) : Noting H n Unit).run notes =
    pure ((), notes ++ [h]) := rfl
  rw [note, ExceptT.run_lift, StateT.run_map, modified, map_pure]

theorem run_offRecord (y : n α) (notes : List H) :
    (offRecord y : ExceptT ε (Noting H n) α).run.run notes = (fun a => (.ok a, notes)) <$> y := by
  simp [offRecord]

namespace Notes

theorem pure {a : α} {post : α → List H → Prop} (holds : post a []) :
    Notes (Pure.pure a : ExceptT ε (Noting H n) α) post := by
  refine ⟨Pure.pure ⟨(a, []), holds⟩, fun notes => ?_⟩
  simp

theorem mono {x : ExceptT ε (Noting H n) α} {post post' : α → List H → Prop}
    (noted : Notes x post) (weaker : ∀ a hs, post a hs → post' a hs) : Notes x post' := by
  obtain ⟨outcomes, ran⟩ := noted
  refine ⟨(fun p => ⟨p.1, weaker _ _ p.2⟩) <$> outcomes, fun notes => ?_⟩
  rw [ran, Functor.map_map]

/-- What is noted next is added to what was noted before. -/
theorem bind {x : ExceptT ε (Noting H n) α} {k : α → ExceptT ε (Noting H n) β}
    {post : α → List H → Prop} {post' : β → List H → Prop} (noted : Notes x post)
    (next : ∀ a hs, post a hs → Notes (k a) fun b hs' => post' b (hs ++ hs')) :
    Notes (x >>= k) post' := by
  obtain ⟨outcomes, ran⟩ := noted
  obtain ⟨later, ran'⟩ := Classical.axiomOfChoice fun p : {p : α × List H // post p.1 p.2} =>
    next p.1.1 p.1.2 p.2
  refine ⟨outcomes >>= fun p => (fun q => ⟨(q.1.1, p.1.2 ++ q.1.2), q.2⟩) <$> later p,
    fun notes => ?_⟩
  rw [ExceptT.run_bind, StateT.run_bind, ran, bind_map_left, map_bind]
  refine bind_congr fun p => ?_
  show (k p.1.1).run.run (notes ++ p.1.2) = _
  rw [ran' p, Functor.map_map]
  simp only [List.append_assoc]

end Notes

theorem notes_note (h : H) :
    Notes (note h : ExceptT ε (Noting H n) Unit) fun _ hs => hs = [h] := by
  refine ⟨pure ⟨((), [h]), rfl⟩, fun notes => ?_⟩
  rw [run_note, map_pure]

/-- What is done off the record leaves no note. -/
theorem Gives.notes {x : ExceptT ε (Noting H n) α} {holds : α → Prop} (gives : Gives x holds) :
    Notes x fun a hs => holds a ∧ hs = [] := by
  obtain ⟨outcomes, rfl⟩ := gives
  refine ⟨(fun a => ⟨(a.1, []), a.2, rfl⟩) <$> outcomes, fun notes => ?_⟩
  rw [run_offRecord, Functor.map_map, Functor.map_map]
  simp only [List.append_nil]

/-- What is done off the record and written down afterwards leaves one note. -/
theorem Gives.notes_written {x : ExceptT ε (Noting H n) α} {holds : α → Prop}
    (gives : Gives x holds) (line : α → H) :
    Notes (do
        let a ← x
        note (line a)
        return a) fun a hs => holds a ∧ hs = [line a] := by
  refine gives.notes.bind ?_
  rintro a _ ⟨holds, rfl⟩
  refine (notes_note (line a)).bind ?_
  rintro _ _ rfl
  exact Notes.pure ⟨holds, rfl⟩

/-! ### Lists -/

namespace Notes

/-- A body is run on each item in turn. -/
theorem mapItems {body : V → ExceptT ε (Noting H n) V} {post : V → V → List H → Prop}
    {items : List V} (each : ∀ item ∈ items, Notes (body item) (post item)) :
    Notes (ListForm.mapItems body items) fun ws hs => ∃ calls : List (V × List H),
      List.Forall₂ (fun item call => post item call.1 call.2) items calls ∧
        ws = calls.map Prod.fst ∧ hs = calls.flatMap Prod.snd := by
  induction items with
  | nil => exact Notes.pure ⟨[], .nil, rfl, rfl⟩
  | cons item rest ih =>
    obtain ⟨head, tail⟩ := List.forall_mem_cons.mp each
    refine head.bind fun w hs noted => (ih tail).bind ?_
    rintro _ _ ⟨calls, noted', rfl, rfl⟩
    refine Notes.pure ⟨(w, hs) :: calls, .cons noted noted', rfl, ?_⟩
    rw [List.flatMap_cons, List.append_nil]

/-- The lists that a body gives for each item in turn are joined. -/
theorem joinItems {form : ListForm ε V} {body : V → ExceptT ε (Noting H n) V}
    {post : V → List V → List H → Prop} {items : List V}
    (each : ∀ item ∈ items, Notes (body item) fun w hs =>
      ∃ ws, form.unpack? w = some ws ∧ post item ws hs) :
    Notes (form.joinItems body items) fun ws hs => ∃ calls : List (List V × List H),
      List.Forall₂ (fun item call => post item call.1 call.2) items calls ∧
        ws = calls.flatMap Prod.fst ∧ hs = calls.flatMap Prod.snd := by
  induction items with
  | nil => exact Notes.pure ⟨[], .nil, rfl, rfl⟩
  | cons item rest ih =>
    obtain ⟨head, tail⟩ := List.forall_mem_cons.mp each
    refine head.bind ?_
    rintro w hs ⟨ws, unpacked, noted⟩
    simp only [unpacked]
    refine (ih tail).bind ?_
    rintro _ _ ⟨calls, noted', rfl, rfl⟩
    refine Notes.pure ⟨(ws, hs) :: calls, .cons noted noted', rfl, ?_⟩
    rw [List.flatMap_cons, List.append_nil]

/-- The items for which a test was passed, by the answers it gave. -/
def passed (items : List V) (calls : List (Bool × List H)) : List V :=
  ((items.zip calls).filter fun p => p.2.1).map Prod.fst

/-- A test is made on each item in turn, and those that pass it are kept. -/
theorem keepItems {test : V → ExceptT ε (Noting H n) Bool} {post : V → Bool → List H → Prop}
    {items : List V} (each : ∀ item ∈ items, Notes (test item) (post item)) :
    Notes (ListForm.keepItems test items) fun vs hs => ∃ calls : List (Bool × List H),
      List.Forall₂ (fun item call => post item call.1 call.2) items calls ∧
        vs = passed items calls ∧ hs = calls.flatMap Prod.snd := by
  induction items with
  | nil => exact Notes.pure ⟨[], .nil, rfl, rfl⟩
  | cons item rest ih =>
    obtain ⟨head, tail⟩ := List.forall_mem_cons.mp each
    refine head.bind fun keep hs noted => (ih tail).bind ?_
    rintro _ _ ⟨calls, noted', rfl, rfl⟩
    refine Notes.pure ⟨(keep, hs) :: calls, .cons noted noted', ?_, ?_⟩
    · cases keep <;> rfl
    · rw [List.flatMap_cons, List.append_nil]

/-- What holds of an item if it passes holds of all that pass. -/
theorem forall_mem_passed {P : V → Prop} {items : List V} {calls : List (Bool × List H)}
    (each : List.Forall₂ (fun item call => call.1 = true → P item) items calls) :
    ∀ item ∈ passed items calls, P item := by
  induction each with
  | nil => exact List.forall_mem_nil _
  | @cons item call items calls head _ ih =>
    obtain ⟨passed, hs⟩ := call
    cases passed with
    | true => exact List.forall_mem_cons.mpr ⟨head rfl, ih⟩
    | false => exact ih

end Notes

end Logic

/-! ### Notes on a run -/

/-- One line of the notes on a run. -/
inductive Happening (V : Type) where
  /-- A source or the final expression was called in a scope and gave a value. -/
  | value (place : Place) (scope : Scope V) (v : V)
  /-- A guard was called in a scope and gave its answer. -/
  | test (place : Place) (scope : Scope V) (passed : Bool)
  /-- The handler was asked to make a call. -/
  | dispatch (site : Site) (capability : Capability)

/-- Computations that take notes on a run. -/
abbrev Noted (V : Type) (n : Type → Type) : Type → Type := Noting (Happening V) n

variable {ε V : Type} {n : Type → Type} [Monad n]

/-- Every closure notes its call. -/
def Probe.noting : Probe (Noted V n) ε V where
  value place e scope := do
    let v ← e.eval scope
    note (.value place scope v)
    return v
  test place e scope := do
    let passed ← e.eval scope
    note (.test place scope passed)
    return passed

namespace Handler

/-- The handler notes every call that it is asked to make. -/
def noted (handler : Handler (Noted V n) ε V) : Handler (Noted V n) ε V :=
  fun site capability ops k => do
    note (.dispatch site capability)
    handler site capability ops k

/-- The handler makes the call that it is asked to make, once, and passes the answer on. It
may act before and after the call, off the record. -/
def Forwards [OfFault ε] (handler : Handler (Noted V n) ε V) : Prop :=
  ∀ site capability ops k, ∃ (β : Type) (before : n β) (after : β → Except ε V → n Unit),
    handler site capability ops k = ExceptT.mk do
      let b ← StateT.lift before
      let answer ← (ops.invoke site capability k).run
      StateT.lift (after b answer)
      return answer

end Handler

variable [LawfulMonad n]

theorem Gives.notes_value {e : Expression (Noted V n) ε V V} {scope : Scope V}
    {holds : V → Prop} (gives : Gives (e.eval scope) holds) (place : Place) :
    Notes (Probe.noting.value place e scope) fun v hs =>
      holds v ∧ hs = [.value place scope v] :=
  gives.notes_written (.value place scope)

theorem Gives.notes_test {e : Expression (Noted V n) ε V Bool} {scope : Scope V}
    {holds : Bool → Prop} (gives : Gives (e.eval scope) holds) (place : Place) :
    Notes (Probe.noting.test place e scope) fun passed hs =>
      holds passed ∧ hs = [.test place scope passed] :=
  gives.notes_written (.test place scope)

namespace Handler.Forwards

variable [OfFault ε] {handler : Handler (Noted V n) ε V} {site : Site}

/-- A handler that forwards adds one note, in front of those of the call. -/
theorem notes (forwards : handler.Forwards) {capability : Capability}
    {ops : Operations (Noted V n) ε V} {k : Continuation (Noted V n) ε V}
    {post : V → List (Happening V) → Prop} (invoked : Notes (ops.invoke site capability k) post) :
    Notes (handler.noted site capability ops k) fun v hs =>
      ∃ hs', hs = .dispatch site capability :: hs' ∧ post v hs' := by
  obtain ⟨_, before, after, forwarded⟩ := forwards site capability ops k
  obtain ⟨outcomes, ran⟩ := invoked
  have passedOn : Notes (handler site capability ops k) post := by
    refine ⟨do
      let b ← before
      let p ← outcomes
      after b (.ok p.1.1)
      return p, fun notes => ?_⟩
    rw [forwarded]
    simp [ran]
  refine (notes_note _).bind ?_
  rintro _ _ rfl
  exact passedOn.mono fun v hs noted => ⟨hs, rfl, noted⟩

/-- The same for an operation of a list, which packs the items that it comes to. -/
theorem notes_pack (forwards : handler.Forwards) {form : ListForm ε V} {capability : Capability}
    {ops : Operations (Noted V n) ε V} {k : Continuation (Noted V n) ε V}
    {items : ExceptT ε (Noted V n) (List V)} {post : List V → List (Happening V) → Prop}
    (invoke : ops.invoke site capability k = do
      let vs ← items
      return form.pack vs)
    (noted : Notes items post) :
    Notes (handler.noted site capability ops k) fun w hs =>
      ∃ vs hs', post vs hs' ∧ w = form.pack vs ∧ hs = .dispatch site capability :: hs' := by
  have invoked : Notes (ops.invoke site capability k) fun w hs =>
      ∃ vs, post vs hs ∧ w = form.pack vs := by
    rw [invoke]
    refine noted.bind fun vs hs holds => Notes.pure ⟨vs, ?_, rfl⟩
    rwa [List.append_nil]
  refine (forwards.notes invoked).mono ?_
  rintro _ _ ⟨hs, rfl, vs, holds, rfl⟩
  exact ⟨vs, hs, holds, rfl, rfl⟩

end Handler.Forwards

/-- Events are recorded off the record. -/
instance [Journal n] : Journal (Noted V n) := ⟨fun event => StateT.lift (Journal.record event)⟩

/-- **The handlers that the library provides all forward.** -/
theorem Strategy.forwards_handler [OfFault ε] [Journal n] (strategy : Strategy) :
    (strategy.handler : Handler (Noted V n) ε V).Forwards := by
  induction strategy with
  | direct =>
    intro site capability ops k
    refine ⟨Unit, pure (), fun _ _ => pure (), ExceptT.ext (StateT.ext fun notes => ?_)⟩
    simp [Strategy.handler, Handler.direct]
  | traced inner ih =>
    intro site capability ops k
    obtain ⟨β, before, after, forwarded⟩ := ih site capability ops k
    refine ⟨β, do
      Journal.record (.dispatching site capability (ops.offers capability))
      before, fun b answer => do
        after b answer
        if answer.isOk then pure () else Journal.record (.failed site capability),
      ExceptT.ext (StateT.ext fun notes => ?_)⟩
    have recorded (event : Event) : (Journal.record event : Noted V n Unit) =
      StateT.lift (Journal.record event) := rfl
    simp only [Strategy.handler, Handler.traced, forwarded, recorded, ExceptT.run_mk,
      StateT.run_bind, StateT.run_lift, bind_assoc, pure_bind]
    refine bind_congr fun _ => bind_congr fun b => bind_congr fun p => bind_congr fun _ => ?_
    rcases p with ⟨_ | v, notes'⟩ <;> simp [Except.isOk, Except.toBool]

end Comprehension
