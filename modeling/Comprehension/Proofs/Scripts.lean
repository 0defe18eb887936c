/-
Operations as scripts.

What an operation does with its continuation can be any function of it. Most operations
are simpler: they do some work, call the continuation on an element, and go on as its
answer tells them, until they have an answer of their own. Such an operation is a script.
It calls its continuation only while it runs, and the first error ends it.

The computations here keep a record and work on a state, so that what a script has done up
to any of its calls can be said.

* `Ends`: what holds after a computation, by its outcome, and the rules for sequencing,
  checks and traced calls.
* `World.Clean`: nothing in the record reports a failure.
* `Script`: scripts, and which calls of the continuation they come to.
* `Script.ends_run`: a script ends cleanly, breaks of itself, or stops at the first error
  that its continuation gives it.
* `Operations.Prompt`: all operations are scripts, as are those of lists and optional
  values.
-/

import Comprehension.Carrier.Optional
import Comprehension.Proofs.Tracing

namespace Comprehension

/-- What a run can change: the record, and a state of any other kind. -/
structure World (A σ : Type) where
  log : List (Entry A)
  state : σ

/-- Computations that keep a record and work on a state. -/
abbrev Acting (A σ : Type) : Type → Type := Recording A (StateM σ)

variable {m : Type → Type} {A σ ε V R α β : Type}

/-! ### Outcomes -/

/-- The answer of a computation, and the world it leaves. -/
def outcome (x : ExceptT ε (Acting A σ) α) (w : World A σ) : Except ε α × World A σ :=
  let p := ((x.run.run w.log).run w.state).run
  (p.1.1, ⟨p.1.2, p.2⟩)

/-- What holds after a computation: `good` of its value, or `bad` of its error, and of the
world it leaves. -/
def Ends (x : ExceptT ε (Acting A σ) α) (w : World A σ) (good : α → World A σ → Prop)
    (bad : ε → World A σ → Prop) : Prop :=
  match outcome x w with
  | (.ok a, after) => good a after
  | (.error e, after) => bad e after

namespace World

/-- The world with these events at the end of the record. -/
def note (w : World A σ) (events : List Event) : World A σ :=
  { w with log := w.log ++ events.map .event }

theorem note_nil (w : World A σ) : w.note [] = w := by
  simp [note]

theorem note_note (w : World A σ) (events events' : List Event) :
    (w.note events).note events' = w.note (events ++ events') := by
  simp [note]

end World

section Rules

variable {w : World A σ} {good : β → World A σ → Prop} {bad : ε → World A σ → Prop}

theorem outcome_bind (x : ExceptT ε (Acting A σ) α) (k : α → ExceptT ε (Acting A σ) β)
    (w : World A σ) :
    outcome (x >>= k) w =
      match outcome x w with
      | (.ok a, after) => outcome (k a) after
      | (.error e, after) => (.error e, after) := by
  unfold outcome
  rw [run_run_bind, StateT.run_bind]
  rcases (x.run.run w.log).run w.state with ⟨⟨_ | a, log⟩, state⟩
  · rfl
  · rfl

theorem Ends.ok {x : ExceptT ε (Acting A σ) β} (ends : Ends x w good bad) {b : β}
    {after : World A σ} (ended : outcome x w = (.ok b, after)) : good b after := by
  rwa [Ends, ended] at ends

theorem Ends.error {x : ExceptT ε (Acting A σ) β} (ends : Ends x w good bad) {e : ε}
    {after : World A σ} (ended : outcome x w = (.error e, after)) : bad e after := by
  rwa [Ends, ended] at ends

theorem ends_of_outcome {x : ExceptT ε (Acting A σ) β}
    (ok : ∀ b after, outcome x w = (.ok b, after) → good b after)
    (error : ∀ e after, outcome x w = (.error e, after) → bad e after) : Ends x w good bad := by
  unfold Ends
  split
  · rename_i b after ended
    exact ok b after ended
  · rename_i e after ended
    exact error e after ended

theorem Ends.mono {x : ExceptT ε (Acting A σ) β} (ends : Ends x w good bad)
    {good' : β → World A σ → Prop} {bad' : ε → World A σ → Prop}
    (ok : ∀ b after, good b after → good' b after)
    (error : ∀ e after, bad e after → bad' e after) : Ends x w good' bad' :=
  ends_of_outcome (fun b after ended => ok b after (ends.ok ended))
    fun e after ended => error e after (ends.error ended)

/-- A sequence of two: the second starts in the world that the first leaves. -/
theorem ends_bind {x : ExceptT ε (Acting A σ) α} {k : α → ExceptT ε (Acting A σ) β}
    (first : Ends x w (fun a after => Ends (k a) after good bad) bad) :
    Ends (x >>= k) w good bad := by
  unfold Ends
  rw [outcome_bind]
  rcases ended : outcome x w with ⟨e | a, after⟩
  · exact first.error ended
  · exact first.ok ended

/-- A check leaves the world as it is. -/
theorem ends_lift [OfFault ε] {x : Except Fault β} (passed : ∀ b, x = .ok b → good b w)
    (failed : ∀ fault, x = .error fault → bad (OfFault.ofFault fault) w) :
    Ends (Fault.lift x) w good bad := by
  cases x with
  | ok b => exact passed b rfl
  | error fault => exact failed fault rfl

theorem outcome_traced (handler : Handler (Acting A σ) ε V) (site : Site)
    (capability : Capability) (ops : Operations (Acting A σ) ε V)
    (k : Continuation (Acting A σ) ε V) (w : World A σ) :
    outcome (handler.traced site capability ops k) w =
      match outcome (handler site capability ops k)
          (w.note [.dispatching site capability (ops.offers capability)]) with
      | (.ok v, after) => (.ok v, after)
      | (.error e, after) => (.error e, after.note [.failed site capability]) := by
  simp only [outcome, World.note, run_traced, StateT.run_map, Id.run_map, List.map_cons,
    List.map_nil]
  rcases ((handler site capability ops k).run.run _).run w.state with ⟨⟨_ | v, log⟩, state⟩
  · rfl
  · simp [closing, failures, Id.run]

/-- **One traced call** is the call inside, with an event before it and one more after an
error. -/
theorem ends_traced {handler : Handler (Acting A σ) ε V} {site : Site} {capability : Capability}
    {ops : Operations (Acting A σ) ε V} {k : Continuation (Acting A σ) ε V}
    {good : V → World A σ → Prop}
    (inside : Ends (handler site capability ops k)
      (w.note [.dispatching site capability (ops.offers capability)]) good
      fun e after => bad e (after.note [.failed site capability])) :
    Ends (handler.traced site capability ops k) w good bad := by
  unfold Ends
  rw [outcome_traced]
  rcases ended : outcome (handler site capability ops k) (w.note _) with ⟨e | v, after⟩
  · exact inside.error ended
  · exact inside.ok ended

end Rules

/-! ### Records without failures -/

def Entry.isFailure : Entry A → Bool
  | .event (.failed _ _) => true
  | _ => false

/-- The record has only grown from one world to the other, and by no failure event. -/
def World.Clean (w after : World A σ) : Prop :=
  ∃ added, after.log = w.log ++ added ∧ ∀ entry ∈ added, entry.isFailure = false

theorem World.Clean.refl (w : World A σ) : w.Clean w := ⟨[], by simp, List.forall_mem_nil _⟩

theorem World.Clean.trans {w between after : World A σ} (first : w.Clean between)
    (second : between.Clean after) : w.Clean after := by
  obtain ⟨added, same, none⟩ := first
  obtain ⟨added', same', none'⟩ := second
  refine ⟨added ++ added', ?_, List.forall_mem_append.mpr ⟨none, none'⟩⟩
  rw [same', same, List.append_assoc]

theorem World.clean_dispatching (w : World A σ) (site : Site) (capability : Capability)
    (exposed : Bool) : w.Clean (w.note [.dispatching site capability exposed]) :=
  ⟨[.event (.dispatching site capability exposed)], rfl, by simp [Entry.isFailure]⟩

/-- The computation puts no failure events down, however it ends. -/
def Silent (x : ExceptT ε (Acting A σ) α) : Prop :=
  ∀ w, Ends x w (fun _ => w.Clean) fun _ => w.Clean

def Expression.Quiet (e : Expression (Acting A σ) ε V α) : Prop :=
  ∀ scope, Silent (e.eval scope)

def Clause.Quiet : Clause (Acting A σ) ε V → Prop
  | .generator _ source => source.Quiet
  | .guard predicate => predicate.Quiet

theorem Silent.clean {x : ExceptT ε (Acting A σ) α} (silent : Silent x) {w after : World A σ}
    {answer : Except ε α} (ended : outcome x w = (answer, after)) : w.Clean after := by
  cases answer with
  | ok a => exact (silent w).ok ended
  | error e => exact (silent w).error ended

/-- Reading a name puts nothing down. -/
theorem Expression.quiet_ofName [OfFault ε] (n : Name) :
    (Expression.ofName n : Expression (Acting A σ) ε V V).Quiet :=
  fun _ w => ends_lift (fun _ _ => .refl w) fun _ _ => .refl w

/-! ### Scripts -/

/-- What an operation does with a continuation whose answers are in `R`. -/
inductive Script (m : Type → Type) (ε V R : Type) : Type 1 where
  /-- Gives an answer. -/
  | answer (v : V)
  /-- Does some work of its own, and goes on as that tells. -/
  | work {α : Type} (x : ExceptT ε m α) (next : α → Script m ε V R)
  /-- Calls the continuation on an element, and goes on as its answer tells. -/
  | call (element : V) (next : R → Script m ε V R)

namespace Script

/-- Carries out a script with a continuation. -/
def run [Monad m] (k : V → ExceptT ε m R) : Script m ε V R → ExceptT ε m V
  | .answer v => pure v
  | .work x next => do
      let a ← x
      (next a).run k
  | .call element next => do
      let r ← k element
      (next r).run k

/-- The operation does what the script says, with every continuation. -/
def Performs [Monad m] (script : Script m ε V R)
    (op : (V → ExceptT ε m R) → ExceptT ε m V) : Prop :=
  ∀ k, op k = script.run k

/-- The work of the script puts no failure events down. -/
def Quiet : Script (Acting A σ) ε V R → Prop
  | .answer _ => True
  | .work x next => Silent x ∧ ∀ a, (next a).Quiet
  | .call _ next => ∀ r, (next r).Quiet

/-- The calls of a continuation: carried out in a world, the script comes to call it on
`element` in the world `there`. -/
inductive Calls (k : V → ExceptT ε (Acting A σ) R) (element : V) (there : World A σ) :
    Script (Acting A σ) ε V R → World A σ → Prop where
  | now {next : R → Script (Acting A σ) ε V R} :
      Calls k element there (.call element next) there
  | worked {α : Type} {x : ExceptT ε (Acting A σ) α} {next : α → Script (Acting A σ) ε V R}
      {a : α} {w between : World A σ} : outcome x w = (.ok a, between) →
      Calls k element there (next a) between → Calls k element there (.work x next) w
  | answered {element' : V} {next : R → Script (Acting A σ) ε V R} {r : R}
      {w between : World A σ} : outcome (k element') w = (.ok r, between) →
      Calls k element there (next r) between → Calls k element there (.call element' next) w

/-- Carried out in a world, the script breaks in work of its own. -/
inductive Breaks (k : V → ExceptT ε (Acting A σ) R) (e : ε) (after : World A σ) :
    Script (Acting A σ) ε V R → World A σ → Prop where
  | now {α : Type} {x : ExceptT ε (Acting A σ) α} {next : α → Script (Acting A σ) ε V R}
      {w : World A σ} : outcome x w = (.error e, after) → Breaks k e after (.work x next) w
  | worked {α : Type} {x : ExceptT ε (Acting A σ) α} {next : α → Script (Acting A σ) ε V R}
      {a : α} {w between : World A σ} : outcome x w = (.ok a, between) →
      Breaks k e after (next a) between → Breaks k e after (.work x next) w
  | answered {element : V} {next : R → Script (Acting A σ) ε V R} {r : R}
      {w between : World A σ} : outcome (k element) w = (.ok r, between) →
      Breaks k e after (next r) between → Breaks k e after (.call element next) w

/-- **How a script ends**, if its continuation reports no failure where it answers: with an
answer; with an error of its own; or at once with the first error of the continuation. Up
to there it has reported no failure. -/
theorem ends_run {script : Script (Acting A σ) ε V R} (quiet : script.Quiet)
    {k : V → ExceptT ε (Acting A σ) R} {w : World A σ}
    (inside : ∀ element there r after, script.Calls k element there w →
      outcome (k element) there = (.ok r, after) → there.Clean after) :
    Ends (script.run k) w (fun _ => w.Clean) fun e after =>
      (script.Breaks k e after w ∧ w.Clean after) ∨
        ∃ element there, script.Calls k element there w ∧ w.Clean there ∧
          outcome (k element) there = (.error e, after) := by
  induction script generalizing w with
  | answer v => exact World.Clean.refl w
  | work x next ih =>
    rw [run]
    apply ends_bind
    apply ends_of_outcome
    · intro a between ended
      have clean := quiet.1.clean ended
      refine (ih a (quiet.2 a) fun element there r after calls =>
        inside element there r after (.worked ended calls)).mono ?_ ?_
      · exact fun _ _ since => clean.trans since
      · rintro e after (⟨breaks, since⟩ | ⟨element, there, calls, since, broke⟩)
        · exact .inl ⟨.worked ended breaks, clean.trans since⟩
        · exact .inr ⟨element, there, .worked ended calls, clean.trans since, broke⟩
    · intro e after ended
      exact .inl ⟨.now ended, quiet.1.clean ended⟩
  | call element next ih =>
    rw [run]
    apply ends_bind
    apply ends_of_outcome
    · intro r between ended
      have clean := inside element w r between .now ended
      refine (ih r (quiet r) fun element there r after calls =>
        inside element there r after (.answered ended calls)).mono ?_ ?_
      · exact fun _ _ since => clean.trans since
      · rintro e after (⟨breaks, since⟩ | ⟨element, there, calls, since, broke⟩)
        · exact .inl ⟨.answered ended breaks, clean.trans since⟩
        · exact .inr ⟨element, there, .answered ended calls, clean.trans since, broke⟩
    · intro e after ended
      exact .inr ⟨element, w, .now, .refl w, ended⟩

end Script

/-! ### Prompt operations -/

/-- Calling the operation `capability` with the continuation `k` is applying `op` to the
function `run` inside `k`. -/
inductive Operations.Takes (ops : Operations m ε V) : Capability → Continuation m ε V →
    {R : Type} → ((V → ExceptT ε m R) → ExceptT ε m V) → (V → ExceptT ε m R) → Prop where
  | map {run : V → ExceptT ε m V} : Takes ops .map (.body run) ops.map run
  | flatMap {run : V → ExceptT ε m V} : Takes ops .flatMap (.body run) ops.flatMap run
  | filter {op : (V → ExceptT ε m Bool) → ExceptT ε m V} {test : V → ExceptT ε m Bool} :
      ops.filter = some op → Takes ops .filter (.predicate test) op test

/-- The operation is a script that puts no failure events down. -/
def FollowsScript (op : (V → ExceptT ε (Acting A σ) R) → ExceptT ε (Acting A σ) V) : Prop :=
  ∃ script : Script (Acting A σ) ε V R, script.Quiet ∧ script.Performs op

/-- The operations call their continuation only while they run, and give back at once the
first error that it gives them. -/
structure Operations.Prompt (ops : Operations (Acting A σ) ε V) : Prop where
  map : FollowsScript ops.map
  flatMap : FollowsScript ops.flatMap
  filter : ∀ op, ops.filter = some op → FollowsScript op

/-- In a call that starts in the world `w`, the operation comes to call its continuation on
`element` in the world `there`. -/
def Operations.Calls (ops : Operations (Acting A σ) ε V) (capability : Capability)
    (k : Continuation (Acting A σ) ε V) (w : World A σ) (element : V) (there : World A σ) : Prop :=
  ∃ (R : Type) (op : _) (run : _) (script : Script (Acting A σ) ε V R),
    ops.Takes capability k op run ∧ script.Performs op ∧ script.Calls run element there w

/-- A call that starts in the world `w` fails of itself: the operation breaks in its own
work, or it is a `filter` that the value does not offer. -/
inductive Operations.Breaks [OfFault ε] (ops : Operations (Acting A σ) ε V) (site : Site) :
    Capability → Continuation (Acting A σ) ε V → World A σ → ε → World A σ → Prop where
  | work {capability : Capability} {k : Continuation (Acting A σ) ε V} {R : Type}
      {op : (V → ExceptT ε (Acting A σ) R) → ExceptT ε (Acting A σ) V}
      {run : V → ExceptT ε (Acting A σ) R} {script : Script (Acting A σ) ε V R}
      {w after : World A σ} {e : ε} :
      ops.Takes capability k op run → script.Performs op → script.Breaks run e after w →
      Breaks ops site capability k w e after
  | missing {k : Continuation (Acting A σ) ε V} {w : World A σ} : ops.filter = none →
      Breaks ops site .filter k w (OfFault.ofFault (.missingCapability .filter site.depth)) w

/-- What holds after the continuation has run on an element. -/
def Continuation.EndsOn (k : Continuation (Acting A σ) ε V) (element : V) (w : World A σ)
    (good : World A σ → Prop) (bad : ε → World A σ → Prop) : Prop :=
  match k with
  | .body run => Ends (run element) w (fun _ => good) bad
  | .predicate test => Ends (test element) w (fun _ => good) bad

section Takes

variable {capability : Capability}

theorem Operations.takes_or_missing (ops : Operations m ε V) {k : Continuation m ε V}
    (accepted : k.accepts capability = true) :
    (∃ (R : Type) (op : (V → ExceptT ε m R) → ExceptT ε m V) (run : V → ExceptT ε m R),
      ops.Takes capability k op run) ∨ (capability = .filter ∧ ops.filter = none) := by
  cases offered : ops.offers capability with
  | false => exact .inr (Operations.eq_filter_of_not_offers offered)
  | true =>
    cases k with
    | body run =>
      cases capability with
      | map => exact .inl ⟨V, _, _, .map⟩
      | flatMap => exact .inl ⟨V, _, _, .flatMap⟩
      | filter => cases accepted
    | predicate test =>
      cases capability with
      | map => cases accepted
      | flatMap => cases accepted
      | filter =>
        obtain ⟨op, found⟩ := Option.isSome_iff_exists.mp offered
        exact .inl ⟨Bool, op, test, .filter found⟩

namespace Operations.Takes

theorem invoke_eq [Monad m] [OfFault ε] {ops : Operations m ε V} {k : Continuation m ε V}
    {op : (V → ExceptT ε m R) → ExceptT ε m V} {run : V → ExceptT ε m R}
    (takes : ops.Takes capability k op run) (site : Site) :
    ops.invoke site capability k = op run := by
  cases takes with
  | map => rfl
  | flatMap => rfl
  | filter found => simp only [Operations.invoke, found]

variable {ops : Operations (Acting A σ) ε V} {k : Continuation (Acting A σ) ε V}
  {op : (V → ExceptT ε (Acting A σ) R) → ExceptT ε (Acting A σ) V}
  {run : V → ExceptT ε (Acting A σ) R}

theorem followsScript (takes : ops.Takes capability k op run) (prompt : ops.Prompt) :
    FollowsScript op := by
  cases takes with
  | map => exact prompt.map
  | flatMap => exact prompt.flatMap
  | filter found => exact prompt.filter _ found

theorem ends (takes : ops.Takes capability k op run) {element : V} {w : World A σ}
    {good : World A σ → Prop} {bad : ε → World A σ → Prop}
    (endsOn : k.EndsOn element w good bad) : Ends (run element) w (fun _ => good) bad := by
  cases takes with
  | map => exact endsOn
  | flatMap => exact endsOn
  | filter found => exact endsOn

end Operations.Takes

/-- **How a prompt operation ends**, if its continuation reports no failure where it
answers: cleanly, of itself, or with what its first failing call has left. -/
theorem ends_invoke [OfFault ε] {ops : Operations (Acting A σ) ε V} (prompt : ops.Prompt)
    {k : Continuation (Acting A σ) ε V} (accepted : k.accepts capability = true) (site : Site)
    {w : World A σ} {bad : World A σ → ε → World A σ → Prop}
    (inside : ∀ element there, ops.Calls capability k w element there →
      k.EndsOn element there there.Clean (bad there)) :
    Ends (ops.invoke site capability k) w (fun _ => w.Clean) fun e after =>
      (ops.Breaks site capability k w e after ∧ w.Clean after) ∨
        ∃ there, w.Clean there ∧ bad there e after := by
  rcases ops.takes_or_missing accepted with ⟨R, op, run, takes⟩ | ⟨rfl, missing⟩
  · obtain ⟨script, quiet, performs⟩ := takes.followsScript prompt
    have ends : ∀ element there, script.Calls run element there w →
        Ends (run element) there (fun _ => there.Clean) (bad there) :=
      fun element there calls =>
        takes.ends (inside element there ⟨R, op, run, script, takes, performs, calls⟩)
    rw [takes.invoke_eq, performs run]
    refine (Script.ends_run quiet fun element there r after calls ended =>
      (ends element there calls).ok ended).mono (fun _ _ clean => clean) ?_
    rintro e after (⟨breaks, clean⟩ | ⟨element, there, calls, clean, broke⟩)
    · exact .inl ⟨.work takes performs breaks, clean⟩
    · exact .inr ⟨there, clean, (ends element there calls).error broke⟩
  · rw [Operations.invoke_of_missing missing]
    exact .inl ⟨.missing missing, .refl w⟩

end Takes

/-! ### Lists and optional values are prompt -/

namespace Script

/-- Calls the continuation on each item, in order, and joins what is made of the answers. -/
def collect [Monad m] (give : V → R → Except ε (List V)) :
    List V → (List V → Script m ε V R) → Script m ε V R
  | [], done => done []
  | v :: rest, done => .call v fun r =>
      match give v r with
      | .ok vs => collect give rest fun us => done (vs ++ us)
      | .error e => .work (throw e : ExceptT ε m V) .answer

theorem quiet_collect {give : V → R → Except ε (List V)} {items : List V}
    {done : List V → Script (Acting A σ) ε V R} (quiet : ∀ vs, (done vs).Quiet) :
    (collect give items done).Quiet := by
  induction items generalizing done with
  | nil => exact quiet []
  | cons v rest ih =>
    intro r
    dsimp only
    split
    · exact ih fun us => quiet _
    · exact ⟨fun w => .refl w, fun _ => trivial⟩

section Items

variable [Monad m] [LawfulMonad m] (items : List V)

theorem run_collect_map (k : V → ExceptT ε m V) (done : List V → Script m ε V V) :
    (collect (fun _ w => .ok [w]) items done).run k =
      ListForm.mapItems k items >>= fun ws => (done ws).run k := by
  induction items generalizing done with
  | nil => simp [collect, ListForm.mapItems]
  | cons v rest ih => simp [collect, run, ListForm.mapItems, ih]

theorem run_collect_flatMap (form : ListForm ε V) (k : V → ExceptT ε m V)
    (done : List V → Script m ε V V) :
    (collect (fun _ w => (form.unpack? w).elim (.error (form.refuse w)) .ok) items done).run k =
      form.joinItems k items >>= fun ws => (done ws).run k := by
  induction items generalizing done with
  | nil => simp [collect, ListForm.joinItems]
  | cons v rest ih =>
    simp only [collect, run, ListForm.joinItems, bind_assoc]
    refine bind_congr fun w => ?_
    cases form.unpack? w with
    | none =>
      apply ExceptT.ext
      simp [run]
    | some ws => simp [ih]

theorem run_collect_filter (k : V → ExceptT ε m Bool) (done : List V → Script m ε V Bool) :
    (collect (fun v keep => .ok (if keep then [v] else [])) items done).run k =
      ListForm.keepItems k items >>= fun vs => (done vs).run k := by
  induction items generalizing done with
  | nil => simp [collect, ListForm.keepItems]
  | cons v rest ih =>
    simp only [collect, run, ListForm.keepItems, bind_assoc, ih]
    refine bind_congr fun keep => bind_congr fun vs => ?_
    cases keep <;> simp

end Items

end Script

theorem followsScript_of_collect (give : V → R → Except ε (List V)) (items : List V)
    (pack : List V → V) {op : (V → ExceptT ε (Acting A σ) R) → ExceptT ε (Acting A σ) V}
    (performs : (Script.collect give items fun vs => .answer (pack vs)).Performs op) :
    FollowsScript op := by
  refine ⟨_, ?_, performs⟩
  apply Script.quiet_collect
  exact fun _ => trivial

theorem ListForm.prompt_operations (form : ListForm ε V) (items : List V) :
    (form.operations items : Operations (Acting A σ) ε V).Prompt where
  map := followsScript_of_collect _ items form.pack fun k =>
    (Script.run_collect_map items k fun ws => .answer (form.pack ws)).symm
  flatMap := followsScript_of_collect _ items form.pack fun k =>
    (Script.run_collect_flatMap items form k fun ws => .answer (form.pack ws)).symm
  filter := by
    rintro op ⟨⟩
    exact followsScript_of_collect _ items form.pack fun k =>
      (Script.run_collect_filter items k fun vs => .answer (form.pack vs)).symm

theorem OptionalForm.prompt_operations (form : OptionalForm V) (held : Option V) :
    (form.operations held : Operations (Acting A σ) ε V).Prompt := by
  cases held with
  | none =>
    have nothing : ∀ R : Type, FollowsScript fun _ : V → ExceptT ε (Acting A σ) R =>
        (pure form.absent : ExceptT ε (Acting A σ) V) :=
      fun _ => ⟨.answer form.absent, trivial, fun _ => rfl⟩
    refine ⟨nothing V, nothing V, ?_⟩
    rintro op ⟨⟩
    exact nothing Bool
  | some v =>
    refine ⟨⟨.call v fun w => .answer (form.present w), fun _ => trivial, fun _ => rfl⟩,
      ⟨.call v .answer, fun _ => trivial, fun k => (bind_pure (k v)).symm⟩, ?_⟩
    rintro op ⟨⟩
    exact ⟨.call v fun keep => .answer (if keep then form.present v else form.absent),
      fun _ => trivial, fun _ => rfl⟩

end Comprehension
