/-
Names are compared and never looked into.

A renaming sends different names to different names. It acts on everything that has names in
it: patterns, reads and scopes name by name, and a closure by running it in the scope
renamed back. Each function of the library then does to renamed things what it does to the
things themselves, so that a comprehension under other names compiles to the same chain under
other names, and runs the same.

* `Scope.renameBack_rename`: renaming a scope can be undone.
* `Scope.insert_rename`, `Scope.project_rename`, `Scope.overlay_rename`,
  `Pattern.extend_rename`: scopes under other names.
* `Sequence.ofClauses_rename`, `Sequence.compile_rename`: the same verdicts and the same
  chains.
* `Chain.evaluate_rename`: the same runs.
* `renaming_commutes`: all of this together.
-/

import Mathlib.Data.List.Nodup
import Mathlib.Logic.Embedding.Basic
import Comprehension.Proofs.Drafting
import Comprehension.Proofs.Evaluation

namespace Comprehension

variable {m : Type → Type} {ε V α β : Type} (r : Name ↪ Name)

/-! ### What a renaming does -/

namespace Pattern

mutual

def rename : Pattern → Pattern
  | .name n => .name (r n)
  | .wildcard => .wildcard
  | .tuple parts => .tuple (renameAll parts)

def renameAll : List Pattern → List Pattern
  | [] => []
  | p :: ps => p.rename :: renameAll ps

end

end Pattern

namespace Scope

/-- The same values in the same order, under other names. -/
def rename (s : Scope V) : Scope V where
  entries := s.entries.map fun p => (r p.1, p.2)
  nodup := by
    have names : (s.entries.map fun p => (r p.1, p.2)).map Prod.fst = s.names.map r := by
      rw [names, List.map_map, List.map_map]
      rfl
    rw [names]
    exact s.nodup.map r.injective

/-- The names that entries had before they were renamed. What has no such name is left
out. -/
noncomputable def entriesBack (entries : List (Name × V)) : List (Name × V) :=
  entries.filterMap fun p => (Function.partialInv r p.1).map fun n => (n, p.2)

theorem map_fst_entriesBack (entries : List (Name × V)) :
    (entriesBack r entries).map Prod.fst =
      (entries.map Prod.fst).filterMap (Function.partialInv r) := by
  rw [entriesBack, List.map_filterMap, List.filterMap_map]
  congr
  funext p
  rw [Option.map_map]
  exact Option.map_id'

/-- The scope renamed back. -/
noncomputable def renameBack (s : Scope V) : Scope V where
  entries := entriesBack r s.entries
  nodup := by
    rw [map_fst_entriesBack]
    refine s.nodup.filterMap fun a a' n => ?_
    exact Function.injective_of_isPartialInv_right r.injective.isPartialInv a a' n

/-- **Renaming can be undone.** -/
@[simp] theorem renameBack_rename (s : Scope V) : (s.rename r).renameBack r = s := by
  ext1
  show (s.entries.map _).filterMap _ = s.entries
  rw [List.filterMap_map]
  have back : ((fun p : Name × V => (Function.partialInv r p.1).map fun n => (n, p.2)) ∘
      fun p => (r p.1, p.2)) = some := by
    funext p
    show (Function.partialInv r (r p.1)).map _ = _
    rw [Function.partialInv_left r.injective]
    rfl
  rw [back, List.filterMap_some]

end Scope

/-- The closure runs in the scope renamed back. -/
noncomputable def Expression.rename (e : Expression m ε V α) : Expression m ε V α where
  reads := e.reads.map r
  label := e.label
  eval s := e.eval (s.renameBack r)

@[simp] theorem Expression.eval_rename (e : Expression m ε V α) (s : Scope V) :
    (e.rename r).eval (s.rename r) = e.eval s :=
  congrArg e.eval (s.renameBack_rename r)

noncomputable def Clause.rename : Clause m ε V → Clause m ε V
  | .generator pattern source => .generator (pattern.rename r) (source.rename r)
  | .guard predicate => .guard (predicate.rename r)

noncomputable def Generator.rename (g : Generator m ε V) : Generator m ε V where
  pattern := g.pattern.rename r
  source := g.source.rename r
  guards := g.guards.map (Expression.rename r)

def Malformation.rename : Malformation → Malformation
  | .empty => .empty
  | .leadingGuard => .leadingGuard
  | .duplicateName n => .duplicateName (r n)
  | .unboundName n clause => .unboundName (r n) clause

def Fault.rename : Fault → Fault
  | .malformed reason => .malformed (reason.rename r)
  | .unboundName n => .unboundName (r n)
  | fault => fault

/-- An answer under other names: a result by the given function, a fault by its own name. -/
def renameAnswer (f : α → β) : Except Fault α → Except Fault β
  | .ok a => .ok (f a)
  | .error fault => .error (fault.rename r)

noncomputable def Frame.rename (f : Frame m ε V) : Frame m ε V where
  depth := f.depth
  pattern := f.pattern.rename r
  source := f.source.rename r
  carried := f.carried.map r
  lexical := f.lexical.rename r

noncomputable def Node.rename : Node m ε V → Node m ε V
  | .map body => .map (body.rename r)
  | .flatMap next node => .flatMap (next.rename r) node.rename
  | .filter guard predicate node => .filter guard (predicate.rename r) node.rename

noncomputable def Stage.rename (s : Stage m ε V) : Stage m ε V :=
  { s.toFrame.rename r with node := s.node.rename r }

/-- The chain with the same stages under other names, entered in the renamed scope. -/
noncomputable def Chain.rename (c : Chain m ε V) : Chain m ε V where
  root := c.root.rename r
  entry := c.entry.rename r

/-! ### Lists of names -/

section Lists

theorem contains_map (names : List Name) (n : Name) :
    (names.map r).contains (r n) = names.contains n := by
  rw [Bool.eq_iff_iff, List.contains_iff_mem, List.contains_iff_mem,
    List.mem_map_of_injective r.injective]

theorem filter_map_congr {p q : Name → Bool} (same : ∀ n, q (r n) = p n) (names : List Name) :
    (names.map r).filter q = (names.filter p).map r := by
  rw [List.filter_map]
  congr 2
  funext n
  exact same n

theorem eraseDups_map (names : List Name) : (names.map r).eraseDups = names.eraseDups.map r := by
  match names with
  | [] => rfl
  | n :: rest =>
    -- the recursion goes on with a part of the tail, not with the tail
    have shorter : (rest.filter fun k => !k == n).length < (n :: rest).length :=
      Nat.lt_succ_of_le (List.length_filter_le _ rest)
    have others := filter_map_congr r (p := fun k => !k == n) (q := fun k => !k == r n)
      (fun k => by simp) rest
    rw [List.map_cons, List.eraseDups_cons, others, eraseDups_map (rest.filter _),
      List.eraseDups_cons, List.map_cons]
termination_by names.length
decreasing_by exact shorter

end Lists

/-! ### Scopes and patterns -/

namespace Scope

@[simp] theorem get?_rename (s : Scope V) (n : Name) : (s.rename r).get? (r n) = s.get? n := by
  show find? (r n) (s.entries.map _) = find? n s.entries
  induction s.entries with
  | nil => rfl
  | cons p rest ih =>
    by_cases same : p.1 = n
    · simp [find?, same]
    · have differ : r p.1 ≠ r n := fun e => same (r.injective e)
      simp only [List.map_cons, find?, if_neg same, if_neg differ, ih]

@[simp] theorem contains_rename (s : Scope V) (n : Name) :
    (s.rename r).contains (r n) = s.contains n := by
  rw [contains, contains, get?_rename]

/-- A name that is not bound is blamed under its new name. -/
theorem lookup_rename (s : Scope V) (n : Name) :
    (s.rename r).lookup (r n) = renameAnswer r id (s.lookup n) := by
  rw [lookup, lookup, get?_rename]
  cases s.get? n with
  | none => rfl
  | some v => rfl

theorem insert_rename (s : Scope V) (n : Name) (v : V) :
    (s.insert n v).rename r = (s.rename r).insert (r n) v := by
  ext1
  show (place n v s.entries).map _ = place (r n) v (s.entries.map _)
  induction s.entries with
  | nil => rfl
  | cons p rest ih =>
    by_cases same : p.1 = n
    · simp [place, same]
    · have differ : r p.1 ≠ r n := fun e => same (r.injective e)
      simp only [place, List.map_cons, if_neg same, if_neg differ, ih]

/-- The pairs under other names. -/
def renamePairs (pairs : List (Name × V)) : List (Name × V) := pairs.map fun p => (r p.1, p.2)

theorem insertAll_rename (s : Scope V) (pairs : List (Name × V)) :
    (s.insertAll pairs).rename r = (s.rename r).insertAll (renamePairs r pairs) := by
  induction pairs generalizing s with
  | nil => rfl
  | cons p rest ih =>
    rw [insertAll_cons, ih, insert_rename]
    rfl

theorem overlay_rename (s t : Scope V) :
    (s.overlay t).rename r = (s.rename r).overlay (t.rename r) := s.insertAll_rename r t.entries

theorem project_rename (s : Scope V) (names : List Name) :
    (s.project names).rename r = (s.rename r).project (names.map r) := by
  have pairs : renamePairs r (names.filterMap fun n => (s.get? n).map fun v => (n, v)) =
      (names.map r).filterMap fun n => ((s.rename r).get? n).map fun v => (n, v) := by
    rw [renamePairs, List.map_filterMap, List.filterMap_map]
    congr
    funext n
    rw [Option.map_map, Function.comp_apply, get?_rename]
    rfl
  rw [project, project, ofList, insertAll_rename, pairs]
  rfl

end Scope

namespace Pattern

mutual

theorem names_rename (p : Pattern) : (p.rename r).names = p.names.map r := by
  match p with
  | .name n => rfl
  | .wildcard => rfl
  | .tuple parts => exact namesOfAll_renameAll parts

theorem namesOfAll_renameAll (ps : List Pattern) :
    namesOfAll (renameAll r ps) = (namesOfAll ps).map r := by
  match ps with
  | [] => rfl
  | p :: ps => rw [renameAll, namesOfAll, namesOfAll, List.map_append, names_rename p,
      namesOfAll_renameAll ps]

end

theorem length_renameAll (ps : List Pattern) : (renameAll r ps).length = ps.length := by
  induction ps with
  | nil => rfl
  | cons p ps ih => rw [renameAll, List.length_cons, ih, List.length_cons]

variable [Splittable V]

mutual

/-- A match takes the same way under other names. -/
theorem walk_rename (p : Pattern) (v : V) :
    (p.rename r).walk v = (Scope.renamePairs r (p.walk v).1, (p.walk v).2) := by
  match p with
  | .name n => rfl
  | .wildcard => rfl
  | .tuple parts =>
    rw [rename, walk, walk, length_renameAll]
    cases parts? v parts.length with
    | none => rfl
    | some vs => exact walkAll_rename parts vs

theorem walkAll_rename (ps : List Pattern) (vs : List V) :
    walkAll (renameAll r ps) vs = (Scope.renamePairs r (walkAll ps vs).1, (walkAll ps vs).2) := by
  match ps, vs with
  | [], _ => rfl
  | _ :: _, [] => rfl
  | p :: ps, v :: vs =>
    have head := walk_rename p v
    have tail := walkAll_rename ps vs
    rcases walked : p.walk v with ⟨pairs, _ | k⟩
    · rw [walked] at head
      simp only [renameAll, walkAll, head, walked, tail, Scope.renamePairs, List.map_append]
    · rw [walked] at head
      simp only [renameAll, walkAll, head, walked]

end

/-- A match fails with the same fault, as that names no name, or gives the renamed scope. -/
theorem extend_rename (depth : Nat) (p : Pattern) (v : V) (s : Scope V) :
    (p.rename r).extend depth v (s.rename r) = (p.extend depth v s).map (Scope.rename r) := by
  rw [extend_eq, extend_eq, walk_rename]
  rcases p.walk v with ⟨pairs, _ | k⟩
  · exact congrArg Except.ok (s.insertAll_rename r pairs).symm
  · rfl

end Pattern

/-! ### Accepting clauses -/

theorem firstRepeat?_map (seen names : List Name) :
    firstRepeat? (seen.map r) (names.map r) = (firstRepeat? seen names).map r := by
  induction names generalizing seen with
  | nil => rfl
  | cons n rest ih =>
    have known : r n ∈ seen.map r ↔ n ∈ seen := List.mem_map_of_injective r.injective
    by_cases repeated : n ∈ seen
    · rw [List.map_cons, firstRepeat?, firstRepeat?, if_pos (known.mpr repeated), if_pos repeated]
      rfl
    · have fresh : r n ∉ seen.map r := fun mem => repeated (known.mp mem)
      rw [List.map_cons, firstRepeat?, firstRepeat?, if_neg fresh, if_neg repeated]
      exact ih (n :: seen)

theorem Clause.boundNames_rename (c : Clause m ε V) :
    (c.rename r).boundNames = c.boundNames.map r := by
  cases c with
  | generator pattern source => exact pattern.names_rename r
  | guard predicate => rfl

theorem Clause.reads_rename (c : Clause m ε V) : (c.rename r).reads = c.reads.map r := by
  cases c with
  | generator pattern source => rfl
  | guard predicate => rfl

theorem Generator.clauses_rename (g : Generator m ε V) :
    (g.rename r).clauses = g.clauses.map (Clause.rename r) := by
  rw [Generator.clauses, Generator.clauses, List.map_cons, List.map_map]
  exact congrArg _ List.map_map

theorem boundBy_map_rename (generators : List (Generator m ε V)) :
    boundBy (generators.map (Generator.rename r)) = (boundBy generators).map r := by
  induction generators with
  | nil => rfl
  | cons g rest ih =>
    rw [List.map_cons, boundBy_cons, boundBy_cons, List.map_append, ih]
    exact congrArg (· ++ _) (g.pattern.names_rename r)

theorem flatMap_boundNames_map_rename (clauses : List (Clause m ε V)) :
    (clauses.map (Clause.rename r)).flatMap Clause.boundNames =
      (clauses.flatMap Clause.boundNames).map r := by
  rw [List.flatMap_map, List.map_flatMap]
  congr
  funext c
  exact c.boundNames_rename r

namespace Sequence

/-- The sequence of the same clauses under other names, over the renamed environment. -/
noncomputable def rename (s : Sequence m ε V) : Sequence m ε V where
  first := s.first.rename r
  rest := s.rest.map (Generator.rename r)
  environment := s.environment.rename r
  distinct := by
    show (boundBy (s.generators.map (Generator.rename r))).Nodup
    rw [boundBy_map_rename]
    exact s.nodup_boundBy.map r.injective

theorem clauses_rename (s : Sequence m ε V) :
    (s.rename r).clauses = s.clauses.map (Clause.rename r) := by
  show (s.generators.map (Generator.rename r)).flatMap Generator.clauses = _
  rw [List.flatMap_map, clauses, List.map_flatMap]
  congr
  funext g
  exact g.clauses_rename r

theorem gather_map_rename (clauses : List (Clause m ε V)) :
    gather (clauses.map (Clause.rename r)) =
      ((gather clauses).1.map (Expression.rename r),
        (gather clauses).2.map (Generator.rename r)) := by
  induction clauses with
  | nil => rfl
  | cons c rest ih =>
    cases c with
    | generator pattern source => simp only [List.map_cons, Clause.rename, gather, ih]; rfl
    | guard predicate => simp only [List.map_cons, Clause.rename, gather, ih]

/-- **Clauses get the same verdict under other names.** -/
theorem ofClauses_rename (clauses : List (Clause m ε V)) (environment : Scope V) :
    ofClauses (clauses.map (Clause.rename r)) (environment.rename r) =
      renameAnswer r (rename r) (ofClauses clauses environment) := by
  match clauses with
  | [] => rfl
  | .guard predicate :: rest => rfl
  | .generator pattern source :: rest =>
    have repeats : firstRepeat? [] ((pattern.rename r).names ++
        (rest.map (Clause.rename r)).flatMap Clause.boundNames) =
          (firstRepeat? [] (pattern.names ++ rest.flatMap Clause.boundNames)).map r := by
      rw [pattern.names_rename, flatMap_boundNames_map_rename, ← List.map_append]
      exact firstRepeat?_map r [] _
    cases found : firstRepeat? [] (pattern.names ++ rest.flatMap Clause.boundNames) with
    | some n =>
      rw [found] at repeats
      rw [ofClauses_of_firstRepeat found]
      exact ofClauses_of_firstRepeat repeats _
    | none =>
      rw [found] at repeats
      obtain ⟨distinct, accepted⟩ := exists_ofClauses_gather found source environment
      obtain ⟨distinct', accepted'⟩ := exists_ofClauses_gather repeats (source.rename r)
        (environment.rename r)
      rw [List.map_cons, Clause.rename, accepted, accepted']
      -- the proof that names are distinct mentions what is gathered, so it goes along
      revert distinct'
      rw [gather_map_rename]
      intro _ _
      rfl

/-! ### Compiling -/

theorem unresolved?_rename (environment : Scope V) (bound reads : List Name) :
    unresolved? (environment.rename r) (bound.map r) (reads.map r) =
      (unresolved? environment bound reads).map r := by
  rw [unresolved?, unresolved?, List.find?_map]
  congr 2
  funext n
  rw [Function.comp_apply, contains_map, Scope.contains_rename]

theorem checkReads_rename (environment : Scope V) (bound : List Name) (index : Nat)
    (reads : List Name) :
    checkReads (environment.rename r) (bound.map r) index (reads.map r) =
      renameAnswer r id (checkReads environment bound index reads) := by
  rw [checkReads, checkReads, unresolved?_rename]
  cases unresolved? environment bound reads with
  | none => rfl
  | some n => rfl

theorem checkClauses_rename (environment : Scope V) (final bound : List Name) (index : Nat)
    (clauses : List (Clause m ε V)) :
    checkClauses (environment.rename r) (final.map r) (bound.map r) index
        (clauses.map (Clause.rename r)) =
      renameAnswer r id (checkClauses environment final bound index clauses) := by
  induction clauses generalizing bound index with
  | nil => exact checkReads_rename r environment bound index final
  | cons c rest ih =>
    have tail := ih (bound ++ c.boundNames) (index + 1)
    rw [List.map_append, ← c.boundNames_rename] at tail
    rw [List.map_cons, checkClauses, checkClauses, c.reads_rename, checkReads_rename, tail]
    cases checkReads environment bound index c.reads with
    | error fault => rfl
    | ok u => rfl

theorem guardReads_rename (g : Generator m ε V) :
    (g.rename r).guardReads = g.guardReads.map r := by
  rw [Generator.guardReads, Generator.guardReads, Generator.rename, List.flatMap_map,
    List.map_flatMap]
  rfl

/-- Taking a pattern's names away from a list. -/
theorem filter_not_names_rename (p : Pattern) (names : List Name) :
    (names.map r).filter (fun n => !(p.rename r).names.contains n) =
      (names.filter fun n => !p.names.contains n).map r := by
  refine filter_map_congr r (fun n => ?_) names
  rw [p.names_rename, contains_map]

/-- What is needed is the same under other names, in the same order. -/
theorem toList_needed_rename (final : List Name) (g : Generator m ε V)
    (rest : List (Generator m ε V)) :
    (needed (final.map r) (g.rename r) (rest.map (Generator.rename r))).toList =
      (needed final g rest).toList.map r := by
  induction rest generalizing g with
  | nil =>
    rw [List.map_nil, toList_needed_nil, toList_needed_nil, guardReads_rename, ← List.map_append,
      eraseDups_map]
    exact filter_not_names_rename r g.pattern _
  | cons next rest ih =>
    have inner := ih next
    rw [List.map_cons, toList_needed_cons, toList_needed_cons, inner, guardReads_rename]
    show ((_ ++ next.source.reads.map r ++ _).eraseDups).filter _ = _
    rw [← List.map_append, ← List.map_append, eraseDups_map]
    exact filter_not_names_rename r g.pattern _

theorem guarded_rename (index : Nat) (guards : List (Expression m ε V Bool)) (node : Node m ε V) :
    guarded index (guards.map (Expression.rename r)) (node.rename r) =
      (guarded index guards node).rename r := by
  induction guards generalizing index with
  | nil => rfl
  | cons p guards ih => rw [List.map_cons, guarded, guarded, Node.rename, ih]

theorem stageOf_rename {needed needed' : NameSet} (same : needed'.toList = needed.toList.map r)
    (environment : Scope V) (depth : Nat) (before : List Name) (g : Generator m ε V)
    (last : Node m ε V) :
    stageOf (environment.rename r) depth (before.map r) (g.rename r) needed' (last.rename r) =
      (stageOf environment depth before g needed last).rename r := by
  have carried : (needed.toList.map r).filter (fun n => (before.map r).contains n) =
      (needed.toList.filter fun n => before.contains n).map r :=
    filter_map_congr r (fun n => contains_map r before n) _
  have lexical : (needed.toList.map r).filter (fun n => !(before.map r).contains n) =
      (needed.toList.filter fun n => !before.contains n).map r :=
    filter_map_congr r (fun n => by rw [contains_map]) _
  rw [stageOf, same, carried, lexical, ← Scope.project_rename]
  show Stage.mk _ (guarded 0 (g.guards.map (Expression.rename r)) (last.rename r)) = _
  rw [guarded_rename]
  rfl

/-- **A stage is the same under other names.** -/
theorem stage_rename (environment : Scope V) (final : Expression m ε V V) (depth : Nat)
    (before : List Name) (g : Generator m ε V) (rest : List (Generator m ε V)) :
    stage (environment.rename r) (final.rename r) depth (before.map r) (g.rename r)
        (rest.map (Generator.rename r)) =
      (stage environment final depth before g rest).rename r := by
  induction rest generalizing depth before g with
  | nil =>
    rw [List.map_nil, stage_nil, stage_nil]
    exact stageOf_rename r (toList_needed_rename r final.reads g []) environment depth before g
      (.map final)
  | cons next rest ih =>
    -- the names bound before the next stage are renamed one part at a time
    have inner := ih (depth + 1) (before ++ g.pattern.names) next
    rw [List.map_append, ← g.pattern.names_rename] at inner
    have needs := toList_needed_rename r final.reads g (next :: rest)
    rw [List.map_cons, stage_cons, stage_cons]
    refine Eq.trans ?_ (stageOf_rename r needs environment depth before g _)
    show stageOf _ _ _ _ _ (Node.flatMap
      (stage _ _ _ (before.map r ++ (g.pattern.rename r).names) _ _).toFrame
      (stage _ _ _ (before.map r ++ (g.pattern.rename r).names) _ _).node) = _
    rw [inner]
    rfl

/-- **Compiling under other names** gives the same chain, or the same fault, under other
names. -/
theorem compile_rename (s : Sequence m ε V) (final : Expression m ε V V) :
    (s.rename r).compile (final.rename r) = renameAnswer r (Chain.rename r) (s.compile final) := by
  have checked := checkClauses_rename r s.environment final.reads [] 0 s.clauses
  rw [← clauses_rename] at checked
  have root := stage_rename r s.environment final 0 [] s.first s.rest
  have entry := s.environment.project_rename r s.first.source.reads
  show (do checkClauses (s.environment.rename r) (final.reads.map r) [] 0 (s.rename r).clauses
           pure (Chain.mk (stage (s.environment.rename r) (final.rename r) 0 [] (s.first.rename r)
             (s.rest.map (Generator.rename r)))
             ((s.environment.rename r).project (s.first.source.reads.map r))) :
      Except Fault (Chain m ε V)) = _
  rw [← entry]
  rw [List.map_nil] at checked root
  rw [checked, root, compile]
  cases checkClauses s.environment final.reads [] 0 s.clauses with
  | error fault => rfl
  | ok u => rfl

end Sequence

/-! ### Running -/

theorem Frame.capture_rename (f : Frame m ε V) (outer : Scope V) :
    (f.rename r).capture (outer.rename r) = (f.capture outer).rename r := by
  rw [capture, capture, Scope.overlay_rename, Scope.project_rename]
  rfl

section Run

variable [Monad m] [LawfulMonad m] [OfFault ε] [Splittable V]

/-- What follows a match is the same under other names if it is the same in every scope
that the match can give. -/
theorem lift_enter_rename (f : Frame m ε V) (captured : Scope V) (element : V)
    {k k' : Scope V → ExceptT ε m β} (same : ∀ scope : Scope V, k' (scope.rename r) = k scope) :
    (Fault.lift ((f.rename r).enter (captured.rename r) element) >>= k' : ExceptT ε m β) =
      Fault.lift (f.enter captured element) >>= k := by
  have entered : (f.rename r).enter (captured.rename r) element =
      (f.enter captured element).map (Scope.rename r) :=
    Pattern.extend_rename r f.depth f.pattern element captured
  rw [entered]
  cases f.enter captured element with
  | ok scope => rw [Except.map, lift_ok_bind, lift_ok_bind, same]
  | error fault => exact lift_error_bind fault k' k

variable [Capable m ε V]

theorem Node.run_rename (handler : Handler m ε V) (node : Node m ε V) (f : Frame m ε V)
    (captured : Scope V) (v : V) :
    (node.rename r).run handler (f.rename r) (captured.rename r) v =
      node.run handler f captured v := by
  -- the operations are handed the same values; only the continuations could differ
  induction node generalizing f captured v with
  | map body =>
    rw [Node.rename, Node.run, Node.run]
    refine bind_congr fun ops => ?_
    congr 2
    funext element
    exact lift_enter_rename r f captured element fun scope => body.eval_rename r scope
  | flatMap next node ih =>
    rw [Node.rename, Node.run, Node.run]
    refine bind_congr fun ops => ?_
    congr 2
    funext element
    refine lift_enter_rename r f captured element fun scope => ?_
    rw [next.capture_rename]
    show (next.source.rename r).eval (scope.rename r) >>= _ = _
    rw [next.source.eval_rename]
    exact bind_congr fun inner => ih next (next.capture scope) inner
  | filter guard predicate node ih =>
    rw [Node.rename, Node.run, Node.run]
    refine bind_congr fun ops => ?_
    congr 1
    · congr 2
      funext element
      exact lift_enter_rename r f captured element fun scope => predicate.eval_rename r scope
    · funext kept
      exact ih f captured kept

/-- **A chain runs the same under other names**, with the same results, errors and effects,
whatever the handler and the operations do. -/
theorem Chain.evaluate_rename (handler : Handler m ε V) (c : Chain m ε V) :
    (c.rename r).evaluate handler = c.evaluate handler := by
  show (c.root.source.rename r).eval (c.entry.rename r) >>= _ = _
  rw [c.root.source.eval_rename]
  refine bind_congr fun v => ?_
  show (c.root.node.rename r).run handler (c.root.toFrame.rename r)
    ((c.root.toFrame.rename r).capture (c.entry.rename r)) v = _
  rw [c.root.toFrame.capture_rename, Node.run_rename]

end Run

/-! ### Counting -/

theorem Node.stages_rename (node : Node m ε V) :
    (node.rename r).stages = node.stages.map (Stage.rename r) := by
  induction node with
  | map body => rfl
  | flatMap next node ih => rw [Node.rename, stages, ih, stages]; rfl
  | filter guard predicate node ih => exact ih

theorem Chain.stages_rename (c : Chain m ε V) :
    (c.rename r).stages = c.stages.map (Stage.rename r) :=
  congrArg (c.root.rename r :: ·) (c.root.node.stages_rename r)

theorem Node.guardCount_rename (node : Node m ε V) :
    (node.rename r).guardCount = node.guardCount := by
  induction node with
  | map body => rfl
  | flatMap next node ih => exact ih
  | filter guard predicate node ih => exact congrArg (· + 1) ih

theorem Chain.compiledEvent_rename (c : Chain m ε V) :
    (c.rename r).compiledEvent = c.compiledEvent := by
  have generators : (c.rename r).generatorCount = c.generatorCount := by
    rw [generatorCount, stages_rename, List.length_map, generatorCount]
  have guards : (c.rename r).guardCount = c.guardCount := c.root.node.guardCount_rename r
  have entry : (c.rename r).entry.size = c.entry.size := List.length_map _
  rw [compiledEvent, compiledEvent, generators, guards, entry]

/-! ### All together -/

/-- **Names are only compared.** Clauses under other names get the verdict of the clauses
themselves: the same sequence under other names, or the same fault with its name renamed.
Compiling gives the same chain under other names, stage by stage and with everything in the
same order, and reports the same, or it gives the same fault with its name renamed. The two
chains run alike: under every handler and with whatever operations the values offer, they
give the same value or error and have the same effects. And where a closure looks a name up
under its new name, it finds what it would have found, or blames the new name. -/
theorem renaming_commutes [Monad m] [LawfulMonad m] [OfFault ε] [Splittable V] [Capable m ε V]
    (clauses : List (Clause m ε V)) (environment : Scope V) (final : Expression m ε V V) :
    Sequence.ofClauses (clauses.map (Clause.rename r)) (environment.rename r) =
        renameAnswer r (Sequence.rename r) (Sequence.ofClauses clauses environment) ∧
      (∀ s : Sequence m ε V, (s.rename r).compile (final.rename r) =
        renameAnswer r (Chain.rename r) (s.compile final)) ∧
      (∀ chain : Chain m ε V,
        (chain.rename r).stages = chain.stages.map (Stage.rename r) ∧
          (chain.rename r).compiledEvent = chain.compiledEvent ∧
          ∀ handler : Handler m ε V, (chain.rename r).evaluate handler = chain.evaluate handler) ∧
      ∀ (scope : Scope V) (n : Name),
        (scope.rename r).lookup (r n) = renameAnswer r id (scope.lookup n) := by
  refine ⟨Sequence.ofClauses_rename r clauses environment, ?_, ?_, ?_⟩
  · exact fun s => s.compile_rename r final
  · exact fun chain => ⟨chain.stages_rename r, chain.compiledEvent_rename r,
      fun handler => chain.evaluate_rename r handler⟩
  · exact fun scope n => scope.lookup_rename r n

/-- The renaming that exchanges `x` and `k`. -/
def Sample.exchange : Name ↪ Name := (Equiv.swap ⟨"x"⟩ ⟨"k"⟩).toEmbedding

/-- With `x` and `k` exchanged the inner stage of the sample carries `k` in the place of `x`,
and the result is the same. -/
theorem sample_renaming_commutes :
    ∃ chain renamed, Sample.sequence.compile Sample.final = .ok chain ∧
      (Sample.sequence.rename Sample.exchange).compile (Sample.final.rename Sample.exchange) =
        .ok renamed ∧
      chain.stages.map (fun st => st.carried) = [[], [⟨"x"⟩]] ∧
      renamed.stages.map (fun st => st.carried) = [[], [⟨"k"⟩]] ∧
      renamed.evaluate .direct = chain.evaluate .direct := by
  obtain ⟨-, compiled, alike, -⟩ := renaming_commutes Sample.exchange Sample.sequence.clauses
    Sample.sequence.environment Sample.final
  have plain : Sample.sequence.compile Sample.final = .ok _ := rfl
  have renamed := compiled Sample.sequence
  rw [plain] at renamed
  obtain ⟨stages, -, runs⟩ := alike _
  have carried : Sample.exchange ⟨"x"⟩ = ⟨"k"⟩ := Equiv.swap_apply_left _ _
  refine ⟨_, _, plain, renamed, rfl, ?_, runs .direct⟩
  rw [stages]
  show [[], [Sample.exchange ⟨"x"⟩]] = _
  rw [carried]

end Comprehension
