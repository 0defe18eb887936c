/-
Chains are written as their clauses desugar.

A chain is written by walking its stages and nodes. What comes out can be said without the
chain: the clauses are read from the first to the last, each guard becomes a `filter`, each
generator after the first a `flatMap` around all that follows, and the final expression a
`map`. Expressions without a label are called by the numbers of their clauses.

* `desugared`: the text of clauses, by recursion on the list.
* `render_stage`: a stage is written as the clauses from its generator on.
* `render_encloses`: where the text of a nested stage stands in that of the whole.
* `Balanced`, `enclosed_append`: texts whose parentheses match, and what a pair of them
  encloses.
* `compile_renders_desugaring`: all of this for compiled chains.
-/

import Comprehension.Chain.Rendering
import Comprehension.Proofs.ReadBack

namespace Comprehension

variable {m : Type → Type} {ε V : Type}

/-! ### The text of clauses -/

namespace Pattern

mutual

/-- A name as it is, a wildcard as `_`, and a tuple in parentheses. -/
def text : Pattern → String
  | .name n => n.text
  | .wildcard => "_"
  | .tuple parts => "(" ++ rowText parts ++ ")"

/-- The parts of a tuple, with commas between them. -/
def rowText : List Pattern → String
  | [] => ""
  | [p] => p.text
  | p :: q :: rest => p.text ++ ", " ++ rowText (q :: rest)

end

end Pattern

/-- A closure with the pattern for its argument. -/
def closureText (p : Pattern) (body : String) : String := "|" ++ p.text ++ "| " ++ body

/-- A call with a closure. -/
def callText (operation : String) (p : Pattern) (body : String) : String :=
  "." ++ operation ++ "(" ++ closureText p body ++ ")"

/-- What the source of generator `d` is called. -/
def sourceText (d : Nat) (source : Expression m ε V V) : String :=
  source.label.getD ("source" ++ toString d)

/-- What guard `j` of generator `d` is called. -/
def guardText (d j : Nat) (predicate : Expression m ε V Bool) : String :=
  predicate.label.getD ("guard" ++ toString d ++ "_" ++ toString j)

def resultText (final : Expression m ε V V) : String := final.label.getD "result"

/-- The calls on the source of generator `d` for the clauses that follow it, with `p` as
its pattern and `j` as the number of its next guard. -/
def callsText (final : Expression m ε V V) :
    Pattern → Nat → Nat → List (Clause m ε V) → String
  | p, _, _, [] => callText "map" p (resultText final)
  | p, d, j, .guard predicate :: rest =>
      callText "filter" p (guardText d j predicate) ++ callsText final p d (j + 1) rest
  | p, d, _, .generator q source :: rest =>
      callText "flatMap" p (sourceText (d + 1) source ++ callsText final q (d + 1) 0 rest)

/-- The text of clauses from generator `d` on. -/
def desugared (final : Expression m ε V V) (d : Nat) : List (Clause m ε V) → String
  | .generator p source :: rest => sourceText d source ++ callsText final p d 0 rest
  | _ => ""

/-! ### Writing patterns, calls and stages -/

mutual

theorem Pattern.render_eq_text (p : Pattern) : p.render = p.text := by
  match p with
  | .name n => rw [render, text]
  | .wildcard => rw [render, text]
  | .tuple parts => rw [render, text, Pattern.intercalate_renderAll]

theorem Pattern.intercalate_renderAll (parts : List Pattern) :
    ", ".intercalate (renderAll parts) = rowText parts := by
  match parts with
  | [] => rw [renderAll, rowText, String.intercalate_nil]
  | [p] => rw [renderAll, renderAll, rowText, String.intercalate_singleton, p.render_eq_text]
  | p :: q :: rest =>
    have tail := Pattern.intercalate_renderAll (q :: rest)
    rw [renderAll] at tail
    rw [renderAll, renderAll, rowText, String.intercalate_cons_cons, tail, p.render_eq_text]

end

theorem renderCall_eq (capability : Capability) (p : Pattern) (body : String) :
    renderCall capability p body = callText capability.name p body := by
  show "." ++ capability.name ++ "(|" ++ p.render ++ "| " ++ body ++ ")" = _
  apply String.toList_injective
  simp [callText, closureText, p.render_eq_text]

section Nodes

variable (f : Frame m ε V)

theorem Node.render_map (body : Expression m ε V V) :
    (Node.map body).render f = callText "map" f.pattern (resultText body) :=
  renderCall_eq .map f.pattern _

theorem Node.render_flatMap (next : Frame m ε V) (node : Node m ε V) :
    (Node.flatMap next node).render f =
      callText "flatMap" f.pattern (Stage.render { next with node }) :=
  renderCall_eq .flatMap f.pattern _

theorem Node.render_filter (guard : Nat) (predicate : Expression m ε V Bool) (node : Node m ε V) :
    (Node.filter guard predicate node).render f =
      callText "filter" f.pattern (guardText f.depth guard predicate) ++ node.render f :=
  congrArg (· ++ node.render f) (renderCall_eq .filter f.pattern _)

end Nodes

/-- The filters of a stage are written as its guards, before what follows them. -/
theorem render_guarded {final : Expression m ε V V} {f : Frame m ε V} {last : Node m ε V}
    {rest : List (Clause m ε V)}
    (ends : ∀ j, last.render f = callsText final f.pattern f.depth j rest)
    (guards : List (Expression m ε V Bool)) (j : Nat) :
    (Sequence.guarded j guards last).render f =
      callsText final f.pattern f.depth j (guards.map .guard ++ rest) := by
  induction guards generalizing j with
  | nil => exact ends j
  | cons predicate guards ih =>
    rw [Sequence.guarded, Node.render_filter, ih, List.map_cons, List.cons_append, callsText]

namespace Sequence

variable (environment : Scope V) (final : Expression m ε V V)

/-- A stage is written as the clauses of its generator, before those that its last node is
written as. -/
theorem render_stageOf {depth : Nat} {last : Node m ε V} {rest : List (Clause m ε V)}
    (ends : ∀ (f : Frame m ε V) (j : Nat), f.depth = depth →
      last.render f = callsText final f.pattern depth j rest)
    (before : List Name) (g : Generator m ε V) (needed : NameSet) :
    (stageOf environment depth before g needed last).render =
      desugared final depth (g.clauses ++ rest) := by
  have calls := render_guarded
    (fun j => ends (stageOf environment depth before g needed last).toFrame j rfl) g.guards 0
  rw [Generator.clauses, List.cons_append, desugared]
  exact congrArg (sourceText depth g.source ++ ·) calls

/-- **A stage is written as the clauses from its generator on.** -/
theorem render_stage (depth : Nat) (before : List Name) (g : Generator m ε V)
    (rest : List (Generator m ε V)) :
    (stage environment final depth before g rest).render =
      desugared final depth ((g :: rest).flatMap Generator.clauses) := by
  -- names play no part in the text, so what is bound before and what is needed may be anything
  induction rest generalizing depth before g with
  | nil =>
    rw [stage_nil, List.flatMap_cons]
    refine render_stageOf environment final (fun f j _ => ?_) before g _
    rw [Node.render_map, List.flatMap_nil, callsText]
  | cons next rest ih =>
    have inner := ih (depth + 1) (before ++ g.pattern.names) next
    rw [stage_cons, List.flatMap_cons]
    refine render_stageOf environment final (fun f j _ => ?_) before g _
    rw [Node.render_flatMap, inner, List.flatMap_cons, Generator.clauses, List.cons_append,
      callsText, desugared]

end Sequence

/-! ### Nested stages -/

/-- So many closing parentheses. -/
def closingParens (k : Nat) : String := String.ofList (List.replicate k ')')

theorem closingParens_succ (k : Nat) : closingParens k ++ ")" = closingParens (k + 1) := by
  apply String.toList_injective
  simp [closingParens, List.replicate_succ']

/-- **Where a nested stage is written**: inside the `flatMap` of the stage around it, which
is closed again after it, as are the calls further out. -/
theorem Node.render_encloses (node : Node m ε V) (f : Frame m ε V) {d : Nat} {next : Stage m ε V}
    {p : Pattern} (nested : node.stages[d]? = some next)
    (around : (f.pattern :: node.stages.map fun st => st.pattern)[d]? = some p) :
    ∃ opening, node.render f =
      opening ++ ".flatMap(" ++ closureText p next.render ++ ")" ++ closingParens d := by
  induction node generalizing f d with
  | map body => simp [Node.stages] at nested
  | flatMap inner node ih =>
    cases d with
    | zero =>
      obtain rfl : f.pattern = p := Option.some.inj around
      obtain rfl : { inner with node } = next := Option.some.inj nested
      refine ⟨"", ?_⟩
      rw [Node.render_flatMap, callText]
      simp [closingParens]
    | succ d =>
      -- this call is around the one that is asked for, so it is closed after it
      obtain ⟨opening, written⟩ := ih inner nested around
      refine ⟨".flatMap(" ++ closureText f.pattern (inner.renderSource ++ opening), ?_⟩
      rw [Node.render_flatMap, Stage.render, written, ← closingParens_succ, callText]
      simp [closureText, String.append_assoc]
  | filter guard predicate node ih =>
    obtain ⟨opening, written⟩ := ih f nested around
    refine ⟨callText "filter" f.pattern (guardText f.depth guard predicate) ++ opening, ?_⟩
    rw [Node.render_filter, written]
    simp only [String.append_assoc]

theorem Chain.render_encloses (chain : Chain m ε V) {d : Nat} {st next : Stage m ε V}
    (around : chain.stages[d]? = some st) (nested : chain.stages[d + 1]? = some next) :
    ∃ opening, chain.render =
      opening ++ ".flatMap(" ++ closureText st.pattern next.render ++ ")" ++ closingParens d := by
  have pattern : (chain.stages.map fun st => st.pattern)[d]? = some st.pattern := by
    rw [List.getElem?_map, around]
    rfl
  obtain ⟨opening, written⟩ := chain.root.node.render_encloses chain.root.toFrame nested pattern
  refine ⟨chain.root.renderSource ++ opening, ?_⟩
  rw [Chain.render, Stage.render, written]
  simp only [String.append_assoc]

/-! ### Parentheses -/

/-- A text whose parentheses match. -/
inductive Balanced : List Char → Prop where
  | nil : Balanced []
  | char {c : Char} {cs : List Char} : c ≠ '(' → c ≠ ')' → Balanced cs → Balanced (c :: cs)
  | pair {inside cs : List Char} : Balanced inside → Balanced cs →
      Balanced ('(' :: (inside ++ ')' :: cs))

theorem Balanced.append {cs ds : List Char} (first : Balanced cs) (second : Balanced ds) :
    Balanced (cs ++ ds) := by
  induction first with
  | nil => exact second
  | char notOpen notClose _ ih => exact .char notOpen notClose ih
  | pair inner _ _ ih =>
    rw [List.cons_append, List.append_assoc]
    exact .pair inner ih

/-- What stands before the parenthesis that closes one opened before the text, with `depth`
pairs to be closed first. -/
def upToClosing : Nat → List Char → List Char
  | _, [] => []
  | depth, '(' :: cs => '(' :: upToClosing (depth + 1) cs
  | 0, ')' :: _ => []
  | depth + 1, ')' :: cs => ')' :: upToClosing depth cs
  | depth, c :: cs => c :: upToClosing depth cs

/-- A text whose parentheses match is passed over. -/
theorem Balanced.upToClosing_append {cs : List Char} (balanced : Balanced cs) (depth : Nat)
    (rest : List Char) : upToClosing depth (cs ++ rest) = cs ++ upToClosing depth rest := by
  induction balanced generalizing depth rest with
  | nil => rfl
  | char notOpen notClose _ ih =>
    rw [List.cons_append, List.cons_append, upToClosing, ih]
    -- what is left says that the other equations of `upToClosing` do not apply
    · exact notOpen
    · exact fun _ same => absurd same notClose
    · exact fun _ _ same => absurd same notClose
  | pair _ _ ihInside ih =>
    simp only [List.cons_append, List.append_assoc, upToClosing, ihInside, ih]

/-- What a parenthesis in front of the text encloses, up to the one that closes it. -/
def enclosed (text : String) : String := String.ofList (upToClosing 0 text.toList)

theorem enclosed_append {text : String} (balanced : Balanced text.toList) (rest : String) :
    enclosed (text ++ ")" ++ rest) = text := by
  apply String.toList_injective
  rw [enclosed, String.toList_ofList, String.toList_append, String.toList_append,
    List.append_assoc, balanced.upToClosing_append]
  simp [upToClosing]

/-- A text without parentheses. -/
def NoParens (text : String) : Prop := '(' ∉ text.toList ∧ ')' ∉ text.toList

instance (text : String) : Decidable (NoParens text) :=
  inferInstanceAs (Decidable ('(' ∉ text.toList ∧ ')' ∉ text.toList))

theorem balanced_of_not_mem {cs : List Char} (notOpen : '(' ∉ cs) (notClose : ')' ∉ cs) :
    Balanced cs := by
  induction cs with
  | nil => exact .nil
  | cons c cs ih =>
    rw [List.mem_cons, not_or] at notOpen notClose
    exact .char (Ne.symm notOpen.1) (Ne.symm notClose.1) (ih notOpen.2 notClose.2)

theorem NoParens.balanced {text : String} (plain : NoParens text) : Balanced text.toList :=
  balanced_of_not_mem plain.1 plain.2

theorem NoParens.append {text text' : String} (plain : NoParens text) (plain' : NoParens text') :
    NoParens (text ++ text') := by
  rw [NoParens, String.toList_append, List.mem_append, List.mem_append, not_or, not_or]
  exact ⟨⟨plain.1, plain'.1⟩, plain.2, plain'.2⟩

/-- Numbers are written in digits. -/
theorem noParens_toString (d : Nat) : NoParens (toString d) := by
  have digit : ∀ c ∈ (toString d).toList, c.isDigit := by
    intro c hc
    rw [Nat.toString_eq_ofList_toDigits, String.toList_ofList] at hc
    exact Nat.isDigit_of_mem_toDigits (by decide) (by decide) hc
  exact ⟨fun mem => absurd (digit _ mem) (by decide), fun mem => absurd (digit _ mem) (by decide)⟩

theorem noParens_getD {label : Option String} {standIn : String}
    (plain : ∀ text ∈ label, NoParens text) (standsIn : NoParens standIn) :
    NoParens (label.getD standIn) := by
  cases label with
  | none => exact standsIn
  | some text => exact plain text rfl

theorem noParens_sourceText {source : Expression m ε V V}
    (plain : ∀ text ∈ source.label, NoParens text) (d : Nat) : NoParens (sourceText d source) :=
  noParens_getD plain (.append (by decide) (noParens_toString d))

theorem noParens_guardText {predicate : Expression m ε V Bool}
    (plain : ∀ text ∈ predicate.label, NoParens text) (d j : Nat) :
    NoParens (guardText d j predicate) :=
  noParens_getD plain (.append (.append (.append (by decide) (noParens_toString d)) (by decide))
    (noParens_toString j))

mutual

/-- The parentheses of a pattern are those of its tuples. -/
theorem Pattern.balanced_text {p : Pattern} (plain : ∀ n ∈ p.names, NoParens n.text) :
    Balanced p.text.toList := by
  match p with
  | .name n =>
    rw [text]
    exact (plain n (by simp [names])).balanced
  | .wildcard => exact balanced_of_not_mem (by decide) (by decide)
  | .tuple parts =>
    rw [names] at plain
    have row := Pattern.balanced_rowText plain
    simp only [text, String.toList_append]
    exact .pair row .nil

theorem Pattern.balanced_rowText {parts : List Pattern}
    (plain : ∀ n ∈ namesOfAll parts, NoParens n.text) : Balanced (rowText parts).toList := by
  match parts with
  | [] => exact .nil
  | [p] =>
    rw [rowText]
    exact Pattern.balanced_text fun n hn => plain n (by simp [namesOfAll, hn])
  | p :: q :: rest =>
    rw [namesOfAll] at plain
    have head := Pattern.balanced_text fun n hn => plain n (List.mem_append_left _ hn)
    have tail := Pattern.balanced_rowText fun n hn => plain n (List.mem_append_right _ hn)
    rw [rowText, String.toList_append, String.toList_append]
    exact (head.append (balanced_of_not_mem (by decide) (by decide))).append tail

end

theorem balanced_closureText {p : Pattern} {body : String} (pattern : Balanced p.text.toList)
    (inside : Balanced body.toList) : Balanced (closureText p body).toList := by
  simp only [closureText, String.toList_append]
  refine Balanced.append (.append (.append ?_ pattern) ?_) inside
  · exact balanced_of_not_mem (by decide) (by decide)
  · exact balanced_of_not_mem (by decide) (by decide)

theorem balanced_callText {operation : String} {p : Pattern} {body : String}
    (plain : NoParens operation) (pattern : Balanced p.text.toList)
    (inside : Balanced body.toList) : Balanced (callText operation p body).toList := by
  have closure := balanced_closureText pattern inside
  simp only [callText, String.toList_append, List.append_assoc]
  refine Balanced.append (balanced_of_not_mem (by decide) (by decide)) (plain.balanced.append ?_)
  exact .pair closure .nil

/-- The label of the clause's expression. -/
def Clause.label? : Clause m ε V → Option String
  | .generator _ source => source.label
  | .guard predicate => predicate.label

/-- No label and no name of a comprehension has a parenthesis in it. -/
structure PlainlyNamed (final : Expression m ε V V) (clauses : List (Clause m ε V)) : Prop where
  final : ∀ text ∈ final.label, NoParens text
  label : ∀ c ∈ clauses, ∀ text ∈ c.label?, NoParens text
  name : ∀ c ∈ clauses, ∀ n ∈ c.boundNames, NoParens n.text

section Plain

variable {final : Expression m ε V V}

theorem PlainlyNamed.tail {c : Clause m ε V} {rest : List (Clause m ε V)}
    (plain : PlainlyNamed final (c :: rest)) : PlainlyNamed final rest where
  final := plain.final
  label c hc := plain.label c (List.mem_cons_of_mem _ hc)
  name c hc := plain.name c (List.mem_cons_of_mem _ hc)

theorem PlainlyNamed.drop {before rest : List (Clause m ε V)}
    (plain : PlainlyNamed final (before ++ rest)) : PlainlyNamed final rest := by
  induction before with
  | nil => exact plain
  | cons c before ih => exact ih plain.tail

theorem balanced_callsText {p : Pattern} {clauses : List (Clause m ε V)}
    (pattern : Balanced p.text.toList) (plain : PlainlyNamed final clauses) (d j : Nat) :
    Balanced (callsText final p d j clauses).toList := by
  induction clauses generalizing p d j with
  | nil =>
    have result : NoParens (resultText final) := noParens_getD plain.final (by decide)
    exact balanced_callText (by decide) pattern result.balanced
  | cons c rest ih =>
    have label := plain.label c List.mem_cons_self
    cases c with
    | guard predicate =>
      rw [callsText, String.toList_append]
      refine .append (balanced_callText (by decide) pattern ?_) (ih pattern plain.tail d (j + 1))
      exact (noParens_guardText label d j).balanced
    | generator q source =>
      have pattern' : Balanced q.text.toList :=
        Pattern.balanced_text (plain.name _ List.mem_cons_self)
      rw [callsText]
      refine balanced_callText (by decide) pattern ?_
      rw [String.toList_append]
      exact (noParens_sourceText label (d + 1)).balanced.append (ih pattern' plain.tail (d + 1) 0)

/-- **The text of plainly named clauses is balanced.** -/
theorem balanced_desugared {clauses : List (Clause m ε V)} (plain : PlainlyNamed final clauses)
    (d : Nat) : Balanced (desugared final d clauses).toList := by
  match clauses with
  | [] => exact .nil
  | .guard _ :: _ => exact .nil
  | .generator p source :: rest =>
    have label := plain.label _ List.mem_cons_self
    have pattern : Balanced p.text.toList :=
      Pattern.balanced_text (plain.name _ List.mem_cons_self)
    rw [desugared, String.toList_append]
    exact (noParens_sourceText label d).balanced.append
      (balanced_callsText pattern plain.tail d 0)

end Plain

/-! ### Compiled chains -/

/-- Every stage of a compiled chain is that of a generator. -/
theorem exists_split_of_stage {s : Sequence m ε V} {final : Expression m ε V V}
    {chain : Chain m ε V} (compiled : s.compile final = .ok chain) {d : Nat} {st : Stage m ε V}
    (found : chain.stages[d]? = some st) :
    ∃ before g rest, s.generators = before ++ g :: rest ∧ before.length = d ∧
      st = Sequence.stage s.environment final before.length (boundBy before) g rest := by
  have bound : d < s.generators.length := by
    rw [← length_stages_of_compile compiled]
    exact (List.getElem?_eq_some_iff.mp found).1
  obtain ⟨before, rest, split, rfl⟩ := exists_split_of_getElem? (List.getElem?_eq_getElem bound)
  refine ⟨before, _, rest, split, rfl, ?_⟩
  rw [stage_at compiled split] at found
  exact (Option.some.inj found).symm

/-- **A chain is written as its clauses desugar.** Its text is that of the clauses, and the
text of each stage is that of the clauses from its generator on. In the text of the chain a
nested stage stands inside the `flatMap` of the stage around it. If no label and no name has
a parenthesis in it, then the parentheses of the text match, and what that `flatMap`
encloses is the closure over the nested stage, no more and no less. -/
theorem compile_renders_desugaring {clauses : List (Clause m ε V)} {environment : Scope V}
    {s : Sequence m ε V} {final : Expression m ε V V} {chain : Chain m ε V}
    (accepted : Sequence.ofClauses clauses environment = .ok s)
    (compiled : s.compile final = .ok chain) :
    chain.render = desugared final 0 clauses ∧
      (∀ before g rest, s.generators = before ++ g :: rest →
        ∃ st, chain.stages[before.length]? = some st ∧
          st.render = desugared final before.length ((g :: rest).flatMap Generator.clauses)) ∧
      (∀ d st next, chain.stages[d]? = some st → chain.stages[d + 1]? = some next →
        ∃ opening, chain.render =
            opening ++ ".flatMap(" ++ closureText st.pattern next.render ++ ")" ++ closingParens d ∧
          (PlainlyNamed final clauses →
            enclosed (closureText st.pattern next.render ++ ")" ++ closingParens d) =
              closureText st.pattern next.render)) ∧
      (PlainlyNamed final clauses → Balanced chain.render.toList) := by
  obtain ⟨rfl, -⟩ := of_ofClauses accepted
  have whole : chain.render = desugared final 0 s.clauses := by
    rw [Chain.render, root_of_compile compiled, Sequence.render_stage]
    rfl
  have plainFrom {before rest : List (Generator m ε V)} (split : s.generators = before ++ rest)
      (plain : PlainlyNamed final s.clauses) :
      PlainlyNamed final (rest.flatMap Generator.clauses) := by
    rw [Sequence.clauses, split, List.flatMap_append] at plain
    exact plain.drop
  refine ⟨whole, ?_, ?_, ?_⟩
  · intro before g rest split
    exact ⟨_, stage_at compiled split, Sequence.render_stage ..⟩
  · intro d st next around nested
    obtain ⟨opening, written⟩ := chain.render_encloses around nested
    refine ⟨opening, written, fun plain => enclosed_append ?_ _⟩
    obtain ⟨before, g, rest, split, -, rfl⟩ := exists_split_of_stage compiled around
    obtain ⟨before', g', rest', split', -, rfl⟩ := exists_split_of_stage compiled nested
    refine balanced_closureText ?_ ?_
    · rw [Sequence.pattern_stage]
      exact Pattern.balanced_text
        ((plainFrom split plain).name (.generator g.pattern g.source) List.mem_cons_self)
    · rw [Sequence.render_stage]
      exact balanced_desugared (plainFrom split' plain) _
  · intro plain
    rw [whole]
    exact balanced_desugared plain 0

theorem sample_renders_desugaring :
    Sequence.ofClauses Sample.sequence.clauses Sample.sequence.environment =
        .ok Sample.sequence ∧
      PlainlyNamed Sample.final Sample.sequence.clauses ∧
      ∃ chain, Sample.sequence.compile Sample.final = .ok chain ∧
        chain.render = "xs.filter(|x| guard0_0).flatMap(|x| pairs.filter(|(y, k)| guard1_0)" ++
          ".filter(|(y, k)| guard1_1).map(|(y, k)| result))" ∧
        Balanced chain.render.toList := by
  have accepted : Sequence.ofClauses Sample.sequence.clauses Sample.sequence.environment =
    .ok Sample.sequence := rfl
  have plain : PlainlyNamed Sample.final Sample.sequence.clauses :=
    ⟨by decide, by decide, by decide⟩
  obtain ⟨text, -, -, balanced⟩ := compile_renders_desugaring accepted
    (rfl : Sample.sequence.compile Sample.final = .ok _)
  exact ⟨accepted, plain, _, rfl, text.trans rfl, balanced plain⟩

end Comprehension
