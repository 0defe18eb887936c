/-
Structural text of the library's types, for diagnostics.

Where rendering (`Pattern.render`, `Chain.render`, `Fault.message`) shows a thing as
a reader would write it, `inspect` spells out its structure. Closures have no
structure to show: an expression shows its reads and label only. The values in a
scope are shown by their `ToString` instance.
-/

import Comprehension.Chain
import Comprehension.Draft
import Comprehension.Handler
import Comprehension.Text.Structure

namespace Comprehension

open Text

def Name.inspect (n : Name) : String := application "Name" [quoted n.text]

def inspectNames (names : List Name) : String := sequence (names.map Name.inspect)

def Capability.inspect : Capability → String
  | .map => "Map"
  | .flatMap => "FlatMap"
  | .filter => "Filter"

def Site.inspect (s : Site) : String :=
  record "Site" [("depth", toString s.depth), ("guard", optional (s.guard.map toString))]

def Malformation.inspect : Malformation → String
  | .empty => "Empty"
  | .leadingGuard => "LeadingGuard"
  | .duplicateName name => application "DuplicateName" [name.inspect]
  | .unboundName name clause =>
      record "UnboundName" [("name", name.inspect), ("clause", toString clause)]

def Fault.inspect : Fault → String
  | .malformed reason => application "MalformedSequence" [reason.inspect]
  | .unsupportedValue depth => record "UnsupportedValue" [("depth", toString depth)]
  | .missingCapability capability depth =>
      record "MissingCapability"
        [("capability", capability.inspect), ("depth", toString depth)]
  | .invalidContinuation capability =>
      record "InvalidContinuation" [("capability", capability.inspect)]
  | .patternMismatch expected depth =>
      record "PatternMismatch" [("expected", toString expected), ("depth", toString depth)]
  | .unboundName name => application "UnboundName" [name.inspect]

mutual

def Pattern.inspect : Pattern → String
  | .name n => application "Bind" [n.inspect]
  | .wildcard => "Wildcard"
  | .tuple parts => application "Tuple" [sequence (Pattern.inspectAll parts)]

def Pattern.inspectAll : List Pattern → List String
  | [] => []
  | p :: ps => p.inspect :: Pattern.inspectAll ps

end

/-- The strategy of an evaluator, by the names under which it is reported. -/
def Strategy.inspect : Strategy → String
  | .direct => "DefaultDispatch"
  | .traced inner => record "TracingDispatch" [("inner", inner.inspect)]

/-- An evaluator is known by its handler. -/
def Strategy.inspectEvaluator (s : Strategy) : String :=
  record "Evaluator" [("handler", s.inspect)]

section Closures

variable {m : Type → Type} {ε V α : Type}

def Continuation.inspect : Continuation m ε V → String
  | .body _ => "Continuation::Body(<closure>)"
  | .predicate _ => "Continuation::Predicate(<closure>)"

def Operations.inspect (ops : Operations m ε V) : String :=
  record "CapabilitySet"
    [("exposed", sequence (ops.offered.map fun c => quoted c.name))]

def Expression.inspect (e : Expression m ε V α) : String :=
  openRecord "Expression"
    [("reads", inspectNames e.reads), ("label", optional (e.label.map quoted))]

def Clause.inspect : Clause m ε V → String
  | .generator pattern source =>
      record "Generator" [("pattern", pattern.inspect), ("source", source.inspect)]
  | .guard predicate => record "Guard" [("predicate", predicate.inspect)]

end Closures

section Values

variable {m : Type → Type} {ε V : Type} [ToString V]

def Scope.inspect (s : Scope V) : String :=
  record "Scope"
    [("entries", sequence (s.entries.map fun e => pair e.1.inspect (toString e.2)))]

def Draft.inspect (d : Draft m ε V) : String :=
  record "ClauseSequenceBuilder"
    [("clauses", sequence (d.clauses.map Clause.inspect)),
      ("environment", d.environment.inspect)]

/-- A stage, given the text of its nodes. -/
def Frame.inspect (f : Frame m ε V) (node : String) : String :=
  record "Stage"
    [("depth", toString f.depth), ("pattern", f.pattern.inspect),
      ("source", f.source.inspect), ("carried", inspectNames f.carried),
      ("lexical", f.lexical.inspect), ("node", node)]

def Node.inspect : Node m ε V → String
  | .map body => application "Map" [record "MapNode" [("body", body.inspect)]]
  | .flatMap next node =>
      application "FlatMap" [record "FlatMapNode" [("body", next.inspect node.inspect)]]
  | .filter guard predicate node =>
      application "Filter"
        [record "FilterNode"
          [("guard", toString guard), ("predicate", predicate.inspect),
            ("continuation", node.inspect)]]

def Stage.inspect (s : Stage m ε V) : String := Frame.inspect s.toFrame s.node.inspect

def Chain.inspect (c : Chain m ε V) : String :=
  record "CompiledChain" [("root", c.root.inspect), ("entry", c.entry.inspect)]

end Values

end Comprehension
