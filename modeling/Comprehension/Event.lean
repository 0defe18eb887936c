/-
Events: what the library reports about its own work.

Compiling reports the size of the chain. A traced handler reports each operation
before it is called, and once more if it fails. An event has a level, a message and
named fields; `Event.line` writes it on one line. Where events go is up to the
monad: an instance of `Journal` takes them down.
-/

import Comprehension.Capability

namespace Comprehension

/-- How much attention an event asks for. -/
inductive Level where
  | trace
  | debug
deriving DecidableEq

def Level.name : Level → String
  | .trace => "TRACE"
  | .debug => "DEBUG"

inductive Event where
  /-- A sequence was compiled, with this many generators and guards and this many
  bindings in the chain's entry scope. -/
  | compiled (generators guards entry : Nat)
  /-- An operation is about to be called; `exposed` says whether the value offers
  it. -/
  | dispatching (site : Site) (capability : Capability) (exposed : Bool)
  /-- The operation just called has failed. -/
  | failed (site : Site) (capability : Capability)
deriving DecidableEq

namespace Event

def level : Event → Level
  | .compiled _ _ _ => .debug
  | .dispatching _ _ _ => .trace
  | .failed _ _ => .debug

def message : Event → String
  | .compiled _ _ _ => "compiled clause sequence"
  | .dispatching _ _ _ => "dispatching capability"
  | .failed _ _ => "capability call failed"

/-- The guard of a site as a field value. -/
def guardText : Option Nat → String
  | none => "None"
  | some guard => s!"Some({guard})"

/-- The fields of an event, in order. -/
def fields : Event → List (String × String)
  | .compiled generators guards entry =>
      [("generators", toString generators), ("guards", toString guards),
        ("entry", toString entry)]
  | .dispatching site capability exposed =>
      [("depth", toString site.depth), ("guard", guardText site.guard),
        ("capability", capability.name), ("exposed", toString exposed)]
  | .failed site capability =>
      [("depth", toString site.depth), ("guard", guardText site.guard),
        ("capability", capability.name)]

/-- An event on one line: level, message, then each field as `key=value`. -/
def line (e : Event) : String :=
  " ".intercalate (e.level.name :: e.message :: e.fields.map fun f => f.1 ++ "=" ++ f.2)

end Event

/-- Monads that take down events. -/
class Journal (m : Type → Type) where
  record : Event → m Unit

end Comprehension
