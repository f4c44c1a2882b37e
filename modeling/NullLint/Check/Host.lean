import NullLint.Semantics.DefiniteAssignment
import NullLint.Semantics.Flow

/-!
# Hosts

A host answers questions about the nodes of a tree, which are named by their numbers. A run of
the checker keeps the history of what it did: the questions it asked, and the moments at which it
looked whether it should stop. What it sees at such a moment is a function of the history, so a
request to stop can arrive before the run, during any question, or between two of them.
-/

namespace NullLint

/-- What the checker wants to know about a program. -/
structure Host where
  /-- The static type of an expression. -/
  typeOf : Nat → Option TypeFacts
  /-- The symbol that a name refers to. -/
  symbolOf : Nat → Option Nat
  /-- Whether an expression inside a scope can be null. -/
  nullState : Nat → Option Nat → Verdict
  /-- What a region assigns and what flows into it. -/
  regionFlow : Nat → Option RegionFlow

/-- One thing that a run does. -/
inductive Event where
  | typeAsked (node : Nat)
  | symbolAsked (node : Nat)
  | flowAsked (node : Nat) (scope : Option Nat)
  | regionAsked (region : Nat)
  /-- The run looks whether it should stop. -/
  | polled
  deriving DecidableEq, Repr

/-- What a run has done so far, last event first. -/
abbrev History := List Event

/-- Whether a run is asked to stop, as seen after a history. -/
abbrev Signal := History → Bool

/-- The signal of a run that nobody stops. -/
def Signal.never : Signal := fun _ => false

/-- The signal of a run stopped before it begins. -/
def Signal.always : Signal := fun _ => true

/-- A step of a run: a result, and the history after it. -/
abbrev Checking := StateM History

namespace Checking

/-- Adds an event to the history and gives an answer. -/
def note {α : Type} (event : Event) (reply : α) : Checking α := fun history =>
  (reply, event :: history)

/-- Looks whether the run should stop. -/
def poll (signal : Signal) : Checking Bool := fun history => (signal history, .polled :: history)

/-- The result of a whole run. -/
def result {α : Type} (run : Checking α) : α := (run.run []).1

end Checking

namespace Host

def askType (h : Host) (node : Nat) : Checking (Option TypeFacts) :=
  .note (.typeAsked node) (h.typeOf node)

def askSymbol (h : Host) (node : Nat) : Checking (Option Nat) :=
  .note (.symbolAsked node) (h.symbolOf node)

def askFlow (h : Host) (node : Nat) (scope : Option Nat) : Checking Verdict :=
  .note (.flowAsked node scope) (h.nullState node scope)

def askRegion (h : Host) (region : Nat) : Checking (Option RegionFlow) :=
  .note (.regionAsked region) (h.regionFlow region)

end Host

namespace Model

/-- The node with a given number. -/
def node? (m : Model) (id : Nat) : Option Placed :=
  (m.root.bind fun root => root.path? id).bind List.head?

/-- The model of a file as a host. -/
def host (m : Model) : Host where
  typeOf id := (m.node? id).bind m.typeOf
  symbolOf id := (m.node? id).bind fun n =>
    if n.kind = .identifierName then m.symbolAt id else none
  nullState id _ := ((m.node? id).map m.nullState).getD .unknown
  regionFlow id := (m.node? id).bind m.regionFlow?

end Model

end NullLint
