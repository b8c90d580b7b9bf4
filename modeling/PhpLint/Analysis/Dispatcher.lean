import PhpLint.Analysis.Issue
import PhpLint.Analysis.Node
import PhpLint.Value.Entries

namespace PhpLint

-- What nodes can be handed to. It asks for kinds of nodes, runs on a node in a context and
-- tells whether it has reported something. After a run it may remember something.
class Handler (P : Type) (C : outParam Type) where
  kinds : P → List NodeKind
  run : P → Node → C → Bool × P × C

-- A pass looks at nodes of the kinds it asks for and tells its findings about each.
structure Pass where
  name : String
  kinds : List NodeKind
  inspect : Node → List Issue

namespace Pass

-- Whether a finding of the pass was new, and the issues after it.
def run (pass : Pass) (node : Node) (issues : Issues) : Bool × Issues :=
  (pass.inspect node).foldl
    (fun (reported, issues) issue => (reported || issues.isNew issue, issues.report issue))
    (false, issues)

-- A pass that tells which nodes it was handed, if a severity is given for that.
def watcher (name : String) (kinds : List NodeKind) (severity : Option Severity) : Pass where
  name
  kinds
  inspect node := severity.toList.map fun s => ⟨"seen." ++ name, s, "seen", node.location⟩

end Pass

-- Passes of the analysis remember nothing.
instance : Handler Pass Issues where
  kinds := Pass.kinds
  run pass node issues :=
    let (reported, issues) := pass.run node issues
    (reported, pass, issues)

-- The positions of the passes that serve a kind of nodes.
abbrev Routes := Entries NodeKind (List Nat)

def Routes.add (position : Nat) (routes : Routes) (kind : NodeKind) : Routes :=
  routes.put kind ((routes.get? kind).getD [] ++ [position])

-- Passes in the order in which they were registered, and where those for a kind stand.
structure Dispatcher (P : Type := Pass) where
  passes : List P := []
  routes : Routes := []

-- What comes of handing over a node: whether there is an entry for its kind, unless a
-- position was met at which no pass stands; the passes that ran, by position, each with
-- what it told; and the dispatcher and the context afterwards.
structure Dispatched (P C : Type) where
  answer : Except Nat Bool
  runs : List (Nat × Bool)
  dispatcher : Dispatcher P
  context : C

namespace Dispatcher

variable {P C : Type} [Handler P C]

def enter (d : Dispatcher P) (pass : P) (kinds : List NodeKind) : Dispatcher P where
  passes := d.passes ++ [pass]
  routes := kinds.foldl (Routes.add d.passes.length) d.routes

-- Registers a pass for the kinds it asks for, each of which counts once.
def add (d : Dispatcher P) (pass : P) : Dispatcher P :=
  d.enter pass (NodeKind.all.filter (· ∈ Handler.kinds pass))

-- Registers a pass for one kind, whatever it asks for.
def register (d : Dispatcher P) (kind : NodeKind) (pass : P) : Dispatcher P :=
  d.enter pass [kind]

def ofPasses (passes : List P) : Dispatcher P :=
  passes.foldl add {}

def isEmpty (d : Dispatcher P) : Bool :=
  d.passes.isEmpty

-- Runs the passes at the positions one after the other.
def runAt (node : Node) : List Nat → Dispatcher P → C → Dispatched P C
  | [], d, context => ⟨.ok true, [], d, context⟩
  | position :: rest, d, context =>
    match d.passes[position]? with
    | none => ⟨.error position, [], d, context⟩
    | some pass =>
      let (reported, pass, context) := Handler.run pass node context
      let later := runAt node rest { d with passes := d.passes.set position pass } context
      { later with runs := (position, reported) :: later.runs }

def dispatch (d : Dispatcher P) (node : Node) (context : C) : Dispatched P C :=
  match d.routes.get? node.kind with
  | none => ⟨.ok false, [], d, context⟩
  | some positions => runAt node positions d context

end Dispatcher

end PhpLint
