import StreamLang.Listeners
import StreamLang.Machine.Run
import StreamLang.Reactor
/-!
An engine holds one program with its streams, its committed values and those who listen, and runs
one pass over it at a time (`Pass`). Replacing the program or defining a global forgets all
committed values, as anything may depend on them.
-/
namespace StreamLang

inductive Outcome where
  | done
  | exception
  | budgetExceeded
  | aborted
  deriving DecidableEq, Repr

/-- What is told of a pass. -/
structure Report where
  pass : Nat
  outcome : Outcome
  /-- The value of the root, unless the pass was aborted. -/
  value : Option Value
  steps : Nat
  evaluated : Nat
  reused : Nat
  degraded : List String
  demands : List String
  deriving Repr

structure Engine where
  program : Program
  reactor : Reactor
  scopes : Scopes
  /-- The scope of names visible to every program. -/
  globals : ScopeId
  config : Config
  listeners : Listeners
  /-- What listeners have heard and not been asked about yet. -/
  heard : List (Nat × Report)
  abortRequested : Bool
  /-- The last value of the root. -/
  latest : Option Value
  lastReport : Option Report
  /-- How often each node of the present program was run. -/
  evaluations : NodeMap Nat
  stopped : Bool

namespace Engine

def load (t : Tree) (catalog : Catalog) (config : Config) : Engine :=
  let program := Program.ofTree t
  let (globals, scopes) := Scopes.empty.addRoot
  { program
    reactor := (Reactor.new catalog config).subscribeReaders program.analysis
    scopes
    globals
    config
    listeners := .empty
    heard := []
    abortRequested := false
    latest := none
    lastReport := none
    evaluations := ∅
    stopped := false }

/-- An engine for a program, if the configuration makes sense. -/
def new (t : Tree) (catalog : Catalog) (config : Config) : Except ConfigError Engine := do
  return load t catalog (← config.validate)

/-- Sends an event through the inbox, which tells by itself whether it is closed. -/
def send (e : Engine) (stream : String) (v : Value) : Except Error Engine := do
  return { e with reactor := ← e.reactor.send stream v }

def addEvent (e : Engine) (stream : String) (v : Value) : Except Error Engine :=
  if e.stopped then .error .stopped else e.send stream v

/-- The last committed value of a node. -/
def value? (e : Engine) (i : NodeId) : Option Value := e.reactor.cache.value? i

def evaluationCount (e : Engine) (i : NodeId) : Nat := (e.evaluations[i]?).getD 0

def eventLog (e : Engine) : EventLog := e.reactor.registry.eventLog

def requestAbort (e : Engine) : Engine := { e with abortRequested := true }

def stop (e : Engine) : Engine := { e with stopped := true, reactor := e.reactor.stop }

/-- Forgets committed values; the readers of a stopped engine stay unsubscribed. -/
def reset (e : Engine) : Engine :=
  let reactor := e.reactor.invalidate
  { e with
    reactor := if e.stopped then reactor else reactor.subscribeReaders e.program.analysis }

def replaceTree (e : Engine) (t : Tree) : Engine :=
  { e with program := .ofTree t, evaluations := ∅ }.reset

def defineGlobal (e : Engine) (name : String) (v : Value) : Engine :=
  { e with scopes := e.scopes.define e.globals name v }.reset

def setAvailable (e : Engine) (stream : String) (available : Bool) : Except Error Engine := do
  return { e with reactor := ← e.reactor.setAvailable e.program stream available }

def addListener (e : Engine) : Nat × Engine :=
  let (k, listeners) := e.listeners.add
  (k, { e with listeners })

def removeListener (e : Engine) (k : Nat) : Bool × Engine :=
  let (removed, listeners) := e.listeners.remove k
  (removed, { e with listeners })

/-- Hands out what was heard. -/
def takeHeard (e : Engine) : List (Nat × Report) × Engine := (e.heard, { e with heard := [] })

def countEvaluations (e : Engine) (done : Record) : Engine :=
  { e with
    evaluations := done.evaluations.toList.foldl
      (fun m (i, n) => m.insert i ((m[i]?).getD 0 + n)) e.evaluations }

/-- Remembers a report and tells it to all listeners, if there is a value to tell. -/
def announce (e : Engine) (report : Report) : Engine :=
  match report.value with
  | none => { e with lastReport := some report }
  | some v =>
    { e with
      latest := some v
      heard := e.heard ++ e.listeners.notices report
      lastReport := some report }

end Engine
end StreamLang
