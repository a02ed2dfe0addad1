import StreamLang.Engine.Basic
/-!
A pass of an engine. While it is open, events may come in and wait, and the pass may be asked to
abort. When the machine has ended, its record is committed if it gave a value within the budget, and
dropped otherwise; so is the record of a pass that is given up. The scopes that the pass made stay
only if it commits, as only then a value can refer to them.
-/
namespace StreamLang

structure Pass where
  /-- The engine, as it is until the pass has ended. -/
  engine : Engine
  setting : Setting
  machine : Machine
  /-- Whether the record has been committed or dropped. -/
  finished : Bool

namespace Terminal

def outcome : Terminal → Outcome
  | done _ => .done
  | exception _ => .exception
  | budgetExceeded => .budgetExceeded
  | aborted => .aborted

/-- What is told as the value of the root; giving up is a failure of the whole program. -/
def reported? (root : NodeId) (budget : Nat) : Terminal → Option Value
  | done v | exception v => some v
  | budgetExceeded =>
    some (.failure .nonTermination ("gave up after " ++ toString budget ++ " steps") root)
  | aborted => none

end Terminal

namespace Pass

/-- Opens a pass, unless the engine is stopped or refuses a program with a blocked node. -/
def start (e : Engine) : Except Error Pass := do
  if e.stopped then throw .stopped
  if e.config.conflictPolicy = .refuse then
    if let some i := e.program.analysis.blocking.head? then
      throw (.blockingConflict i (((e.program.tree.node? i).bind Node.blocked?).getD ""))
  let (snapshot, reactor) := e.reactor.beginPass e.program
  let setting : Setting :=
    { program := e.program
      cache := reactor.cache
      staleness := reactor.staleness
      globals := e.globals
      snapshot
      root := e.program.tree.root
      budget := e.config.stepBudget
      policy := e.config.unavailablePolicy }
  return ⟨{ e with reactor, abortRequested := false }, setting, .start e.scopes, false⟩

def steps (p : Pass) : Nat := p.machine.record.steps

def depth (p : Pass) : Nat := p.machine.depth

/-- Ends the pass: its record is taken out of the machine and leaves its traces in the engine. -/
def close (p : Pass) (settle : Engine → Record → Engine) : Pass :=
  let done := p.machine.record
  { p with
    engine := settle (p.engine.countEvaluations done) done
    machine := { p.machine with record := .empty }
    finished := true }

def commit (p : Pass) (e : Engine) (done : Record) : Engine :=
  { e with
    reactor := e.reactor.commit e.program.tree p.setting.snapshot done
    scopes := p.machine.scopes }

def drop (e : Engine) (done : Record) : Engine := { e with reactor := e.reactor.discard done }

def report (p : Pass) (t : Terminal) (done : Record) : Report :=
  { pass := p.setting.snapshot.pass
    outcome := t.outcome
    value := t.reported? p.setting.root p.setting.budget
    steps := done.steps
    evaluated := done.evaluated
    reused := done.reused
    degraded := done.degraded
    demands := done.demands }

/-- Ends a pass whose machine has come to an end. -/
def conclude (p : Pass) (t : Terminal) : Pass :=
  p.close fun e done =>
    let e := if t.value?.isSome then p.commit e done else drop e done
    e.announce (p.report t done)

/-- Gives up a pass that has not ended yet. -/
def abandon (p : Pass) : Pass := if p.finished then p else p.close drop

/-- Ends the pass if its machine has ended. -/
def settle (p : Pass) : Pass :=
  if p.finished then p
  else match p.machine.status with
    | .running => p
    | .ended t => p.conclude t
    | .broken _ => p.abandon

/-- What a tick tells that leaves the pass like this: how it has ended, if it has. -/
def result (p : Pass) : Except Error (Option Terminal) :=
  match p.machine.status with
  | .running => .ok none
  | .ended t => .ok (some t)
  | .broken fault => .error (.invariantViolation fault)

/-- What every tick tells from then on. A fault is told only once. -/
def ending (p : Pass) : Except Error (Option Terminal) :=
  match p.machine.terminal? with
  | some t => .ok (some t)
  | none => .error .aborted

def tick (p : Pass) : Pass :=
  { p with machine := p.machine.tick p.setting p.engine.abortRequested }.settle

/-- Makes a tick and tells how the pass has ended, if it has. -/
def poll (p : Pass) : Except Error (Option Terminal) × Pass :=
  if p.finished then (p.ending, p) else (p.tick.result, p.tick)

/-- Makes up to `n` ticks, no more than until one of them tells how the pass has ended. -/
def ticks : Nat → Pass → Except Error (Option Terminal) × Pass
  | 0, p => (.ok none, p)
  | n + 1, p =>
    match p.poll with
    | (.ok none, p) => ticks n p
    | (answer, p) => (answer, p)

/-- The depths after each of up to `n` ticks, and the pass after them. A pass that has ended still
answers one tick. -/
def depths : Nat → Pass → List Nat × Pass
  | 0, p => ([], p)
  | n + 1, p =>
    let p := p.tick
    if p.machine.isRunning then
      let (rest, q) := depths n p
      (p.depth :: rest, q)
    else ([p.depth], p)

/-- Runs to the end. -/
def toEnd (p : Pass) : Pass :=
  { p with machine := p.machine.finish p.setting p.engine.abortRequested }.settle

/-- Runs to the end and gives the value of the root, with the engine after the pass. -/
def run (p : Pass) : Except Error Value × Engine :=
  let told := if p.finished then p.ending else p.toEnd.result
  let p := p.toEnd
  let answer := match told with
    | .error e => .error e
    | .ok (some .aborted) => .error .aborted
    | .ok _ => match p.engine.latest with
      | some v => .ok v
      | none => .error (.invariantViolation .valueless)
  (answer, p.engine)

end Pass

/-- Runs a whole pass. -/
def Engine.evaluate (e : Engine) : Except Error Value × Engine :=
  match Pass.start e with
  | .ok p => p.run
  | .error fault => (.error fault, e)

end StreamLang
