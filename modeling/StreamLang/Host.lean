import StreamLang.Engine.Pass
/-!
An engine as a task among others, on one thread. Events are sent from outside at any time and wake
the task; when it runs, it answers all wakes so far by a single pass, and publishes the value of the
root. A clock is another task that sends the time since its own start, once at once and then with
every period; readings that were missed are skipped. Time is counted in whole milliseconds and moves
only when told to.
-/
namespace StreamLang

inductive Wake where
  | evaluate
  | shutdown
  deriving DecidableEq, Repr

structure Clock where
  period : Nat
  /-- When the clock first ran and when it is due; nothing before it has run. -/
  running : Option (Nat × Nat)
  deriving DecidableEq, Repr

/-- How many milliseconds late a reading may be before the ones it missed are skipped. -/
def Clock.tolerance : Nat := 5

/-- The longest period that a clock keeps to: thirty years of 365 days. -/
def Clock.longestPeriod : Nat := 946080000000

/-- When a clock is due next, after a reading at `now` that was due at `deadline`. -/
def Clock.next (period now deadline : Nat) : Nat :=
  if deadline + tolerance < now then now + period - (now - deadline) % period else deadline + period

/-- The reading of a clock after so many milliseconds, which are taken apart into seconds and
nanoseconds and put together again. -/
def Clock.reading (elapsed : Nat) : Value :=
  let seconds := Amount.ofNat (elapsed / 1000)
  let nanoseconds := Amount.ofNat (elapsed % 1000 * 1000000)
  .plain ((seconds + nanoseconds / Amount.ofNat 1000000000) * Amount.ofNat 1000)

structure Host where
  engine : Engine
  /-- Whether the task has made its first pass. -/
  begun : Bool
  /-- Whether the task has ended. -/
  ended : Bool
  wakes : List Wake
  published : Option Value
  clock : Option Clock
  now : Nat

namespace Host

def spawn (e : Engine) : Host := ⟨e, false, false, [], none, none, 0⟩

/-- Queues an event without waking the task. -/
def queue (h : Host) (stream : String) (v : Value) : Except Error Host := do
  return { h with engine := ← h.engine.send stream v }

def wake (h : Host) (w : Wake) : Host := { h with wakes := h.wakes ++ [w] }

/-- Queues an event and wakes the task. -/
def send (h : Host) (stream : String) (v : Value) : Except Error Host := do
  return (← h.queue stream v).wake .evaluate

/-- Runs a pass and publishes its value; a pass without one leaves the last value published. -/
def runPass (h : Host) : Host :=
  match h.engine.evaluate with
  | (.ok v, engine) => { h with engine, published := some v }
  | (.error _, engine) => { h with engine }

def finish (h : Host) : Host := { h with engine := h.engine.stop, ended := true }

/-- Answers all wakes: by one pass, unless the first one asks to shut down. -/
def answerWakes (h : Host) : Host :=
  match h.wakes with
  | [] => h
  | .shutdown :: _ => { h with wakes := [] }.finish
  | .evaluate :: rest =>
    let h := { h with wakes := [] }.runPass
    if rest.contains .shutdown then h.finish else h

/-- What the task does between two waits: first a pass of its own accord, then whatever the wakes
ask for. -/
def taskStep (h : Host) : Host :=
  if h.ended then h
  else if h.begun then h.answerWakes
  else { h with begun := true }.runPass

/-- Lets the engine run until it waits. The wakes are answered all at once, so that takes one step,
and another one if the task had not begun. -/
def runEngine (h : Host) : Host := h.taskStep.taskStep

/-- Makes up to `n` readings that are due. A reading that is refused ends the clock. -/
def readClock (period origin : Nat) : Nat → Nat → Host → Host
  | 0, deadline, h => { h with clock := some ⟨period, some (origin, deadline)⟩ }
  | n + 1, deadline, h =>
    if h.now < deadline then { h with clock := some ⟨period, some (origin, deadline)⟩ }
    else match h.send "time" (Clock.reading (h.now - origin)) with
      | .error _ => { h with clock := none }
      | .ok h => readClock period origin n (Clock.next period h.now deadline) h

/-- Lets the clock run until it waits. It starts with a reading; a clock without a period never
makes one. A reading within the tolerance brings the next one nearer by a period, any later one
leads beyond the present, so there are not many. -/
def runClock (h : Host) : Host :=
  match h.clock with
  | none => h
  | some ⟨0, _⟩ => { h with clock := none }
  | some ⟨period, none⟩ => readClock period h.now (Clock.tolerance + 2) h.now h
  | some ⟨period, some (origin, deadline)⟩ =>
    readClock period origin (Clock.tolerance + 2) deadline h

/-- Lets all tasks run until they wait, the engine before the clock. -/
def settle (h : Host) : Host := h.runEngine.runClock.runEngine

/-- Puts a new clock in place of any earlier one. -/
def driveClock (h : Host) (period : Nat) : Host :=
  { h with clock := some ⟨min period Clock.longestPeriod, none⟩ }

def advance (h : Host) (elapsed : Nat) : Host := { h with now := h.now + elapsed }

/-- Ends the clock and then the task. -/
def shutdown (h : Host) : Host := ({ h with clock := none }.wake .shutdown).runEngine

end Host
end StreamLang
