import StreamLang.Machine.Setting
import StreamLang.Scope
import StreamLang.Step.Generate
import StreamLang.Value.Operations
/-!
The machine that evaluates a node. It holds a stack of frames and runs one step of the topmost one
at a time. Entering a node puts a frame on the stack, unless the committed value of the node still
holds and can stand in for it; finishing a node takes its frame away and hands the value down. What
the machine runs against (`Setting`) never changes while it runs.
-/
namespace StreamLang

inductive Status where
  | running
  | ended (t : Terminal)
  | broken (f : Fault)
  deriving Repr

structure Machine where
  /-- The running frame first. -/
  frames : List Frame
  record : Record
  scopes : Scopes
  /-- Whether the root has been entered. -/
  started : Bool
  status : Status

namespace Machine

def start (scopes : Scopes) : Machine := ⟨[], .empty, scopes, false, .running⟩

def depth (m : Machine) : Nat := m.frames.length

def terminal? (m : Machine) : Option Terminal :=
  match m.status with
  | .ended t => some t
  | _ => none

def isRunning (m : Machine) : Bool :=
  match m.status with
  | .running => true
  | _ => false

/-- Ends the pass with the value of its root. -/
def conclude (m : Machine) (v : Value) : Machine := { m with status := .ended (.ofValue v) }

/-- Ends the pass without a value. -/
def cutOff (m : Machine) (t : Terminal) : Machine := { m with frames := [], status := .ended t }

def fail (m : Machine) (fault : Fault) : Machine := { m with status := .broken fault }

/-- Puts a frame on those below it. -/
def put (m : Machine) (f : Frame) (rest : List Frame) : Machine := { m with frames := f :: rest }

def setRecord (m : Machine) (record : Record) : Machine := { m with record }

/-- Opens an empty scope inside another. -/
def openScope (m : Machine) (parent : ScopeId) : ScopeId × Machine :=
  let ⟨frames, record, scopes, started, status⟩ := m
  let (scope, scopes) := scopes.addChild parent
  (scope, ⟨frames, record, scopes, started, status⟩)

/-- Binds names in a scope. -/
def define (m : Machine) (scope : ScopeId) (bindings : List (String × Value)) : Machine :=
  let ⟨frames, record, scopes, started, status⟩ := m
  ⟨frames, record, scopes.defineAll scope bindings, started, status⟩

/-- Puts a frame for a node on the stack, and crashes if there is no such node. -/
def call (s : Setting) (m : Machine) (i : NodeId) (scope : ScopeId) : Machine :=
  if s.program.tree.size ≤ i then m.fail (.outside i s.program.tree.size)
  else
    (m.setRecord (m.record.countEvaluation i)).put (.start i (s.program.tree.steps i) scope) m.frames

/-- Hands a value to the frame below, or ends the pass with it. -/
def handDown (m : Machine) (version : Option Nat) (v : Value) : Machine :=
  match m.frames with
  | [] => m.conclude v
  | f :: rest => m.put ((f.observe version).push v) rest

/-- Begins to evaluate a node, or hands down the committed value that stands in for it. -/
def enter (s : Setting) (m : Machine) (i : NodeId) (scope : ScopeId) : Machine :=
  match s.reuse? m.record i with
  | some v => (m.setRecord (s.noteReuse m.record i)).handDown none v
  | none => m.call s i scope

/-- Reads a stream from the snapshot for a node; gives the value, the version and the record. -/
def fetch (s : Setting) (r : Record) (i : NodeId) (stream : String) (mode : FetchMode) :
    Value × Option Nat × Record :=
  match s.snapshot.get? stream with
  | none =>
    (.failure .unknownName ("there is no stream called `" ++ stream ++ "`") i, none, r)
  | some e =>
    let r := { r with subscriptions := pushNew r.subscriptions (stream, i) }
    match mode with
    | .changed =>
      let r := if e.changed then { r with edgeTriggered := pushNew r.edgeTriggered i } else r
      (.boolean e.changed, some e.version, r)
    | .latest =>
      let r := if e.onDemand then { r with demands := pushNew r.demands stream } else r
      if e.degraded then
        let r := { r with degraded := pushNew r.degraded stream }
        match s.policy with
        | .degrade => (e.value, some e.version, r)
        | .exception =>
          (.failure .streamUnavailable ("stream `" ++ stream ++ "` is unavailable") i,
            some e.version, r)
      else (e.value, some e.version, r)

/-- What a call comes to: a value at once, or a body to be run in a new scope. -/
inductive Callee where
  | value (v : Value)
  | body (c : Closure)

/-- Only a function with the right number of parameters has a body to run. -/
def callee (node : NodeId) (v : Value) (count : Nat) : Callee :=
  match v with
  | .function c =>
    if c.parameters.length = count then .body c
    else
      .value (.mismatch node ("function expects " ++ toString c.parameters.length ++
        " inputs, got " ++ toString count))
  | .exception e => .value (.exception e)
  | other => .value (.mismatch node ("cannot call " ++ other.typeName))

/-- Calls a value with arguments, given in order, for the frame `f`. -/
def applyCallee (s : Setting) (m : Machine) (f : Frame) (rest : List Frame) (target : Value)
    (arguments : List Value) : Machine :=
  match callee f.node target arguments.length with
  | .value v => m.put (f.push v) rest
  | .body c =>
    if m.scopes.all.size ≤ c.scope then m.fail (.lostScope c.function)
    else
      let (scope, m) := (m.put f rest).openScope c.scope
      (m.define scope (c.parameters.zip arguments)).call s c.body scope

/-- Runs an operation of the frame `f`, which stands on `rest`. -/
def apply (s : Setting) (m : Machine) (f : Frame) (rest : List Frame) : Operation → Machine
  | .binary operator =>
    match f.values with
    | right :: left :: values =>
      m.put ({ f with values }.push (.binary operator left right f.node)) rest
    | _ => m.fail (.noValue f.node)
  | .unary operator =>
    match f.values with
    | operand :: values => m.put ({ f with values }.push (.unary operator operand f.node)) rest
    | [] => m.fail (.noValue f.node)
  | .lookup name =>
    m.put (f.push ((m.scopes.lookup f.scope name).getD
      (.failure .unknownName ("`" ++ name ++ "` is not defined") f.node))) rest
  | .property name =>
    match f.values with
    | subject :: values => m.put ({ f with values }.push (.property subject name f.node)) rest
    | [] => m.fail (.noValue f.node)
  | .makeList count =>
    if f.values.length < count then m.fail (.fewValues f.node count f.values.length)
    else m.put ((f.dropValues count).push (.list (f.lastValues count))) rest
  | .makeStruct names =>
    let count := names.length
    if f.values.length < count then m.fail (.fewValues f.node count f.values.length)
    else
      let fields := Assoc.ofList (names.zip (f.lastValues count))
      m.put ((f.dropValues count).push (.struct fields)) rest
  | .makeFunction function body parameters =>
    m.put (f.push (.function ⟨function, body, parameters, f.scope⟩)) rest
  | .call count =>
    if f.values.length < count then m.fail (.fewValues f.node count f.values.length)
    else match f.values.drop count with
      | target :: values => m.applyCallee s { f with values } rest target (f.lastValues count)
      | [] => m.fail (.noValue f.node)
  | .previous reaction =>
    m.put (f.push ((s.cache.value? reaction).getD
      (.failure .incompleteExpression "reaction has no previous value yet" f.node))) rest
  | .fail kind message => m.put (f.push (.failure kind message f.node)) rest

/-- What a condition makes of a frame: a jump if it is false, a result if it is no boolean. -/
def branch (f : Frame) (target : Nat) : Value → Frame
  | .boolean true => f
  | .boolean false => f.jump target
  | .exception e => f.completeWith (.exception e)
  | other =>
    f.completeWith
      (.mismatch f.node ("expected a boolean condition, got " ++ other.typeName))

/-- Runs a step of the frame `f`, which already points past it and stands on `rest`. -/
def execute (s : Setting) (m : Machine) (f : Frame) (rest : List Frame) : Step → Machine
  | .push v => m.put (f.push v) rest
  | .evaluate index =>
    match (s.program.tree.children f.node)[index]? with
    | none => m.fail (.noChild f.node index)
    | some i => (m.put f rest).enter s i f.scope
  | .apply o => m.apply s f rest o
  | .fetch stream mode =>
    let (v, version, record) := fetch s m.record f.node stream mode
    (m.setRecord record).put ((f.observe version).push v) rest
  | .define name =>
    match f.values with
    | v :: _ => (m.put f rest).define f.scope [(name, v)]
    | [] => m.fail (.noValue f.node)
  | .discard =>
    match f.values with
    | _ :: values => m.put { f with values } rest
    | [] => m.fail (.noValue f.node)
  | .enterScope =>
    let (scope, m) := m.openScope f.scope
    m.put { f with scope } rest
  | .jump target => m.put (f.jump target) rest
  | .jumpIfFalse target =>
    match f.values with
    | condition :: values => m.put (branch { f with values } target condition) rest
    | [] => m.fail (.noValue f.node)
  | .jumpIfInitialized target =>
    m.put (if s.cache.has f.node then f.jump target else f) rest
  | .finish =>
    match f.values with
    | v :: _ =>
      { m with frames := rest, record := s.noteFinish m.record f v }.handDown f.streamVersion v
    | [] => m.fail (.noValue f.node)

/-- Runs the next step of the topmost frame. -/
def step (s : Setting) (m : Machine) : Machine :=
  match m.frames with
  | [] => m.fail .noFrame
  | f :: rest =>
    match f.steps[f.cursor]? with
    | none => m.fail (.pastEnd f.node)
    | some step => m.execute s { f with cursor := f.cursor + 1 } rest step

end Machine
end StreamLang
