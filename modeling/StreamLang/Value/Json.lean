import StreamLang.Value.Basic
import StreamLang.Json.Reader
import StreamLang.Json.Writer
/-!
Values as JSON: an object with a `type` and a `value`, in either order when read. Functions have no
text. Of the other fields of an object none is read, and they may hold parts without a value. A
`value` that stands before its `type` is kept aside until then; it has to be readable throughout,
and choices inside it may be written in one more way.
-/
namespace StreamLang

namespace ExceptionKind

def name : ExceptionKind → String
  | compileTimeConflict => "compile_time_conflict"
  | unknownName => "unknown_name"
  | runtimeTypeMismatch => "runtime_type_mismatch"
  | nonTermination => "non_termination"
  | streamUnavailable => "stream_unavailable"
  | incompleteExpression => "incomplete_expression"

def all : List ExceptionKind :=
  [compileTimeConflict, unknownName, runtimeTypeMismatch, nonTermination, streamUnavailable,
    incompleteExpression]

def ofName? (s : String) : Option ExceptionKind := all.find? (·.name == s)

theorem ofName?_name (k : ExceptionKind) : ofName? k.name = some k := by cases k <;> rfl

end ExceptionKind

namespace Number

def ofJson? (j : Json) : Option Number := do
  let fields ← j.object?
  guard (Json.distinct ["amount", "unit"] fields)
  let amount ← (Json.field? "amount" fields).bind Json.amount?
  let unit ← Json.nullable? Json.text? (Json.field? "unit" fields)
  return ⟨amount, unit⟩

def toJson (n : Number) : Json :=
  .object (("amount", .real n.amount) :: match n.unit with
    | none => []
    | some unit => [("unit", .text unit)])

end Number

namespace Exception

/-- Node numbers have thirty-two bits. -/
def nodeOfJson? (j : Json) : Option NodeId := do
  let n ← j.natural?
  guard (n < 0x100000000)
  return n

def ofJson? (kept : Bool) (j : Json) : Option Exception := do
  let fields ← j.object?
  guard (Json.distinct ["kind", "message", "node"] fields)
  let kind ← (Json.field? "kind" fields).bind (Json.choice? kept)
  let message ← (Json.field? "message" fields).bind Json.text?
  let node ← Json.nullable? nodeOfJson? (Json.field? "node" fields)
  return ⟨← ExceptionKind.ofName? kind, message, node⟩

def toJson (e : Exception) : Json :=
  .object [("kind", .text e.kind.name), ("message", .text e.message),
    ("node", (e.node.map .natural).getD .null)]

end Exception

namespace Value

/-- What a type makes of its content. -/
def ofContent? (kept : Bool) (read : Json → Option Value) (type : String) (content : Json) :
    Option Value :=
  match type with
  | "number" => (Number.ofJson? content).map number
  | "text" => content.text?.map text
  | "boolean" => content.boolean?.map boolean
  | "list" => (content.array?.bind (·.mapM read)).map list
  | "structure" => do
    let fields ← content.object?
    let pairs ← fields.mapM fun (name, j) => (read j).map (name, ·)
    return struct (Assoc.ofList pairs)
  | "exception" => (Exception.ofJson? kept content).map exception
  | _ => none

/-- Whether the type of an object is told before its value. -/
def typeFirst (fields : List (String × Json)) : Bool :=
  (fields.find? fun f => f.1 == "type" || f.1 == "value").any (·.1 == "type")

/-- Reads values nested up to a bound, kept aside or not. -/
def readWithin : Nat → Bool → Json → Option Value
  | 0, _, _ => none
  | bound + 1, kept, j => do
    let fields ← j.object?
    guard (Json.distinct ["type", "value"] fields)
    let type ← (Json.field? "type" fields).bind (Json.choice? kept)
    let content ← Json.field? "value" fields
    guard (kept || typeFirst fields || content.readable)
    let kept := kept || !typeFirst fields
    ofContent? kept (readWithin bound kept) type content

def ofJson? (j : Json) : Option Value := readWithin (j.nesting + 1) false j

def ofText? (s : String) : Option Value := (Json.read Json.standardAllowance s).bind ofJson?

def typed (type : String) (content : Json) : Json :=
  .object [("type", .text type), ("value", content)]

mutual
def toJson? : Value → Option Json
  | number n => some (typed "number" n.toJson)
  | text s => some (typed "text" (.text s))
  | boolean b => some (typed "boolean" (.boolean b))
  | list items => (toJsonItems? items).map fun js => typed "list" (.array js)
  | struct fields => (toJsonFields? fields).map fun fs => typed "structure" (.object fs)
  | function _ => none
  | exception e => some (typed "exception" e.toJson)

def toJsonItems? : List Value → Option (List Json)
  | [] => some []
  | v :: rest => do return (← v.toJson?) :: (← toJsonItems? rest)

def toJsonFields? : List (String × Value) → Option (List (String × Json))
  | [] => some []
  | (name, v) :: rest => do return (name, ← v.toJson?) :: (← toJsonFields? rest)
end

/-- The text of a value that holds no function. -/
def toText? (v : Value) : Option String := v.toJson?.map Json.write

end Value
end StreamLang
