import StreamLang.MessagePack.Reader
import StreamLang.MessagePack.Writer
import StreamLang.Stream.EventLog
import StreamLang.Value.Json
/-!
Values and event logs in MessagePack: maps with the same field names as in JSON. Functions cannot be
encoded. A number leaves out the unit that it does not have; a failure without a node says so. A
`value` that stands before its `type` is kept aside until then.
-/
namespace StreamLang

namespace Number

def toItem (n : Number) : Item :=
  .map ((.text "amount", .real n.amount) :: match n.unit with
    | none => []
    | some unit => [(.text "unit", .text unit)])

def ofItem? (a : Item.Access) (i : Item) : Option Number := do
  let (_, fields) ← i.record? a ["amount", "unit"]
  let amount ← (Item.field? "amount" fields).bind Item.amount?
  let unit ← Item.nullable? Item.text? (Item.field? "unit" fields)
  return ⟨amount, unit⟩

end Number

namespace Exception

def toItem (e : Exception) : Item :=
  .map [(.text "kind", .text e.kind.name), (.text "message", .text e.message),
    (.text "node", (e.node.map .ofNat).getD .nil)]

def kindOfItem? (a : Item.Access) (i : Item) : Option ExceptionKind :=
  (i.choice? a (ExceptionKind.all.map (·.name))).bind ExceptionKind.ofName?

/-- Node numbers have thirty-two bits. -/
def nodeOfItem? (i : Item) : Option NodeId := do
  let n ← i.natural?
  guard (n < 0x100000000)
  return n

def ofItem? (a : Item.Access) (i : Item) : Option Exception := do
  let (a, fields) ← i.record? a ["kind", "message", "node"]
  let kind ← (Item.field? "kind" fields).bind (kindOfItem? a)
  let message ← (Item.field? "message" fields).bind Item.text?
  let node ← Item.nullable? nodeOfItem? (Item.field? "node" fields)
  return ⟨kind, message, node⟩

end Exception

namespace Value

def typedItem (type : String) (content : Item) : Item :=
  .map [(.text "type", .text type), (.text "value", content)]

mutual
def toItem? : Value → Option Item
  | number n => some (typedItem "number" n.toItem)
  | text s => some (typedItem "text" (.text s))
  | boolean b => some (typedItem "boolean" (.boolean b))
  | list items => (toItems? items).map fun is => typedItem "list" (.array is)
  | struct fields => (toEntries? fields).map fun es => typedItem "structure" (.map es)
  | function _ => none
  | exception e => some (typedItem "exception" e.toItem)

def toItems? : List Value → Option (List Item)
  | [] => some []
  | v :: rest => do return (← v.toItem?) :: (← toItems? rest)

def toEntries? : List (String × Value) → Option (List (Item × Item))
  | [] => some []
  | (name, v) :: rest => do return (.text name, ← v.toItem?) :: (← toEntries? rest)
end

/-- The types of values that can be written. -/
def typeNames : List String := ["number", "text", "boolean", "list", "structure", "exception"]

/-- What a type makes of its content. -/
def ofContentItem? (a : Item.Access) (read : Item.Access → Item → Option Value) (type : String)
    (content : Item) : Option Value :=
  match type with
  | "number" => (Number.ofItem? a content).map number
  | "text" => content.text?.map text
  | "boolean" => content.boolean?.map boolean
  | "list" => do
    let (a, items) ← content.items? a
    return list (← items.mapM (read a))
  | "structure" => do
    let (a, entries) ← content.entries? a
    let pairs ← entries.mapM fun (k, v) => do return (← k.text?, ← read a v)
    return struct (Assoc.ofList pairs)
  | "exception" => (Exception.ofItem? a content).map exception
  | _ => none

/-- How the content of a value is met, given the fields of the value in their order. -/
def contentAccess? (a : Item.Access) (content : Item) : List (String × Item) → Option Item.Access
  | ("value", _) :: _ => if a.fits content then some .kept else none
  | _ => some a

/-- Reads values nested up to a bound. -/
def ofItemWithin : Nat → Item.Access → Item → Option Value
  | 0, _, _ => none
  | bound + 1, a, i => do
    let (a, fields) ← i.record? a ["type", "value"]
    let type ← (Item.field? "type" fields).bind (Item.choice? a typeNames)
    let content ← Item.field? "value" fields
    ofContentItem? (← contentAccess? a content fields) (ofItemWithin bound) type content

def ofItem? (a : Item.Access) (i : Item) : Option Value := ofItemWithin (i.nesting + 1) a i

end Value

namespace LoggedEvent

def toItem? (e : LoggedEvent) : Option Item := do
  return .map [(.text "sequence", .ofNat e.sequence), (.text "stream", .text e.stream),
    (.text "input", ← e.input.toItem?)]

def ofItem? (a : Item.Access) (i : Item) : Option LoggedEvent := do
  let (a, fields) ← i.record? a ["sequence", "stream", "input"]
  let sequence ← (Item.field? "sequence" fields).bind Item.natural?
  let stream ← (Item.field? "stream" fields).bind Item.text?
  let input ← (Item.field? "input" fields).bind (Value.ofItem? a)
  return ⟨sequence, stream, input⟩

end LoggedEvent

namespace EventLog

/-- The encoding of a log without functions. -/
def encode? (log : EventLog) : Option (List UInt8) := do
  let items ← log.mapM LoggedEvent.toItem?
  return (Item.map [(.text "events", .array items)]).encode

/-- How deeply arrays, maps and extensions may nest. -/
def levels : Nat := 1023

def decode? (bs : List UInt8) : Option EventLog := do
  let (a, fields) ← (← Item.decode bs).record? (.passing levels) ["events"]
  let (a, items) ← (Item.field? "events" fields).bind (Item.items? a)
  items.mapM (LoggedEvent.ofItem? a)

end EventLog
end StreamLang
