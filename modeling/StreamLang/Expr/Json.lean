import StreamLang.Expr.Basic
import StreamLang.Ordered
import StreamLang.Json.Reader
import StreamLang.Json.Writer
/-!
The interchange text of expressions: an object whose `kind` says which other fields count. A field
that counts may appear once; others are ignored, but the whole text has to be readable. All fields
are kept aside until the kind is known, so the choices in them may be written in every way, and the
kind of a part also by its place among the kinds.
-/
namespace StreamLang

namespace Severity

def name : Severity → String
  | blocking => "blocking"
  | warning => "warning"

def ofName? (s : String) : Option Severity := [blocking, warning].find? (·.name == s)

end Severity

namespace Diagnostic

def ofJson? (j : Json) : Option Diagnostic := do
  let fields ← j.object?
  guard (Json.distinct ["severity", "message"] fields)
  let severity ← (Json.field? "severity" fields).bind (Json.choice? true)
  let message ← (Json.field? "message" fields).bind Json.text?
  return ⟨← Severity.ofName? severity, message⟩

def toJson (d : Diagnostic) : Json :=
  .object [("severity", .text d.severity.name), ("message", .text d.message)]

end Diagnostic

namespace Expr

/-- All kinds, in the order of their places. -/
def kindNames : List String :=
  ["number", "text", "boolean", "list", "structure", "property", "reference", "binary", "unary",
    "conditional", "function", "call", "bind", "block", "stream", "changed", "reaction", "previous",
    "placeholder", "diagnosed"]

/-- The kind of a part, by its name or its place. -/
def kindOfPart? : Json → Option String
  | .text s => some s
  | .natural n => kindNames[n]?
  | _ => none

/-- The fields that count for each kind. -/
def fieldNames : String → List String
  | "number" => ["amount", "unit"]
  | "text" => ["text"]
  | "boolean" => ["value"]
  | "list" => ["items"]
  | "structure" => ["fields"]
  | "property" => ["subject", "name"]
  | "reference" => ["name"]
  | "binary" => ["first", "rest"]
  | "unary" => ["operator", "operand"]
  | "conditional" => ["condition", "yes", "no"]
  | "function" => ["parameters", "body"]
  | "call" => ["callee", "arguments"]
  | "bind" => ["name", "value"]
  | "block" => ["statements"]
  | "stream" => ["name"]
  | "changed" => ["stream"]
  | "reaction" => ["initial", "condition", "next"]
  | "diagnosed" => ["diagnostic", "expr"]
  | _ => []

/-- An operator and the operand after it. -/
def operandOf? (read : Json → Option Expr) : Json → Option (BinaryOperator × Expr)
  | .array [o, e] => do return (← (o.choice? true).bind BinaryOperator.ofName?, ← read e)
  | _ => none

/-- What a kind makes of its fields. -/
def ofFields? (read : Json → Option Expr) (kind : String) (fields : List (String × Json)) :
    Option Expr :=
  let field name := Json.field? name fields
  let text name := (field name).bind Json.text?
  let part name := (field name).bind read
  let all (j : Json) := j.array?.bind (·.mapM read)
  /- A list may be left out, but not be null. -/
  let optional (α : Type) (read : Json → Option (List α)) name := (field name).elim (some []) read
  match kind with
  | "number" => do
    let amount ← (field "amount").bind Json.amount?
    let unit ← Json.nullable? Json.text? (field "unit")
    return number ⟨amount, unit⟩
  | "text" => return .text (← text "text")
  | "boolean" => return boolean (← (field "value").bind Json.boolean?)
  | "list" => return list (← optional Expr all "items")
  | "structure" => do
    let pairs ← (field "fields").bind Json.object?
    let pairs ← pairs.mapM fun (name, j) => (read j).map (name, ·)
    return struct (Assoc.ofList pairs)
  | "property" => return property (← part "subject") (← text "name")
  | "reference" => return reference (← text "name")
  | "binary" => do
    let first ← part "first"
    let rest ← (field "rest").bind Json.array?
    return binary first (← rest.mapM (operandOf? read))
  | "unary" => do
    let operator ← ((field "operator").bind (Json.choice? true)).bind UnaryOperator.ofName?
    return unary operator (← part "operand")
  | "conditional" => return conditional (← part "condition") (← part "yes") (← part "no")
  | "function" => do
    let parameters ← optional String (fun j => j.array?.bind (·.mapM Json.text?)) "parameters"
    return function parameters (← part "body")
  | "call" => return call (← part "callee") (← optional Expr all "arguments")
  | "bind" => return bind (← text "name") (← part "value")
  | "block" => return block (← (field "statements").bind all)
  | "stream" => return stream (← text "name")
  | "changed" => return changed (← text "stream")
  | "reaction" => do
    let condition ← Json.nullable? read (field "condition")
    return reaction (← part "initial") condition (← part "next")
  | "previous" => return previous
  | "placeholder" => return placeholder
  | "diagnosed" => do
    let diagnostic ← (field "diagnostic").bind Diagnostic.ofJson?
    return diagnosed diagnostic (← part "expr")
  | _ => none

/-- An expression, given how its kind and its parts are read. -/
def ofObject? (kindOf? : Json → Option String) (read : Json → Option Expr) (j : Json) :
    Option Expr := do
  let fields ← j.object?
  let kind ← (Json.field? "kind" fields).bind kindOf?
  guard (Json.distinct ("kind" :: fieldNames kind) fields)
  ofFields? read kind fields

/-- Reads the parts of expressions, nested up to a bound. -/
def readPart : Nat → Json → Option Expr
  | 0, _ => none
  | bound + 1, j => ofObject? kindOfPart? (readPart bound) j

def ofJson? (j : Json) : Option Expr :=
  if j.readable then ofObject? Json.text? (readPart j.nesting) j else none

def ofText? (s : String) : Option Expr := (Json.read Json.standardAllowance s).bind ofJson?

def textOrNull : Option String → Json
  | none => .null
  | some s => .text s

mutual
def toJson : Expr → Json
  | number n =>
    .object [("kind", .text "number"), ("amount", .real n.amount), ("unit", textOrNull n.unit)]
  | text s => .object [("kind", .text "text"), ("text", .text s)]
  | boolean b => .object [("kind", .text "boolean"), ("value", .boolean b)]
  | list items => .object [("kind", .text "list"), ("items", .array (toJsonAll items))]
  | struct fields =>
    .object [("kind", .text "structure"), ("fields", .object (toJsonFields fields))]
  | property subject name =>
    .object [("kind", .text "property"), ("subject", subject.toJson), ("name", .text name)]
  | reference name => .object [("kind", .text "reference"), ("name", .text name)]
  | binary first rest =>
    .object [("kind", .text "binary"), ("first", first.toJson), ("rest", .array (toJsonRest rest))]
  | unary operator operand =>
    .object [("kind", .text "unary"), ("operator", .text operator.name),
      ("operand", operand.toJson)]
  | conditional condition yes no =>
    .object [("kind", .text "conditional"), ("condition", condition.toJson), ("yes", yes.toJson),
      ("no", no.toJson)]
  | function parameters body =>
    .object [("kind", .text "function"), ("parameters", .array (parameters.map .text)),
      ("body", body.toJson)]
  | call callee arguments =>
    .object [("kind", .text "call"), ("callee", callee.toJson),
      ("arguments", .array (toJsonAll arguments))]
  | bind name value =>
    .object [("kind", .text "bind"), ("name", .text name), ("value", value.toJson)]
  | block statements =>
    .object [("kind", .text "block"), ("statements", .array (toJsonAll statements))]
  | stream name => .object [("kind", .text "stream"), ("name", .text name)]
  | changed name => .object [("kind", .text "changed"), ("stream", .text name)]
  | reaction start none next =>
    .object [("kind", .text "reaction"), ("initial", start.toJson), ("condition", .null),
      ("next", next.toJson)]
  | reaction start (some condition) next =>
    .object [("kind", .text "reaction"), ("initial", start.toJson),
      ("condition", condition.toJson), ("next", next.toJson)]
  | previous => .object [("kind", .text "previous")]
  | placeholder => .object [("kind", .text "placeholder")]
  | diagnosed diagnostic e =>
    .object [("kind", .text "diagnosed"), ("diagnostic", diagnostic.toJson), ("expr", e.toJson)]

def toJsonAll : List Expr → List Json
  | [] => []
  | e :: rest => e.toJson :: toJsonAll rest

def toJsonFields : List (String × Expr) → List (String × Json)
  | [] => []
  | (name, e) :: rest => (name, e.toJson) :: toJsonFields rest

def toJsonRest : List (BinaryOperator × Expr) → List Json
  | [] => []
  | (operator, e) :: rest => .array [.text operator.name, e.toJson] :: toJsonRest rest
end

end Expr

/-- The tree that an interchange text describes. -/
def Tree.ofText (s : String) : Except TreeError Tree :=
  match Expr.ofText? s with
  | some e => e.toTree
  | none => .error .unreadable

end StreamLang
