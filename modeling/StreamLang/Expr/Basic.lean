import StreamLang.Tree.Draft
/-!
Expressions as they are exchanged: nested, each with the parts it needs. Building a tree from one
numbers its parts in the order of their fields, every part before the whole, so a tree built this
way is always accepted.
-/
namespace StreamLang

inductive Expr where
  | number (n : Number)
  | text (s : String)
  | boolean (b : Bool)
  | list (items : List Expr)
  | struct (fields : List (String × Expr))
  | property (subject : Expr) (name : String)
  | reference (name : String)
  /-- Operands with operators between them, applied from the left. -/
  | binary (first : Expr) (rest : List (BinaryOperator × Expr))
  | unary (operator : UnaryOperator) (operand : Expr)
  | conditional (condition yes no : Expr)
  | function (parameters : List String) (body : Expr)
  | call (callee : Expr) (arguments : List Expr)
  | bind (name : String) (value : Expr)
  | block (statements : List Expr)
  | stream (name : String)
  | changed (stream : String)
  | reaction (start : Expr) (condition : Option Expr) (next : Expr)
  | previous
  | placeholder
  | diagnosed (diagnostic : Diagnostic) (e : Expr)
  deriving Repr, Inhabited

namespace Expr

mutual
/-- Adds the expression to the draft, parts first, and tells its number. -/
def build : Expr → Draft → NodeId × Draft
  | number n, d => d.add (.number n) []
  | text s, d => d.add (.text s) []
  | boolean b, d => d.add (.boolean b) []
  | list items, d =>
    let (ids, d) := buildAll items d
    d.add .list ids
  | struct fields, d =>
    let (ids, d) := buildFields fields d
    d.add (.struct (fields.map Prod.fst)) ids
  | property subject name, d =>
    let (i, d) := build subject d
    d.add (.property name) [i]
  | reference name, d => d.add (.reference name) []
  | binary first rest, d =>
    let (i, d) := build first d
    let (ids, d) := buildRest rest d
    d.add (.binary (rest.map Prod.fst)) (i :: ids)
  | unary operator operand, d =>
    let (i, d) := build operand d
    d.add (.unary operator) [i]
  | conditional condition yes no, d =>
    let (c, d) := build condition d
    let (y, d) := build yes d
    let (n, d) := build no d
    d.add .conditional [c, y, n]
  | function parameters body, d =>
    let (i, d) := build body d
    d.add (.function parameters) [i]
  | call callee arguments, d =>
    let (i, d) := build callee d
    let (ids, d) := buildAll arguments d
    d.add .call (i :: ids)
  | bind name value, d =>
    let (i, d) := build value d
    d.add (.bind name) [i]
  | block statements, d =>
    let (ids, d) := buildAll statements d
    d.add .block ids
  | stream name, d => d.add (.stream name) []
  | changed name, d => d.add (.changed name) []
  | reaction start (some condition) next, d =>
    let (s, d) := build start d
    let (c, d) := build condition d
    let (n, d) := build next d
    d.add .reaction [s, c, n]
  | reaction start none next, d =>
    let (s, d) := build start d
    let (n, d) := build next d
    d.add .reaction [s, n]
  | previous, d => d.add .previous []
  | placeholder, d => d.add .placeholder []
  | diagnosed diagnostic e, d =>
    let (i, d) := build e d
    (i, d.diagnose i diagnostic)

def buildAll : List Expr → Draft → List NodeId × Draft
  | [], d => ([], d)
  | e :: rest, d =>
    let (i, d) := build e d
    let (ids, d) := buildAll rest d
    (i :: ids, d)

def buildFields : List (String × Expr) → Draft → List NodeId × Draft
  | [], d => ([], d)
  | (_, e) :: rest, d =>
    let (i, d) := build e d
    let (ids, d) := buildFields rest d
    (i :: ids, d)

def buildRest : List (BinaryOperator × Expr) → Draft → List NodeId × Draft
  | [], d => ([], d)
  | (_, e) :: rest, d =>
    let (i, d) := build e d
    let (ids, d) := buildRest rest d
    (i :: ids, d)
end

def toTree (e : Expr) : Except TreeError Tree :=
  let (body, d) := e.build .empty
  d.finish body

end Expr
end StreamLang
