import StreamLang.Step.Basic
import StreamLang.Tree.Analysis
/-!
The steps of each kind of node. They depend on the structure of the tree alone, and there is a list
for every node: one that is blocked or lacks parts fails when it runs.
-/
namespace StreamLang
namespace Tree

/-- Whether a node of the kind can have so many children. -/
def fits (kind : NodeKind) (count : Nat) : Bool :=
  match kind with
  | .program | .bind _ | .property _ | .unary _ | .function _ => count == 1
  | .block | .call => 1 ≤ count
  | .list => true
  | .struct fields => count == fields.length
  | .binary operators => !operators.isEmpty && count == operators.length + 1
  | .conditional => count == 3
  | .reaction => count == 2 || count == 3
  | .number _ | .text _ | .boolean _ | .reference _ | .stream _ | .changed _ | .previous
  | .placeholder => count == 0

def failSteps (kind : ExceptionKind) (message : String) : List Step :=
  [.apply (.fail kind message), .finish]

/-- Evaluates all children and makes one value of them. -/
def collectSteps (count : Nat) (o : Operation) : List Step :=
  (List.range count).map .evaluate ++ [.apply o, .finish]

/-- Each operator right after the operand on its right. -/
def chainSteps (operators : List BinaryOperator) : List Step :=
  .evaluate 0 ::
    operators.zipIdx.flatMap (fun (o, k) => [.evaluate (k + 1), .apply (.binary o)]) ++ [.finish]

/-- The statements of a block from position `k` on; the last value stays. -/
def statementSteps (t : Tree) (k : Nat) : List NodeId → List Step
  | [] => [.finish]
  | i :: rest =>
    let bound := match t.kind? i with
      | some (.bind name) => [Step.define name]
      | _ => []
    let discarded := if rest.isEmpty then [] else [Step.discard]
    .evaluate k :: bound ++ discarded ++ t.statementSteps (k + 1) rest

/-- The steps of a node that fits its kind. -/
def kindSteps (t : Tree) (i : NodeId) (kind : NodeKind) (children : List NodeId) : List Step :=
  let count := children.length
  match kind with
  | .program | .bind _ => [.evaluate 0, .finish]
  | .block => .enterScope :: t.statementSteps 0 children
  | .number n => [.push (.number n), .finish]
  | .text s => [.push (.text s), .finish]
  | .boolean b => [.push (.boolean b), .finish]
  | .list => collectSteps count (.makeList count)
  | .struct fields => collectSteps count (.makeStruct fields)
  | .property name => [.evaluate 0, .apply (.property name), .finish]
  | .reference name => [.apply (.lookup name), .finish]
  | .binary operators => chainSteps operators
  | .unary operator => [.evaluate 0, .apply (.unary operator), .finish]
  | .conditional => [.evaluate 0, .jumpIfFalse 4, .evaluate 1, .jump 5, .evaluate 2, .finish]
  | .function parameters =>
    [.apply (.makeFunction i (children.headD i) parameters), .finish]
  | .call => collectSteps count (.call (count - 1))
  | .stream name => [.fetch name .latest, .finish]
  | .changed name => [.fetch name .changed, .finish]
  | .reaction =>
    if count = 2 then [.jumpIfInitialized 3, .evaluate 0, .jump 4, .evaluate 1, .finish]
    else
      [.jumpIfInitialized 3, .evaluate 0, .jump 8, .evaluate 1, .jumpIfFalse 7, .evaluate 2,
        .jump 8, .apply (.previous i), .finish]
  | .previous =>
    match t.enclosingReaction? i with
    | some r => [.apply (.previous r), .finish]
    | none => failSteps .incompleteExpression "`.` can only be used inside a reaction"
  | .placeholder => failSteps .incompleteExpression "placeholder needs an expression"

/-- The steps of a node. Nothing asks for those of a node that is not in the tree: looking such a node
up is a crash (`Fault.outside`), and here it has no steps. -/
def steps (t : Tree) (i : NodeId) : List Step :=
  match t.node? i with
  | none => []
  | some n =>
    match n.blocked? with
    | some message => failSteps .compileTimeConflict message
    | none =>
      let count := n.children.length
      if fits n.kind count then t.kindSteps i n.kind n.children
      else failSteps .incompleteExpression (n.kind.name ++ " has " ++ toString count ++ " parts")

end Tree
end StreamLang
