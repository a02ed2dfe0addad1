import StreamLang.Value.Basic
/-!
Scopes hold the names that a program has bound so far. All scopes are kept in one store, in order of
creation, so a scope lies inside an older one and a walk outwards is bounded by its number. Scopes
are never removed: a function value may outlive the pass that made its scope.
-/
namespace StreamLang

/-- What a scope keeps for a name. A function made in that very scope is kept without it, so that the
two do not hold each other, and gets it back when it is read. -/
inductive Binding where
  | value (v : Value)
  | own (function body : NodeId) (parameters : List String)
  deriving Repr

namespace Binding

/-- What the scope `i` keeps for a value. -/
def keep (i : ScopeId) : Value → Binding
  | .function c =>
    if c.scope = i then own c.function c.body c.parameters else value (.function c)
  | v => value v

/-- What is read of a binding of the scope `i`. -/
def read (i : ScopeId) : Binding → Value
  | value v => v
  | own function body parameters => .function ⟨function, body, parameters, i⟩

@[simp] theorem read_keep (i : ScopeId) (v : Value) : (keep i v).read i = v := by
  cases v with
  | function c =>
    by_cases h : c.scope = i
    · subst h
      simp [keep, read]
    · simp [keep, read, h]
  | _ => rfl

end Binding

structure Scope where
  bindings : Assoc String Binding
  parent : Option ScopeId
  deriving Repr

structure Scopes where
  all : Array Scope
  deriving Repr

namespace Scopes

def empty : Scopes := ⟨#[]⟩

/-- Adds a scope with nothing around it. -/
def addRoot (s : Scopes) : ScopeId × Scopes := (s.all.size, ⟨s.all.push ⟨[], none⟩⟩)

/-- Adds an empty scope inside another. -/
def addChild (s : Scopes) (parent : ScopeId) : ScopeId × Scopes :=
  (s.all.size, ⟨s.all.push ⟨[], some parent⟩⟩)

/-- Binds a name in one scope, in place of an earlier value there. -/
def define (s : Scopes) (i : ScopeId) (name : String) (v : Value) : Scopes :=
  ⟨s.all.modify i fun scope =>
    { scope with bindings := Assoc.put name (.keep i v) scope.bindings }⟩

def defineAll (s : Scopes) (i : ScopeId) (bindings : List (String × Value)) : Scopes :=
  bindings.foldl (fun s (name, v) => s.define i name v) s

/-- The names bound in a scope itself. -/
def bindings (s : Scopes) (i : ScopeId) : Assoc String Binding :=
  ((s.all[i]?).map (·.bindings)).getD []

/-- Looks for a name in a scope and up to `n - 1` scopes around it. -/
def lookupWithin (s : Scopes) (name : String) : Nat → ScopeId → Option Value
  | 0, _ => none
  | n + 1, i =>
    match s.all[i]? with
    | none => none
    | some scope =>
      match Assoc.get? name scope.bindings with
      | some b => some (b.read i)
      | none => match scope.parent with
        | none => none
        | some p => s.lookupWithin name n p

/-- The nearest value of a name, looking outwards. -/
def lookup (s : Scopes) (i : ScopeId) (name : String) : Option Value :=
  s.lookupWithin name (i + 1) i

end Scopes
end StreamLang
