import StreamLang.Amount
/-!
What a JSON text says. Objects keep the order of their fields and every repetition of a key. A text
can be well-formed and still say something that no reader of a value accepts: a number beyond the
range, a string with half a surrogate pair, arrays and objects nested too deeply. Such a part is
`unreadable`; it does no harm in a field that nobody reads.
-/
namespace StreamLang

inductive Json where
  | null
  | boolean (b : Bool)
  /-- An integer without a sign, below `2 ^ 64`. -/
  | natural (n : Nat)
  /-- The integer `-(n + 1)`, not below `-2 ^ 63`. -/
  | negative (n : Nat)
  /-- Any other number, rounded. -/
  | real (x : Amount)
  | text (s : String)
  | array (items : List Json)
  | object (fields : List (String × Json))
  | unreadable
  deriving Repr, Inhabited

namespace Json

mutual
/-- Whether no part of the text is unreadable. -/
def readable : Json → Bool
  | .unreadable => false
  | .array items => readableItems items
  | .object fields => readableFields fields
  | _ => true

def readableItems : List Json → Bool
  | [] => true
  | j :: rest => j.readable && readableItems rest

def readableFields : List (String × Json) → Bool
  | [] => true
  | (_, j) :: rest => j.readable && readableFields rest
end

mutual
/-- How many arrays and objects lie inside one another. -/
def nesting : Json → Nat
  | .array items => nestingItems items + 1
  | .object fields => nestingFields fields + 1
  | _ => 0

def nestingItems : List Json → Nat
  | [] => 0
  | j :: rest => max j.nesting (nestingItems rest)

def nestingFields : List (String × Json) → Nat
  | [] => 0
  | (_, j) :: rest => max j.nesting (nestingFields rest)
end

def text? : Json → Option String
  | .text s => some s
  | _ => none

def boolean? : Json → Option Bool
  | .boolean b => some b
  | _ => none

def natural? : Json → Option Nat
  | .natural n => some n
  | _ => none

/-- Any number; an integer is rounded. -/
def amount? : Json → Option Amount
  | .natural n => some (Amount.ofNat n)
  | .negative n => some (Amount.ofNat (n + 1)).neg
  | .real x => some x
  | _ => none

def array? : Json → Option (List Json)
  | .array items => some items
  | _ => none

def object? : Json → Option (List (String × Json))
  | .object fields => some fields
  | _ => none

/-- A choice among names: a text, or an object whose only field has the name and holds nothing. In
a part that was kept aside until its type was known, an empty object holds nothing too. -/
def choice? (kept : Bool) : Json → Option String
  | .text s => some s
  | .object [(s, .null)] => some s
  | .object [(s, .object [])] => if kept then some s else none
  | _ => none

/-- What a nullable field holds: nothing if it is missing or null. -/
def nullable? (read : Json → Option α) : Option Json → Option (Option α)
  | none | some .null => some none
  | some j => (read j).map some

/-- Whether each of `known` appears at most once among the fields. -/
def distinct (known : List String) (fields : List (String × Json)) : Bool :=
  known.all fun k => (fields.filter (·.1 == k)).length ≤ 1

/-- The first value of a field. -/
def field? (name : String) (fields : List (String × Json)) : Option Json :=
  (fields.find? (·.1 == name)).map Prod.snd

end Json
end StreamLang
