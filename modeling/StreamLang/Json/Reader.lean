import StreamLang.Json.Basic
import StreamLang.Decimal.Scaling
/-!
Reads JSON text. The grammar is strict: no comments, no trailing commas, no leading zeros, blanks
only between tokens and around the whole. A text that follows it is read even where a part of it has
no value; that part becomes `unreadable`. The readers recurse on a bound that twice the length of
the text always satisfies, because every second call takes a character away.
-/
namespace StreamLang.Json

def isBlank (c : Char) : Bool := c == ' ' || c == '\n' || c == '\t' || c == '\r'

def skipBlank (cs : List Char) : List Char := cs.dropWhile isBlank

/-- An element of a string as written: a character, or an escaped unit of sixteen bits. -/
inductive Piece where
  | plain (c : Char)
  | escaped (u : Nat)

def hexDigit? (c : Char) : Option Nat :=
  if c.isDigit then some (c.toNat - '0'.toNat)
  else if 'a' ≤ c && c ≤ 'f' then some (c.toNat - 'a'.toNat + 10)
  else if 'A' ≤ c && c ≤ 'F' then some (c.toNat - 'A'.toNat + 10)
  else none

def hexUnit? (a b c d : Char) : Option Nat := do
  let a ← hexDigit? a
  let b ← hexDigit? b
  let c ← hexDigit? c
  let d ← hexDigit? d
  return ((a * 16 + b) * 16 + c) * 16 + d

def shortEscape? : Char → Option Char
  | '"' => some '"'
  | '\\' => some '\\'
  | '/' => some '/'
  | 'b' => some '\x08'
  | 'f' => some '\x0c'
  | 'n' => some '\n'
  | 'r' => some '\r'
  | 't' => some '\t'
  | _ => none

/-- The rest of a string after its opening quote, and what follows the closing one. -/
def pieces : List Char → Option (List Piece × List Char)
  | [] => none
  | '"' :: rest => some ([], rest)
  | '\\' :: 'u' :: a :: b :: c :: d :: rest => do
    let u ← hexUnit? a b c d
    let (ps, rest) ← pieces rest
    return (.escaped u :: ps, rest)
  | '\\' :: c :: rest => do
    let e ← shortEscape? c
    let (ps, rest) ← pieces rest
    return (.plain e :: ps, rest)
  | c :: rest =>
    if c.toNat < 0x20 || c == '\\' then none
    else do
      let (ps, rest) ← pieces rest
      return (.plain c :: ps, rest)

def isHighUnit (u : Nat) : Bool := 0xD800 ≤ u && u < 0xDC00
def isLowUnit (u : Nat) : Bool := 0xDC00 ≤ u && u < 0xE000

/-- The characters of a string; a high unit needs a low one after it, which occurs nowhere else. -/
def characters : List Piece → Option (List Char)
  | [] => some []
  | .plain c :: rest => (characters rest).map (c :: ·)
  | .escaped h :: .escaped l :: rest =>
    if isHighUnit h && isLowUnit l then
      (characters rest).map (Char.ofNat (0x10000 + (h - 0xD800) * 0x400 + (l - 0xDC00)) :: ·)
    else if isHighUnit h || isLowUnit h then none
    else (characters (.escaped l :: rest)).map (Char.ofNat h :: ·)
  | .escaped u :: rest =>
    if isHighUnit u || isLowUnit u then none else (characters rest).map (Char.ofNat u :: ·)

/-- The text of a string, if it has one. -/
def stringText (ps : List Piece) : Option String := (characters ps).map String.ofList

/-- A number as it is written. -/
structure Numeral where
  /-- What is kept of its digits. -/
  literal : DecimalLiteral
  /-- Whether it has neither point nor exponent. -/
  integral : Bool

def wholeDigits? (cs : List Char) : Option (List Char × List Char) :=
  match DecimalLiteral.span cs with
  | ([], _) => none
  | ('0' :: _ :: _, _) => none
  | r => some r

def numeral? (cs : List Char) : Option (Numeral × List Char) := do
  let (minus, cs) := match cs with
    | '-' :: r => (true, r)
    | r => (false, r)
  let (whole, rest) ← wholeDigits? cs
  let (fraction, rest, pointed) ← match rest with
    | '.' :: r =>
      let (ds, r) := DecimalLiteral.span r
      if ds.isEmpty then none else some (ds, r, true)
    | r => some ([], r, false)
  let marked := match rest with
    | c :: _ => c == 'e' || c == 'E'
    | [] => false
  let (e, rest) ← DecimalLiteral.exponent? rest
  return (⟨DecimalLiteral.kept minus whole fraction e, !pointed && !marked⟩, rest)

/-- Integers of 64 bits stay exact, except for `-0`, which only a rounded number can express. An
integer with more digits than are kept has a positive exponent. -/
def Numeral.value (n : Numeral) : Json :=
  let d := n.literal
  let exact := n.integral && d.exponent = 0
  if exact && !d.negative then .natural d.digits
  else if exact && d.digits ≠ 0 && d.digits ≤ 0x8000000000000000 then .negative (d.digits - 1)
  else ((Amount.scaled? d).map .real).getD .unreadable

/-- A container has a value if there is still allowance for it and its keys have values. -/
def container (allowance : Nat) (content : Option Json) : Json :=
  if allowance = 0 then .unreadable else content.getD .unreadable

/-- The fields with their keys read, if all of them have a text. -/
def keyed (fields : List (Option String × Json)) : Option (List (String × Json)) :=
  fields.mapM fun (k, j) => k.map (·, j)

mutual
def value : Nat → Nat → List Char → Option (Json × List Char)
  | 0, _, _ => none
  | bound + 1, allowance, cs =>
    match skipBlank cs with
    | 'n' :: 'u' :: 'l' :: 'l' :: rest => some (.null, rest)
    | 't' :: 'r' :: 'u' :: 'e' :: rest => some (.boolean true, rest)
    | 'f' :: 'a' :: 'l' :: 's' :: 'e' :: rest => some (.boolean false, rest)
    | '"' :: rest => (pieces rest).map fun (ps, rest) =>
      (((stringText ps).map text).getD .unreadable, rest)
    | '[' :: rest =>
      match skipBlank rest with
      | ']' :: rest => some (container allowance (some (.array [])), rest)
      | rest => (items bound (allowance - 1) rest).map fun (js, rest) =>
        (container allowance (some (.array js)), rest)
    | '\x7b' :: rest =>
      match skipBlank rest with
      | '\x7d' :: rest => some (container allowance (some (.object [])), rest)
      | rest => (members bound (allowance - 1) rest).map fun (fs, rest) =>
        (container allowance ((keyed fs).map .object), rest)
    | cs => (numeral? cs).map fun (n, rest) => (n.value, rest)

/-- The items of an array that has some, up to its closing bracket. -/
def items : Nat → Nat → List Char → Option (List Json × List Char)
  | 0, _, _ => none
  | bound + 1, allowance, cs => do
    let (j, rest) ← value bound allowance cs
    match skipBlank rest with
    | ',' :: rest =>
      let (js, rest) ← items bound allowance rest
      return (j :: js, rest)
    | ']' :: rest => return ([j], rest)
    | _ => none

/-- The fields of an object that has some, up to its closing brace. -/
def members : Nat → Nat → List Char → Option (List (Option String × Json) × List Char)
  | 0, _, _ => none
  | bound + 1, allowance, cs =>
    match skipBlank cs with
    | '"' :: rest => do
      let (ps, rest) ← pieces rest
      match skipBlank rest with
      | ':' :: rest =>
        let (j, rest) ← value bound allowance rest
        let field := (stringText ps, j)
        match skipBlank rest with
        | ',' :: rest =>
          let (fs, rest) ← members bound allowance rest
          return (field :: fs, rest)
        | '\x7d' :: rest => return ([field], rest)
        | _ => none
      | _ => none
    | _ => none
end

/-- How deeply arrays and objects may nest in a text that describes a tree, a value or a
configuration. -/
def standardAllowance : Nat := 127

/-- Reads a whole text, with nesting up to the allowance. -/
def read (allowance : Nat) (s : String) : Option Json :=
  match value (2 * s.length + 2) allowance s.toList with
  | some (j, rest) => if skipBlank rest = [] then some j else none
  | none => none

end StreamLang.Json
