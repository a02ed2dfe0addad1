import StreamLang.Json.Basic
import StreamLang.Decimal.Layout
/-!
Writes JSON text: no blanks, fields in order, strings with only quotes, backslashes and control
characters escaped. Numbers that are not finite have no JSON text and are written as `null`.
-/
namespace StreamLang.Json

/-- Amounts keep a `.0`, stand positionally from `1e-5` below `1e16`, and a tie between two shortest
forms goes to the even one. -/
def amountLayout : Decimal.Layout := ⟨some (-5), some 15, true, .toEven⟩

def amountText (x : Amount) : List Char :=
  if x.isFinite then amountLayout.finite x else "null".toList

def hexDigit (n : Nat) : Char := if n < 10 then Char.ofNat (48 + n) else Char.ofNat (87 + n)

def escape (c : Char) : List Char :=
  match c with
  | '"' => ['\\', '"']
  | '\\' => ['\\', '\\']
  | '\x08' => ['\\', 'b']
  | '\x0c' => ['\\', 'f']
  | '\n' => ['\\', 'n']
  | '\r' => ['\\', 'r']
  | '\t' => ['\\', 't']
  | c =>
    if c.toNat < 0x20 then
      ['\\', 'u', '0', '0', hexDigit (c.toNat / 16), hexDigit (c.toNat % 16)]
    else [c]

def quoted (s : String) : List Char := '"' :: s.toList.flatMap escape ++ ['"']

mutual
def chars : Json → List Char
  | .null => "null".toList
  | .boolean b => (if b then "true" else "false").toList
  | .natural n => Nat.toDigits 10 n
  | .negative n => '-' :: Nat.toDigits 10 (n + 1)
  | .real x => amountText x
  | .text s => quoted s
  | .array items => '[' :: charsItems items ++ [']']
  | .object fields => '\x7b' :: charsFields fields ++ ['\x7d']
  | .unreadable => "null".toList

def charsItems : List Json → List Char
  | [] => []
  | [j] => j.chars
  | j :: rest => j.chars ++ ',' :: charsItems rest

def charsFields : List (String × Json) → List Char
  | [] => []
  | [(k, j)] => quoted k ++ ':' :: j.chars
  | (k, j) :: rest => quoted k ++ ':' :: j.chars ++ ',' :: charsFields rest
end

def write (j : Json) : String := String.ofList j.chars

end StreamLang.Json
