import StreamLang.Amount
/-!
Reads decimals. `Amount.ofDecimal` rounds `digits * 10 ^ exponent` to the nearest amount;
`Amount.ofText?` reads the texts that stand for an amount: an optional sign, digits with an optional
point and exponent, or one of the words for the infinities and NaN.
-/
namespace StreamLang

/-- A sign, digits and a power of ten, before rounding. -/
structure DecimalLiteral where
  negative : Bool
  digits : Nat
  exponent : Int
  deriving DecidableEq, Repr

/-- Powers of ten far outside the range are decided without computing them. -/
def Amount.ofDecimal (d : DecimalLiteral) : Amount :=
  let size := d.digits.log2 * 3 / 10 + d.exponent
  let magnitude :=
    if d.digits = 0 || size < -2000 then zero
    else if 2000 < size then infinity
    else ofFloat (Float.ofScientific d.digits (d.exponent < 0) d.exponent.natAbs)
  magnitude.withSign d.negative

namespace DecimalLiteral

/-- The value of a run of decimal digits, continuing from `n`. -/
def digitsValue (n : Nat) (cs : List Char) : Nat :=
  cs.foldl (fun n c => 10 * n + (c.toNat - '0'.toNat)) n

/-- A run of digits and what follows it. -/
def span (cs : List Char) : List Char × List Char :=
  (cs.takeWhile Char.isDigit, cs.dropWhile Char.isDigit)

/-- An exponent, if one follows: the mark, an optional sign and at least one digit. -/
def exponent? : List Char → Option (Int × List Char)
  | c :: rest =>
    if c = 'e' || c = 'E' then
      let (negative, rest) := match rest with
        | '-' :: r => (true, r)
        | '+' :: r => (false, r)
        | r => (false, r)
      let (ds, rest) := span rest
      if ds.isEmpty then none
      else
        let n : Int := digitsValue 0 ds
        some (if negative then -n else n, rest)
    else some (0, c :: rest)
  | [] => some (0, [])

/-- Digits with an optional point among them; at least one digit. -/
def unsigned? (cs : List Char) : Option DecimalLiteral :=
  let (whole, rest) := span cs
  let (fraction, rest) := match rest with
    | '.' :: r => span r
    | r => ([], r)
  if whole.isEmpty && fraction.isEmpty then none
  else match exponent? rest with
    | some (e, []) => some ⟨false, digitsValue (digitsValue 0 whole) fraction, e - fraction.length⟩
    | _ => none

end DecimalLiteral

def Amount.unsignedOfText? (cs : List Char) : Option Amount :=
  let word := String.ofList (cs.map Char.toLower)
  if word = "nan" then some ⟨0x7FF8000000000000⟩
  else if word = "inf" || word = "infinity" then some infinity
  else (DecimalLiteral.unsigned? cs).map ofDecimal

def Amount.ofText? (s : String) : Option Amount :=
  match s.toList with
  | '-' :: cs => (unsignedOfText? cs).map neg
  | '+' :: cs => unsignedOfText? cs
  | cs => unsignedOfText? cs

end StreamLang
