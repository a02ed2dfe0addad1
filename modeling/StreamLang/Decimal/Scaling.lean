import StreamLang.Decimal.Reading
/-!
Scales digits by powers of ten in the arithmetic of amounts. Only digits that fit into sixty-four
bits are kept; the amount nearest to them is then multiplied or divided by a power of ten, and each
of these steps rounds. The result is near the decimal, but not always the amount nearest to it;
`Amount.ofDecimal` is.
-/
namespace StreamLang

namespace DecimalLiteral

/-- Appends digits up to the first one that would take the number out of sixty-four bits, and gives
back the digits from there on. -/
def keep (n : Nat) : List Char → Nat × List Char
  | [] => (n, [])
  | c :: cs =>
    let m := digitsValue n [c]
    if m < 0x10000000000000000 then keep m cs else (n, c :: cs)

/-- What is kept of a decimal. A whole digit that is left out still counts as a place; a digit of
the fraction that is left out does not. -/
def kept (negative : Bool) (whole fraction : List Char) (exponent : Int) : DecimalLiteral :=
  let (n, wholeLeft) := keep 0 whole
  let (n, fractionLeft) := keep n fraction
  ⟨negative, n, exponent + wholeLeft.length + fractionLeft.length - fraction.length⟩

end DecimalLiteral

namespace Amount

/-- The amount nearest to a power of ten. -/
def tenTo (n : Nat) : Amount := ofDecimal ⟨false, 1, n⟩

/-- Divides by a power of ten, by no more than the largest one in the range at a time. -/
def shrink (x : Amount) (n : Nat) : Amount :=
  if n ≤ 308 then x / tenTo n
  else if x.isZero then x
  else shrink (x / tenTo 308) (n - 308)
termination_by n

/-- Multiplies by a power of ten, unless that leads beyond the range. -/
def grow? (x : Amount) (n : Nat) : Option Amount :=
  if n ≤ 308 then some (x * tenTo n) |>.filter isFinite
  else if x.isZero then some x
  else none

/-- The digits of a literal, rounded and then scaled; nothing beyond the range. -/
def scaled? (d : DecimalLiteral) : Option Amount :=
  let x := ofNat d.digits
  let magnitude :=
    if d.exponent < 0 then some (x.shrink d.exponent.natAbs) else x.grow? d.exponent.natAbs
  magnitude.map (withSign d.negative)

end Amount
end StreamLang
