import StreamLang.Decimal.Shortest
/-!
How the digits of an amount are laid out as text. Each decision is a field of `Decimal.Layout`;
the formats that use one define their record where they write their output.
-/
namespace StreamLang.Decimal

structure Layout where
  /-- Least exponent of the leading digit that is written positionally. -/
  plainFrom : Option Int
  /-- Greatest exponent of the leading digit that is written positionally. -/
  plainUpTo : Option Int
  /-- Whether an integral amount ends in `.0`. -/
  pointZero : Bool
  tie : Tie

def zeros (n : Nat) : List Char := List.replicate n '0'

/-- The digits with the point where it belongs. -/
def positional (pointZero : Bool) (digits : List Char) (exponent : Int) : List Char :=
  let whole := digits.length + exponent
  if 0 ≤ exponent then
    digits ++ zeros exponent.toNat ++ (if pointZero then ['.', '0'] else [])
  else if 0 < whole then
    digits.take whole.toNat ++ '.' :: digits.drop whole.toNat
  else
    '0' :: '.' :: zeros (-whole).toNat ++ digits

/-- One digit before the point and a signed exponent, as in `1.5e+300`. -/
def scientific (digits : List Char) (leading : Int) : List Char :=
  digits.take 1 ++ (if digits.length = 1 then [] else '.' :: digits.drop 1) ++
    'e' :: (if leading < 0 then '-' else '+') :: Nat.toDigits 10 leading.natAbs

namespace Layout

def isPlain (l : Layout) (leading : Int) : Bool :=
  l.plainFrom.all (· ≤ leading) && l.plainUpTo.all (leading ≤ ·)

def unsigned (l : Layout) (x : Amount) : List Char :=
  if x.isZero then positional l.pointZero ['0'] 0
  else
    let d := shortest l.tie x
    let digits := Nat.toDigits 10 d.digits
    let leading := d.exponent + digits.length - 1
    if l.isPlain leading then positional l.pointZero digits d.exponent
    else scientific digits leading

/-- The text of a finite amount. -/
def finite (l : Layout) (x : Amount) : List Char :=
  if x.negative then '-' :: l.unsigned x else l.unsigned x

end Layout
end StreamLang.Decimal
