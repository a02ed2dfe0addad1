import StreamLang.Amount
/-!
Selects the decimal that stands for a finite amount: of the decimals that read back to it, one with
the fewest digits, and of those the nearest. The decimals that read back form an interval from
halfway to the neighbour below to halfway to the neighbour above, and every comparison with its
ends is made in exact natural arithmetic. On each grid of a power of ten only the two neighbours of
the amount have to be tried: if any point of the grid lies in the interval, one of them does.
-/
namespace StreamLang

/-- The number `digits * 10 ^ exponent`. -/
structure Decimal where
  digits : Nat
  exponent : Int
  deriving DecidableEq, Repr

namespace Decimal

/-- Which of two equally near candidates is taken. -/
inductive Tie where
  | toEven
  | awayFromZero
  deriving DecidableEq, Repr

/-- The power `10 ^ n`, for a natural `n`. -/
def pow10 (n : Nat) : Nat := Nat.pow 10 n

/-- Compares `a * 10 ^ i` with `n * 2 ^ j`. -/
def compareScaled (a : Nat) (i : Int) (n : Nat) (j : Int) : Ordering :=
  compare ((a * pow10 i.toNat) <<< (-j).toNat) ((n * pow10 (-i).toNat) <<< j.toNat)

/-- Below a power of two the neighbour is half as far away as above it. -/
def narrowBelow (x : Amount) : Bool := x.fraction == 0 && x.exponentBits > 1

/-- Whether rounding `d` to the nearest amount, ties to even, gives `x` up to its sign. -/
def readsBack (x : Amount) (d : Decimal) : Bool :=
  let m := x.significand
  let low := if narrowBelow x then 4 * m - 1 else 4 * m - 2
  let lower := compareScaled d.digits d.exponent low (x.scale - 2)
  let upper := compareScaled d.digits d.exponent (4 * m + 2) (x.scale - 2)
  let closed := m % 2 == 0
  (lower == .gt || closed && lower == .eq) && (upper == .lt || closed && upper == .eq)

/-- The least `k` with `x < 10 ^ k`, found from the binary exponent: `30103 / 100000` is close
enough to the logarithm of two that the answer is one of three. -/
def pointPosition (x : Amount) : Int :=
  let guess := Int.fdiv ((x.significand.log2 + x.scale) * 30103) 100000
  let bounds (k : Int) := compareScaled 1 k x.significand x.scale == .gt
  if bounds guess then guess else if bounds (guess + 1) then guess + 1 else guess + 2

/-- The neighbour of `x` on the grid of `10 ^ exponent` that reads back, the nearer if both do. -/
def onGrid? (tie : Tie) (x : Amount) (exponent : Int) : Option Decimal :=
  let numerator := (x.significand * pow10 (-exponent).toNat) <<< x.scale.toNat
  let denominator := pow10 exponent.toNat <<< (-x.scale).toNat
  let below : Decimal := ⟨numerator / denominator, exponent⟩
  let above : Decimal := ⟨numerator / denominator + 1, exponent⟩
  match readsBack x below, readsBack x above with
  | false, false => none
  | true, false => some below
  | false, true => some above
  | true, true =>
    match compare (2 * (numerator % denominator)) denominator with
    | .lt => some below
    | .gt => some above
    | .eq => match tie with
      | .awayFromZero => some above
      | .toEven => some (if below.digits % 2 = 0 then below else above)

/-- Moves trailing zeros of the digits into the exponent, at most `n` of them. -/
def stripZeros : Nat → Decimal → Decimal
  | 0, d => d
  | n + 1, d =>
    if d.digits ≠ 0 ∧ d.digits % 10 = 0 then stripZeros n ⟨d.digits / 10, d.exponent + 1⟩ else d

/-- The exact value, written out; it reads back whatever its length. -/
def exact (x : Amount) : Decimal :=
  if 0 ≤ x.scale then ⟨x.significand <<< x.scale.toNat, 0⟩
  else ⟨x.significand * Nat.pow 5 (-x.scale).toNat, x.scale⟩

/-- The decimal that stands for a finite amount other than zero. Seventeen digits always suffice. -/
def shortest (tie : Tie) (x : Amount) : Decimal :=
  let k := pointPosition x
  let found := (List.range 17).findSome? fun (n : Nat) => onGrid? tie x (k - (n + 1 : Nat))
  stripZeros 17 (found.getD (exact x))

end Decimal
end StreamLang
