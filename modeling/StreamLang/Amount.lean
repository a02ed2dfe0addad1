/-!
Amounts are 64-bit binary floating point numbers kept as their bits, so two amounts are the same
exactly when their bits are. What programs call equal is `Amount.equal`: a zero equals its negative
and an undefined amount (NaN) differs from everything. Sums, differences, products and quotients
are rounded once; the remainder is computed exactly from significands and scales.
-/
namespace StreamLang

structure Amount where
  bits : UInt64
  deriving DecidableEq, Repr

namespace Amount

def negative (x : Amount) : Bool := x.bits &&& 0x8000000000000000 != 0

/-- The eleven exponent bits. -/
def exponentBits (x : Amount) : Nat := ((x.bits >>> 52) &&& 0x7FF).toNat

/-- The fifty-two bits after the leading one. -/
def fraction (x : Amount) : Nat := (x.bits &&& 0xFFFFFFFFFFFFF).toNat

def isNaN (x : Amount) : Bool := x.exponentBits == 0x7FF && x.fraction != 0

def isFinite (x : Amount) : Bool := x.exponentBits != 0x7FF

/-- The bits without the sign: they grow with the distance from zero. -/
def magnitude (x : Amount) : Nat := (x.bits &&& 0x7FFFFFFFFFFFFFFF).toNat

def isZero (x : Amount) : Bool := x.magnitude == 0

/-- Orders all amounts but NaN, with both zeros at zero. -/
def key (x : Amount) : Int := if x.negative then -(x.magnitude : Int) else x.magnitude

/-- A finite amount is `significand * 2 ^ scale` up to its sign. -/
def significand (x : Amount) : Nat :=
  if x.exponentBits = 0 then x.fraction else 0x10000000000000 + x.fraction

def scale (x : Amount) : Int :=
  if x.exponentBits = 0 then -1074 else (x.exponentBits : Int) - 1075

def comparable (x y : Amount) : Bool := !x.isNaN && !y.isNaN

def equal (x y : Amount) : Bool := comparable x y && decide (x.key = y.key)
def less (x y : Amount) : Bool := comparable x y && decide (x.key < y.key)
def atMost (x y : Amount) : Bool := comparable x y && decide (x.key ≤ y.key)

def zero : Amount := ⟨0⟩
def infinity : Amount := ⟨0x7FF0000000000000⟩

/-- The result of an operation without a value, such as `0 / 0`. -/
def undefined : Amount := ⟨0xFFF8000000000000⟩

/-- A NaN as an operation hands it on: the same bits, marked as quiet. -/
def quiet (x : Amount) : Amount := ⟨x.bits ||| 0x0008000000000000⟩

def neg (x : Amount) : Amount := ⟨x.bits ^^^ 0x8000000000000000⟩

def withSign (negative : Bool) (x : Amount) : Amount := if negative then x.neg else x

def toFloat (x : Amount) : Float := Float.ofBits x.bits
def ofFloat (f : Float) : Amount := if f.isNaN then undefined else ⟨f.toBits⟩

def ofNat (n : Nat) : Amount := ofFloat (Float.ofNat n)

/-- Hands on the first NaN operand, otherwise rounds the exact result. -/
def rounded (op : Float → Float → Float) (x y : Amount) : Amount :=
  if x.isNaN then x.quiet
  else if y.isNaN then y.quiet
  else ofFloat (op x.toFloat y.toFloat)

def add : Amount → Amount → Amount := rounded (· + ·)
def sub : Amount → Amount → Amount := rounded (· - ·)
def mul : Amount → Amount → Amount := rounded (· * ·)
def div : Amount → Amount → Amount := rounded (· / ·)

instance : Add Amount := ⟨add⟩
instance : Sub Amount := ⟨sub⟩
instance : Mul Amount := ⟨mul⟩
instance : Div Amount := ⟨div⟩
instance : Neg Amount := ⟨neg⟩
instance : Inhabited Amount := ⟨zero⟩

/-- The amount `m * 2 ^ q`, for `m` of at most 53 bits and `q` at least -1074. -/
def ofScaled (negative : Bool) (m : Nat) (q : Int) : Amount :=
  if m = 0 then zero.withSign negative
  else
    let leading := q + m.log2
    let magnitude :=
      if leading < -1022 then m <<< (q + 1074).toNat
      else (leading + 1023).toNat <<< 52 + (m <<< (52 - m.log2) - 0x10000000000000)
    withSign negative ⟨magnitude.toUInt64⟩

/-- What is left of `x` after taking away `y` as often as it fits, with the sign of `x`. -/
def rem (x y : Amount) : Amount :=
  if x.isNaN then x.quiet
  else if y.isNaN then y.quiet
  else if !x.isFinite || y.isZero then undefined
  else if !y.isFinite then x
  else
    let q := min x.scale y.scale
    let m := x.significand <<< (x.scale - q).toNat
    let n := y.significand <<< (y.scale - q).toNat
    ofScaled x.negative (m % n) q

/-- Widens the bits of a 32-bit number; every one of them has its exact 64-bit counterpart. -/
def ofSingleBits (b : UInt32) : Amount :=
  let negative := b &&& 0x80000000 != 0
  let exponent := ((b >>> 23) &&& 0xFF).toNat
  let fraction := (b &&& 0x7FFFFF).toNat
  if exponent = 0xFF then
    if fraction = 0 then infinity.withSign negative
    else (withSign negative ⟨infinity.bits ||| (fraction <<< 29).toUInt64⟩).quiet
  else if exponent = 0 then ofScaled negative fraction (-149)
  else ofScaled negative (0x800000 + fraction) ((exponent : Int) - 150)

theorem equal_comm (x y : Amount) : equal x y = equal y x := by
  simp [equal, comparable, Bool.and_comm, eq_comm]

theorem equal_self {x : Amount} (h : x.isNaN = false) : equal x x = true := by
  simp [equal, comparable, h]

end Amount
end StreamLang
