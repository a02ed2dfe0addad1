import StreamLang.Decimal.Layout
/-!
An amount with an optional unit. The empty unit is a unit, so `1` and `1` with an empty unit look
alike and differ.
-/
namespace StreamLang

structure Number where
  amount : Amount
  unit : Option String
  deriving DecidableEq, Repr

namespace Number

def plain (x : Amount) : Number := ⟨x, none⟩

def equal (a b : Number) : Bool := a.amount.equal b.amount && a.unit == b.unit

/-- Amounts are shown positionally, however long that gets, without a trailing `.0`. -/
def displayLayout : Decimal.Layout := ⟨none, none, false, .awayFromZero⟩

end Number

def Amount.display (x : Amount) : List Char :=
  if x.isNaN then "NaN".toList
  else if x.isFinite then Number.displayLayout.finite x
  else if x.negative then "-inf".toList
  else "inf".toList

def Number.display (n : Number) : List Char := n.amount.display ++ (n.unit.getD "").toList

end StreamLang
