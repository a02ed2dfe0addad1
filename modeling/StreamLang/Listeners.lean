/-!
Those who hear about passes, in the order in which they came. Numbers are given out once.
-/
namespace StreamLang

structure Listeners where
  present : List Nat
  /-- The number of the next one to come. -/
  next : Nat
  deriving DecidableEq, Repr

namespace Listeners

def empty : Listeners := ⟨[], 0⟩

def add (l : Listeners) : Nat × Listeners := (l.next, ⟨l.present ++ [l.next], l.next + 1⟩)

/-- Removes a listener and tells whether it was there. -/
def remove (l : Listeners) (k : Nat) : Bool × Listeners :=
  (l.present.contains k, { l with present := l.present.filter (· != k) })

def clear (l : Listeners) : Listeners := { l with present := [] }

/-- What is heard when all of them are told something. -/
def notices (l : Listeners) (news : α) : List (Nat × α) := l.present.map (·, news)

end Listeners
end StreamLang
