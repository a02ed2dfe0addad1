import StreamLang.Amount
/-!
What a MessagePack encoding says. Text that is not valid UTF-8 counts as bytes. Extensions have no
meaning here and are only there to be passed over. Records are read on the way through the encoding,
where arrays, maps and extensions may nest up to a limit, except for what comes before the key that
tells its type: that is kept aside until then, and its names may be told in fewer ways.
-/
namespace StreamLang

/-- How many bytes an integer without a sign takes. -/
inductive IntegerWidth where
  | one
  | two
  | four
  | eight
  deriving DecidableEq, Repr, Inhabited

namespace IntegerWidth

def bytes : IntegerWidth → Nat
  | one => 1
  | two => 2
  | four => 4
  | eight => 8

/-- The shortest width of a number of at most eight bytes. -/
def least (n : Nat) : IntegerWidth :=
  if n < 0x100 then one else if n < 0x10000 then two else if n < 0x100000000 then four else eight

end IntegerWidth

inductive Item where
  | nil
  | boolean (b : Bool)
  /-- An integer in a form without a sign. -/
  | natural (w : IntegerWidth) (n : Nat)
  /-- An integer in a form with a sign. -/
  | integer (z : Int)
  | real (x : Amount)
  | text (s : String)
  | bytes (bs : List UInt8)
  | array (items : List Item)
  | map (entries : List (Item × Item))
  | extension
  deriving Repr, Inhabited

namespace Item

/-- A number in its shortest form. -/
def ofNat (n : Nat) : Item := natural (.least n) n

/-- Bytes will do for a text if they are one. -/
def text? : Item → Option String
  | text s => some s
  | bytes bs => String.fromUTF8? ⟨bs.toArray⟩
  | _ => none

def boolean? : Item → Option Bool
  | boolean b => some b
  | _ => none

def natural? : Item → Option Nat
  | natural _ n => some n
  | integer (.ofNat n) => some n
  | _ => none

/-- Any number; an integer is rounded. -/
def amount? : Item → Option Amount
  | natural _ n => some (Amount.ofNat n)
  | integer (.ofNat n) => some (Amount.ofNat n)
  | integer (.negSucc n) => some (Amount.ofNat (n + 1)).neg
  | real x => some x
  | _ => none

mutual
/-- How many arrays, maps and extensions lie inside one another. -/
def nesting : Item → Nat
  | array items => nestingItems items + 1
  | map entries => nestingEntries entries + 1
  | extension => 1
  | _ => 0

def nestingItems : List Item → Nat
  | [] => 0
  | i :: rest => max i.nesting (nestingItems rest)

def nestingEntries : List (Item × Item) → Nat
  | [] => 0
  | (k, v) :: rest => max (max k.nesting v.nesting) (nestingEntries rest)
end

/-- Where an item is met: on the way through the encoding, with so many levels left for arrays, maps
and extensions, or in what was kept aside, which is known to fit. -/
inductive Access where
  | passing (levels : Nat)
  | kept
  deriving DecidableEq, Repr

namespace Access

/-- Inside an array or a map, if there is a level left for it. -/
def inside : Access → Option Access
  | passing 0 => none
  | passing (levels + 1) => some (passing levels)
  | kept => some kept

/-- Whether there is room for an item that is passed over or kept aside. -/
def fits (i : Item) : Access → Bool
  | passing levels => i.nesting ≤ levels
  | kept => true

end Access

/-- The items of an array. On the way, no bytes at all are an empty array too. -/
def items? (a : Access) : Item → Option (Access × List Item)
  | array items => a.inside.map (·, items)
  | bytes [] => if a = .kept then none else some (a, [])
  | _ => none

def entries? (a : Access) : Item → Option (Access × List (Item × Item))
  | map entries => a.inside.map (·, entries)
  | _ => none

/-- The name that a key tells by its text or by its place among the names; nothing for another name.
In what was kept aside, a place takes one byte or eight. -/
def key? (a : Access) (names : List String) : Item → Option (Option String)
  | natural w n =>
    if a = .kept && (w = .two || w = .four) then none else some names[n]?
  | bytes bs => some ((bytes bs).text?.filter names.contains)
  | text s => some (some s |>.filter names.contains)
  | _ => none

/-- A choice among names: a key, or a map with a single key that leads to nothing. In what was kept
aside, the key has to be a text if it is not in a map, and an empty map is nothing too. -/
def choice? (a : Access) (names : List String) : Item → Option String
  | map [(k, nil)] => (key? a names k).join
  | map [(k, map [])] => if a = .kept then (key? a names k).join else none
  | text s => some s |>.filter names.contains
  | i => if a = .kept then none else (key? a names i).join

/-- The fields of a record, as far as they are known. Every key has to tell a name, none of the
known ones may appear twice, and there has to be room for the other fields. -/
def record? (a : Access) (names : List String) (i : Item) :
    Option (Access × List (String × Item)) := do
  let (a, entries) ← i.entries? a
  let named ← entries.mapM fun (k, v) => (key? a names k).map (·, v)
  guard (named.all fun (k, v) => k.isSome || a.fits v)
  let known := named.filterMap fun (k, v) => k.map (·, v)
  guard (decide (known.map Prod.fst).Nodup)
  return (a, known)

def field? (name : String) (fields : List (String × Item)) : Option Item :=
  (fields.find? (·.1 == name)).map Prod.snd

/-- What a field holds that may be missing or nil. -/
def nullable? (read : Item → Option α) : Option Item → Option (Option α)
  | none | some .nil => some none
  | some i => (read i).map some

end Item
end StreamLang
