import StreamLang.MessagePack.Basic
/-!
Reads MessagePack. Any form of a length or an integer is accepted. Every second call takes a byte
away, which bounds the recursion.
-/
namespace StreamLang.Item

/-- The first bytes and the others, if there are enough. -/
def takeBytes? (n : Nat) (bs : List UInt8) : Option (List UInt8 × List UInt8) :=
  if bs.length < n then none else some (bs.take n, bs.drop n)

def ofBigEndian (bs : List UInt8) : Nat := bs.foldl (fun n b => n * 256 + b.toNat) 0

/-- A number in so many bytes. -/
def wideNatural? (width : Nat) (bs : List UInt8) : Option (Nat × List UInt8) :=
  (takeBytes? width bs).map fun (head, rest) => (ofBigEndian head, rest)

def unsigned? (w : IntegerWidth) (bs : List UInt8) : Option (Item × List UInt8) :=
  (wideNatural? w.bytes bs).map fun (n, rest) => (natural w n, rest)

/-- An integer in so many bytes, the first bit being the sign. -/
def signed? (width : Nat) (bs : List UInt8) : Option (Item × List UInt8) :=
  (wideNatural? width bs).map fun (n, rest) =>
    (integer (if n < 1 <<< (8 * width - 1) then n else (n : Int) - (1 <<< (8 * width) : Nat)), rest)

def textOfBytes (bs : List UInt8) : Item := ((bytes bs).text?.map text).getD (bytes bs)

def sizedText? (n : Nat) (bs : List UInt8) : Option (Item × List UInt8) :=
  (takeBytes? n bs).map fun (head, rest) => (textOfBytes head, rest)

def wideText? (width : Nat) (bs : List UInt8) : Option (Item × List UInt8) := do
  let (n, bs) ← wideNatural? width bs
  sizedText? n bs

def wideBytes? (width : Nat) (bs : List UInt8) : Option (Item × List UInt8) := do
  let (n, bs) ← wideNatural? width bs
  let (head, rest) ← takeBytes? n bs
  return (bytes head, rest)

/-- An extension with `n` bytes of data after its type. -/
def sizedExtension? (n : Nat) (bs : List UInt8) : Option (Item × List UInt8) :=
  (takeBytes? (n + 1) bs).map fun (_, rest) => (extension, rest)

def wideExtension? (width : Nat) (bs : List UInt8) : Option (Item × List UInt8) := do
  let (n, bs) ← wideNatural? width bs
  sizedExtension? n bs

/-- What the marker `m` leads to, apart from arrays and maps. -/
def scalar? (m : Nat) (bs : List UInt8) : Option (Item × List UInt8) :=
  if m < 0x80 then some (natural .one m, bs)
  else if 0xa0 ≤ m && m < 0xc0 then sizedText? (m - 0xa0) bs
  else if 0xe0 ≤ m then some (integer ((m : Int) - 0x100), bs)
  else match m with
    | 0xc0 => some (nil, bs)
    | 0xc2 => some (boolean false, bs)
    | 0xc3 => some (boolean true, bs)
    | 0xc4 => wideBytes? 1 bs
    | 0xc5 => wideBytes? 2 bs
    | 0xc6 => wideBytes? 4 bs
    | 0xc7 => wideExtension? 1 bs
    | 0xc8 => wideExtension? 2 bs
    | 0xc9 => wideExtension? 4 bs
    | 0xca => (wideNatural? 4 bs).map fun (n, rest) => (real (.ofSingleBits n.toUInt32), rest)
    | 0xcb => (wideNatural? 8 bs).map fun (n, rest) => (real ⟨n.toUInt64⟩, rest)
    | 0xcc => unsigned? .one bs
    | 0xcd => unsigned? .two bs
    | 0xce => unsigned? .four bs
    | 0xcf => unsigned? .eight bs
    | 0xd0 => signed? 1 bs
    | 0xd1 => signed? 2 bs
    | 0xd2 => signed? 4 bs
    | 0xd3 => signed? 8 bs
    | 0xd4 => sizedExtension? 1 bs
    | 0xd5 => sizedExtension? 2 bs
    | 0xd6 => sizedExtension? 4 bs
    | 0xd7 => sizedExtension? 8 bs
    | 0xd8 => sizedExtension? 16 bs
    | 0xd9 => wideText? 1 bs
    | 0xda => wideText? 2 bs
    | 0xdb => wideText? 4 bs
    | _ => none

/-- How many items follow the marker of an array. -/
def arrayLength? (m : Nat) (bs : List UInt8) : Option (Nat × List UInt8) :=
  if 0x90 ≤ m && m < 0xa0 then some (m - 0x90, bs)
  else if m = 0xdc then wideNatural? 2 bs
  else if m = 0xdd then wideNatural? 4 bs
  else none

/-- How many entries follow the marker of a map. -/
def mapLength? (m : Nat) (bs : List UInt8) : Option (Nat × List UInt8) :=
  if 0x80 ≤ m && m < 0x90 then some (m - 0x80, bs)
  else if m = 0xde then wideNatural? 2 bs
  else if m = 0xdf then wideNatural? 4 bs
  else none

mutual
def decodeItem : Nat → List UInt8 → Option (Item × List UInt8)
  | 0, _ => none
  | _ + 1, [] => none
  | bound + 1, m :: bs =>
    match arrayLength? m.toNat bs, mapLength? m.toNat bs with
    | some (n, bs), _ => (decodeItems bound n bs).map fun (is, rest) => (array is, rest)
    | none, some (n, bs) => (decodeEntries bound n bs).map fun (es, rest) => (map es, rest)
    | none, none => scalar? m.toNat bs

def decodeItems : Nat → Nat → List UInt8 → Option (List Item × List UInt8)
  | _, 0, bs => some ([], bs)
  | 0, _ + 1, _ => none
  | bound + 1, n + 1, bs => do
    let (i, bs) ← decodeItem bound bs
    let (is, bs) ← decodeItems bound n bs
    return (i :: is, bs)

def decodeEntries : Nat → Nat → List UInt8 → Option (List (Item × Item) × List UInt8)
  | _, 0, bs => some ([], bs)
  | 0, _ + 1, _ => none
  | bound + 1, n + 1, bs => do
    let (k, bs) ← decodeItem bound bs
    let (v, bs) ← decodeItem bound bs
    let (es, bs) ← decodeEntries bound n bs
    return ((k, v) :: es, bs)
end

/-- Reads the item at the start; what follows it is not looked at. -/
def decode (bs : List UInt8) : Option Item :=
  (decodeItem (2 * bs.length + 2) bs).map Prod.fst

end StreamLang.Item
