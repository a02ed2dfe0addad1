import StreamLang.MessagePack.Basic
/-!
Writes MessagePack. Every length takes the shortest form that holds it, and so does every integer
of its kind and width; numbers that are not integers take eight bytes.
-/
namespace StreamLang.Item

/-- The last `width` bytes of a number, the most significant one first. -/
def bigEndian : Nat → Nat → List UInt8
  | 0, _ => []
  | width + 1, n => (n >>> (8 * width)).toUInt8 :: bigEndian width n

/-- A head for lengths that fit the first form below `limit`, and one, two or four bytes after the
markers `m` otherwise; the first of them is missing where there is no form with one byte. -/
def lengthHead (first : UInt8) (limit : Nat) (m1 : Option UInt8) (m2 m4 : UInt8) (n : Nat) :
    List UInt8 :=
  if n < limit then [first + n.toUInt8]
  else match m1 with
    | some m1 =>
      if n < 0x100 then m1 :: bigEndian 1 n
      else if n < 0x10000 then m2 :: bigEndian 2 n
      else m4 :: bigEndian 4 n
    | none => if n < 0x10000 then m2 :: bigEndian 2 n else m4 :: bigEndian 4 n

def naturalMarker : IntegerWidth → UInt8
  | .one => 0xcc
  | .two => 0xcd
  | .four => 0xce
  | .eight => 0xcf

/-- A number below 128 is its own marker, unless it is to be wider. -/
def encodeNatural (w : IntegerWidth) (n : Nat) : List UInt8 :=
  if w = .one && n < 128 then [n.toUInt8] else naturalMarker w :: bigEndian w.bytes n

/-- The last `width` bytes of an integer in two's complement. -/
def signedBytes (width : Nat) (z : Int) : List UInt8 :=
  bigEndian width (z % (1 <<< (8 * width) : Nat)).toNat

def encodeInteger (z : Int) : List UInt8 :=
  let within (limit : Int) : Bool := -limit ≤ z && z < limit
  if z < 0 && within 32 then signedBytes 1 z
  else if within 0x80 then 0xd0 :: signedBytes 1 z
  else if within 0x8000 then 0xd1 :: signedBytes 2 z
  else if within 0x80000000 then 0xd2 :: signedBytes 4 z
  else 0xd3 :: signedBytes 8 z

def encodeText (s : String) : List UInt8 :=
  let bs := s.toUTF8.data.toList
  lengthHead 0xa0 32 (some 0xd9) 0xda 0xdb bs.length ++ bs

mutual
def encode : Item → List UInt8
  | nil => [0xc0]
  | boolean b => [if b then 0xc3 else 0xc2]
  | natural w n => encodeNatural w n
  | integer z => encodeInteger z
  | real x => 0xcb :: bigEndian 8 x.bits.toNat
  | text s => encodeText s
  | bytes bs => lengthHead 0 0 (some 0xc4) 0xc5 0xc6 bs.length ++ bs
  | array items => lengthHead 0x90 16 none 0xdc 0xdd items.length ++ encodeItems items
  | map entries => lengthHead 0x80 16 none 0xde 0xdf entries.length ++ encodeEntries entries
  | extension => [0xd4, 0, 0]

def encodeItems : List Item → List UInt8
  | [] => []
  | i :: rest => i.encode ++ encodeItems rest

def encodeEntries : List (Item × Item) → List UInt8
  | [] => []
  | (k, v) :: rest => k.encode ++ v.encode ++ encodeEntries rest
end

end StreamLang.Item
