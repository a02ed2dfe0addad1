import Mathlib.Tactic.Ring
import StreamLang.MessagePack.Reader
import StreamLang.MessagePack.Writer
/-!
Whatever the format can hold is read back as it was written, whatever follows it. A number that takes
too many bytes, or a length that does, has no form in the format; all else has.
-/
namespace StreamLang

namespace Item

mutual
/-- Whether the format can hold the item: integers have at most eight bytes, lengths at most four. -/
def fits : Item → Bool
  | natural w n => n < 256 ^ w.bytes
  | integer z => -0x8000000000000000 ≤ z && z < 0x8000000000000000
  | text s => s.utf8ByteSize < 256 ^ 4
  | bytes bs => bs.length < 256 ^ 4
  | array items => items.length < 256 ^ 4 && fitsItems items
  | map entries => entries.length < 256 ^ 4 && fitsEntries entries
  | _ => true

def fitsItems : List Item → Bool
  | [] => true
  | i :: rest => i.fits && fitsItems rest

def fitsEntries : List (Item × Item) → Bool
  | [] => true
  | (k, v) :: rest => k.fits && v.fits && fitsEntries rest
end

/-! ### Numbers in so many bytes -/

theorem length_bigEndian (width n : Nat) : (bigEndian width n).length = width := by
  induction width with
  | zero => rfl
  | succ width ih => exact congrArg Nat.succ ih

theorem foldl_bigEndian (width n acc : Nat) :
    (bigEndian width n).foldl (fun n b => n * 256 + b.toNat) acc =
      acc * 256 ^ width + n % 256 ^ width := by
  induction width generalizing acc with
  | zero => simp [bigEndian, Nat.mod_one]
  | succ width ih =>
    have hshift : n >>> (8 * width) = n / 256 ^ width := by
      rw [Nat.shiftRight_eq_div_pow, Nat.pow_mul]
    have hbyte : ((n >>> (8 * width)).toUInt8).toNat = n / 256 ^ width % 256 := by
      rw [hshift]
      exact UInt8.toNat_ofNat'
    have hmod : n % 256 ^ (width + 1) = n % 256 ^ width + 256 ^ width * (n / 256 ^ width % 256) :=
      Nat.mod_pow_succ
    rw [bigEndian, List.foldl_cons, ih, hbyte, hmod, Nat.pow_succ]
    ring

theorem ofBigEndian_bigEndian {width n : Nat} (h : n < 256 ^ width) :
    ofBigEndian (bigEndian width n) = n := by
  rw [ofBigEndian, foldl_bigEndian, Nat.zero_mul, Nat.zero_add, Nat.mod_eq_of_lt h]

theorem takeBytes?_append {bs : List UInt8} {n : Nat} (h : bs.length = n) (rest : List UInt8) :
    takeBytes? n (bs ++ rest) = some (bs, rest) := by
  subst h
  simp [takeBytes?]

theorem wideNatural?_bigEndian {width n : Nat} (h : n < 256 ^ width) (rest : List UInt8) :
    wideNatural? width (bigEndian width n ++ rest) = some (n, rest) := by
  rw [wideNatural?, takeBytes?_append (length_bigEndian width n), Option.map_some]
  simp only [ofBigEndian_bigEndian h]

/-- Of an integer in two's complement the first half of the range stands for itself. -/
theorem ofComplement {range half : Nat} (hhalf : 2 * half = range) {z : Int} (hl : -half ≤ z)
    (hu : z < half) :
    (z % (range : Int)).toNat < range ∧
      (if (z % (range : Int)).toNat < half then ((z % (range : Int)).toNat : Int)
        else ((z % (range : Int)).toNat : Int) - range) = z := by
  by_cases hz : 0 ≤ z
  · have hmod : z % (range : Int) = z := Int.emod_eq_of_lt hz (by omega)
    rw [hmod, if_pos (by omega)]
    omega
  · have hmod : z % (range : Int) = z + range := by
      rw [← Int.add_emod_right]
      exact Int.emod_eq_of_lt (by omega) (by omega)
    rw [hmod, if_neg (by omega)]
    omega

theorem signed?_signedBytes (width : Nat) (hw : 0 < width) {z : Int}
    (hl : -(1 <<< (8 * width - 1) : Nat) ≤ z) (hu : z < (1 <<< (8 * width - 1) : Nat))
    (rest : List UInt8) : signed? width (signedBytes width z ++ rest) = some (integer z, rest) := by
  have hhalf : 2 * (1 <<< (8 * width - 1)) = 1 <<< (8 * width) := by
    have hexp : 8 * width = (8 * width - 1) + 1 := by omega
    rw [hexp, Nat.shiftLeft_succ]
    rfl
  have hrange : 1 <<< (8 * width) = 256 ^ width := by rw [Nat.one_shiftLeft, Nat.pow_mul]
  obtain ⟨hlt, heq⟩ := ofComplement hhalf hl hu
  rw [signed?, signedBytes, wideNatural?_bigEndian (hrange ▸ hlt), Option.map_some]
  simp only [heq]

/-! ### Heads -/

/-- The forms of a head, each with what its length is below. -/
theorem lengthHead_cases (first : UInt8) (limit : Nat) (m1 : Option UInt8) (m2 m4 : UInt8) {n : Nat}
    (h : n < 256 ^ 4) :
    n < limit ∧ lengthHead first limit m1 m2 m4 n = [first + n.toUInt8] ∨
    (∃ m, m1 = some m ∧ n < 256 ^ 1 ∧ lengthHead first limit m1 m2 m4 n = m :: bigEndian 1 n) ∨
    n < 256 ^ 2 ∧ lengthHead first limit m1 m2 m4 n = m2 :: bigEndian 2 n ∨
    lengthHead first limit m1 m2 m4 n = m4 :: bigEndian 4 n := by
  unfold lengthHead
  by_cases h0 : n < limit
  · exact .inl ⟨h0, if_pos h0⟩
  · rw [if_neg h0]
    right
    by_cases h2 : n < 0x10000
    · cases m1 with
      | none => exact .inr (.inl ⟨h2, if_pos h2⟩)
      | some m =>
        by_cases h1 : n < 0x100
        · exact .inl ⟨m, rfl, h1, if_pos h1⟩
        · exact .inr (.inl ⟨h2, by simp only [if_neg h1, if_pos h2]⟩)
    · cases m1 with
      | none => exact .inr (.inr (if_neg h2))
      | some m => exact .inr (.inr (by simp only [if_neg h2, if_neg (show ¬ n < 0x100 by omega)]))

/-- A marker with a small length in it. -/
theorem toNat_marker {first : UInt8} {n : Nat} (h : first.toNat + n < 256) :
    (first + n.toUInt8).toNat = first.toNat + n := by
  have hn : n.toUInt8.toNat = n % 256 := UInt8.toNat_ofNat'
  rw [UInt8.toNat_add, hn]
  omega

/-- A marker that opens neither an array nor a map leads to a scalar. -/
theorem decodeItem_scalar {m : UInt8} (h : m.toNat < 0x80 ∨ 0xa0 ≤ m.toNat ∧ m.toNat < 0xdc ∨ 0xe0 ≤ m.toNat)
    (bound : Nat) (bs : List UInt8) :
    decodeItem (bound + 1) (m :: bs) = scalar? m.toNat bs := by
  have harray : arrayLength? m.toNat bs = none := by
    rw [arrayLength?, if_neg (by simp; omega), if_neg (by omega), if_neg (by omega)]
  have hmap : mapLength? m.toNat bs = none := by
    rw [mapLength?, if_neg (by simp; omega), if_neg (by omega), if_neg (by omega)]
  simp only [decodeItem, harray, hmap]

/-! ### Scalars -/

theorem textOfBytes_toUTF8 (s : String) : textOfBytes s.toUTF8.data.toList = text s := by
  have hread : String.fromUTF8? s.toUTF8 = some s := by
    unfold String.fromUTF8?
    rw [String.toUTF8_eq_toByteArray, dif_pos s.isValidUTF8]
    rfl
  have htext : (bytes s.toUTF8.data.toList).text? = some s := by
    rw [text?, Array.toArray_toList]
    exact hread
  rw [textOfBytes, htext]
  rfl

theorem sizedText?_append {s : String} {n : Nat} (h : s.toUTF8.data.toList.length = n)
    (rest : List UInt8) : sizedText? n (s.toUTF8.data.toList ++ rest) = some (text s, rest) := by
  rw [sizedText?, takeBytes?_append h, Option.map_some]
  simp only [textOfBytes_toUTF8]

theorem wideText?_append {s : String} {width n : Nat} (h : s.toUTF8.data.toList.length = n)
    (hn : n < 256 ^ width) (rest : List UInt8) :
    wideText? width (bigEndian width n ++ (s.toUTF8.data.toList ++ rest)) = some (text s, rest) := by
  rw [wideText?, wideNatural?_bigEndian hn]
  exact sizedText?_append h rest

theorem wideBytes?_append {bs : List UInt8} {width n : Nat} (h : bs.length = n)
    (hn : n < 256 ^ width) (rest : List UInt8) :
    wideBytes? width (bigEndian width n ++ (bs ++ rest)) = some (bytes bs, rest) := by
  rw [wideBytes?, wideNatural?_bigEndian hn]
  simp [takeBytes?_append h]

theorem scalar?_of_small {m : Nat} (h : m < 0x80) (bs : List UInt8) :
    scalar? m bs = some (natural .one m, bs) := if_pos h

theorem scalar?_of_text {n : Nat} (h : n < 32) (bs : List UInt8) :
    scalar? (0xa0 + n) bs = sizedText? n bs := by
  unfold scalar?
  rw [if_neg (by omega), if_pos (by simp; omega), Nat.add_sub_cancel_left]

theorem scalar?_of_large {m : Nat} (h : 0xe0 ≤ m) (bs : List UInt8) :
    scalar? m bs = some (integer ((m : Int) - 0x100), bs) := by
  unfold scalar?
  rw [if_neg (by omega), if_neg (by simp; omega), if_pos h]

variable (bound : Nat) (rest : List UInt8)

theorem decodeItem_text {s : String} (h : (text s).fits = true) :
    decodeItem (bound + 1) ((text s).encode ++ rest) = some (text s, rest) := by
  have hlen : s.toUTF8.data.toList.length < 256 ^ 4 := by simpa [fits] using h
  rw [encode, encodeText, List.append_assoc]
  generalize hn : s.toUTF8.data.toList.length = n at hlen
  rcases lengthHead_cases 0xa0 32 (some 0xd9) 0xda 0xdb hlen with
    ⟨hlt, heq⟩ | ⟨m, hm, hlt, heq⟩ | ⟨hlt, heq⟩ | heq
  · have hm : (0xa0 + n.toUInt8 : UInt8).toNat = 0xa0 + n :=
      toNat_marker (show (0xa0 : UInt8).toNat + n < 256 from by simp; omega)
    rw [heq, List.singleton_append, decodeItem_scalar (by omega), hm, scalar?_of_text hlt]
    exact sizedText?_append hn rest
  · obtain rfl : 0xd9 = m := Option.some.inj hm
    rw [heq, List.cons_append, decodeItem_scalar (by decide)]
    exact wideText?_append hn hlt rest
  · rw [heq, List.cons_append, decodeItem_scalar (by decide)]
    exact wideText?_append hn hlt rest
  · rw [heq, List.cons_append, decodeItem_scalar (by decide)]
    exact wideText?_append hn hlen rest

theorem decodeItem_bytes {bs : List UInt8} (h : (bytes bs).fits = true) :
    decodeItem (bound + 1) ((bytes bs).encode ++ rest) = some (bytes bs, rest) := by
  have hlen : bs.length < 256 ^ 4 := by simpa [fits] using h
  rw [encode, List.append_assoc]
  generalize hn : bs.length = n at hlen
  rcases lengthHead_cases 0 0 (some 0xc4) 0xc5 0xc6 hlen with
    ⟨hlt, -⟩ | ⟨m, hm, hlt, heq⟩ | ⟨hlt, heq⟩ | heq
  · omega
  · obtain rfl : 0xc4 = m := Option.some.inj hm
    rw [heq, List.cons_append, decodeItem_scalar (by decide)]
    exact wideBytes?_append hn hlt rest
  · rw [heq, List.cons_append, decodeItem_scalar (by decide)]
    exact wideBytes?_append hn hlt rest
  · rw [heq, List.cons_append, decodeItem_scalar (by decide)]
    exact wideBytes?_append hn hlen rest

theorem decodeItem_natural {w : IntegerWidth} {n : Nat} (h : (natural w n).fits = true) :
    decodeItem (bound + 1) ((natural w n).encode ++ rest) = some (natural w n, rest) := by
  have hn : n < 256 ^ w.bytes := by simpa [fits] using h
  rw [encode, encodeNatural]
  split
  · rename_i hsmall
    obtain ⟨rfl, hlt⟩ : w = .one ∧ n < 128 := by simpa using hsmall
    have hm : n.toUInt8.toNat = n := by
      have : n.toUInt8.toNat = n % 256 := UInt8.toNat_ofNat'
      omega
    rw [List.singleton_append, decodeItem_scalar (by omega), hm, scalar?_of_small hlt]
  · have hwide := wideNatural?_bigEndian hn rest
    have hread : unsigned? w (bigEndian w.bytes n ++ rest) = some (natural w n, rest) := by
      rw [unsigned?, hwide]
      rfl
    rw [List.cons_append]
    cases w <;> exact (decodeItem_scalar (by decide) _ _).trans hread

theorem decodeItem_integer {z : Int} (h : (integer z).fits = true) :
    decodeItem (bound + 1) ((integer z).encode ++ rest) = some (integer z, rest) := by
  have hz : -0x8000000000000000 ≤ z ∧ z < 0x8000000000000000 := by simpa [fits] using h
  rw [encode, encodeInteger]
  dsimp only
  split
  · -- the marker of a small negative number is the number itself
    rename_i hsmall
    have hsmall : z < 0 ∧ -32 ≤ z := by simp at hsmall; omega
    have hbyte : signedBytes 1 z = [(z + 256).toNat.toUInt8] := by
      have hmod : z % (1 <<< (8 * 1) : Nat) = z + 256 := by
        rw [← Int.add_emod_right]
        exact Int.emod_eq_of_lt (by omega) (by omega)
      rw [signedBytes, hmod]
      rfl
    have hm : (z + 256).toNat.toUInt8.toNat = (z + 256).toNat := by
      have : (z + 256).toNat.toUInt8.toNat = (z + 256).toNat % 256 := UInt8.toNat_ofNat'
      omega
    rw [hbyte, List.singleton_append, decodeItem_scalar (by omega), hm,
      scalar?_of_large (by omega)]
    congr 3
    omega
  · split
    · rename_i hw
      have hw : -0x80 ≤ z ∧ z < 0x80 := by simpa using hw
      rw [List.cons_append, decodeItem_scalar (by decide)]
      exact signed?_signedBytes 1 (by decide) hw.1 hw.2 rest
    · split
      · rename_i hw
        have hw : -0x8000 ≤ z ∧ z < 0x8000 := by simpa using hw
        rw [List.cons_append, decodeItem_scalar (by decide)]
        exact signed?_signedBytes 2 (by decide) hw.1 hw.2 rest
      · split
        · rename_i hw
          have hw : -0x80000000 ≤ z ∧ z < 0x80000000 := by simpa using hw
          rw [List.cons_append, decodeItem_scalar (by decide)]
          exact signed?_signedBytes 4 (by decide) hw.1 hw.2 rest
        · rw [List.cons_append, decodeItem_scalar (by decide)]
          exact signed?_signedBytes 8 (by decide) hz.1 hz.2 rest

theorem decodeItem_real (x : Amount) :
    decodeItem (bound + 1) ((real x).encode ++ rest) = some (real x, rest) := by
  have hx : x.bits.toNat < 256 ^ 8 := x.bits.toNat_lt
  have hread : scalar? 0xcb (bigEndian 8 x.bits.toNat ++ rest) = some (real x, rest) := by
    have : scalar? 0xcb (bigEndian 8 x.bits.toNat ++ rest) =
        (wideNatural? 8 (bigEndian 8 x.bits.toNat ++ rest)).map
          fun p => (real ⟨p.1.toUInt64⟩, p.2) := rfl
    rw [this, wideNatural?_bigEndian hx]
    simp
  rw [encode, List.cons_append, decodeItem_scalar (by decide)]
  exact hread

/-! ### Arrays and maps -/

theorem exists_lengthHead (first : UInt8) (limit : Nat) (m1 : Option UInt8) (m2 m4 : UInt8)
    (n : Nat) : ∃ m head, lengthHead first limit m1 m2 m4 n = m :: head := by
  unfold lengthHead
  split
  · exact ⟨_, _, rfl⟩
  · cases m1 with
    | none =>
      dsimp only
      split <;> exact ⟨_, _, rfl⟩
    | some m =>
      dsimp only
      split
      · exact ⟨_, _, rfl⟩
      · split <;> exact ⟨_, _, rfl⟩

theorem encode_pos (i : Item) : 0 < i.encode.length := by
  have head (first : UInt8) (limit : Nat) (m1 : Option UInt8) (m2 m4 : UInt8) (n : Nat)
      (bs : List UInt8) : 0 < (lengthHead first limit m1 m2 m4 n ++ bs).length := by
    obtain ⟨m, rest, heq⟩ := exists_lengthHead first limit m1 m2 m4 n
    rw [heq, List.cons_append]
    exact Nat.succ_pos _
  cases i with
  | text s => exact head _ _ _ _ _ _ _
  | bytes bs => exact head _ _ _ _ _ _ _
  | array items => exact head _ _ _ _ _ _ _
  | map entries => exact head _ _ _ _ _ _ _
  | natural w n =>
    rw [encode, encodeNatural]
    split <;> simp
  | integer z =>
    rw [encode, encodeInteger]
    dsimp only
    split
    · rw [signedBytes, length_bigEndian]
      exact Nat.one_pos
    · repeat' split
      all_goals exact Nat.succ_pos _
  | _ => exact Nat.succ_pos _

/-- An item after the head of an array is read as so many items. -/
theorem decodeItem_arrayHead {n : Nat} (h : n < 256 ^ 4) (bound : Nat) (bs : List UInt8) :
    decodeItem (bound + 1) (lengthHead 0x90 16 none 0xdc 0xdd n ++ bs) =
      (decodeItems bound n bs).map fun (is, rest) => (array is, rest) := by
  obtain ⟨m, head, heq, hlen⟩ : ∃ m head, lengthHead 0x90 16 none 0xdc 0xdd n = m :: head ∧
      arrayLength? m.toNat (head ++ bs) = some (n, bs) := by
    rcases lengthHead_cases 0x90 16 none 0xdc 0xdd h with
      ⟨hlt, heq⟩ | ⟨m, hm, -⟩ | ⟨hlt, heq⟩ | heq
    · have hm : (0x90 + n.toUInt8 : UInt8).toNat = 0x90 + n :=
        toNat_marker (show (0x90 : UInt8).toNat + n < 256 from by simp; omega)
      refine ⟨_, _, heq, ?_⟩
      rw [hm, arrayLength?, if_pos (by simp; omega), Nat.add_sub_cancel_left]
      rfl
    · cases hm
    · exact ⟨_, _, heq, wideNatural?_bigEndian hlt bs⟩
    · exact ⟨_, _, heq, wideNatural?_bigEndian h bs⟩
  rw [heq, List.cons_append]
  simp only [decodeItem, hlen]

theorem decodeItem_mapHead {n : Nat} (h : n < 256 ^ 4) (bound : Nat) (bs : List UInt8) :
    decodeItem (bound + 1) (lengthHead 0x80 16 none 0xde 0xdf n ++ bs) =
      (decodeEntries bound n bs).map fun (es, rest) => (map es, rest) := by
  obtain ⟨m, head, heq, harray, hlen⟩ : ∃ m head,
      lengthHead 0x80 16 none 0xde 0xdf n = m :: head ∧
      arrayLength? m.toNat (head ++ bs) = none ∧ mapLength? m.toNat (head ++ bs) = some (n, bs) := by
    rcases lengthHead_cases 0x80 16 none 0xde 0xdf h with
      ⟨hlt, heq⟩ | ⟨m, hm, -⟩ | ⟨hlt, heq⟩ | heq
    · have hm : (0x80 + n.toUInt8 : UInt8).toNat = 0x80 + n :=
        toNat_marker (show (0x80 : UInt8).toNat + n < 256 from by simp; omega)
      refine ⟨_, _, heq, ?_, ?_⟩
      · rw [hm, arrayLength?, if_neg (by simp; omega), if_neg (by omega), if_neg (by omega)]
      · rw [hm, mapLength?, if_pos (by simp; omega), Nat.add_sub_cancel_left]
        rfl
    · cases hm
    · exact ⟨_, _, heq, rfl, wideNatural?_bigEndian hlt bs⟩
    · exact ⟨_, _, heq, rfl, wideNatural?_bigEndian h bs⟩
  rw [heq, List.cons_append]
  simp only [decodeItem, harray, hlen]

mutual
/-- An item is read back whatever follows it, if the bound allows two calls for each of its bytes. -/
theorem decodeItem_encode : ∀ (i : Item) (bound : Nat) (rest : List UInt8), i.fits = true →
    2 * i.encode.length ≤ bound + 2 → decodeItem (bound + 1) (i.encode ++ rest) = some (i, rest)
  | .nil, bound, rest, _, _ => decodeItem_scalar (by decide) bound rest
  | .boolean true, bound, rest, _, _ => decodeItem_scalar (by decide) bound rest
  | .boolean false, bound, rest, _, _ => decodeItem_scalar (by decide) bound rest
  | .natural _ _, bound, rest, hf, _ => decodeItem_natural bound rest hf
  | .integer _, bound, rest, hf, _ => decodeItem_integer bound rest hf
  | .real x, bound, rest, _, _ => decodeItem_real bound rest x
  | .text _, bound, rest, hf, _ => decodeItem_text bound rest hf
  | .bytes _, bound, rest, hf, _ => decodeItem_bytes bound rest hf
  | .extension, bound, rest, _, _ => by
    have hread : scalar? 0xd4 (0 :: 0 :: rest) = some (extension, rest) := by
      have hdata : ([0, 0] : List UInt8).length = 1 + 1 := rfl
      have : scalar? 0xd4 (0 :: 0 :: rest) = sizedExtension? 1 ([0, 0] ++ rest) := rfl
      rw [this, sizedExtension?, takeBytes?_append hdata]
      rfl
    exact (decodeItem_scalar (by decide) bound _).trans hread
  | .array items, bound, rest, hf, hb => by
    obtain ⟨hlen, hitems⟩ : items.length < 256 ^ 4 ∧ fitsItems items = true := by
      simpa [fits] using hf
    obtain ⟨m, head, heq⟩ := exists_lengthHead 0x90 16 none 0xdc 0xdd items.length
    rw [encode, heq, List.length_append, List.length_cons] at hb
    rw [encode, List.append_assoc, decodeItem_arrayHead hlen,
      decodeItems_encode items bound rest hitems (by omega)]
    rfl
  | .map entries, bound, rest, hf, hb => by
    obtain ⟨hlen, hentries⟩ : entries.length < 256 ^ 4 ∧ fitsEntries entries = true := by
      simpa [fits] using hf
    obtain ⟨m, head, heq⟩ := exists_lengthHead 0x80 16 none 0xde 0xdf entries.length
    rw [encode, heq, List.length_append, List.length_cons] at hb
    rw [encode, List.append_assoc, decodeItem_mapHead hlen,
      decodeEntries_encode entries bound rest hentries (by omega)]
    rfl

theorem decodeItems_encode : ∀ (items : List Item) (bound : Nat) (rest : List UInt8),
    fitsItems items = true → 2 * (encodeItems items).length ≤ bound →
      decodeItems bound items.length (encodeItems items ++ rest) = some (items, rest)
  | [], bound, rest, _, _ => by cases bound <;> rfl
  | i :: items, bound, rest, hf, hb => by
    obtain ⟨hi, hitems⟩ : i.fits = true ∧ fitsItems items = true := by simpa [fitsItems] using hf
    rw [encodeItems, List.length_append] at hb
    have hpos := i.encode_pos
    obtain ⟨b, rfl⟩ : ∃ b, bound = b + 2 := ⟨bound - 2, by omega⟩
    rw [encodeItems, List.append_assoc, List.length_cons, decodeItems,
      decodeItem_encode i b _ hi (by omega)]
    simp [decodeItems_encode items (b + 1) rest hitems (by omega)]

theorem decodeEntries_encode : ∀ (entries : List (Item × Item)) (bound : Nat) (rest : List UInt8),
    fitsEntries entries = true → 2 * (encodeEntries entries).length ≤ bound →
      decodeEntries bound entries.length (encodeEntries entries ++ rest) = some (entries, rest)
  | [], bound, rest, _, _ => by cases bound <;> rfl
  | (k, v) :: entries, bound, rest, hf, hb => by
    obtain ⟨⟨hk, hv⟩, hentries⟩ : (k.fits = true ∧ v.fits = true) ∧ fitsEntries entries = true := by
      simpa [fitsEntries] using hf
    rw [encodeEntries, List.length_append, List.length_append] at hb
    have hpos := k.encode_pos
    obtain ⟨b, rfl⟩ : ∃ b, bound = b + 2 := ⟨bound - 2, by omega⟩
    rw [encodeEntries, List.append_assoc, List.append_assoc, List.length_cons, decodeEntries,
      decodeItem_encode k b _ hk (by omega)]
    simp [decodeItem_encode v b _ hv (by omega),
      decodeEntries_encode entries (b + 1) rest hentries (by omega)]
end

theorem decode_encode {i : Item} (h : i.fits = true) : decode i.encode = some i := by
  have hread := decodeItem_encode i (2 * i.encode.length + 1) [] h (by omega)
  rw [List.append_nil] at hread
  rw [decode, hread]
  rfl

end Item
end StreamLang
