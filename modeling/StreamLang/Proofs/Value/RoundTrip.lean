import StreamLang.Proofs.Closures
import StreamLang.Proofs.MessagePack.RoundTrip
import StreamLang.Value.MessagePack
/-!
Values and event logs are read back as they were written. All of them can be written but those with a
function in them, and all that were written are read, as long as they do not nest deeper than the reader
goes.
-/
namespace StreamLang

namespace Assoc

variable {α : Type u} {β : Type v} [DecidableEq α]

theorem put_of_not_mem {k : α} {a : Assoc α β} (h : k ∉ keys a) (v : β) :
    put k v a = a ++ [(k, v)] := by
  induction a with
  | nil => rfl
  | cons p rest ih =>
    obtain ⟨k', v'⟩ := p
    obtain ⟨hk, hrest⟩ : k ≠ k' ∧ k ∉ keys rest := by simpa [keys] using h
    rw [put, if_neg hk.symm, ih hrest]
    rfl

/-- Pairs with distinct keys stay as they are. -/
theorem ofList_of_nodup {pairs : List (α × β)} (h : (pairs.map Prod.fst).Nodup) :
    ofList pairs = pairs := by
  have key (rest a : List (α × β)) (h : ((a ++ rest).map Prod.fst).Nodup) :
      rest.foldl (fun a p => put p.1 p.2 a) a = a ++ rest := by
    induction rest generalizing a with
    | nil => exact (List.append_nil a).symm
    | cons p rest ih =>
      have hp : p.1 ∉ keys a := by
        intro hmem
        rw [List.map_append] at h
        exact (List.nodup_append.1 h).2.2 p.1 hmem p.1 (by simp) rfl
      rw [List.foldl_cons, put_of_not_mem hp, ih (a ++ [p]) (by simpa using h), List.append_assoc]
      rfl
  exact key pairs [] h

end Assoc

namespace Item

/-- A map whose keys are texts. -/
def ofFields (fields : List (String × Item)) : Item := map (fields.map fun f => (text f.1, f.2))

/-- A record with distinct known names is read as its fields, if there is a level left for it. -/
theorem record?_ofFields {names : List String} {fields : List (String × Item)}
    (known : ∀ f ∈ fields, f.1 ∈ names) (distinct : (fields.map Prod.fst).Nodup) (a : Access) :
    (ofFields fields).record? a names = a.inside.map (·, fields) := by
  have named (a : Access) : ((fields.map fun f => (text f.1, f.2)).mapM fun p =>
      (key? a names p.1).map (·, p.2)) = some (fields.map fun f => (some f.1, f.2)) := by
    clear distinct
    induction fields with
    | nil => rfl
    | cons f rest ih =>
      have hf : key? a names (text f.1) = some (some f.1) := by
        simp [key?, known f List.mem_cons_self]
      rw [List.map_cons, List.mapM_cons, ih fun g hg => known g (List.mem_cons_of_mem _ hg)]
      simp [hf]
  have hknown : (fields.map fun f => (some f.1, f.2)).filterMap
      (fun p => p.1.map fun name => (name, p.2)) = fields := by
    rw [List.filterMap_map]
    exact List.filterMap_some
  rw [ofFields, record?, entries?]
  cases a.inside with
  | none => rfl
  | some a =>
    simp [named, hknown, distinct]

theorem fits_ofFields (fields : List (String × Item)) : (ofFields fields).fits =
    (decide (fields.length < 256 ^ 4) && fields.all fun f => (text f.1).fits && f.2.fits) := by
  have key : fitsEntries (fields.map fun f => (text f.1, f.2)) =
      fields.all fun f => (text f.1).fits && f.2.fits := by
    induction fields with
    | nil => rfl
    | cons f rest ih => rw [List.map_cons, fitsEntries, ih, List.all_cons]
  rw [ofFields, fits, key, List.length_map]

theorem fits_ofNat {n : Nat} (h : n < 256 ^ 8) : (ofNat n).fits = true := by
  have hn : n < 256 ^ (IntegerWidth.least n).bytes := by
    unfold IntegerWidth.least
    repeat' split
    all_goals assumption
  simpa [ofNat, fits] using hn

end Item

/-! ### What can be written -/

namespace Value

mutual
/-- Whether the types and the format can hold the value: lengths have at most four bytes, and so do
the numbers of nodes, and no name comes twice in a structure. -/
def fits : Value → Bool
  | number n => n.unit.all fun unit => (Item.text unit).fits
  | text s => (Item.text s).fits
  | boolean _ => true
  | list items => items.length < 256 ^ 4 && fitsItems items
  | struct fields =>
    fields.length < 256 ^ 4 && decide (fields.map Prod.fst).Nodup && fitsFields fields
  | function _ => true
  | exception e => (Item.text e.message).fits && e.node.all (· < 256 ^ 4)

def fitsItems : List Value → Bool
  | [] => true
  | v :: rest => v.fits && fitsItems rest

def fitsFields : List (String × Value) → Bool
  | [] => true
  | (name, v) :: rest => (Item.text name).fits && v.fits && fitsFields rest
end

mutual
/-- How many maps and arrays lie inside one another where the value is written: a map for its type, and
one more or an array for what has parts. -/
def nesting : Value → Nat
  | number _ => 2
  | text _ => 1
  | boolean _ => 1
  | list items => nestingItems items + 2
  | struct fields => nestingFields fields + 2
  | function _ => 0
  | exception _ => 2

def nestingItems : List Value → Nat
  | [] => 0
  | v :: rest => max v.nesting (nestingItems rest)

def nestingFields : List (String × Value) → Nat
  | [] => 0
  | (_, v) :: rest => max v.nesting (nestingFields rest)
end

mutual
/-- What is written takes up so many levels. -/
theorem nesting_toItem? : ∀ {v : Value} {i : Item}, v.toItem? = some i → i.nesting = v.nesting
  | .number n, i, h => by
    obtain rfl := Option.some.inj h
    obtain ⟨amount, unit⟩ := n
    cases unit <;> rfl
  | .text s, i, h => by
    obtain rfl := Option.some.inj h
    rfl
  | .boolean b, i, h => by
    obtain rfl := Option.some.inj h
    rfl
  | .list items, i, h => by
    obtain ⟨is, his, rfl⟩ := Option.map_eq_some_iff.1 h
    have hn := nestingItems_toItems? his
    simp [typedItem, Item.nesting, Item.nestingEntries, nesting, hn]
  | .struct fields, i, h => by
    obtain ⟨es, hes, rfl⟩ := Option.map_eq_some_iff.1 h
    have hn := nestingEntries_toEntries? hes
    simp [typedItem, Item.nesting, Item.nestingEntries, nesting, hn]
  | .function _, i, h => by cases h
  | .exception e, i, h => by
    obtain rfl := Option.some.inj h
    obtain ⟨kind, message, node⟩ := e
    cases node <;> rfl

theorem nestingItems_toItems? : ∀ {vs : List Value} {is : List Item}, toItems? vs = some is →
    Item.nestingItems is = nestingItems vs
  | [], is, h => by
    obtain rfl := Option.some.inj h
    rfl
  | v :: vs, is, h => by
    obtain ⟨i, hi, h⟩ := Option.bind_eq_some_iff.1 h
    obtain ⟨rest, hrest, h⟩ := Option.bind_eq_some_iff.1 h
    obtain rfl := Option.some.inj h
    rw [Item.nestingItems, nestingItems, nesting_toItem? hi, nestingItems_toItems? hrest]

theorem nestingEntries_toEntries? : ∀ {fields : List (String × Value)} {es : List (Item × Item)},
    toEntries? fields = some es → Item.nestingEntries es = nestingFields fields
  | [], es, h => by
    obtain rfl := Option.some.inj h
    rfl
  | (name, v) :: fields, es, h => by
    obtain ⟨i, hi, h⟩ := Option.bind_eq_some_iff.1 h
    obtain ⟨rest, hrest, h⟩ := Option.bind_eq_some_iff.1 h
    obtain rfl := Option.some.inj h
    rw [Item.nestingEntries, nestingFields, nesting_toItem? hi, nestingEntries_toEntries? hrest]
    simp [Item.nesting]
end

mutual
/-- Values can be written unless there is a function in them. -/
theorem isSome_toItem? : ∀ v : Value, v.toItem?.isSome = true ↔ v.Every fun _ => False
  | .number n => by simp [toItem?]
  | .text s => by simp [toItem?]
  | .boolean b => by simp [toItem?]
  | .list items => by
    rw [toItem?, Option.isSome_map, isSome_toItems?, every_list]
  | .struct fields => by
    rw [toItem?, Option.isSome_map, isSome_toEntries?, every_struct]
  | .function c => by simp [toItem?]
  | .exception e => by simp [toItem?]

theorem isSome_toItems? : ∀ vs : List Value,
    (toItems? vs).isSome = true ↔ ∀ v ∈ vs, v.Every fun _ => False
  | [] => by simp [toItems?]
  | v :: vs => by
    have hv := isSome_toItem? v
    have hvs := isSome_toItems? vs
    rw [toItems?, List.forall_mem_cons, ← hv, ← hvs]
    cases v.toItem? <;> cases toItems? vs <;> simp

theorem isSome_toEntries? : ∀ fields : List (String × Value),
    (toEntries? fields).isSome = true ↔ ∀ f ∈ fields, f.2.Every fun _ => False
  | [] => by simp [toEntries?]
  | (name, v) :: fields => by
    have hv := isSome_toItem? v
    have hfields := isSome_toEntries? fields
    rw [toEntries?, List.forall_mem_cons, ← hv, ← hfields]
    cases v.toItem? <;> cases toEntries? fields <;> simp
end

end Value

namespace Number

/-- The fields that are written of a number. -/
def fields (n : Number) : List (String × Item) :=
  ("amount", .real n.amount) :: match n.unit with
    | none => []
    | some unit => [("unit", .text unit)]

theorem toItem_eq (n : Number) : n.toItem = .ofFields n.fields := by
  obtain ⟨amount, unit⟩ := n
  cases unit <;> rfl

theorem fits_toItem (n : Number) (h : (n.unit.all fun unit => (Item.text unit).fits) = true) :
    n.toItem.fits = true := by
  have hreal : (Item.real n.amount).fits = true := rfl
  have hkeys : (Item.text "amount").fits = true ∧ (Item.text "unit").fits = true := by decide
  obtain ⟨amount, unit⟩ := n
  rw [toItem_eq, Item.fits_ofFields]
  cases unit with
  | none => simp [fields, hkeys, hreal]
  | some unit =>
    have hunit : (Item.text unit).fits = true := h
    simp [fields, hkeys, hreal, hunit]

theorem ofItem?_toItem (n : Number) (a : Item.Access) :
    ofItem? a n.toItem = a.inside.map fun _ => n := by
  have hrecord : n.toItem.record? a ["amount", "unit"] = a.inside.map (·, n.fields) := by
    rw [toItem_eq]
    refine Item.record?_ofFields ?_ ?_ a
    · obtain ⟨amount, unit⟩ := n
      cases unit <;> simp [fields]
    · obtain ⟨amount, unit⟩ := n
      cases unit <;> simp [fields]
  rw [ofItem?, hrecord]
  obtain ⟨amount, unit⟩ := n
  cases a.inside with
  | none => rfl
  | some a => cases unit <;> rfl

end Number

namespace Exception

/-- The fields that are written of a failure. -/
def fields (e : Exception) : List (String × Item) :=
  [("kind", .text e.kind.name), ("message", .text e.message),
    ("node", (e.node.map .ofNat).getD .nil)]

theorem toItem_eq (e : Exception) : e.toItem = .ofFields e.fields := rfl

theorem fits_toItem (e : Exception) (hm : (Item.text e.message).fits = true)
    (hn : (e.node.all (· < 256 ^ 4)) = true) : e.toItem.fits = true := by
  have hkeys : (Item.text "kind").fits = true ∧ (Item.text "message").fits = true ∧
      (Item.text "node").fits = true := by decide
  have hkind : (Item.text e.kind.name).fits = true := by
    cases e.kind <;> decide
  have hnode : ((e.node.map .ofNat).getD .nil : Item).fits = true := by
    cases he : e.node with
    | none => rfl
    | some i =>
      rw [he] at hn
      exact Item.fits_ofNat (Nat.lt_trans (of_decide_eq_true hn) (by decide))
  rw [toItem_eq, Item.fits_ofFields]
  simp [fields, hkeys, hkind, hm, hnode]

theorem ofItem?_toItem (e : Exception) (hn : (e.node.all (· < 256 ^ 4)) = true) (a : Item.Access) :
    ofItem? a e.toItem = a.inside.map fun _ => e := by
  have hrecord : e.toItem.record? a ["kind", "message", "node"] = a.inside.map (·, e.fields) := by
    rw [toItem_eq]
    exact Item.record?_ofFields (by simp [fields]) (by simp [fields]) a
  rw [ofItem?, hrecord]
  obtain ⟨kind, message, node⟩ := e
  cases a.inside with
  | none => rfl
  | some a =>
    have hkind : kindOfItem? a (.text kind.name) = some kind := by cases kind <;> rfl
    have hnode : Item.nullable? nodeOfItem? (some ((node.map .ofNat).getD .nil)) = some node := by
      cases node with
      | none => rfl
      | some i =>
        have hi : i < 0x100000000 := of_decide_eq_true hn
        simp [Item.nullable?, Item.ofNat, nodeOfItem?, Item.natural?, hi]
    simp [fields, Item.field?, Item.text?, hkind, hnode]

end Exception

namespace Value

theorem typedItem_eq (type : String) (content : Item) :
    typedItem type content = .ofFields [("type", .text type), ("value", content)] := rfl

theorem fits_typedItem {type : String} {content : Item} (ht : (Item.text type).fits = true)
    (hc : content.fits = true) : (typedItem type content).fits = true := by
  have hkeys : (Item.text "type").fits = true ∧ (Item.text "value").fits = true := by decide
  rw [typedItem_eq, Item.fits_ofFields]
  simp [hkeys, ht, hc]

mutual
/-- What is written of such a value fits the format. -/
theorem fits_toItem? : ∀ {v : Value} {i : Item}, v.toItem? = some i → v.fits = true → i.fits = true
  | .number n, i, h, hf => by
    obtain rfl := Option.some.inj h
    exact fits_typedItem (by decide) (n.fits_toItem hf)
  | .text s, i, h, hf => by
    obtain rfl := Option.some.inj h
    exact fits_typedItem (by decide) hf
  | .boolean b, i, h, hf => by
    obtain rfl := Option.some.inj h
    exact fits_typedItem (by decide) rfl
  | .list items, i, h, hf => by
    obtain ⟨is, his, rfl⟩ := Option.map_eq_some_iff.1 h
    obtain ⟨hlen, hitems⟩ : items.length < 256 ^ 4 ∧ fitsItems items = true := by
      simpa [fits] using hf
    obtain ⟨hsame, hfits⟩ := fits_toItems? his hitems
    refine fits_typedItem (by decide) ?_
    simpa [Item.fits, hsame, hfits] using hlen
  | .struct fields, i, h, hf => by
    obtain ⟨es, hes, rfl⟩ := Option.map_eq_some_iff.1 h
    obtain ⟨⟨hlen, -⟩, hfields⟩ : (fields.length < 256 ^ 4 ∧ (fields.map Prod.fst).Nodup) ∧
        fitsFields fields = true := by simpa [fits] using hf
    obtain ⟨hsame, hfits⟩ := fits_toEntries? hes hfields
    refine fits_typedItem (by decide) ?_
    simpa [Item.fits, hsame, hfits] using hlen
  | .function _, i, h, _ => by cases h
  | .exception e, i, h, hf => by
    obtain rfl := Option.some.inj h
    obtain ⟨hm, hn⟩ := Bool.and_eq_true_iff.1 hf
    exact fits_typedItem (by decide) (e.fits_toItem hm hn)

theorem fits_toItems? : ∀ {vs : List Value} {is : List Item}, toItems? vs = some is →
    fitsItems vs = true → is.length = vs.length ∧ Item.fitsItems is = true
  | [], is, h, _ => by
    obtain rfl := Option.some.inj h
    exact ⟨rfl, rfl⟩
  | v :: vs, is, h, hf => by
    obtain ⟨i, hi, h⟩ := Option.bind_eq_some_iff.1 h
    obtain ⟨rest, hrest, h⟩ := Option.bind_eq_some_iff.1 h
    obtain rfl := Option.some.inj h
    obtain ⟨hv, hvs⟩ := Bool.and_eq_true_iff.1 hf
    obtain ⟨hsame, hfits⟩ := fits_toItems? hrest hvs
    simp [Item.fitsItems, fits_toItem? hi hv, hsame, hfits]

theorem fits_toEntries? : ∀ {fields : List (String × Value)} {es : List (Item × Item)},
    toEntries? fields = some es → fitsFields fields = true →
      es.length = fields.length ∧ Item.fitsEntries es = true
  | [], es, h, _ => by
    obtain rfl := Option.some.inj h
    exact ⟨rfl, rfl⟩
  | (name, v) :: fields, es, h, hf => by
    obtain ⟨i, hi, h⟩ := Option.bind_eq_some_iff.1 h
    obtain ⟨rest, hrest, h⟩ := Option.bind_eq_some_iff.1 h
    obtain rfl := Option.some.inj h
    obtain ⟨hv, hfields⟩ := Bool.and_eq_true_iff.1 hf
    obtain ⟨hname, hv⟩ := Bool.and_eq_true_iff.1 hv
    obtain ⟨hsame, hfits⟩ := fits_toEntries? hrest hfields
    simp [Item.fitsEntries, fits_toItem? hi hv, hname, hsame, hfits]
end

/-! ### What is read -/

/-- How a value is read of which the type comes first: there has to be a level left for it. -/
theorem ofItemWithin_typedItem {type : String} (ht : type ∈ typeNames) (content : Item)
    (bound levels : Nat) : ofItemWithin (bound + 1) (.passing levels) (typedItem type content) =
      (Item.Access.passing levels).inside.bind fun a =>
        ofContentItem? a (ofItemWithin bound) type content := by
  have hrecord : (typedItem type content).record? (.passing levels) ["type", "value"] =
      (Item.Access.passing levels).inside.map (·, [("type", .text type), ("value", content)]) := by
    rw [typedItem_eq]
    exact Item.record?_ofFields (by simp) (by simp) _
  have hchoice (a : Item.Access) : Item.choice? a typeNames (.text type) = some type := by
    simp [Item.choice?, ht]
  rw [ofItemWithin, hrecord]
  cases (Item.Access.passing levels).inside with
  | none => rfl
  | some a => simp [Item.field?, hchoice, contentAccess?]

/-- A record in a value takes a level more than the value. -/
theorem ofItemWithin_record {type : String} (ht : type ∈ typeNames) {content : Item} {v : Value}
    {bound : Nat} (h : ∀ a, ofContentItem? a (ofItemWithin bound) type content =
      a.inside.map fun _ => v) (levels : Nat) :
    ofItemWithin (bound + 1) (.passing levels) (typedItem type content) =
      if 2 ≤ levels then some v else none := by
  rw [ofItemWithin_typedItem ht]
  match levels with
  | 0 => rfl
  | 1 => exact h (.passing 0)
  | levels + 2 => exact (h (.passing (levels + 1))).trans (if_pos (by omega)).symm

/-- So do the parts of a value, which are met with a level less. -/
theorem ofItemWithin_parts {type : String} (ht : type ∈ typeNames) {content : Item} {v : Value}
    {bound deepest : Nat} (parts : Item.Access → Option Value)
    (h : ∀ a, ofContentItem? a (ofItemWithin bound) type content = a.inside.bind parts)
    (hparts : ∀ levels, parts (.passing levels) = if deepest ≤ levels then some v else none)
    (levels : Nat) : ofItemWithin (bound + 1) (.passing levels) (typedItem type content) =
      if deepest + 2 ≤ levels then some v else none := by
  rw [ofItemWithin_typedItem ht]
  match levels with
  | 0 => rfl
  | 1 => exact h (.passing 0)
  | levels + 2 =>
    simp only [Nat.add_le_add_iff_right]
    exact (h (.passing (levels + 1))).trans (hparts levels)

/-- The fields of a structure, as they are read. -/
def ofEntries? (a : Item.Access) (bound : Nat) (es : List (Item × Item)) :
    Option (List (String × Value)) :=
  es.mapM fun (k, v) => do return (← k.text?, ← ofItemWithin bound a v)

mutual
/-- A value is read as it was written if and only if it does not nest too deeply. -/
theorem ofItemWithin_toItem? : ∀ {v : Value} {i : Item} (bound levels : Nat), v.toItem? = some i →
    v.fits = true → v.nesting < bound → ofItemWithin bound (.passing levels) i =
      if v.nesting ≤ levels then some v else none
  | _, _, 0, _, _, _, hb => absurd hb (Nat.not_lt_zero _)
  | .number n, i, bound + 1, levels, h, _, _ => by
    obtain rfl := Option.some.inj h
    refine ofItemWithin_record (by decide) (fun a => ?_) levels
    show (Number.ofItem? a n.toItem).map number = _
    rw [n.ofItem?_toItem, Option.map_map]
    rfl
  | .text s, i, bound + 1, levels, h, _, _ => by
    obtain rfl := Option.some.inj h
    rw [ofItemWithin_typedItem (by decide)]
    cases levels <;> rfl
  | .boolean b, i, bound + 1, levels, h, _, _ => by
    obtain rfl := Option.some.inj h
    rw [ofItemWithin_typedItem (by decide)]
    cases levels <;> rfl
  | .list items, i, bound + 1, levels, h, hf, hb => by
    obtain ⟨is, his, rfl⟩ := Option.map_eq_some_iff.1 h
    obtain ⟨-, hitems⟩ := Bool.and_eq_true_iff.1 hf
    rw [nesting] at hb
    refine ofItemWithin_parts (by decide) (fun a => (is.mapM (ofItemWithin bound a)).map list)
      (fun a => ?_) (fun levels => ?_) levels
    · cases ha : a.inside with
      | none => simp [ofContentItem?, Item.items?, ha]
      | some a' =>
        simp only [ofContentItem?, Item.items?, ha, Option.map_some, Option.bind_eq_bind,
          Option.bind_some]
        cases is.mapM (ofItemWithin bound a') <;> rfl
    · rw [mapM_toItems? bound levels his hitems (by omega)]
      split <;> rfl
  | .struct fields, i, bound + 1, levels, h, hf, hb => by
    obtain ⟨es, hes, rfl⟩ := Option.map_eq_some_iff.1 h
    obtain ⟨hf, hfields⟩ := Bool.and_eq_true_iff.1 hf
    have hdistinct := of_decide_eq_true (Bool.and_eq_true_iff.1 hf).2
    rw [nesting] at hb
    refine ofItemWithin_parts (by decide)
      (fun a => (ofEntries? a bound es).map fun pairs => struct (Assoc.ofList pairs))
      (fun a => ?_) (fun levels => ?_) levels
    · cases ha : a.inside with
      | none => simp [ofContentItem?, Item.entries?, ha]
      | some a' =>
        simp only [ofContentItem?, Item.entries?, ha, Option.map_some, Option.bind_eq_bind,
          Option.bind_some]
        show (ofEntries? a' bound es).bind _ = _
        cases ofEntries? a' bound es <;> rfl
    · rw [ofEntries?_toEntries? bound levels hes hfields (by omega)]
      split
      · rw [Option.map_some, Assoc.ofList_of_nodup hdistinct]
      · rfl
  | .function _, _, _ + 1, _, h, _, _ => by cases h
  | .exception e, i, bound + 1, levels, h, hf, _ => by
    obtain rfl := Option.some.inj h
    obtain ⟨-, hn⟩ := Bool.and_eq_true_iff.1 hf
    refine ofItemWithin_record (by decide) (fun a => ?_) levels
    show (Exception.ofItem? a e.toItem).map exception = _
    rw [e.ofItem?_toItem hn, Option.map_map]
    rfl

theorem mapM_toItems? : ∀ {vs : List Value} {is : List Item} (bound levels : Nat),
    toItems? vs = some is → fitsItems vs = true → nestingItems vs < bound →
      is.mapM (ofItemWithin bound (.passing levels)) =
        if nestingItems vs ≤ levels then some vs else none
  | [], is, bound, levels, h, _, _ => by
    obtain rfl := Option.some.inj h
    rfl
  | v :: vs, is, bound, levels, h, hf, hb => by
    obtain ⟨i, hi, h⟩ := Option.bind_eq_some_iff.1 h
    obtain ⟨rest, hrest, h⟩ := Option.bind_eq_some_iff.1 h
    obtain rfl := Option.some.inj h
    obtain ⟨hv, hvs⟩ := Bool.and_eq_true_iff.1 hf
    rw [nestingItems] at hb ⊢
    rw [List.mapM_cons, ofItemWithin_toItem? bound levels hi hv (by omega),
      mapM_toItems? bound levels hrest hvs (by omega)]
    by_cases h1 : v.nesting ≤ levels <;> by_cases h2 : nestingItems vs ≤ levels <;> simp [h1, h2]

theorem ofEntries?_toEntries? : ∀ {fields : List (String × Value)} {es : List (Item × Item)}
    (bound levels : Nat), toEntries? fields = some es → fitsFields fields = true →
      nestingFields fields < bound → ofEntries? (.passing levels) bound es =
        if nestingFields fields ≤ levels then some fields else none
  | [], es, bound, levels, h, _, _ => by
    obtain rfl := Option.some.inj h
    rfl
  | (name, v) :: fields, es, bound, levels, h, hf, hb => by
    obtain ⟨i, hi, h⟩ := Option.bind_eq_some_iff.1 h
    obtain ⟨rest, hrest, h⟩ := Option.bind_eq_some_iff.1 h
    obtain rfl := Option.some.inj h
    obtain ⟨hv, hfields⟩ := Bool.and_eq_true_iff.1 hf
    obtain ⟨-, hv⟩ := Bool.and_eq_true_iff.1 hv
    rw [nestingFields] at hb ⊢
    have hread := ofEntries?_toEntries? bound levels hrest hfields (by omega)
    rw [ofEntries?] at hread ⊢
    rw [List.mapM_cons, hread]
    simp only [ofItemWithin_toItem? bound levels hi hv (by omega), Item.text?]
    by_cases h1 : v.nesting ≤ levels <;> by_cases h2 : nestingFields fields ≤ levels <;>
      simp [h1, h2]
end

theorem ofItem?_toItem? {v : Value} {i : Item} (h : v.toItem? = some i) (hf : v.fits = true)
    (levels : Nat) : ofItem? (.passing levels) i = if v.nesting ≤ levels then some v else none := by
  rw [ofItem?]
  refine ofItemWithin_toItem? _ levels h hf ?_
  rw [nesting_toItem? h]
  exact Nat.lt_succ_self _

end Value

/-! ### Logs -/

namespace LoggedEvent

/-- Whether the types and the format can hold the event; it is counted with eight bytes. -/
def fits (e : LoggedEvent) : Bool :=
  e.sequence < 256 ^ 8 && (Item.text e.stream).fits && e.input.fits

/-- The fields that are written of an event. -/
def fields (e : LoggedEvent) (input : Item) : List (String × Item) :=
  [("sequence", .ofNat e.sequence), ("stream", .text e.stream), ("input", input)]

theorem toItem?_eq (e : LoggedEvent) :
    e.toItem? = e.input.toItem?.map fun input => .ofFields (e.fields input) := by
  rw [toItem?]
  cases e.input.toItem? <;> rfl

theorem fits_toItem? {e : LoggedEvent} {i : Item} (h : e.toItem? = some i) (hf : e.fits = true) :
    i.fits = true := by
  rw [toItem?_eq] at h
  obtain ⟨input, hinput, rfl⟩ := Option.map_eq_some_iff.1 h
  obtain ⟨⟨hs, hstream⟩, hv⟩ : (e.sequence < 256 ^ 8 ∧ (Item.text e.stream).fits = true) ∧
      e.input.fits = true := by simpa [fits] using hf
  have hkeys : (Item.text "sequence").fits = true ∧ (Item.text "stream").fits = true ∧
      (Item.text "input").fits = true := by decide
  rw [Item.fits_ofFields]
  simp [fields, hkeys, Item.fits_ofNat hs, hstream, Value.fits_toItem? hinput hv]

theorem ofItem?_toItem? {e : LoggedEvent} {i : Item} (h : e.toItem? = some i) (hf : e.fits = true)
    (levels : Nat) :
    ofItem? (.passing levels) i = if e.input.nesting + 1 ≤ levels then some e else none := by
  rw [toItem?_eq] at h
  obtain ⟨input, hinput, rfl⟩ := Option.map_eq_some_iff.1 h
  have hv := (Bool.and_eq_true_iff.1 hf).2
  have hrecord : (Item.ofFields (e.fields input)).record? (.passing levels)
      ["sequence", "stream", "input"] =
        (Item.Access.passing levels).inside.map (·, e.fields input) :=
    Item.record?_ofFields (by simp [fields]) (by simp [fields]) _
  rw [ofItem?, hrecord]
  cases levels with
  | zero => rfl
  | succ levels =>
    have hread := Value.ofItem?_toItem? hinput hv levels
    simp only [Nat.add_le_add_iff_right]
    simp only [Item.Access.inside, Option.map_some, fields, Item.field?, Item.ofNat]
    by_cases hn : e.input.nesting ≤ levels
    · simp [hread, hn, Item.natural?, Item.text?]
    · simp [hread, hn]

end LoggedEvent

namespace EventLog

/-- Whether the types and the format can hold the log. -/
def fits (log : EventLog) : Bool := log.length < 256 ^ 4 && log.all LoggedEvent.fits

/-- How deeply the log nests where it is written: a map with an array of maps. -/
def nesting (log : EventLog) : Nat :=
  (log.foldr (fun e deepest => max (e.input.nesting + 1) deepest) 0) + 2

theorem isSome_toItems? (log : EventLog) : (log.mapM LoggedEvent.toItem?).isSome = true ↔
    ∀ e ∈ log, e.input.Every fun _ => False := by
  induction log with
  | nil => simp
  | cons e rest ih =>
    rw [List.forall_mem_cons, ← ih, ← Value.isSome_toItem?, List.mapM_cons,
      LoggedEvent.toItem?_eq]
    cases e.input.toItem? <;> cases rest.mapM LoggedEvent.toItem? <;> simp

theorem fits_toItems? {log : EventLog} {items : List Item}
    (h : log.mapM LoggedEvent.toItem? = some items) (hf : log.all LoggedEvent.fits = true) :
    items.length = log.length ∧ Item.fitsItems items = true := by
  induction log generalizing items with
  | nil =>
    obtain rfl := Option.some.inj h
    exact ⟨rfl, rfl⟩
  | cons e rest ih =>
    rw [List.mapM_cons] at h
    obtain ⟨i, hi, h⟩ := Option.bind_eq_some_iff.1 h
    obtain ⟨is, his, h⟩ := Option.bind_eq_some_iff.1 h
    obtain rfl := Option.some.inj h
    obtain ⟨he, hrest⟩ : e.fits = true ∧ rest.all LoggedEvent.fits = true := by simpa using hf
    obtain ⟨hlen, hfits⟩ := ih his hrest
    simp [Item.fitsItems, LoggedEvent.fits_toItem? hi he, hfits, hlen]

theorem mapM_toItems? {log : EventLog} {items : List Item}
    (h : log.mapM LoggedEvent.toItem? = some items) (hf : log.all LoggedEvent.fits = true)
    (levels : Nat) : items.mapM (LoggedEvent.ofItem? (.passing levels)) =
      if log.foldr (fun e deepest => max (e.input.nesting + 1) deepest) 0 ≤ levels then some log
      else none := by
  induction log generalizing items with
  | nil =>
    obtain rfl := Option.some.inj h
    rfl
  | cons e rest ih =>
    rw [List.mapM_cons] at h
    obtain ⟨i, hi, h⟩ := Option.bind_eq_some_iff.1 h
    obtain ⟨is, his, h⟩ := Option.bind_eq_some_iff.1 h
    obtain rfl := Option.some.inj h
    obtain ⟨he, hrest⟩ : e.fits = true ∧ rest.all LoggedEvent.fits = true := by simpa using hf
    rw [List.mapM_cons, LoggedEvent.ofItem?_toItem? hi he, ih his hrest, List.foldr_cons]
    generalize rest.foldr (fun e deepest => max (e.input.nesting + 1) deepest) 0 = deepest
    by_cases h1 : e.input.nesting + 1 ≤ levels <;> by_cases h2 : deepest ≤ levels <;> simp [h1, h2]

/-- A log can be written if and only if there is no function in its inputs. What was written is read
back, whole and in its order, if it does not nest deeper than the reader goes, and is refused otherwise. -/
theorem reads_back (log : EventLog) :
    (log.encode?.isSome = true ↔ ∀ e ∈ log, e.input.Every fun _ => False) ∧
      (log.fits = true → ∀ bs, log.encode? = some bs →
        decode? bs = if log.nesting ≤ levels then some log else none) := by
  constructor
  · rw [← isSome_toItems?, encode?]
    cases log.mapM LoggedEvent.toItem? <;> simp
  intro hf bs h
  obtain ⟨hlen, hevents⟩ : log.length < 256 ^ 4 ∧ log.all LoggedEvent.fits = true :=
    (Bool.and_eq_true_iff.1 hf).imp_left of_decide_eq_true
  obtain ⟨items, hitems, h⟩ := Option.bind_eq_some_iff.1 h
  obtain rfl := Option.some.inj h
  obtain ⟨hsame, hfits⟩ := fits_toItems? hitems hevents
  have hitem : (Item.ofFields [("events", .array items)]).fits = true := by
    have hkey : (Item.text "events").fits = true := by decide
    have harray : (Item.array items).fits = true := by
      simpa [Item.fits, hsame, hfits] using hlen
    rw [Item.fits_ofFields]
    simp [hkey, harray]
  have hread : Item.decode (Item.ofFields [("events", .array items)]).encode =
      some (Item.ofFields [("events", .array items)]) := Item.decode_encode hitem
  have hrecord : (Item.ofFields [("events", .array items)]).record? (.passing levels) ["events"] =
      some (.passing 1022, [("events", .array items)]) :=
    Item.record?_ofFields (by simp) (by simp) _
  have hall := mapM_toItems? hitems hevents 1021
  have hlevels : log.nesting ≤ levels ↔
      log.foldr (fun e deepest => max (e.input.nesting + 1) deepest) 0 ≤ 1021 :=
    Nat.add_le_add_iff_right
  rw [decode?, show Item.map [(.text "events", .array items)] =
    Item.ofFields [("events", .array items)] from rfl, hread]
  simp only [hlevels, Option.bind_eq_bind, Option.bind_some, hrecord]
  exact hall

/-- The clock, a place of the mouse, and what a failed source has left. -/
def recorded : EventLog :=
  [⟨0, "time", .number ⟨⟨0x3FF0000000000000⟩, some "ms"⟩⟩,
    ⟨300, "mouse-position",
      .struct [("x", .plain ⟨0x4008000000000000⟩), ("y", .plain ⟨0x8000000000000000⟩)]⟩,
    ⟨70000, "source", .list [.exception ⟨.streamUnavailable, "gone", some 7⟩,
      .exception ⟨.unknownName, "who?", none⟩, .boolean true, .text ""]⟩]

theorem recorded_reads_back : recorded.encode?.isSome = true ∧
    ∀ bs, recorded.encode? = some bs → decode? bs = some recorded := by
  obtain ⟨hwrite, hread⟩ := reads_back recorded
  have hfits : recorded.fits = true := by decide
  have hnesting : recorded.nesting ≤ levels := by decide
  refine ⟨hwrite.2 ?_, fun bs hbs => ?_⟩
  · simp [recorded, Value.plain]
  · rw [hread hfits bs hbs, if_pos hnesting]

end EventLog
end StreamLang
