import Mathlib.Data.List.Nodup
import Mathlib.Data.List.Perm.Subperm
import Mathlib.Data.String.Basic
import StreamLang.Ordered
import StreamLang.Proofs.Amount.Zeros
import StreamLang.Proofs.Closures
import StreamLang.Proofs.Value.Parts
/-!
What equality of values does not see: the signs of zeros and the order of fields. Values settle into
one form without them, and values are equal just if they settle into the same form and nothing in them
is undefined (`Value.equal_iff`).
-/
namespace StreamLang
namespace Value

/-- The order of names. -/
def nameLE (f g : String × Value) : Bool := f.1 ≤ g.1

def sortFields (fields : List (String × Value)) : List (String × Value) := fields.mergeSort nameLE

mutual
/-- The value without what equality does not see. -/
def settled : Value → Value
  | number n => number ⟨n.amount.unsigned, n.unit⟩
  | text s => text s
  | boolean b => boolean b
  | list items => list (settledItems items)
  | struct fields => struct (sortFields (settledFields fields))
  | function c => function ⟨c.function, 0, [], c.scope⟩
  | exception e => exception e

def settledItems : List Value → List Value
  | [] => []
  | v :: rest => v.settled :: settledItems rest

def settledFields : List (String × Value) → List (String × Value)
  | [] => []
  | (name, v) :: rest => (name, v.settled) :: settledFields rest
end

/-- No name comes twice in a structure. -/
def Distinct : Value → Prop
  | struct fields => (fields.map Prod.fst).Nodup
  | _ => True

/-- The value is not a number without an amount. -/
def Defined : Value → Prop
  | number n => n.amount.isNaN = false
  | _ => True

theorem settledFields_eq (fields : List (String × Value)) :
    settledFields fields = fields.map fun f => (f.1, f.2.settled) := by
  induction fields with
  | nil => rfl
  | cons f fields ih => rw [settledFields, ih, List.map_cons]

theorem map_fst_settledFields (fields : List (String × Value)) :
    (settledFields fields).map Prod.fst = fields.map Prod.fst := by
  rw [settledFields_eq, List.map_map]
  rfl

theorem mem_settledFields {fields : List (String × Value)} {name : String} {u : Value} :
    (name, u) ∈ settledFields fields ↔ ∃ v, (name, v) ∈ fields ∧ v.settled = u := by
  simp [settledFields_eq]

/-- Fields with distinct names come into one order, whatever order they had. -/
theorem sortFields_eq_iff {xs ys : List (String × Value)} (hx : (xs.map Prod.fst).Nodup) :
    sortFields xs = sortFields ys ↔ xs.Perm ys := by
  have perm (fields : List (String × Value)) : (sortFields fields).Perm fields :=
    List.mergeSort_perm _ _
  have sorted (fields : List (String × Value)) :
      (sortFields fields).Pairwise fun f g => nameLE f g = true := by
    refine List.pairwise_mergeSort (fun f g h => ?_) (fun f g => ?_) fields
    · simpa [nameLE] using le_trans
    · simpa [nameLE] using le_total f.1 g.1
  constructor
  · intro h
    exact (perm xs).symm.trans (h ▸ perm ys)
  · intro h
    have hall : (sortFields xs).Perm (sortFields ys) := ((perm xs).trans h).trans (perm ys).symm
    refine List.Perm.eq_of_pairwise (fun f g hf hg hfg hgf => ?_) (sorted xs) (sorted ys) hall
    have hname : f.1 = g.1 := le_antisymm (by simpa [nameLE] using hfg) (by simpa [nameLE] using hgf)
    have hf : f ∈ xs := (perm xs).subset hf
    have hg : g ∈ xs := (perm xs).subset (hall.symm.subset hg)
    exact List.inj_on_of_nodup_map hx hf hg hname

theorem settled_struct_eq_iff {xs ys : List (String × Value)} (hx : (struct xs).Distinct) :
    (struct xs).settled = (struct ys).settled ↔ (settledFields xs).Perm (settledFields ys) := by
  rw [settled, settled, struct.injEq, sortFields_eq_iff (by rwa [map_fst_settledFields])]

/-! ### What equality sees -/

/-- Fields with distinct names that are as many and all found among others are the others. -/
theorem settledFields_perm {xs ys : List (String × Value)} (hx : (struct xs).Distinct)
    (hlen : xs.length = ys.length) (h : settledFields xs ⊆ settledFields ys) :
    (settledFields xs).Perm (settledFields ys) := by
  have hnodup : (settledFields xs).Nodup := by
    refine List.Nodup.of_map Prod.fst ?_
    rwa [map_fst_settledFields]
  refine (List.subperm_of_subset hnodup h).perm_of_length_le ?_
  simp [settledFields_eq, hlen]

mutual
/-- Values are equal just if they settle into the same form and nothing in them is undefined. -/
theorem equal_iff : ∀ {v w : Value}, v.Throughout Distinct → w.Throughout Distinct →
    (v.equal w = true ↔ v.settled = w.settled ∧ v.Throughout Defined)
  | number a, w, _, _ => by
    obtain ⟨x, unit⟩ := a
    cases w with
    | number b =>
      obtain ⟨y, unit'⟩ := b
      rw [equal, Number.equal, Bool.and_eq_true, Amount.equal_iff, throughout_number]
      simp only [settled, number.injEq, Number.mk.injEq, Defined, beq_iff_eq]
      tauto
    | _ => simp [equal, settled]
  | text s, w, _, _ => by cases w <;> simp [equal, settled, Defined]
  | boolean b, w, _, _ => by cases w <;> simp [equal, settled, Defined]
  | list vs, w, hv, hw => by
    cases w with
    | list ws =>
      rw [equal, equalItems_iff (fun v => hv.item) (fun w => hw.item), throughout_list]
      simp [settled, Defined]
    | _ => simp [equal, settled]
  | struct xs, w, hv, hw => by
    cases w with
    | struct ys =>
      have hfields := equalFields_settled (fun f => hv.field) (fun g => hw.field) hw.self
      rw [equal, Bool.and_eq_true, beq_iff_eq, hfields, settled_struct_eq_iff hv.self,
        throughout_struct]
      constructor
      · rintro ⟨hlen, h⟩
        refine ⟨settledFields_perm hv.self hlen fun u hu => ?_, trivial, fun f hf => (h f hf).2⟩
        rw [settledFields_eq] at hu
        obtain ⟨f, hf, rfl⟩ := List.mem_map.1 hu
        exact (h f hf).1
      · rintro ⟨hperm, -, h⟩
        refine ⟨?_, fun f hf => ⟨hperm.subset (mem_settledFields.2 ⟨f.2, hf, rfl⟩), h f hf⟩⟩
        simpa [settledFields_eq] using hperm.length_eq
    | _ => simp [equal, settled]
  | function c, w, _, _ => by
    cases w with
    | function d => simp [equal, settled, Closure.same, Defined]
    | _ => simp [equal, settled]
  | exception e, w, _, _ => by cases w <;> simp [equal, settled, Defined]

theorem equalItems_iff : ∀ {vs ws : List Value}, (∀ v ∈ vs, v.Throughout Distinct) →
    (∀ w ∈ ws, w.Throughout Distinct) → (equalItems vs ws = true ↔
      settledItems vs = settledItems ws ∧ ∀ v ∈ vs, v.Throughout Defined)
  | [], [], _, _ => by simp [equalItems]
  | [], w :: ws, _, _ => by simp [equalItems, settledItems]
  | v :: vs, [], _, _ => by simp [equalItems, settledItems]
  | v :: vs, w :: ws, hv, hw => by
    obtain ⟨hv, hvs⟩ := List.forall_mem_cons.1 hv
    obtain ⟨hw, hws⟩ := List.forall_mem_cons.1 hw
    rw [equalItems, Bool.and_eq_true, equal_iff hv hw, equalItems_iff hvs hws, settledItems,
      settledItems, List.cons.injEq, List.forall_mem_cons]
    tauto

theorem equalFields_settled : ∀ {xs ys : List (String × Value)},
    (∀ f ∈ xs, f.2.Throughout Distinct) → (∀ g ∈ ys, g.2.Throughout Distinct) →
      (struct ys).Distinct → (equalFields xs ys = true ↔
        ∀ f ∈ xs, (f.1, f.2.settled) ∈ settledFields ys ∧ f.2.Throughout Defined)
  | [], ys, _, _, _ => by simp [equalFields]
  | (name, v) :: xs, ys, hv, hw, hys => by
    obtain ⟨hv, hvs⟩ := List.forall_mem_cons.1 hv
    rw [equalFields, Bool.and_eq_true, equalFields_settled hvs hw hys, List.forall_mem_cons]
    refine and_congr_left' ?_
    rw [mem_settledFields]
    constructor
    · intro h
      split at h
      · rename_i w hget
        have hmem := Assoc.mem_of_get? hget
        obtain ⟨hsettled, hdefined⟩ := (equal_iff hv (hw _ hmem)).1 h
        exact ⟨⟨w, hmem, hsettled.symm⟩, hdefined⟩
      · cases h
    · rintro ⟨⟨w, hmem, hsettled⟩, hdefined⟩
      rw [Assoc.get?_of_mem hys hmem]
      exact (equal_iff hv (hw _ hmem)).2 ⟨hsettled.symm, hdefined⟩
end

mutual
theorem defined_settled : ∀ {v : Value}, v.settled.Throughout Defined ↔ v.Throughout Defined
  | number n => by simp [settled, Defined, Amount.isNaN_unsigned]
  | text _ | boolean _ | exception _ => by simp [settled]
  | function _ => by simp [settled, Defined]
  | list vs => by
    rw [settled, throughout_list, throughout_list, defined_settledItems]
    rfl
  | struct xs => by
    have sorted : (∀ f ∈ sortFields (settledFields xs), f.2.Throughout Defined) ↔
        ∀ f ∈ settledFields xs, f.2.Throughout Defined := by
      simp [sortFields, List.mem_mergeSort]
    rw [settled, throughout_struct, throughout_struct, sorted, defined_settledFields]
    rfl

theorem defined_settledItems : ∀ {vs : List Value},
    (∀ u ∈ settledItems vs, u.Throughout Defined) ↔ ∀ v ∈ vs, v.Throughout Defined
  | [] => by simp [settledItems]
  | v :: vs => by
    rw [settledItems, List.forall_mem_cons, List.forall_mem_cons, defined_settled,
      defined_settledItems]

theorem defined_settledFields : ∀ {xs : List (String × Value)},
    (∀ f ∈ settledFields xs, f.2.Throughout Defined) ↔ ∀ f ∈ xs, f.2.Throughout Defined
  | [] => by simp [settledFields]
  | (name, v) :: xs => by
    rw [settledFields, List.forall_mem_cons, List.forall_mem_cons, defined_settled,
      defined_settledFields]
end

/-! ### Nothing else is hidden -/

mutual
/-- The zeros in the values have the same signs and the fields stand in the same order. -/
def Aligned : Value → Value → Prop
  | number a, number b => a.amount.negative = b.amount.negative
  | list vs, list ws => AlignedItems vs ws
  | struct xs, struct ys => AlignedFields xs ys
  | _, _ => True

def AlignedItems : List Value → List Value → Prop
  | v :: vs, w :: ws => v.Aligned w ∧ AlignedItems vs ws
  | _, _ => True

def AlignedFields : List (String × Value) → List (String × Value) → Prop
  | (name, v) :: xs, (name', w) :: ys => name = name' ∧ v.Aligned w ∧ AlignedFields xs ys
  | _, _ => True
end

mutual
/-- Values that settle into the same form are the same if they agree in what settling drops. -/
theorem eq_of_aligned : ∀ {v w : Value}, v.Throughout Distinct → w.Throughout Distinct →
    (v.Every fun _ => False) → v.settled = w.settled → v.Aligned w → v = w
  | number a, w, _, _, _, h, ha => by
    cases w with
    | number b =>
      obtain ⟨x, unit⟩ := a
      obtain ⟨y, unit'⟩ := b
      simp only [settled, number.injEq, Number.mk.injEq] at h ⊢
      refine ⟨?_, h.2⟩
      rcases Amount.unsigned_eq_iff.1 h.1 with rfl | ⟨hx, hy⟩
      · rfl
      · exact Amount.ext_of_magnitude ha (by simp_all [Amount.isZero])
    | _ => simp [settled] at h
  | text s, w, _, _, _, h, _ => by cases w <;> simp_all [settled]
  | boolean b, w, _, _, _, h, _ => by cases w <;> simp_all [settled]
  | list vs, w, hv, hw, plain, h, ha => by
    cases w with
    | list ws =>
      rw [settled, settled, list.injEq] at h
      rw [items_eq_of_aligned (fun v => hv.item) (fun w => hw.item) (every_list.1 plain) h ha]
    | _ => simp [settled] at h
  | struct xs, w, hv, hw, plain, h, ha => by
    cases w with
    | struct ys =>
      have hperm := (settled_struct_eq_iff hv.self).1 h
      have hlen : xs.length = ys.length := by simpa [settledFields_eq] using hperm.length_eq
      have same (f) (hf : f ∈ xs) (g) (hg : g ∈ ys) (hname : f.1 = g.1) :
          f.2.settled = g.2.settled := by
        have hf := hperm.subset (mem_settledFields.2 ⟨f.2, hf, rfl⟩)
        have hg : (g.1, g.2.settled) ∈ settledFields ys := mem_settledFields.2 ⟨g.2, hg, rfl⟩
        have hnodup : ((settledFields ys).map Prod.fst).Nodup := by
          rw [map_fst_settledFields]
          exact hw.self
        exact congrArg Prod.snd (List.inj_on_of_nodup_map hnodup hf hg hname)
      rw [fields_eq_of_aligned (fun f => hv.field) (fun g => hw.field) (every_struct.1 plain) hlen
        same ha]
    | _ => simp [settled] at h
  | function c, w, _, _, plain, _, _ => (every_function.1 plain).elim
  | exception e, w, _, _, _, h, _ => by cases w <;> simp_all [settled]

theorem items_eq_of_aligned : ∀ {vs ws : List Value}, (∀ v ∈ vs, v.Throughout Distinct) →
    (∀ w ∈ ws, w.Throughout Distinct) → (∀ v ∈ vs, v.Every fun _ => False) →
      settledItems vs = settledItems ws → AlignedItems vs ws → vs = ws
  | [], [], _, _, _, _, _ => rfl
  | [], w :: ws, _, _, _, h, _ => by cases h
  | v :: vs, [], _, _, _, h, _ => by cases h
  | v :: vs, w :: ws, hv, hw, plain, h, ha => by
    obtain ⟨hv, hvs⟩ := List.forall_mem_cons.1 hv
    obtain ⟨hw, hws⟩ := List.forall_mem_cons.1 hw
    obtain ⟨hplain, hplains⟩ := List.forall_mem_cons.1 plain
    rw [settledItems, settledItems, List.cons.injEq] at h
    rw [eq_of_aligned hv hw hplain h.1 ha.1, items_eq_of_aligned hvs hws hplains h.2 ha.2]

theorem fields_eq_of_aligned : ∀ {xs ys : List (String × Value)},
    (∀ f ∈ xs, f.2.Throughout Distinct) → (∀ g ∈ ys, g.2.Throughout Distinct) →
      (∀ f ∈ xs, f.2.Every fun _ => False) → xs.length = ys.length →
      (∀ f ∈ xs, ∀ g ∈ ys, f.1 = g.1 → f.2.settled = g.2.settled) → AlignedFields xs ys → xs = ys
  | [], [], _, _, _, _, _, _ => rfl
  | [], g :: ys, _, _, _, h, _, _ => by cases h
  | f :: xs, [], _, _, _, h, _, _ => by cases h
  | (name, v) :: xs, (name', w) :: ys, hv, hw, plain, hlen, same, ⟨hname, ha, has⟩ => by
    obtain ⟨hv, hvs⟩ := List.forall_mem_cons.1 hv
    obtain ⟨hw, hws⟩ := List.forall_mem_cons.1 hw
    obtain ⟨hplain, hplains⟩ := List.forall_mem_cons.1 plain
    subst hname
    have hsettled := same _ List.mem_cons_self _ List.mem_cons_self rfl
    have hvalue : v = w := eq_of_aligned hv hw hplain hsettled ha
    have hrest : xs = ys := fields_eq_of_aligned hvs hws hplains (Nat.succ.inj hlen)
      (fun f hf g hg => same f (List.mem_cons_of_mem _ hf) g (List.mem_cons_of_mem _ hg)) has
    rw [hvalue, hrest]
end

end Value
end StreamLang
