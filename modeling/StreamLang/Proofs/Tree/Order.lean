import Mathlib.Logic.Relation
import StreamLang.Proofs.Success
/-!
What `finish` accepts is a tree: every child lies below its parent in number, has no other parent,
and is claimed once. From this alone follows what the walks up and down need: a node lies within
another if the other is reached from it by parents.
-/
namespace StreamLang

/-- Children come before their parents, and parents and children agree. -/
structure Tree.Ordered (t : Tree) : Prop where
  child_lt : ∀ {p c : Nat}, c ∈ t.children p → c < p
  parent_iff : ∀ {p c : NodeId}, t.parent? c = some p ↔ c ∈ t.children p
  nodup : ∀ p : NodeId, (t.children p).Nodup

namespace Draft

/-- What is known once all of a list of links has been claimed. -/
structure Claimed (owners owners' : NodeMap NodeId) (links : List (NodeId × NodeId)) : Prop where
  lt : ∀ p c, (p, c) ∈ links → c < p
  owned : ∀ p c, (p, c) ∈ links → owners'[c]? = some p
  kept : ∀ p c : NodeId, owners[c]? = some p → owners'[c]? = some p
  source : ∀ p c : NodeId, owners'[c]? = some p → owners[c]? = some p ∨ (p, c) ∈ links
  nodup : (links.map Prod.snd).Nodup
  fresh : ∀ p c, (p, c) ∈ links → owners[c]? = none

theorem claim_eq_ok {size : Nat} {owners owners' : NodeMap NodeId} {p c : NodeId}
    (h : claim size owners (p, c) = .ok owners') :
    c < p ∧ owners[c]? = none ∧ owners' = owners.insert c p := by
  unfold claim at h
  by_cases hs : size ≤ c
  · simp [hs] at h
  by_cases hp : p ≤ c
  · simp [hs, hp] at h
  cases hn : owners[c]? with
  | some first => simp [hs, hp, hn] at h
  | none =>
    simp only [hs, hp, hn, if_false, Except.ok.injEq] at h
    exact ⟨Nat.lt_of_not_le hp, rfl, h.symm⟩

theorem claimed_of_foldlM {size : Nat} (links : List (NodeId × NodeId))
    {owners owners' : NodeMap NodeId} (h : links.foldlM (claim size) owners = .ok owners') :
    Claimed owners owners' links := by
  induction links generalizing owners with
  | nil =>
    cases h
    exact ⟨by simp, by simp, fun _ _ h => h, fun _ _ h => .inl h, by simp, by simp⟩
  | cons link rest ih =>
    obtain ⟨p, c⟩ := link
    rw [List.foldlM_cons] at h
    obtain ⟨first, hc, h⟩ := of_bind_eq_ok h
    obtain ⟨hlt, hnone, rfl⟩ := claim_eq_ok hc
    have r := ih h
    have hself : owners'[c]? = some p := r.kept p c (by simp)
    have hother : ∀ q d, (q, d) ∈ rest → d ≠ c := by
      rintro q d hm rfl
      have := r.fresh q d hm
      simp at this
    refine ⟨?_, ?_, ?_, ?_, ?_, ?_⟩
    · intro q d hm
      rcases List.mem_cons.1 hm with h | hm
      · cases h; exact hlt
      · exact r.lt q d hm
    · intro q d hm
      rcases List.mem_cons.1 hm with h | hm
      · cases h; exact hself
      · exact r.owned q d hm
    · intro q d hq
      have hne : c ≠ d := by rintro rfl; rw [hnone] at hq; cases hq
      exact r.kept q d (by simpa [Std.ExtTreeMap.getElem?_insert, hne] using hq)
    · intro q d hq
      rcases r.source q d hq with h | h
      · by_cases hd : c = d
        · subst hd
          right
          simp at h
          simp [h]
        · left
          simpa [Std.ExtTreeMap.getElem?_insert, hd] using h
      · exact .inr (List.mem_cons_of_mem _ h)
    · rw [List.map_cons, List.nodup_cons]
      refine ⟨?_, r.nodup⟩
      intro hm
      obtain ⟨⟨q, d⟩, hmem, hd⟩ := List.mem_map.1 hm
      exact hother q d hmem hd
    · intro q d hm
      rcases List.mem_cons.1 hm with h | hm
      · cases h; exact hnone
      · have := r.fresh q d hm
        simpa [Std.ExtTreeMap.getElem?_insert, (hother q d hm).symm] using this

theorem mem_links {nodes : Array Node} {p c : NodeId} :
    (p, c) ∈ links nodes ↔ ∃ n, nodes[p]? = some n ∧ c ∈ n.children := by
  unfold links
  simp only [List.mem_flatMap, Prod.exists, List.mem_map, Prod.mk.injEq]
  constructor
  · rintro ⟨n, i, hm, d, hd, rfl, rfl⟩
    rw [List.mem_zipIdx_iff_getElem?] at hm
    exact ⟨n, by simpa using hm, hd⟩
  · rintro ⟨n, hn, hc⟩
    refine ⟨n, p, ?_, c, hc, rfl, rfl⟩
    rw [List.mem_zipIdx_iff_getElem?]
    simpa using hn

theorem children_sublist_links {nodes : Array Node} {p : NodeId} {n : Node}
    (h : nodes[p]? = some n) : n.children.Sublist ((links nodes).map Prod.snd) := by
  have hm : (n, p) ∈ nodes.toList.zipIdx := by
    rw [List.mem_zipIdx_iff_getElem?]
    simpa using h
  have hs : (n.children.map (p, ·)).Sublist (links nodes) := by
    unfold links
    rw [List.flatMap_def]
    exact List.sublist_flatten_of_mem (List.mem_map.2 ⟨(n, p), hm, rfl⟩)
  have := hs.map Prod.snd
  simpa [List.map_map, Function.comp_def] using this

/-- The nodes with the root that `finish` puts above `body`. -/
def rooted (d : Draft) (body : NodeId) : Array Node := d.nodes.push ⟨.program, [body], none, none⟩

/-- Accepted is what has all of its links claimed and leaves only the new root unclaimed. Each node
then has the parent that claims it. -/
theorem finish_eq_ok_iff {d : Draft} {body : NodeId} {t : Tree} : d.finish body = .ok t ↔
    ∃ owners, (links (d.rooted body)).foldlM (claim (d.rooted body).size) ∅ = .ok owners ∧
      (∀ i < d.nodes.size, owners.contains i = true) ∧
      t = ⟨(d.rooted body).mapIdx fun i n => { n with parent := owners[i]? }, d.nodes.size⟩ := by
  show (links (d.rooted body)).foldlM (claim (d.rooted body).size) ∅ >>= _ = _ ↔ _
  have hfind (owners : NodeMap NodeId) :
      (List.range d.nodes.size).find? (fun i => !owners.contains i) = none ↔
        ∀ i < d.nodes.size, owners.contains i = true := by simp
  constructor
  · intro h
    obtain ⟨owners, hc, h⟩ := of_bind_eq_ok h
    cases hf : (List.range d.nodes.size).find? (fun i => !owners.contains i) with
    | some i => simp [hf] at h
    | none =>
      simp only [hf] at h
      exact ⟨owners, hc, (hfind owners).1 hf, (Except.ok.inj h).symm⟩
  · rintro ⟨owners, hc, hall, rfl⟩
    rw [hc]
    simp only [bind, Except.bind, (hfind owners).2 hall]
    rfl

/-- What `finish` accepts is an ordered tree. -/
theorem finish_ordered {d : Draft} {body : NodeId} {t : Tree} (h : d.finish body = .ok t) :
    t.Ordered := by
  obtain ⟨owners, hc, -, rfl⟩ := finish_eq_ok_iff.1 h
  have r := claimed_of_foldlM _ hc
  generalize d.rooted body = nodes at r
  have hchildren (p c : NodeId) : c ∈ Tree.children ⟨nodes.mapIdx fun i n =>
      { n with parent := owners[i]? }, d.nodes.size⟩ p ↔ (p, c) ∈ links nodes := by
    rw [mem_links]
    cases hn : nodes[p]? <;> simp [Tree.children, Tree.node?, hn]
  refine ⟨?_, ?_, ?_⟩
  · intro p c hm
    exact r.lt p c ((hchildren p c).1 hm)
  · intro p c
    rw [hchildren]
    constructor
    · intro hp
      have hp : owners[c]? = some p := by
        cases hn : nodes[c]? <;> simp [Tree.parent?, Tree.node?, hn] at hp
        exact hp
      rcases r.source p c hp with h | h
      · simp at h
      · exact h
    · intro hm
      have hlt := r.lt p c hm
      obtain ⟨n, hn, -⟩ := mem_links.1 hm
      have hp : p < nodes.size := (Array.getElem?_eq_some_iff.1 hn).1
      have hcs : c < nodes.size := Nat.lt_trans hlt hp
      have hc : nodes[c]? = some nodes[c] := by simp
      simp [Tree.parent?, Tree.node?, hc, r.owned p c hm]
  · intro p
    cases hn : nodes[p]? with
    | none => simp [Tree.children, Tree.node?, hn]
    | some n =>
      have := r.nodup.sublist (children_sublist_links hn)
      simpa [Tree.children, Tree.node?, hn] using this

end Draft

namespace Tree

/-- The tree can be built. -/
def Accepted (t : Tree) : Prop := ∃ d body, Draft.finish d body = .ok t

theorem Accepted.ordered {t : Tree} (h : t.Accepted) : t.Ordered := by
  obtain ⟨d, body, h⟩ := h
  exact Draft.finish_ordered h

/-- The node `i` is `a` or lies below it. -/
def Within (t : Tree) : NodeId → NodeId → Prop :=
  Relation.ReflTransGen fun p c => c ∈ t.children p

variable {t : Tree}

theorem Within.refl (i : NodeId) : t.Within i i := Relation.ReflTransGen.refl

theorem Within.trans {a b c : NodeId} (h : t.Within a b) (h' : t.Within b c) : t.Within a c :=
  Relation.ReflTransGen.trans h h'

theorem Within.child {p c : NodeId} (h : c ∈ t.children p) : t.Within p c :=
  Relation.ReflTransGen.single h

theorem Within.cases_head {a i : NodeId} (h : t.Within a i) :
    a = i ∨ ∃ c ∈ t.children a, t.Within c i := by
  rcases Relation.ReflTransGen.cases_head h with h | ⟨c, hc, h⟩
  · exact .inl h
  · exact .inr ⟨c, hc, h⟩

theorem Within.cases_tail {a i : NodeId} (h : t.Within a i) :
    a = i ∨ ∃ p, t.Within a p ∧ i ∈ t.children p := by
  rcases Relation.ReflTransGen.cases_tail h with h | ⟨p, h, hp⟩
  · exact .inl h.symm
  · exact .inr ⟨p, h, hp⟩

theorem lt_size_of_mem_children {p c : Nat} (h : c ∈ t.children p) : p < t.size := by
  cases hn : t.nodes[p]? with
  | none => simp [children, node?, hn] at h
  | some n => exact (Array.getElem?_eq_some_iff.1 hn).1

theorem ancestors_root {i : NodeId} (h : t.parent? i = none) : t.ancestors i = [] := by
  unfold ancestors
  cases t.size <;> simp [ancestorsWithin, h]

namespace Ordered

variable (o : t.Ordered)
include o

theorem within_le {a i : Nat} (h : t.Within a i) : i ≤ a := by
  induction h with
  | refl => exact Nat.le_refl _
  | tail _ hc ih => exact Nat.le_trans (Nat.le_of_lt (o.child_lt hc)) ih

theorem child_lt_size {p c : NodeId} (h : c ∈ t.children p) : c < t.size :=
  Nat.lt_trans (o.child_lt h) (lt_size_of_mem_children h)

theorem within_antisymm {a b : NodeId} (h : t.Within a b) (h' : t.Within b a) : a = b :=
  Nat.le_antisymm (o.within_le h') (o.within_le h)

theorem parent_unique {p q c : NodeId} (hp : c ∈ t.children p) (hq : c ∈ t.children q) : p = q := by
  have := (o.parent_iff.2 hp).symm.trans (o.parent_iff.2 hq)
  simpa using this

/-- Two nodes around one node lie one within the other. -/
theorem within_total {a b i : NodeId} (ha : t.Within a i) (hb : t.Within b i) :
    t.Within a b ∨ t.Within b a := by
  induction ha with
  | refl => exact .inr hb
  | tail h hc ih =>
    rename_i p c
    rcases hb.cases_tail with rfl | ⟨q, hq, hcq⟩
    · exact .inl (h.tail hc)
    · obtain rfl := o.parent_unique hc hcq
      exact ih hq

/-- Different children of a node have nothing in common. -/
theorem sibling_eq {p c d i : NodeId} (hc : c ∈ t.children p) (hd : d ∈ t.children p)
    (hci : t.Within c i) (hdi : t.Within d i) : c = d := by
  have key {c d : NodeId} (hc : c ∈ t.children p) (hd : d ∈ t.children p)
      (h : t.Within c d) : c = d := by
    rcases h.cases_tail with rfl | ⟨q, hq, hdq⟩
    · rfl
    · obtain rfl := o.parent_unique hd hdq
      exact absurd (o.within_le hq) (Nat.not_le.2 (o.child_lt hc))
  rcases o.within_total hci hdi with h | h
  · exact key hc hd h
  · exact (key hd hc h).symm

theorem not_within_parent {p c : NodeId} (h : c ∈ t.children p) : ¬ t.Within c p := fun hw =>
  absurd (o.within_le hw) (Nat.not_le.2 (o.child_lt h))

/-- More fuel than nodes above finds no more ancestors. -/
theorem ancestorsWithin_eq (n m i : Nat) (hn : t.size ≤ i + n) (hm : t.size ≤ i + m) :
    t.ancestorsWithin n i = t.ancestorsWithin m i := by
  induction n generalizing m i with
  | zero =>
    have hp : t.parent? i = none := by
      cases h : t.parent? i with
      | none => rfl
      | some p =>
        have hc := o.parent_iff.1 h
        have := lt_size_of_mem_children hc
        have := o.child_lt hc
        omega
    cases m <;> simp [ancestorsWithin, hp]
  | succ n ih =>
    cases hp : t.parent? i with
    | none => cases m <;> simp [ancestorsWithin, hp]
    | some p =>
      have hc := o.parent_iff.1 hp
      have hlt := o.child_lt hc
      have hs := lt_size_of_mem_children hc
      cases m with
      | zero => omega
      | succ m =>
        simp only [ancestorsWithin, hp]
        rw [ih m p (by omega) (by omega)]

theorem ancestors_child {p c : NodeId} (h : c ∈ t.children p) :
    t.ancestors c = p :: t.ancestors p := by
  have hs := lt_size_of_mem_children h
  have hlt := o.child_lt h
  obtain ⟨n, hn⟩ : ∃ n, t.size = n + 1 := ⟨t.size - 1, by omega⟩
  have hp : t.parent? c = some p := o.parent_iff.2 h
  have h1 : t.ancestors c = p :: t.ancestorsWithin n p := by
    rw [ancestors, hn, ancestorsWithin, hp]
  rw [h1, ancestors, o.ancestorsWithin_eq n t.size p (by omega) (by omega)]

theorem mem_ancestors {a i : NodeId} : a ∈ t.ancestors i ↔ t.Within a i ∧ a ≠ i := by
  constructor
  · have key (n : Nat) (i : NodeId) : a ∈ t.ancestorsWithin n i → t.Within a i ∧ i < a := by
      induction n generalizing i with
      | zero => simp [ancestorsWithin]
      | succ n ih =>
        intro hm
        cases hp : t.parent? i with
        | none => simp [ancestorsWithin, hp] at hm
        | some p =>
          have hc := o.parent_iff.1 hp
          simp only [ancestorsWithin, hp, List.mem_cons] at hm
          rcases hm with rfl | hm
          · exact ⟨Within.child hc, o.child_lt hc⟩
          · obtain ⟨hw, hlt⟩ := ih p hm
            exact ⟨hw.trans (Within.child hc), Nat.lt_trans (o.child_lt hc) hlt⟩
    intro hm
    obtain ⟨hw, hlt⟩ := key _ _ hm
    exact ⟨hw, Nat.ne_of_gt hlt⟩
  · rintro ⟨hw, hne⟩
    induction hw with
    | refl => exact absurd rfl hne
    | tail hp hc ih =>
      rename_i p c
      rw [o.ancestors_child hc]
      by_cases h : a = p
      · simp [h]
      · exact List.mem_cons_of_mem _ (ih h)

theorem isAncestorOrSelf_iff {a i : NodeId} : t.isAncestorOrSelf a i = true ↔ t.Within a i := by
  simp only [isAncestorOrSelf, Bool.or_eq_true, beq_iff_eq, List.contains_iff_mem,
    o.mem_ancestors]
  constructor
  · rintro (rfl | ⟨h, -⟩)
    · exact Within.refl _
    · exact h
  · intro h
    by_cases he : i = a
    · exact .inl he
    · exact .inr ⟨h, Ne.symm he⟩

end Ordered
end Tree
end StreamLang
