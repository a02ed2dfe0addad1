import Mathlib.Order.WellFounded
import StreamLang.Proofs.Reaction.Turns
import StreamLang.Proofs.Tree.Reactive
/-!
What a reaction makes of its state. Its parts have the values that follow from those of the nodes
around it, from what streams show, and from the state; the next state is read off them. A node below
the reaction that is not volatile depends on no state, provided that every reference to a volatile bind
is volatile itself; its value is the one that it has in every state.
-/
namespace StreamLang
namespace Tree

/-- The values below a reaction in a world, where all other nodes have those of `U`. -/
structure Valued (t : Tree) (r : NodeId) (w : World) (U V : NodeId → Value) : Prop where
  outside : ∀ i, ¬ t.Below r i → V i = U i
  below : ∀ i, t.Below r i → V i = t.valueFrom w V i

/-- Below the reaction, no reference to a volatile bind is taken to be independent of the state. -/
def Sheltered (t : Tree) (r : NodeId) : Prop :=
  ∀ i b, t.Below r i → t.Below r b → t.resolution? i = some (.bind b) →
    (Analysis.ofTree t).isVolatile b = true → (Analysis.ofTree t).isVolatile i = true

/-- The node lies below `r`, or is a bind that stands before a node around `r` in its block. -/
def InSight (t : Tree) (r i : NodeId) : Prop :=
  t.Below r i ∨ ∃ p c, t.Precedes p i c ∧ t.Within c r

variable {t : Tree} {r i b : NodeId} {n : Node} {w w' : World} {U V V' : NodeId → Value}

namespace Reactive

variable (rx : t.Reactive r n)
include rx

theorem inPlace : t.InPlace :=
  ⟨rx.accepted, rx.isFunction, rx.kind_ne rfl (by simp) (by simp)⟩

/-- There are such values in every world. -/
theorem exists_valued (w : World) (U : NodeId → Value) : ∃ V, t.Valued r w U V := by
  obtain ⟨V, hU, hV⟩ := rx.ordered.exists_values rx.isFunction w (fun i => ¬ t.Below r i) U
  exact ⟨V, hU, fun i hi => hV i (not_not_intro hi)⟩

/-- The parts of the reaction after the first are not spent. -/
theorem not_spent {first c : NodeId} {rest : List NodeId} (hn : n.children = first :: rest)
    (hc : c ∈ rest) : ¬ t.Spent c := by
  rintro ⟨r', first', rest', hk, hr', hw⟩
  obtain rfl : r' = r := by
    by_contra hne
    exact rx.kind_ne_of_ne hne hk
  have hchildren : t.children r' = first :: rest := rx.working.children.trans hn
  obtain ⟨rfl, rfl⟩ := List.cons.inj (hchildren.symm.trans hr')
  have hnodup := rx.ordered.nodup r'
  rw [hchildren] at hnodup
  obtain rfl := rx.ordered.sibling_eq (hchildren ▸ List.mem_cons_self)
    (hchildren ▸ List.mem_cons_of_mem _ hc) hw (.refl c)
  exact (List.nodup_cons.1 hnodup).1 hc

/-- What a name below the reaction stands for is in sight of it. -/
theorem inSight_of_resolution (hi : t.Below r i) (hr : t.resolution? i = some (.bind b)) :
    t.InSight r b := by
  have o := rx.ordered
  obtain ⟨p, c, hp, hci⟩ := o.exists_precedes rx.isFunction hr
  rcases o.within_total hci hi.1 with hc | hc
  · exact .inr ⟨p, c, hp, hc⟩
  rcases hc.cases_tail with rfl | ⟨q, hq, hcq⟩
  · exact .inr ⟨p, r, hp, .refl r⟩
  · obtain rfl := o.parent_unique hp.later hcq
    refine .inl ⟨hq.trans (.child hp.mem_children), ?_⟩
    rintro rfl
    exact o.not_within_parent hp.mem_children hq

/-- A name that stands for a bind below the reaction lies below it as well. -/
theorem below_of_resolution (hb : t.Below r b) (hr : t.resolution? i = some (.bind b)) :
    t.Below r i := by
  have o := rx.ordered
  obtain ⟨p, c, hp, hci⟩ := o.exists_precedes rx.isFunction hr
  have hrp : t.Within r p := by
    rcases rx.parent_cases hb hp.mem_children with rfl | h
    · exact .refl p
    · exact h.1
  refine ⟨(hrp.trans (.child hp.later)).trans hci, ?_⟩
  rintro rfl
  exact o.not_within_parent hp.later (hci.trans hrp)

/-- What a node below the reaction needs is not the reaction. -/
theorem ne_of_needs (hi : t.Below r i) {j : NodeId} (h : Relation.ReflTransGen t.Needs i j) :
    j ≠ r := by
  rintro rfl
  have down : Relation.TransGen t.Needs j i := by
    rcases hi.1.cases_head with he | ⟨c, hc, hci⟩
    · exact absurd he.symm hi.2
    · exact .head' (.inl hc) (Relation.ReflTransGen.mono (fun _ _ => .inl) _ _ hci)
  have round : Relation.TransGen (Function.swap t.Needs) j j :=
    Relation.transGen_swap.2 (down.trans_left h)
  exact (rx.ordered.needs_wellFounded rx.isFunction).transGen.irrefl.irrefl j round

/-- What a node needs that is not volatile, is not volatile if it lies below the reaction. -/
theorem not_volatile_of_needs (sheltered : t.Sheltered r) (hi : t.Below r i)
    (hv : (Analysis.ofTree t).isVolatile i = false) {j : NodeId}
    (h : Relation.ReflTransGen t.Needs i j) :
    t.Below r j → (Analysis.ofTree t).isVolatile j = false := by
  induction h with
  | refl => exact fun _ => hv
  | tail hj hjm ih =>
    intro hb
    refine Bool.eq_false_iff.2 fun hm => ?_
    rcases hjm with hc | hr
    · have hbj := (rx.parent_cases hb hc).resolve_left (rx.ne_of_needs hi hj)
      exact Bool.eq_false_iff.1 (ih hbj)
        (isVolatile_of_child rx.ordered rx.isFunction hc (rx.kind_ne_of_ne hbj.2) hm)
    · have hbj := rx.below_of_resolution hb hr
      exact Bool.eq_false_iff.1 (ih hbj) (sheltered _ _ hbj hb hr hm)

/-- A node that lies in some reaction lies below the one there is. -/
theorem below_of_enclosingReaction? {r' : NodeId} (h : t.enclosingReaction? i = some r') :
    t.Below r i := by
  obtain ⟨hr', hw, hne⟩ := Tree.enclosingReaction?_spec rx.ordered h
  obtain rfl : r' = r := by
    by_contra hne
    exact rx.kind_ne_of_ne hne hr'
  exact ⟨hw, hne.symm⟩

/-- A node that is not volatile depends on no state. -/
theorem stateless_of_not_volatile (sheltered : t.Sheltered r) (hi : t.Below r i)
    (hv : (Analysis.ofTree t).isVolatile i = false) (hs : ¬ t.Spent i) : t.Stateless i := by
  refine ⟨fun j hj k hk => ?_, hs⟩
  rcases rx.kinds j k hk (rx.ne_of_needs hi hj) with hp | rfl
  · exact .inl hp
  refine .inr ⟨rfl, ?_⟩
  by_contra he
  obtain ⟨r', he⟩ := Option.ne_none_iff_exists'.1 he
  have hb := rx.below_of_enclosingReaction? he
  exact Bool.eq_false_iff.1 (rx.not_volatile_of_needs sheltered hi hv hj hb)
    ((rx.isVolatile_iff hb).2 ⟨j, hk, .refl j⟩)

/-- In sight of the reaction a stateless node has the value that it has in a world without states, if
the binds before the reaction have. -/
theorem eq_of_stateless (hV : t.Valued r w U V)
    (hV' : ∀ i, t.Stateless i → V' i = t.valueFrom w' V' i)
    (snapshot : w.snapshot = w'.snapshot) (policy : w.policy = w'.policy) (outer : w.outer = w'.outer)
    (before : ∀ p b c, t.Precedes p b c → t.Within c r → t.Stateless b → U b = V' b) (i : NodeId) :
    t.InSight r i → t.Stateless i → V i = V' i := by
  refine (rx.ordered.needs_wellFounded rx.isFunction).induction (C := fun i => t.InSight r i →
    t.Stateless i → V i = V' i) i fun i ih hi hs => ?_
  by_cases hb : t.Below r i
  · rw [hV.below i hb, hV' i hs]
    refine valueFrom_congr (fun n stream mode _ _ => World.reading_congr snapshot policy)
      (fun m name hw hk => ?_) (fun m q hw hk hq => ?_) fun m hm => ?_
    · unfold named
      cases hr : t.resolve name i with
      | bind b =>
        have hres : t.resolution? i = some (.bind b) := by
          rw [resolution?_reference (hw.kind.trans (by rw [hk])), hr]
        exact congrArg some (ih b (.inr hres) (rx.inSight_of_resolution hb hres)
          (hs.bind rx.inPlace hres))
      | parameter => exact congrFun outer name
      | global => exact congrFun outer name
    · rcases hs.self _ (hw.kind.trans (by rw [hk])) with h | ⟨-, h⟩
      · cases h
      · rw [h] at hq
        cases hq
    · have hsm := hs.of_decides rx.inPlace hm
      exact ih m (needs_of_decides hm) (.inl (rx.below_child hb hm.mem_children)) hsm
  · obtain ⟨p, c, hp, hc⟩ := hi.resolve_left hb
    rw [hV.outside i hb, before p i c hp hc hs]

end Reactive
end Tree
end StreamLang
