import Mathlib.Data.List.Nodup
import Mathlib.Data.List.Perm.Basic
import Mathlib.Tactic.MkIffOfInductiveProp
import StreamLang.Proofs.Tree.Names
import StreamLang.Proofs.Tree.Plain
/-!
Which drafts are trees. `finish` looks at one child after another, but what it accepts is exactly
what is a tree as a whole (`Draft.finish_accepts_trees`): from every node one comes to the root by
going up, and a walk down from the root meets every node once, each before its children.
-/
namespace StreamLang

namespace Draft

/-- Every child is a node and comes before its parent, no node is named twice, and all but the last
are named. -/
@[mk_iff]
structure Treelike (nodes : Array Node) : Prop where
  earlier : ∀ (p : Nat) (h : p < nodes.size), ∀ c ∈ nodes[p].children, c < nodes.size ∧ c < p
  once : (nodes.toList.flatMap (·.children)).Nodup
  named : ∀ i < nodes.size - 1, ∃ n ∈ nodes.toList, i ∈ n.children

instance (nodes : Array Node) : Decidable (Treelike nodes) :=
  decidable_of_iff _ (treelike_iff nodes).symm

variable {d : Draft} {body : NodeId} {t : Tree}

@[simp] theorem size_rooted : (d.rooted body).size = d.nodes.size + 1 := by simp [rooted]

theorem map_snd_links (nodes : Array Node) :
    (links nodes).map Prod.snd = nodes.toList.flatMap (·.children) := by
  calc (links nodes).map Prod.snd
      = nodes.toList.zipIdx.flatMap fun x => x.1.children := by
        simp [links, List.map_flatMap, Function.comp_def]
    _ = (nodes.toList.zipIdx.map Prod.fst).flatMap (·.children) := by rw [List.flatMap_map]
    _ = nodes.toList.flatMap (·.children) := by rw [List.zipIdx_map_fst]

theorem mem_links_iff_getElem {nodes : Array Node} {p c : NodeId} :
    (p, c) ∈ links nodes ↔ ∃ h : p < nodes.size, c ∈ nodes[p].children := by
  rw [mem_links]
  constructor
  · rintro ⟨n, hn, hc⟩
    obtain ⟨hp, rfl⟩ := Array.getElem?_eq_some_iff.1 hn
    exact ⟨hp, hc⟩
  · rintro ⟨hp, hc⟩
    exact ⟨nodes[p], Array.getElem?_eq_getElem hp, hc⟩

/-- A child that is in its place and has no parent yet is given to the node that claims it. -/
theorem claim_of_fits {size p c : Nat} {owners : NodeMap NodeId} (hsize : c < size) (hlt : c < p)
    (hfresh : owners[c]? = none) : claim size owners (p, c) = .ok (owners.insert c p) := by
  simp [claim, Nat.not_le.2 hsize, Nat.not_le.2 hlt, hfresh]

/-- Links are claimed if every child is in its place and none comes twice. -/
theorem exists_claimed {size : Nat} {links : List (NodeId × NodeId)} (owners : NodeMap NodeId)
    (hlt : ∀ p c, (p, c) ∈ links → c < size ∧ c < p) (hnodup : (links.map Prod.snd).Nodup)
    (hfresh : ∀ p c, (p, c) ∈ links → owners[c]? = none) :
    ∃ owners', links.foldlM (claim size) owners = .ok owners' := by
  induction links generalizing owners with
  | nil => exact ⟨owners, rfl⟩
  | cons link rest ih =>
    obtain ⟨p, c⟩ := link
    obtain ⟨hc, hrest⟩ := List.nodup_cons.1 hnodup
    obtain ⟨hsize, hcp⟩ := hlt p c List.mem_cons_self
    obtain ⟨owners', h⟩ := ih (owners.insert c p)
      (fun q b hm => hlt q b (List.mem_cons_of_mem _ hm)) hrest fun q b hm => by
        have hne : c ≠ b := fun h => hc (List.mem_map.2 ⟨(q, b), hm, h.symm⟩)
        simpa [Std.ExtTreeMap.getElem?_insert, hne] using hfresh q b (List.mem_cons_of_mem _ hm)
    refine ⟨owners', ?_⟩
    rw [List.foldlM_cons, claim_of_fits hsize hcp (hfresh p c List.mem_cons_self)]
    exact h

theorem mem_children_iff_mem_links {nodes : Array Node} {c : NodeId} :
    (∃ n ∈ nodes.toList, c ∈ n.children) ↔ ∃ p, (p, c) ∈ links nodes := by
  rw [← List.mem_flatMap, ← map_snd_links]
  simp

/-- A draft that is like a tree is accepted. -/
theorem exists_finish_of_treelike (h : Treelike (d.rooted body)) : ∃ t, d.finish body = .ok t := by
  have hlt (p c : NodeId) (hm : (p, c) ∈ links (d.rooted body)) :
      c < (d.rooted body).size ∧ c < p := by
    obtain ⟨hp, hm⟩ := mem_links_iff_getElem.1 hm
    exact h.earlier p hp c hm
  obtain ⟨owners, hc⟩ := exists_claimed ∅ hlt (map_snd_links _ ▸ h.once) (by simp)
  have r := claimed_of_foldlM _ hc
  refine ⟨_, finish_eq_ok_iff.2 ⟨owners, hc, fun i hi => ?_, rfl⟩⟩
  obtain ⟨p, hm⟩ := mem_children_iff_mem_links.1 (h.named i (by simpa using hi))
  rw [Std.ExtTreeMap.contains_eq_isSome_getElem?, r.owned p i hm]
  rfl

/-- What is accepted is like a tree. -/
theorem treelike_of_finish (h : d.finish body = .ok t) : Treelike (d.rooted body) := by
  obtain ⟨owners, hc, hall, -⟩ := finish_eq_ok_iff.1 h
  have r := claimed_of_foldlM _ hc
  refine ⟨fun p hp c hm => ?_, map_snd_links _ ▸ r.nodup, fun i hi => ?_⟩
  · have hlt := r.lt p c (mem_links_iff_getElem.2 ⟨hp, hm⟩)
    exact ⟨hlt.trans hp, hlt⟩
  · have hi : i < d.nodes.size := by simpa using hi
    have howned := hall i hi
    rw [Std.ExtTreeMap.contains_eq_isSome_getElem?, Option.isSome_iff_exists] at howned
    obtain ⟨p, hp⟩ := howned
    refine mem_children_iff_mem_links.2 ⟨p, ?_⟩
    exact (r.source p i hp).resolve_left (by simp)

/-- An accepted tree has the nodes of its draft; only their parents are new. -/
theorem finish_node? (h : d.finish body = .ok t) (i : NodeId) :
    t.node? i = (d.rooted body)[i]?.map ({ · with parent := t.parent? i }) := by
  obtain ⟨owners, -, -, rfl⟩ := finish_eq_ok_iff.1 h
  cases hn : (d.rooted body)[i]? with
  | none => simp [Tree.node?, hn]
  | some n => simp [Tree.parent?, Tree.node?, hn]

theorem finish_root_eq (h : d.finish body = .ok t) : t.root = d.nodes.size := by
  obtain ⟨owners, -, -, rfl⟩ := finish_eq_ok_iff.1 h
  rfl

/-- Every node but the root has a parent. -/
theorem finish_exists_parent (h : d.finish body = .ok t) {i : NodeId} (hi : i < t.root) :
    ∃ p, t.parent? i = some p := by
  obtain ⟨owners, hc, hall, rfl⟩ := finish_eq_ok_iff.1 h
  have hi : i < d.nodes.size := hi
  have howned := hall i hi
  rw [Std.ExtTreeMap.contains_eq_isSome_getElem?, Option.isSome_iff_exists] at howned
  obtain ⟨p, hp⟩ := howned
  have hlt : i < (d.rooted body).size := by
    rw [size_rooted]
    exact hi.trans (Nat.lt_succ_self _)
  have hn : (d.rooted body)[i]? = some (d.rooted body)[i] := Array.getElem?_eq_getElem hlt
  exact ⟨p, by simp [Tree.parent?, Tree.node?, hn, hp]⟩

end Draft

namespace Tree

variable {t : Tree}

/-- All lies below the root. -/
theorem Accepted.within_root (h : t.Accepted) {i : NodeId} (hi : i < t.size) :
    t.Within t.root i := by
  have o := h.ordered
  obtain ⟨a, ha, hw⟩ := o.exists_top i
  have hsize : a < t.size := by
    rcases hw.cases_head with rfl | ⟨c, hc, -⟩
    · exact hi
    · exact lt_size_of_mem_children hc
  obtain ⟨d, body, h⟩ := h
  rw [Draft.finish_root h] at hsize
  rcases Nat.lt_succ_iff_lt_or_eq.1 hsize with hlt | rfl
  · obtain ⟨p, hp⟩ := Draft.finish_exists_parent h hlt
    rw [ha] at hp
    cases hp
  · exact hw

/-- Each node above is the parent of the one before it. -/
theorem isChain_ancestors (t : Tree) (i : NodeId) :
    List.IsChain (fun c p => t.parent? c = some p) (i :: t.ancestors i) := by
  have key (n : Nat) (i : NodeId) :
      List.IsChain (fun c p => t.parent? c = some p) (i :: t.ancestorsWithin n i) := by
    induction n generalizing i with
    | zero => exact .singleton i
    | succ n ih =>
      cases hp : t.parent? i with
      | none =>
        simp only [ancestorsWithin, hp]
        exact .singleton i
      | some p =>
        simp only [ancestorsWithin, hp]
        exact .cons_cons hp (ih p)
  exact key t.size i

/-- The way up ends at the root. -/
theorem Accepted.getLast?_ancestors (h : t.Accepted) {i : NodeId} (hi : i < t.size) :
    (i :: t.ancestors i).getLast? = some t.root := by
  have o := h.ordered
  induction h.within_root hi with
  | refl => rw [ancestors_root h.parent_root]; rfl
  | tail _ hc ih =>
    rw [o.ancestors_child hc, List.getLast?_cons_cons]
    exact ih (lt_size_of_mem_children hc)

namespace Ordered

variable (o : t.Ordered)
include o

theorem induction_below {P : NodeId → Prop} (step : ∀ i, (∀ c ∈ t.children i, P c) → P i)
    (i : NodeId) : P i := by
  induction i using Nat.strong_induction_on with
  | h i ih => exact step i fun c hc => ih c (o.child_lt hc)

/-- Numbers rise on the way up. -/
theorem pairwise_ancestors (i : NodeId) : (i :: t.ancestors i).Pairwise (· < ·) := by
  have h : List.IsChain (· < ·) (i :: t.ancestors i) :=
    (isChain_ancestors t i).imp fun _ _ hp => o.child_lt (o.parent_iff.1 hp)
  exact List.isChain_iff_pairwise.1 h

/-- More levels than numbers up to a node find nothing more below it. -/
theorem descendantsWithin_eq {n m i : Nat} (hn : i < n) (hm : i < m) :
    t.descendantsWithin n i = t.descendantsWithin m i := by
  induction n generalizing m i with
  | zero => cases hn
  | succ n ih =>
    obtain ⟨m, rfl⟩ : ∃ m', m = m' + 1 := ⟨m - 1, by omega⟩
    simp only [descendantsWithin, List.cons.injEq, true_and]
    refine List.flatMap_congr fun c hc => ?_
    have := o.child_lt hc
    exact ih (by omega) (by omega)

theorem descendants_eq (i : NodeId) :
    t.descendants i = i :: (t.children i).flatMap t.descendants := by
  rw [descendants, descendantsWithin, List.cons.injEq]
  exact ⟨rfl, List.flatMap_congr fun c hc =>
    o.descendantsWithin_eq (o.child_lt hc) (Nat.lt_succ_self c)⟩

theorem mem_descendants {i j : NodeId} : j ∈ t.descendants i ↔ t.Within i j := by
  induction i using o.induction_below with
  | step i ih =>
    rw [o.descendants_eq, List.mem_cons, List.mem_flatMap]
    constructor
    · rintro (rfl | ⟨c, hc, hj⟩)
      · exact .refl _
      · exact (Within.child hc).trans ((ih c hc).1 hj)
    · intro h
      rcases h.cases_head with rfl | ⟨c, hc, hj⟩
      · exact .inl rfl
      · exact .inr ⟨c, hc, (ih c hc).2 hj⟩

theorem nodup_descendants (i : NodeId) : (t.descendants i).Nodup := by
  induction i using o.induction_below with
  | step i ih =>
    rw [o.descendants_eq, List.nodup_cons, List.nodup_flatMap]
    refine ⟨fun h => ?_, ih, ?_⟩
    · obtain ⟨c, hc, hi⟩ := List.mem_flatMap.1 h
      exact o.not_within_parent hc (o.mem_descendants.1 hi)
    · refine (o.nodup i).imp_of_mem fun {c b} hc hb hne j hj hj' => hne ?_
      exact o.sibling_eq hc hb (o.mem_descendants.1 hj) (o.mem_descendants.1 hj')

/-- The children of a node follow it, from left to right. -/
theorem children_sublist_descendants (i : NodeId) :
    (i :: t.children i).Sublist (t.descendants i) := by
  rw [o.descendants_eq, List.cons_sublist_cons]
  generalize t.children i = cs
  induction cs with
  | nil => exact .slnil
  | cons c cs ih =>
    rw [List.flatMap_cons, o.descendants_eq c, List.cons_append, List.cons_sublist_cons]
    exact ih.trans (List.sublist_append_right _ _)

theorem descendants_sublist {a i : NodeId} (h : t.Within a i) :
    (t.descendants i).Sublist (t.descendants a) := by
  induction h with
  | refl => exact .refl _
  | @tail p c _ hc ih =>
    refine List.Sublist.trans ?_ ih
    rw [o.descendants_eq p]
    refine List.Sublist.trans ?_ (List.sublist_cons_self _ _)
    rw [List.flatMap_def]
    exact List.sublist_flatten_of_mem (List.mem_map.2 ⟨c, hc, rfl⟩)

end Ordered

/-- Takes so many nodes off a stack. Each is put at the end of what was found, and its children on
the stack, the first one on top. -/
def popping (t : Tree) : Nat → List NodeId → List NodeId → List NodeId × List NodeId
  | 0, found, stack => (found, stack)
  | _ + 1, found, [] => (found, [])
  | n + 1, found, i :: stack => t.popping n (found ++ [i]) (t.children i ++ stack)

theorem popping_nil (t : Tree) (n : Nat) (found : List NodeId) :
    t.popping n found [] = (found, []) := by
  cases n <;> rfl

/-- What lies on a stack is found with all below it, before what lies under it. -/
theorem Ordered.popping_descendants (o : t.Ordered) (i : NodeId) (n : Nat)
    (found stack : List NodeId) :
    t.popping ((t.descendants i).length + n) found (i :: stack) =
      t.popping n (found ++ t.descendants i) stack := by
  induction i using o.induction_below generalizing n found stack with
  | step i ih =>
    -- the children lie on the stack together, and are taken one after another
    have all (cs : List NodeId) (hcs : ∀ c ∈ cs, c ∈ t.children i) (n : Nat)
        (found : List NodeId) :
        t.popping ((cs.flatMap t.descendants).length + n) found (cs ++ stack) =
          t.popping n (found ++ cs.flatMap t.descendants) stack := by
      induction cs generalizing n found with
      | nil => simp
      | cons c cs ihcs =>
        have hc := hcs c List.mem_cons_self
        rw [List.flatMap_cons, List.length_append, Nat.add_assoc, List.cons_append, ih c hc,
          ihcs (fun b hb => hcs b (List.mem_cons_of_mem _ hb)), List.append_assoc]
    have hone (m : Nat) : t.popping (m + 1) found (i :: stack) =
        t.popping m (found ++ [i]) (t.children i ++ stack) := rfl
    rw [o.descendants_eq, List.length_cons, Nat.add_right_comm, hone,
      all _ (fun _ h => h), List.append_assoc]
    rfl

namespace Accepted

variable (h : t.Accepted)
include h

/-- Below the root every node is found once. -/
theorem descendants_root_perm : (t.descendants t.root).Perm t.ids := by
  have o := h.ordered
  refine (List.perm_ext_iff_of_nodup (o.nodup_descendants _) List.nodup_range).2 fun i => ?_
  rw [o.mem_descendants, List.mem_range]
  refine ⟨fun hw => ?_, h.within_root⟩
  exact (o.within_le hw).trans_lt h.root_lt

/-- A walk with a stack finds what lies below the root, and ends. -/
theorem popping_root {n : Nat} (hn : t.size ≤ n) :
    t.popping n [] [t.root] = (t.descendants t.root, []) := by
  have hlength : (t.descendants t.root).length = t.size := by
    rw [h.descendants_root_perm.length_eq, ids, List.length_range]
  obtain ⟨m, rfl⟩ := Nat.exists_eq_add_of_le hn
  rw [← hlength, h.ordered.popping_descendants, popping_nil, List.nil_append]

end Accepted

/-- All of a tree hangs together below its root. -/
structure Rooted (t : Tree) : Prop where
  parent_iff : ∀ p c, t.parent? c = some p ↔ c ∈ t.children p
  above_root : t.parent? t.root = none
  linked : ∀ i, (i :: t.ancestors i).IsChain fun c p => t.parent? c = some p
  rising : ∀ i, (i :: t.ancestors i).Pairwise (· < ·)
  ending : ∀ i < t.size, (i :: t.ancestors i).getLast? = some t.root
  /-- A node comes first, then what is below its children, from left to right. -/
  preorder : ∀ i, t.descendants i = i :: (t.children i).flatMap t.descendants
  once : (t.descendants t.root).Perm t.ids
  in_order : ∀ i < t.size, (i :: t.children i).Sublist (t.descendants t.root)
  /-- A walk with a stack finds the same, and leaves nothing on the stack. -/
  walked : ∀ n ≥ t.size, t.popping n [] [t.root] = (t.descendants t.root, [])

theorem Accepted.rooted (h : t.Accepted) : t.Rooted where
  parent_iff _ _ := h.ordered.parent_iff
  above_root := h.parent_root
  linked := isChain_ancestors t
  rising := h.ordered.pairwise_ancestors
  ending _ := h.getLast?_ancestors
  preorder := h.ordered.descendants_eq
  once := h.descendants_root_perm
  in_order i hi := (h.ordered.children_sublist_descendants i).trans
    (h.ordered.descendants_sublist (h.within_root hi))
  walked _ := h.popping_root

end Tree

/-- A draft is accepted exactly if it is like a tree. What is accepted has the nodes of the draft
and the new root, and all of it hangs together below the root. -/
theorem Draft.finish_accepts_trees (d : Draft) (body : NodeId) :
    ((∃ t, d.finish body = .ok t) ↔ Treelike (d.rooted body)) ∧
    ∀ t, d.finish body = .ok t → t.root = d.nodes.size ∧ t.size = d.nodes.size + 1 ∧
      (∀ i, t.node? i = (d.rooted body)[i]?.map ({ · with parent := t.parent? i })) ∧ t.Rooted := by
  refine ⟨⟨fun ⟨t, h⟩ => treelike_of_finish h, exists_finish_of_treelike⟩, fun t h => ?_⟩
  have hroot := finish_root_eq h
  have hsize := finish_root h
  rw [hroot] at hsize
  have accepted : t.Accepted := ⟨d, body, h⟩
  exact ⟨hroot, hsize, finish_node? h, accepted.rooted⟩

/-! A block whose second statement was made before the first, and a list that names an item twice.
-/

namespace Grown

def draft : Draft :=
  ⟨#[⟨.text "a", [], none, none⟩, ⟨.text "b", [], none, none⟩, ⟨.list, [0, 1], none, none⟩,
    ⟨.placeholder, [], none, none⟩, ⟨.block, [3, 2], none, none⟩]⟩

def tree : Tree := ((draft.finish 4).toOption).getD ⟨#[], 0⟩

def twice : Draft := ⟨#[⟨.text "a", [], none, none⟩, ⟨.list, [0, 0], none, none⟩]⟩

/-- What can be read off the two drafts. -/
@[mk_iff]
structure Checked : Prop where
  built : draft.finish 4 = .ok tree
  order : tree.descendants tree.root = [5, 4, 3, 2, 0, 1]
  size : tree.size = 6
  shared : ¬ Draft.Treelike (twice.rooted 1)

theorem checked : Checked := checked_iff.2 (by decide +kernel)

end Grown

open Grown in
/-- The block is accepted and walked through from its first statement on; the list is refused. -/
theorem Grown.block_walked :
    draft.finish 4 = .ok tree ∧ tree.Rooted ∧
      tree.popping 6 [] [tree.root] = ([5, 4, 3, 2, 0, 1], []) ∧ ¬ ∃ t, twice.finish 1 = .ok t := by
  have rooted : tree.Rooted := ((Draft.finish_accepts_trees draft 4).2 tree checked.built).2.2.2
  refine ⟨checked.built, rooted, ?_, ?_⟩
  · rw [rooted.walked 6 checked.size.le, checked.order]
  · rw [(Draft.finish_accepts_trees twice 1).1]
    exact checked.shared

end StreamLang
