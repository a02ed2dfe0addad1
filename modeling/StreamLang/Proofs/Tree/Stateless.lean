import StreamLang.Proofs.Meaning
import StreamLang.Proofs.Tree.Plain
/-!
Trees without functions and calls: every node is run where it stands. A node of such a tree is stateless
if its value follows from what streams show and from the names around the program alone. No state of
a reaction is needed for it, however far one follows, and it does not lie in the first part of a
reaction, which is never looked at again once the reaction has a state. In a plain tree all nodes are
stateless.
-/
namespace StreamLang
namespace Tree

/-- A tree as it is built, without functions and calls. -/
structure InPlace (t : Tree) : Prop where
  accepted : t.Accepted
  isFunction : ∀ i, t.isFunction i = false
  callFree : t.CallFree

/-- The node lies in the first part of a reaction. -/
def Spent (t : Tree) (i : NodeId) : Prop :=
  ∃ r first rest, t.kind? r = some .reaction ∧ t.children r = first :: rest ∧ t.Within first i

/-- The node itself is neither a reaction nor the state of one. A previous value outside of all
reactions is a failure like any other. -/
def Still (t : Tree) (i : NodeId) : Prop :=
  ∀ k, t.kind? i = some k → k.isPlain = true ∨ k = .previous ∧ t.enclosingReaction? i = none

/-- The value of the node depends on no state. -/
structure Stateless (t : Tree) (i : NodeId) : Prop where
  still : ∀ j, Relation.ReflTransGen t.Needs i j → t.Still j
  unspent : ¬ t.Spent i

/-- The nodes whose marks tell whether a committed value still holds: of a reaction its parts after
the first, of any other node itself. -/
def checked (t : Tree) (i : NodeId) : List NodeId :=
  if t.kindIs (· == .reaction) i then (t.children i).drop 1 else [i]

variable {t : Tree} {i j m b : NodeId} {n : Node}

theorem InPlace.ordered (inPlace : t.InPlace) : t.Ordered := inPlace.accepted.ordered

theorem Plain.inPlace (plain : t.Plain) : t.InPlace :=
  ⟨plain.accepted, plain.isFunction, plain.callFree⟩

theorem Plain.stateless (plain : t.Plain) (i : NodeId) : t.Stateless i where
  still j _ k hk := .inl (plain.kinds j k hk)
  unspent := by
    rintro ⟨r, first, rest, hk, -⟩
    exact plain.kind_ne rfl r hk

/-- What lies around a spent node is spent, up to the first part of the reaction. -/
theorem spent_of_child (o : t.Ordered) {p c : NodeId} (hc : c ∈ t.children p)
    (hp : t.kind? p ≠ some .reaction) (h : t.Spent c) : t.Spent p := by
  obtain ⟨r, first, rest, hk, hr, hw⟩ := h
  rcases hw.cases_tail with rfl | ⟨q, hq, hcq⟩
  · have hmem : first ∈ t.children r := by simp [hr]
    obtain rfl := o.parent_unique hmem hc
    exact absurd hk hp
  · obtain rfl := o.parent_unique hc hcq
    exact ⟨r, first, rest, hk, hr, hq⟩

theorem Spent.within (h : t.Spent i) (hw : t.Within i j) : t.Spent j := by
  obtain ⟨r, first, rest, hk, hr, hi⟩ := h
  exact ⟨r, first, rest, hk, hr, hi.trans hw⟩

theorem not_spent_top (o : t.Ordered) (h : t.parent? i = none) : ¬ t.Spent i := by
  rintro ⟨r, first, rest, -, hr, hw⟩
  obtain ⟨q, hq⟩ : ∃ q, i ∈ t.children q := by
    rcases hw.cases_tail with rfl | ⟨q, -, hq⟩
    · exact ⟨r, by simp [hr]⟩
    · exact ⟨q, hq⟩
  simp [o.parent_iff.2 hq] at h

theorem not_reaction_of_kind {k : NodeKind} (hk : t.kind? i = some k) (h : k ≠ .reaction) :
    t.kind? i ≠ some .reaction := fun hr => h (Option.some.inj (hk.symm.trans hr))

namespace Still

theorem kind_ne_reaction (h : t.Still i) : t.kind? i ≠ some .reaction := fun hk => by
  rcases h _ hk with h | ⟨h, -⟩ <;> cases h

theorem working (h : t.Still i) (hw : t.Working i n) :
    n.kind.isPlain = true ∨ n.kind = .previous ∧ t.enclosingReaction? i = none := h _ hw.kind

end Still

namespace Stateless

theorem self (h : t.Stateless i) : t.Still i := h.still i .refl

theorem not_reaction (h : t.Stateless i) : t.kindIs (· == .reaction) i = false := by
  unfold kindIs
  cases hk : t.kind? i with
  | none => rfl
  | some k =>
    have hne := h.self.kind_ne_reaction
    rw [hk] at hne
    simpa using hne

theorem checked_eq (h : t.Stateless i) : t.checked i = [i] := by simp [checked, h.not_reaction]

variable (inPlace : t.InPlace)
include inPlace

theorem child (h : t.Stateless i) (hm : m ∈ t.children i) : t.Stateless m where
  still j hj := h.still j (.head (.inl hm) hj)
  unspent hs := h.unspent (spent_of_child inPlace.ordered hm h.self.kind_ne_reaction hs)

theorem within (h : t.Stateless i) (hw : t.Within i j) : t.Stateless j := by
  induction hw with
  | refl => exact h
  | tail _ hc ih => exact ih.child inPlace hc

/-- A bind that a name stands for is no more spent than the node with the name. -/
theorem bind (h : t.Stateless i) (hr : t.resolution? i = some (.bind b)) : t.Stateless b where
  still j hj := h.still j (.head (.inr hr) hj)
  unspent hs := by
    have o := inPlace.ordered
    obtain ⟨p, c, hp, hci⟩ := o.exists_precedes inPlace.isFunction hr
    have hblock : t.kind? p ≠ some .reaction := not_reaction_of_kind hp.block (by simp)
    obtain ⟨r, first, rest, hk, hfirst, hw⟩ := spent_of_child o hp.mem_children hblock hs
    exact h.unspent ⟨r, first, rest, hk, hfirst, (hw.trans (.child hp.later)).trans hci⟩

theorem of_decides {V : NodeId → Value} (h : t.Stateless i) (hd : t.Decides V i m) : t.Stateless m := by
  obtain ⟨n, hw, -, hm, -⟩ := hd
  exact h.child inPlace (hw.children ▸ hm)

end Stateless

/-- A node outside of first parts that lies in a reaction lies in one of its other parts. -/
theorem exists_checked (hs : ¬ t.Spent i) (hw : t.Within m i)
    (hne : m = i → t.kind? i ≠ some .reaction) :
    ∃ c ∈ t.checked m, t.Within c i ∧ (c = m ∨ c ∈ t.children m) := by
  unfold checked
  split
  · rename_i hk
    have hk : t.kind? m = some .reaction := by
      unfold kindIs at hk
      cases h : t.kind? m <;> simp_all
    rcases hw.cases_head with rfl | ⟨c, hc, hci⟩
    · exact absurd hk (hne rfl)
    refine ⟨c, ?_, hci, .inr hc⟩
    cases hch : t.children m with
    | nil => simp [hch] at hc
    | cons first rest =>
      rw [hch] at hc
      rcases List.mem_cons.1 hc with rfl | hc
      · exact absurd ⟨m, c, rest, hk, hch, hci⟩ hs
      · exact hc
  · exact ⟨m, List.mem_singleton.2 rfl, hw, .inl rfl⟩

end Tree

namespace Setting

variable {s : Setting} {t : Tree} (hs : s.program = .ofTree t)
include hs

theorem holds_eq (r : Record) (i : NodeId) : s.holds r i = (t.checked i).all (s.unaffected r) := by
  have ht : s.program.tree = t := by rw [hs]; rfl
  unfold holds Tree.checked
  rw [ht]
  split <;> simp

/-- Whether nothing affects a node, in terms of its mark and of the binds that it depends on. -/
theorem unaffected_iff {r : Record} {i : NodeId} : s.unaffected r i = true ↔
    s.staleness.mark? i = none ∨ s.staleness.mark? i = some .maybeDirty ∧
      ∀ b ∈ (Analysis.ofTree t).dependencies i, s.bindChanged r b = false := by
  have hd : s.program.analysis = Analysis.ofTree t := by rw [hs]; rfl
  unfold unaffected
  rw [hd]
  rcases s.staleness.mark? i with _ | _ | _ <;> simp

end Setting
end StreamLang
