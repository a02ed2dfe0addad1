import Mathlib.Data.List.Induction
import Mathlib.Data.List.TakeDrop
import Mathlib.Data.List.TakeWhile
import StreamLang.Proofs.Tree.Order
/-!
Where a name leads. Outside of functions a name refers to an earlier statement of a block around it,
so following references and going down to parts never returns to the same node. What a node depends
on, what refers to a bind and which nodes read a stream are read off the analysis in these terms.
-/
namespace StreamLang
namespace Tree

variable {t : Tree}

/-- What a name means at a place in the tree. -/
def resolve (t : Tree) (name : String) (i : NodeId) : Resolution :=
  t.resolveAlong name i false (t.ancestors i)

/-- The statements of a block before one of them. -/
def before (t : Tree) (block statement : NodeId) : List NodeId :=
  (t.children block).takeWhile (· != statement)

/-- Of two statements of a block, the first comes earlier. -/
structure Precedes (t : Tree) (p b c : NodeId) : Prop where
  block : t.kind? p = some .block
  earlier : b ∈ t.before p c
  later : c ∈ t.children p

theorem Precedes.mem_children {p b c : NodeId} (h : t.Precedes p b c) : b ∈ t.children p :=
  (List.takeWhile_sublist _).subset h.earlier

theorem Precedes.ne {p b c : NodeId} (h : t.Precedes p b c) : b ≠ c := by
  have := List.mem_takeWhile_imp h.earlier
  simpa using this

theorem isBindOf_iff {name : String} {b : NodeId} :
    t.isBindOf name b = true ↔ t.kind? b = some (.bind name) := by simp [isBindOf]

theorem resolution?_reference {i : NodeId} {name : String}
    (h : t.kind? i = some (.reference name)) : t.resolution? i = some (t.resolve name i) := by
  simp [resolution?, h, resolve]

theorem resolution?_eq_some {i : NodeId} {r : Resolution} (h : t.resolution? i = some r) :
    ∃ name, t.kind? i = some (.reference name) ∧ t.resolve name i = r := by
  unfold resolution? at h
  split at h
  · rename_i name hk
    exact ⟨name, hk, by simpa [resolve] using h⟩
  · cases h

theorem resolve_top {name : String} {i : NodeId} (h : t.parent? i = none) :
    t.resolve name i = .global := by simp [resolve, ancestors_root h, resolveAlong]

namespace Ordered

variable (o : t.Ordered)
include o

/-- A name means in a statement of a block what the last bind before it says. -/
theorem resolve_statement (name : String) {p c : NodeId} (hc : c ∈ t.children p)
    (hp : t.kind? p = some .block) :
    t.resolve name c = match (t.before p c).reverse.find? (t.isBindOf name) with
      | some b => .bind b
      | none => t.resolve name p := by
  rw [resolve, o.ancestors_child hc, resolveAlong, hp]
  simp only [List.span_eq_takeWhile_dropWhile, before, resolve]
  cases (List.takeWhile (· != c) (t.children p)).reverse.find? (t.isBindOf name) <;> simp

/-- No other node outside of functions changes what a name means. -/
theorem resolve_part {name : String} {p c : NodeId} (hc : c ∈ t.children p)
    (hb : t.kind? p ≠ some .block) (hf : t.isFunction p = false) :
    t.resolve name c = t.resolve name p := by
  rw [resolve, o.ancestors_child hc, resolveAlong]
  split
  · exact absurd ‹_› hb
  · rename_i h
    simp [isFunction, h] at hf
  · rfl

/-- A name that refers to a bind refers to a statement beside one that holds the name, an earlier
one unless there is a function in between. -/
theorem exists_precedes_of_resolveAlong {name : String} {i b : NodeId} {inFunction : Bool}
    (h : t.resolveAlong name i inFunction (t.ancestors i) = .bind b) :
    ∃ p c, b ∈ t.children p ∧ c ∈ t.children p ∧ t.Within c i ∧ t.kind? p = some .block ∧
      t.kind? b = some (.bind name) ∧
      (t.Precedes p b c ∨ inFunction = true ∨ ∃ f ∈ t.ancestors i, t.isFunction f = true) := by
  generalize ha : t.ancestors i = above at h
  induction above generalizing i inFunction with
  | nil => simp [resolveAlong] at h
  | cons p above ih =>
    cases hp : t.parent? i with
    | none => simp [ancestors_root hp] at ha
    | some q =>
      have hi : i ∈ t.children q := o.parent_iff.1 hp
      rw [o.ancestors_child hi] at ha
      obtain ⟨rfl, rfl⟩ := List.cons.inj ha
      have onwards {inF : Bool}
          (h : t.resolveAlong name q inF (t.ancestors q) = .bind b)
          (hf : inF = true → inFunction = true ∨ t.isFunction q = true) :
          ∃ p c, b ∈ t.children p ∧ c ∈ t.children p ∧ t.Within c i ∧ t.kind? p = some .block ∧
            t.kind? b = some (.bind name) ∧
            (t.Precedes p b c ∨ inFunction = true ∨
              ∃ f ∈ q :: t.ancestors q, t.isFunction f = true) := by
        obtain ⟨p, c, hb, hc, hw, hk, hn, hor⟩ := ih rfl h
        refine ⟨p, c, hb, hc, hw.trans (Within.child hi), hk, hn, ?_⟩
        rcases hor with hor | hor | ⟨f, hf, hfun⟩
        · exact .inl hor
        · rcases hf hor with hf | hf
          · exact .inr (.inl hf)
          · exact .inr (.inr ⟨q, List.mem_cons_self, hf⟩)
        · exact .inr (.inr ⟨f, List.mem_cons_of_mem _ hf, hfun⟩)
      rw [resolveAlong] at h
      split at h
      · rename_i hk
        simp only [List.span_eq_takeWhile_dropWhile] at h
        split at h
        · rename_i b' hfind
          cases h
          have hm : b ∈ t.before q i := List.mem_reverse.1 (List.mem_of_find?_eq_some hfind)
          exact ⟨q, i, (List.takeWhile_sublist _).subset hm, hi, Within.refl i, hk,
            isBindOf_iff.1 (List.find?_some hfind), .inl ⟨hk, hm, hi⟩⟩
        · split at h
          · rename_i b' hfind
            cases h
            cases inFunction with
            | false => simp at hfind
            | true =>
              simp only [if_true] at hfind
              exact ⟨q, i, (List.dropWhile_sublist _).subset (List.mem_of_find?_eq_some hfind), hi,
                Within.refl i, hk, isBindOf_iff.1 (List.find?_some hfind), .inr (.inl rfl)⟩
          · exact onwards h fun hf => .inl hf
      · rename_i parameters hk
        split at h
        · cases h
        · exact onwards h fun _ => .inr (by simp [isFunction, hk])
      · exact onwards h fun hf => .inl hf

theorem exists_sibling_of_resolution {r b : NodeId} (h : t.resolution? r = some (.bind b)) :
    ∃ p c name, b ∈ t.children p ∧ c ∈ t.children p ∧ t.Within c r ∧ t.kind? p = some .block ∧
      t.kind? b = some (.bind name) := by
  obtain ⟨name, -, h⟩ := resolution?_eq_some h
  obtain ⟨p, c, hb, hc, hw, hp, hk, -⟩ := o.exists_precedes_of_resolveAlong h
  exact ⟨p, c, name, hb, hc, hw, hp, hk⟩

/-- A reference never lies around the bind that it refers to. -/
theorem not_within_of_resolution {r b : NodeId} (h : t.resolution? r = some (.bind b)) :
    ¬ t.Within r b := by
  intro hw
  obtain ⟨name, hr, h'⟩ := resolution?_eq_some h
  obtain ⟨p, c, name', hb, hc, hcr, -, hk⟩ := o.exists_sibling_of_resolution h
  obtain rfl := o.sibling_eq hc hb (hcr.trans hw) (Within.refl b)
  obtain rfl := o.within_antisymm hw hcr
  simp [hr] at hk

/-- Outside of functions a reference refers to an earlier statement of a block around it. -/
theorem exists_precedes {r b : NodeId} (hf : ∀ i, t.isFunction i = false)
    (h : t.resolution? r = some (.bind b)) :
    ∃ p c, t.Precedes p b c ∧ t.Within c r := by
  obtain ⟨name, -, h⟩ := resolution?_eq_some h
  obtain ⟨p, c, -, -, hw, -, -, hor⟩ := o.exists_precedes_of_resolveAlong h
  rcases hor with hor | hor | ⟨f, -, hor⟩
  · exact ⟨p, c, hor, hw⟩
  · cases hor
  · simp [hf f] at hor

theorem before_eq {p c : NodeId} {pre post : List NodeId}
    (h : t.children p = pre ++ c :: post) : t.before p c = pre := by
  have hn := o.nodup p
  rw [h] at hn
  have hc : c ∉ pre := by
    intro hm
    exact (List.nodup_append.1 hn).2.2 c hm c List.mem_cons_self rfl
  rw [before, h, List.takeWhile_append_of_pos]
  · simp
  · intro a ha
    simpa using fun h : a = c => hc (h ▸ ha)

/-- A reference within a node refers to something inside of the node or to something before the
statement that holds the node. -/
theorem precedes_cases {p b c d r : NodeId} (h : t.Precedes p b c) (hc : t.Within c r)
    (hd : t.Within d r) : t.Within d p ∨ t.Within c d := by
  rcases o.within_total hc hd with hcd | hdc
  · exact .inr hcd
  · rcases hdc.cases_tail with rfl | ⟨q, hq, hcq⟩
    · exact .inr (Within.refl _)
    · obtain rfl := o.parent_unique h.later hcq
      exact .inl hq

end Ordered

/-- The value of a node may follow from that of another. -/
def Needs (t : Tree) (i m : NodeId) : Prop :=
  m ∈ t.children i ∨ t.resolution? i = some (.bind m)

namespace Ordered

variable (o : t.Ordered)
include o

/-- If all that a node refers to outside of itself can be reached only finitely far, so can all that
the node needs: its statements one after another, each needing only earlier ones. -/
theorem acc_needs_of_outside (hf : ∀ i, t.isFunction i = false) (i : NodeId)
    (outside : ∀ r b, t.Within i r → t.resolution? r = some (.bind b) → ¬ t.Within i b →
      Acc (fun m i => t.Needs i m) b) : Acc (fun m i => t.Needs i m) i := by
  induction i using Nat.strong_induction_on with
  | _ i ih =>
    have children (pre : List NodeId) : ∀ post, t.children i = pre ++ post →
        ∀ c ∈ pre, Acc (fun m i => t.Needs i m) c := by
      induction pre using List.reverseRecOn with
      | nil => simp
      | append_singleton pre c ihPre =>
        intro post hpre d hd
        have hpre' : t.children i = pre ++ c :: post := by simpa using hpre
        have earlier := ihPre (c :: post) hpre'
        rcases List.mem_append.1 hd with hd | hd
        · exact earlier d hd
        · obtain rfl := List.mem_singleton.1 hd
          have hc : d ∈ t.children i := by simp [hpre']
          refine ih d (o.child_lt hc) fun r b hr hrb hn => ?_
          by_cases hib : t.Within i b
          · obtain ⟨p, c', hp, hcr⟩ := o.exists_precedes hf hrb
            rcases o.precedes_cases hp hcr hr with hdp | hcd
            · exact absurd (hdp.trans (Within.child hp.mem_children)) hn
            · rcases hcd.cases_tail with rfl | ⟨q, hq, hdq⟩
              · obtain rfl := o.parent_unique hp.later hc
                refine earlier b ?_
                rw [← o.before_eq hpre']
                exact hp.earlier
              · obtain rfl := o.parent_unique hc hdq
                exact absurd (o.sibling_eq hp.mem_children hp.later (Within.refl b) (hq.trans hib))
                  hp.ne
          · exact outside r b ((Within.child hc).trans hr) hrb hib
    refine Acc.intro i fun m hm => ?_
    rcases hm with hm | hm
    · exact children (t.children i) [] (by simp) m hm
    · exact outside i m (Within.refl i) hm (o.not_within_of_resolution hm)

theorem exists_top (i : NodeId) : ∃ a, t.parent? a = none ∧ t.Within a i := by
  have key (n : Nat) : ∀ i : Nat, t.size ≤ i + n → ∃ a, t.parent? a = none ∧ t.Within a i := by
    induction n with
    | zero =>
      intro i hi
      refine ⟨i, ?_, Within.refl i⟩
      cases hp : t.parent? i with
      | none => rfl
      | some p =>
        have hc := o.parent_iff.1 hp
        have := lt_size_of_mem_children hc
        have := o.child_lt hc
        omega
    | succ n ih =>
      intro i hi
      cases hp : t.parent? i with
      | none => exact ⟨i, hp, Within.refl i⟩
      | some p =>
        have hc := o.parent_iff.1 hp
        have := o.child_lt hc
        obtain ⟨a, ha, hw⟩ := ih p (by omega)
        exact ⟨a, ha, hw.trans (Within.child hc)⟩
  exact key t.size i (Nat.le_add_left _ _)

/-- Outside of functions no node needs itself, however far one follows. -/
theorem needs_wellFounded (hf : ∀ i, t.isFunction i = false) :
    WellFounded fun m i => t.Needs i m := by
  refine ⟨fun i => ?_⟩
  obtain ⟨a, ha, hw⟩ := o.exists_top i
  have top : Acc (fun m i => t.Needs i m) a := by
    refine o.acc_needs_of_outside hf a fun r b hr hrb hn => ?_
    obtain ⟨p, c, hp, hcr⟩ := o.exists_precedes hf hrb
    have noParent {q : NodeId} (hq : a ∈ t.children q) : False := by
      have := o.parent_iff.2 hq
      simp [ha] at this
    rcases o.precedes_cases hp hcr hr with hap | hca
    · exact absurd (hap.trans (Within.child hp.mem_children)) hn
    · rcases hca.cases_tail with rfl | ⟨q, -, haq⟩
      · exact (noParent hp.later).elim
      · exact (noParent haq).elim
  induction hw with
  | refl => exact top
  | tail _ hc ih => exact ih.inv (.inl hc)

/-- What holds of a node if it holds of all that the node needs, however far one follows, holds of all
nodes. -/
theorem needs_induction (hf : ∀ i, t.isFunction i = false) {C : NodeId → Prop}
    (step : ∀ i, (∀ m, Relation.TransGen t.Needs i m → C m) → C i) (i : NodeId) : C i :=
  (o.needs_wellFounded hf).transGen.induction i fun i ih =>
    step i fun m hm => ih m (Relation.transGen_swap.2 hm)

end Ordered
end Tree
end StreamLang
