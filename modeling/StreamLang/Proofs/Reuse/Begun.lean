import StreamLang.Proofs.Reuse.Records
/-!
What a pass may conclude when it comes to a node. What it takes to be unchanged is unchanged, so a
committed value that stands in for an evaluation is the value of its node. A reaction that it does not
find unchanged is not calm, provided that the binds which its parts in doubt depend on have kept their
committed values.
-/
namespace StreamLang

/-- A pass that has begun in a world, after another world that was seen last. -/
structure Begun {t : Tree} (f : t.Focus) (left : NodeId → Prop) (w w' : World)
    (V V' : NodeId → Value) (s : Setting) : Prop where
  program : s.program = .ofTree t
  kept : Kept f left V s.cache s.staleness
  renewed : Renewed f left s.cache s.staleness w w' V V'
  snapshot : w'.snapshot = s.snapshot
  policy : w'.policy = s.policy

/-- What reactions are owed when a pass begins. Binds that a part in doubt depends on have committed
values, which are equal to themselves, and nothing has changed about a reaction that has no state yet. -/
structure Tree.Focus.Mindful {t : Tree} (f : t.Focus) (s : Setting) : Prop where
  retains : ∀ r n c b, f.Reacts r n → s.cache.has r = true → c ∈ t.checked r →
    s.staleness.mark? c = some .maybeDirty → b ∈ (Analysis.ofTree t).dependencies c →
    ∃ u, s.cache.value? b = some u ∧ u.equal u = true
  unhurried : ∀ r n c, f.Reacts r n → s.cache.has r = false → c ∈ t.checked r →
    s.staleness.mark? c = none

namespace Begun

variable {t : Tree} {f : t.Focus} {left : NodeId → Prop} {w w' : World} {V V' : NodeId → Value}
  {s : Setting} {i : NodeId} {v : Value} (b : Begun f left w w' V V' s)
include b

theorem tree_eq : s.program.tree = t := by
  rw [b.program]
  rfl

/-- What a pass takes to be unchanged is unchanged, if what it has recorded of it is true. -/
theorem committed_of_not_changed {r : Record} {d : NodeId} (hs : f.steady d)
    (told : r.bindsChanged[d]? = some false → s.cache.value? d = some (V' d))
    (hd : s.bindChanged r d = false) : s.cache.value? d = some (V' d) ∧
      (r.bindsChanged[d]? = some false ∨ Settled left s r d) := by
  unfold Setting.bindChanged at hd
  split at hd
  · rename_i changed hc
    subst hd
    exact ⟨told hc, .inl hc⟩
  · simp only [Bool.or_eq_false_iff, Bool.not_eq_false', Staleness.isClean,
      Option.isNone_iff_eq_none] at hd
    obtain ⟨hm, hr⟩ := hd
    obtain ⟨u, hu⟩ := Option.ne_none_iff_exists'.1 (Option.isNone_eq_false_iff.1 hr |>
      Option.isSome_iff_ne_none.1)
    have hu := Cache.value?_of_reusable? hu
    have hl := b.kept.not_left_of_value? hs hu (by simp [hm])
    rw [b.kept.value_eq hs hu hl] at hu
    rw [b.kept.eq_of_unmarked b.renewed d hs hl hm] at hu
    exact ⟨hu, .inr (.inr ⟨hl, .inl hm⟩)⟩

theorem value_of_not_changed {r : Record} (h : Sound f left V' s r) {d : NodeId} (hs : f.steady d)
    (hd : s.bindChanged r d = false) : Settled left s r d ∧ s.cache.value? d = some (V' d) := by
  obtain ⟨hv, hb | hset⟩ := b.committed_of_not_changed hs (fun hb => (h.binds d hs hb).2) hd
  · exact h.binds d hs hb
  · exact ⟨hset, hv⟩

theorem upheld_of_unaffected {r : Record} (h : Sound f left V' s r) {c : NodeId}
    (hc : s.unaffected r c = true) : Upheld f left V' s r c :=
  ((Setting.unaffected_iff b.program).1 hc).imp id fun ⟨hm, hd⟩ =>
    ⟨hm, fun d hmem hs => b.value_of_not_changed h hs (hd d hmem)⟩

/-- What is checked before a committed value stands in for an evaluation upholds it. -/
theorem upheld_of_reuse {r : Record} (h : Sound f left V' s r) (hr : s.reuse? r i = some v)
    (c : NodeId) (hc : c ∈ t.checked i) : Upheld f left V' s r c := by
  have hholds := (Setting.holds_of_reuse? hr).1
  rw [Setting.holds_eq b.program, List.all_eq_true] at hholds
  exact b.upheld_of_unaffected h (hholds c hc)

/-- What upholds a node upholds all that is steady in it. -/
theorem eq_of_upheld {r : Record} {c : NodeId} (hc : Upheld f left V' s r c)
    (hm : s.staleness.mark? c ≠ none) (hw : t.Within c i) (hi : f.steady i) (hl : ¬ left i) :
    V i = V' i := by
  obtain ⟨hmark, hd⟩ := hc.resolve_left hm
  exact b.kept.eq_of_maybeDirty b.renewed hmark
    (fun d hd' hs hdl => (b.kept.value_eq hs (hd d hd' hs).2 hdl).symm) i hw hi hl

/-- A reaction whose parts are all upheld keeps its state. -/
theorem eq_of_upheld_parts {r : Record} {n : Node} (hi : f.Reacts i n) (hl : ¬ left i)
    (hc : ∀ c ∈ t.checked i, Upheld f left V' s r c) : V i = V' i := by
  refine b.kept.eq_of_parts b.renewed hi hl fun c hmem => .inl ((hc c hmem).imp id ?_)
  rintro ⟨hm, hd⟩
  refine ⟨hm, fun d hdep => ?_⟩
  have hs := hi.posted.depends c hmem d hdep
  have hdl : ¬ left d := fun hdl => hl (b.kept.depend i n c d hi hmem hdep hdl)
  exact (b.kept.value_eq hs (hd d hdep hs).2 hdl).symm

/-- The committed value of a node that nothing affects is its value, if what is recorded of the binds
that it depends on is true. -/
theorem eq_of_unaffected {r : Record} (hs : f.steady i) (hc : s.cache.value? i = some v)
    (hu : s.unaffected r i = true)
    (told : ∀ d ∈ (Analysis.ofTree t).dependencies i, f.steady d →
      r.bindsChanged[d]? = some false → s.cache.value? d = some (V' d)) : v = V' i ∧ ¬ left i := by
  rcases (Setting.unaffected_iff b.program).1 hu with hm | ⟨hm, hd⟩
  · have hl := b.kept.not_left_of_value? hs hc (by simp [hm])
    exact ⟨(b.kept.value_eq hs hc hl).trans (b.kept.eq_of_unmarked b.renewed i hs hl hm), hl⟩
  · have hl := b.kept.not_left_of_value? hs hc (by simp [hm])
    have same (d : NodeId) (hmem : d ∈ (Analysis.ofTree t).dependencies i) (hds : f.steady d)
        (hdl : ¬ left d) : V d = V' d :=
      (b.kept.value_eq hds (b.committed_of_not_changed hds (told d hmem hds) (hd d hmem)).1 hdl).symm
    exact ⟨(b.kept.value_eq hs hc hl).trans
      (b.kept.eq_of_maybeDirty b.renewed hm same i (.refl i) hs hl), hl⟩

theorem unaffected_of_reuse {r : Record} (hk : t.kind? i ≠ some .reaction)
    (hr : s.reuse? r i = some v) : s.unaffected r i = true := by
  have hholds := (Setting.holds_of_reuse? hr).1
  rw [Setting.holds_eq b.program, Tree.checked_of_ne hk] at hholds
  simpa using hholds

/-- A committed value that stands in for an evaluation is the value of its node. -/
theorem value_of_reuse {r : Record} (h : Sound f left V' s r) (hs : f.steady i)
    (hr : s.reuse? r i = some v) : v = V' i ∧ ¬ left i ∧ s.cache.value? i = some (V' i) := by
  have hc := Setting.value?_of_reuse? hr
  obtain ⟨hv, hl⟩ : v = V' i ∧ ¬ left i := by
    by_cases hk : t.kind? i = some .reaction
    · have hi := f.known_of_steady i hs
      obtain ⟨e, he, -⟩ := Option.map_eq_some_iff.1 hc
      have hl : ¬ left i := (b.kept.stands i hi hk).1 (by simp [Cache.has, he])
      refine ⟨(b.kept.value_eq hs hc hl).trans ?_, hl⟩
      by_cases hreacts : ∃ n, f.Reacts i n
      · obtain ⟨n, hreacts⟩ := hreacts
        exact b.eq_of_upheld_parts hreacts hl fun c hmem => b.upheld_of_reuse h hr c hmem
      · exact b.renewed.eq_of_not_reacts hi hk fun n hn => hreacts ⟨n, hn⟩
    · exact b.eq_of_unaffected hs hc (b.unaffected_of_reuse hk hr) fun d _ hds hb => (h.binds d hds hb).2
  exact ⟨hv, hl, hv ▸ hc⟩

/-- A reaction with a state is run only if it is not calm: a bind that is said to have changed differs
from what was committed for it. -/
theorem not_calm_of_run {r : Record} (h : Sound f left V' s r) (m : f.Mindful s) {n : Node}
    (hi : f.Reacts i n) (hl : ¬ left i)
    (found : ∀ p d e, t.Precedes p d e → t.Within e i → f.known d → Found t left V' s r d)
    (hr : s.reuse? r i = none) : ¬ t.Calm s.staleness V V' i := by
  intro calm
  have hhas : s.cache.has i = true := (b.kept.stands i hi.known hi.kind?).2 hl
  obtain ⟨e, he⟩ := Option.isSome_iff_exists.1 hhas
  have unaffected (c : NodeId) (hc : c ∈ t.checked i) : s.unaffected r c = true := by
    refine (Setting.unaffected_iff b.program).2 ((calm c hc).imp id ?_)
    rintro ⟨hm, same⟩
    refine ⟨hm, fun d hd => ?_⟩
    obtain ⟨p, e', hp, he', hbind⟩ := hi.exists_precedes hc hd
    have hs := hi.posted.depends c hc d hd
    obtain ⟨changed, hnoted⟩ := Option.ne_none_iff_exists'.1
      ((found p d e' hp he' (f.known_of_steady d hs)).noted hbind)
    obtain ⟨u, hu, hself⟩ := m.retains i n c d hi hhas hc hm hd
    have hdl : ¬ left d := fun hdl => hl (b.kept.depend i n c d hi hc hd hdl)
    have hud : u = V' d := (b.kept.value_eq hs hu hdl).trans (same d hd)
    unfold Setting.bindChanged
    rw [hnoted]
    cases changed with
    | false => rfl
    | true =>
      have := h.told d u hs hnoted hu
      rw [← hud, hself] at this
      cases this
  have hholds : s.holds r i = true := by
    rw [Setting.holds_eq b.program, List.all_eq_true]
    exact unaffected
  have hvolatile : s.program.analysis.isVolatile i = false := by
    rw [b.program]
    exact hi.not_volatile
  have hreusable : s.cache.reusable? i = some e.value := by
    have := (b.kept.flags i e he).1
    rw [hi.not_volatile] at this
    unfold Cache.reusable?
    rw [he]
    simp [this]
  unfold Setting.reuse? at hr
  simp [hvolatile, hholds, hreusable] at hr

end Begun
end StreamLang
