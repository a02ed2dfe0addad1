import StreamLang.Cache
import StreamLang.Proofs.Reaction.Turns
import StreamLang.Proofs.Staleness.Cleaning
/-!
What is kept between passes, and what can be concluded from the marks. Some nodes are left behind:
no pass has looked at them since something about them changed, because they lie in a branch that was
not taken, and their marks alone are no guide. All other steady nodes have the values of the world
that was seen last. Of these, an unmarked one still has its value in a world that differs only at
readers that were walked from, and so has one in doubt if the binds that it depends on are the same.
-/
namespace StreamLang

open Mark (level)
open Staleness (Walked Connected)

/-- What holds of committed values and marks if `V` are the values of the world seen last. -/
structure Kept {t : Tree} (f : t.Focus) (left : NodeId → Prop) (V : NodeId → Value) (c : Cache)
    (s : Staleness) : Prop where
  value : ∀ i e, f.steady i → c.find? i = some e → ¬ left i → e.value = V i
  live : ∀ i e, c.find? i = some e → t.Live i
  flags : ∀ i e, c.find? i = some e → e.reusable = !(Analysis.ofTree t).isVolatile i ∧
    e.reaction = (t.kind? i == some .reaction)
  decides : ∀ i m, f.steady i → t.Decides V i m → left m → left i
  refer : ∀ r b, f.steady r → t.resolution? r = some (.bind b) → left b → left r
  depend : ∀ r n m b, f.Reacts r n → m ∈ t.checked r → b ∈ (Analysis.ofTree t).dependencies m →
    left b → left r
  dirty : ∀ i e, f.steady i → left i → c.find? i = some e → s.mark? i = some .dirty
  walked : Walked t left s
  /-- A reaction has a state once a pass has come to it. -/
  stands : ∀ r, f.known r → t.kind? r = some .reaction → (c.has r = true ↔ ¬ left r)
  /-- Every pass that commits comes to all reactions. -/
  ready : ∀ i r, c.has i = true → f.known r → t.kind? r = some .reaction → t.Live r → ¬ left r
  /-- The parts of a reaction with a state have only the marks of walks, unless it is idle. -/
  parts : ∀ r n m, f.Reacts r n → ¬ left r → m ∈ t.checked r →
    s.mark? m = s.walked[m]? ∨ Tree.Idle left V r n m

/-- Two worlds with their values. Where a reader sees something new, it was walked from. -/
structure Renewed {t : Tree} (f : t.Focus) (left : NodeId → Prop) (c : Cache) (s : Staleness)
    (w w' : World) (V V' : NodeId → Value) : Prop where
  before : ∀ i, (∀ n, ¬ f.Reacts i n) → V i = t.valueFrom w V i
  after : ∀ i, (∀ n, ¬ f.Reacts i n) → V' i = t.valueFrom w' V' i
  turns : ∀ r n, f.Reacts r n → V' r = t.turn s w' V V' r n
  states : ∀ r n, f.Reacts r n → w'.states r = c.value? r
  outer : w.outer = w'.outer
  reads : ∀ i n stream mode, ¬ left i → f.steady i → t.Working i n →
    Machine.reads? n.kind = some (stream, mode) →
    w.reading i stream mode ≠ w'.reading i stream mode → s.walked[i]? = some .dirty

namespace Staleness

variable {t : Tree} {left : NodeId → Prop} {s : Staleness}

theorem Walking.up_le (h : Walked t left s) {p c : NodeId} (hc : c ∈ t.children p) :
    level s.walked[c]? ≤ level s.walked[p]? := by
  rcases h.up p c hc with h | ⟨m, hm, -⟩
  · exact h
  · cases hm

theorem Walking.within_le (h : Walked t left s) {a i : NodeId} (hw : t.Within a i) :
    level s.walked[i]? ≤ level s.walked[a]? := by
  induction hw with
  | refl => exact Nat.le_refl _
  | tail _ hc ih => exact Nat.le_trans (h.up_le hc) ih

theorem Walking.refer_pos (h : Walked t left s) {r b : NodeId}
    (hr : t.resolution? r = some (.bind b)) (hb : 0 < level s.walked[b]?) :
    0 < level s.walked[r]? := by
  rcases h.refer r b hr hb with h | ⟨m, hm⟩
  · exact h
  · cases hm

theorem Walking.walked_of_marked (h : Walked t left s) {i : NodeId} (hl : ¬ left i)
    (hm : s.mark? i ≠ none) : 0 < level s.walked[i]? := by
  rw [h.sync i hl] at hm
  exact Nat.pos_of_ne_zero fun h0 => hm (Mark.level_eq_zero_iff.1 h0)

theorem Walking.unmarked (h : Walked t left s) {i : NodeId} (hm : s.mark? i = none) :
    level s.walked[i]? = 0 := by
  have := h.walked_le i
  rw [hm] at this
  exact Nat.le_zero.1 this

/-- A doubt has come in from a bind outside of the node. -/
theorem Walking.exists_dependency (o : t.Ordered) (hf : ∀ i, t.isFunction i = false)
    (h : Walked t left s) {p : NodeId} (hp : level s.walked[p]? = 1) :
    ∃ b ∈ (Analysis.ofTree t).dependencies p, 0 < level s.walked[b]? := by
  have key (i : NodeId) : t.Within p i → level s.walked[i]? = 1 →
      ∃ b ∈ (Analysis.ofTree t).dependencies p, 0 < level s.walked[b]? := by
    refine (o.needs_wellFounded hf).induction (C := fun i => t.Within p i →
      level s.walked[i]? = 1 → _) i fun i ih hw hi => ?_
    rcases h.reason i hi with ⟨c, hc, hpos⟩ | ⟨b, hb, hpos⟩
    · have hpc := hw.trans (Tree.Within.child hc)
      have hle := h.within_le hpc
      exact ih c (.inl hc) hpc (by omega)
    · by_cases hpb : t.Within p b
      · have hle := h.within_le hpb
        exact ih b (.inr hb) hpb (by omega)
      · exact ⟨b, (Analysis.mem_dependencies o).2 ⟨i, hw, hb, hpb⟩, hpos⟩
  exact key p (Tree.Within.refl p) hp

/-- Where no doubt can have come in, something has changed for certain. -/
theorem Walking.dirty_of_selfcontained (o : t.Ordered) (hf : ∀ i, t.isFunction i = false)
    (h : Walked t left s) {p : NodeId} (hd : (Analysis.ofTree t).dependencies p = [])
    (hp : 0 < level s.walked[p]?) : s.walked[p]? = some .dirty := by
  have hne : level s.walked[p]? ≠ 1 := fun h1 => by
    obtain ⟨b, hb, -⟩ := h.exists_dependency o hf h1
    simp [hd] at hb
  have := Mark.level_le s.walked[p]?
  exact Mark.level_eq_two_iff.1 (by omega)

end Staleness

/-- A reaction that does not work is the same failure in both worlds. -/
theorem Renewed.eq_of_not_reacts {t : Tree} {f : t.Focus} {left : NodeId → Prop} {c : Cache}
    {s : Staleness} {w w' : World} {V V' : NodeId → Value} (n : Renewed f left c s w w' V V')
    {i : NodeId} (hi : f.known i) (hk : t.kind? i = some .reaction) (hr : ∀ nd, ¬ f.Reacts i nd) :
    V i = V' i := by
  rw [n.before i hr, n.after i hr]
  have hnode : (t.node? i).isSome := Tree.lt_size_iff.1 (Tree.lt_size_of_kind hk)
  rcases Tree.fault_or_working hnode with ⟨kind, message, hfault⟩ | ⟨nd, hw⟩
  · rw [Tree.valueFrom_fault hfault, Tree.valueFrom_fault hfault]
  · exact absurd ⟨hi, hw, Option.some.inj (hw.kind.symm.trans hk)⟩ (hr nd)

namespace Kept

variable {t : Tree} {f : t.Focus} {left : NodeId → Prop} {w w' : World} {V V' : NodeId → Value}
  {c : Cache} {s : Staleness}

/-- Nothing in an empty cache can be out of date. -/
theorem empty (f : t.Focus) (V : NodeId → Value) : Kept f (fun _ => True) V .empty .empty where
  value := by simp
  live := by simp
  flags := by simp
  decides _ _ _ _ _ := trivial
  refer _ _ _ _ _ := trivial
  depend _ _ _ _ _ _ _ _ := trivial
  dirty := by simp
  walked := by refine ⟨?_, ?_, ?_, ?_, ?_, ?_⟩ <;> simp [Staleness.empty]
  stands := by simp [Cache.has]
  ready := by simp [Cache.has]
  parts _ _ _ _ hl := absurd trivial hl

variable (k : Kept f left V c s)
include k

theorem value_eq {i : NodeId} {v : Value} (hi : f.steady i) (h : c.value? i = some v)
    (hl : ¬ left i) : v = V i := by
  obtain ⟨e, he, rfl⟩ := Option.map_eq_some_iff.1 h
  exact k.value i e hi he hl

theorem not_left_of_value? {i : NodeId} {v : Value} (hi : f.steady i) (h : c.value? i = some v)
    (hm : s.mark? i ≠ some .dirty) : ¬ left i := by
  obtain ⟨e, he, -⟩ := Option.map_eq_some_iff.1 h
  exact fun hl => hm (k.dirty i e hi hl he)

/-- The state of a reaction is its value. -/
theorem state_eq {r : NodeId} {n : Node} (hr : f.Reacts r n) (hl : ¬ left r) :
    c.value? r = some (V r) := by
  obtain ⟨e, he⟩ := Option.isSome_iff_exists.1 ((k.stands r hr.known hr.kind?).2 hl)
  rw [Cache.value?, he, Option.map_some, k.value r e hr.steady he hl]

section Renewed

variable (n : Renewed f left c s w w' V V')
include n

/-- A steady node outside of what is left, and no reaction, has the value that it had if none of those
that decide it has another one and none of its readers saw something new. -/
theorem eq_of_decides {i : NodeId} (hi : f.steady i) (hk : ∀ m, ¬ f.Reacts i m) (hl : ¬ left i)
    (hw : level s.walked[i]? < 2)
    (hb : ∀ b, t.resolution? i = some (.bind b) → ¬ left b → V b = V' b)
    (hm : ∀ m, t.Decides V i m → ¬ left m → V m = V' m) : V i = V' i := by
  rw [n.before i hk, n.after i hk]
  refine Tree.valueFrom_congr (fun nd stream mode hn hr => ?_) (fun nd name hn hr => ?_)
    (fun nd r hn hp hr => ?_) fun m hd => hm m hd fun h => hl (k.decides i m hi hd h)
  · by_contra hne
    rw [n.reads i nd stream mode hl hi hn hr hne] at hw
    exact absurd hw (Nat.lt_irrefl 2)
  · unfold Tree.named
    cases hr' : t.resolve name i with
    | bind b =>
      have hres : t.resolution? i = some (.bind b) := by
        rw [Tree.resolution?_reference (hn.kind.trans (by rw [hr])), hr']
      exact congrArg some (hb b hres fun h => hl (k.refer i b hi hres h))
    | parameter => simp only [n.outer]
    | global => simp only [n.outer]
  · rcases f.still_of_working hi hn (by simp [hp]) with h | ⟨-, hnone⟩
    · simp [hp, NodeKind.isPlain] at h
    · rw [hnone] at hr
      cases hr

/-- A reaction keeps its state if nothing affects its parts, but for one that is idle and stays so. -/
theorem eq_of_parts {r : NodeId} {nd : Node} (hr : f.Reacts r nd) (hl : ¬ left r)
    (parts : ∀ m ∈ t.checked r, t.Quiet s V V' m ∨
      Tree.Idle left V r nd m ∧ ∀ a d, nd.children = [a, d, m] → V d = V' d) : V r = V' r := by
  have hstate : w'.states r = some (V r) := (n.states r nd hr).trans (k.state_eq hr hl)
  rw [n.turns r nd hr]
  by_cases hc : t.Calm s V V' r
  · exact (Tree.turn_of_calm hstate hc).symm
  · obtain ⟨m, hm, hne⟩ : ∃ m ∈ t.checked r, ¬ t.Quiet s V V' m := by
      simpa only [Tree.Calm, not_forall, exists_prop] using hc
    obtain ⟨hidle, same⟩ := (parts m hm).resolve_left hne
    exact (Tree.turn_of_idle hstate hidle same).symm

/-- An unmarked node has the value that it had. -/
theorem eq_of_unmarked (i : NodeId) : f.steady i → ¬ left i → s.mark? i = none → V i = V' i := by
  refine f.ordered.needs_induction f.isFunction (C := fun i =>
    f.steady i → ¬ left i → s.mark? i = none → V i = V' i) (fun i ih hi hl hm => ?_) i
  have h0 := k.walked.unmarked hm
  have unmarked {m : NodeId} (hml : ¬ left m) (h : level s.walked[m]? ≤ 0) : s.mark? m = none := by
    rw [k.walked.sync m hml]
    exact Mark.level_eq_zero_iff.1 (Nat.le_zero.1 h)
  by_cases hr : ∃ nd, f.Reacts i nd
  · obtain ⟨nd, hr⟩ := hr
    refine k.eq_of_parts n hr hl fun m hmem => ?_
    have hmi := hr.mem_children_of_checked hmem
    rcases k.parts i nd m hr hl hmem with hsync | hidle
    · exact .inl (.inl (hsync.trans
        (Mark.level_eq_zero_iff.1 (Nat.le_zero.1 (h0 ▸ k.walked.up_le hmi)))))
    · refine .inr ⟨hidle, hr.same_of_idle hidle fun d hd hds hdl => ?_⟩
      exact ih d (.single (.inl hd)) hds hdl (unmarked hdl (h0 ▸ k.walked.up_le hd))
  refine k.eq_of_decides n hi (fun nd hnd => hr ⟨nd, hnd⟩) hl (by omega) (fun b hb hbl => ?_)
    fun m hd hml => ?_
  · refine ih b (.single (.inr hb)) (f.bind i b hi hb) hbl (unmarked hbl ?_)
    by_contra hpos
    have := k.walked.refer_pos hb (Nat.lt_of_not_le hpos)
    omega
  · exact ih m (.single (.inl hd.mem_children)) (f.of_decides hi hd) hml
      (unmarked hml (h0 ▸ k.walked.up_le hd.mem_children))

/-- If a node is only in doubt and the binds that it depends on have the values that they had, so
has everything in it. -/
theorem eq_of_maybeDirty {m : NodeId} (hm : s.mark? m = some .maybeDirty)
    (hd : ∀ b ∈ (Analysis.ofTree t).dependencies m, f.steady b → ¬ left b → V b = V' b)
    (i : NodeId) : t.Within m i → f.steady i → ¬ left i → V i = V' i := by
  refine f.ordered.needs_induction f.isFunction (C := fun i =>
    t.Within m i → f.steady i → ¬ left i → V i = V' i) (fun i ih hw hi hl => ?_) i
  have h1 : level s.walked[m]? ≤ 1 := by simpa [hm] using k.walked.walked_le m
  have outside {b : NodeId} (hbi : Relation.TransGen t.Needs i b) (hbs : f.steady b) (hbl : ¬ left b)
      (hdep : ¬ t.Within m b → b ∈ (Analysis.ofTree t).dependencies m) : V b = V' b := by
    by_cases hin : t.Within m b
    · exact ih b hbi hin hbs hbl
    · exact hd b (hdep hin) hbs hbl
  by_cases hr : ∃ nd, f.Reacts i nd
  · obtain ⟨nd, hr⟩ := hr
    refine k.eq_of_parts n hr hl fun c hmem => ?_
    have hci := hr.mem_children_of_checked hmem
    rcases k.parts i nd c hr hl hmem with hsync | hidle
    · left
      have hle := k.walked.within_le (hw.trans (Tree.Within.child hci))
      rw [← hsync] at hle
      have hle : level (s.mark? c) ≤ 1 := hle.trans h1
      rcases hc : s.mark? c with _ | _ | _
      · exact .inl hc
      · refine .inr ⟨hc, fun b hb => ?_⟩
        refine outside (hr.transGen_of_dependency hmem hb) (hr.posted.depends c hmem b hb)
          (fun hbl => hl (k.depend i nd c b hr hmem hb hbl)) fun hin => ?_
        obtain ⟨j, hj, hres, -⟩ := (Analysis.mem_dependencies f.ordered).1 hb
        exact (Analysis.mem_dependencies f.ordered).2
          ⟨j, (hw.trans (Tree.Within.child hci)).trans hj, hres, hin⟩
      · rw [hc] at hle
        simp at hle
    · exact .inr ⟨hidle, hr.same_of_idle hidle fun d hd hds hdl =>
        ih d (.single (.inl hd)) (hw.trans (Tree.Within.child hd)) hds hdl⟩
  refine k.eq_of_decides n hi (fun nd hnd => hr ⟨nd, hnd⟩) hl ?_ (fun b hb hbl => ?_) fun c hc hcl => ?_
  · have := k.walked.within_le hw
    omega
  · exact outside (.single (.inr hb)) (f.bind i b hi hb) hbl fun hin =>
      (Analysis.mem_dependencies f.ordered).2 ⟨i, hw, hb, hin⟩
  · exact ih c (.single (.inl hc.mem_children)) (hw.trans (Tree.Within.child hc.mem_children))
      (f.of_decides hi hc) hcl

/-- What is quiet has the value that it had. -/
theorem eq_of_quiet {d : NodeId} (hd : f.steady d) (hl : ¬ left d) (h : t.Quiet s V V' d) : V d = V' d := by
  rcases h with hm | ⟨hm, hb⟩
  · exact k.eq_of_unmarked n d hd hl hm
  · exact k.eq_of_maybeDirty n hm (fun b hdep _ _ => hb b hdep) d (.refl d) hd hl

end Renewed
end Kept

/-- In a plain tree in which no conditional depends on anything outside, cleaning a node in doubt
takes marks only from nodes that are not left behind. -/
theorem Kept.not_left_of_connected {t : Tree} {left : NodeId → Prop} {V : NodeId → Value} {c : Cache}
    {s : Staleness} (plain : t.Plain) (k : Kept (.stateless plain.inPlace) left V c s)
    (hs : t.Selfcontained) {m x : NodeId}
    (hm : s.mark? m = some .maybeDirty) (hl : ¬ left m) (h : Connected t s.marks m x)
    (hx : t.Live x) : ¬ left x := by
  have o := plain.ordered
  induction h with
  | refl => exact hl
  | tail hp hc ih =>
    rename_i p x
    obtain ⟨hc, -⟩ := hc
    obtain ⟨nd, hw⟩ := hx p (Tree.Within.child hc) (Nat.ne_of_gt (o.child_lt hc))
    have hpl := ih fun q hq hne => hx q (hq.trans (Tree.Within.child hc)) fun h => by
      subst h
      exact o.not_within_parent hc hq
    intro hxl
    have hreaction : nd.kind ≠ .reaction := fun hk => plain.kind_ne rfl p (hw.kind.trans (by rw [hk]))
    refine hpl (k.decides p x (plain.stateless p) ⟨nd, hw, hreaction, hw.children ▸ hc, fun hk => ?_⟩ hxl)
    -- the conditional would be dirty, and so would be what is around it
    have hpos : 0 < level s.walked[p]? := by
      refine k.walked.walked_of_marked hpl ?_
      rcases Relation.ReflTransGen.cases_tail hp with rfl | ⟨q, -, -, hmark⟩
      · simp [hm]
      · exact hmark
    have hdirty := k.walked.dirty_of_selfcontained o plain.isFunction
      (hs p (hw.kind.trans (by rw [hk]))) hpos
    have hle := k.walked.within_le (Connected.within hp)
    have h1 := k.walked.walked_le m
    rw [hdirty] at hle
    rw [hm] at h1
    have := Nat.le_trans hle h1
    simp at this

end StreamLang
