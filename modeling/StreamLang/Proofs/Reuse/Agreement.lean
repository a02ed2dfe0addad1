import StreamLang.Proofs.Reuse.Between
import StreamLang.Proofs.Staleness.Memory
/-!
Two reactors over one tree that have not kept the same values. What they must have in common for all
reactions that are followed to go on alike are the states, the marks of the parts that are checked, and the
nodes to be told that their stream has changed no more. The mark of one part may differ, that of the last
part of an idle reaction. Then the next pass has the same values in both (`Agrees.eq_of_renewed`), and after
it they have as much in common again (`Rounded.agrees`).
-/
namespace StreamLang

open Mark (level)
open Staleness (Walked)

namespace Staleness

variable {t : Tree} {left left' : NodeId → Prop} {s s' : Staleness} {i : NodeId}

/-- The same changes leave the same mark where there was the same mark before. -/
theorem mark?_markAllChanged_congr (o : t.Ordered) (w : Walked t left s) (w' : Walked t left' s')
    (h : s'.mark? i = s.mark? i) (readers : List NodeId) :
    (s'.markAllChanged (.ofTree t) readers).mark? i = (s.markAllChanged (.ofTree t) readers).mark? i := by
  induction readers generalizing s s' with
  | nil => exact h
  | cons j rest ih =>
    refine ih (walked_markChanged o w j).1 (walked_markChanged o w' j).1 ?_
    rw [mark?_markChanged o w, mark?_markChanged o w', h]

end Staleness

namespace Reactor

/-- What two reactors have in common if all followed reactions go on alike. -/
structure Agrees {t : Tree} (f : t.Focus) (left left' : NodeId → Prop) (V : NodeId → Value)
    (a b : Reactor) : Prop where
  states : ∀ r n, f.Reacts r n → b.cache.value? r = a.cache.value? r
  marks : ∀ r n m, f.Reacts r n → a.cache.has r = true → m ∈ t.checked r →
    b.staleness.mark? m = a.staleness.mark? m ∨ Tree.Idle left V r n m ∨ Tree.Idle left' V r n m
  edges : ∀ i, i ∈ b.edgeTriggered ↔ i ∈ a.edgeTriggered

/-- What a reactor looks like after a pass has come round to the root: it has come to all reactions, has
left no marks on their parts, and has noted all nodes that were told of a change on its way. -/
structure Rounded {t : Tree} (f : t.Focus) (left : NodeId → Prop) (V : NodeId → Value)
    (states : NodeId → Option Value) (seen : Snapshot) (r : Reactor) : Prop where
  reached : ∀ i n, f.Reacts i n → t.Live i → ¬ left i
  parts : ∀ i n m, f.Reacts i n → ¬ left i → m ∈ t.checked i →
    r.staleness.mark? m = none ∨ Tree.Idle left V i n m
  edges : ∀ j, j ∈ r.edgeTriggered ↔
    Relation.ReflTransGen (t.Draws states V) t.root j ∧ t.Signals seen j

/-- The same but for streams and what waits. -/
structure Unmoved (r r' : Reactor) : Prop where
  cache : r'.cache = r.cache
  staleness : r'.staleness = r.staleness
  edges : r'.edgeTriggered = r.edgeTriggered

theorem Unmoved.refl (r : Reactor) : r.Unmoved r := ⟨rfl, rfl, rfl⟩

theorem Unmoved.trans {r r' r'' : Reactor} (h : r.Unmoved r') (h' : r'.Unmoved r'') : r.Unmoved r'' :=
  ⟨h'.cache.trans h.cache, h'.staleness.trans h.staleness, h'.edges.trans h.edges⟩

variable {t : Tree} {f : t.Focus} {left left' : NodeId → Prop} {w w' : World} {V V' V'' : NodeId → Value}
  {a b a' b' r r' : Reactor}

theorem Rounded.unmoved {states : NodeId → Option Value} {seen : Snapshot}
    (h : Rounded f left V states seen r) (same : r.Unmoved r') : Rounded f left V states seen r' where
  reached := h.reached
  parts i n m hr hl hm := same.staleness ▸ h.parts i n m hr hl hm
  edges j := same.edges ▸ h.edges j

namespace Agrees

theorem of_empty (ha : a.cache = .empty) (hb : b.cache = .empty) (ea : a.edgeTriggered = [])
    (eb : b.edgeTriggered = []) : Agrees f left left' V a b where
  states _ _ _ := by rw [ha, hb]
  marks r _ _ _ hr := by simp [ha, Cache.has] at hr
  edges _ := by rw [ea, eb]

variable (h : Agrees f left left' V a b)
include h

theorem unmoved (sa : a.Unmoved a') (sb : b.Unmoved b') : Agrees f left left' V a' b' where
  states r n hr := by rw [sa.cache, sb.cache, h.states r n hr]
  marks r n m hr hh hm := by
    rw [sa.staleness, sb.staleness]
    exact h.marks r n m hr (sa.cache ▸ hh) hm
  edges i := by rw [sa.edges, sb.edges, h.edges]

/-- They still have all this in common after changes at the same readers. -/
theorem marked {l l' : NodeId → Prop} (wa : Walked t l a.staleness) (wb : Walked t l' b.staleness)
    {readers readers' : List NodeId} (same : ∀ i, i ∈ readers' ↔ i ∈ readers)
    (ca : a'.cache = a.cache) (cb : b'.cache = b.cache)
    (sa : a'.staleness = a.staleness.markAllChanged (.ofTree t) readers)
    (sb : b'.staleness = b.staleness.markAllChanged (.ofTree t) readers')
    (edges : ∀ i, i ∈ b'.edgeTriggered ↔ i ∈ a'.edgeTriggered) : Agrees f left left' V a' b' where
  states r n hr := by rw [ca, cb, h.states r n hr]
  marks r n m hr hh hm := by
    rw [sa, sb, Staleness.markAllChanged_congr f.ordered wb same]
    exact (h.marks r n m hr (ca ▸ hh) hm).imp_left fun hmark =>
      Staleness.mark?_markAllChanged_congr f.ordered wa wb hmark readers
  edges := edges

/-- In the next world both have the same values. -/
theorem eq_of_renewed (ka : Kept f left V a.cache a.staleness) (kb : Kept f left' V b.cache b.staleness)
    (na : Renewed f left a.cache a.staleness w w' V V')
    (nb : Renewed f left' b.cache b.staleness w w' V V'') (i : NodeId) : V'' i = V' i := by
  refine f.ordered.needs_induction f.isFunction (C := fun i => V'' i = V' i) (fun i ih => ?_) i
  by_cases hr : ∃ n, f.Reacts i n
  swap
  · have not_reacts (n : Node) (hn : f.Reacts i n) : False := hr ⟨n, hn⟩
    rw [na.after i not_reacts, nb.after i not_reacts]
    exact Tree.valueFrom_of_needs fun m hm => ih m (.single hm)
  obtain ⟨n, hr⟩ := hr
  rw [na.turns i n hr, nb.turns i n hr, hr.turn_near ih]
  have states := na.states i n hr
  by_cases hhas : a.cache.has i = true
  swap
  · have hnone : w'.states i = none := by
      rw [states]
      simpa [Cache.has, Cache.value?] using hhas
    rw [Tree.turn_of_none hnone, Tree.turn_of_none hnone]
  have hl : ¬ left i := (ka.stands i hr.known hr.kind?).1 hhas
  rw [ka.state_eq hr hl] at states
  have near {d : NodeId} (hd : d ∈ t.children i) : V'' d = V' d := ih d (.single (.inl hd))
  have dependency {d : NodeId} (hd : d ∈ t.checked i) (b : NodeId)
      (hb : b ∈ (Analysis.ofTree t).dependencies d) : V'' b = V' b :=
    ih b (hr.transGen_of_dependency hd hb)
  by_cases hmarks : ∀ m ∈ t.checked i, b.staleness.mark? m = a.staleness.mark? m
  · have calm : t.Calm b.staleness V V' i ↔ t.Calm a.staleness V V' i :=
      forall₂_congr fun m hm => ⟨fun hq => hq.congr (hmarks m hm).symm fun _ _ => rfl,
        fun hq => hq.congr (hmarks m hm) fun _ _ => rfl⟩
    by_cases hc : t.Calm a.staleness V V' i
    · rw [Tree.turn_of_calm states hc, Tree.turn_of_calm states (calm.2 hc)]
    · rw [Tree.turn_of_not_calm states hc, Tree.turn_of_not_calm states (mt calm.1 hc)]
  -- a part with different marks is the last one of an idle reaction, and its condition decides
  simp only [not_forall, exists_prop] at hmarks
  obtain ⟨m, hm, hne⟩ := hmarks
  have other (x d : NodeId) (hn : n.children = [x, d, m]) : d ∈ t.checked i ∧ d ∈ t.children i ∧
      f.steady d ∧ b.staleness.mark? d = a.staleness.mark? d := by
    have hchildren : t.children i = [x, d, m] := hr.working.children.trans hn
    have hd : d ∈ t.checked i := by simp [hr.checked_eq, hn]
    refine ⟨hd, by simp [hchildren], hr.posted.condition x d m hchildren, ?_⟩
    refine (h.marks i n d hr hhas hd).resolve_right fun hidle => ?_
    have last {x' d' : NodeId} (hn' : n.children = [x', d', d]) : m = d := by
      have := hn.symm.trans hn'
      simp only [List.cons.injEq] at this
      exact this.2.2.1
    have hdm : m = d := by
      rcases hidle with ⟨x', d', hn', -⟩ | ⟨x', d', hn', -⟩ <;> exact last hn'
    have hnodup := f.ordered.nodup i
    simp [hchildren, hdm] at hnodup
  rcases (h.marks i n m hr hhas hm).resolve_left hne with hidle | hidle
  · refine hr.turn_of_idle_congr states hidle (fun x d hn => (other x d hn).2.2.2) fun x d hn hq => ?_
    obtain ⟨-, -, hs, -⟩ := other x d hn
    obtain ⟨x', d', hn', hl, -⟩ := hidle
    obtain ⟨-, rfl, -⟩ : x' = x ∧ d' = d ∧ True := by simpa [hn'] using hn
    exact ka.eq_of_quiet na hs hl hq
  · refine hr.turn_of_idle_congr states hidle (fun x d hn => (other x d hn).2.2.2) fun x d hn hq => ?_
    obtain ⟨hd, hchild, hs, hmark⟩ := other x d hn
    obtain ⟨x', d', hn', hl, -⟩ := hidle
    obtain ⟨-, rfl, -⟩ : x' = x ∧ d' = d ∧ True := by simpa [hn'] using hn
    exact (kb.eq_of_quiet nb hs hl (hq.congr hmark (dependency hd))).trans (near hchild)

end Agrees

/-- After a pass with the same values in both they have as much in common again. -/
theorem Rounded.agrees {states states' : NodeId → Option Value} {seen : Snapshot}
    (all : ∀ i, f.known i) (same : ∀ i n, f.Reacts i n → states' i = states i)
    (ka : Kept f left V a.cache a.staleness) (kb : Kept f left' V b.cache b.staleness)
    (ra : Rounded f left V states seen a) (rb : Rounded f left' V states' seen b) :
    Agrees f left left' V a b := by
  have draws : t.Draws states' V = t.Draws states V := by
    funext i m
    refine propext (or_congr .rfl (exists_congr fun n => and_congr_right fun hw =>
      and_congr_right fun hk => ?_))
    rw [same i n ⟨all i, hw, hk⟩]
  refine ⟨fun r n hr => ?_, fun r n m hr hhas hm => ?_, fun j => ?_⟩
  · by_cases hlive : t.Live r
    · rw [ka.state_eq hr (ra.reached r n hr hlive), kb.state_eq hr (rb.reached r n hr hlive)]
    · have none {l : NodeId → Prop} {x : Reactor} (k : Kept f l V x.cache x.staleness) :
          x.cache.value? r = none := by
        by_contra hne
        obtain ⟨v, hv⟩ := Option.ne_none_iff_exists'.1 hne
        obtain ⟨e, he, -⟩ := Option.map_eq_some_iff.1 hv
        exact hlive (k.live r e he)
      rw [none ka, none kb]
  · obtain ⟨e, he⟩ := Option.isSome_iff_exists.1 hhas
    have hlive := ka.live r e he
    rcases ra.parts r n m hr (ra.reached r n hr hlive) hm with hma | hidle
    · rcases rb.parts r n m hr (rb.reached r n hr hlive) hm with hmb | hidle
      · exact .inl (hmb.trans hma.symm)
      · exact .inr (.inr hidle)
    · exact .inr (.inl hidle)
  · rw [ra.edges, rb.edges, draws]

end Reactor

namespace Begun

open Reactor (Cleans)

variable {t : Tree} {f : t.Focus} {left : NodeId → Prop} {w w' : World} {V V' : NodeId → Value}
  {s : Setting} {done : Record} {rest : Staleness} {c j : NodeId}

theorem within_of_draws {states : NodeId → Option Value} (all : ∀ i, f.known i)
    (h : Relation.ReflTransGen (t.Draws states V) c j) : t.Within c j := by
  refine Relation.ReflTransGen.mono (fun i m hd => ?_) _ _ h
  rcases hd with hd | ⟨n, hw, hk, hm⟩
  · exact hd.mem_children
  have hr : f.Reacts i n := ⟨all i, hw, hk⟩
  rw [hw.children]
  cases hs : states i with
  | none =>
    rcases hr.children_cases with ⟨a, d, hn⟩ | ⟨a, e, d, hn⟩ <;> simp [hs, hn] at hm ⊢ <;> simp [hm]
  | some v =>
    rcases hr.children_cases with ⟨a, d, hn⟩ | ⟨a, e, d, hn⟩
    · simp only [hs, hn] at hm ⊢
      simp [hm]
    · simp only [hs, hn] at hm ⊢
      rcases hm with rfl | ⟨-, rfl⟩ <;> simp

variable (b : Begun f left w w' V V' s) (h : Sound f left V' s done) (all : ∀ i, f.known i)
include b h all

/-- What a node draws on that was told of a change is above no node that was found up to date: such a
node was run itself. -/
theorem wrote_of_signals (told : ¬ left c → s.staleness.walked[j]? = some .dirty)
    (hj : t.Signals s.snapshot j) (hc : Settled left s done c)
    (path : Relation.ReflTransGen (t.Draws s.cache.value? V') c j) : done.Wrote c := by
  rcases hc with hw | ⟨hl, hm⟩
  · exact hw
  exfalso
  have hdirty := told hl
  have marked {m : NodeId} (hmj : t.Within m j) : s.staleness.mark? m = some .dirty := by
    have hle := b.kept.walked.within_le hmj
    rw [hdirty] at hle
    refine Mark.eq_dirty_of_le (hle.trans (b.kept.walked.walked_le m)) 
  have hcj := within_of_draws all path
  rcases hm with hm | hm
  · rw [marked hcj] at hm
    cases hm
  have upheld {m : NodeId} (hmem : m ∈ t.checked c) (hmj : t.Within m j) : False := by
    rcases (h.cleaned c hm).2.2 m hmem with hm | ⟨hm, -⟩ <;> rw [marked hmj] at hm <;> cases hm
  by_cases hk : t.kind? c = some .reaction
  swap
  · refine upheld (m := c) ?_ hcj
    rw [Tree.checked_of_ne hk]
    exact List.mem_singleton.2 rfl
  rcases path.cases_head with rfl | ⟨m, hdraws, path⟩
  · obtain ⟨n, stream, e, hw, hkind, -⟩ := hj
    rw [hw.kind, hkind] at hk
    cases hk
  have hr := hdraws.resolve_left fun hd => hd.not_reaction hk
  obtain ⟨n, hw, hkind, -⟩ := id hr
  have hr : f.Reacts c n := ⟨all c, hw, hkind⟩
  refine upheld ?_ (within_of_draws all path)
  rw [hr.draws_iff, b.kept.state_eq hr hl] at hdraws
  rw [hr.checked_eq]
  rcases hr.children_cases with ⟨x, y, hn⟩ | ⟨x, y, z, hn⟩ <;> rw [hn] at hdraws ⊢ <;> simp_all
  tauto

/-- All nodes that were told of a change on the way from the root are noted. -/
theorem mem_edges (told : ∀ c, ¬ left c → s.staleness.walked[j]? = some .dirty)
    (hj : t.Signals s.snapshot j) (hc : Settled left s done c)
    (path : Relation.ReflTransGen (t.Draws s.cache.value? V') c j) : j ∈ done.edgeTriggered := by
  induction path using Relation.ReflTransGen.head_induction_on with
  | refl =>
    have hw := b.wrote_of_signals h all (told j) hj hc .refl
    obtain ⟨n, stream, e, hn, hk, he, hch⟩ := hj
    exact h.edge j n stream e hw hn hk he hch
  | head hd path ih =>
    exact ih (h.draws _ _ (all _) (b.wrote_of_signals h all (told _) hj hc (.head hd path)) hd)

/-- After a commit a reactor has come round. -/
theorem rounded (cl : Cleans t s.staleness done rest) (mindful : f.Mindful s)
    (root : Settled left s done t.root) (traced : t.Traced V' s [t.root] .empty done)
    (told : ∀ c j, ¬ left c → t.Signals s.snapshot j → s.staleness.walked[j]? = some .dirty)
    {r : Reactor} (hs : r.staleness = rest) (he : r.edgeTriggered = done.edgeTriggered) :
    r.Rounded f (LeftAfter left done rest) V' s.cache.value? s.snapshot where
  reached i n hr hl := b.not_leftAfter_of_root h cl root hr.known hr.kind? hl
  parts i n m hr hl hm := by
    rw [hs]
    exact b.parts_leftAfter h cl mindful hr hl hm
  edges j := by
    rw [he]
    constructor
    · intro hj
      rcases traced j hj with hj | ⟨c, hc, hd⟩
      · simp [Record.empty] at hj
      · exact List.mem_singleton.1 hc ▸ hd
    · rintro ⟨path, hj⟩
      exact b.mem_edges h all (fun c hl => told c j hl hj) hj root path

end Begun
end StreamLang
