import StreamLang.Proofs.Reuse.Commit
import StreamLang.Proofs.Reuse.Pass
import StreamLang.Proofs.Tree.Acceptance
/-!
A commit makes the world of the pass the one that was seen last. Left behind is from then on what
still has a mark, and what was left before and not written now. A reaction that is followed is never
left behind by a commit, and its parts have no marks, but for one that its condition keeps from running.
-/
namespace StreamLang

open Mark (level)
open Staleness (Walked Connected)

/-- What a commit leaves behind: what it leaves marked, and what was left before and not written. -/
def LeftAfter (left : NodeId → Prop) (done : Record) (rest : Staleness) (i : NodeId) : Prop :=
  rest.mark? i ≠ none ∨ left i ∧ ¬ done.Wrote i

/-- A node that lost its mark without being written, together with all around it up to a node `c`
that upheld what is in it. -/
structure Swept {t : Tree} (f : t.Focus) (left : NodeId → Prop) (V : NodeId → Value) (s : Setting)
    (done : Record) (rest : Staleness) (c i : NodeId) : Prop where
  upheld : Upheld f left V s done c
  marked : s.staleness.mark? c ≠ none
  connected : Connected t s.staleness.marks c i
  cleaned : rest.mark? c = none
  between : ∀ a, t.Within c a → t.Within a i → ∀ d ∈ t.children a, rest.mark? d = none

/-- Why a node that was not written is up to date: it had no mark, or was swept, or it is a reaction that
was found up to date itself. -/
inductive Spared {t : Tree} (f : t.Focus) (left : NodeId → Prop) (V : NodeId → Value) (s : Setting)
    (done : Record) (rest : Staleness) (i : NodeId) : Prop where
  | unmarked (h : s.staleness.mark? i = none)
  | swept (c : NodeId) (h : Swept f left V s done rest c i)
  | reaction (kind : t.kind? i = some .reaction) (h : i ∈ done.cleaned)

namespace Begun

open Reactor (Cleans)

variable {t : Tree} {f : t.Focus} {left : NodeId → Prop} {w w' : World} {V V' : NodeId → Value}
  {s : Setting} {done : Record} {rest : Staleness} {i d r m : NodeId} {n : Node}
  (b : Begun f left w w' V V' s) (h : Sound f left V' s done) (c : Cleans t s.staleness done rest)
include b h c

omit b h in
theorem not_leftAfter_of_settled (hi : Settled left s done i) : ¬ LeftAfter left done rest i := by
  rcases hi with hw | ⟨hl, hm | hm⟩
  · rintro (hn | ⟨-, hn⟩)
    · exact hn (c.wrote i hw)
    · exact hn hw
  · rintro (hn | ⟨hn, -⟩)
    · exact hn (c.unmarked i hm)
    · exact hl hn
  · rintro (hn | ⟨hn, -⟩)
    · exact hn (c.cleaned i hm).1
    · exact hl hn

omit b in
theorem spared (hi : f.steady i) (hn : rest.mark? i = none) (hw : ¬ done.Wrote i) :
    Spared f left V' s done rest i := by
  have o := f.ordered
  by_cases hm : s.staleness.mark? i = none
  · exact .unmarked hm
  obtain ⟨m, hmem, hconnected, hbetween⟩ := c.swept i hn hm hw
  obtain ⟨hmark, -, hup⟩ := h.cleaned m hmem
  by_cases hself : m = i ∧ t.kind? i = some .reaction
  · exact .reaction hself.2 (hself.1 ▸ hmem)
  obtain ⟨d, hd, hdi, hmd⟩ := Tree.exists_checked (f.unspent i hi) (Connected.within hconnected)
    fun hmi hk => hself ⟨hmi, hk⟩
  have hwithin : t.Within m d := by
    rcases hmd with rfl | hmd
    · exact .refl d
    · exact .child hmd
  obtain ⟨hmd', hdi'⟩ := Connected.split o hconnected hwithin hdi
  refine .swept d ⟨hup d hd, ?_, hdi', ?_, fun a hda hai => hbetween a (hwithin.trans hda) hai⟩
  · rcases Relation.ReflTransGen.cases_tail hmd' with rfl | ⟨q, -, -, hq⟩
    · exact hmark
    · exact hq
  · rcases hmd with rfl | hmd
    · exact (c.cleaned d hmem).1
    · exact hbetween m (.refl m) (Connected.within hconnected) d hmd

/-- Where a commit leaves nothing behind and writes nothing, nothing has changed. -/
theorem cases_of_not_leftAfter (hs : f.steady i) (hi : ¬ LeftAfter left done rest i)
    (hw : ¬ done.Wrote i) : ¬ left i ∧ V i = V' i ∧ Spared f left V' s done rest i := by
  have hl : ¬ left i := fun hl => hi (.inr ⟨hl, hw⟩)
  have hn : rest.mark? i = none := by
    by_contra hn
    exact hi (.inl hn)
  have spared := spared h c hs hn hw
  refine ⟨hl, ?_, spared⟩
  cases spared with
  | unmarked hm => exact b.kept.eq_of_unmarked b.renewed i hs hl hm
  | swept d hd => exact b.eq_of_upheld hd.upheld hd.marked (Connected.within hd.connected) hs hl
  | reaction hk hmem =>
    by_cases hr : ∃ n, f.Reacts i n
    · obtain ⟨n, hr⟩ := hr
      exact b.eq_of_upheld_parts hr hl (h.cleaned i hmem).2.2
    · exact b.renewed.eq_of_not_reacts (f.known_of_steady i hs) hk fun n hn => hr ⟨n, hn⟩

theorem decides_leftAfter {p : NodeId} (hs : f.steady p) (hd : t.Decides V' p d)
    (hl : LeftAfter left done rest d) : LeftAfter left done rest p := by
  by_contra hp
  by_cases hw : done.Wrote p
  · exact not_leftAfter_of_settled c (h.draws p d (f.known_of_steady p hs) hw (.inl hd)) hl
  obtain ⟨hpl, -, spared⟩ := b.cases_of_not_leftAfter h c hs hp hw
  have hchild := hd.mem_children
  have settle (same : ∀ a, (∀ U, t.Decides U p a) → V a = V' a) (hn : rest.mark? d = none) :
      False := by
    rcases hl with hl | ⟨hl, -⟩
    · exact hl hn
    · exact hpl (b.kept.decides p d hs (hd.congr same) hl)
  cases spared with
  | unmarked hm =>
    have h0 := b.kept.walked.unmarked hm
    have unmarked {a : NodeId} (hal : ¬ left a) (ha : a ∈ t.children p) :
        s.staleness.mark? a = none := by
      rw [b.kept.walked.sync a hal]
      exact Mark.level_eq_zero_iff.1 (Nat.le_zero.1 (h0 ▸ b.kept.walked.up_le ha))
    have same (a : NodeId) (ha : ∀ U, t.Decides U p a) : V a = V' a := by
      have hal : ¬ left a := fun hal => hpl (b.kept.decides p a hs (ha V) hal)
      exact b.kept.eq_of_unmarked b.renewed a (f.of_decides hs (ha V)) hal
        (unmarked hal (ha V).mem_children)
    have hdl : ¬ left d := fun hdl => hpl (b.kept.decides p d hs (hd.congr same) hdl)
    exact settle same (c.unmarked d (unmarked hdl hchild))
  | swept m hm =>
    have hmp := Connected.within hm.connected
    refine settle (fun a ha => ?_) (hm.between p hmp (.refl p) d hchild)
    have hal : ¬ left a := fun hal => hpl (b.kept.decides p a hs (ha V) hal)
    exact b.eq_of_upheld hm.upheld hm.marked (hmp.trans (.child (ha V).mem_children))
      (f.of_decides hs (ha V)) hal
  | reaction hk => exact hd.not_reaction hk

/-- What a checked part of a node depends on is not left behind but with the node. -/
theorem dependency_leftAfter (hs : f.steady i) (hm : m ∈ t.checked i)
    (hd : d ∈ (Analysis.ofTree t).dependencies m) (hds : f.steady d) {p e : NodeId}
    (hp : t.Precedes p d e) (he : t.Within e i) (lift : left d → left i)
    (hl : LeftAfter left done rest d) : LeftAfter left done rest i := by
  have o := f.ordered
  by_contra hn
  by_cases hw : done.Wrote i
  · exact not_leftAfter_of_settled c
      (h.before i p d e hw hp he (f.known_of_steady d hds)).settled hl
  obtain ⟨hil, -, spared⟩ := b.cases_of_not_leftAfter h c hs hn hw
  have hdl : ¬ left d := fun hdl => hil (lift hdl)
  have hmark : rest.mark? d ≠ none := hl.resolve_right fun hl => hdl hl.1
  obtain ⟨j, hmj, hr, -⟩ := (Analysis.mem_dependencies o).1 hd
  have unmarked (hm : level s.staleness.walked[m]? = 0) : s.staleness.mark? d = none := by
    rw [b.kept.walked.sync d hdl]
    by_contra hne
    have hpos := b.kept.walked.refer_pos hr (Nat.pos_of_ne_zero fun h0 => hne (Mark.level_eq_zero_iff.1 h0))
    have hle := b.kept.walked.within_le hmj
    omega
  have him : t.Within i m := by
    unfold Tree.checked at hm
    split at hm
    · exact .child (List.mem_of_mem_drop hm)
    · rw [List.mem_singleton.1 hm]
      exact .refl i
  cases spared with
  | unmarked hi =>
    refine hmark (c.unmarked d (unmarked ?_))
    have hle := b.kept.walked.within_le him
    rw [b.kept.walked.unmarked hi] at hle
    exact Nat.le_zero.1 hle
  | swept a ha =>
    have hai := Connected.within ha.connected
    by_cases hin : t.Within a d
    · -- the block of the bind lies between the cleaned node and the reference
      rcases hin.cases_tail with rfl | ⟨q, hq, hdq⟩
      · exact hmark ha.cleaned
      · obtain rfl := o.parent_unique hp.mem_children hdq
        exact hmark (ha.between p hq ((Tree.Within.child hp.later).trans he) d hdq)
    · have hdep := (Analysis.mem_dependencies o).2 ⟨j, hai.trans (him.trans hmj), hr, hin⟩
      obtain ⟨-, hup⟩ := ha.upheld.resolve_left ha.marked
      exact not_leftAfter_of_settled c (hup d hdep hds).1 hl
  | reaction hk hmem =>
    rcases (h.cleaned i hmem).2.2 m hm with hm | ⟨-, hup⟩
    · exact hmark (c.unmarked d (unmarked (b.kept.walked.unmarked hm)))
    · exact not_leftAfter_of_settled c (hup d hd hds).1 hl

theorem refer_leftAfter (hs : f.steady r) (hr : t.resolution? r = some (.bind d))
    (hl : LeftAfter left done rest d) : LeftAfter left done rest r := by
  have o := f.ordered
  obtain ⟨p, e, hp, her⟩ := o.exists_precedes f.isFunction hr
  obtain ⟨name, hk, -⟩ := Tree.resolution?_eq_some hr
  have hin : ¬ t.Within r d := fun hrd =>
    hp.ne (o.sibling_eq hp.mem_children hp.later (.refl d) (her.trans hrd))
  refine b.dependency_leftAfter h c hs (m := r) ?_
    ((Analysis.mem_dependencies o).2 ⟨r, .refl r, hr, hin⟩) (f.bind r d hs hr) hp her
    (b.kept.refer r d hs hr) hl
  rw [Tree.checked_of_ne (by simp [hk])]
  exact List.mem_singleton.2 rfl

theorem depend_leftAfter (hr : f.Reacts r n) (hm : m ∈ t.checked r)
    (hd : d ∈ (Analysis.ofTree t).dependencies m) (hl : LeftAfter left done rest d) :
    LeftAfter left done rest r := by
  obtain ⟨p, e, hp, he, -⟩ := hr.exists_precedes hm hd
  exact b.dependency_leftAfter h c hr.steady hm hd (hr.posted.depends m hm d hd) hp he
    (b.kept.depend r n m d hr hm hd) hl

/-- Of the nodes that were dealt with a pass has dealt with all reactions below that are followed. -/
theorem not_leftAfter_of_root (root : Settled left s done t.root) (hr : f.known r)
    (hk : t.kind? r = some .reaction) (live : t.Live r) : ¬ LeftAfter left done rest r := by
  have o := f.ordered
  have posted := (f.reaction r hr hk).2
  have down (p : NodeId) (hp : t.Within t.root p) (hpr : t.Within p r) :
      ¬ LeftAfter left done rest p := by
    induction hp with
    | refl => exact not_leftAfter_of_settled c root
    | tail hp hq ih =>
      rename_i q p
      have hqr := (Tree.Within.child hq).trans hpr
      have hne : q ≠ r := by
        rintro rfl
        exact o.not_within_parent hq hpr
      obtain ⟨hs, hreaction⟩ := posted.around q hqr hne
      obtain ⟨n, hw⟩ := live q hqr hne
      refine fun hl => ih hqr (b.decides_leftAfter h c hs ⟨n, hw, ?_, hw.children ▸ hq, ?_⟩ hl)
      · rintro hk
        exact hreaction (by rw [hw.kind, hk])
      · intro hcond x y z hn
        have hhead := posted.first q p hq hpr (by rw [hw.kind, hcond])
        rw [hw.children, hn] at hhead
        exact .inl (Option.some.inj hhead).symm
  exact down r (f.inPlace.accepted.within_root (Tree.lt_size_of_kind hk)) (.refl r)

omit b h in
/-- What a commit leaves unmarked has no mark of a walk either. -/
theorem unwalked_of_unmarked (k : Walked t left s.staleness) (hn : rest.mark? i = none) :
    rest.walked[i]? = none := by
  rcases c.walked with hw | ⟨hw, hm⟩
  · simp [hw]
  · rw [hw]
    rw [hm, Option.map_eq_none_iff] at hn
    exact Mark.level_eq_zero_iff.1 (k.unmarked hn)

omit h in
theorem walked_leftAfter : Walked t (LeftAfter left done rest) rest := by
  refine c.keeps_walked b.kept.walked fun i hi => ?_
  have hn : rest.mark? i = none := by
    by_contra hn
    exact hi (.inl hn)
  rw [hn, unwalked_of_unmarked c b.kept.walked hn]

/-- After a commit the parts of a reaction have no marks, unless the reaction is idle. -/
theorem parts_leftAfter (mindful : f.Mindful s) (hr : f.Reacts r n)
    (hl : ¬ LeftAfter left done rest r) (hm : m ∈ t.checked r) :
    rest.mark? m = none ∨ Tree.Idle (LeftAfter left done rest) V' r n m := by
  have states := b.renewed.states r n hr
  have unmarked {m : NodeId} (hm : ¬ LeftAfter left done rest m) : rest.mark? m = none := by
    by_contra hn
    exact hm (.inl hn)
  by_cases hw : done.Wrote r
  · by_cases hhas : s.cache.has r = true
    · obtain ⟨e, he⟩ := Option.isSome_iff_exists.1 hhas
      have hkept : s.cache.value? r = some e.value := by simp [Cache.value?, he]
      have settled (m : NodeId) (hd : t.Draws s.cache.value? V' r m) : ¬ LeftAfter left done rest m :=
        not_leftAfter_of_settled c (h.draws r m hr.known hw hd)
      rw [hr.checked_eq] at hm
      rcases hr.children_cases with ⟨x, y, hn⟩ | ⟨x, y, z, hn⟩
      · obtain rfl : m = y := by simpa [hn] using hm
        exact .inl (unmarked (settled m (by rw [hr.draws_iff, hkept, hn])))
      · have drawn : ¬ LeftAfter left done rest y :=
          settled y (by rw [hr.draws_iff, hkept, hn]; exact .inl rfl)
        have hm : m = y ∨ m = z := by simpa [hn] using hm
        rcases hm with rfl | rfl
        · exact .inl (unmarked drawn)
        · by_cases htrue : V' y = .boolean true
          · exact .inl (unmarked (settled m (by rw [hr.draws_iff, hkept, hn]; exact .inr ⟨htrue, rfl⟩)))
          · refine .inr ⟨x, y, hn, drawn, htrue, ?_⟩
            rw [h.ran r n e.value hr hw hkept]
            exact Tree.nextState_nextState hn htrue
    · exact .inl (c.unmarked m (mindful.unhurried r n m hr (by simpa using hhas) hm))
  obtain ⟨hrl, hv, spared⟩ := b.cases_of_not_leftAfter h c hr.steady hl hw
  have hmr := hr.mem_children_of_checked hm
  cases spared with
  | unmarked hi =>
    have h0 := b.kept.walked.unmarked hi
    have none {a : NodeId} (ha : a ∈ t.children r) (hsync : s.staleness.mark? a = s.staleness.walked[a]?) :
        s.staleness.mark? a = none := by
      rw [hsync]
      exact Mark.level_eq_zero_iff.1 (Nat.le_zero.1 (h0 ▸ b.kept.walked.up_le ha))
    refine (b.kept.parts r n m hr hrl hm).imp (fun hsync => c.unmarked m (none hmr hsync)) ?_
    rintro ⟨x, y, hn, hy, hne, hstate⟩
    have hchildren : t.children r = [x, y, m] := hr.working.children.trans hn
    have hyr : y ∈ t.children r := by simp [hchildren]
    have hymark := none hyr (b.kept.walked.sync y hy)
    have same : V y = V' y :=
      b.kept.eq_of_unmarked b.renewed y (hr.posted.condition x y m hchildren) hy hymark
    refine ⟨x, y, hn, not_leftAfter_of_settled c (.inr ⟨hy, .inl hymark⟩), same ▸ hne, ?_⟩
    rw [← hv, Tree.nextState_congr hn hne same.symm, hstate]
  | swept a ha => exact .inl (ha.between r (Connected.within ha.connected) (.refl r) m hmr)
  | reaction hk hmem => exact .inl ((c.cleaned r hmem).2 m hmr)

/-- A commit keeps what holds between passes, if it takes the mark off no node that is known to be
dirty but by writing it. -/
theorem kept_commit (mindful : f.Mindful s) (root : f.known t.root → Settled left s done t.root)
    (spares : ∀ i e, f.steady i → t.kind? i ≠ some .reaction → s.cache.find? i = some e →
      s.staleness.mark? i = some .dirty → rest.mark? i = none → done.Wrote i)
    {cache : Cache} (pass : Nat)
    (hcache : ∀ i e, cache.find? i = some e →
      (∃ w, (i, w) ∈ done.writes ∧ e = Reactor.entryOf pass w) ∨
        (¬ done.Wrote i ∧ s.cache.find? i = some e))
    (hstates : ∀ i, t.kind? i = some .reaction → done.Wrote i ∨ s.cache.has i = true →
      cache.has i = true) :
    Kept f (LeftAfter left done rest) V' cache rest := by
  have ready (r : NodeId) (hr : f.known r) (hk : t.kind? r = some .reaction) (live : t.Live r) :
      ¬ LeftAfter left done rest r := by
    refine b.not_leftAfter_of_root h c (root ?_) hr hk live
    by_cases hroot : t.root = r
    · exact hroot ▸ hr
    · have hw := f.inPlace.accepted.within_root (Tree.lt_size_of_kind hk)
      exact f.known_of_steady _ ((f.reaction r hr hk).2.around t.root hw hroot).1
  have live (i : NodeId) (e : CacheEntry) (he : cache.find? i = some e) : t.Live i := by
    rcases hcache i e he with ⟨w, hm, rfl⟩ | ⟨-, he⟩
    · exact h.live i w hm
    · exact b.kept.live i e he
  refine ⟨?_, live, ?_, fun p d hs => b.decides_leftAfter h c hs, fun r d hs => b.refer_leftAfter h c hs,
    fun r n m d hr => b.depend_leftAfter h c hr, ?_, b.walked_leftAfter c, ?_,
    fun i r _ hr hk hl => ready r hr hk hl, ?_⟩
  · intro i e hs he hi
    rcases hcache i e he with ⟨w, hm, rfl⟩ | ⟨hw, he⟩
    · exact h.write i w (f.known_of_steady i hs) hm
    · obtain ⟨hl, hv, -⟩ := b.cases_of_not_leftAfter h c hs hi hw
      exact (b.kept.value i e hs he hl).trans hv
  · intro i e he
    rcases hcache i e he with ⟨w, hm, rfl⟩ | ⟨-, he⟩
    · exact h.flags i w hm
    · exact b.kept.flags i e he
  · intro i e hs hi he
    have marked (hn : rest.mark? i ≠ none) : rest.mark? i = some .dirty := by
      obtain ⟨m, hm⟩ := Option.ne_none_iff_exists'.1 hn
      rw [hm, (c.dirty i m hm).1]
    rcases hi with hn | ⟨hl, hw⟩
    · exact marked hn
    · refine marked fun hn => ?_
      rcases hcache i e he with ⟨w, hm, rfl⟩ | ⟨-, he'⟩
      · exact hw (List.mem_map_of_mem hm)
      · by_cases hk : t.kind? i = some .reaction
        · exact (b.kept.stands i (f.known_of_steady i hs) hk).1 (by simp [Cache.has, he']) hl
        · exact hw (spares i e hs hk he' (b.kept.dirty i e hs hl he') hn)
  · intro r hr hk
    constructor
    · intro hhas
      obtain ⟨e, he⟩ := Option.isSome_iff_exists.1 hhas
      exact ready r hr hk (live r e he)
    · refine fun hl => hstates r hk ?_
      by_contra hn
      rw [not_or] at hn
      exact hl (.inr ⟨not_not.1 (mt (b.kept.stands r hr hk).2 hn.2), hn.1⟩)
  · intro r n m hr hl hm
    refine (b.parts_leftAfter h c mindful hr hl hm).imp_left fun hn => ?_
    rw [hn, unwalked_of_unmarked c b.kept.walked hn]

/-- A reader that was told of a change is either remembered or left behind. -/
theorem edgeTriggered_or_leftAfter {stream : String} {e : SnapshotEntry}
    (told : ¬ left i → t.Signals s.snapshot i → s.staleness.walked[i]? = some .dirty)
    (hi : ¬ LeftAfter left done rest i) (hs : f.steady i) (hw : t.Working i n)
    (hk : n.kind = .changed stream)
    (he : s.snapshot.get? stream = some e) (hch : e.changed = true) :
    i ∈ done.edgeTriggered := by
  by_cases hwrote : done.Wrote i
  · exact h.edge i n stream e hwrote hw hk he hch
  · exfalso
    obtain ⟨hl, -, spared⟩ := b.cases_of_not_leftAfter h c hs hi hwrote
    have hdirty := told hl ⟨n, stream, e, hw, hk, he, hch⟩
    cases spared with
    | unmarked hm =>
      have := b.kept.walked.unmarked hm
      rw [hdirty] at this
      cases this
    | swept m hm =>
      have hle := b.kept.walked.within_le (Connected.within hm.connected)
      have h1 := b.kept.walked.walked_le m
      rw [(hm.upheld.resolve_left hm.marked).1] at h1
      rw [hdirty] at hle
      have := Nat.le_trans hle h1
      simp at this
    | reaction hkind =>
      rw [hw.kind, hk] at hkind
      cases hkind

end Begun

/-- In a plain tree in which no conditional depends on anything outside, no commit takes the mark off
a dirty node but by writing it. -/
theorem Tree.Plain.spares {t : Tree} (plain : t.Plain) (hself : t.Selfcontained) {left : NodeId → Prop}
    {V V' : NodeId → Value} {s : Setting} {done : Record} {rest : Staleness}
    (k : Kept (.stateless plain.inPlace) left V s.cache s.staleness)
    (h : Sound (.stateless plain.inPlace) left V' s done)
    (c : Reactor.Cleans t s.staleness done rest) (i : NodeId)
    (e : CacheEntry) (he : s.cache.find? i = some e) (hi : s.staleness.mark? i = some .dirty)
    (hn : rest.mark? i = none) : done.Wrote i := by
  by_contra hw
  obtain ⟨m, hmem, hconnected, -⟩ := c.swept i hn (by simp [hi]) hw
  obtain ⟨hmark, hl, hup⟩ := h.cleaned m hmem
  have hs := plain.stateless m
  obtain ⟨hmaybe, -⟩ := (hup m (by simp [hs.checked_eq])).resolve_left hmark
  have hil : ¬ left i := k.not_left_of_connected plain hself hmaybe (hl hs) hconnected (k.live i e he)
  have hle := k.walked.within_le (Connected.within hconnected)
  have h1 := k.walked.walked_le m
  rw [← k.walked.sync i hil, hi] at hle
  rw [hmaybe] at h1
  have := Nat.le_trans hle h1
  simp at this

end StreamLang
