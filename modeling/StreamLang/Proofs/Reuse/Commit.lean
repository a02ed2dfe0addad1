import StreamLang.Proofs.Reuse.Eviction
import StreamLang.Proofs.Reuse.Records
/-!
What a commit does to marks and entries. It writes the values of the pass, takes the marks off what was
found up to date together with what hangs together below, makes doubts certain and evicts.
-/
namespace StreamLang

open Mark (level)
open Staleness (Walked Connected Pruned)

namespace Staleness

variable {t : Tree} {roots : List NodeId} {marks rest : NodeMap Mark}

/-- All that hangs together below a cleaned node loses its mark. -/
theorem Pruned.removed (h : Pruned t roots marks rest) {i x : NodeId} (hi : i ∈ roots)
    (hc : Connected t marks i x) : rest[x]? = none ∧ ∀ c ∈ t.children x, rest[c]? = none := by
  induction hc with
  | refl => exact h.roots i hi
  | tail _ hx ih =>
    have hn := ih.2 _ hx.1
    exact ⟨hn, h.below _ hx.2 hn⟩

/-- What lies on the way down hangs together with what lies above, and with what lies below. -/
theorem Connected.split (o : t.Ordered) {i a x : NodeId} (h : Connected t marks i x)
    (hi : t.Within i a) (ha : t.Within a x) : Connected t marks i a ∧ Connected t marks a x := by
  induction h with
  | refl =>
    obtain rfl := o.within_antisymm hi ha
    exact ⟨Relation.ReflTransGen.refl, Relation.ReflTransGen.refl⟩
  | tail hp hx ih =>
    rename_i p x
    rcases ha.cases_tail with rfl | ⟨q, hq, hxq⟩
    · exact ⟨Relation.ReflTransGen.tail hp hx, Relation.ReflTransGen.refl⟩
    · obtain rfl := o.parent_unique hx.1 hxq
      exact ⟨(ih hq).1, Relation.ReflTransGen.tail (ih hq).2 hx⟩

end Staleness

namespace Reactor

variable (r : Reactor)

theorem applyWrites_cache (pass : Nat) (writes : Assoc NodeId Write) (i : NodeId) :
    (∃ w, (i, w) ∈ writes ∧ (r.applyWrites pass writes).cache.find? i = some (entryOf pass w)) ∨
      (i ∉ Assoc.keys writes ∧ (r.applyWrites pass writes).cache.find? i = r.cache.find? i) := by
  induction writes generalizing r with
  | nil => exact .inr ⟨by simp [Assoc.keys], rfl⟩
  | cons p rest ih =>
    obtain ⟨j, w⟩ := p
    rcases ih { r with
      cache := r.cache.put j (entryOf pass w)
      staleness := r.staleness.markClean j } with ⟨w', hm, h⟩ | ⟨hm, h⟩
    · exact .inl ⟨w', List.mem_cons_of_mem _ hm, h⟩
    · by_cases hj : j = i
      · subst hj
        exact .inl ⟨w, List.mem_cons_self, h.trans (by simp [Cache.find?_put])⟩
      · refine .inr ⟨?_, h.trans (by simp [Cache.find?_put, hj])⟩
        simp only [Assoc.keys, List.map_cons, List.mem_cons, not_or]
        exact ⟨fun h => hj h.symm, hm⟩

theorem applyWrites_mark? (pass : Nat) (writes : Assoc NodeId Write) (i : NodeId) :
    (r.applyWrites pass writes).staleness.mark? i =
      if i ∈ Assoc.keys writes then none else r.staleness.mark? i := by
  induction writes generalizing r with
  | nil => simp [Assoc.keys, applyWrites]
  | cons p rest ih =>
    obtain ⟨j, w⟩ := p
    have h := ih { r with
      cache := r.cache.put j (entryOf pass w)
      staleness := r.staleness.markClean j }
    refine h.trans ?_
    simp only [Assoc.keys, List.map_cons, List.mem_cons, Staleness.mark?_markClean]
    by_cases hi : i ∈ rest.map Prod.fst
    · simp [hi]
    · by_cases hj : i = j
      · simp [hj]
      · simp [hi, hj, Ne.symm hj]

theorem applyWrites_walked (pass : Nat) (writes : Assoc NodeId Write) :
    (r.applyWrites pass writes).staleness =
      if writes = [] then r.staleness else ⟨(r.applyWrites pass writes).staleness.marks, ∅⟩ := by
  induction writes generalizing r with
  | nil => rfl
  | cons p rest ih =>
    obtain ⟨j, w⟩ := p
    refine (ih { r with
      cache := r.cache.put j (entryOf pass w)
      staleness := r.staleness.markClean j }).trans ?_
    cases rest <;> rfl

/-- The marks after the writes and the cleaning of a commit, before doubts become certain. -/
def cleanedMarks (t : Tree) (seen : Snapshot) (done : Record) : Staleness :=
  done.cleaned.foldl (fun s i => s.cleanSubtree t i) (r.applyWrites seen.pass done.writes).staleness

/-- The reactor after a commit, before anything is evicted. -/
def unevicted (t : Tree) (seen : Snapshot) (done : Record) : Reactor :=
  { (r.applyWrites seen.pass done.writes) with
    staleness := (r.cleanedMarks t seen done).promote
    registry := (((r.applyWrites seen.pass done.writes).registry.subscribeAll
      done.subscriptions).markObserved seen)
    edgeTriggered := done.edgeTriggered }

theorem commit_eq (t : Tree) (seen : Snapshot) (done : Record) :
    r.commit t seen done = (r.unevicted t seen done).evictOver := rfl

theorem evictOver_staleness : r.evictOver.staleness = r.staleness := by
  unfold evictOver
  cases r.capacity <;> rfl

theorem evictOver_registry : r.evictOver.registry = r.registry := by
  unfold evictOver
  cases r.capacity <;> rfl

theorem evictOver_edgeTriggered : r.evictOver.edgeTriggered = r.edgeTriggered := by
  unfold evictOver
  cases r.capacity <;> rfl

theorem applyWrites_registry (pass : Nat) (writes : Assoc NodeId Write) :
    (r.applyWrites pass writes).registry = r.registry := by
  induction writes generalizing r with
  | nil => rfl
  | cons p rest ih => exact ih _

theorem commit_registry (t : Tree) (seen : Snapshot) (done : Record) :
    (r.commit t seen done).registry =
      (r.registry.subscribeAll done.subscriptions).markObserved seen := by
  rw [← r.applyWrites_registry seen.pass done.writes]
  exact evictOver_registry _

theorem evictOver_inbox : r.evictOver.inbox = r.inbox := by
  unfold evictOver
  cases r.capacity <;> rfl

theorem applyWrites_inbox (pass : Nat) (writes : Assoc NodeId Write) :
    (r.applyWrites pass writes).inbox = r.inbox := by
  induction writes generalizing r with
  | nil => rfl
  | cons p rest ih => exact ih _

theorem commit_inbox (t : Tree) (seen : Snapshot) (done : Record) :
    (r.commit t seen done).inbox = r.inbox := by
  rw [← r.applyWrites_inbox seen.pass done.writes]
  exact evictOver_inbox _

theorem evictOver_capacity : r.evictOver.capacity = r.capacity := by
  unfold evictOver
  cases h : r.capacity <;> simp [h]

theorem applyWrites_capacity (pass : Nat) (writes : Assoc NodeId Write) :
    (r.applyWrites pass writes).capacity = r.capacity := by
  induction writes generalizing r with
  | nil => rfl
  | cons p rest ih => exact ih _

theorem commit_capacity (t : Tree) (seen : Snapshot) (done : Record) :
    (r.commit t seen done).capacity = r.capacity := by
  rw [← r.applyWrites_capacity seen.pass done.writes]
  exact evictOver_capacity _

theorem commit_edgeTriggered (t : Tree) (seen : Snapshot) (done : Record) :
    (r.commit t seen done).edgeTriggered = done.edgeTriggered := evictOver_edgeTriggered _

theorem find?_of_evictOver {i : NodeId} {e : CacheEntry} (h : r.evictOver.cache.find? i = some e) :
    r.cache.find? i = some e := by
  unfold evictOver at h
  cases hc : r.capacity with
  | none => simpa only [hc] using h
  | some capacity =>
    simp only [hc] at h
    exact (r.cache.evict_cut capacity).find?_of_rest h

theorem commit_staleness (t : Tree) (seen : Snapshot) (done : Record) :
    (r.commit t seen done).staleness = (r.cleanedMarks t seen done).promote :=
  (evictOver_staleness _).trans rfl

theorem commit_find? {t : Tree} {seen : Snapshot} {done : Record} {i : NodeId} {e : CacheEntry}
    (h : (r.commit t seen done).cache.find? i = some e) :
    (∃ w, (i, w) ∈ done.writes ∧ e = entryOf seen.pass w) ∨
      (¬ done.Wrote i ∧ r.cache.find? i = some e) := by
  have h : (r.applyWrites seen.pass done.writes).cache.find? i = some e :=
    find?_of_evictOver (r.unevicted t seen done) h
  rcases r.applyWrites_cache seen.pass done.writes i with ⟨w, hm, hw⟩ | ⟨hm, hw⟩
  · exact .inl ⟨w, hm, Option.some.inj (h.symm.trans hw)⟩
  · exact .inr ⟨hm, hw ▸ h⟩

/-- The states of reactions stay, and those that were written are there. -/
theorem commit_has_reaction {t : Tree} {seen : Snapshot} {done : Record} {i : NodeId}
    (flags : ∀ w, (i, w) ∈ done.writes → w.reaction = true)
    (kept : ∀ e, r.cache.find? i = some e → e.reaction = true)
    (h : done.Wrote i ∨ r.cache.has i = true) : (r.commit t seen done).cache.has i = true := by
  have hcut {e : CacheEntry} (he : (r.unevicted t seen done).cache.find? i = some e)
      (hr : e.reaction = true) : (r.commit t seen done).cache.has i = true := by
    rw [commit_eq, evictOver]
    cases (r.unevicted t seen done).capacity with
    | none => simp [Cache.has, he]
    | some capacity =>
      have := ((r.unevicted t seen done).cache.evict_cut capacity).find?_of_reaction he hr
      simp [Cache.has, this]
  rcases r.applyWrites_cache seen.pass done.writes i with ⟨w, hm, hw⟩ | ⟨hm, hw⟩
  · exact hcut hw (flags w hm)
  · obtain ⟨e, he⟩ := Option.isSome_iff_exists.1 (h.resolve_left hm)
    exact hcut (hw.trans he) (kept e he)

/-- What a commit does to marks: a node that loses its mark was written, or hangs together with a
node above it that was found up to date, and so does all that is in between. -/
structure Cleans (t : Tree) (before : Staleness) (done : Record) (rest : Staleness) : Prop where
  dirty : ∀ i m, rest.mark? i = some m → m = .dirty ∧ before.mark? i ≠ none ∧ ¬ done.Wrote i
  wrote : ∀ i, done.Wrote i → rest.mark? i = none
  unmarked : ∀ i, before.mark? i = none → rest.mark? i = none
  cleaned : ∀ i ∈ done.cleaned, rest.mark? i = none ∧ ∀ c ∈ t.children i, rest.mark? c = none
  swept : ∀ i, rest.mark? i = none → before.mark? i ≠ none → ¬ done.Wrote i →
    ∃ m ∈ done.cleaned, Connected t before.marks m i ∧
      ∀ a, t.Within m a → t.Within a i → ∀ c ∈ t.children a, rest.mark? c = none
  walked : rest.walked = ∅ ∨ rest.walked = before.walked ∧
    ∀ i, rest.mark? i = (before.mark? i).map fun _ => .dirty

theorem commit_cleans {t : Tree} (o : t.Ordered) (seen : Snapshot) (done : Record) :
    Cleans t r.staleness done (r.commit t seen done).staleness := by
  have hp := Staleness.pruned_cleanSubtrees o done.cleaned
    (r.applyWrites seen.pass done.writes).staleness
  have hmark := r.applyWrites_mark? seen.pass done.writes
  have hrest (i : NodeId) : (r.commit t seen done).staleness.mark? i = none ↔
      (r.cleanedMarks t seen done).mark? i = none := by
    rw [commit_staleness, Staleness.mark?_promote, Option.map_eq_none_iff]
  have hunwritten {i : NodeId} (hw : ¬ done.Wrote i) :
      (r.applyWrites seen.pass done.writes).staleness.mark? i = r.staleness.mark? i := by
    exact (hmark i).trans (if_neg hw)
  have hle (i : NodeId) (hi : (r.applyWrites seen.pass done.writes).staleness.marks[i]? ≠ none) :
      r.staleness.marks[i]? ≠ none := by
    have := hmark i
    unfold Staleness.mark? at this
    rw [this] at hi
    split at hi
    · exact absurd rfl hi
    · exact hi
  refine ⟨?_, ?_, ?_, ?_, ?_, ?_⟩
  · intro i m hm
    rw [commit_staleness, Staleness.mark?_promote] at hm
    obtain ⟨m', hm', rfl⟩ := Option.map_eq_some_iff.1 hm
    have h := hp.kept i m' hm'
    have h : (r.applyWrites seen.pass done.writes).staleness.mark? i = some m' := h
    rw [hmark] at h
    split at h
    · cases h
    · rename_i hw
      exact ⟨rfl, by simp [h], hw⟩
  · intro i hw
    refine (hrest i).2 (hp.none_of_none ?_)
    exact (hmark i).trans (if_pos hw)
  · intro i hn
    refine (hrest i).2 (hp.none_of_none ?_)
    refine (hmark i).trans ?_
    split
    · rfl
    · exact hn
  · intro i hi
    obtain ⟨hn, hc⟩ := hp.roots i hi
    exact ⟨(hrest i).2 hn, fun c hmem => (hrest c).2 (hc c hmem)⟩
  · intro i hn hm hw
    obtain ⟨m, hmem, hc⟩ := hp.connected i (by rw [← hunwritten hw] at hm; exact hm) ((hrest i).1 hn)
    refine ⟨m, hmem, hc.mono hle, fun a hma hai c hca => ?_⟩
    exact (hrest c).2 ((hp.removed hmem (Connected.split o hc hma hai).1).2 c hca)
  · have hs : (r.commit t seen done).staleness.walked =
        if done.cleaned = [] then (r.applyWrites seen.pass done.writes).staleness.walked else ∅ := by
      rw [commit_staleness]
      exact Staleness.walked_cleanSubtrees done.cleaned _
    have hw := r.applyWrites_walked seen.pass done.writes
    by_cases hc : done.cleaned = []
    · rw [if_pos hc] at hs
      by_cases he : done.writes = []
      · rw [if_pos he] at hw
        refine .inr ⟨hs.trans (by rw [hw]), fun i => ?_⟩
        rw [commit_staleness, Staleness.mark?_promote, cleanedMarks, hc, List.foldl_nil, hw]
      · rw [if_neg he] at hw
        exact .inl (hs.trans (by rw [hw]))
    · exact .inl (hs.trans (if_neg hc))

/-- A commit takes the mark off a node that it has not written, because the node hangs together with
one above it that was found to be up to date. -/
def Sweeps (t : Tree) (seen : Snapshot) (done : Record) (i : NodeId) : Prop :=
  ¬ done.Wrote i ∧ ∃ c ∈ done.cleaned,
    Connected t (r.applyWrites seen.pass done.writes).staleness.marks c i

section Sweeps

variable {r} {t : Tree} {seen : Snapshot} {done : Record} {i : NodeId}

theorem mark?_of_sweeps (o : t.Ordered) (h : r.Sweeps t seen done i) :
    (r.commit t seen done).staleness.mark? i = none := by
  obtain ⟨-, c, hc, hconnected⟩ := h
  have hp := Staleness.pruned_cleanSubtrees o done.cleaned
    (r.applyWrites seen.pass done.writes).staleness
  rw [commit_staleness, Staleness.mark?_promote, Option.map_eq_none_iff]
  exact (hp.removed hc hconnected).1

/-- What a commit neither writes nor sweeps clean stays marked, and becomes dirty. -/
theorem mark?_of_not_sweeps (o : t.Ordered) (hw : ¬ done.Wrote i) (hs : ¬ r.Sweeps t seen done i)
    (hm : r.staleness.mark? i ≠ none) :
    (r.commit t seen done).staleness.mark? i = some .dirty := by
  have hp := Staleness.pruned_cleanSubtrees o done.cleaned
    (r.applyWrites seen.pass done.writes).staleness
  have hmark : (r.applyWrites seen.pass done.writes).staleness.mark? i = r.staleness.mark? i :=
    (r.applyWrites_mark? seen.pass done.writes i).trans (if_neg hw)
  rw [commit_staleness, Staleness.mark?_promote]
  cases hrest : (r.cleanedMarks t seen done).mark? i with
  | some m => rfl
  | none =>
    rw [← hmark] at hm
    exact absurd ⟨hw, hp.connected i hm hrest⟩ hs

end Sweeps

end Reactor

/-- Either nothing was cleaned at all, or all walks are forgotten. -/
theorem Reactor.Cleans.keeps_walked {t : Tree} {left left' : NodeId → Prop} {before rest : Staleness}
    {done : Record} (c : Cleans t before done rest) (k : Walked t left before)
    (sync : ∀ i, ¬ left' i → rest.mark? i = rest.walked[i]?) : Walked t left' rest := by
  rcases c.walked with hw | ⟨hw, hm⟩
  · refine ⟨?_, sync, ?_, ?_, ?_, by simp⟩ <;> simp [hw]
  · refine ⟨fun i => ?_, sync, ?_, ?_, ?_, by simp⟩
    · rw [hw, hm]
      have hle := k.walked_le i
      cases hi : before.mark? i with
      | none => simpa [hi] using hle
      | some m => exact Mark.level_le _
    · rw [hw]
      exact k.up
    · rw [hw]
      exact k.refer
    · rw [hw]
      exact k.reason

end StreamLang
