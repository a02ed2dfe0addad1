import Mathlib.Data.List.Nodup
import Mathlib.Tactic.MkIffOfInductiveProp
import StreamLang.Proofs.Stream.Receipts
/-!
The event log of a registry, fed to a new one for the same catalog. All of it is accepted again, and
every stream ends with the inputs that it had. Programs read the same from them too, as long as the
first reading of a clock is still there to count from. Once it was dropped, the readings are counted
from the oldest that was kept.
-/
namespace StreamLang

def Value.amount? : Value → Option Amount
  | .number n => some n.amount
  | _ => none

namespace StreamSpec

/-- What a stream with such inputs counts from. -/
def origin? (spec : StreamSpec) (inputs : List Value) : Option Amount :=
  if spec.emission = .elapsed then inputs.findSome? Value.amount? else none

/-- What programs read of an input that is counted from an origin. -/
def shown (spec : StreamSpec) (origin : Option Amount) (v : Value) : Value :=
  if spec.emission = .elapsed then
    match v with
    | .number n => milliseconds (n.amount - origin.getD n.amount)
    | _ => v
  else v

variable {spec : StreamSpec} {inputs more : List Value} {v : Value}

@[simp] theorem origin?_nil (spec : StreamSpec) : spec.origin? [] = none := by simp [origin?]

theorem origin?_append (spec : StreamSpec) (inputs more : List Value) :
    spec.origin? (inputs ++ more) = (spec.origin? inputs).or (spec.origin? more) := by
  unfold origin?
  split
  · exact List.findSome?_append
  · rfl

theorem shown_of_not_elapsed (h : spec.emission ≠ .elapsed) (origin : Option Amount) (v : Value) :
    spec.shown origin v = v := if_neg h

/-- The first reading counts from itself. -/
theorem shown_self (spec : StreamSpec) (v : Value) :
    spec.shown (spec.origin? [v]) v = spec.shown none v := by
  by_cases he : spec.emission = .elapsed
  · cases v <;> simp [shown, origin?, he, Value.amount?]
  · rw [shown_of_not_elapsed he, shown_of_not_elapsed he]

/-- What comes later does not change what an input is counted from. -/
theorem shown_append (h : v ∈ inputs) :
    spec.shown (spec.origin? (inputs ++ more)) v = spec.shown (spec.origin? inputs) v := by
  by_cases he : spec.emission = .elapsed
  · cases v with
    | number n =>
      have hsome : (spec.origin? inputs).isSome := by
        rw [origin?, if_pos he, List.findSome?_isSome_iff]
        exact ⟨_, h, rfl⟩
      obtain ⟨origin, horigin⟩ := Option.isSome_iff_exists.1 hsome
      rw [origin?_append, horigin, Option.some_or]
    | _ => simp [shown]
  · rw [shown_of_not_elapsed he, shown_of_not_elapsed he]

end StreamSpec

namespace Stream

variable {x x' : Stream} {inputs : List Value} {v : Value}

/-- The kept inputs, each with what programs read of it. -/
def readings (x : Stream) : List (Value × Value) := x.history.map fun e => (e.input, e.value)

theorem latest_eq (x : Stream) :
    x.latest = (x.readings.getLast?.map (·.2)).getD x.spec.default := by
  rw [latest, readings, List.getLast?_map, Option.map_map]
  rfl

theorem map_fst_readings (x : Stream) : x.readings.map (·.1) = x.history.map (·.input) := by
  simp [readings]

theorem observe_eq (x : Stream) (v : Value) :
    x.observe v = (x.spec.shown x.origin v, x.origin.or (x.spec.origin? [v])) := by
  unfold observe StreamSpec.shown StreamSpec.origin?
  cases he : x.spec.emission with
  | elapsed => cases v <;> cases x.origin <;> simp [Value.amount?]
  | onDemand => simp
  | push => simp

/-- Such are the inputs of a stream: it has kept the newest, and counts all of them from the first
reading there was. -/
structure Measures (x : Stream) (inputs : List Value) : Prop where
  origin : x.origin = x.spec.origin? inputs
  readings : x.readings = keepNewest x.limit (inputs.map fun v =>
    (v, x.spec.shown (x.spec.origin? inputs) v))

theorem measures_new (spec : StreamSpec) (limit : Nat) : (new spec limit).Measures [] :=
  ⟨(spec.origin?_nil).symm, by simp [new, Stream.readings, keepNewest]⟩

theorem Measures.record (h : x.Measures inputs) {sequence : Nat}
    (hr : x.record v sequence = .ok x') : x'.Measures (inputs ++ [v]) ∧ x'.limit = x.limit := by
  rw [record_eq, observe_eq] at hr
  obtain ⟨u, -, rfl⟩ := of_map_eq_ok hr
  refine ⟨⟨?_, ?_⟩, rfl⟩
  · rw [h.origin, StreamSpec.origin?_append]
  · have before : inputs.map (fun v => (v, x.spec.shown (x.spec.origin? inputs) v)) =
        inputs.map fun w => (w, x.spec.shown (x.spec.origin? (inputs ++ [v])) w) :=
      List.map_congr_left fun w hw => by rw [StreamSpec.shown_append hw]
    have last : x.spec.shown x.origin v = x.spec.shown (x.spec.origin? (inputs ++ [v])) v := by
      rw [h.origin, StreamSpec.origin?_append]
      cases x.spec.origin? inputs with
      | some origin => rfl
      | none => exact (x.spec.shown_self v).symm
    have hreadings := h.readings
    simp only [Stream.readings] at hreadings
    simp only [Stream.readings, keepNewest_map, List.map_append, hreadings, keepNewest_append, before,
      last, List.map_cons, List.map_nil]

theorem Measures.kept (h : x.Measures inputs) :
    x.history.map (·.input) = keepNewest x.limit inputs := by
  rw [← map_fst_readings, h.readings, keepNewest_map, List.map_map]
  exact congrArg _ (List.map_id _)

/-- A stream that has taken no more than it keeps counts all of it. -/
theorem Measures.readings_of_length_le (h : x.Measures inputs) (hx : inputs.length ≤ x.limit) :
    x.readings = inputs.map fun v => (v, x.spec.shown (x.spec.origin? inputs) v) := by
  rw [h.readings, keepNewest, List.length_map, Nat.sub_eq_zero_of_le hx, List.drop_zero]

/-- A stream that has kept its first reading, or counts nothing, shows what it would show if it had
taken only what it has kept. -/
theorem Measures.readings_of_kept (h : x.Measures inputs)
    (hx : x.spec.emission = .elapsed → inputs.length ≤ x.limit) :
    x.readings = (x.history.map (·.input)).map fun v =>
      (v, x.spec.shown (x.spec.origin? (x.history.map (·.input))) v) := by
  rw [h.readings, ← keepNewest_map, h.kept]
  refine List.map_congr_left fun v _ => ?_
  by_cases he : x.spec.emission = .elapsed
  · rw [keepNewest, Nat.sub_eq_zero_of_le (hx he), List.drop_zero]
  · rw [StreamSpec.shown_of_not_elapsed he, StreamSpec.shown_of_not_elapsed he]

end Stream

/-- An event that its stream takes. -/
def Catalog.Fits (catalog : Catalog) (e : StreamEvent) : Prop :=
  ∃ spec, catalog.get? e.stream = some spec ∧ spec.check e.value = .ok ()

/-- What some events bring to a stream. -/
def StreamEvent.valuesOf (stream : String) (events : List StreamEvent) : List Value :=
  (events.filter (·.stream = stream)).map (·.value)

/-- How an entry of the history stands in a log. -/
def HistoryEntry.logged (stream : String) (e : HistoryEntry) : LoggedEvent :=
  ⟨e.sequence, stream, e.input⟩

/-- The event that a log has an entry of. -/
def LoggedEvent.event (e : LoggedEvent) : StreamEvent := ⟨e.stream, e.input⟩

/-- Logged events with different numbers can be put in the order of their numbers in one way only. -/
theorem LoggedEvent.eq_of_perm {l l' : List LoggedEvent} (perm : l.Perm l')
    (sorted : l.Pairwise (·.sequence ≤ ·.sequence)) (increasing : l'.Pairwise (·.sequence < ·.sequence)) :
    l = l' := by
  refine perm.eq_of_pairwise (fun a b ha hb hab hba => ?_) sorted (increasing.imp Nat.le_of_lt)
  have nodup : (l'.map (·.sequence)).Nodup := by
    rw [List.nodup_iff_pairwise_ne, List.pairwise_map]
    exact increasing.imp Nat.ne_of_lt
  exact List.inj_on_of_nodup_map nodup (perm.subset ha) hb (Nat.le_antisymm hab hba)

namespace Assoc

variable {α : Type u} {β : Type v} {γ : Type w} [DecidableEq α] {f : β → List γ}

/-- All that is found under a key. -/
def gather (f : β → List γ) (k : α) (a : Assoc α β) : List γ :=
  (a.filter (·.1 = k)).flatMap fun p => f p.2

/-- Whatever is under a key is in its first place. -/
def Single (f : β → List γ) (a : Assoc α β) : Prop :=
  ∀ k, gather f k a = ((get? k a).map f).getD []

/-- What is listed under its key, and picked by that, is what is found under the key. -/
theorem filter_flatMap_eq {δ : Type*} {g : α → γ → δ} {key : δ → α} (hkey : ∀ k c, key (g k c) = k)
    (k : α) (a : Assoc α β) :
    (a.flatMap fun p => (f p.2).map (g p.1)).filter (key · = k) = (gather f k a).map (g k) := by
  induction a with
  | nil => rfl
  | cons p rest ih =>
    obtain ⟨l, w⟩ := p
    unfold gather at ih ⊢
    rw [List.flatMap_cons, List.filter_append, ih, List.filter_map]
    by_cases hl : l = k
    · subst l
      simp [Function.comp_def, hkey]
    · simp [Function.comp_def, hkey, hl]

theorem gather_put_ne {k l : α} (h : l ≠ k) (v : β) (a : Assoc α β) :
    gather f k (put l v a) = gather f k a := by
  induction a with
  | nil => simp [gather, h]
  | cons p rest ih =>
    obtain ⟨l', w⟩ := p
    unfold gather at ih ⊢
    unfold put
    split
    · subst l'
      simp [h]
    · by_cases hk : l' = k <;> simp [hk, ih]

theorem gather_put {k : α} {v w : β} {a : Assoc α β} (hv : get? k a = some v)
    (h : gather f k a = f v) : gather f k (put k w a) = f w := by
  induction a with
  | nil => cases hv
  | cons p rest ih =>
    obtain ⟨k', v'⟩ := p
    unfold gather at ih h ⊢
    unfold get? at hv
    unfold put
    by_cases hk : k' = k
    · rw [if_pos hk] at hv ⊢
      obtain rfl := Option.some.inj hv
      simp only [hk, decide_true, List.filter_cons_of_pos, List.flatMap_cons,
        List.append_right_eq_self] at h ⊢
      exact h
    · rw [if_neg hk] at hv ⊢
      simp only [hk, decide_false, Bool.false_eq_true, not_false_eq_true,
        List.filter_cons_of_neg] at h ⊢
      exact ih hv h

theorem Single.put {a : Assoc α β} (h : Single f a) {k : α} {v : β} (hv : get? k a = some v)
    (w : β) : Single f (put k w a) := by
  intro l
  rw [get?_put]
  split
  · subst l
    exact gather_put hv (by rw [h k, hv]; rfl)
  · rw [gather_put_ne ‹_›, h l]

end Assoc

namespace Registry

variable {r r' : Registry} {catalog : Catalog} {limit : Nat} {taken : List StreamEvent}
  {e : StreamEvent} {events : List StreamEvent} {name : String} {x : Stream}

/-- Records what a log has, one after another. -/
def replay (r : Registry) : EventLog → Except Error Registry
  | [] => .ok r
  | e :: rest => do
    let (_, r) ← r.record e.stream e.input
    r.replay rest

/-- A registry that was made for a catalog and has taken such events since. -/
structure Has (r : Registry) (catalog : Catalog) (limit : Nat) (taken : List StreamEvent) : Prop where
  keeps : ∃ receipts : List Receipt, receipts.map (·.event) = taken ∧ r.Keeps catalog receipts
  fit : ∀ e ∈ taken, catalog.Fits e
  measures : ∀ name x, r.stream? name = some x →
    x.limit = max limit 1 ∧ x.Measures (StreamEvent.valuesOf name taken)
  single : Assoc.Single (·.history) r.streams

theorem has_new (catalog : Catalog) (limit : Nat) : (new catalog limit).Has catalog limit [] := by
  have found {name : String} {x : Stream} (hx : (new catalog limit).stream? name = some x) :
      ∃ spec, x = .new spec limit := by
    rw [stream?_new] at hx
    obtain ⟨spec, -, rfl⟩ := Option.map_eq_some_iff.1 hx
    exact ⟨spec, rfl⟩
  refine ⟨⟨[], rfl, .new catalog limit⟩, fun _ h => absurd h List.not_mem_nil, fun name x hx => ?_,
    fun name => ?_⟩
  · obtain ⟨spec, rfl⟩ := found hx
    exact ⟨rfl, Stream.measures_new spec limit⟩
  · have hnone : ((Assoc.get? name (new catalog limit).streams).map (·.history)).getD [] = [] := by
      cases hx : (new catalog limit).stream? name with
      | none => rw [show Assoc.get? name (new catalog limit).streams = none from hx]; rfl
      | some x =>
        obtain ⟨spec, rfl⟩ := found hx
        rw [show Assoc.get? name (new catalog limit).streams = _ from hx]
        rfl
    rw [hnone, Assoc.gather, List.flatMap_eq_nil_iff]
    rintro ⟨k, x⟩ hx
    obtain ⟨⟨k', spec⟩, -, heq⟩ := List.mem_map.1 (List.mem_filter.1 hx).1
    obtain ⟨-, rfl⟩ := Prod.mk.inj heq
    rfl

/-- An event that fits is taken. -/
theorem Has.record (h : r.Has catalog limit taken) (he : catalog.Fits e) :
    ∃ recorded r', r.record e.stream e.value = .ok (recorded, r') ∧
      r'.Has catalog limit (taken ++ [e]) := by
  obtain ⟨receipts, rfl, hk⟩ := h.keeps
  obtain ⟨spec, hspec, hcheck⟩ := he
  obtain ⟨recorded, r', hr, hkeeps, -⟩ := hk.record hspec hcheck
  obtain ⟨x, x', hx, hx', rfl⟩ := record_eq_ok hr
  obtain ⟨hlimit, hmeasures⟩ := h.measures e.stream x hx
  obtain ⟨hmeasures', hlimit'⟩ := hmeasures.record hx'
  refine ⟨recorded, _, hr, ⟨_, by rw [List.map_append]; rfl, hkeeps⟩, fun e' he' => ?_,
    fun name y hy => ?_, h.single.put hx x'⟩
  · rcases List.mem_append.1 he' with he' | he'
    · exact h.fit e' he'
    · exact List.mem_singleton.1 he' ▸ ⟨spec, hspec, hcheck⟩
  · have hset : (r.set e.stream x').stream? name = some y := hy
    rw [stream?_set] at hset
    rw [StreamEvent.valuesOf, List.filter_append, List.map_append]
    split at hset
    · subst name
      obtain rfl := Option.some.inj hset
      exact ⟨hlimit'.trans hlimit, by simpa [StreamEvent.valuesOf] using hmeasures'⟩
    · have hne : e.stream ≠ name := ‹_›
      simpa [hne, StreamEvent.valuesOf] using h.measures name y hset

/-- Any other leaves no trace. -/
theorem Has.takeIn_of_not_fits (h : r.Has catalog limit taken) (he : ¬ catalog.Fits e) :
    r.takeIn e = r := by
  obtain ⟨receipts, rfl, hk⟩ := h.keeps
  rw [takeIn_eq_record]
  cases hr : r.record e.stream e.value with
  | error error => rfl
  | ok result =>
    obtain ⟨x, x', hx, hx', -⟩ := record_eq_ok hr
    exact absurd ⟨x.spec, by rw [← hk.specs, hx]; rfl, (Stream.record_eq_ok hx').1⟩ he

theorem Has.takeInAll (h : r.Has catalog limit taken) (events : List StreamEvent) :
    ∃ more, (events.foldl takeIn r).Has catalog limit (taken ++ more) := by
  induction events generalizing r taken with
  | nil => exact ⟨[], by simpa using h⟩
  | cons e rest ih =>
    rw [List.foldl_cons]
    by_cases he : catalog.Fits e
    · obtain ⟨recorded, r', hr, hr'⟩ := h.record he
      have htake : r.takeIn e = r' := by simp [takeIn_eq_record, hr]
      obtain ⟨more, hmore⟩ := ih hr'
      exact ⟨e :: more, by rw [htake]; simpa using hmore⟩
    · rw [h.takeIn_of_not_fits he]
      exact ih h

/-- A log of events that fit is accepted to its end. -/
theorem Has.replay (h : r.Has catalog limit taken) {log : EventLog}
    (fit : ∀ e ∈ log, catalog.Fits e.event) :
    ∃ r', r.replay log = .ok r' ∧ r'.Has catalog limit (taken ++ log.map (·.event)) := by
  induction log generalizing r taken with
  | nil => exact ⟨r, rfl, by simpa using h⟩
  | cons e rest ih =>
    obtain ⟨recorded, r', hr, hr'⟩ := h.record (fit e List.mem_cons_self)
    obtain ⟨r'', hrest, hr''⟩ := ih hr' fun e he => fit e (List.mem_cons_of_mem _ he)
    refine ⟨r'', ?_, by simpa using hr''⟩
    show (r.record e.event.stream e.event.value >>= fun p => p.2.replay rest) = _
    rw [hr]
    exact hrest

/-- A stream has its events in the order of their recording. -/
theorem Keeps.increasing {receipts : List Receipt} (h : r.Keeps catalog receipts)
    (hx : r.stream? name = some x) : (x.history.map (·.sequence)).Pairwise (· < ·) := by
  have hhistory := congrArg (List.map fun q : Nat × Nat × Value => q.2.1) (h.took name x hx).history
  rw [List.map_map, Stream.keepNewest_map, List.map_map] at hhistory
  have hsub : (Stream.keepNewest x.limit ((Receipt.ofStream name receipts).map
      (·.sequence))).Sublist (List.range receipts.length) := by
    rw [← h.numbered.sequences]
    exact (List.drop_sublist ..).trans (List.filter_sublist.map _)
  have hmap : x.history.map (·.sequence) =
      Stream.keepNewest x.limit ((Receipt.ofStream name receipts).map (·.sequence)) := hhistory
  exact hmap ▸ List.pairwise_lt_range.sublist hsub

theorem eventLog_sorted (r : Registry) : r.eventLog.Pairwise (·.sequence ≤ ·.sequence) := by
  refine (List.pairwise_mergeSort ?_ ?_ _).imp of_decide_eq_true
  · intro a b c hab hbc
    simp only [decide_eq_true_eq] at hab hbc ⊢
    exact hab.trans hbc
  · intro a b
    simpa using Nat.le_total a.sequence b.sequence

/-- The log has the events of each stream as they were recorded. -/
theorem Has.eventLog_filter (h : r.Has catalog limit taken) (hx : r.stream? name = some x) :
    r.eventLog.filter (·.stream = name) = x.history.map (HistoryEntry.logged name) := by
  obtain ⟨receipts, -, hk⟩ := h.keeps
  have hincreasing := hk.increasing hx
  have hgather : (r.streams.flatMap fun p => p.2.history.map (HistoryEntry.logged p.1)).filter
      (·.stream = name) = x.history.map (HistoryEntry.logged name) := by
    rw [Assoc.filter_flatMap_eq (fun _ _ => rfl), h.single name,
      show Assoc.get? name r.streams = some x from hx]
    rfl
  have hperm : (r.eventLog.filter (·.stream = name)).Perm
      (x.history.map (HistoryEntry.logged name)) :=
    ((List.mergeSort_perm ..).filter _).trans (.of_eq hgather)
  refine LoggedEvent.eq_of_perm hperm (r.eventLog_sorted.filter _) ?_
  rw [List.pairwise_map] at hincreasing ⊢
  exact hincreasing

/-- Everything in the log was taken. -/
theorem Has.fits_of_mem_eventLog (h : r.Has catalog limit taken) {e : LoggedEvent}
    (he : e ∈ r.eventLog) : catalog.Fits e.event := by
  obtain ⟨⟨name, y⟩, hy, hmem⟩ := List.mem_flatMap.1 ((List.mergeSort_perm ..).subset he)
  obtain ⟨entry, hentry, rfl⟩ := List.mem_map.1 hmem
  have hfound : entry ∈ Assoc.gather (·.history) name r.streams :=
    List.mem_flatMap.2 ⟨(name, y), List.mem_filter.2 ⟨hy, by simp⟩, hentry⟩
  rw [h.single name] at hfound
  cases hx : r.stream? name with
  | none =>
    rw [show Assoc.get? name r.streams = none from hx] at hfound
    cases hfound
  | some x =>
    rw [show Assoc.get? name r.streams = some x from hx] at hfound
    have hinput : entry.input ∈ x.history.map (·.input) := List.mem_map_of_mem hfound
    rw [(h.measures name x hx).2.kept] at hinput
    obtain ⟨e, he, hvalue⟩ := List.mem_map.1 (List.mem_of_mem_drop hinput)
    obtain ⟨he, hstream⟩ := List.mem_filter.1 he
    have hevent : (⟨name, entry.input⟩ : StreamEvent) = e := by
      rw [← of_decide_eq_true hstream, ← hvalue]
    exact (congrArg catalog.Fits hevent).mpr (h.fit e he)

theorem Has.version (h : r.Has catalog limit taken) (hx : r.stream? name = some x) :
    x.version = (StreamEvent.valuesOf name taken).length := by
  obtain ⟨receipts, rfl, hk⟩ := h.keeps
  rw [(hk.took name x hx).version, StreamEvent.valuesOf, List.filter_map, List.length_map,
    List.length_map]
  rfl

/-- What the log brings to a stream are its kept inputs. -/
theorem Has.valuesOf_eventLog (h : r.Has catalog limit taken) (hx : r.stream? name = some x) :
    StreamEvent.valuesOf name (r.eventLog.map (·.event)) = x.history.map (·.input) := by
  have hfilter := congrArg (List.map (·.input)) (h.eventLog_filter hx)
  rw [List.map_map] at hfilter
  rw [StreamEvent.valuesOf, List.filter_map, List.map_map]
  exact hfilter

/-- For every catalog and limit and all events that come in, the log that is left is accepted to its
end by a new registry. The streams of that are those of the first, with the same inputs: each of them
shows what it would show if it had taken nothing but what was kept. So it shows the same as before,
unless it counts from a reading that was dropped. -/
theorem exists_replayed (catalog : Catalog) (limit : Nat) (events : List StreamEvent) :
    let original := events.foldl takeIn (new catalog limit)
    ∃ replayed, (new catalog limit).replay original.eventLog = .ok replayed ∧
      ∀ name, (replayed.stream? name).map (·.spec) = (original.stream? name).map (·.spec) ∧
        ∀ x y, original.stream? name = some x → replayed.stream? name = some y →
          y.readings = x.history.map (fun e =>
            (e.input, x.spec.shown (x.spec.origin? (x.history.map (·.input))) e.input)) ∧
          ((x.spec.emission = .elapsed → x.version ≤ max limit 1) →
            y.latest = x.latest ∧ y.readings = x.readings) := by
  intro original
  obtain ⟨taken, h⟩ := (has_new catalog limit).takeInAll events
  rw [List.nil_append] at h
  obtain ⟨replayed, hreplay, h'⟩ := (has_new catalog limit).replay fun e he =>
    h.fits_of_mem_eventLog he
  rw [List.nil_append] at h'
  refine ⟨replayed, hreplay, fun name => ?_⟩
  have hspecs : (replayed.stream? name).map (·.spec) = (original.stream? name).map (·.spec) := by
    obtain ⟨_, -, hk⟩ := h.keeps
    obtain ⟨_, -, hk'⟩ := h'.keeps
    exact (hk'.specs name).trans (hk.specs name).symm
  refine ⟨hspecs, fun x y hx hy => ?_⟩
  have hspec : y.spec = x.spec := by simpa [hx, hy] using hspecs
  obtain ⟨hlimit, hmeasures⟩ := h.measures name x hx
  obtain ⟨hlimit', hmeasures'⟩ := h'.measures name y hy
  have hlength : (x.history.map (·.input)).length ≤ y.limit := by
    rw [hmeasures.kept, hlimit', hlimit, Stream.keepNewest, List.length_drop]
    omega
  have hreadings : y.readings = (x.history.map (·.input)).map fun v =>
      (v, x.spec.shown (x.spec.origin? (x.history.map (·.input))) v) := by
    rw [h.valuesOf_eventLog hx] at hmeasures'
    rw [← hspec, hmeasures'.readings_of_length_le hlength]
  refine ⟨by rw [hreadings, List.map_map]; rfl, fun hcounts => ?_⟩
  have hsame : y.readings = x.readings := by
    rw [hreadings, hmeasures.readings_of_kept fun he => ?_]
    rw [← h.version hx, hlimit]
    exact hcounts he
  exact ⟨by rw [y.latest_eq, x.latest_eq, hsame, hspec], hsame⟩

end Registry

/-! A clock and a keyboard. -/

namespace Desk

def catalog : Catalog :=
  ⟨[("time", ⟨"time", .elapsed, .duration, milliseconds .zero⟩),
    ("keyboard", ⟨"keyboard", .push, .text, .text ""⟩)]⟩

/-- A reading of the clock. -/
def reading (ms : Nat) : StreamEvent := ⟨"time", .plain (.ofNat ms)⟩

def key (s : String) : StreamEvent := ⟨"keyboard", .text s⟩

/-- Two readings and three keys, and what is refused between them. -/
def events : List StreamEvent :=
  [reading 1, key "a", ⟨"keyboard", .boolean true⟩, key "b", ⟨"mouse", .text "c"⟩, reading 501, key "c"]

def original : Registry := events.foldl Registry.takeIn (.new catalog 2)

/-- What can be read off the clock and the keyboard, and off a clock of which one reading is kept. -/
@[mk_iff]
structure Checked : Prop where
  time : (original.stream? "time").any fun x => x.spec.emission = .elapsed ∧ x.version = 2 ∧
    x.latest.equal (milliseconds (.ofNat 500))
  keyboard : (original.stream? "keyboard").any fun x => x.spec.emission = .push ∧ x.version = 3 ∧
    (Value.list (x.readings.map (·.2))).equal (.list [.text "b", .text "c"])
  second : (([reading 1, reading 501].foldl Registry.takeIn (.new catalog 1)).stream? "time").any
    fun x => x.latest.equal (milliseconds (.ofNat 500))
  only : (((Registry.new catalog 1).takeIn (reading 501)).stream? "time").any
    fun y => y.latest.equal (milliseconds (.ofNat 500)) = false

theorem checked : Checked := checked_iff.2 (by decide +kernel)

end Desk

namespace Registry

/-- The clock has kept its first reading and the keyboard has dropped a key. Both come back. -/
theorem desk_replayed : ∃ replayed,
    (new Desk.catalog 2).replay Desk.original.eventLog = .ok replayed ∧
      (∃ y, replayed.stream? "time" = some y ∧ y.latest.equal (milliseconds (.ofNat 500))) ∧
      ∃ y, replayed.stream? "keyboard" = some y ∧
        (Value.list (y.readings.map (·.2))).equal (.list [.text "b", .text "c"]) := by
  obtain ⟨replayed, hreplay, hstreams⟩ := exists_replayed Desk.catalog 2 Desk.events
  have found {name : String} {x : Stream} (hx : Desk.original.stream? name = some x) :
      ∃ y, replayed.stream? name = some y := by
    have := (hstreams name).1
    rw [show (Desk.events.foldl takeIn (new Desk.catalog 2)).stream? name = some x from hx] at this
    obtain ⟨y, hy, -⟩ := Option.map_eq_some_iff.1 this
    exact ⟨y, hy⟩
  obtain ⟨x, hx, htime⟩ := (Option.any_eq_true _ _).1 Desk.checked.time
  obtain ⟨x', hx', hkeyboard⟩ := (Option.any_eq_true _ _).1 Desk.checked.keyboard
  obtain ⟨-, hversion, hlatest⟩ := of_decide_eq_true htime
  obtain ⟨hpush, -, hreadings⟩ := of_decide_eq_true hkeyboard
  obtain ⟨y, hy⟩ := found hx
  obtain ⟨y', hy'⟩ := found hx'
  obtain ⟨hsame, -⟩ := ((hstreams "time").2 x y hx hy).2 fun _ => hversion.le
  obtain ⟨-, hsame'⟩ := ((hstreams "keyboard").2 x' y' hx' hy').2 fun he => by
    rw [hpush] at he
    cases he
  exact ⟨replayed, hreplay, ⟨y, hy, hsame ▸ hlatest⟩, y', hy', hsame' ▸ hreadings⟩

/-- A clock that has dropped its first reading starts again from zero: of the readings 1 and 501 only
the second is kept, which showed 500 ms and now shows none. -/
theorem exists_not_replayed :
    ¬ ∀ (catalog : Catalog) (limit : Nat) (events : List StreamEvent), 1 ≤ limit →
      let original := events.foldl takeIn (new catalog limit)
      ∃ replayed, (new catalog limit).replay original.eventLog = .ok replayed ∧
        ∀ name x y, original.stream? name = some x → replayed.stream? name = some y →
          y.latest = x.latest ∧ y.readings = x.readings := by
  intro h
  obtain ⟨replayed, hreplay, hstreams⟩ := h Desk.catalog 1 [Desk.reading 1, Desk.reading 501] le_rfl
  have hlog : ([Desk.reading 1, Desk.reading 501].foldl takeIn (new Desk.catalog 1)).eventLog =
      [⟨1, "time", .plain (.ofNat 501)⟩] := List.mergeSort_singleton _
  have hagain : (new Desk.catalog 1).replay [⟨1, "time", .plain (.ofNat 501)⟩] =
      .ok ((new Desk.catalog 1).takeIn (Desk.reading 501)) := rfl
  rw [hlog, hagain] at hreplay
  obtain rfl := Except.ok.inj hreplay
  obtain ⟨x, hx, hsecond⟩ := (Option.any_eq_true _ _).1 Desk.checked.second
  obtain ⟨y, hy, honly⟩ := (Option.any_eq_true _ _).1 Desk.checked.only
  rw [(hstreams "time" x y hx hy).1, hsecond] at honly
  cases of_decide_eq_true honly

end Registry
end StreamLang
