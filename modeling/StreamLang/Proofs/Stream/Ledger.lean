import Mathlib.Data.List.Perm.Basic
import StreamLang.Proofs.Stream.Replay
/-!
What a registry has after any calls, good and bad ones mixed. The calls that fit their streams are
numbered in turn, each stream has the newest of its own with consecutive versions, and the log has
what the streams have, in the order of the calls. Main statement: `ledger_exact`.
-/
namespace StreamLang

section Lists

variable {α : Type u} {κ : Type v} [DecidableEq κ] {key : α → κ} {l l' : List α}

/-- Lists with the same elements under each key are the same but for their order. -/
theorem List.perm_of_filter_eq (key : α → κ)
    (h : ∀ k, l.filter (key · = k) = l'.filter (key · = k)) : l.Perm l' := by
  classical
  refine List.perm_iff_count.2 fun a => ?_
  have := congrArg (List.count a) (h (key a))
  rwa [List.count_filter (by simp), List.count_filter (by simp)] at this

/-- If keys are unique, a part of a list is picked out by its keys. -/
theorem List.filter_key_mem (nodup : (l.map key).Nodup) (h : l'.Sublist l) :
    l.filter (key · ∈ l'.map key) = l' := by
  induction h with
  | slnil => rfl
  | @cons l' l a h ih =>
    obtain ⟨ha, nodup⟩ := List.nodup_cons.1 nodup
    have out : key a ∉ l'.map key := fun hmem => ha ((h.map key).subset hmem)
    rw [List.filter_cons_of_neg (by simpa using out), ih nodup]
  | @cons_cons l' l a h ih =>
    obtain ⟨ha, nodup⟩ := List.nodup_cons.1 nodup
    have others : l.filter (key · ∈ (a :: l').map key) = l.filter (key · ∈ l'.map key) := by
      refine List.filter_congr fun b hb => ?_
      have hne : key b ≠ key a := fun heq => ha (heq ▸ List.mem_map_of_mem hb)
      simp [hne]
    rw [List.filter_cons_of_pos (by simp), others, ih nodup]

end Lists

/-! ### Which events fit -/

theorem StreamSpec.check_eq_ok {spec : StreamSpec} {v : Value} :
    spec.check v = .ok () ↔ spec.shape.accepts v = true := by
  unfold check
  split <;> simp [*]

theorem Catalog.fits_iff {catalog : Catalog} {e : StreamEvent} : catalog.Fits e ↔
    ((catalog.get? e.stream).any fun spec => spec.shape.accepts e.value) = true := by
  simp only [Fits, StreamSpec.check_eq_ok, Option.any_eq_true]

instance (catalog : Catalog) : DecidablePred catalog.Fits := fun _ =>
  decidable_of_iff _ Catalog.fits_iff.symm

/-- A shape that accepts one number accepts nothing else. -/
theorem Shape.exists_number {shape : Shape} {n : Number} {v : Value}
    (hn : shape.accepts (.number n) = true) (hv : shape.accepts v = true) : ∃ m, v = .number m := by
  cases shape with
  | duration | number => cases v <;> first | exact ⟨_, rfl⟩ | cases hv
  | text | boolean | point => cases hn

/-! ### The entries of a stream that drops nothing -/

namespace StreamSpec

/-- What programs read of an input, if `first` is the first that the stream has accepted. -/
def since (spec : StreamSpec) (first v : Value) : Value :=
  match spec.emission, first, v with
  | .elapsed, .number start, .number n => milliseconds (n.amount - start.amount)
  | _, _, _ => v

/-- The entries for all that a stream has accepted. -/
def entries (spec : StreamSpec) : List Receipt → List HistoryEntry
  | [] => []
  | first :: more => (first :: more).map fun r =>
    ⟨r.version, r.sequence, r.event.value, spec.since first.event.value r.event.value⟩

variable {spec : StreamSpec} {first v : Value} {more : List Value}

/-- Values of one shape are all numbers or none is, so the first reading is the first value. -/
theorem shown_of_accepts (hfirst : spec.shape.accepts first = true)
    (hv : spec.shape.accepts v = true) :
    spec.shown (spec.origin? (first :: more)) v = spec.since first v := by
  cases he : spec.emission with
  | onDemand | push => simp [shown, since, he]
  | elapsed =>
    cases v with
    | number n =>
      obtain ⟨start, rfl⟩ := Shape.exists_number hv hfirst
      simp [shown, since, origin?, he, List.findSome?_cons, Value.amount?]
    | _ => simp [shown, since, he]

theorem entries_map (f : HistoryEntry → β) (g : Receipt → Value → β)
    (h : ∀ r v, f ⟨r.version, r.sequence, r.event.value, v⟩ = g r v) (receipts : List Receipt)
    (fit : ∀ r ∈ receipts, spec.check r.event.value = .ok ()) :
    (spec.entries receipts).map f = receipts.map fun r =>
      g r (spec.shown (spec.origin? (receipts.map (·.event.value))) r.event.value) := by
  cases receipts with
  | nil => rfl
  | cons first more =>
    have accepts {r : Receipt} (hr : r ∈ first :: more) : spec.shape.accepts r.event.value = true :=
      check_eq_ok.1 (fit r hr)
    rw [entries, List.map_map]
    refine List.map_congr_left fun r hr => ?_
    rw [List.map_cons, shown_of_accepts (accepts List.mem_cons_self) (accepts hr)]
    exact h r _

end StreamSpec

/-- An entry is known by its numbers and what was read. -/
theorem HistoryEntry.list_ext {l l' : List HistoryEntry}
    (numbers : l.map (fun e => (e.version, e.sequence, e.input)) =
      l'.map fun e => (e.version, e.sequence, e.input))
    (values : l.map (fun e => (e.input, e.value)) = l'.map fun e => (e.input, e.value)) :
    l = l' := by
  have both := congrArg₂ List.zip numbers values
  rw [List.zip_map', List.zip_map'] at both
  refine List.map_injective_iff.2 ?_ both
  rintro ⟨⟩ ⟨⟩ h
  simp_all

namespace Receipt

/-- The receipt is among the newest of its stream. -/
def Kept (limit : Nat) (receipts : List Receipt) (r : Receipt) : Prop :=
  r.sequence ∈ (Stream.keepNewest limit (ofStream r.event.stream receipts)).map (·.sequence)

instance (limit : Nat) (receipts : List Receipt) : DecidablePred (Kept limit receipts) :=
  fun _ => inferInstanceAs (Decidable (_ ∈ _))

def logged (r : Receipt) : LoggedEvent := ⟨r.sequence, r.event.stream, r.event.value⟩

variable {receipts : List Receipt}

theorem Numbered.increasing (h : Numbered receipts) :
    receipts.Pairwise (·.sequence < ·.sequence) := by
  have := List.pairwise_lt_range (n := receipts.length)
  rw [← h.sequences, List.pairwise_map] at this
  exact this

/-- Picking the kept receipts of a stream leaves the newest. -/
theorem Numbered.filter_kept (h : Numbered receipts) (limit : Nat) (name : String) :
    (receipts.filter (Kept limit receipts)).filter (·.event.stream = name) =
      Stream.keepNewest limit (ofStream name receipts) := by
  have swap : (receipts.filter (Kept limit receipts)).filter (·.event.stream = name) =
      (ofStream name receipts).filter fun r =>
        r.sequence ∈ (Stream.keepNewest limit (ofStream name receipts)).map (·.sequence) := by
    rw [ofStream, List.filter_filter, List.filter_filter]
    refine List.filter_congr fun r _ => ?_
    by_cases hr : r.event.stream = name
    · simp [Kept, ofStream, hr]
    · simp [hr]
  have nodup : ((ofStream name receipts).map (·.sequence)).Nodup := by
    have hsub : (ofStream name receipts).Sublist receipts := List.filter_sublist
    rw [List.nodup_iff_pairwise_ne, List.pairwise_map]
    exact (h.increasing.sublist hsub).imp Nat.ne_of_lt
  exact swap.trans (List.filter_key_mem nodup (List.drop_sublist ..))

end Receipt

namespace Registry

variable {r : Registry} {catalog : Catalog} {limit : Nat} {taken : List StreamEvent}
  {done : List Receipt} {e : StreamEvent} {name : String} {x : Stream}

/-! ### Accepted and refused calls -/

theorem Keeps.record_of_not_fits (h : r.Keeps catalog done) (he : ¬ catalog.Fits e) :
    ∃ error, r.record e.stream e.value = .error error := by
  cases hr : r.record e.stream e.value with
  | error error => exact ⟨error, rfl⟩
  | ok result =>
    obtain ⟨x, x', hx, hx', -⟩ := record_eq_ok hr
    exact absurd ⟨x.spec, by rw [← h.specs, hx]; rfl, (Stream.record_eq_ok hx').1⟩ he

/-- Of the calls those are numbered that fit. -/
theorem Keeps.receive (h : r.Keeps catalog done) (calls : List StreamEvent) :
    (r.receipts calls).map (·.event) = calls.filter (catalog.Fits ·) ∧
      (calls.foldl takeIn r).Keeps catalog (done ++ r.receipts calls) := by
  induction calls generalizing r done with
  | nil => exact ⟨rfl, by simpa [receipts] using h⟩
  | cons e rest ih =>
    by_cases he : catalog.Fits e
    · obtain ⟨spec, hspec, hv⟩ := id he
      obtain ⟨recorded, r', hr, hk, -⟩ := h.record hspec hv
      obtain ⟨hevents, hkeeps⟩ := ih hk
      rw [List.append_assoc] at hkeeps
      simp only [receipts, takeIn_eq_record, hr, List.foldl_cons, List.map_cons, hevents]
      exact ⟨by simp [he], hkeeps⟩
    · obtain ⟨error, hr⟩ := h.record_of_not_fits he
      simp only [receipts, takeIn_eq_record, hr, List.foldl_cons]
      rw [List.filter_cons_of_neg (by simpa using he)]
      exact ih h

theorem Has.receive (h : r.Has catalog limit taken) (calls : List StreamEvent) :
    (calls.foldl takeIn r).Has catalog limit (taken ++ calls.filter (catalog.Fits ·)) := by
  induction calls generalizing r taken with
  | nil => simpa using h
  | cons e rest ih =>
    rw [List.foldl_cons]
    by_cases he : catalog.Fits e
    · obtain ⟨recorded, r', hr, hr'⟩ := h.record he
      have htake : r.takeIn e = r' := by simp [takeIn_eq_record, hr]
      have hfilter : (e :: rest).filter (catalog.Fits ·) = e :: rest.filter (catalog.Fits ·) :=
        List.filter_cons_of_pos (decide_eq_true he)
      rw [hfilter, htake]
      simpa using ih hr'
    · rw [List.filter_cons_of_neg (by simpa using he), h.takeIn_of_not_fits he]
      exact ih h

/-! ### The history of a stream and the log -/

/-- The history of a stream are the newest of all its entries. -/
theorem Has.history (h : r.Has catalog limit (done.map (·.event))) (hk : r.Keeps catalog done)
    (hx : r.stream? name = some x) : x.history =
      Stream.keepNewest (max limit 1) (x.spec.entries (Receipt.ofStream name done)) := by
  obtain ⟨hlimit, hmeasures⟩ := h.measures name x hx
  have fit (receipt : Receipt) (hr : receipt ∈ Receipt.ofStream name done) :
      x.spec.check receipt.event.value = .ok () := by
    obtain ⟨hr, hname⟩ := List.mem_filter.1 hr
    obtain ⟨spec, hspec, hv⟩ := h.fit receipt.event (List.mem_map_of_mem hr)
    rw [of_decide_eq_true hname, ← hk.specs, hx, Option.map_some] at hspec
    obtain rfl := Option.some.inj hspec
    exact hv
  have values : StreamEvent.valuesOf name (done.map (·.event)) =
      (Receipt.ofStream name done).map (·.event.value) := by
    rw [StreamEvent.valuesOf, List.filter_map, List.map_map]
    rfl
  refine HistoryEntry.list_ext ?_ ?_
  · rw [(hk.took name x hx).history, Stream.keepNewest_map, hlimit,
      StreamSpec.entries_map _ (fun r _ => (r.version, r.sequence, r.event.value)) (fun _ _ => rfl) _
        fit]
  · have readings := hmeasures.readings
    rw [values, List.map_map, hlimit] at readings
    rw [Stream.keepNewest_map,
      StreamSpec.entries_map _ (fun r v => (r.event.value, v)) (fun _ _ => rfl) _ fit]
    exact readings

/-- The log has what the streams have kept, in the order of its recording. -/
theorem Has.eventLog_eq (h : r.Has catalog limit (done.map (·.event))) (hk : r.Keeps catalog done) :
    r.eventLog = (done.filter (Receipt.Kept (max limit 1) done)).map Receipt.logged := by
  have same (name : String) : r.eventLog.filter (·.stream = name) =
      ((done.filter (Receipt.Kept (max limit 1) done)).map Receipt.logged).filter
        (·.stream = name) := by
    have kept := hk.numbered.filter_kept (max limit 1) name
    have later : ((done.filter (Receipt.Kept (max limit 1) done)).map Receipt.logged).filter
        (·.stream = name) =
          (Stream.keepNewest (max limit 1) (Receipt.ofStream name done)).map Receipt.logged := by
      rw [List.filter_map, ← kept]
      rfl
    rw [later]
    cases hx : r.stream? name with
    | some x =>
      have logged : x.history.map (HistoryEntry.logged name) =
          ((x.history.map fun e => (e.version, e.sequence, e.input)).map fun p =>
            (⟨p.2.1, name, p.2.2⟩ : LoggedEvent)) := by
        rw [List.map_map]
        rfl
      rw [h.eventLog_filter hx, logged, (hk.took name x hx).history, (h.measures name x hx).1,
        Stream.keepNewest_map, Stream.keepNewest_map, List.map_map]
      refine congrArg _ (List.map_congr_left fun receipt hr => ?_)
      have hname := of_decide_eq_true (List.mem_filter.1 hr).2
      simp [Receipt.logged, hname]
    | none =>
      have hnone : catalog.get? name = none := by rw [← hk.specs, hx, Option.map_none]
      have nothing : Receipt.ofStream name done = [] := by
        refine List.filter_eq_nil_iff.2 fun receipt hr hs => ?_
        have hsome := hk.known receipt hr
        rw [of_decide_eq_true hs, hnone] at hsome
        cases hsome
      rw [nothing, Stream.keepNewest, List.drop_nil, List.map_nil]
      refine List.filter_eq_nil_iff.2 fun e he hs => ?_
      obtain ⟨spec, hspec, -⟩ := h.fits_of_mem_eventLog he
      have hstream : e.event.stream = name := of_decide_eq_true hs
      rw [hstream, hnone] at hspec
      cases hspec
  refine LoggedEvent.eq_of_perm (List.perm_of_filter_eq LoggedEvent.stream same) r.eventLog_sorted ?_
  rw [List.pairwise_map]
  exact hk.numbered.increasing.sublist List.filter_sublist

/-- For every catalog and limit, after all calls there were: a call that does not fit is refused and
changes nothing; those that fit are numbered from zero in their order, and on each stream from one; a
stream has counted all of its own and has the newest of them, with what programs read of them; and the
log is what the streams have, in the order of the calls. -/
theorem ledger_exact (catalog : Catalog) (limit : Nat) (calls : List StreamEvent) :
    let r := calls.foldl takeIn (new catalog limit)
    let done := (new catalog limit).receipts calls
    (∀ e, ¬ catalog.Fits e →
      (∃ error, r.record e.stream e.value = .error error) ∧ r.takeIn e = r) ∧
    done.map (·.event) = calls.filter (catalog.Fits ·) ∧ Receipt.Numbered done ∧
    r.sequence = done.length ∧
    (∀ name, (r.stream? name).map (·.spec) = catalog.get? name) ∧
    (∀ name x, r.stream? name = some x → x.version = (Receipt.ofStream name done).length ∧
      x.history = Stream.keepNewest (max limit 1) (x.spec.entries (Receipt.ofStream name done))) ∧
    r.eventLog = (done.filter (Receipt.Kept (max limit 1) done)).map Receipt.logged := by
  intro r done
  obtain ⟨hevents, hk⟩ := (Keeps.new catalog limit).receive calls
  have h := (has_new catalog limit).receive calls
  rw [List.nil_append] at hk h
  have h : r.Has catalog limit (done.map (·.event)) := hevents ▸ h
  exact ⟨fun e he => ⟨hk.record_of_not_fits he, h.takeIn_of_not_fits he⟩, hevents, hk.numbered,
    hk.sequence, hk.specs, fun name x hx => ⟨(hk.took name x hx).version, h.history hk hx⟩,
    h.eventLog_eq hk⟩

/-- Of the readings and keys, two for each stream are kept; the first key is gone from the log. -/
theorem desk_ledger : Desk.original.sequence = 5 ∧
    Desk.original.eventLog.map (fun e => (e.sequence, e.stream)) =
      [(0, "time"), (2, "keyboard"), (3, "time"), (4, "keyboard")] := by
  obtain ⟨-, -, -, hsequence, -, -, hlog⟩ := ledger_exact Desk.catalog 2 Desk.events
  refine ⟨hsequence.trans (by decide +kernel), ?_⟩
  have hlog : Desk.original.eventLog = _ := hlog
  rw [hlog]
  decide +kernel

end Registry
end StreamLang
