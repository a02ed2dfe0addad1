import StreamLang.Proofs.Reuse.Readers
/-!
Every event that is recorded gets two numbers: one among the events of all streams and one among those
of its stream, its version. A registry keeps what it has recorded as long as each stream counts its
own events and keeps the newest of them. It takes every event that the inbox has accepted.
-/
namespace StreamLang

/-- An event as it was recorded. -/
structure Receipt where
  event : StreamEvent
  /-- The position among the events of all streams. -/
  sequence : Nat
  version : Nat

/-- The receipts of one stream. -/
def Receipt.ofStream (stream : String) (receipts : List Receipt) : List Receipt :=
  receipts.filter (·.event.stream = stream)

/-- Events are numbered in turn, from zero all together and from one on each stream. -/
structure Receipt.Numbered (receipts : List Receipt) : Prop where
  sequences : receipts.map (·.sequence) = List.range receipts.length
  versions : ∀ stream, (ofStream stream receipts).map (·.version) =
    List.range' 1 (ofStream stream receipts).length

namespace Receipt

variable {stream : String} {receipts earlier later : List Receipt} {r : Receipt}

theorem ofStream_append (stream : String) (receipts more : List Receipt) :
    ofStream stream (receipts ++ more) = ofStream stream receipts ++ ofStream stream more :=
  List.filter_append ..

theorem ofStream_singleton (stream : String) (r : Receipt) :
    ofStream stream [r] = if r.event.stream = stream then [r] else [] := by
  by_cases h : r.event.stream = stream <;> simp [ofStream, h]

theorem mem_ofStream (h : r ∈ receipts) : r ∈ ofStream r.event.stream receipts :=
  List.mem_filter.2 ⟨h, by simp⟩

theorem Numbered.nil : Numbered [] := ⟨rfl, fun _ => rfl⟩

/-- The next event goes on with both numbers. -/
theorem Numbered.snoc (h : Numbered receipts) (hs : r.sequence = receipts.length)
    (hv : r.version = (ofStream r.event.stream receipts).length + 1) :
    Numbered (receipts ++ [r]) := by
  refine ⟨?_, fun stream => ?_⟩
  · simp [h.sequences, hs, List.range_succ]
  · rw [ofStream_append, ofStream_singleton]
    split
    · subst stream
      rw [List.map_append, h.versions, List.length_append, List.length_singleton,
      List.range'_1_concat, List.map_singleton, hv, Nat.add_comm]
    · simpa using h.versions stream

/-- Versions tell what was recorded before and after. -/
theorem Numbered.version_bounds {recorded : List Receipt}
    (h : Numbered (earlier ++ recorded ++ later)) (hr : r ∈ recorded) :
    (ofStream r.event.stream earlier).length < r.version ∧
      r.version ≤ (ofStream r.event.stream (earlier ++ recorded)).length := by
  have hv := h.versions r.event.stream
  obtain ⟨i, hi, hget⟩ := List.getElem_of_mem (mem_ofStream hr)
  rw [ofStream_append, ofStream_append, List.append_assoc] at hv
  have hlt : (ofStream r.event.stream earlier).length + i <
      (ofStream r.event.stream earlier ++ (ofStream r.event.stream recorded ++
        ofStream r.event.stream later)).length := by
    simp only [List.length_append]
    omega
  have hat := congrArg (·[(ofStream r.event.stream earlier).length + i]?) hv
  simp only [List.getElem?_map, List.getElem?_range' hlt,
    List.getElem?_append_right (Nat.le_add_right _ i), Nat.add_sub_cancel_left,
    List.getElem?_append_left hi, List.getElem?_eq_getElem hi, hget, Option.map_some,
    Option.some.injEq] at hat
  rw [ofStream_append, List.length_append]
  omega

end Receipt

namespace Stream

theorem keepNewest_map (limit : Nat) (f : α → β) (history : List α) :
    (keepNewest limit history).map f = keepNewest limit (history.map f) := by
  simp [keepNewest]

/-- What is dropped once need not be dropped again. -/
theorem keepNewest_append (limit : Nat) (history more : List α) :
    keepNewest limit (keepNewest limit history ++ more) = keepNewest limit (history ++ more) := by
  simp only [keepNewest, List.drop_append, List.length_append, List.length_drop, List.drop_drop]
  congr 2 <;> omega

/-- A stream has taken such events: it has counted them and keeps the newest. -/
structure Took (x : Stream) (taken : List Receipt) : Prop where
  version : x.version = taken.length
  history : x.history.map (fun e => (e.version, e.sequence, e.input)) =
    keepNewest x.limit (taken.map fun r => (r.version, r.sequence, r.event.value))

/-- The part of a stream that only recording changes. -/
def ledger (x : Stream) : StreamSpec × Nat × List HistoryEntry × Nat × Option Amount :=
  (x.spec, x.version, x.history, x.limit, x.origin)

theorem Took.of_ledger {x x' : Stream} {taken : List Receipt} (h : x.Took taken)
    (he : x'.ledger = x.ledger) : x'.Took taken := by
  simp only [ledger, Prod.mk.injEq] at he
  obtain ⟨-, hv, hh, hl, -⟩ := he
  exact ⟨hv.trans h.version, by rw [hh, hl]; exact h.history⟩

theorem took_new (spec : StreamSpec) (limit : Nat) : (new spec limit).Took [] :=
  ⟨rfl, by simp [new, keepNewest]⟩

/-- A stream takes every event that fits it. -/
theorem exists_record {x : Stream} {v : Value} (hv : x.spec.check v = .ok ()) (sequence : Nat) :
    ∃ x', x.record v sequence = .ok x' ∧ x'.spec = x.spec ∧ x'.observed = x.observed ∧
      x'.version = x.version + 1 ∧ x'.limit = x.limit ∧ ∃ value, x'.history =
        keepNewest x.limit (x.history ++ [⟨x.version + 1, sequence, v, value⟩]) := by
  rw [record_eq, hv]
  exact ⟨_, rfl, rfl, rfl, rfl, rfl, _, rfl⟩

end Stream

namespace Registry

/-- The receipts for events that are recorded one after another. A refused event gets none. -/
def receipts : Registry → List StreamEvent → List Receipt
  | _, [] => []
  | r, e :: rest =>
    match r.record e.stream e.value with
    | .ok (recorded, r') => ⟨e, r.sequence, recorded.version⟩ :: receipts r' rest
    | .error _ => receipts r rest

/-- What becomes of a registry that is given an event, be it accepted or refused. -/
def takeIn (r : Registry) (e : StreamEvent) : Registry :=
  match (take e.stream e.value).run r with
  | .ok _ r => r
  | .error _ r => r

theorem takeIn_eq_record (r : Registry) (e : StreamEvent) : r.takeIn e =
    match r.record e.stream e.value with
    | .ok (_, r) => r
    | .error _ => r := by
  unfold takeIn record
  cases h : (take e.stream e.value).run r with
  | ok recorded r' => rfl
  | error error r' => exact eq_of_take_error h

/-- The version of a stream that the last committed pass saw. -/
def observed (r : Registry) (stream : String) : Nat := ((r.stream? stream).map (·.observed)).getD 0

/-- A registry for the streams of a catalog that has recorded such events. -/
structure Keeps (r : Registry) (catalog : Catalog) (receipts : List Receipt) : Prop where
  specs : ∀ name, (r.stream? name).map (·.spec) = catalog.get? name
  sequence : r.sequence = receipts.length
  numbered : Receipt.Numbered receipts
  known : ∀ receipt ∈ receipts, (catalog.get? receipt.event.stream).isSome
  took : ∀ name x, r.stream? name = some x → x.Took (Receipt.ofStream name receipts)

/-- The registry has the same streams with the same events. -/
def SameEvents (r r' : Registry) : Prop :=
  r'.sequence = r.sequence ∧
    ∀ name, (r'.stream? name).map Stream.ledger = (r.stream? name).map Stream.ledger

variable {r r' r'' : Registry} {catalog : Catalog} {done : List Receipt}

theorem SameEvents.refl (r : Registry) : SameEvents r r := ⟨rfl, fun _ => rfl⟩

theorem SameEvents.trans (h : SameEvents r r') (h' : SameEvents r' r'') : SameEvents r r'' :=
  ⟨h'.1.trans h.1, fun name => (h'.2 name).trans (h.2 name)⟩

theorem SameEvents.set {name : String} {x x' : Stream} (hx : r.stream? name = some x)
    (h : x'.ledger = x.ledger) : SameEvents r (r.set name x') := by
  refine ⟨rfl, fun other => ?_⟩
  rw [stream?_set]
  split
  · subst other
    rw [hx, Option.map_some, Option.map_some, h]
  · rfl

theorem sameEvents_subscribe (r : Registry) (name : String) (i : NodeId) :
    SameEvents r (r.subscribe name i).2 := by
  unfold subscribe
  cases hx : r.stream? name with
  | none => exact .refl r
  | some x => exact .set hx rfl

theorem sameEvents_subscribeAll (subscriptions : List (String × NodeId)) (r : Registry) :
    SameEvents r (r.subscribeAll subscriptions) := by
  induction subscriptions generalizing r with
  | nil => exact .refl r
  | cons p rest ih => exact (sameEvents_subscribe r p.1 p.2).trans (ih _)

theorem sameEvents_unsubscribeAll (r : Registry) : SameEvents r r.unsubscribeAll := by
  refine ⟨rfl, fun name => ?_⟩
  rw [unsubscribeAll, stream?_mapStreams, Option.map_map]
  rfl

theorem sameEvents_markObserved (r : Registry) (seen : Snapshot) :
    SameEvents r (r.markObserved seen) := by
  refine ⟨rfl, fun name => ?_⟩
  rw [stream?_markObserved, Option.map_map]
  congr 1
  funext x
  simp only [Function.comp_apply]
  split <;> rfl

theorem sameEvents_setAvailable {name : String} {available : Bool} {readers : List NodeId}
    (h : r.setAvailable name available = .ok (readers, r')) : SameEvents r r' := by
  unfold setAvailable at h
  cases hx : r.stream? name with
  | none => simp [hx] at h
  | some x =>
    simp only [hx] at h
    split at h
    · cases h
      exact .refl r
    · cases h
      exact .set hx rfl

theorem observed_set {name : String} {x x' : Stream} (hx : r.stream? name = some x)
    (h : x'.observed = x.observed) (stream : String) :
    (r.set name x').observed stream = r.observed stream := by
  rw [observed, stream?_set]
  split
  · subst stream
    simp [observed, hx, h]
  · rfl

@[simp] theorem observed_subscribe (r : Registry) (name : String) (i : NodeId) (stream : String) :
    (r.subscribe name i).2.observed stream = r.observed stream := by
  unfold subscribe
  cases hx : r.stream? name with
  | none => rfl
  | some x =>
    refine observed_set hx ?_ stream
    rfl

@[simp] theorem observed_subscribeAll (subscriptions : List (String × NodeId)) (r : Registry)
    (stream : String) : (r.subscribeAll subscriptions).observed stream = r.observed stream := by
  induction subscriptions generalizing r with
  | nil => rfl
  | cons p rest ih => exact (ih _).trans (observed_subscribe r p.1 p.2 stream)

@[simp] theorem observed_unsubscribeAll (r : Registry) (stream : String) :
    r.unsubscribeAll.observed stream = r.observed stream := by
  rw [observed, unsubscribeAll, stream?_mapStreams, Option.map_map]
  rfl

theorem observed_setAvailable {name : String} {available : Bool} {readers : List NodeId}
    (h : r.setAvailable name available = .ok (readers, r')) (stream : String) :
    r'.observed stream = r.observed stream := by
  unfold setAvailable at h
  cases hx : r.stream? name with
  | none => simp [hx] at h
  | some x =>
    simp only [hx] at h
    split at h
    · cases h
      rfl
    · cases h
      refine observed_set hx ?_ stream
      rfl

/-- After a commit, the versions of the snapshot have been seen. -/
theorem observed_markObserved_snapshot (r r' : Registry) (pass : Nat) (stream : String)
    (h : SameEvents r r') :
    (r'.markObserved (r.snapshot pass)).observed stream =
      ((r.stream? stream).map (·.version)).getD 0 := by
  have hs := h.2 stream
  rw [observed, stream?_markObserved, snapshot_get?, Option.map_map]
  cases hx : r.stream? stream with
  | none =>
    rw [hx] at hs
    rw [Option.map_eq_none_iff.1 hs]
    rfl
  | some x =>
    rw [hx] at hs
    obtain ⟨x', hx', -⟩ := Option.map_eq_some_iff.1 hs
    rw [hx']
    rfl

theorem stream?_new (catalog : Catalog) (limit : Nat) (name : String) :
    (new catalog limit).stream? name = (catalog.get? name).map fun spec => Stream.new spec limit :=
  Assoc.get?_map (fun _ spec => Stream.new spec limit) name catalog.specs

theorem observed_new (catalog : Catalog) (limit : Nat) (stream : String) :
    (new catalog limit).observed stream = 0 := by
  rw [observed, stream?_new]
  cases catalog.get? stream <;> rfl

theorem Keeps.new (catalog : Catalog) (limit : Nat) :
    (Registry.new catalog limit).Keeps catalog [] := by
  have hs := stream?_new catalog limit
  refine ⟨fun name => ?_, rfl, .nil, fun _ h => absurd h List.not_mem_nil, fun name x hx => ?_⟩
  · rw [hs, Option.map_map]
    exact Option.map_id'
  · rw [hs] at hx
    obtain ⟨spec, -, rfl⟩ := Option.map_eq_some_iff.1 hx
    exact Stream.took_new spec limit

theorem Keeps.same (h : r.Keeps catalog done) (hs : SameEvents r r') : r'.Keeps catalog done := by
  refine ⟨fun name => ?_, hs.1.trans h.sequence, h.numbered, h.known, fun name x' hx' => ?_⟩
  · have := congrArg (Option.map Prod.fst) (hs.2 name)
    rw [Option.map_map, Option.map_map] at this
    exact this.trans (h.specs name)
  · have := hs.2 name
    rw [hx', Option.map_some] at this
    obtain ⟨x, hx, he⟩ := Option.map_eq_some_iff.1 this.symm
    exact (h.took name x hx).of_ledger he.symm

/-- The version of a stream is the number of its events. -/
theorem Keeps.version (h : r.Keeps catalog done) (stream : String) :
    ((r.stream? stream).map (·.version)).getD 0 = (Receipt.ofStream stream done).length := by
  cases hx : r.stream? stream with
  | some x => exact (h.took stream x hx).version
  | none =>
    have hnone : catalog.get? stream = none := by rw [← h.specs, hx, Option.map_none]
    have hempty : Receipt.ofStream stream done = [] := List.filter_eq_nil_iff.2 fun receipt hr hs => by
      have hsome := h.known receipt hr
      rw [of_decide_eq_true hs, hnone] at hsome
      cases hsome
    rw [hempty]
    rfl

/-- An event that fits its stream is recorded under the next numbers. -/
theorem Keeps.record (h : r.Keeps catalog done) {e : StreamEvent} {spec : StreamSpec}
    (hspec : catalog.get? e.stream = some spec) (hv : spec.check e.value = .ok ()) :
    ∃ recorded r', r.record e.stream e.value = .ok (recorded, r') ∧
      r'.Keeps catalog (done ++ [⟨e, r.sequence, recorded.version⟩]) ∧
      ∀ stream, r'.observed stream = r.observed stream := by
  obtain ⟨x, hx, rfl⟩ := Option.map_eq_some_iff.1 ((h.specs e.stream).trans hspec)
  obtain ⟨x', hr, hspec', hobserved, hversion, hlimit, value, hhistory⟩ :=
    Stream.exists_record hv r.sequence
  have htook := h.took e.stream x hx
  refine ⟨⟨e.stream, x'.version, x'.readers⟩, { r.set e.stream x' with sequence := r.sequence + 1 },
    ?_, ⟨fun name => ?_, ?_, ?_, fun receipt hreceipt => ?_, fun name y hy => ?_⟩,
    observed_set hx hobserved⟩
  · simp only [record_eq, hx, hr]
    rfl
  · rw [← h.specs name]
    show ((r.set e.stream x').stream? name).map _ = _
    rw [stream?_set]
    split
    · subst name
      rw [hx, Option.map_some, Option.map_some, hspec']
    · rfl
  · simp [h.sequence]
  · exact h.numbered.snoc h.sequence (by rw [hversion, htook.version])
  · rcases List.mem_append.1 hreceipt with hreceipt | hreceipt
    · exact h.known receipt hreceipt
    · rw [List.mem_singleton.1 hreceipt, hspec]
      rfl
  · replace hy : (r.set e.stream x').stream? name = some y := hy
    rw [stream?_set] at hy
    rw [Receipt.ofStream_append, Receipt.ofStream_singleton]
    split at hy
    · subst name
      obtain rfl := Option.some.inj hy
      rw [if_pos rfl]
      refine ⟨by simp [hversion, htook.version], ?_⟩
      rw [hhistory, hlimit, Stream.keepNewest_map, List.map_append, htook.history,
        Stream.keepNewest_append, hversion]
      simp
    · rw [if_neg ‹_›, List.append_nil]
      exact h.took name y hy

/-- Events that fit their streams are all recorded, in order. -/
theorem Keeps.recordAll (h : r.Keeps catalog done) {events : List StreamEvent}
    (fit : ∀ e ∈ events, ∃ spec, catalog.get? e.stream = some spec ∧ spec.check e.value = .ok ()) :
    (r.receipts events).map (·.event) = events ∧
      (events.foldl takeIn r).Keeps catalog (done ++ r.receipts events) ∧
      ∀ stream, (events.foldl takeIn r).observed stream = r.observed stream := by
  induction events generalizing r done with
  | nil => exact ⟨rfl, by simpa [receipts] using h, fun _ => rfl⟩
  | cons e rest ih =>
    obtain ⟨spec, hspec, hv⟩ := fit e List.mem_cons_self
    obtain ⟨recorded, r', hr, hk, ho⟩ := h.record hspec hv
    obtain ⟨hevents, hkeeps, hobserved⟩ := ih hk fun e he => fit e (List.mem_cons_of_mem _ he)
    simp only [receipts, takeIn_eq_record, hr, List.foldl_cons, List.map_cons, hevents, true_and]
    refine ⟨?_, fun stream => (hobserved stream).trans (ho stream)⟩
    rw [List.append_assoc] at hkeeps
    exact hkeeps

end Registry
end StreamLang
