import StreamLang.Proofs.Stream.Receipts
/-!
Events and openings and closings of streams do not get in each other's way: a registry that takes in
events before a stream is opened or closed is the same as one that takes them in after, and the same
readers are told.
-/
namespace StreamLang

namespace Assoc

variable {α : Type u} {β : Type v} [DecidableEq α]

theorem put_put (k : α) (v w : β) (a : Assoc α β) : put k w (put k v a) = put k w a := by
  induction a with
  | nil => simp [put]
  | cons p rest ih =>
    obtain ⟨k', v'⟩ := p
    by_cases hk : k' = k
    · simp [put, hk]
    · simp [put, hk, ih]

/-- Keys that are both present can be written to in any order. -/
theorem put_comm {k l : α} (hkl : k ≠ l) (v w : β) {a : Assoc α β} (hk : (get? k a).isSome)
    (hl : (get? l a).isSome) : put k v (put l w a) = put l w (put k v a) := by
  induction a with
  | nil => cases hk
  | cons p rest ih =>
    obtain ⟨k', v'⟩ := p
    by_cases hk' : k' = k
    · subst hk'
      simp [put, hkl]
    · by_cases hl' : k' = l
      · subst hl'
        simp [put, hk']
      · simp only [get?, hk', hl', if_false] at hk hl
        simp [put, hk', hl', ih hk hl]

end Assoc

/-- An event is recorded alike by an open and by a closed stream. -/
theorem Stream.record_available (s : Stream) (available : Bool) (v : Value) (n : Nat) :
    { s with available }.record v n =
      (s.record v n).map fun s' => { s' with available } := by
  rw [record_eq, record_eq]
  cases s.spec.check v <;> rfl

namespace Registry

variable {r : Registry}

/-- The readers that are told when an event is taken in. -/
def heard (r : Registry) (e : StreamEvent) : List NodeId :=
  match r.record e.stream e.value with
  | .ok (recorded, _) => recorded.readers
  | .error _ => []

/-- Opens or closes a stream, if there is such a stream. -/
def switch (r : Registry) (name : String) (available : Bool) : Registry :=
  match r.stream? name with
  | none => r
  | some s => r.set name { s with available }

theorem takeIn_eq (r : Registry) (e : StreamEvent) : r.takeIn e =
    match r.stream? e.stream with
    | none => r
    | some s =>
      match s.record e.value r.sequence with
      | .error _ => r
      | .ok s' => { r.set e.stream s' with sequence := r.sequence + 1 } := by
  rw [takeIn_eq_record, record_eq]
  cases r.stream? e.stream with
  | none => rfl
  | some s => cases h : s.record e.value r.sequence <;> simp [h, Except.map]

theorem heard_eq (r : Registry) (e : StreamEvent) : r.heard e =
    match r.stream? e.stream with
    | none => []
    | some s => if (s.spec.check e.value).isOk then s.readers else [] := by
  rw [heard, record_eq]
  cases r.stream? e.stream with
  | none => rfl
  | some s =>
    simp only [Stream.record_eq]
    cases s.spec.check e.value <;> rfl

/-- What matters to those who are told: no event changes it, nor does opening or closing. -/
def telling (r : Registry) (name : String) : Option (StreamSpec × List NodeId) :=
  (r.stream? name).map fun s => (s.spec, s.readers)

theorem heard_congr {r r' : Registry} {e : StreamEvent}
    (h : r'.telling e.stream = r.telling e.stream) : r'.heard e = r.heard e := by
  have told (r : Registry) : r.heard e = match r.telling e.stream with
      | none => []
      | some x => if (x.1.check e.value).isOk then x.2 else [] := by
    rw [heard_eq, telling]
    cases r.stream? e.stream <;> rfl
  rw [told, told, h]

theorem telling_switch (r : Registry) (name other : String) (available : Bool) :
    (r.switch name available).telling other = r.telling other := by
  unfold switch
  cases hs : r.stream? name with
  | none => rfl
  | some s =>
    rw [telling, stream?_set]
    split
    · subst other
      rw [telling, hs]
      rfl
    · rfl

theorem stream?_takeIn (r : Registry) (e : StreamEvent) (name : String) :
    ((r.takeIn e).stream? name).map (fun s => (s.available, s.spec, s.readers)) =
      (r.stream? name).map fun s => (s.available, s.spec, s.readers) := by
  rw [takeIn_eq]
  cases hs : r.stream? e.stream with
  | none => rfl
  | some s =>
    cases hr : s.record e.value r.sequence with
    | error x => simp only [hr]
    | ok s' =>
      obtain ⟨-, version, origin, history, rfl⟩ := Stream.record_eq_ok hr
      simp only [hr]
      show ((r.set e.stream _).stream? name).map _ = _
      rw [stream?_set]
      split
      · subst name
        rw [hs]
        rfl
      · rfl

theorem stream?_takeInAll (events : List StreamEvent) (r : Registry) (name : String) :
    ((events.foldl takeIn r).stream? name).map (fun s => (s.available, s.spec, s.readers)) =
      (r.stream? name).map fun s => (s.available, s.spec, s.readers) := by
  induction events generalizing r with
  | nil => rfl
  | cons e rest ih => exact (ih _).trans (r.stream?_takeIn e name)

theorem telling_takeInAll (events : List StreamEvent) (r : Registry) (name : String) :
    (events.foldl takeIn r).telling name = r.telling name := by
  have h := congrArg (Option.map fun x : Bool × StreamSpec × List NodeId => x.2)
    (r.stream?_takeInAll events name)
  rwa [Option.map_map, Option.map_map] at h

theorem telling_takeIn (r : Registry) (e : StreamEvent) (name : String) :
    (r.takeIn e).telling name = r.telling name := r.telling_takeInAll [e] name

/-- An event may be taken in before a stream is opened or closed, or after. -/
theorem takeIn_switch (r : Registry) (name : String) (available : Bool) (e : StreamEvent) :
    (r.switch name available).takeIn e = (r.takeIn e).switch name available := by
  cases hs : r.stream? name with
  | none =>
    have hnone : (r.takeIn e).stream? name = none := by
      have := r.stream?_takeIn e name
      rw [hs] at this
      exact Option.map_eq_none_iff.1 this
    simp [switch, hs, hnone]
  | some s =>
    have hswitch : r.switch name available = r.set name { s with available } := by
      simp [switch, hs]
    by_cases hname : e.stream = name
    · subst hname
      have hset : (r.set e.stream { s with available }).stream? e.stream =
          some { s with available } := by simp [stream?_set]
      have hrecord := s.record_available available e.value r.sequence
      rw [hswitch, takeIn_eq, takeIn_eq, hset, hs]
      cases hr : s.record e.value r.sequence with
      | error x =>
        rw [hr] at hrecord
        simp only [show (r.set e.stream { s with available }).sequence = r.sequence from rfl, hr,
          hrecord, Except.map, hswitch]
      | ok s' =>
        rw [hr] at hrecord
        simp only [show (r.set e.stream { s with available }).sequence = r.sequence from rfl, hr,
          hrecord, Except.map]
        have hs' : ({ r.set e.stream s' with sequence := r.sequence + 1 } : Registry).stream?
            e.stream = some s' := by
          show (r.set e.stream s').stream? e.stream = some s'
          simp [stream?_set]
        rw [switch, hs']
        simp [set, Assoc.put_put]
    · have hother : (r.set name { s with available }).stream? e.stream = r.stream? e.stream := by
        rw [stream?_set, if_neg (Ne.symm hname)]
      rw [hswitch, takeIn_eq, takeIn_eq, hother]
      cases he : r.stream? e.stream with
      | none => simp [hswitch]
      | some x =>
        simp only [show (r.set name { s with available }).sequence = r.sequence from rfl]
        cases hr : x.record e.value r.sequence with
        | error y => simp [hswitch]
        | ok x' =>
          have hs' : ({ r.set e.stream x' with sequence := r.sequence + 1 } : Registry).stream?
              name = some s := by
            show (r.set e.stream x').stream? name = some s
            rw [stream?_set, if_neg hname, hs]
          simp only [switch, hs']
          simp only [set]
          rw [Assoc.put_comm hname]
          · simpa [stream?] using congrArg Option.isSome he
          · simpa [stream?] using congrArg Option.isSome hs

theorem takeInAll_switch (events : List StreamEvent) (r : Registry) (name : String)
    (available : Bool) : events.foldl takeIn (r.switch name available) =
      (events.foldl takeIn r).switch name available := by
  induction events generalizing r with
  | nil => rfl
  | cons e rest ih =>
    rw [List.foldl_cons, List.foldl_cons, takeIn_switch, ih]

/-- Opening or closing a stream tells its readers, if that changes anything. -/
theorem setAvailable_eq (r : Registry) (name : String) (available : Bool) :
    r.setAvailable name available =
      match r.stream? name with
      | none => .error (.unknownStream name)
      | some s => .ok (if s.available = available then [] else s.readers, r.switch name available) := by
  unfold setAvailable switch
  cases hs : r.stream? name with
  | none => rfl
  | some s =>
    by_cases ha : s.available = available
    · subst ha
      simp [set_of_stream? hs]
    · simp [ha]

/-- Subscribing those that are readers already changes nothing. -/
theorem subscribeAll_of_subscribed {t : Tree} (h : r.Subscribed t)
    {subscriptions : List (String × NodeId)}
    (hs : ∀ s ∈ subscriptions, s ∈ (Analysis.ofTree t).readers) :
    r.subscribeAll subscriptions = r := by
  induction subscriptions with
  | nil => rfl
  | cons p rest ih =>
    obtain ⟨name, i⟩ := p
    obtain ⟨k, hk, hstream⟩ := Analysis.mem_readers.1 (hs (name, i) List.mem_cons_self)
    have hsubscribe : (r.subscribe name i).2 = r := by
      unfold subscribe
      cases hx : r.stream? name with
      | none => rfl
      | some x =>
        have hpush : pushNew x.readers i = x.readers := if_pos (h i k name x hk hstream hx)
        simp only [hpush]
        exact set_of_stream? hx
    have : r.subscribeAll ((name, i) :: rest) = (r.subscribe name i).2.subscribeAll rest := rfl
    rw [this, hsubscribe]
    exact ih fun s hmem => hs s (List.mem_cons_of_mem _ hmem)

end Registry
end StreamLang
