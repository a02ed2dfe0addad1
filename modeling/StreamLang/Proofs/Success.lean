import StreamLang.Engine.Basic
/-!
What a call that may be refused has done when it succeeds.
-/
namespace StreamLang

/-- If a call succeeds that goes on with what another call gives, then both succeed. -/
theorem of_bind_eq_ok {ε α β : Type} {x : Except ε α} {f : α → Except ε β} {b : β}
    (h : x >>= f = .ok b) : ∃ a, x = .ok a ∧ f a = .ok b := by
  cases x with
  | error e => cases h
  | ok a => exact ⟨a, rfl, h⟩

/-- If a call succeeds that makes something of what another call gives, then so does that one. -/
theorem of_map_eq_ok {ε α β : Type} {x : Except ε α} {f : α → β} {b : β} (h : x.map f = .ok b) :
    ∃ a, x = .ok a ∧ f a = b := by
  cases x with
  | error e => cases h
  | ok a => exact ⟨a, rfl, Except.ok.inj h⟩

namespace Stream

/-- An event that does not fit is refused before anything has changed. -/
theorem take_run (s : Stream) (v : Value) (n : Nat) : (take v n).run s =
    match s.spec.check v with
    | .error e => .error e s
    | .ok () => .ok (s.version + 1) { s with
        version := s.version + 1
        origin := (s.observe v).2
        history := keepNewest s.limit (s.history ++ [⟨s.version + 1, n, v, (s.observe v).1⟩]) } := by
  show take v n s = _
  unfold take
  cases s.spec.check v <;> rfl

theorem record_eq (s : Stream) (v : Value) (n : Nat) : s.record v n =
    (s.spec.check v).map fun _ => { s with
      version := s.version + 1
      origin := (s.observe v).2
      history := keepNewest s.limit (s.history ++ [⟨s.version + 1, n, v, (s.observe v).1⟩]) } := by
  rw [record, take_run]
  cases s.spec.check v <;> rfl

end Stream

/-- A stream that takes an event keeps what it is. -/
theorem Stream.record_eq_ok {s s' : Stream} {v : Value} {n : Nat} (h : s.record v n = .ok s') :
    s.spec.check v = .ok () ∧
      ∃ version origin history, s' = { s with version, origin, history } := by
  rw [record_eq] at h
  obtain ⟨u, hu, hs⟩ := of_map_eq_ok h
  exact ⟨hu, _, _, _, hs.symm⟩

namespace Registry

theorem set_of_stream? {r : Registry} {name : String} {s : Stream} (h : r.stream? name = some s) :
    r.set name s = r := by
  have := Assoc.put_of_get? h
  simp [set, this]

/-- A call that is refused has changed nothing. -/
theorem eq_of_take_error {r r' : Registry} {name : String} {v : Value} {e : Error}
    (h : (take name v).run r = .error e r') : r' = r := by
  simp only [take, EStateM.run] at h
  cases hs : r.stream? name with
  | none =>
    rw [hs] at h
    exact (EStateM.Result.error.inj h).2.symm
  | some s =>
    have hrun : Stream.take v r.sequence s = _ := s.take_run v r.sequence
    simp only [hs, hrun] at h
    cases hc : s.spec.check v with
    | error e =>
      simp only [hc, set_of_stream? hs] at h
      exact (EStateM.Result.error.inj h).2.symm
    | ok u => simp [hc] at h

theorem record_eq (r : Registry) (name : String) (v : Value) : r.record name v =
    match r.stream? name with
    | none => .error (.unknownStream name)
    | some s => (s.record v r.sequence).map fun s =>
        (⟨name, s.version, s.readers⟩, { r.set name s with sequence := r.sequence + 1 }) := by
  simp only [record, take, EStateM.run]
  cases r.stream? name with
  | none => rfl
  | some s =>
    have hrun : Stream.take v r.sequence s = _ := s.take_run v r.sequence
    simp only [Stream.record_eq, hrun]
    cases s.spec.check v <;> rfl

end Registry

/-- What a registry takes is taken by the stream that has the name. -/
theorem Registry.record_eq_ok {r r' : Registry} {name : String} {v : Value} {recorded : Recorded}
    (h : r.record name v = .ok (recorded, r')) :
    ∃ s s', r.stream? name = some s ∧ s.record v r.sequence = .ok s' ∧
      r' = { r.set name s' with sequence := r.sequence + 1 } := by
  rw [record_eq] at h
  cases hs : r.stream? name with
  | none => simp [hs] at h
  | some s =>
    simp only [hs] at h
    obtain ⟨s', hr, heq⟩ := of_map_eq_ok h
    exact ⟨s, s', rfl, hr, (Prod.mk.inj heq).2.symm⟩

/-- Only an event that fits its stream comes into the inbox. -/
theorem Inbox.send_eq_ok {b b' : Inbox} {stream : String} {v : Value}
    (h : b.send stream v = .ok b') :
    (∃ spec, b.catalog.get? stream = some spec ∧ spec.check v = .ok ()) ∧
      b' = { b with events := b.events ++ [⟨stream, v⟩] } := by
  unfold send at h
  split at h
  · cases h
  · split at h
    · cases h
    · rename_i spec hspec
      obtain ⟨u, hu, hs⟩ := of_bind_eq_ok h
      exact ⟨⟨spec, hspec, hu⟩, (Except.ok.inj hs).symm⟩

theorem Reactor.setAvailable_eq_ok {r r' : Reactor} {p : Program} {stream : String}
    {available : Bool} (h : r.setAvailable p stream available = .ok r') :
    ∃ readers registry, r.registry.setAvailable stream available = .ok (readers, registry) ∧
      r' = { r with registry, staleness := r.staleness.markAllChanged p readers } := by
  unfold setAvailable at h
  obtain ⟨⟨readers, registry⟩, ha, hr⟩ := of_bind_eq_ok h
  exact ⟨readers, registry, ha, (Except.ok.inj hr).symm⟩

namespace Engine

variable {e e' : Engine}

theorem new_eq_ok {t : Tree} {catalog : Catalog} {config : Config}
    (h : Engine.new t catalog config = .ok e) : ∃ config', e = .load t catalog config' := by
  unfold Engine.new at h
  obtain ⟨config', -, he⟩ := of_bind_eq_ok h
  exact ⟨config', (Except.ok.inj he).symm⟩

/-- A sent event only goes to the inbox. -/
theorem inbox_of_send {stream : String} {v : Value} (h : e.send stream v = .ok e') :
    ∃ inbox, e.reactor.inbox.send stream v = .ok inbox ∧
      e' = { e with reactor := { e.reactor with inbox } } := by
  unfold send Reactor.send at h
  obtain ⟨r, hr, he⟩ := of_bind_eq_ok h
  obtain ⟨inbox, hi, hr⟩ := of_bind_eq_ok hr
  obtain rfl := Except.ok.inj hr
  exact ⟨inbox, hi, (Except.ok.inj he).symm⟩

theorem send_of_addEvent {stream : String} {v : Value} (h : e.addEvent stream v = .ok e') :
    e.send stream v = .ok e' := by
  unfold addEvent at h
  split at h
  · cases h
  · exact h

theorem setAvailable_eq_ok {stream : String} {available : Bool}
    (h : e.setAvailable stream available = .ok e') :
    ∃ r, e.reactor.setAvailable e.program stream available = .ok r ∧
      e' = { e with reactor := r } := by
  unfold setAvailable at h
  obtain ⟨r, hr, he⟩ := of_bind_eq_ok h
  exact ⟨r, hr, (Except.ok.inj he).symm⟩

end Engine
end StreamLang
