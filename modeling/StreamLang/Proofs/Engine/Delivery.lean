import StreamLang.Proofs.Engine.Passes
import StreamLang.Proofs.Stream.Receipts
/-!
Events are delivered exactly once. A chronicle of a session tells which events were accepted, what was
recorded when a pass began, and which passes committed. However these are interleaved with passes that
fail, each accepted event is recorded by the next pass that begins, in order, and is reported as a
change by one committed pass only: the first after that.
-/
namespace StreamLang

/-- What matters to events in a session. -/
inductive Happening where
  /-- An event was accepted from its sender. -/
  | accepted (e : StreamEvent)
  /-- A pass began and took in what waited. -/
  | began (receipts : List Receipt)
  /-- The next tick of the pass committed it. -/
  | committed (p : Pass)

namespace Pass

/-- The snapshot of the pass reports the stream as changed because of the event with this version:
the version is newer than what was observed before, and the snapshot has it. -/
def Reports (p : Pass) (stream : String) (version : Nat) : Prop :=
  ∃ e, p.setting.snapshot.get? stream = some e ∧ e.changed = true ∧
    p.engine.reactor.registry.observed stream < version ∧ version ≤ e.version

end Pass

/-- What a session has come to, with all that happened on the way, the latest first. -/
inductive Chronicle : List Happening → Stage → Prop where
  | new {t catalog config e} (he : Engine.new t catalog config = .ok e) : Chronicle [] (.idle e)
  | addEvent {l e e' stream v} (h : Chronicle l (.idle e)) (hs : e.addEvent stream v = .ok e') :
    Chronicle (.accepted ⟨stream, v⟩ :: l) (.idle e')
  | setAvailable {l e e' stream available} (h : Chronicle l (.idle e))
    (hs : e.setAvailable stream available = .ok e') : Chronicle l (.idle e')
  | defineGlobal {l e} (h : Chronicle l (.idle e)) (name : String) (v : Value) :
    Chronicle l (.idle (e.defineGlobal name v))
  | replaceTree {l e} (h : Chronicle l (.idle e)) (t : Tree) :
    Chronicle l (.idle (e.replaceTree t))
  | start {l e p} (h : Chronicle l (.idle e)) (hs : Pass.start e = .ok p) :
    Chronicle (.began (e.reactor.registry.receipts e.reactor.inbox.events) :: l) (.busy e p)
  | tick {l e p} (h : Chronicle l (.busy e p)) (hc : p.commits = false) :
    Chronicle l (.busy e p.tick)
  | commit {l e p} (h : Chronicle l (.busy e p)) (hc : p.commits = true) :
    Chronicle (.committed p :: l) (.busy e p.tick)
  | sendDuring {l e p e' stream v} (h : Chronicle l (.busy e p))
    (hs : p.engine.send stream v = .ok e') :
    Chronicle (.accepted ⟨stream, v⟩ :: l) (.busy e { p with engine := e' })
  | requestAbort {l e p} (h : Chronicle l (.busy e p)) :
    Chronicle l (.busy e { p with engine := p.engine.requestAbort })
  | leave {l e p} (h : Chronicle l (.busy e p)) : Chronicle l (.idle p.abandon.engine)

/-- A session can do anything at any time, so everything that can be reached has a chronicle. -/
theorem Chronicle.exists_iff {s : Stage} : (∃ l, Chronicle l s) ↔
    Stage.Reached (fun _ => True) (fun _ => True) s := by
  constructor
  · rintro ⟨l, h⟩
    induction h with
    | new he => exact .new trivial he
    | addEvent _ hs ih => exact ih.step (.addEvent hs)
    | setAvailable _ hs ih => exact ih.step (.setAvailable hs)
    | defineGlobal _ name v ih => exact ih.step (.defineGlobal name v)
    | replaceTree _ t ih => exact ih.step (.replaceTree trivial)
    | start _ hs ih => exact ih.step (.start hs)
    | tick _ _ ih => exact ih.step (.tick trivial)
    | commit _ _ ih => exact ih.step (.tick trivial)
    | sendDuring _ hs ih => exact ih.step (.sendDuring hs)
    | requestAbort _ ih => exact ih.step .requestAbort
    | leave _ ih => exact ih.step .leave
  · intro h
    refine h.induction (C := fun s => ∃ l, Chronicle l s) (fun _ _ _ _ _ he => ⟨[], .new he⟩) ?_
    rintro s s' ⟨l, h⟩ hs
    cases hs with
    | addEvent hs => exact ⟨_, h.addEvent hs⟩
    | setAvailable hs => exact ⟨_, h.setAvailable hs⟩
    | defineGlobal name v => exact ⟨_, h.defineGlobal name v⟩
    | replaceTree _ => exact ⟨_, h.replaceTree _⟩
    | start hs => exact ⟨_, h.start hs⟩
    | @tick _ p _ =>
      cases hc : p.commits with
      | false => exact ⟨_, h.tick hc⟩
      | true => exact ⟨_, h.commit hc⟩
    | sendDuring hs => exact ⟨_, h.sendDuring hs⟩
    | requestAbort => exact ⟨_, h.requestAbort⟩
    | leave => exact ⟨_, h.leave⟩

namespace Happening

/-- All accepted events, in order. -/
def allAccepted : List Happening → List StreamEvent
  | [] => []
  | accepted e :: past => allAccepted past ++ [e]
  | _ :: past => allAccepted past

/-- The events accepted since a pass began. -/
def waiting : List Happening → List StreamEvent
  | [] => []
  | accepted e :: past => waiting past ++ [e]
  | began _ :: _ => []
  | committed _ :: past => waiting past

/-- All that was recorded, in order. -/
def receipts : List Happening → List Receipt
  | [] => []
  | began rs :: past => receipts past ++ rs
  | _ :: past => receipts past

/-- What was recorded before a pass committed. -/
def delivered : List Happening → List Receipt
  | [] => []
  | committed _ :: past => receipts past
  | _ :: past => delivered past

variable {past between : List Happening} {rs : List Receipt}

theorem delivered_le_receipts (past : List Happening) : delivered past <+: receipts past := by
  induction past with
  | nil => exact List.prefix_rfl
  | cons x past ih =>
    cases x with
    | accepted e => exact ih
    | began rs => exact ih.trans (List.prefix_append _ _)
    | committed p => exact List.prefix_rfl

theorem receipts_append (between past : List Happening) :
    ∃ more, receipts (between ++ past) = receipts past ++ more := by
  induction between with
  | nil => exact ⟨[], (List.append_nil _).symm⟩
  | cons x between ih =>
    obtain ⟨more, ih⟩ := ih
    cases x with
    | accepted e => exact ⟨more, ih⟩
    | began rs => exact ⟨more ++ rs, by rw [List.cons_append, receipts, ih, List.append_assoc]⟩
    | committed p => exact ⟨more, ih⟩

theorem delivered_of_none (h : ∀ p, committed p ∉ between) (past : List Happening) :
    delivered (between ++ past) = delivered past := by
  induction between with
  | nil => rfl
  | cons x between ih =>
    have ih := ih fun p hp => h p (List.mem_cons_of_mem _ hp)
    cases x with
    | accepted e => exact ih
    | began rs => exact ih
    | committed p => exact absurd List.mem_cons_self (h p)

theorem receipts_prefix_delivered {p : Pass} (h : committed p ∈ between) (past : List Happening) :
    receipts past <+: delivered (between ++ past) := by
  induction between with
  | nil => cases h
  | cons x between ih =>
    cases x with
    | committed q =>
      obtain ⟨more, hmore⟩ := receipts_append between past
      exact ⟨more, hmore.symm⟩
    | accepted e => exact ih ((List.mem_cons.1 h).resolve_left (by simp))
    | began rs => exact ih ((List.mem_cons.1 h).resolve_left (by simp))

end Happening

open Happening

/-- What the chronicle says about a reactor: what waits in the inbox, what is recorded, and what has
been observed by a commit. -/
structure Reactor.Tells (r : Reactor) (l : List Happening) : Prop where
  keeps : r.registry.Keeps r.inbox.catalog (receipts l)
  waiting : r.inbox.events = waiting l
  fit : ∀ e ∈ r.inbox.events, ∃ spec, r.inbox.catalog.get? e.stream = some spec ∧
    spec.check e.value = .ok ()
  observed : ∀ stream, r.registry.observed stream =
    (Receipt.ofStream stream (delivered l)).length

namespace Reactor.Tells

variable {r r' : Reactor} {l : List Happening}

theorem same (h : r.Tells l) (hi : r'.inbox = r.inbox)
    (hs : Registry.SameEvents r.registry r'.registry)
    (ho : ∀ stream, r'.registry.observed stream = r.registry.observed stream) : r'.Tells l :=
  ⟨hi ▸ h.keeps.same hs, hi ▸ h.waiting, hi ▸ h.fit, fun stream => (ho stream).trans (h.observed stream)⟩

theorem send (h : r.Tells l) {stream : String} {v : Value} (hs : r.send stream v = .ok r') :
    r'.Tells (.accepted ⟨stream, v⟩ :: l) := by
  obtain ⟨inbox, hi, hr⟩ := of_bind_eq_ok hs
  obtain rfl := Except.ok.inj hr
  obtain ⟨fits, rfl⟩ := Inbox.send_eq_ok hi
  refine ⟨h.keeps, congrArg (· ++ [_]) h.waiting, fun e he => ?_, h.observed⟩
  rcases List.mem_append.1 he with he | he
  · exact h.fit e he
  · obtain rfl := List.mem_singleton.1 he
    exact fits

theorem setAvailable (h : r.Tells l) {p : Program} {stream : String} {available : Bool}
    (hs : r.setAvailable p stream available = .ok r') : r'.Tells l := by
  obtain ⟨readers, registry, ha, rfl⟩ := Reactor.setAvailable_eq_ok hs
  exact h.same rfl (Registry.sameEvents_setAvailable ha) (Registry.observed_setAvailable ha)

theorem subscribeReaders (h : r.Tells l) (a : Analysis) : (r.subscribeReaders a).Tells l :=
  h.same rfl (Registry.sameEvents_subscribeAll _ _) (Registry.observed_subscribeAll _ _)

theorem invalidate (h : r.Tells l) : r.invalidate.Tells l :=
  h.same rfl (Registry.sameEvents_unsubscribeAll _) (Registry.observed_unsubscribeAll _)

theorem discard (h : r.Tells l) (done : Record) : (r.discard done).Tells l :=
  h.same rfl (Registry.sameEvents_subscribeAll _ _) (Registry.observed_subscribeAll _ _)

theorem takeInAll_eq (p : Program) (events : List StreamEvent) (r : Reactor) :
    (events.foldl (takeIn p) r).registry = events.foldl Registry.takeIn r.registry ∧
      (events.foldl (takeIn p) r).inbox = r.inbox := by
  induction events generalizing r with
  | nil => exact ⟨rfl, rfl⟩
  | cons e rest ih =>
    have htake : (takeIn p r e).registry = r.registry.takeIn e ∧ (takeIn p r e).inbox = r.inbox := by
      rw [Registry.takeIn_eq_record]
      unfold takeIn Reactor.record
      cases r.registry.record e.stream e.value with
      | error x => exact ⟨rfl, rfl⟩
      | ok found => exact ⟨rfl, rfl⟩
    obtain ⟨hr, hi⟩ := ih (takeIn p r e)
    refine ⟨?_, hi.trans htake.2⟩
    rw [List.foldl_cons, hr, htake.1]
    rfl

/-- A pass that begins records all that waits. -/
theorem beginPass (h : r.Tells l) (p : Program) :
    (r.registry.receipts r.inbox.events).map (·.event) = Happening.waiting l ∧
      (r.beginPass p).2.Tells (.began (r.registry.receipts r.inbox.events) :: l) := by
  obtain ⟨hevents, hkeeps, hobserved⟩ := h.keeps.recordAll h.fit
  obtain ⟨hregistry, hinbox⟩ := takeInAll_eq p r.inbox.events { r with inbox := r.inbox.drain.2 }
  have hr : (r.beginPass p).2.registry = r.inbox.events.foldl Registry.takeIn r.registry := hregistry
  have hi : (r.beginPass p).2.inbox = { r.inbox with events := [] } := hinbox
  refine ⟨hevents.trans h.waiting, ?_, ?_, ?_, fun stream => ?_⟩
  · rw [hr, hi]
    exact hkeeps
  · rw [hi]
    rfl
  · rw [hi]
    exact fun e he => absurd he List.not_mem_nil
  · rw [hr]
    exact (hobserved stream).trans (h.observed stream)

/-- A pass that commits has observed all that was recorded. -/
theorem commit (h : r.Tells l) (t : Tree) (pass : Nat) (done : Record) (p : Pass) :
    (r.commit t (r.registry.snapshot pass) done).Tells (.committed p :: l) := by
  have hr := r.commit_registry t (r.registry.snapshot pass) done
  have hi : (r.commit t (r.registry.snapshot pass) done).inbox = r.inbox := commit_inbox _ _ _ _
  have hs := Registry.sameEvents_subscribeAll done.subscriptions r.registry
  refine ⟨?_, hi ▸ h.waiting, hi ▸ h.fit, fun stream => ?_⟩
  · rw [hr, hi]
    exact h.keeps.same (hs.trans (Registry.sameEvents_markObserved _ _))
  · rw [hr, Registry.observed_markObserved_snapshot _ _ pass stream hs]
    exact h.keeps.version stream

end Reactor.Tells

/-- What a pass reports as new was recorded after the last commit. -/
theorem Pass.reports_iff {p : Pass} {l : List Happening} (h : p.engine.reactor.Tells l)
    (hs : p.setting.snapshot = p.engine.reactor.registry.snapshot p.setting.snapshot.pass)
    (stream : String) (version : Nat) : p.Reports stream version ↔
      (Receipt.ofStream stream (delivered l)).length < version ∧
        version ≤ (Receipt.ofStream stream (receipts l)).length := by
  have hversion := h.keeps.version stream
  have hobserved := h.observed stream
  rw [Reports, hs, Registry.snapshot_get?, hobserved]
  cases hx : p.engine.reactor.registry.stream? stream with
  | none =>
    rw [hx] at hversion
    have hversion : 0 = (Receipt.ofStream stream (receipts l)).length := hversion
    simp only [Option.map_none, reduceCtorEq, false_and, exists_false, false_iff]
    omega
  | some x =>
    rw [hx] at hversion
    have hversion : x.version = (Receipt.ofStream stream (receipts l)).length := hversion
    have hx : x.observed = (Receipt.ofStream stream (delivered l)).length := by
      simpa [Registry.observed, hx] using hobserved
    constructor
    · rintro ⟨e, he, -, hlt, hle⟩
      obtain rfl := Option.some.inj he
      exact ⟨hlt, hversion ▸ hle⟩
    · rintro ⟨hlt, hle⟩
      have hle : version ≤ x.entry.version := Nat.le_trans hle (Nat.le_of_eq hversion.symm)
      exact ⟨x.entry, rfl, decide_eq_true (by omega), hlt, hle⟩

/-- What the chronicle says about a stage. -/
def Stage.Tells : Stage → List Happening → Prop
  | idle e, l => e.reactor.Tells l
  | busy before p, l => p.engine.reactor.Tells l ∧ (p.Open before (fun _ _ => True) ∨ p.Settled)

/-- What was recorded when passes began, and what passes have reported that committed. -/
structure Happening.Regular (l : List Happening) : Prop where
  began : ∀ rs past, began rs :: past <:+ l → rs.map (·.event) = waiting past
  committed : ∀ p past, committed p :: past <:+ l → ∀ stream version,
    p.Reports stream version ↔ (Receipt.ofStream stream (delivered past)).length < version ∧
      version ≤ (Receipt.ofStream stream (receipts past)).length

namespace Happening.Regular

variable {l : List Happening}

theorem nil : Regular [] := ⟨by simp, by simp⟩

theorem accepted (h : Regular l) (e : StreamEvent) : Regular (.accepted e :: l) := by
  refine ⟨fun rs past hs => ?_, fun p past hs => ?_⟩
  · exact h.began rs past ((List.suffix_cons_iff.1 hs).resolve_left (by simp))
  · exact h.committed p past ((List.suffix_cons_iff.1 hs).resolve_left (by simp))

theorem start (h : Regular l) {rs : List Receipt} (hr : rs.map (·.event) = waiting l) :
    Regular (.began rs :: l) := by
  refine ⟨fun rs' past hs => ?_, fun p past hs => ?_⟩
  · rcases List.suffix_cons_iff.1 hs with hs | hs
    · cases hs
      exact hr
    · exact h.began rs' past hs
  · exact h.committed p past ((List.suffix_cons_iff.1 hs).resolve_left (by simp))

theorem commit (h : Regular l) {p : Pass} (hp : ∀ stream version, p.Reports stream version ↔
    (Receipt.ofStream stream (delivered l)).length < version ∧
      version ≤ (Receipt.ofStream stream (receipts l)).length) : Regular (.committed p :: l) := by
  refine ⟨fun rs past hs => ?_, fun p' past hs => ?_⟩
  · exact h.began rs past ((List.suffix_cons_iff.1 hs).resolve_left (by simp))
  · rcases List.suffix_cons_iff.1 hs with hs | hs
    · cases hs
      exact hp
    · exact h.committed p' past hs

/-- All accepted events have been recorded or wait. -/
theorem allAccepted_eq (h : Regular l) :
    allAccepted l = (receipts l).map (·.event) ++ waiting l := by
  induction l with
  | nil => rfl
  | cons x l ih =>
    have ih := ih ⟨fun rs past hs => h.began rs past (hs.trans (List.suffix_cons x l)),
      fun p past hs => h.committed p past (hs.trans (List.suffix_cons x l))⟩
    cases x with
    | accepted e => rw [allAccepted, ih, List.append_assoc]; rfl
    | began rs =>
      have hr := h.began rs l List.suffix_rfl
      show allAccepted l = (receipts l ++ rs).map (·.event) ++ []
      rw [ih, List.map_append, hr, List.append_nil]
    | committed p => exact ih

/-- An event is reported by the first commit after it was recorded, and by no other. -/
theorem reports_iff (h : Regular l) (hn : Receipt.Numbered (receipts l)) {rs : List Receipt}
    {earlier past : List Happening} {p : Pass} (hb : .began rs :: earlier <:+ l)
    (hp : .committed p :: past <:+ l) {r : Receipt} (hr : r ∈ rs) :
    p.Reports r.event.stream r.version ↔
      ∃ between, past = between ++ .began rs :: earlier ∧ ∀ q, .committed q ∉ between := by
  have bounds : (Receipt.ofStream r.event.stream (receipts earlier)).length < r.version ∧
      r.version ≤ (Receipt.ofStream r.event.stream (receipts earlier ++ rs)).length := by
    obtain ⟨later, rfl⟩ := hb
    obtain ⟨more, hmore⟩ := receipts_append later (.began rs :: earlier)
    exact Receipt.Numbered.version_bounds (hmore ▸ hn) hr
  have prefixes {a b : List Receipt} (hab : a <+: b) :
      (Receipt.ofStream r.event.stream a).length ≤ (Receipt.ofStream r.event.stream b).length :=
    (hab.sublist.filter _).length_le
  rw [h.committed p past hp]
  rcases List.suffix_or_suffix_of_suffix hp hb with hs | hs
  · -- the commit came before the recording
    have hs : Happening.committed p :: past <:+ earlier :=
      (List.suffix_cons_iff.1 hs).resolve_left (by simp)
    obtain ⟨later, rfl⟩ := hs
    obtain ⟨more, hmore⟩ := receipts_append later (.committed p :: past)
    have hle := prefixes ⟨more, hmore.symm⟩
    constructor
    · rintro ⟨-, hv⟩
      exact absurd bounds.1 (Nat.not_lt.2 (hv.trans hle))
    · rintro ⟨between, hpast, -⟩
      have := congrArg List.length hpast
      simp only [List.length_append, List.length_cons] at this
      omega
  · have hs : .began rs :: earlier <:+ past := (List.suffix_cons_iff.1 hs).resolve_left (by simp)
    obtain ⟨between, rfl⟩ := hs
    obtain ⟨more, hmore⟩ := receipts_append between (.began rs :: earlier)
    have hle := prefixes ⟨more, hmore.symm⟩
    have hnone : (Receipt.ofStream r.event.stream
        (delivered (between ++ .began rs :: earlier))).length < r.version ↔
          ∀ q, Happening.committed q ∉ between := by
      constructor
      · intro hlt q hq
        have hdelivered := prefixes (receipts_prefix_delivered hq (.began rs :: earlier))
        exact absurd hlt (Nat.not_lt.2 (bounds.2.trans hdelivered))
      · intro hno
        rw [delivered_of_none hno]
        exact Nat.lt_of_le_of_lt (prefixes (delivered_le_receipts earlier)) bounds.1
    rw [hnone, and_iff_left (bounds.2.trans hle)]
    exact ⟨fun hno => ⟨between, rfl, hno⟩, fun ⟨other, heq, hno⟩ =>
      List.append_cancel_right heq ▸ hno⟩

end Happening.Regular

/-- Events are delivered exactly once. -/
structure Delivered (l : List Happening) (s : Stage) : Prop where
  /-- A pass that begins records all that was accepted since another began, in that order. -/
  recorded : ∀ rs past, .began rs :: past <:+ l → rs.map (·.event) = waiting past
  /-- Every accepted event has been recorded or waits. -/
  accepted : allAccepted l = (receipts l).map (·.event) ++ s.engine.reactor.inbox.events
  numbered : Receipt.Numbered (receipts l)
  /-- Each stream has counted its events and keeps the newest. -/
  took : ∀ name x, s.engine.reactor.registry.stream? name = some x →
    x.Took (Receipt.ofStream name (receipts l))
  /-- A recorded event is reported by the first commit that follows, and by no other. -/
  reported : ∀ rs earlier, .began rs :: earlier <:+ l → ∀ r ∈ rs,
    ∀ p past, .committed p :: past <:+ l → (p.Reports r.event.stream r.version ↔
      ∃ between, past = between ++ .began rs :: earlier ∧ ∀ q, .committed q ∉ between)

namespace Chronicle

variable {l : List Happening} {s : Stage}

theorem tells (h : Chronicle l s) : s.Tells l ∧ Regular l := by
  have reset {e : Engine} {l : List Happening} (h : e.reactor.Tells l) : e.reset.reactor.Tells l := by
    unfold Engine.reset
    simp only
    split
    · exact h.invalidate
    · exact h.invalidate.subscribeReaders _
  have send {e e' : Engine} {l : List Happening} {stream : String} {v : Value}
      (h : e.reactor.Tells l) (hs : e.send stream v = .ok e') :
      e'.reactor.Tells (.accepted ⟨stream, v⟩ :: l) := by
    obtain ⟨r, hr, he⟩ := of_bind_eq_ok hs
    obtain rfl := Except.ok.inj he
    exact h.send hr
  induction h with
  | @new t catalog config e he =>
    refine ⟨?_, .nil⟩
    obtain ⟨config', rfl⟩ := Engine.new_eq_ok he
    have hnew : (Reactor.new catalog config').Tells [] :=
      ⟨.new catalog config'.historyLimit, rfl, fun _ he => absurd he List.not_mem_nil,
        Registry.observed_new catalog config'.historyLimit⟩
    exact hnew.subscribeReaders _
  | addEvent _ hs ih =>
    unfold Engine.addEvent at hs
    split at hs
    · cases hs
    · exact ⟨send ih.1 hs, ih.2.accepted _⟩
  | @setAvailable l e e' stream available _ hs ih =>
    obtain ⟨r, hr, rfl⟩ := Engine.setAvailable_eq_ok hs
    exact ⟨ih.1.setAvailable hr, ih.2⟩
  | defineGlobal _ name v ih => exact ⟨reset ih.1, ih.2⟩
  | replaceTree _ t ih => exact ⟨reset ih.1, ih.2⟩
  | start _ hs ih =>
    obtain ⟨h, hr⟩ := ih
    obtain ⟨-, rfl⟩ := Pass.start_eq_ok hs
    obtain ⟨hevents, hbegun⟩ := h.beginPass _
    exact ⟨⟨hbegun, .inl (Pass.open_opened _)⟩, hr.start hevents⟩
  | @tick l before p _ hc ih =>
    obtain ⟨⟨h, o | hp⟩, hr⟩ := ih
    · obtain ⟨-, ⟨ho, he⟩ | ⟨hq, hd | ⟨k, v, hcommit⟩⟩⟩ := o.tick fun _ _ _ => trivial
      · exact ⟨⟨he ▸ h, .inl ho⟩, hr⟩
      · exact ⟨⟨hd.reactor ▸ h.discard _, .inr hq⟩, hr⟩
      · simp [Pass.commits, o.unfinished, hcommit.concluded.value] at hc
    · exact ⟨⟨hp.tick.symm ▸ h, .inr (hp.tick.symm ▸ hp)⟩, hr⟩
  | @commit l before p _ hc ih =>
    obtain ⟨⟨h, o | hp⟩, hr⟩ := ih
    · obtain ⟨v, hv⟩ : ∃ v, p.next.endValue? = some v := by
        simpa [Pass.commits, o.unfinished, Option.isSome_iff_exists] using hc
      obtain ⟨k, hcommit⟩ := o.committed (fun _ _ _ => trivial) hv
      refine ⟨⟨?_, .inr (o.settled_of_endValue hv)⟩, hr.commit (Pass.reports_iff h o.snapshot)⟩
      rw [hcommit.reactor, o.snapshot]
      exact h.commit _ _ _ _
    · simp [Pass.commits, hp.finished] at hc
  | sendDuring _ hs ih =>
    obtain ⟨⟨h, hp⟩, hr⟩ := ih
    exact ⟨⟨send h hs, hp.imp (fun o => o.sendDuring hs) fun hp => ⟨hp.finished, hp.ended⟩⟩,
      hr.accepted _⟩
  | requestAbort _ ih =>
    obtain ⟨⟨h, hp⟩, hr⟩ := ih
    exact ⟨⟨h, hp.imp (fun o => o.requestAbort) fun hp => ⟨hp.finished, hp.ended⟩⟩, hr⟩
  | leave _ ih =>
    obtain ⟨⟨h, hp⟩, hr⟩ := ih
    refine ⟨?_, hr⟩
    unfold Pass.abandon
    split
    · exact h
    · exact h.discard _

/-- However a session goes, events are delivered exactly once in it. -/
theorem delivered_exactly_once (h : Chronicle l s) : Delivered l s := by
  obtain ⟨hs, hr⟩ := h.tells
  have htells : s.engine.reactor.Tells l := by
    cases s with
    | idle e => exact hs
    | busy before p => exact hs.1
  exact ⟨hr.began, htells.waiting ▸ hr.allAccepted_eq, htells.keeps.numbered, htells.keeps.took,
    fun rs earlier hb r hmem p past hp => hr.reports_iff htells.keeps.numbered hb hp hmem⟩

/-- Ticks that do not commit a pass. -/
theorem ticks {before : Engine} {p : Pass} (h : Chronicle l (.busy before p)) (n : Nat)
    (hc : ∀ k < n, (Nat.iterate Pass.tick k p).commits = false) :
    Chronicle l (.busy before (Nat.iterate Pass.tick n p)) := by
  induction n with
  | zero => exact h
  | succ n ih =>
    rw [Function.iterate_succ_apply']
    exact (ih fun k hk => hc k (Nat.lt_succ_of_lt hk)).tick (hc n (Nat.lt_succ_self n))

end Chronicle

/-! A program that shows the last key. A key comes in while a pass is open, which is then aborted;
the next pass is given up; another key comes in, and a pass commits. -/

namespace Relay

def draft : Draft := ⟨#[⟨.stream "keyboard", [], none, none⟩]⟩

def tree : Tree := ((draft.finish 0).toOption).getD ⟨#[], 0⟩

def catalog : Catalog := ⟨[("keyboard", ⟨"keyboard", .push, .text, .text ""⟩)]⟩

/-- The engine before its first pass. -/
def fresh : Engine := .load tree catalog .default

/-- The engine of the first pass after a key. -/
def told : Engine := (Pass.opened fresh).engine.sent "keyboard" (.text "a")

/-- The first pass, after it was asked to abort. -/
def aborted : Pass := { Pass.opened fresh with engine := told.requestAbort }.tick

/-- The second pass, which is given up. -/
def second : Pass := .opened aborted.abandon.engine

/-- After the second pass and another key. -/
def retold : Engine := second.abandon.engine.sent "keyboard" (.text "b")

/-- The third pass, before the tick that commits it. -/
def last : Pass := Nat.iterate Pass.tick 4 (.opened retold)

/-- All that happens, the latest first. -/
def story : List Happening :=
  [.committed last, .began [⟨⟨"keyboard", .text "b"⟩, 1, 2⟩], .accepted ⟨"keyboard", .text "b"⟩,
    .began [⟨⟨"keyboard", .text "a"⟩, 0, 1⟩], .accepted ⟨"keyboard", .text "a"⟩, .began []]

theorem chronicle : Chronicle story (.busy retold last.tick) := by
  have sent {e : Engine} {v : Value} (h : (e.send "keyboard" v).toOption.isSome = true) :
      e.send "keyboard" v = .ok (e.sent "keyboard" v) := Engine.send_eq_ok h
  have hnew : Engine.new tree catalog .default = .ok fresh := rfl
  have new : Chronicle [] (.idle fresh) := .new hnew
  have first := new.start (Pass.start_eq_opened rfl rfl)
  have dropped : Chronicle _ (.idle aborted.abandon.engine) :=
    (((first.sendDuring (sent (by decide +kernel))).requestAbort).tick (by decide +kernel)).leave
  have again : Chronicle _ (.busy _ second) :=
    dropped.start (Pass.start_eq_opened (by decide +kernel) (by decide +kernel))
  have hadd : second.abandon.engine.addEvent "keyboard" (.text "b") = .ok retold := by
    rw [Engine.addEvent, if_neg (by decide +kernel)]
    exact sent (by decide +kernel)
  have third := (again.leave.addEvent hadd).start
    (Pass.start_eq_opened (by decide +kernel) (by decide +kernel))
  exact (third.ticks 4 (by decide +kernel)).commit (by decide +kernel)

end Relay

/-- The third pass reports both keys, and no other pass reports any. -/
theorem Chronicle.relay_delivered :
    Delivered Relay.story (.busy Relay.retold Relay.last.tick) ∧
      Relay.last.Reports "keyboard" 1 ∧ Relay.last.Reports "keyboard" 2 := by
  have h := Chronicle.delivered_exactly_once Relay.chronicle
  have commit : .committed Relay.last :: Relay.story.drop 1 <:+ Relay.story := List.drop_suffix 0 Relay.story
  refine ⟨h, ?_, ?_⟩
  · have first : .began [⟨⟨"keyboard", .text "a"⟩, 0, 1⟩] :: Relay.story.drop 4 <:+ Relay.story :=
      List.drop_suffix 3 Relay.story
    exact (h.reported _ _ first _ List.mem_cons_self _ _ commit).2
      ⟨(Relay.story.drop 1).take 2, rfl, by simp [Relay.story]⟩
  · have second : .began [⟨⟨"keyboard", .text "b"⟩, 1, 2⟩] :: Relay.story.drop 2 <:+ Relay.story :=
      List.drop_suffix 1 Relay.story
    exact (h.reported _ _ second _ List.mem_cons_self _ _ commit).2 ⟨[], rfl, by simp⟩

end StreamLang
