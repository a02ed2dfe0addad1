import StreamLang.Proofs.Stream.Reordering
/-!
Events of different streams may come in in any order. A registry that has taken them in tells the
orders apart by nothing but the positions in the histories among the events of all streams, and
nothing but the event log ever asks for these.
-/
namespace StreamLang

/-- The same events, with those of each stream in the same order. -/
def StreamEvent.Rearranged (xs ys : List StreamEvent) : Prop :=
  ∀ stream, xs.filter (·.stream = stream) = ys.filter (·.stream = stream)

namespace StreamEvent.Rearranged

variable {xs ys : List StreamEvent} {e : StreamEvent}

theorem refl (xs : List StreamEvent) : Rearranged xs xs := fun _ => rfl

theorem symm (h : Rearranged xs ys) : Rearranged ys xs := fun stream => (h stream).symm

theorem append (h : Rearranged xs ys) (more : List StreamEvent) :
    Rearranged (xs ++ more) (ys ++ more) := fun stream => by
  rw [List.filter_append, List.filter_append, h stream]

theorem mem_iff (h : Rearranged xs ys) : e ∈ xs ↔ e ∈ ys := by
  have listed (zs : List StreamEvent) : e ∈ zs ↔ e ∈ zs.filter (·.stream = e.stream) := by simp
  rw [listed xs, h e.stream, ← listed ys]

theorem eq_nil (h : Rearranged [] ys) : ys = [] :=
  List.eq_nil_iff_forall_not_mem.2 fun _ he => List.not_mem_nil (h.mem_iff.2 he)

/-- The first event of one order comes in the other one before all others of its stream. -/
theorem cons_inv (h : Rearranged (e :: xs) ys) : ∃ before after, ys = before ++ e :: after ∧
    (∀ e' ∈ before, e'.stream ≠ e.stream) ∧ Rearranged xs (before ++ after) := by
  have hfirst := h e.stream
  rw [List.filter_cons_of_pos (by simp)] at hfirst
  obtain ⟨before, after, rfl, hbefore, -, hafter⟩ := List.filter_eq_cons_iff.1 hfirst.symm
  replace hbefore : ∀ e' ∈ before, e'.stream ≠ e.stream := by simpa using hbefore
  refine ⟨before, after, rfl, hbefore, fun stream => ?_⟩
  by_cases hs : e.stream = stream
  · subst stream
    have hnone : before.filter (·.stream = e.stream) = [] :=
      List.filter_eq_nil_iff.2 fun e' he' => by simpa using hbefore e' he'
    rw [List.filter_append, hnone, hafter, List.nil_append]
  · simpa [hs] using h stream

end StreamEvent.Rearranged

/-- The stream without the positions among the events of all streams. -/
def Stream.unsequenced (x : Stream) : Stream :=
  { x with history := x.history.map ({ · with sequence := 0 }) }

theorem Stream.record_unsequenced (x : Stream) (v : Value) (sequence : Nat) :
    x.unsequenced.record v 0 = (x.record v sequence).map Stream.unsequenced := by
  rw [record_eq, record_eq]
  show (x.spec.check v).map _ = _
  cases hc : x.spec.check v with
  | error error => rfl
  | ok u =>
    simp only [Stream.unsequenced, Except.map, Stream.keepNewest_map, List.map_append]
    rfl

theorem Assoc.map_put {α : Type u} {β : Type v} {γ : Type w} [DecidableEq α] (f : β → γ) (k : α)
    (v : β) (a : Assoc α β) : (put k v a).map (fun p => (p.1, f p.2)) =
      put k (f v) (a.map fun p => (p.1, f p.2)) := by
  induction a with
  | nil => rfl
  | cons p rest ih =>
    by_cases hk : p.1 = k <;> simp [put, hk, ih]

namespace Registry

variable {r : Registry} {e e' : StreamEvent}

/-- The registry without the positions of the events in the histories. How many events it has taken in
all is still there. -/
def unsequenced (r : Registry) : Registry := r.mapStreams Stream.unsequenced

theorem stream?_unsequenced (r : Registry) (name : String) :
    r.unsequenced.stream? name = (r.stream? name).map Stream.unsequenced :=
  r.stream?_mapStreams Stream.unsequenced name

theorem mapStreams_set (r : Registry) (f : Stream → Stream) (name : String) (x : Stream) :
    (r.set name x).mapStreams f = (r.mapStreams f).set name (f x) :=
  congrArg (Registry.mk · r.sequence) (Assoc.map_put f name x r.streams)

theorem unsequenced_set (r : Registry) (name : String) (x : Stream) :
    (r.set name x).unsequenced = r.unsequenced.set name x.unsequenced :=
  r.mapStreams_set Stream.unsequenced name x

/-! ### Taking events in -/

/-- The stream of an event once it has taken it, if it does. -/
def taking? (r : Registry) (e : StreamEvent) : Option Stream :=
  (r.stream? e.stream).bind fun x => (x.record e.value 0).toOption

/-- Takes in an event, wherever it stands among the events of all streams. -/
def receive (r : Registry) (e : StreamEvent) : Registry :=
  match r.taking? e with
  | none => r
  | some x => { r.set e.stream x with sequence := r.sequence + 1 }

theorem unsequenced_takeIn (r : Registry) (e : StreamEvent) :
    (r.takeIn e).unsequenced = r.unsequenced.receive e := by
  rw [takeIn_eq, receive, taking?, stream?_unsequenced]
  cases hx : r.stream? e.stream with
  | none => rfl
  | some x =>
    simp only [Option.map_some, Option.bind_some, x.record_unsequenced e.value r.sequence]
    cases hr : x.record e.value r.sequence with
    | error error => rfl
    | ok x' =>
      show Registry.mk (r.set e.stream x').unsequenced.streams (r.sequence + 1) = _
      rw [unsequenced_set]
      rfl

theorem unsequenced_takeInAll (events : List StreamEvent) (r : Registry) :
    (events.foldl takeIn r).unsequenced = events.foldl receive r.unsequenced := by
  induction events generalizing r with
  | nil => rfl
  | cons e rest ih => rw [List.foldl_cons, ih, unsequenced_takeIn, List.foldl_cons]

theorem stream?_receive (h : e.stream ≠ name) : (r.receive e).stream? name = r.stream? name := by
  unfold receive
  cases r.taking? e with
  | none => rfl
  | some x =>
    show (r.set e.stream x).stream? name = _
    rw [stream?_set, if_neg h]

theorem isSome_of_taking? {x : Stream} (h : r.taking? e = some x) :
    (r.stream? e.stream).isSome := by
  obtain ⟨y, hy, -⟩ := Option.bind_eq_some_iff.1 h
  rw [hy]
  rfl

/-- Events of different streams do not get in each other's way. -/
theorem receive_comm (h : e.stream ≠ e'.stream) :
    (r.receive e).receive e' = (r.receive e').receive e := by
  have left : (r.receive e).taking? e' = r.taking? e' := by rw [taking?, stream?_receive h]; rfl
  have right : (r.receive e').taking? e = r.taking? e := by rw [taking?, stream?_receive h.symm]; rfl
  rw [receive, left, receive.eq_def (r.receive e'), right]
  unfold receive
  cases hx : r.taking? e with
  | none => rfl
  | some x =>
    cases hy : r.taking? e' with
    | none => rfl
    | some y =>
      exact congrArg (Registry.mk · (r.sequence + 1 + 1))
        (Assoc.put_comm h.symm y x (isSome_of_taking? hy) (isSome_of_taking? hx))

theorem receive_receiveAll {events : List StreamEvent} (h : ∀ e' ∈ events, e'.stream ≠ e.stream)
    (r : Registry) : (events.foldl receive r).receive e = events.foldl receive (r.receive e) := by
  induction events generalizing r with
  | nil => rfl
  | cons e' rest ih =>
    rw [List.foldl_cons, List.foldl_cons, ih fun e'' he => h e'' (List.mem_cons_of_mem _ he),
      receive_comm (h e' List.mem_cons_self)]

theorem receiveAll_rearranged {xs ys : List StreamEvent} (h : StreamEvent.Rearranged xs ys)
    (r : Registry) : xs.foldl receive r = ys.foldl receive r := by
  induction xs generalizing ys r with
  | nil => rw [h.eq_nil]
  | cons e rest ih =>
    obtain ⟨before, after, rfl, hbefore, hrest⟩ := h.cons_inv
    calc (e :: rest).foldl receive r = rest.foldl receive (r.receive e) := rfl
      _ = (before ++ after).foldl receive (r.receive e) := ih hrest _
      _ = after.foldl receive (before.foldl receive (r.receive e)) := List.foldl_append
      _ = after.foldl receive ((before.foldl receive r).receive e) := by rw [receive_receiveAll hbefore]
      _ = (before ++ e :: after).foldl receive r := by rw [List.foldl_append, List.foldl_cons]

/-- Registries that are the same but for the positions stay so, in whatever order the events of
different streams come in. -/
theorem takeInAll_rearranged {r' : Registry} {xs ys : List StreamEvent}
    (hr : r'.unsequenced = r.unsequenced) (h : StreamEvent.Rearranged xs ys) :
    (ys.foldl takeIn r').unsequenced = (xs.foldl takeIn r).unsequenced := by
  rw [unsequenced_takeInAll, unsequenced_takeInAll, hr, receiveAll_rearranged h]

/-! ### What does not ask for the positions -/

theorem snapshot_unsequenced (r : Registry) (pass : Nat) :
    r.unsequenced.snapshot pass = r.snapshot pass := by
  have latest (x : Stream) : x.unsequenced.latest = x.latest := by
    simp only [Stream.latest, Stream.unsequenced, List.getLast?_map, Option.map_map]
    rfl
  have current (x : Stream) : x.unsequenced.current = x.current := by
    simp only [Stream.current, latest]
    rfl
  simp only [snapshot, unsequenced, mapStreams, List.map_map, Function.comp_def, current]
  rfl

theorem telling_unsequenced (r : Registry) (name : String) :
    r.unsequenced.telling name = r.telling name := by
  rw [telling, stream?_unsequenced, Option.map_map]
  rfl

theorem unsequenced_subscribe (r : Registry) (name : String) (i : NodeId) :
    (r.subscribe name i).2.unsequenced = (r.unsequenced.subscribe name i).2 := by
  unfold subscribe
  rw [stream?_unsequenced]
  cases r.stream? name with
  | none => rfl
  | some x => exact r.unsequenced_set name _

theorem unsequenced_subscribeAll (subscriptions : List (String × NodeId)) (r : Registry) :
    (r.subscribeAll subscriptions).unsequenced = r.unsequenced.subscribeAll subscriptions := by
  induction subscriptions generalizing r with
  | nil => rfl
  | cons p rest ih =>
    refine (ih _).trans ?_
    rw [unsequenced_subscribe]
    rfl

theorem unsequenced_unsubscribeAll (r : Registry) :
    r.unsubscribeAll.unsequenced = r.unsequenced.unsubscribeAll := by
  simp only [unsubscribeAll, unsequenced, mapStreams, List.map_map]
  rfl

theorem unsequenced_markObserved (r : Registry) (seen : Snapshot) :
    (r.markObserved seen).unsequenced = r.unsequenced.markObserved seen := by
  simp only [markObserved, unsequenced, mapStreams, List.map_map]
  congr 1
  refine List.map_congr_left fun p _ => ?_
  simp only [Function.comp_apply]
  cases seen.get? p.1 <;> rfl

theorem unsequenced_switch (r : Registry) (name : String) (available : Bool) :
    (r.switch name available).unsequenced = r.unsequenced.switch name available := by
  unfold switch
  rw [stream?_unsequenced]
  cases r.stream? name with
  | none => rfl
  | some x => exact r.unsequenced_set name _

theorem setAvailable_unsequenced (r : Registry) (name : String) (available : Bool) :
    r.unsequenced.setAvailable name available =
      (r.setAvailable name available).map fun told => (told.1, told.2.unsequenced) := by
  rw [setAvailable_eq, setAvailable_eq, stream?_unsequenced]
  cases r.stream? name with
  | none => rfl
  | some x =>
    rw [← unsequenced_switch]
    rfl

end Registry
end StreamLang
