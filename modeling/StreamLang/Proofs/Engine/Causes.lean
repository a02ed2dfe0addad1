import StreamLang.Proofs.Engine.Reactions
import StreamLang.Proofs.Engine.Rested
/-!
Why a reaction goes on. Its second part is run if it is dirty, or if it is in doubt and a bind that
it depends on has come out different. It gets dirty when something happens to a stream that is read in
it, or when a pass commits that has left it in doubt: a commit makes every doubt a certainty, whatever
the bind would have come to. Once a pass has looked after it, it is clean again.
-/
namespace StreamLang

open Machine
open Mark (level)
open Staleness (Walked)

/-- What hangs below a node that was found up to date is clean, as far as its parts. -/
theorem Reactor.mark?_of_cleaned {t : Tree} (o : t.Ordered) (r : Reactor) (seen : Snapshot)
    {done : Record} {i c : NodeId} (hi : i ∈ done.cleaned) (hc : c ∈ t.children i) :
    (r.commit t seen done).staleness.mark? c = none := by
  rw [commit_staleness, Staleness.mark?_promote, Option.map_eq_none_iff]
  exact ((Staleness.pruned_cleanSubtrees o done.cleaned _).roots i hi).2 c hc

namespace Pass

/-- The pass looks after the second part of a reaction: it runs it, or finds it or the reaction up to
date. -/
def Attends (p : Pass) (before : Engine) (r n : NodeId) : Prop :=
  p.next.record.Wrote n ∨ ∃ j,
    let m := (Machine.start before.scopes).run p.setting false j
    m.reuses p.setting r = true ∨ m.reuses p.setting n = true

variable {p : Pass} {before : Engine} {P : NodeId → Value → Prop} {t : Tree} {r n : NodeId}
  {k : Nat} {v : Value}

/-- After a commit of such a pass the part is clean. -/
theorem Open.unmarked_of_attends (o : p.Open before P) (hr : p.engine.Regular t)
    (h : p.engine.Rested) (hc : p.Committed p.tick before P k v)
    (it : p.setting.program.tree.Iterates r n) (ha : p.Attends before r n) :
    p.tick.engine.reactor.staleness.mark? n = none := by
  have htree : p.engine.program.tree = t := congrArg Program.tree hr.program
  have hsetting : p.setting.program.tree = t := by rw [o.program, htree]
  have cleans := p.engine.reactor.commit_cleans hr.ordered p.setting.snapshot p.next.record
  rw [hc.reactor, htree]
  have hended : ((Machine.start before.scopes).run p.setting false k).isRunning = false := by
    obtain ⟨T, hT, -⟩ := status_of_endValue? (hc.concluded.eq ▸ hc.concluded.value)
    simp [Machine.isRunning, hT]
  have noted {i : NodeId} {j : Nat}
      (hj : ((Machine.start before.scopes).run p.setting false j).reuses p.setting i = true)
      (hm : p.engine.reactor.staleness.mark? i ≠ none) : i ∈ p.next.record.cleaned := by
    rw [hc.concluded.eq]
    exact cleaned_run_of_reuses hj (o.staleness ▸ hm) hended
  by_cases hn : p.engine.reactor.staleness.mark? n = none
  · exact cleans.unmarked n hn
  rcases ha with hw | ⟨j, hj | hj⟩
  · exact cleans.wrote n hw
  · refine Reactor.mark?_of_cleaned hr.ordered _ _ (noted hj fun hmark => hn ?_)
      (hsetting ▸ it.child)
    -- a part in doubt has been walked since the last commit, and so has all above it
    have hdirty : p.engine.reactor.staleness.mark? n ≠ some .dirty :=
      o.staleness ▸ it.not_dirty (by simp only [reuses, Bool.and_eq_true] at hj; exact hj.2)
    have hwalked := hr.reactor.walked.up_le (hsetting ▸ it.child)
    have hle := hr.reactor.walked.unmarked hmark
    cases hm : p.engine.reactor.staleness.mark? n with
    | none => rfl
    | some m =>
      cases m with
      | dirty => exact absurd hm hdirty
      | maybeDirty =>
        have := h.reactor.fresh n hm
        omega
  · exact (cleans.cleaned n (noted hj hn)).1

end Pass

namespace Stage

/-- The step stirs a node: an event comes to a reader in it, a stream that is read in it opens or
closes, or a reader in it was told in the pass before that its stream had changed. -/
inductive Stirs (n : NodeId) : Stage → Stage → Prop where
  | event {e p x j} (start : Pass.start e = .ok p) (waits : x ∈ e.reactor.inbox.events)
    (hears : j ∈ e.reactor.registry.heard x)
    (reads : (x.stream, j) ∈ e.program.analysis.readers) (within : e.program.tree.Within n j) :
    Stirs n (idle e) (busy e p)
  | seen {e p j} (start : Pass.start e = .ok p) (told : j ∈ e.reactor.edgeTriggered)
    (within : e.program.tree.Within n j) : Stirs n (idle e) (busy e p)
  | available {e e' stream available x j} (set : e.setAvailable stream available = .ok e')
    (shown : e.reactor.registry.stream? stream = some x) (switched : x.available ≠ available)
    (reads : (stream, j) ∈ e.program.analysis.readers) (within : e.program.tree.Within n j) :
    Stirs n (idle e) (idle e')

/-- The step commits a pass that has left the second part of a reaction in doubt, as a bind that it
depends on had a mark. -/
inductive LeavesDoubt (r n : NodeId) : Stage → Stage → Prop where
  | commit {before p b} (commits : p.commits = true) (unattended : ¬ p.Attends before r n)
    (doubt : p.setting.staleness.mark? n = some .maybeDirty)
    (depends : b ∈ p.setting.program.analysis.dependencies n)
    (marked : p.setting.staleness.mark? b ≠ none) :
    LeavesDoubt r n (busy before p) (busy before p.tick)

/-- The step settles how things stand with the second part of a reaction: it commits a pass that has
looked after it, or forgets all that was committed. -/
inductive Settles (r n : NodeId) : Stage → Stage → Prop where
  | commit {before p} (commits : p.commits = true) (attends : p.Attends before r n) :
    Settles r n (busy before p) (busy before p.tick)
  | defineGlobal {e} (name : String) (v : Value) :
    Settles r n (idle e) (idle (e.defineGlobal name v))
  | replaceTree {e t} : Settles r n (idle e) (idle (e.replaceTree t))

variable {s s' : Stage} {r n : NodeId}

/-- The mark of a node at a stage. -/
def mark? (s : Stage) (n : NodeId) : Option Mark := s.engine.reactor.staleness.mark? n

theorem mark?_reset {e : Engine} (hs : e.stopped = false) :
    (idle e.reset).mark? n = none := by
  have : e.reset.reactor.staleness = .empty := by
    simp only [Engine.reset, hs]
    rfl
  rw [mark?, engine, this, Staleness.mark?_empty]

/-- Once it is settled how things stand with it, the part is clean. -/
theorem Rested.unmarked_of_settles (h : s.Rested) (hs : Settles r n s s')
    (it : s'.engine.program.tree.Iterates r n) : s'.mark? n = none := by
  cases hs with
  | @commit before p hc ha =>
    obtain ⟨⟨t, hr⟩, o, k, v, hk⟩ := h.regular.committed hc
    refine o.unmarked_of_attends hr h.engine hk ?_ ha
    rw [o.program, ← hk.alike.program]
    exact it
  | defineGlobal name v =>
    obtain ⟨t, hr⟩ := h.regular
    exact mark?_reset hr.running
  | replaceTree =>
    obtain ⟨t, hr⟩ := h.regular
    exact mark?_reset hr.running

/-- Opening or closing a stream makes a node dirty only if one of its readers lies in it. -/
theorem stirs_of_setAvailable {e e' : Engine} {t : Tree} (hr : e.Regular t) (h : e.Rested)
    {stream : String} {available : Bool} (hs : e.setAvailable stream available = .ok e')
    (hd : (idle e').mark? n = some .dirty) :
    (idle e).mark? n = some .dirty ∨ Stirs n (idle e) (idle e') := by
  have htree : e.program.tree = t := congrArg Program.tree hr.program
  obtain ⟨reactor, hreactor, rfl⟩ := Engine.setAvailable_eq_ok hs
  obtain ⟨readers, registry, hx, rfl⟩ := Reactor.setAvailable_eq_ok hreactor
  have hd : (e.reactor.staleness.markAllChanged e.program readers).mark? n = some .dirty := hd
  rw [hr.program] at hd
  obtain hd | ⟨j, hj, hnj⟩ := Staleness.dirty_of_markAllChanged hr.ordered hr.reactor.walked hd
  · exact .inl hd
  rw [Registry.setAvailable_eq] at hx
  split at hx
  · cases hx
  rename_i x hshown
  cases hx
  split at hj
  · cases hj
  rename_i hswitched
  have hreads : (stream, j) ∈ e.program.analysis.readers := by
    rw [hr.program]
    exact (htree ▸ h.reactor.readers) stream x hshown j hj
  exact .inr (.available hs hshown hswitched hreads (htree.symm ▸ hnj))

/-- So does the beginning of a pass. -/
theorem stirs_of_start {e : Engine} {p : Pass} {t : Tree} (hr : e.Regular t) (h : e.Rested)
    (hs : Pass.start e = .ok p) (hd : (busy e p).mark? n = some .dirty) :
    (idle e).mark? n = some .dirty ∨ Stirs n (idle e) (busy e p) := by
  have htree : e.program.tree = t := congrArg Program.tree hr.program
  obtain ⟨-, rfl⟩ := Pass.start_eq_ok hs
  have hreactor : (Pass.opened e).engine.reactor = (e.reactor.beginPass (.ofTree t)).2 := by
    rw [← hr.program]
    rfl
  rw [mark?, engine_busy, hreactor, Reactor.beginPass_eq] at hd
  obtain hd | ⟨j, hj, hnj⟩ := Staleness.dirty_of_markAllChanged hr.ordered hr.reactor.walked hd
  · exact .inl hd
  right
  rcases List.mem_append.1 hj with hj | hj
  · obtain ⟨x, hx, hj⟩ := List.mem_flatMap.1 hj
    have known : e.reactor.registry.Known t := htree ▸ h.reactor.readers
    exact .event hs hx hj (by rw [hr.program]; exact known.heard hj) (htree.symm ▸ hnj)
  · exact .seen hs hj (htree.symm ▸ hnj)

/-- A commit makes a node dirty only if the pass has left it in doubt. -/
theorem leavesDoubt_of_committed {before : Engine} {p : Pass} {t : Tree} {k : Nat} {v : Value}
    (hr : p.engine.Regular t) (h : p.engine.Rested) (o : p.Open before fun _ _ => True)
    (hc : p.Committed p.tick before (fun _ _ => True) k v)
    (it : p.tick.engine.program.tree.Iterates r n)
    (hd : (busy before p.tick).mark? n = some .dirty) :
    (busy before p).mark? n = some .dirty ∨
      LeavesDoubt r n (busy before p) (busy before p.tick) := by
  have htree : p.engine.program.tree = t := congrArg Program.tree hr.program
  have hit : p.setting.program.tree.Iterates r n := by
    rw [o.program, ← hc.alike.program]
    exact it
  have cleans := p.engine.reactor.commit_cleans hr.ordered p.setting.snapshot p.next.record
  have unattended : ¬ p.Attends before r n := fun ha => by
    rw [mark?, engine_busy, o.unmarked_of_attends hr h hc hit ha] at hd
    cases hd
  rw [mark?, engine_busy, hc.reactor, htree] at hd
  obtain ⟨-, hmarked, -⟩ := cleans.dirty n _ hd
  obtain ⟨m, hm⟩ := Option.ne_none_iff_exists'.1 hmarked
  cases m with
  | dirty => exact .inl hm
  | maybeDirty =>
    have commits : p.commits = true := by simp [Pass.commits, o.unfinished, hc.concluded.value]
    obtain ⟨b, hb, hpos⟩ := hr.reactor.walked.exists_dependency hr.ordered (htree ▸ h.tree.plain)
      (h.reactor.fresh n hm)
    have depends : b ∈ p.setting.program.analysis.dependencies n := by
      rw [o.program, hr.program]
      exact hb
    refine .inr (.commit commits unattended (o.staleness ▸ hm) depends fun hn => ?_)
    have := hr.reactor.walked.unmarked (o.staleness ▸ hn)
    omega

/-- A node gets dirty by a step that stirs it, or by one that leaves it in doubt. -/
theorem Rested.dirty_step {fair : Pass → Prop} (h : s.Rested) (hs : Step Tree.FirstOrder fair s s')
    (it : s'.engine.program.tree.Iterates r n) (hd : s'.mark? n = some .dirty) :
    (s.engine.program = s'.engine.program ∧ s.mark? n = some .dirty) ∨
      Stirs n s s' ∨ LeavesDoubt r n s s' := by
  obtain ⟨hr, -, h, -⟩ := h
  cases hs with
  | addEvent hs =>
    obtain ⟨t, hr⟩ := hr
    rw [Engine.addEvent, hr.running] at hs
    obtain ⟨inbox, -, rfl⟩ := Engine.inbox_of_send hs
    exact .inl ⟨rfl, hd⟩
  | setAvailable hs =>
    obtain ⟨t, hr⟩ := hr
    have alike := (Engine.between_setAvailable hr.program hs).alike
    exact (stirs_of_setAvailable hr h hs hd).imp (⟨alike.program.symm, ·⟩) .inl
  | @defineGlobal e name v =>
    obtain ⟨t, hr⟩ := hr
    have hnone : (idle (e.defineGlobal name v)).mark? n = none := mark?_reset hr.running
    cases hnone.symm.trans hd
  | @replaceTree e t' ht =>
    obtain ⟨t, hr⟩ := hr
    have hnone : (idle (e.replaceTree t')).mark? n = none := mark?_reset hr.running
    cases hnone.symm.trans hd
  | start hs =>
    obtain ⟨t, hr⟩ := hr
    refine (stirs_of_start hr h hs hd).imp (⟨?_, ·⟩) .inl
    obtain ⟨-, rfl⟩ := Pass.start_eq_ok hs
    rfl
  | @tick before p =>
    obtain ⟨⟨t, hr⟩, ⟨o, -⟩ | hp⟩ := hr
    · obtain ⟨-, ⟨-, he⟩ | ⟨-, hdrop | ⟨k, v, hc⟩⟩⟩ := o.tick fun _ _ _ => trivial
      · rw [mark?, engine_busy, he] at hd
        exact .inl ⟨by rw [engine_busy, engine_busy, he], hd⟩
      · rw [mark?, engine_busy, hdrop.reactor] at hd
        exact .inl ⟨hdrop.alike.program.symm, hd⟩
      · exact (leavesDoubt_of_committed hr h o hc it hd).imp (⟨hc.alike.program.symm, ·⟩) .inr
    · rw [hp.tick] at hd ⊢
      exact .inl ⟨rfl, hd⟩
  | sendDuring hs =>
    obtain ⟨inbox, -, rfl⟩ := Engine.inbox_of_send hs
    exact .inl ⟨rfl, hd⟩
  | requestAbort => exact .inl ⟨rfl, hd⟩
  | @leave before p =>
    obtain ⟨-, ⟨o, -⟩ | hp⟩ := hr
    · have he : p.abandon.engine.reactor.staleness = p.engine.reactor.staleness := by
        rw [Pass.abandon, o.unfinished]
        rfl
      rw [mark?, Stage.engine, he] at hd
      exact .inl ⟨(o.abandon p.engine.program.tree).alike.program.symm, hd⟩
    · have he : p.abandon = p := if_pos hp.finished
      rw [he] at hd ⊢
      exact .inl ⟨rfl, hd⟩

end Stage

namespace Session

variable {fair : Pass → Prop} {s₀ s : Stage} {recent old : List Stage} {r n : NodeId}

/-- Whatever is dirty now has been stirred or left in doubt since it was settled last how things stand
with it. -/
theorem exists_stirs_of_dirty (settled : ∀ s ∈ old.head?, Stage.Settles r n s s₀)
    (h : Session Tree.FirstOrder fair (recent ++ s₀ :: old))
    (rested : ∀ s ∈ recent ++ s₀ :: old, s.Rested) (hs : (recent ++ [s₀]).head? = some s)
    (it : s.engine.program.tree.Iterates r n)
    (hd : s.mark? n = some .dirty) :
    ∃ x y, [y, x] <:+: recent ++ [s₀] ∧ (Stage.Stirs n x y ∨ Stage.LeavesDoubt r n x y) := by
  induction recent generalizing s with
  | nil =>
    obtain rfl : s₀ = s := Option.some.inj hs
    exfalso
    have hnone : s₀.mark? n = none := by
      cases h with
      | new ht he =>
        obtain ⟨config, rfl⟩ := Engine.new_eq_ok he
        exact Staleness.mark?_empty n
      | step h _ =>
        exact (rested _ (List.mem_cons_of_mem _ List.mem_cons_self)).unmarked_of_settles
          (settled _ rfl) it
    rw [hnone] at hd
    cases hd
  | cons x recent ih =>
    obtain rfl : x = s := Option.some.inj hs
    obtain ⟨y, hy⟩ : ∃ y, (recent ++ [s₀]).head? = some y := by
      cases recent <;> exact ⟨_, rfl⟩
    have hlater : [x, y] <:+: x :: recent ++ [s₀] := by
      obtain ⟨rest, hrest⟩ := List.head?_eq_some_iff.1 hy
      exact ⟨[], rest, by rw [List.cons_append, hrest]; rfl⟩
    obtain ⟨past, hpast⟩ : ∃ past, recent ++ s₀ :: old = y :: past := by
      cases recent with
      | nil => exact ⟨old, by rw [Option.some.inj hy]; rfl⟩
      | cons z recent => exact ⟨recent ++ s₀ :: old, by rw [Option.some.inj hy]; rfl⟩
    have rested : ∀ s ∈ recent ++ s₀ :: old, s.Rested :=
      fun s hs => rested s (List.mem_cons_of_mem _ hs)
    rw [List.cons_append, hpast] at h
    cases h with
    | step h hstep =>
      rcases (rested y (hpast ▸ List.mem_cons_self)).dirty_step hstep it hd with
        ⟨hp, hd⟩ | hcause
      · obtain ⟨a, b, hab, hcause⟩ := ih (hpast ▸ h) rested hy (hp ▸ it) hd
        exact ⟨a, b, hab.trans (List.suffix_cons x _).isInfix, hcause⟩
      · exact ⟨y, x, hlater, hcause⟩

/-- A reaction that has a state goes on only for a reason. Since a pass was committed last that has
looked after its second part, either something has happened to a stream that is read in it, or it was
left in doubt by a pass that was committed; or else a bind that it depends on has now another value than
the committed one. -/
theorem cause_of_begins {before : Engine} {p : Pass}
    (settled : ∀ s ∈ old.head?, Stage.Settles r n s s₀)
    (h : Session Tree.FirstOrder fair (.busy before p :: recent ++ s₀ :: old))
    (given : ∀ s ∈ .busy before p :: recent ++ s₀ :: old, s.engine.Given fun _ => False)
    (hcapacity : p.engine.config.cacheCapacity = none)
    (it : p.setting.program.tree.Iterates r n) (hr : p.setting.cache.has r = true)
    (hb : p.machine.begins p.setting n = true) :
    (∃ x y, [y, x] <:+: .busy before p :: recent ++ [s₀] ∧
      (Stage.Stirs n x y ∨ Stage.LeavesDoubt r n x y)) ∨
    ∃ b ∈ p.setting.program.analysis.dependencies n, ∃ u v, p.setting.cache.value? b = some u ∧
      p.machine.record.written? b = some v ∧ u.equal v = false := by
  have all := h.rested given
  obtain ⟨⟨⟨t, hregular⟩, hopen⟩, housed, hrested, -⟩ := all (.busy before p) List.mem_cons_self
  obtain ⟨o, -⟩ := hopen.resolve_right fun hp => by
    simp [begins, entering?, hp.ended] at hb
  have hf : p.FirstOrder := Stage.Rested.firstOrder (all _ List.mem_cons_self) o
  have ff := o.functionFree hregular hrested hf
  obtain ⟨k, hk, -⟩ := o.machine
  obtain ⟨T, attended⟩ := o.attended hregular housed hrested hf k
  rw [← hk] at T attended
  have hrested : p.engine.Rested := hrested
  have rested := hrested.reactor
  rw [← o.program] at rested
  have hreusable : (p.setting.cache.reusable? r).isSome := by
    obtain ⟨e, he⟩ := Option.isSome_iff_exists.1 hr
    have := rested.reusable r e (o.cache ▸ he)
    rw [Tree.not_volatile_of_reaction ff.accepted.ordered ff.tree it.kind] at this
    simp [Cache.reusable?, he, this]
  rcases attended.upset_of_begins ff T it hb hreusable with hd | ⟨-, b, hdep, v, hv, hne⟩
  · refine .inl (exists_stirs_of_dirty settled h all rfl ?_ ?_)
    · rw [Stage.engine_busy, ← o.program]
      exact it
    · rw [Stage.mark?, Stage.engine_busy, ← o.staleness]
      exact hd
  · refine .inr ⟨b, hdep, ?_⟩
    rw [ff.program] at hdep
    have hbr := ff.accepted.ordered.dependencies_part ff.tree it.child (by simp [it.kind]) hdep
    have hhas := rested.depends (hrested.capacity.trans hcapacity) r (o.cache ▸ hr) b hbr
    obtain ⟨e, he⟩ := Option.isSome_iff_exists.1 hhas
    have hvalue : p.setting.cache.value? b = some e.value := by
      rw [o.cache, Cache.value?, he, Option.map_some]
    exact ⟨e.value, v, hvalue, hv, by simpa [hvalue] using hne⟩

end Session

/-- Only texts and truth values have come to the engine from outside, and no globals. -/
def Engine.bare (e : Engine) : Bool :=
  e.reactor.registry.streams.all (Growing.isAtom ·.2.spec.default) &&
    e.reactor.inbox.events.all (Growing.isAtom ·.value) && (e.scopes.bindings e.globals).isEmpty

theorem Engine.given_of_bare {e : Engine} (h : e.bare = true) : e.Given fun _ => False := by
  have atom {v : Value} (h : Growing.isAtom v = true) : v.Every fun _ => False := by
    cases v <;> simp_all [Growing.isAtom]
  simp only [bare, Bool.and_eq_true, List.all_eq_true, List.isEmpty_iff] at h
  obtain ⟨⟨hdefaults, hevents⟩, hglobals⟩ := h
  refine ⟨fun name x hx => atom (hdefaults (name, x) (Assoc.mem_of_get? hx)),
    fun event he => atom (hevents event he), fun b hb => ?_⟩
  rw [hglobals] at hb
  cases hb

namespace Stage

/-- The step commits a pass that has evaluated a reaction, or has found it up to date. -/
inductive Evaluates (r : NodeId) : Stage → Stage → Prop where
  | commit {before p} (commits : p.commits = true)
    (evaluates : p.next.record.Wrote r ∨ ∃ j,
      ((Machine.start before.scopes).run p.setting false j).reuses p.setting r = true) :
    Evaluates r (busy before p) (busy before p.tick)

/-- The step commits a pass in which a bind has another value than before. -/
inductive Changes (b : NodeId) : Stage → Stage → Prop where
  | commit {before p u v} (commits : p.commits = true) (was : p.engine.value? b = some u)
    (is : p.tick.engine.value? b = some v) (differs : u.equal v = false) :
    Changes b (busy before p) (busy before p.tick)

end Stage

/-! A reaction in a branch, whose second part asks for a bind that is always false. -/

namespace Doubted

/-- The bind is node 3, the reaction node 12 and its second part node 11. -/
def draft : Draft :=
  ⟨#[⟨.stream "p", [], none, none⟩, ⟨.boolean false, [], none, none⟩,
    ⟨.binary [.and], [0, 1], none, none⟩, ⟨.bind "x", [2], none, none⟩,
    ⟨.stream "c", [], none, none⟩, ⟨.text "", [], none, none⟩, ⟨.reference "x", [], none, none⟩,
    ⟨.text "on", [], none, none⟩, ⟨.previous, [], none, none⟩, ⟨.text "a", [], none, none⟩,
    ⟨.binary [.add], [8, 9], none, none⟩, ⟨.conditional, [6, 7, 10], none, none⟩,
    ⟨.reaction, [5, 11], none, none⟩, ⟨.text "none", [], none, none⟩,
    ⟨.conditional, [4, 12, 13], none, none⟩, ⟨.block, [3, 14], none, none⟩]⟩

def tree : Tree := ((draft.finish 15).toOption).getD ⟨#[], 0⟩

def catalog : Catalog :=
  ⟨[("p", ⟨"p", .push, .boolean, .boolean true⟩), ("c", ⟨"c", .push, .boolean, .boolean true⟩)]⟩

def fresh : Engine := .load tree catalog .default

/-- The engine after the first pass, which gives the reaction its state. -/
def initialized : Engine := (Nat.iterate Pass.tick 32 (.opened fresh)).abandon.engine

/-- Both streams have events, with the values that they had. -/
def asked : Engine := (initialized.told "c" (.boolean true)).told "p" (.boolean true)

/-- The second pass before its last tick: it has found the reaction up to date. -/
def verified : Pass := Nat.iterate Pass.tick 23 (.opened asked)

def held : Engine := verified.tick.abandon.engine

def closing : Engine := held.told "c" (.boolean false)

/-- The branch is left, and there is news of what the bind is made of. -/
def closed : Engine := closing.told "p" (.boolean false)

/-- The third pass does not come to the reaction. -/
def left : Engine := (Nat.iterate Pass.tick 25 (.opened closed)).abandon.engine

def reopened : Engine := left.told "c" (.boolean true)

/-- The fourth pass, as it comes to the second part of the reaction. -/
def going : Pass := Nat.iterate Pass.tick 13 (.opened reopened)

/-- What has come between the second pass and this. -/
def between : List Stage :=
  Stage.ticks reopened (.opened reopened) 12 ++ .idle reopened :: .idle left ::
    (Stage.ticks closed (.opened closed) 25 ++ [.idle closed, .idle closing, .idle held])

/-- What has come before, up to where the second pass has found the reaction up to date. -/
def earlier : List Stage :=
  Stage.ticks asked (.opened asked) 22 ++ .idle asked ::
    .idle (initialized.told "c" (.boolean true)) :: .idle initialized ::
    (Stage.ticks fresh (.opened fresh) 32 ++ [.idle fresh])

/-- All stages, the latest first. -/
def stages : List Stage :=
  .busy reopened going :: between ++ .busy asked verified.tick :: .busy asked verified :: earlier

/-- Nothing is told to a reader in the second part of the reaction, and the bind stays false. -/
def quiet : Stage → Bool
  | .idle e => e.reactor.edgeTriggered.isEmpty &&
      e.program.analysis.readers.all fun x => !e.program.tree.isAncestorOrSelf 11 x.2
  | .busy _ p => (p.engine.value? 3).all (·.equal (.boolean false)) &&
      (p.tick.engine.value? 3).all (·.equal (.boolean false))

/-- What can be read off the program and its passes: the second one finds the reaction up to date, and
in the fourth one its second part is run, though the bind is used again. -/
@[mk_iff]
structure Checked : Prop where
  built : draft.finish 15 = .ok tree
  plain : ∀ i < tree.size, tree.isFunction i = false
  told : ((initialized.addEvent "c" (.boolean true)).toOption.isSome = true ∧
    ((initialized.told "c" (.boolean true)).addEvent "p" (.boolean true)).toOption.isSome = true) ∧
    (held.addEvent "c" (.boolean false)).toOption.isSome = true ∧
    (closing.addEvent "p" (.boolean false)).toOption.isSome = true ∧
    (left.addEvent "c" (.boolean true)).toOption.isSome = true
  ready : ∀ e ∈ [asked, closed, reopened],
    e.stopped = false ∧ e.config.conflictPolicy = .attach
  bare : stages.all (·.engine.bare) = true
  commits : verified.commits = true
  reuses : ((Machine.start asked.scopes).run verified.setting false 19).reuses verified.setting 12 =
    true
  node : going.setting.program.tree.node? 12 = some ⟨.reaction, [5, 11], some 14, none⟩
  children : going.setting.program.tree.children 12 = [5, 11]
  dependencies : going.setting.program.analysis.dependencies 11 = [3]
  capacity : going.engine.config.cacheCapacity = none
  has : going.setting.cache.has 12 = true
  begins : going.machine.begins going.setting 11 = true
  unwritten : (going.machine.record.written? 3).isNone = true
  calm : (Stage.busy reopened going :: between ++ [Stage.busy asked verified.tick]).all quiet = true

theorem checked : Checked := checked_iff.2 (by decide +kernel)

theorem firstOrder : tree.FirstOrder := by
  refine ⟨⟨draft, 15, checked.built⟩, fun i => ?_⟩
  by_cases hi : i < tree.size
  · exact checked.plain i hi
  · have : tree.kind? i = none := by
      by_contra hk
      obtain ⟨k, hk⟩ := Option.ne_none_iff_exists'.1 hk
      exact hi (Tree.lt_size_of_kind hk)
    simp [Tree.isFunction, this]

theorem start {e : Engine} (he : e ∈ [asked, closed, reopened]) : Pass.start e = .ok (.opened e) :=
  Pass.start_eq_opened (checked.ready e he).1 (checked.ready e he).2

/-- No function comes from outside. -/
theorem given : ∀ s ∈ stages, s.engine.Given fun _ => False := fun s hs =>
  Engine.given_of_bare (List.all_eq_true.1 checked.bare s hs)

theorem session : Session Tree.FirstOrder (fun _ => True) stages := by
  have hnew : Engine.new tree catalog .default = .ok fresh := rfl
  have hstart : Pass.start fresh = .ok (.opened fresh) := rfl
  have hc : initialized.addEvent "c" (.boolean true) = .ok (initialized.told "c" (.boolean true)) :=
    Engine.addEvent_eq_ok checked.told.1.1
  have hasked : (initialized.told "c" (.boolean true)).addEvent "p" (.boolean true) = .ok asked :=
    Engine.addEvent_eq_ok checked.told.1.2
  have hclosing : held.addEvent "c" (.boolean false) = .ok closing :=
    Engine.addEvent_eq_ok checked.told.2.1
  have hclosed : closing.addEvent "p" (.boolean false) = .ok closed :=
    Engine.addEvent_eq_ok checked.told.2.2.1
  have hreopened : left.addEvent "c" (.boolean true) = .ok reopened :=
    Engine.addEvent_eq_ok checked.told.2.2.2
  have first : Session Tree.FirstOrder (fun _ => True)
      (.idle initialized :: (Stage.ticks fresh (.opened fresh) 32 ++ [.idle fresh])) :=
    (((Session.new firstOrder hnew).step (.start hstart)).ticks 32 fun _ _ => trivial).step .leave
  have second := (((first.step (.addEvent hc)).step (.addEvent hasked)).step
    (.start (start List.mem_cons_self))).ticks (22 + 1) fun _ _ => trivial
  have news := (((second.step (.tick trivial)).step .leave).step (.addEvent hclosing)).step
    (.addEvent hclosed)
  have third := ((news.step (.start (start (by simp)))).ticks 25 fun _ _ => trivial).step .leave
  have fourth := ((third.step (.addEvent hreopened)).step (.start (start (by simp)))).ticks (12 + 1)
    fun _ _ => trivial
  rw [Stage.ticks, List.cons_append] at fourth
  rw [stages, between, earlier, List.cons_append, List.append_assoc, List.cons_append,
    List.cons_append, List.append_assoc]
  exact fourth

theorem quiet_between {s : Stage}
    (hs : s ∈ Stage.busy reopened going :: between ++ [Stage.busy asked verified.tick]) :
    quiet s = true := by
  have calm := checked.calm
  rw [List.all_eq_true] at calm
  exact calm s hs

theorem not_stirs {x y : Stage} (hx : quiet x = true) (regular : x.Regular) :
    ¬ Stage.Stirs 11 x y := by
  have outside {e : Engine} (hx : quiet (.idle e) = true) (hr : (Stage.idle e).Regular)
      {stream : String} {j : NodeId} (reads : (stream, j) ∈ e.program.analysis.readers) :
      ¬ e.program.tree.Within 11 j := by
    intro within
    obtain ⟨t, hr⟩ := hr
    have o : e.program.tree.Ordered := by
      rw [hr.program]
      exact hr.ordered
    simp only [quiet, Bool.and_eq_true, List.all_eq_true] at hx
    have := hx.2 _ reads
    rw [o.isAncestorOrSelf_iff.2 within] at this
    cases this
  intro h
  cases h with
  | event start waits hears reads within => exact outside hx regular reads within
  | seen start told within =>
    simp only [quiet, Bool.and_eq_true, List.isEmpty_iff] at hx
    rw [hx.1] at told
    cases told
  | available set shown switched reads within => exact outside hx regular reads within

theorem not_changes {x y : Stage} (hx : quiet x = true) : ¬ Stage.Changes 3 x y := by
  intro h
  cases h with
  | commit commits was is differs =>
    simp only [quiet, was, is, Option.all_some, Bool.and_eq_true] at hx
    have eq {w : Value} (hw : w.equal (.boolean false) = true) : w = .boolean false := by
      cases w <;> simp_all [Value.equal]
    rw [eq hx.1, eq hx.2] at differs
    cases differs

theorem iterates : going.setting.program.tree.Iterates 12 11 where
  kind := by simp [Tree.kind?, checked.node]
  parts := ⟨5, checked.children⟩

theorem dependency_eq {b : NodeId} (hb : b ∈ going.setting.program.analysis.dependencies 11) :
    b = 3 := by
  rw [checked.dependencies] at hb
  exact List.mem_singleton.1 hb

theorem unwritten {b : NodeId} (hb : b ∈ going.setting.program.analysis.dependencies 11) :
    going.machine.record.written? b = none := by
  rw [dependency_eq hb]
  exact Option.isNone_iff_eq_none.1 checked.unwritten

theorem regular_between {x : Stage}
    (hx : x ∈ .busy reopened going :: between ++ [.busy asked verified.tick]) : x.Regular := by
  refine (session.rested given x ?_).regular
  rw [stages, List.append_cons]
  exact List.mem_append_left _ hx

end Doubted

/-- The fourth pass runs the second part of the reaction, as the third one has left it in doubt. -/
theorem Session.exists_leavesDoubt : ∃ x y,
    [y, x] <:+: .busy Doubted.reopened Doubted.going :: Doubted.between ++
      [.busy Doubted.asked Doubted.verified.tick] ∧ Stage.LeavesDoubt 12 11 x y := by
  have settled : Stage.Settles 12 11 (.busy Doubted.asked Doubted.verified)
      (.busy Doubted.asked Doubted.verified.tick) :=
    .commit Doubted.checked.commits (.inr ⟨19, .inl Doubted.checked.reuses⟩)
  rcases Session.cause_of_begins (fun s hs => Option.some.inj hs ▸ settled) Doubted.session
    Doubted.given Doubted.checked.capacity Doubted.iterates Doubted.checked.has
    Doubted.checked.begins with ⟨x, y, hxy, hcause⟩ | ⟨b, hb, u, v, hu, hv, hne⟩
  · have hx := hxy.subset (List.mem_cons_of_mem y List.mem_cons_self)
    have quiet := Doubted.quiet_between hx
    exact ⟨x, y, hxy, hcause.resolve_left (Doubted.not_stirs quiet (Doubted.regular_between hx))⟩
  · rw [Doubted.unwritten hb] at hv
    cases hv

/-- Since the second pass has found the reaction up to date, nothing has happened to a stream that is
read in its second part, and the bind has never had another value. -/
theorem Session.exists_begins_without_change :
    ¬ ∀ before p recent s₀ s old r n,
      Session Tree.FirstOrder (fun _ => True) (.busy before p :: recent ++ s₀ :: s :: old) →
      (∀ x ∈ .busy before p :: recent ++ s₀ :: s :: old, x.engine.Given fun _ => False) →
      Stage.Evaluates r s s₀ → p.engine.config.cacheCapacity = none →
      p.setting.program.tree.Iterates r n → p.setting.cache.has r = true →
      p.machine.begins p.setting n = true →
      (∃ x y, [y, x] <:+: .busy before p :: recent ++ [s₀] ∧
        (Stage.Stirs n x y ∨ ∃ b ∈ p.setting.program.analysis.dependencies n, Stage.Changes b x y)) ∨
      ∃ b ∈ p.setting.program.analysis.dependencies n, ∃ u v, p.setting.cache.value? b = some u ∧
        p.machine.record.written? b = some v ∧ u.equal v = false := by
  intro hall
  have evaluates : Stage.Evaluates 12 (.busy Doubted.asked Doubted.verified)
      (.busy Doubted.asked Doubted.verified.tick) :=
    .commit Doubted.checked.commits (.inr ⟨19, Doubted.checked.reuses⟩)
  rcases hall _ _ _ _ _ _ 12 11 Doubted.session Doubted.given evaluates Doubted.checked.capacity
    Doubted.iterates Doubted.checked.has Doubted.checked.begins with
    ⟨x, y, hxy, hcause⟩ | ⟨b, hb, u, v, hu, hv, hne⟩
  · have hx := hxy.subset (List.mem_cons_of_mem y List.mem_cons_self)
    have quiet := Doubted.quiet_between hx
    rcases hcause with hs | ⟨b, hb, hc⟩
    · exact Doubted.not_stirs quiet (Doubted.regular_between hx) hs
    · obtain rfl := Doubted.dependency_eq hb
      exact Doubted.not_changes quiet hc
  · rw [Doubted.unwritten hb] at hv
    cases hv

end StreamLang
