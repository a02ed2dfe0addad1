import StreamLang.Proofs.Engine.Captures
import StreamLang.Proofs.Engine.Confinement
import StreamLang.Proofs.Machine.Naming
import StreamLang.Proofs.Machine.Safety
/-!
Sessions that never break. No scope is ever taken away, so a function that an engine has come by keeps
its scope, and as long as the program stays its body is a node of the program. If nothing comes from
outside but what was committed before, this holds of all functions at all times, and no pass finds
anything missing.
-/
namespace StreamLang

namespace Machine

variable {s : Setting} {m : Machine}

/-- No step takes scopes away. -/
theorem size_invariant (s : Setting) (n : Nat) : Invariant s fun m => n ≤ m.scopes.all.size where
  cutOff _ _ h := h
  enterRoot m h := by
    rw [enterRoot, scopes_enter]
    refine Nat.le_trans h ?_
    exact Nat.le_of_lt (Nat.lt_of_lt_of_eq (Nat.lt_succ_self _) (Scopes.size_addChild ..).symm)
  countStep _ h := h
  fail _ _ h := h
  moved m f rest a m' h _ _ moved := by
    refine Nat.le_trans h ?_
    cases moved with
    | failed | resumed | read => exact Nat.le_refl _
    | defined => exact Nat.le_of_eq (Scopes.size_defineAll ..).symm
    | opened => exact Nat.le_trans (Nat.le_succ _) (Nat.le_of_eq (Scopes.size_addChild ..).symm)
    | entered =>
      rw [scopes_enter]
      exact Nat.le_refl m.scopes.all.size
    | called =>
      rw [scopes_call]
      refine Nat.le_trans (Nat.le_succ _) (Nat.le_of_eq ?_)
      exact ((Scopes.size_defineAll ..).trans (Scopes.size_addChild ..)).symm
    | finished => rw [scopes_handDown]

/-- A machine that is not broken and holds functions of its own tree only, what it has written included. -/
structure Living (s : Setting) (m : Machine) : Prop extends
    Poised s (· < s.program.tree.size) m where
  writes : ∀ x ∈ m.record.writes, m.Callable (· < s.program.tree.size) x.2.value

namespace Living

theorem start {scopes : Scopes} (ha : s.Alive scopes.all.size)
    (hs : scopes.Every (Closure.Lives s.program.tree scopes.all.size)) : (start scopes).Living s :=
  ⟨poised_start ha.provides hs, fun _ hx => absurd hx List.not_mem_nil⟩

theorem tick (o : s.program.tree.Ordered) (h : m.Living s) (abort : Bool) :
    (m.tick s abort).Living s := by
  refine ⟨h.toPoised.tick o (fun _ hi => hi) abort, ?_⟩
  have hsize := (size_invariant s m.scopes.all.size).tick (m := m) (Nat.le_refl _) abort
  cases hr : m.isRunning with
  | false =>
    rw [tick_of_ended hr]
    exact h.writes
  | true =>
    generalize hm' : m.tick s abort = m' at hsize
    have kept (x : NodeId × Write) (hx : x ∈ m.record.writes) : m'.Callable (· < s.program.tree.size) x.2.value :=
      (h.writes x hx).mono fun _ hc => hc.mono hsize
    cases ticked hm' with
    | ended | cutOff | failed => exact kept
    | entered =>
      have hwrites : (m.enterRoot s).record.writes = m.record.writes := writes_enter ..
      exact fun x hx => kept x (hwrites ▸ hx)
    | @executed f rest a hm ha =>
      intro x hx
      rcases mem_writes_execute a hx with hx | ⟨-, hv, -⟩
      · exact kept x hx
      · have hs : m.started = true := by
          cases hs : m.started with
          | true => rfl
          | false =>
            rw [h.fresh hr hs] at hm
            cases hm
        obtain ⟨g, _, hg, stands, -⟩ := h.stack hr hs
        obtain rfl : g = f := (List.cons.inj (hg.symm.trans hm)).1
        exact (stands.values _ hv).mono fun _ hc => hc.mono hsize

theorem run (o : s.program.tree.Ordered) (h : m.Living s) (abort : Bool) (n : Nat) :
    (m.run s abort n).Living s := by
  rw [run_eq_ticks]
  exact ticks_induction (fun _ abort h => h.tick o abort) h _

end Living
end Machine

/-! ### Engines -/

/-- All functions that an engine keeps have their body in the tree and their scope among those that
there are. -/
structure Engine.Living (t : Tree) (e : Engine) : Prop extends e.Housed where
  confined : e.Confined t (fun _ => True) (Closure.Lives t e.scopes.all.size)

section Engine

variable {t : Tree} {e e' before : Engine} {p : Pass} {P : NodeId → Value → Prop}

namespace Pass.Open

variable (o : p.Open before P) (ht : t.Accepted) (h : p.engine.Living t)
include o h

theorem tree_eq : p.setting.program.tree = t := by rw [o.program, h.confined.tree]

include ht

theorem alive : p.setting.Alive p.engine.scopes.all.size where
  root := by rw [o.tree_eq h, o.root, h.confined.tree]; exact ht.root_lt
  globals := o.globals ▸ h.globals
  cache := by
    rw [o.cache, o.tree_eq h]
    exact h.confined.reactor.values
  snapshot := by
    rw [o.snapshot, o.tree_eq h]
    exact fun stream _ => h.confined.reactor.streams.snapshot _ stream

/-- So whatever the pass holds is alive. -/
theorem living (k : Nat) : ((Machine.start before.scopes).run p.setting false k).Living p.setting := by
  have htree := o.tree_eq h
  refine Machine.Living.run (htree ▸ ht.ordered) (.start ?_ ?_) false k
  · exact o.scopes ▸ o.alive ht h
  · rw [htree, ← o.scopes]
    exact Scopes.every_iff.2 h.confined.scopes

theorem machine_living : p.machine.Living p.setting := by
  obtain ⟨k, hk, -⟩ := o.machine
  exact hk ▸ o.living ht h k

end Pass.Open
end Engine

/-! ### Sessions -/

namespace Stage

variable {t : Tree} {s s' : Stage}

/-- The functions of the engine are alive, and no pass has broken. -/
structure Living (t : Tree) (s : Stage) : Prop where
  engine : s.engine.Living t
  unbroken : ∀ before p, s = busy before p → ∀ fault, p.machine.status ≠ .broken fault

/-- What is waiting, shown or committed after a tick lives in the scopes that there are then. -/
theorem Living.tick {before : Engine} {p : Pass} (h : (busy before p).Living t) (ht : t.Accepted)
    (r : (busy before p).Regular) (c : (busy before p).Confined t (fun _ => True) fun _ => True) :
    (busy before p.tick).Living t ∧
      p.engine.scopes.all.size ≤ p.tick.engine.scopes.all.size := by
  have he : p.engine.Living t := h.engine
  have ticked : Step Tree.Accepted (fun _ => True) (busy before p) (busy before p.tick) :=
    .tick trivial
  have housed := (housed_step r h.engine.toHoused ticked).1
  obtain ⟨-, ⟨o, -⟩ | hp⟩ := r
  · have htree := o.tree_eq he
    have next := (o.machine_living ht he).tick (htree ▸ ht.ordered) p.engine.abortRequested
    have unbroken (fault : Fault) : p.tick.machine.status ≠ .broken fault := by
      have hstatus : p.tick.machine.status = p.next.status := by
        have settled := Pass.machine_settle { p with machine := p.next }
        exact settled.elim (congrArg Machine.status ·) (congrArg Machine.status · :)
      exact hstatus ▸ next.unbroken fault
    suffices hs : p.tick.engine.Confined t (fun _ => True)
        (Closure.Lives t p.tick.engine.scopes.all.size) ∧
        p.engine.scopes.all.size ≤ p.tick.engine.scopes.all.size by
      refine ⟨⟨⟨housed, hs.1⟩, ?_⟩, hs.2⟩
      rintro _ _ ⟨⟩
      exact unbroken
    obtain ⟨-, ⟨-, heq⟩ | ⟨-, hd | ⟨k, v, hc⟩⟩⟩ := o.tick fun _ _ _ => trivial
    · rw [heq]
      exact ⟨he.confined, Nat.le_refl _⟩
    · rw [hd.scopes]
      refine ⟨⟨hd.alike.program ▸ he.confined.tree, trivial, hd.scopes ▸ he.confined.scopes, ?_⟩,
        Nat.le_refl _⟩
      rw [hd.reactor]
      exact he.confined.reactor.discard _
    · have kept : p.next.Preserves p.engine.scopes :=
        (Machine.Preserves.invariant (o.globals ▸ he.globals)).tick (o.preserves he.toHoused) _
      have hsize := kept.kept.size_le
      have reactions := (c.next o (fun _ _ => trivial) fun _ _ _ _ _ _ _ => trivial).reactions
      rw [hc.scopes]
      refine ⟨⟨hc.alike.program ▸ he.confined.tree, trivial, ?_, ?_⟩, hsize⟩
      · rw [hc.scopes]
        exact Scopes.every_iff.1 (htree ▸ next.scopes)
      · rw [hc.reactor, he.confined.tree]
        exact (he.confined.reactor.mono fun _ hl => hl.mono hsize).commit _
          (htree ▸ next.writes) (htree ▸ reactions)
  · rw [Pass.Settled.tick hp]
    exact ⟨h, Nat.le_refl _⟩

theorem Living.proceeds {sent defined : Value → Prop} (h : s.Living t) (ht : t.Accepted)
    (r : s.Regular) (c : s.Confined t (fun _ => True) fun _ => True)
    (hs : Proceeds sent defined s s')
    (hsent : ∀ v, sent v → v.Every (Closure.Lives t s.engine.scopes.all.size))
    (hdefined : ∀ v, defined v → v.Every (Closure.Lives t s.engine.scopes.all.size)) :
    s'.Living t ∧ s.engine.scopes.all.size ≤ s'.engine.scopes.all.size := by
  have housed := (housed_step r h.engine.toHoused (hs.step Tree.Accepted)).1
  -- all steps but ticks leave as many scopes, and no machine but the one that there is
  have same (size : s'.engine.scopes.all.size = s.engine.scopes.all.size)
      (confined : s'.engine.Confined t (fun _ => True) (Closure.Lives t s.engine.scopes.all.size))
      (unbroken : ∀ before p, s' = busy before p → ∀ fault, p.machine.status ≠ .broken fault) :
      s'.Living t ∧ s.engine.scopes.all.size ≤ s'.engine.scopes.all.size :=
    ⟨⟨⟨housed, size.symm ▸ confined⟩, unbroken⟩, Nat.le_of_eq size.symm⟩
  have confined := h.engine.confined
  cases hs with
  | addEvent hs hv =>
    have scopes := (Engine.between_addEvent t hs).scopes
    exact same (congrArg (·.all.size) scopes) (confined.addEvent hs (hsent _ hv)) (by rintro _ _ ⟨⟩)
  | setAvailable hs =>
    obtain ⟨_, r⟩ := r
    have scopes := (Engine.between_setAvailable r.program hs).scopes
    exact same (congrArg (·.all.size) scopes) (confined.setAvailable hs) (by rintro _ _ ⟨⟩)
  | @defineGlobal e v name hv =>
    exact same (Scopes.size_define ..) (confined.defineGlobal name (hdefined _ hv))
      (by rintro _ _ ⟨⟩)
  | @start e p hs =>
    obtain ⟨-, rfl⟩ := Pass.start_eq_ok hs
    have he : e.Confined t (fun _ => True) (Closure.Lives t e.scopes.all.size) := confined
    refine same rfl { he with reactor := he.reactor.beginPass e.program } ?_
    rintro _ _ ⟨⟩ fault hb
    cases hb
  | tick => exact h.tick ht r c
  | @sendDuring before p e' stream v hs hv =>
    have scopes := (Engine.between_send t hs).scopes
    refine same (congrArg (·.all.size) scopes) (confined.send hs (hsent _ hv)) ?_
    rintro _ _ ⟨⟩
    exact h.unbroken before p rfl
  | @requestAbort before p =>
    refine same rfl { confined with } ?_
    rintro _ _ ⟨⟩
    exact h.unbroken before p rfl
  | @leave before p =>
    have he : p.engine.Confined t (fun _ => True) (Closure.Lives t p.engine.scopes.all.size) :=
      confined
    refine same ?_ ?_ (by rintro _ _ ⟨⟩)
    · show p.abandon.engine.scopes.all.size = p.engine.scopes.all.size
      unfold Pass.abandon
      split <;> rfl
    · show p.abandon.engine.Confined t _ _
      unfold Pass.abandon
      split
      · exact he
      · exact { he with reactor := he.reactor.discard _ }

end Stage

namespace Stretch

variable {t : Tree} {e : Engine} {stages : List Stage}

/-- If functions are only brought back that were committed before, all functions are alive at all times,
and no pass breaks. -/
theorem living (h : Stretch Known Known e stages) (ht : t.Accepted) (he : e.Living t)
    (r : (Stage.idle e).Regular) : ∀ s ∈ stages, s.Living t := by
  have confined := h.confined (t := t) r (he.confined.mono fun _ _ => trivial)
    (fun _ _ _ _ _ _ => trivial) (fun _ _ _ _ _ _ => trivial) (fun _ _ => trivial)
    fun _ _ _ _ _ _ _ => trivial
  -- what was committed at an earlier stage is alive now, as there are no fewer scopes
  suffices all : (∀ s ∈ stages, s.Living t) ∧ ∀ s, stages.head? = some s → ∀ s' ∈ stages,
      s'.engine.scopes.all.size ≤ s.engine.scopes.all.size from all.1
  induction h with
  | rest =>
    refine ⟨List.forall_mem_singleton.2 ⟨he, fun _ _ hb => by cases hb⟩, ?_⟩
    rintro s ⟨⟩
    exact List.forall_mem_singleton.2 (Nat.le_refl _)
  | @step s s' past h hstep ih =>
    obtain ⟨now, before⟩ := List.forall_mem_cons.1 confined
    obtain ⟨living, sizes⟩ := ih before
    have sizes := sizes s rfl
    have known (v : Value) (hv : Known (s :: past) v) :
        v.Every (Closure.Lives t s.engine.scopes.all.size) := by
      intro c hc
      obtain ⟨s₀, hs₀, i, u, hu, hcu⟩ := hv c hc
      exact ((living s₀ hs₀).engine.confined.of_keeps (.committed hu hcu)).mono (sizes s₀ hs₀)
    obtain ⟨living', hsize⟩ := (living s List.mem_cons_self).proceeds ht
      (h.regular r s List.mem_cons_self) (before s List.mem_cons_self) hstep known known
    refine ⟨List.forall_mem_cons.2 ⟨living', living⟩, ?_⟩
    rintro _ ⟨⟩
    exact List.forall_mem_cons.2
      ⟨Nat.le_refl _, fun s₀ hs₀ => Nat.le_trans (sizes s₀ hs₀) hsize⟩

end Stretch
end StreamLang
