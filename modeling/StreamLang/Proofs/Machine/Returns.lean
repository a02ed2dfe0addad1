import Mathlib.Data.Nat.Find
import StreamLang.Proofs.Machine.Calls
/-!
Calls that return. As long as the stack is higher than it was, only frames above are run. So when a
machine comes back to the frame that has called a function, it has run the body to its end, and the value
that it hands down is what the body has come to.
-/
namespace StreamLang

namespace Machine

variable {s : Setting} {m : Machine}

theorem isRunning_of_run {abort : Bool} {j k : Nat} (hjk : j ≤ k)
    (h : (m.run s abort k).isRunning = true) : (m.run s abort j).isRunning = true := by
  obtain ⟨l, rfl⟩ := Nat.exists_eq_add_of_le hjk
  cases hj : (m.run s abort j).isRunning with
  | true => rfl
  | false =>
    rw [run_add, run_of_ended hj, hj] at h
    cases h

/-- A machine that goes on below a frame, for the first time now, has run that frame to its end. -/
theorem runs_of_return (k n : Nat) (f : Frame) (rest : List Frame) (σ : State)
    (first : ∀ j < k, rest.length < ((busy n (f :: rest) σ).run s false j).frames.length)
    (back : ((busy n (f :: rest) σ).run s false k).frames.length ≤ rest.length)
    (running : ((busy n (f :: rest) σ).run s false k).isRunning = true) :
    ∃ v version σ', Runs s (fun _ _ => True) k f σ v version σ' ∧
      (busy n (f :: rest) σ).run s false k = (busy (n + k) rest σ').handDown version v := by
  induction k using Nat.strongRecOn generalizing n f rest σ with
  | ind k ih =>
    cases k with
    | zero => exact absurd back (by simp [run_zero, busy])
    | succ k =>
      by_cases hb : s.budget ≤ n
      · rw [run_succ, tick_spent hb, run_of_ended rfl] at running
        cases running
      have tick := tick_busy (σ := σ) (l := f :: rest) (Nat.lt_of_not_le hb)
      have step (j : Nat) : (busy n (f :: rest) σ).run s false (j + 1) =
          ((busy n (f :: rest) σ).advance s).run s false j := by rw [run_succ, tick]
      have first' (j : Nat) (hj : j < k) :
          rest.length < (((busy n (f :: rest) σ).advance s).run s false j).frames.length :=
        step j ▸ first (j + 1) (Nat.succ_lt_succ hj)
      rw [step] at back running
      rcases outcome s f σ with ⟨f', σ₁, h⟩ | ⟨g, f', σ₁, h⟩ | ⟨v, version, σ', h, -⟩ | ⟨fault, h⟩
      · rw [h] at back running first'
        obtain ⟨v, version, σ', hr, he⟩ :=
          ih k (Nat.lt_succ_self k) _ f' rest σ₁ first' back running
        refine ⟨v, version, σ', .move h hr, ?_⟩
        rw [step, h, he, Nat.add_assoc, Nat.add_comm 1 k]
      · rw [h] at back running first'
        -- the frame on top is gone for the first time at some point on the way
        have hex : ∃ j, ((busy (n + 1) (g :: f' :: rest) σ₁).run s false j).frames.length ≤
            (f' :: rest).length := ⟨k, Nat.le_succ_of_le back⟩
        obtain ⟨j, hj, hfirst⟩ : ∃ j, ((busy (n + 1) (g :: f' :: rest) σ₁).run s false
            j).frames.length ≤ (f' :: rest).length ∧ ∀ i < j, ¬ ((busy (n + 1)
            (g :: f' :: rest) σ₁).run s false i).frames.length ≤ (f' :: rest).length :=
          ⟨Nat.find hex, Nat.find_spec hex, fun i hi => Nat.find_min hex hi⟩
        have hjk : j ≤ k := Nat.le_of_not_lt fun hlt => hfirst k hlt (Nat.le_succ_of_le back)
        have hjrun := isRunning_of_run hjk running
        obtain ⟨w, versionW, σ₂, hr, he⟩ := ih j (Nat.lt_succ_of_le hjk) _ g (f' :: rest) σ₁
          (fun i hi => Nat.lt_of_not_le (hfirst i hi)) hj hjrun
        obtain ⟨l, rfl⟩ := Nat.exists_eq_add_of_le hjk
        have onwards (i : Nat) : (busy (n + 1) (g :: f' :: rest) σ₁).run s false (j + i) =
            (busy (n + 1 + j) ((f'.observe versionW).push w :: rest) σ₂).run s false i := by
          rw [run_add, he, handDown_cons]
        rw [onwards] at back running
        obtain ⟨v, version, σ', hr', he'⟩ := ih l (by omega) _ _ rest σ₂
          (fun i hi => onwards i ▸ first' (j + i) (Nat.add_lt_add_left hi j)) back running
        refine ⟨v, version, σ', .nest h hr hr', ?_⟩
        have hn : n + 1 + j + l = n + (j + l + 1) := by omega
        rw [step, h, onwards, he', hn]
      · cases k with
        | zero => exact ⟨v, version, σ', .done h trivial, by rw [step, h, run_zero]⟩
        | succ k =>
          have hlt := first' 0 (Nat.succ_pos k)
          rw [run_zero, h] at hlt
          cases rest with
          | nil =>
            rw [h, handDown_nil, run_of_ended rfl] at running
            cases running
          | cons g rest =>
            rw [handDown_cons] at hlt
            exact absurd hlt (Nat.lt_irrefl _)
      · have hs : ((busy n (f :: rest) σ).advance s).isRunning = false := by
          rw [isRunning, h]
        rw [run_of_ended hs, hs] at running
        cases running

/-- The last value of the frame on top. -/
def topValue? (m : Machine) : Option Value := m.frames.head?.bind (·.values.head?)

/-- The frame on top is about to call a function, and when the machine next comes back to that frame,
the call has this value. -/
structure Calls (s : Setting) (m : Machine) (c : Closure) (arguments : List Value) (v : Value) :
    Prop where
  started : m.started = true
  atCall : ∃ f rest values, m.frames = f :: rest ∧
    f.steps[f.cursor]? = some (.apply (.call arguments.length)) ∧
    f.values = arguments.reverse ++ .function c :: values
  arity : c.parameters.length = arguments.length
  returns : ∃ k, (∀ j < k, m.frames.length < (m.run s false (j + 1)).frames.length) ∧
    (m.run s false (k + 1)).frames.length ≤ m.frames.length ∧
    (m.run s false (k + 1)).isRunning = true ∧ (m.run s false (k + 1)).topValue? = some v

/-- Then the body of the function comes to the value, in a new scope inside the one that it has kept. -/
theorem Calls.runs {c : Closure} {arguments : List Value} {v : Value} (h : m.Calls s c arguments v)
    (live : c.scope < m.scopes.all.size) : ∃ k version, ∃ σ σ' : State,
      σ.scopes = (m.scopes.addChild c.scope).2.defineAll m.scopes.all.size
        (c.parameters.zip arguments) ∧
      Runs s (fun _ _ => True) k (.start c.body (s.program.tree.steps c.body) m.scopes.all.size) σ v
        version σ' := by
  obtain ⟨f, rest, values, hm, ho, hv⟩ := h.atCall
  obtain ⟨k, first, back, running, top⟩ := h.returns
  have hrunning : m.isRunning = true := isRunning_of_run (Nat.zero_le (k + 1)) running
  let σ : State := ⟨m.record.withSteps 0, m.scopes, rfl⟩
  have heq : m = busy m.record.steps (f :: rest) σ := by
    have hstatus : m.status = .running := by
      unfold isRunning at hrunning
      split at hrunning
      · assumption
      · cases hrunning
    obtain ⟨frames, record, scopes, started, status⟩ := m
    obtain rfl : started = true := h.started
    obtain rfl : frames = f :: rest := hm
    obtain rfl : status = .running := hstatus
    rfl
  have hbudget : m.record.steps < s.budget := by
    refine Nat.lt_of_not_le fun hb => ?_
    rw [heq, run_succ, tick_spent hb, run_of_ended rfl] at running
    cases running
  have call (j : Nat) : m.run s false (j + 1) =
      ((busy (m.record.steps + 1) ({ f with cursor := f.cursor + 1, values } :: rest)
        (σ.called c arguments)).call s c.body m.scopes.all.size).run s false j := by
    conv_lhs => rw [heq]
    rw [run_succ, tick_busy hbudget, advance_call ho hv h.arity live]
  have inside : c.body < s.program.tree.size := by
    refine Nat.lt_of_not_le fun hb => ?_
    rw [call, call_of_outside hb, run_of_ended rfl] at running
    cases running
  have step (j : Nat) : m.run s false (j + 1) =
      (busy (m.record.steps + 1) (.start c.body (s.program.tree.steps c.body) m.scopes.all.size ::
        { f with cursor := f.cursor + 1, values } :: rest)
        ((σ.called c arguments).enter c.body)).run s false j := by
    rw [call, call_busy inside]
  rw [step] at back running top
  rw [hm] at first back
  obtain ⟨u, version, σ', hr, he⟩ :=
    runs_of_return k _ _ _ _ (fun j hj => step j ▸ first j hj) back running
  rw [he] at top
  obtain rfl : u = v := Option.some.inj top
  exact ⟨k, version, _, σ', rfl, hr⟩

end Machine
end StreamLang
