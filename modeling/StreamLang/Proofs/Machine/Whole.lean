import StreamLang.Proofs.Machine.Calls
import StreamLang.Proofs.Tree.Plain
/-!
Whole evaluations, from the start of the machine to its end. One that has ended with a value has
evaluated the root; and every program without calls has such an evaluation, if only the budget is
large enough.
-/
namespace StreamLang

namespace State

/-- The state in which the root is entered. -/
def initial (s : Setting) (scopes : Scopes) : State :=
  ⟨.empty, (scopes.addChild s.globals).2, rfl⟩

end State

namespace Machine

variable {s : Setting} {P : NodeId → Value → Prop} {scopes : Scopes} {v : Value}
  {version : Option Nat} {σ σ' : State}

theorem tick_start (s : Setting) (scopes : Scopes) : (start scopes).tick s false =
    (busy 0 [] (State.initial s scopes)).enter s s.root (scopes.addChild s.globals).1 := rfl

theorem isRunning_handDown_nil (n : Nat) (σ : State) (version : Option Nat) (v : Value) :
    ((busy n [] σ).handDown version v).isRunning = false := rfl

theorem value?_ofValue (v : Value) : (Terminal.ofValue v).value? = some v := by
  unfold Terminal.ofValue
  split <;> rfl

theorem endValue?_handDown_nil (n : Nat) (σ : State) (version : Option Nat) (v : Value) :
    ((busy n [] σ).handDown version v).endValue? = some v := value?_ofValue v

/-- A machine that has ended with a value has evaluated the root. -/
theorem enters_of_run {k : Nat}
    (hP : ∀ j < k, ∀ i u, ((start scopes).run s false j).completing? s = some (i, u) → P i u)
    (hv : ((start scopes).run s false k).endValue? = some v) :
    ∃ n version σ', Enters s (Completes s P) s.root (scopes.addChild s.globals).1 (State.initial s scopes) v
      version σ' ∧ (start scopes).run s false k = (busy n [] σ').handDown version v := by
  cases k with
  | zero => simp [start, endValue?, terminal?] at hv
  | succ k =>
    rw [run_succ, tick_start] at hv ⊢
    have hP' (j : Nat) (hj : j < k) := hP (j + 1) (Nat.succ_lt_succ hj)
    simp only [run_succ, tick_start] at hP'
    unfold Enters
    cases hr : s.reuse? (State.initial s scopes).record s.root with
    | some u =>
      rw [enter_of_reuse hr, run_of_ended (isRunning_handDown_nil _ _ _ _)] at hv ⊢
      rw [endValue?_handDown_nil] at hv
      obtain rfl := Option.some.inj hv
      exact ⟨0, none, _, ⟨rfl, rfl, rfl⟩, rfl⟩
    | none =>
      have inside : s.root < s.program.tree.size := by
        refine Nat.lt_of_not_le fun hi => ?_
        rw [enter_of_call hr, call_of_outside hi, run_of_ended rfl] at hv
        cases hv
      rw [enter_of_run hr inside] at hv hP' ⊢
      obtain ⟨j, l, u, version, σ', hk, hruns, he⟩ := runs_of_run k 0 _ [] _ hP' hv
      rw [hk, run_add, he, run_of_ended (isRunning_handDown_nil _ _ _ _)] at hv ⊢
      rw [endValue?_handDown_nil] at hv
      obtain rfl := Option.some.inj hv
      exact ⟨_, version, σ', ⟨inside, j, hruns⟩, rfl⟩

/-! ### Evaluations that exist -/

section CallFree

variable {t : Tree} (ht : s.program.tree = t) (o : t.Ordered) (free : t.CallFree) (hP : ∀ i v, P i v)

theorem exists_entersAll {x : ScopeId} (is : List NodeId)
    (ih : ∀ c ∈ is, ∀ σ, ∃ v version σ', Enters s (Completes s P) c x σ v version σ') (σ : State) :
    ∃ vs version σ', EntersAll s (Completes s P) x is σ vs version σ' := by
  induction is generalizing σ with
  | nil => exact ⟨[], none, σ, .nil⟩
  | cons c is ihAll =>
    obtain ⟨v, version, σ₁, first⟩ := ih c List.mem_cons_self σ
    obtain ⟨vs, versionS, σ', others⟩ := ihAll (fun d hd => ih d (List.mem_cons_of_mem _ hd)) σ₁
    exact ⟨v :: vs, _, σ', .cons first others⟩

theorem exists_statements {x : ScopeId} (is : List NodeId) (hne : is ≠ [])
    (ih : ∀ c ∈ is, ∀ σ, ∃ v version σ', Enters s (Completes s P) c x σ v version σ') (σ : State) :
    ∃ v version σ', Statements s (Completes s P) x is σ v version σ' := by
  induction is generalizing σ with
  | nil => exact absurd rfl hne
  | cons c is ihAll =>
    obtain ⟨v, version, σ₁, first⟩ := ih c List.mem_cons_self σ
    cases is with
    | nil => exact ⟨v, version, _, .last first⟩
    | cons d is =>
      obtain ⟨u, versionS, σ', others⟩ := ihAll (by simp)
        (fun d hd => ih d (List.mem_cons_of_mem _ hd)) (bound s x c v σ₁)
      exact ⟨u, _, σ', .cons first others⟩

/-- A reaction has one part to run, or looks at its condition first. -/
theorem exists_reaction {i : NodeId} {n : Node} {x : ScopeId} (hw : s.program.tree.Working i n)
    (hk : n.kind = .reaction) (hP : ∀ i v, P i v)
    (ih : ∀ c ∈ n.children, ∀ x σ, ∃ v version σ', Enters s (Completes s P) c x σ v version σ')
    (σ : State) : ∃ v version σ',
      Follows s P (Completes s P) (.start i (s.program.tree.steps i) x) σ v version σ' := by
  have only {c : NodeId} (hc : c ∈ n.children) (rule : ∀ v version σ',
      Follows s P (Completes s P) (.start i (s.program.tree.steps i) x) σ v version σ' ↔
        ∃ σ₁, Enters s (Completes s P) c x σ v version σ₁ ∧ P i v ∧ σ' = σ₁.finish s i version v) :
      ∃ v version σ', Follows s P (Completes s P) (.start i (s.program.tree.steps i) x) σ v version σ' := by
    obtain ⟨v, version, σ₁, he⟩ := ih c hc x σ
    exact ⟨v, version, _, (rule v version _).2 ⟨σ₁, he, hP _ _, rfl⟩⟩
  have hlength : n.children.length = 2 ∨ n.children.length = 3 := by
    simpa [hk, Tree.fits] using hw.fits
  cases hs : s.cache.has i with
  | false =>
    have hne : n.children ≠ [] := by
      rintro h
      simp [h] at hlength
    obtain ⟨a, more, hc⟩ := List.exists_cons_of_ne_nil hne
    exact only (hc ▸ List.mem_cons_self) fun _ _ _ => follows_reaction hw hk hc hs
  | true =>
    rcases hlength with hlength | hlength
    · obtain ⟨a, b, hc⟩ := List.length_eq_two.1 hlength
      exact only (c := b) (by simp [hc]) fun _ _ _ => follows_reaction_next hw hk hc hs
    obtain ⟨a, b, c, hc⟩ := List.length_eq_three.1 hlength
    obtain ⟨e, he⟩ := Option.isSome_iff_exists.1 hs
    have hkept : s.cache.value? i = some e.value := by
      rw [Cache.value?, he]
      rfl
    obtain ⟨w, versionW, σ₁, hb⟩ := ih b (by simp [hc]) x σ
    by_cases hyes : w = .boolean true
    · subst hyes
      obtain ⟨v, versionD, σ₂, hd⟩ := ih c (by simp [hc]) x σ₁
      exact ⟨v, _, _, (follows_reaction_when hw hk hc hkept).2
        ⟨_, versionW, σ₁, hb, versionD, σ₂, hd, hP _ _, rfl, rfl⟩⟩
    by_cases hno : w = .boolean false
    · subst hno
      exact ⟨e.value, _, _, (follows_reaction_when hw hk hc hkept).2
        ⟨_, versionW, σ₁, hb, rfl, hP _ _, rfl, rfl⟩⟩
    refine ⟨refused i w, versionW, σ₁.finish s i versionW (refused i w),
      (follows_reaction_when hw hk hc hkept).2 ⟨w, versionW, σ₁, hb, ?_⟩⟩
    split
    · exact absurd rfl hyes
    · exact absurd rfl hno
    · exact ⟨rfl, hP _ _, rfl, rfl⟩

include ht o free hP

/-- Every node of a tree without calls can be evaluated in any state. -/
theorem exists_enters {i : NodeId} (hi : i < t.size) (x : ScopeId) (σ : State) :
    ∃ v version σ', Enters s (Completes s P) i x σ v version σ' := by
  induction i using Nat.strong_induction_on generalizing x σ with
  | _ i ih =>
    unfold Enters
    cases hr : s.reuse? σ.record i with
    | some u => exact ⟨u, none, _, rfl, rfl, rfl⟩
    | none =>
      have inside : i < s.program.tree.size := ht.symm ▸ hi
      simp only [inside, true_and, completes_iff]
      rcases Tree.fault_or_working (Tree.lt_size_iff.1 hi) with ⟨kind, message, hf⟩ | ⟨n, hw⟩
      · exact ⟨_, none, _, (follows_fault (ht ▸ hf)).2 ⟨hP _ _, rfl, rfl, rfl⟩⟩
      have hw' : s.program.tree.Working i n := ht.symm ▸ hw
      have child (c : NodeId) (hc : c ∈ n.children) (x : ScopeId) (σ : State) :
          ∃ v version σ', Enters s (Completes s P) c x σ v version σ' := by
        have hlt := o.child_lt (hw.children ▸ hc)
        exact ih c hlt (Nat.lt_trans hlt hi) x σ
      have leaf (hu : (leaf? s i n x (σ.enter i).scopes).isSome) : ∃ v version σ',
          Follows s P (Completes s P) (.start i (s.program.tree.steps i) x) (σ.enter i) v version σ' := by
        obtain ⟨u, hu⟩ := Option.isSome_iff_exists.1 hu
        exact ⟨u, none, _, (follows_leaf hw' hu).2 ⟨hP _ _, rfl, rfl, rfl⟩⟩
      have read {stream : String} {mode : FetchMode} (hk : reads? n.kind = some (stream, mode)) :
          ∃ v version σ', Follows s P (Completes s P) (.start i (s.program.tree.steps i) x) (σ.enter i) v version
            σ' := ⟨_, _, _, (follows_read hw' hk).2 ⟨hP _ _, rfl, rfl, rfl⟩⟩
      have gather (hg : gathers n.kind = true) : ∃ v version σ',
          Follows s P (Completes s P) (.start i (s.program.tree.steps i) x) (σ.enter i) v version σ' := by
        obtain ⟨vs, version, σ₁, hall⟩ :=
          exists_entersAll n.children (fun c hc σ => child c hc x σ) (σ.enter i)
        have hfits : Tree.fits n.kind vs.length = true := by
          rw [hall.length_eq]
          exact hw.fits
        obtain ⟨v, hv⟩ := Option.isSome_iff_exists.1 (gather?_isSome (i := i) hfits hg)
        exact ⟨v, version, _, (follows_gather hw' hg).2 ⟨vs, σ₁, hall, hv, hP _ _, rfl⟩⟩
      cases hk : n.kind
      case program | bind | list | struct | property | binary | unary =>
        exact gather (by rw [hk]; rfl)
      case stream | changed => exact read (by rw [hk]; rfl)
      case call => exact absurd (hw.kind.trans (congrArg some hk)) (free i)
      case number | text | boolean | placeholder | reference | function =>
        exact leaf (by simp only [leaf?, hk, Option.isSome_some])
      case previous =>
        refine leaf ?_
        simp only [leaf?, hk]
        split <;> rfl
      case reaction => exact exists_reaction hw' hk hP child (σ.enter i)
      case block =>
        have hne : n.children ≠ [] := by
          have := hw.fits
          rintro h
          simp [hk, Tree.fits, h] at this
        obtain ⟨v, version, σ₁, hs⟩ := exists_statements n.children hne
          (fun c hc σ => child c hc _ σ) ((σ.enter i).openScope x)
        exact ⟨v, version, _, (follows_block hw' hk).2 ⟨σ₁, hs, hP _ _, rfl⟩⟩
      case conditional =>
        obtain ⟨a, yes, no, hc⟩ := hw.conditional_children hk
        obtain ⟨u, versionU, σ₁, ha⟩ := child a (by simp [hc]) x (σ.enter i)
        cases htaken : taken? yes no u with
        | none =>
          refine ⟨refused i u, versionU, σ₁.finish s i versionU (refused i u),
            (follows_conditional hw' hk hc).2 ⟨u, versionU, σ₁, ha, ?_⟩⟩
          rw [htaken]
          exact ⟨rfl, hP _ _, rfl, rfl⟩
        | some d =>
          have hd : d ∈ n.children := by
            unfold taken? at htaken
            split at htaken <;> simp_all
          obtain ⟨v, versionD, σ₂, hed⟩ := child d hd x σ₁
          refine ⟨v, Frame.newer versionU versionD, σ₂.finish s i (Frame.newer versionU versionD) v,
            (follows_conditional hw' hk hc).2 ⟨u, versionU, σ₁, ha, ?_⟩⟩
          rw [htaken]
          exact ⟨versionD, σ₂, hed, hP _ _, rfl, rfl⟩

end CallFree

/-! ### Budgets -/

theorem Runs.budget {k : Nat} {f : Frame} (h : Runs s P k f σ v version σ') (budget : Nat) :
    Runs { s with budget } P k f σ v version σ' := by
  induction h with
  | done h ok => exact .done h ok
  | move h _ ih => exact .move h ih
  | nest h _ _ ih ih' => exact .nest h ih ih'

/-- The machine has ended with a value, has spent its budget or is broken. -/
def Stopped (m : Machine) : Prop :=
  (∃ v, m.status = .ended (.ofValue v)) ∨ m.status = .ended .budgetExceeded ∨
    ∃ fault, m.status = .broken fault

theorem Stopped.run {m : Machine} (h : m.Stopped) (n : Nat) : (m.run s false n).Stopped := by
  rw [run_of_ended]
  · exact h
  · rcases h with ⟨v, h⟩ | h | ⟨fault, h⟩ <;> simp [isRunning, h]

/-- Each tick takes a step of the budget, so the machine stops in the end. -/
theorem stopped_run_busy (k n : Nat) (h : s.budget ≤ n + k) (frames : List Frame) (σ : State) :
    ((busy n frames σ).run s false (k + 1)).Stopped := by
  induction k generalizing n frames σ with
  | zero =>
    have hb : s.budget ≤ n := h
    rw [run_succ, tick_spent hb]
    exact Stopped.run (.inr (.inl rfl)) 0
  | succ k ih =>
    rw [run_succ]
    by_cases hb : s.budget ≤ n
    · rw [tick_spent hb]
      exact Stopped.run (.inr (.inl rfl)) _
    rw [tick_busy (Nat.lt_of_not_le hb)]
    cases frames with
    | nil => exact Stopped.run (.inr (.inr ⟨.noFrame, rfl⟩)) _
    | cons f rest =>
      have next := ih (n + 1) (by omega)
      rcases outcome s f σ with ⟨f', σ₁, h⟩ | ⟨g, f', σ₁, h⟩ | ⟨v, version, σ', h, -⟩ | ⟨fault, h⟩
      · rw [h]
        exact next _ _
      · rw [h]
        exact next _ _
      · rw [h]
        cases rest with
        | nil => exact Stopped.run (.inl ⟨v, rfl⟩) _
        | cons g rest =>
          rw [handDown_cons]
          exact next _ _
      · exact Stopped.run (.inr (.inr ⟨fault, h n rest⟩)) _

/-- A pass that nobody asks to abort ends in one of three ways. -/
theorem stopped_finish (s : Setting) (scopes : Scopes) :
    ((start scopes).finish s false).Stopped := by
  rw [finish, run_succ, tick_start]
  cases hr : s.reuse? (State.initial s scopes).record s.root with
  | some u =>
    rw [enter_of_reuse hr]
    exact Stopped.run (.inl ⟨u, rfl⟩) _
  | none =>
    rcases Nat.lt_or_ge s.root s.program.tree.size with hi | hi
    · rw [enter_of_run hr hi]
      exact stopped_run_busy _ 0 (by omega) _ _
    · rw [enter_of_call hr, call_of_outside hi]
      exact Stopped.run (.inr (.inr ⟨_, rfl⟩)) _

/-- An evaluation of the root takes place as soon as the budget suffices. -/
theorem finish_of_enters (h : Enters s (Completes s P) s.root (scopes.addChild s.globals).1
    (State.initial s scopes) v version σ') : ∃ needed, ∀ budget, needed ≤ budget →
      ((start scopes).finish { s with budget } false).status = .ended (.ofValue v) := by
  have settle {k : Nat} {m : Machine} (n l : Nat) {s : Setting}
      (hm : m.run s false k = (busy n [] σ').handDown version v) :
      (m.run s false (k + l)).status = .ended (.ofValue v) := by
    rw [run_add, hm, run_of_ended (isRunning_handDown_nil _ _ _ _)]
    rfl
  unfold Enters at h
  cases hr : s.reuse? (State.initial s scopes).record s.root with
  | some u =>
    rw [hr] at h
    obtain ⟨rfl, rfl, rfl⟩ := h
    refine ⟨0, fun budget _ => ?_⟩
    have htick : (start scopes).tick { s with budget } false =
        (busy 0 [] ((State.initial s scopes).reuse s s.root)).handDown none v :=
      enter_of_reuse hr 0 []
    rw [finish, run_succ, htick, run_of_ended (isRunning_handDown_nil _ _ _ _)]
    rfl
  | none =>
    rw [hr] at h
    obtain ⟨inside, k, hk⟩ := h
    refine ⟨k, fun budget hb => ?_⟩
    have htick : (start scopes).tick { s with budget } false =
        busy 0 [.start s.root (s.program.tree.steps s.root) (scopes.addChild s.globals).1]
          ((State.initial s scopes).enter s.root) := enter_of_run hr inside 0 []
    have hrun := run_of_runs (hk.budget budget) 0 (by simpa using hb) []
    obtain ⟨l, hl⟩ := Nat.exists_eq_add_of_le (Nat.le_succ_of_le hb)
    have hb : budget + 2 = k + l + 1 := by omega
    rw [finish, run_succ, htick]
    have hl : budget + 1 = k + l := by omega
    rw [hl]
    exact settle _ l hrun

end Machine
end StreamLang
