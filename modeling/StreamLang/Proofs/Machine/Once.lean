import StreamLang.Proofs.Machine.Bound
import StreamLang.Proofs.Machine.Calls
import StreamLang.Proofs.Reuse.Records
/-!
What is written while a node runs. A node that calls nothing only enters its children before it
finishes, so in a tree without calls nothing outside of a node is written while it runs, and what a
pass has for a node is what the node has handed down.
-/
namespace StreamLang

theorem Record.written?_noteFinish (s : Setting) (r : Record) (f : Frame) (v : Value) (i : NodeId) :
    (s.noteFinish r f v).written? i = if f.node = i then some v else r.written? i := by
  rw [written?, s.noteFinish_writes, Assoc.get?_put]
  split <;> rfl

namespace Machine

variable {s : Setting} {P : NodeId → Value → Prop}
  {E : Frame → State → Value → Option Nat → State → Prop} {i : NodeId} {n : Node} {x : ScopeId}
  {σ σ' : State} {v : Value} {version : Option Nat}

theorem written?_finish (σ : State) (version : Option Nat) (i j : NodeId) (v : Value) :
    (σ.finish s i version v).record.written? j =
      if i = j then some v else σ.record.written? j := Record.written?_noteFinish s _ _ v j

/-- Before it finishes, a node that calls nothing does no more than to enter children, as far as one
can see from what is written. -/
theorem Follows.finishes {C : State → Prop} (hi : s.program.tree.Working i n) (hk : n.kind ≠ .call)
    (h : Follows s P E (.start i (s.program.tree.steps i) x) σ v version σ')
    (enters : ∀ c ∈ n.children, ∀ {y σ u versionC σ'}, Enters s E c y σ u versionC σ' → C σ → C σ')
    (writes : ∀ {τ τ' : State}, τ'.record.writes = τ.record.writes → C τ → C τ') (hσ : C σ) :
    ∃ τ, C τ ∧ σ' = τ.finish s i version v := by
  have leaf (hu : (leaf? s i n x σ.scopes).isSome) : ∃ τ, C τ ∧ σ' = τ.finish s i version v := by
    obtain ⟨u, hu⟩ := Option.isSome_iff_exists.1 hu
    obtain ⟨-, rfl, rfl, rfl⟩ := (follows_leaf hi hu).1 h
    exact ⟨σ, hσ, rfl⟩
  have gather (hg : gathers n.kind = true) : ∃ τ, C τ ∧ σ' = τ.finish s i version v := by
    obtain ⟨vs, σ₁, hall, -, -, rfl⟩ := (follows_gather hi hg).1 h
    exact ⟨σ₁, hall.keeps (fun c hc _ _ _ _ => enters c hc) hσ, rfl⟩
  have read {stream : String} {mode : FetchMode} (hr : reads? n.kind = some (stream, mode)) :
      ∃ τ, C τ ∧ σ' = τ.finish s i version v := by
    obtain ⟨-, rfl, rfl, rfl⟩ := (follows_read hi hr).1 h
    exact ⟨_, writes (fetch_record s σ.record i stream mode).1 hσ, rfl⟩
  cases hkind : n.kind
  case program | bind | list | struct | property | binary | unary =>
    exact gather (by rw [hkind]; rfl)
  case stream | changed => exact read (by rw [hkind]; rfl)
  case number | text | boolean | placeholder | reference | function =>
    exact leaf (by simp only [leaf?, hkind, Option.isSome_some])
  case previous =>
    refine leaf ?_
    simp only [leaf?, hkind]
    split <;> rfl
  case call => exact absurd hkind hk
  case block =>
    obtain ⟨σ₁, hs, -, rfl⟩ := (follows_block hi hkind).1 h
    have opened : C (σ.openScope x) := @writes σ _ rfl hσ
    refine ⟨σ₁, hs.keeps (fun c hc _ _ _ _ => enters c hc) (fun hC => ?_) opened, rfl⟩
    exact writes (congrArg Record.writes (bound_record ..)) hC
  case conditional =>
    obtain ⟨a, yes, no, hc⟩ := hi.conditional_children hkind
    obtain ⟨u, versionU, σ₁, hea, h⟩ := (follows_conditional hi hkind hc).1 h
    have ha := enters a (by simp [hc]) hea hσ
    cases htaken : taken? yes no u with
    | none =>
      rw [htaken] at h
      obtain ⟨-, -, rfl, rfl⟩ := h
      exact ⟨σ₁, ha, rfl⟩
    | some d =>
      rw [htaken] at h
      obtain ⟨versionD, σ₂, hed, -, rfl, rfl⟩ := h
      have hd : d ∈ n.children := by
        unfold taken? at htaken
        split at htaken <;> simp_all
      exact ⟨σ₂, enters d hd hed ha, rfl⟩
  case reaction =>
    obtain ⟨is, vs, versionC, σ₁, sub, hall, -, rfl⟩ := h.enters_of_reaction hi hkind
    exact ⟨σ₁, hall.keeps (fun c hc _ _ _ _ => enters c (sub.subset hc)) hσ, rfl⟩

variable {t : Tree} (ht : s.program.tree = t) (o : t.Ordered) (calls : ∀ i, t.kind? i ≠ some .call)
include ht o calls

/-- While a node is entered, nothing is written outside of it. -/
theorem Enters.written?_outside (h : Enters s (Completes s P) i x σ v version σ') (hi : i < t.size)
    {j : NodeId} (hj : ¬ t.Within i j) : σ'.record.written? j = σ.record.written? j := by
  induction i using Nat.strong_induction_on generalizing x σ v version σ' with
  | _ i ih =>
    have hne : i ≠ j := by
      rintro rfl
      exact hj (.refl i)
    unfold Enters at h
    split at h
    · obtain ⟨-, -, rfl⟩ := h
      exact Record.written?_congr (s.noteReuse_writes σ.record i) j
    replace h := completes_iff.1 h.2
    rcases Tree.fault_or_working (Tree.lt_size_iff.1 hi) with ⟨kind, message, hf⟩ | ⟨n, hw⟩
    · obtain ⟨-, -, -, rfl⟩ := (follows_fault (ht ▸ hf)).1 h
      rw [written?_finish, if_neg hne]
      rfl
    have hcall : n.kind ≠ .call := fun hk => calls i (hw.kind.trans (by rw [hk]))
    have child (c : NodeId) (hc : c ∈ n.children) {y : ScopeId} {τ τ' : State} {u : Value}
        {versionC : Option Nat} (he : Enters s (Completes s P) c y τ u versionC τ')
        (hτ : τ.record.written? j = σ.record.written? j) :
        τ'.record.written? j = σ.record.written? j := by
      have hc : c ∈ t.children i := hw.children ▸ hc
      have hlt := o.child_lt hc
      rw [ih c hlt he (Nat.lt_trans hlt hi) fun hcj => hj ((Tree.Within.child hc).trans hcj), hτ]
    obtain ⟨τ, hτ, rfl⟩ := h.finishes (C := fun τ => τ.record.written? j = σ.record.written? j)
      (ht ▸ hw) hcall (fun c hc _ _ _ _ _ => child c hc)
      (fun hw' hC => (Record.written?_congr hw' j).trans hC) rfl
    rw [written?_finish, if_neg hne, hτ]

omit o in
/-- What a node has handed down is what the pass has for it. -/
theorem Enters.came (h : Enters s (Completes s P) i x σ v version σ') (hi : i < t.size)
    (fresh : σ.record.written? i = none) : s.came σ'.record i = some v := by
  unfold Enters at h
  split at h
  · rename_i u hr
    obtain ⟨rfl, -, rfl⟩ := h
    have hw : (σ.reuse s i).record.written? i = none :=
      (Record.written?_congr (s.noteReuse_writes σ.record i) i).trans fresh
    rw [Setting.came_of_not_written hw]
    exact Setting.value?_of_reuse? hr
  replace h := completes_iff.1 h.2
  have finished (τ : State) : s.came (τ.finish s i version v).record i = some v :=
    Setting.came_of_written (by rw [written?_finish, if_pos rfl])
  rcases Tree.fault_or_working (Tree.lt_size_iff.1 hi) with ⟨kind, message, hf⟩ | ⟨n, hw⟩
  · obtain ⟨-, rfl, rfl, rfl⟩ := (follows_fault (ht ▸ hf)).1 h
    exact finished _
  have hcall : n.kind ≠ .call := fun hk => calls i (hw.kind.trans (by rw [hk]))
  obtain ⟨τ, -, rfl⟩ := h.finishes (C := fun _ => True) (ht ▸ hw) hcall
    (fun _ _ _ _ _ _ _ _ _ => trivial) (fun _ _ => trivial) trivial
  exact finished τ

/-- Entering nodes in turn writes nothing outside of them. -/
theorem EntersAll.written?_outside {is : List NodeId} {vs : List Value}
    (h : EntersAll s (Completes s P) x is σ vs version σ') (hlt : ∀ c ∈ is, c < t.size) {j : NodeId}
    (hj : ∀ c ∈ is, ¬ t.Within c j) : σ'.record.written? j = σ.record.written? j :=
  h.keeps (C := fun τ => τ.record.written? j = σ.record.written? j)
    (fun c hc _ _ _ _ he hC => (he.written?_outside ht o calls (hlt c hc) (hj c hc)).trans hC) rfl

theorem Statements.written?_outside {is : List NodeId}
    (h : Statements s (Completes s P) x is σ v version σ') (hlt : ∀ c ∈ is, c < t.size) {j : NodeId}
    (hj : ∀ c ∈ is, ¬ t.Within c j) : σ'.record.written? j = σ.record.written? j :=
  h.keeps (C := fun τ => τ.record.written? j = σ.record.written? j)
    (fun c hc _ _ _ _ he hC => (he.written?_outside ht o calls (hlt c hc) (hj c hc)).trans hC)
    (fun hC => by rw [bound_record]; exact hC) rfl

end Machine
end StreamLang
