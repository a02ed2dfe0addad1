import StreamLang.Proofs.Tree.Focus
/-!
What becomes of a reaction in a pass. Without a state it is its first part. With one it keeps the
state if its other parts are calm, and gets the next state otherwise. So the values of all nodes of a
tree follow from what streams show, from the states, and from the marks that the parts of reactions have
when the pass begins (`Focus.exists_turns`).
-/
namespace StreamLang
namespace Tree

/-- The state that follows on another one. -/
def nextState (r : NodeId) (n : Node) (V : NodeId → Value) (kept : Value) : Value :=
  match n.children with
  | [_, next] => V next
  | [_, condition, next] => match V condition with
    | .boolean true => V next
    | .boolean false => kept
    | u => Machine.refused r u
  | _ => default

/-- Nothing affects a node: it has no mark, or is in doubt about binds that have the values that they
had. -/
def Quiet (t : Tree) (s : Staleness) (V V' : NodeId → Value) (c : NodeId) : Prop :=
  s.mark? c = none ∨ s.mark? c = some .maybeDirty ∧
    ∀ b ∈ (Analysis.ofTree t).dependencies c, V b = V' b

/-- Nothing affects the parts of a reaction. -/
def Calm (t : Tree) (s : Staleness) (V V' : NodeId → Value) (r : NodeId) : Prop :=
  ∀ c ∈ t.checked r, t.Quiet s V V' c

theorem Quiet.congr {t : Tree} {s s' : Staleness} {V V' U : NodeId → Value} {c : NodeId}
    (h : t.Quiet s V V' c) (mark : s'.mark? c = s.mark? c)
    (same : ∀ b ∈ (Analysis.ofTree t).dependencies c, U b = V' b) : t.Quiet s' V U c := by
  rw [Quiet, mark]
  exact h.imp_right fun ⟨hm, hb⟩ => ⟨hm, fun b hd => (hb b hd).trans (same b hd).symm⟩

/-- The condition keeps the last part of a reaction from running, and the reaction has the state that
it would get again. -/
def Idle (left : NodeId → Prop) (V : NodeId → Value) (r : NodeId) (n : Node) (c : NodeId) : Prop :=
  ∃ a d, n.children = [a, d, c] ∧ ¬ left d ∧ V d ≠ .boolean true ∧ nextState r n V (V r) = V r

open Classical in
/-- What becomes of a reaction in a pass with the values `V'` that follows on one with the values `V`. -/
noncomputable def turn (t : Tree) (s : Staleness) (w : World) (V V' : NodeId → Value) (r : NodeId)
    (n : Node) : Value :=
  match w.states r with
  | none => V' (n.children.headD r)
  | some kept => if t.Calm s V V' r then kept else nextState r n V' kept

/-- What a node draws on in a pass: what decides it, and of a reaction the parts that it comes to. -/
def Draws (t : Tree) (states : NodeId → Option Value) (V : NodeId → Value) (i m : NodeId) : Prop :=
  t.Decides V i m ∨ ∃ n, t.Working i n ∧ n.kind = .reaction ∧ match states i, n.children with
    | none, first :: _ => m = first
    | some _, [_, next] => m = next
    | some _, [_, condition, next] => m = condition ∨ V condition = .boolean true ∧ m = next
    | _, _ => False

variable {t : Tree} {f : t.Focus} {left left' : NodeId → Prop} {s : Staleness} {w : World}
  {V V' U : NodeId → Value} {r a d c m i : NodeId} {n : Node} {kept : Value}

/-- As long as its condition keeps it from running, a reaction does not look at its last part. -/
theorem nextState_congr (hn : n.children = [a, d, c]) (hd : V d ≠ .boolean true) (same : V' d = V d) :
    nextState r n V' kept = nextState r n V kept := by
  simp only [nextState, hn, same]
  cases hv : V d with
  | boolean b =>
    cases b with
    | true => exact absurd hv hd
    | false => rfl
  | _ => rfl

/-- What a condition that does not let the reaction run makes of a state, it makes of that again. -/
theorem nextState_nextState (hn : n.children = [a, d, c]) (hd : V d ≠ .boolean true) :
    nextState r n V (nextState r n V kept) = nextState r n V kept := by
  simp only [nextState, hn]
  cases hv : V d with
  | boolean b =>
    cases b with
    | true => exact absurd hv hd
    | false => rfl
  | _ => rfl

theorem turn_of_none (h : w.states r = none) : t.turn s w V V' r n = V' (n.children.headD r) := by
  simp only [turn, h]

theorem turn_of_calm (h : w.states r = some kept) (hc : t.Calm s V V' r) :
    t.turn s w V V' r n = kept := by
  simp only [turn, h, if_pos hc]

theorem turn_of_not_calm (h : w.states r = some kept) (hc : ¬ t.Calm s V V' r) :
    t.turn s w V V' r n = nextState r n V' kept := by
  simp only [turn, h, if_neg hc]

/-- An idle reaction keeps its state as long as its condition has the value that it had. -/
theorem turn_of_idle (h : w.states r = some (V r)) (hi : Idle left V r n c)
    (same : ∀ a d, n.children = [a, d, c] → V d = V' d) : t.turn s w V V' r n = V r := by
  obtain ⟨a, d, hn, -, hd, hstate⟩ := hi
  by_cases hc : t.Calm s V V' r
  · exact turn_of_calm h hc
  · rw [turn_of_not_calm h hc, nextState_congr hn hd (same a d hn).symm, hstate]

namespace Focus

namespace Reacts

variable (h : f.Reacts r n)
include h

/-- What a reaction draws on are the parts that it comes to. -/
theorem draws_iff {states : NodeId → Option Value} : t.Draws states V r m ↔
    match states r, n.children with
    | none, first :: _ => m = first
    | some _, [_, next] => m = next
    | some _, [_, condition, next] => m = condition ∨ V condition = .boolean true ∧ m = next
    | _, _ => False := by
  constructor
  · rintro (hd | ⟨n', hw, -, hm⟩)
    · exact absurd h.kind? hd.not_reaction
    · rwa [h.working.unique hw] at hm
  · exact fun hm => .inr ⟨n, h.working, h.kind, hm⟩

theorem transGen_of_dependency {b : NodeId} (hc : c ∈ t.checked r)
    (hb : b ∈ (Analysis.ofTree t).dependencies c) : Relation.TransGen t.Needs r b := by
  obtain ⟨j, hj, hres, -⟩ := (Analysis.mem_dependencies f.ordered).1 hb
  have down : Relation.ReflTransGen t.Needs c j := Relation.ReflTransGen.mono (fun _ _ => .inl) _ _ hj
  exact (Relation.TransGen.head' (.inl (h.mem_children_of_checked hc)) down).tail (.inr hres)

theorem nextState_near (same : ∀ m ∈ n.children, V m = V' m) :
    nextState r n V kept = nextState r n V' kept := by
  rcases h.children_cases with ⟨a, c, hn⟩ | ⟨a, d, c, hn⟩
  · simp only [nextState, hn, same c (by simp [hn])]
  · simp only [nextState, hn, same d (by simp [hn]), same c (by simp [hn])]

/-- The turn of a reaction depends on what it needs only. -/
theorem turn_near (same : ∀ m, Relation.TransGen t.Needs r m → V' m = U m) :
    t.turn s w V V' r n = t.turn s w V U r n := by
  have part (m : NodeId) (hm : m ∈ n.children) : V' m = U m :=
    same m (.single (.inl (h.working.children ▸ hm)))
  have calm : t.Calm s V V' r ↔ t.Calm s V U r := by
    have dependency (c : NodeId) (hc : c ∈ t.checked r) (b : NodeId)
        (hb : b ∈ (Analysis.ofTree t).dependencies c) : V' b = U b :=
      same b (h.transGen_of_dependency hc hb)
    exact forall₂_congr fun c hc => ⟨fun hq => hq.congr rfl fun b hb => (dependency c hc b hb).symm,
      fun hq => hq.congr rfl (dependency c hc)⟩
  cases hs : w.states r with
  | none =>
    rw [turn_of_none hs, turn_of_none hs]
    refine part _ ?_
    rcases h.children_cases with ⟨a, c, hn⟩ | ⟨a, d, c, hn⟩ <;> simp [hn]
  | some kept =>
    by_cases hc : t.Calm s V V' r
    · rw [turn_of_calm hs hc, turn_of_calm hs (calm.1 hc)]
    · rw [turn_of_not_calm hs hc, turn_of_not_calm hs (mt calm.2 hc), h.nextState_near part]

/-- If the condition of an idle reaction has been looked at, it stays as it was if such nodes do. -/
theorem same_of_idle (hi : Idle left V r n m)
    (same : ∀ d ∈ t.children r, f.steady d → ¬ left d → V d = V' d) (a d : NodeId)
    (hn : n.children = [a, d, m]) : V d = V' d := by
  obtain ⟨a', d', hn', hd, -⟩ := hi
  obtain ⟨rfl, rfl, -⟩ : a' = a ∧ d' = d ∧ True := by simpa [hn'] using hn
  have hchildren : t.children r = [a', d', m] := h.working.children.trans hn'
  exact same d' (by simp [hchildren]) (h.posted.condition a' d' m hchildren) hd

end Reacts

namespace Reacts

variable (h : f.Reacts r n)
include h

/-- Of the marks of an idle reaction only that of its condition matters. -/
theorem turn_of_idle_congr {s' : Staleness} (kept : w.states r = some (V r)) (hi : Idle left V r n m)
    (marks : ∀ a d, n.children = [a, d, m] → s'.mark? d = s.mark? d)
    (same : ∀ a d, n.children = [a, d, m] → t.Quiet s V V' d → V d = V' d) :
    t.turn s' w V V' r n = t.turn s w V V' r n := by
  obtain ⟨a, d, hn, -⟩ := id hi
  have hd : d ∈ t.checked r := by simp [h.checked_eq, hn]
  have children {a' d' : NodeId} (hn' : n.children = [a', d', m]) : d' = d := by
    simpa [hn, eq_comm] using (List.cons.inj (hn'.symm.trans hn)).2
  by_cases hq : t.Quiet s V V' d
  · have same (a' d' : NodeId) (hn' : n.children = [a', d', m]) : V d' = V' d' :=
      children hn' ▸ same a d hn hq
    rw [turn_of_idle kept hi same, turn_of_idle kept hi same]
  · have hq' : ¬ t.Quiet s' V V' d := fun h => hq (h.congr (marks a d hn).symm fun _ _ => rfl)
    rw [turn_of_not_calm kept fun hc => hq (hc d hd), turn_of_not_calm kept fun hc => hq' (hc d hd)]

end Reacts

/-- In every world there are values in which all reactions have had their turns. -/
theorem exists_turns (f : t.Focus) (s : Staleness) (w : World) (V : NodeId → Value) :
    ∃ V', (∀ i, (∀ n, ¬ f.Reacts i n) → V' i = t.valueFrom w V' i) ∧
      ∀ r n, f.Reacts r n → V' r = t.turn s w V V' r n := by
  classical
  obtain ⟨V', hV'⟩ := f.ordered.exists_following f.isFunction
    (fun V' i => if h : ∃ n, f.Reacts i n then t.turn s w V V' i h.choose else t.valueFrom w V' i)
    fun V' U i same => by
      split
      · rename_i h
        exact h.choose_spec.turn_near same
      · exact valueFrom_of_needs fun m hm => same m (.single hm)
  refine ⟨V', fun i hi => ?_, fun r n hr => ?_⟩
  · rw [hV' i, dif_neg fun ⟨n, hn⟩ => hi n hn]
  · have h : ∃ n, f.Reacts r n := ⟨n, hr⟩
    rw [hV' r, dif_pos h, hr.unique h.choose_spec]

end Focus
end Tree
end StreamLang
