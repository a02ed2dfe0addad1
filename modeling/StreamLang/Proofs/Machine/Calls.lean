import StreamLang.Proofs.Machine.Kinds
/-!
The big-step rules of calls and of reactions, with a state and without. A call evaluates what it calls
and its arguments, and then either has its value at once or runs a body in a new scope; a function
whose scope is gone breaks the machine.
-/
namespace StreamLang

/-- The state in which the body of a function is entered. -/
def State.called (σ : State) (c : Closure) (arguments : List Value) : State :=
  (σ.openScope c.scope).define (σ.scopes.addChild c.scope).1 (c.parameters.zip arguments)

namespace Machine

variable {s : Setting} {P : NodeId → Value → Prop}
  {E : Frame → State → Value → Option Nat → State → Prop} {f : Frame} {σ σ' : State} {v : Value}
  {version : Option Nat}

/-- A function with the right number of arguments is called in a new scope. -/
theorem advance_call {c : Closure} {arguments values : List Value}
    (ho : f.steps[f.cursor]? = some (.apply (.call arguments.length)))
    (hv : f.values = arguments.reverse ++ .function c :: values)
    (arity : c.parameters.length = arguments.length) (live : c.scope < σ.scopes.all.size) (n : Nat)
    (rest : List Frame) : (busy n (f :: rest) σ).advance s =
      (busy (n + 1) ({ f with cursor := f.cursor + 1, values } :: rest) (σ.called c arguments)).call s
        c.body σ.scopes.all.size := by
  have hfew : ¬ f.values.length < arguments.length := by simp [hv]
  have htarget : f.values.drop arguments.length = .function c :: values := by simp [hv]
  have hlast : ({ f with cursor := f.cursor + 1 } : Frame).lastValues arguments.length =
      arguments := by simp [Frame.lastValues, hv]
  have hcallee : callee f.node (.function c) arguments.length = .body c := if_pos arity
  have hlive : ¬ (busy (n + 1) (f :: rest) σ).scopes.all.size ≤ c.scope := Nat.not_le.2 live
  rw [advance_busy, ho]
  simp only [execute, apply, if_neg hfew, htarget, hlast, applyCallee, hcallee, if_neg hlive]
  rfl

/-- The operation of a call, after what is called and the arguments have been evaluated. -/
theorem follows_applyCall {i : NodeId} {x : ScopeId} {k : Nat} {steps : List Step} {target : Value}
    {arguments : List Value} {versionC : Option Nat}
    (ho : steps[k]? = some (.apply (.call arguments.length))) (hf : steps[k + 1]? = some .finish) :
    Follows s P E ⟨i, steps, k, (target :: arguments).reverse, x, versionC⟩ σ v version σ' ↔
      match callee i target arguments.length with
      | .value w => P i w ∧ v = w ∧ version = versionC ∧ σ' = σ.finish s i versionC w
      | .body c => c.scope < σ.scopes.all.size ∧ c.body < s.program.tree.size ∧ ∃ versionB σ₁,
        E (.start c.body (s.program.tree.steps c.body) (σ.scopes.addChild c.scope).1)
          ((σ.called c arguments).enter c.body) v versionB σ₁ ∧ P i v ∧
        version = Frame.newer versionC versionB ∧ σ' = σ₁.finish s i version v := by
  have h (n : Nat) (rest : List Frame) :
      (busy n (⟨i, steps, k, (target :: arguments).reverse, x, versionC⟩ :: rest) σ).advance s =
        (busy (n + 1) (⟨i, steps, k, (target :: arguments).reverse, x, versionC⟩ :: rest) σ).applyCallee
          s ⟨i, steps, k + 1, [], x, versionC⟩ rest target arguments := by
    have hfew : ¬ (target :: arguments).reverse.length < arguments.length := by simp
    rw [advance_busy, ho]
    simp only [execute, apply, if_neg hfew]
    simp [Frame.lastValues]
  have finishing (w : Value) (version' : Option Nat) (τ : State) :
      Follows s P E ⟨i, steps, k + 1, [w], x, version'⟩ τ v version σ' ↔
        P i w ∧ v = w ∧ version = version' ∧ σ' = τ.finish s i version' w :=
    follows_finish (w := w) (u := []) hf rfl
  cases hk : callee i target arguments.length with
  | value w =>
    have onwards (n : Nat) (rest : List Frame) :
        (busy n (⟨i, steps, k, (target :: arguments).reverse, x, versionC⟩ :: rest) σ).advance s =
          busy (n + 1) (⟨i, steps, k + 1, [w], x, versionC⟩ :: rest) σ := by
      rw [h]
      simp only [applyCallee, hk]
      rfl
    rw [follows_move onwards]
    exact finishing w versionC σ
  | body c =>
    by_cases hc : σ.scopes.all.size ≤ c.scope
    · have hbroken (n : Nat) (rest : List Frame) :
          ((busy n (⟨i, steps, k, (target :: arguments).reverse, x, versionC⟩ :: rest) σ).advance
            s).status = .broken (.lostScope c.function) := by
        rw [h]
        simp only [applyCallee, hk, busy, hc, if_true]
        rfl
      constructor
      · exact fun hf => absurd hf (not_follows_of_broken hbroken)
      · rintro ⟨hlt, -⟩
        exact absurd hlt (Nat.not_lt.2 hc)
    obtain ⟨rfl, arity⟩ := callee_eq_body hk
    have top : (.function c :: arguments).reverse = arguments.reverse ++ .function c :: [] := by simp
    have called := advance_call (f := ⟨i, steps, k, (.function c :: arguments).reverse, x, versionC⟩)
      (s := s) (σ := σ) ho top arity (Nat.lt_of_not_le hc)
    by_cases hb : s.program.tree.size ≤ c.body
    · have hbroken (n : Nat) (rest : List Frame) :
          ((busy n (⟨i, steps, k, (.function c :: arguments).reverse, x, versionC⟩ :: rest) σ).advance
            s).status = .broken (.outside c.body s.program.tree.size) := by
        rw [called, call_of_outside hb]
        rfl
      constructor
      · exact fun hf => absurd hf (not_follows_of_broken hbroken)
      · rintro ⟨-, hlt, -⟩
        exact absurd hlt (Nat.not_lt.2 hb)
    rw [follows_nest fun n rest => (called n rest).trans (call_busy (Nat.lt_of_not_le hb) _ _)]
    constructor
    · rintro ⟨w, versionB, σ₁, hbody, hrest⟩
      obtain ⟨hp, rfl, rfl, rfl⟩ := (finishing w (Frame.newer versionC versionB) σ₁).1 hrest
      exact ⟨Nat.lt_of_not_le hc, Nat.lt_of_not_le hb, versionB, σ₁, hbody, hp, rfl, rfl⟩
    · rintro ⟨-, -, versionB, σ₁, hbody, hp, rfl, rfl⟩
      exact ⟨v, versionB, σ₁, hbody, (finishing v (Frame.newer versionC versionB) σ₁).2
        ⟨hp, rfl, rfl, rfl⟩⟩

/-- A call evaluates all its children, and then runs a body if there is one to run. -/
theorem follows_call {i : NodeId} {n : Node} {x : ScopeId} (hi : s.program.tree.Working i n)
    (hk : n.kind = .call) :
    Follows s P E (.start i (s.program.tree.steps i) x) σ v version σ' ↔
      ∃ target arguments versionC σ₁,
        EntersAll s E x n.children σ (target :: arguments) versionC σ₁ ∧
        match callee i target arguments.length with
        | .value w => P i w ∧ v = w ∧ version = versionC ∧ σ' = σ₁.finish s i versionC w
        | .body c => c.scope < σ₁.scopes.all.size ∧ c.body < s.program.tree.size ∧ ∃ versionB σ₂,
          E (.start c.body (s.program.tree.steps c.body) (σ₁.scopes.addChild c.scope).1)
            ((σ₁.called c arguments).enter c.body) v versionB σ₂ ∧ P i v ∧
          version = Frame.newer versionC versionB ∧ σ' = σ₂.finish s i version v := by
  have hs : s.program.tree.steps i = (List.range n.children.length).map .evaluate ++
      [.apply (.call (n.children.length - 1)), .finish] := by
    rw [hi.steps, hk]
    rfl
  have hfits := hi.fits
  rw [hk] at hfits
  have hpos : 1 ≤ n.children.length := by simpa [Tree.fits] using hfits
  have hop : (s.program.tree.steps i)[n.children.length]? =
      some (.apply (.call (n.children.length - 1))) := by
    rw [hs, List.getElem?_append_right (by simp)]
    simp
  have hfinish : (s.program.tree.steps i)[n.children.length + 1]? = some .finish := by
    rw [hs, List.getElem?_append_right (by simp)]
    simp
  have after {target : Value} {arguments : List Value} {versionC : Option Nat} {σ₁ : State}
      (ha : EntersAll s E x n.children σ (target :: arguments) versionC σ₁) :
      Follows s P E ⟨i, s.program.tree.steps i, n.children.length, (target :: arguments).reverse, x,
        versionC⟩ σ₁ v version σ' ↔ _ :=
    follows_applyCall (by rw [hop, ← ha.length_eq]; rfl) hfinish
  rw [follows_collect hi.children hs]
  constructor
  · rintro ⟨vs, versionC, σ₁, ha, h⟩
    cases vs with
    | nil =>
      have := ha.length_eq
      rw [List.length_nil] at this
      omega
    | cons target arguments => exact ⟨target, arguments, versionC, σ₁, ha, (after ha).1 h⟩
  · rintro ⟨target, arguments, versionC, σ₁, ha, h⟩
    exact ⟨_, versionC, σ₁, ha, (after ha).2 h⟩

/-- A reaction that has no state yet is its first part. -/
theorem follows_reaction {i a : NodeId} {n : Node} {x : ScopeId} {more : List NodeId}
    (hi : s.program.tree.Working i n) (hk : n.kind = .reaction) (hc : n.children = a :: more)
    (hfresh : s.cache.has i = false) :
    Follows s P E (.start i (s.program.tree.steps i) x) σ v version σ' ↔
      ∃ σ₁, Enters s E a x σ v version σ₁ ∧ P i v ∧ σ' = σ₁.finish s i version v := by
  have hfits := hi.fits
  rw [hk, hc] at hfits
  obtain ⟨last, tail, h0, h1, h2, hlast⟩ : ∃ last tail, s.program.tree.steps i =
      .jumpIfInitialized 3 :: .evaluate 0 :: .jump last :: tail ∧
      (s.program.tree.steps i)[0]? = some (.jumpIfInitialized 3) ∧
      (s.program.tree.steps i)[1]? = some (.evaluate 0) ∧
      (s.program.tree.steps i)[last]? = some .finish := by
    rw [hi.steps, hk, hc]
    by_cases h : (a :: more).length = 2
    · simp only [Tree.kindSteps, h, if_true]
      exact ⟨4, _, rfl, rfl, rfl, rfl⟩
    · simp only [Tree.kindSteps, h, if_false]
      exact ⟨8, _, rfl, rfl, rfl, rfl⟩
  have hjump : (s.program.tree.steps i)[2]? = some (.jump last) := by rw [h0]; rfl
  have hchild : (s.program.tree.children i)[0]? = some a := by rw [hi.children, hc]; rfl
  have first : Follows s P E (.start i (s.program.tree.steps i) x) σ v version σ' ↔
      Follows s P E ⟨i, s.program.tree.steps i, 1, [], x, none⟩ σ v version σ' :=
    follows_step h1 fun n rest => by simp only [execute, Frame.start, busy, hfresh]; rfl
  have finishing (w : Value) (versionW : Option Nat) (τ : State) :
      Follows s P E ⟨i, s.program.tree.steps i, 2, [w], x, versionW⟩ τ v version σ' ↔
        P i w ∧ v = w ∧ version = versionW ∧ σ' = τ.finish s i versionW w :=
    (follows_step (g := ⟨i, s.program.tree.steps i, last, [w], x, versionW⟩) (τ := τ) hjump
      fun _ _ => rfl).trans (follows_finish (w := w) (u := []) hlast rfl)
  rw [first, follows_evaluate (k := 0) (c := a) h2 hchild]
  constructor
  · rintro ⟨w, versionW, σ₁, he, h⟩
    have h : Follows s P E ⟨i, s.program.tree.steps i, 2, [w], x, versionW⟩ σ₁ v version σ' := by
      simpa [Frame.push, Frame.observe] using h
    obtain ⟨hp, rfl, rfl, rfl⟩ := (finishing w versionW σ₁).1 h
    exact ⟨σ₁, he, hp, rfl⟩
  · rintro ⟨σ₁, he, hp, rfl⟩
    have h := (finishing v version σ₁).2 ⟨hp, rfl, rfl, rfl⟩
    exact ⟨v, version, σ₁, he, by simpa [Frame.push, Frame.observe] using h⟩

/-- A reaction that has a state and no condition is its last part. -/
theorem follows_reaction_next {i a b : NodeId} {n : Node} {x : ScopeId}
    (hi : s.program.tree.Working i n) (hk : n.kind = .reaction) (hc : n.children = [a, b])
    (hs : s.cache.has i = true) :
    Follows s P E (.start i (s.program.tree.steps i) x) σ v version σ' ↔
      ∃ σ₁, Enters s E b x σ v version σ₁ ∧ P i v ∧ σ' = σ₁.finish s i version v := by
  have hsteps : s.program.tree.steps i =
      [.jumpIfInitialized 3, .evaluate 0, .jump 4, .evaluate 1, .finish] := by
    rw [hi.steps, hk, hc]
    rfl
  have hchild : (s.program.tree.children i)[1]? = some b := by rw [hi.children, hc]; rfl
  rw [hsteps, follows_step (a := .jumpIfInitialized 3) (τ := σ) (g := ⟨i, [.jumpIfInitialized 3,
    .evaluate 0, .jump 4, .evaluate 1, .finish], 3, [], x, none⟩) rfl
    fun n rest => by simp only [execute, Frame.start, busy, hs]; rfl,
    follows_evaluate (k := 1) (c := b) rfl hchild]
  simp only [Frame.observe, Frame.push, Frame.none_newer]
  constructor
  · rintro ⟨w, versionW, σ₁, he, h⟩
    obtain ⟨hp, rfl, rfl, rfl⟩ := (follows_finish (w := w) (u := []) rfl rfl).1 h
    exact ⟨σ₁, he, hp, rfl⟩
  · rintro ⟨σ₁, he, hp, rfl⟩
    exact ⟨v, version, σ₁, he, (follows_finish (w := v) (u := []) rfl rfl).2 ⟨hp, rfl, rfl, rfl⟩⟩

/-- A reaction that has a state enters its condition, and then its last part or keeps its state. -/
theorem follows_reaction_when {i a b c : NodeId} {n : Node} {x : ScopeId} {kept : Value}
    (hi : s.program.tree.Working i n) (hk : n.kind = .reaction) (hc : n.children = [a, b, c])
    (hs : s.cache.value? i = some kept) :
    Follows s P E (.start i (s.program.tree.steps i) x) σ v version σ' ↔
      ∃ w versionW σ₁, Enters s E b x σ w versionW σ₁ ∧ match w with
        | .boolean true => ∃ versionD σ₂, Enters s E c x σ₁ v versionD σ₂ ∧ P i v ∧
          version = Frame.newer versionW versionD ∧ σ' = σ₂.finish s i version v
        | .boolean false => v = kept ∧ P i v ∧ version = versionW ∧ σ' = σ₁.finish s i version v
        | w => v = refused i w ∧ P i v ∧ version = versionW ∧ σ' = σ₁.finish s i version v := by
  have at? {k : Nat} {o : Step} (h : [.jumpIfInitialized 3, .evaluate 0, .jump 8, .evaluate 1,
      .jumpIfFalse 7, .evaluate 2, .jump 8, .apply (.previous i), .finish][k]? = some o) :
      (s.program.tree.steps i)[k]? = some o := by
    rw [hi.steps, hk, hc]
    exact h
  have hlength : (s.program.tree.steps i).length = 9 := by
    rw [hi.steps, hk, hc]
    rfl
  have child {k : Nat} {d : NodeId} (h : [a, b, c][k]? = some d) :
      (s.program.tree.children i)[k]? = some d := by rw [hi.children, hc, h]
  have hhas : s.cache.has i = true := by
    obtain ⟨e, he, -⟩ := Option.map_eq_some_iff.1 hs
    simp [Cache.has, he]
  have first : Follows s P E (.start i (s.program.tree.steps i) x) σ v version σ' ↔
      Follows s P E ⟨i, s.program.tree.steps i, 3, [], x, none⟩ σ v version σ' :=
    follows_step (at? (k := 0) rfl) fun n rest => by simp only [execute, Frame.start, busy, hhas]; rfl
  have finishing (w : Value) (versionW : Option Nat) (τ : State) :
      Follows s P E ⟨i, s.program.tree.steps i, 8, [w], x, versionW⟩ τ v version σ' ↔
        v = w ∧ P i v ∧ version = versionW ∧ σ' = τ.finish s i version v := by
    rw [follows_finish (w := w) (u := []) (at? (k := 8) rfl) rfl]
    constructor
    · rintro ⟨hp, rfl, rfl, rfl⟩
      exact ⟨rfl, hp, rfl, rfl⟩
    · rintro ⟨rfl, hp, rfl, rfl⟩
      exact ⟨hp, rfl, rfl, rfl⟩
  have jumping (w : Value) (versionW : Option Nat) (τ : State) :
      Follows s P E ⟨i, s.program.tree.steps i, 6, [w], x, versionW⟩ τ v version σ' ↔
        v = w ∧ P i v ∧ version = versionW ∧ σ' = τ.finish s i version v :=
    (follows_step (g := ⟨i, s.program.tree.steps i, 8, [w], x, versionW⟩) (τ := τ) (at? (k := 6) rfl)
      fun _ _ => rfl).trans (finishing w versionW τ)
  have keeping (versionW : Option Nat) (τ : State) :
      Follows s P E ⟨i, s.program.tree.steps i, 7, [], x, versionW⟩ τ v version σ' ↔
        v = kept ∧ P i v ∧ version = versionW ∧ σ' = τ.finish s i version v :=
    (follows_step (g := ⟨i, s.program.tree.steps i, 8, [kept], x, versionW⟩) (τ := τ)
      (at? (k := 7) rfl) fun n rest => by simp only [execute, apply, busy, hs]; rfl).trans
      (finishing kept versionW τ)
  have branching (w : Value) (versionW : Option Nat) (τ : State) :
      Follows s P E ⟨i, s.program.tree.steps i, 4, [w], x, versionW⟩ τ v version σ' ↔
        Follows s P E (branch ⟨i, s.program.tree.steps i, 5, [], x, versionW⟩ 7 w) τ v version σ' :=
    follows_step (at? (k := 4) rfl) fun _ _ => rfl
  rw [first, follows_evaluate (k := 1) (c := b) (at? (k := 3) rfl) (child rfl)]
  refine exists_congr fun w => exists_congr fun versionW => exists_congr fun σ₁ =>
    and_congr_right fun _ => ?_
  simp only [Frame.observe, Frame.push, Frame.none_newer]
  rw [branching, branch_eq]
  split
  · rw [follows_evaluate (k := 2) (c := c) (at? (k := 5) rfl) (child rfl)]
    simp only [Frame.observe, Frame.push]
    constructor
    · rintro ⟨u, versionD, σ₂, he, h⟩
      obtain ⟨rfl, hp, rfl, rfl⟩ := (jumping u (Frame.newer versionW versionD) σ₂).1 h
      exact ⟨versionD, σ₂, he, hp, rfl, rfl⟩
    · rintro ⟨versionD, σ₂, he, hp, rfl, rfl⟩
      exact ⟨v, versionD, σ₂, he,
        (jumping v (Frame.newer versionW versionD) σ₂).2 ⟨rfl, hp, rfl, rfl⟩⟩
  · exact keeping versionW σ₁
  · simp only [Frame.completeWith, hlength]
    exact finishing (refused i w) versionW σ₁

/-- Whether it has a state or not, a reaction enters some of its parts in turn and finishes. -/
theorem Follows.enters_of_reaction {i : NodeId} {n : Node} {x : ScopeId}
    (hi : s.program.tree.Working i n) (hk : n.kind = .reaction)
    (h : Follows s P E (.start i (s.program.tree.steps i) x) σ v version σ') :
    ∃ is vs versionC σ₁, is.Sublist n.children ∧ EntersAll s E x is σ vs versionC σ₁ ∧ P i v ∧
      σ' = σ₁.finish s i version v := by
  have hfits := hi.fits
  rw [hk] at hfits
  simp only [Tree.fits, Bool.or_eq_true, beq_iff_eq] at hfits
  cases hs : s.cache.find? i with
  | none =>
    have hfresh : s.cache.has i = false := by simp [Cache.has, hs]
    obtain ⟨a, more, hc⟩ : ∃ a more, n.children = a :: more := by
      cases hc : n.children with
      | nil => simp [hc] at hfits
      | cons a more => exact ⟨a, more, rfl⟩
    obtain ⟨σ₁, ha, hp, rfl⟩ := (follows_reaction hi hk hc hfresh).1 h
    exact ⟨[a], _, _, σ₁, by simp [hc], .cons ha .nil, hp, rfl⟩
  | some e =>
    rcases hfits with hc | hc
    · obtain ⟨a, b, hc⟩ := List.length_eq_two.1 hc
      have hhas : s.cache.has i = true := by simp [Cache.has, hs]
      obtain ⟨σ₁, hb, hp, rfl⟩ := (follows_reaction_next hi hk hc hhas).1 h
      exact ⟨[b], _, _, σ₁, by simp [hc], .cons hb .nil, hp, rfl⟩
    · obtain ⟨a, b, c, hc⟩ := List.length_eq_three.1 hc
      have hkept : s.cache.value? i = some e.value := by simp [Cache.value?, hs]
      obtain ⟨w, versionW, σ₁, hb, h⟩ := (follows_reaction_when hi hk hc hkept).1 h
      split at h
      · obtain ⟨versionD, σ₂, hd, hp, rfl, rfl⟩ := h
        exact ⟨[b, c], _, _, σ₂, by simp [hc], .cons hb (.cons hd .nil), hp, rfl⟩
      · obtain ⟨-, hp, rfl, rfl⟩ := h
        exact ⟨[b], _, _, σ₁, by simp [hc], .cons hb .nil, hp, rfl⟩
      · obtain ⟨-, hp, rfl, rfl⟩ := h
        exact ⟨[b], _, _, σ₁, by simp [hc], .cons hb .nil, hp, rfl⟩

end Machine
end StreamLang
