import Mathlib.Data.List.Basic
import StreamLang.Proofs.Machine.BigStep
/-!
The big-step rules of the kinds of nodes. A frame that starts with the steps of a node comes to its
end exactly as the rule of its kind says: which children are entered, in which order and scope, and
what value is made of theirs.
-/
namespace StreamLang

namespace Frame

@[simp] theorem newer_none (a : Option Nat) : newer a none = a := by cases a <;> rfl

@[simp] theorem none_newer (a : Option Nat) : newer none a = a := by cases a <;> rfl

theorem newer_assoc (a b c : Option Nat) : newer (newer a b) c = newer a (newer b c) := by
  cases a <;> cases b <;> cases c <;> simp [newer, Nat.max_assoc]

end Frame

namespace Tree

/-- Why a node fails without looking at its children. -/
def fault? (t : Tree) (i : NodeId) : Option (ExceptionKind × String) :=
  match t.node? i with
  | none => none
  | some n => match n.blocked? with
    | some message => some (.compileTimeConflict, message)
    | none =>
      if fits n.kind n.children.length then none
      else some (.incompleteExpression,
        n.kind.name ++ " has " ++ toString n.children.length ++ " parts")

/-- A node that is not blocked and has the parts that it needs. -/
structure Working (t : Tree) (i : NodeId) (n : Node) : Prop where
  node : t.node? i = some n
  free : n.blocked? = none
  fits : fits n.kind n.children.length = true

variable {t : Tree} {i : NodeId} {n : Node}

theorem Working.unique {m : Node} (h : t.Working i n) (h' : t.Working i m) : m = n :=
  Option.some.inj (h'.node.symm.trans h.node)

theorem Working.children (h : t.Working i n) : t.children i = n.children := by
  simp [Tree.children, h.node]

theorem Working.kind (h : t.Working i n) : t.kind? i = some n.kind := by simp [kind?, h.node]

theorem Working.steps (h : t.Working i n) : t.steps i = t.kindSteps i n.kind n.children := by
  simp [Tree.steps, h.node, h.free, h.fits]

theorem Working.conditional_children (h : t.Working i n) (hk : n.kind = .conditional) :
    ∃ a b c, n.children = [a, b, c] := by
  have := h.fits
  rw [hk] at this
  exact List.length_eq_three.1 (by simpa [Tree.fits] using this)

theorem steps_of_fault {kind : ExceptionKind} {message : String}
    (h : t.fault? i = some (kind, message)) : t.steps i = failSteps kind message := by
  unfold fault? at h
  unfold steps
  split at h
  · cases h
  · split at h
    · cases h
      simp_all
    · split at h
      · cases h
      · cases h
        simp_all

theorem fault_or_working (h : (t.node? i).isSome) :
    (∃ kind message, t.fault? i = some (kind, message)) ∨ ∃ n, t.Working i n := by
  obtain ⟨n, hn⟩ := Option.isSome_iff_exists.1 h
  cases hb : n.blocked? with
  | some message => exact .inl ⟨.compileTimeConflict, message, by simp only [fault?, hn, hb]⟩
  | none =>
    cases hf : Tree.fits n.kind n.children.length with
    | true => exact .inr ⟨n, hn, hb, hf⟩
    | false => exact .inl ⟨.incompleteExpression, _, by simp only [fault?, hn, hb, hf]; rfl⟩

end Tree

namespace Machine

variable (s : Setting) (P : NodeId → Value → Prop)
  (E : Frame → State → Value → Option Nat → State → Prop)

/-- Entering a node of the tree hands down its committed value or runs it. -/
def Enters (i : NodeId) (x : ScopeId) (σ : State) (v : Value) (version : Option Nat)
    (σ' : State) : Prop :=
  match s.reuse? σ.record i with
  | some w => v = w ∧ version = none ∧ σ' = σ.reuse s i
  | none => i < s.program.tree.size ∧ E (.start i (s.program.tree.steps i) x) (σ.enter i) v version σ'

/-- Entering nodes in turn in one scope. -/
inductive EntersAll (x : ScopeId) :
    List NodeId → State → List Value → Option Nat → State → Prop where
  | nil {σ} : EntersAll x [] σ [] none σ
  | cons {i is σ v version σ₁ vs version' σ'} (first : Enters s E i x σ v version σ₁)
    (others : EntersAll x is σ₁ vs version' σ') :
    EntersAll x (i :: is) σ (v :: vs) (Frame.newer version version') σ'

/-- What a statement leaves behind: a bind defines its name. -/
def bound (x : ScopeId) (i : NodeId) (v : Value) (σ : State) : State :=
  match s.program.tree.kind? i with
  | some (.bind name) => σ.define x [(name, v)]
  | _ => σ

/-- Running the statements of a block in its scope. -/
inductive Statements (x : ScopeId) : List NodeId → State → Value → Option Nat → State → Prop where
  | last {i σ v version σ₁} (only : Enters s E i x σ v version σ₁) :
    Statements x [i] σ v version (bound s x i v σ₁)
  | cons {i j is σ w versionW σ₁ v version σ'} (first : Enters s E i x σ w versionW σ₁)
    (others : Statements x (j :: is) (bound s x i w σ₁) v version σ') :
    Statements x (i :: j :: is) σ v (Frame.newer versionW version) σ'

variable {s P E} {f : Frame} {σ σ' : State} {v : Value} {version : Option Nat}

/-! ### Single steps -/

theorem follows_step {a : Step} {g : Frame} {τ : State} (hs : f.steps[f.cursor]? = some a)
    (h : ∀ n rest, (busy n (f :: rest) σ).execute s { f with cursor := f.cursor + 1 } rest a =
      busy n (g :: rest) τ) :
    Follows s P E f σ v version σ' ↔ Follows s P E g τ v version σ' :=
  follows_move fun n rest => by rw [advance_busy, hs]; exact h (n + 1) rest

theorem follows_evaluate {k : Nat} {c : NodeId} (hs : f.steps[f.cursor]? = some (.evaluate k))
    (hc : (s.program.tree.children f.node)[k]? = some c) :
    Follows s P E f σ v version σ' ↔ ∃ w versionW σ₁, Enters s E c f.scope σ w versionW σ₁ ∧
      Follows s P E (({ f with cursor := f.cursor + 1 }.observe versionW).push w) σ₁ v version σ'
        := by
  have h (n : Nat) (rest : List Frame) : (busy n (f :: rest) σ).advance s =
      (busy (n + 1) ({ f with cursor := f.cursor + 1 } :: rest) σ).enter s c f.scope := by
    rw [advance_busy, hs]
    simp only [execute, hc]
    rfl
  unfold Enters
  cases hr : s.reuse? σ.record c with
  | some w =>
    rw [follows_move fun n rest => by rw [h, enter_of_reuse hr, handDown_cons]]
    constructor
    · exact fun h => ⟨w, none, _, ⟨rfl, rfl, rfl⟩, h⟩
    · rintro ⟨w', versionW, σ₁, ⟨rfl, rfl, rfl⟩, h⟩
      exact h
  | none =>
    rcases Nat.lt_or_ge c s.program.tree.size with hc | hc
    · simp only [hc, true_and]
      exact follows_nest fun n rest => by rw [h, enter_of_run hr hc]
    · simp only [Nat.not_lt.2 hc, false_and, exists_false, iff_false]
      exact not_follows_of_broken fun n rest => by
        rw [h, enter_of_call hr, call_of_outside hc]
        rfl

/-- Only a node of the tree can be run. -/
theorem lt_size_of_follows {i : NodeId} {x : ScopeId}
    (h : Follows s P E (.start i (s.program.tree.steps i) x) σ v version σ') :
    i < s.program.tree.size := by
  refine Tree.lt_size_iff.2 (Option.isSome_iff_ne_none.2 fun hnode => ?_)
  have hsteps : s.program.tree.steps i = [] := by
    rw [Tree.steps, hnode]
  have broken (n : Nat) (rest : List Frame) :
      ((busy n (.start i (s.program.tree.steps i) x :: rest) σ).advance s).status =
        .broken (.pastEnd i) := by
    rw [advance_busy, hsteps]
    rfl
  exact not_follows_of_broken broken h

theorem follows_finish {w : Value} {u : List Value} (hs : f.steps[f.cursor]? = some .finish)
    (hv : f.values = w :: u) :
    Follows s P E f σ v version σ' ↔ P f.node w ∧ v = w ∧ version = f.streamVersion ∧
      σ' = σ.finish s f.node f.streamVersion w :=
  follows_done fun n rest => by
    have hn := s.noteFinish_withSteps σ.record (n + 1)
      { f with cursor := f.cursor + 1, values := w :: u } w
    rw [advance_busy, hs]
    simp only [execute, hv, busy, hn]
    rfl

/-- Evaluating children in turn. -/
theorem follows_evaluates (cs : List NodeId) (k : Nat) {f : Frame} {σ : State}
    (hs : ∀ j < cs.length, f.steps[f.cursor + j]? = some (.evaluate (k + j)))
    (hc : ∀ j < cs.length, (s.program.tree.children f.node)[k + j]? = cs[j]?) :
    Follows s P E f σ v version σ' ↔ ∃ vs versionC σ₁, EntersAll s E f.scope cs σ vs versionC σ₁ ∧
      Follows s P E { f with
        cursor := f.cursor + cs.length
        values := vs.reverse ++ f.values
        streamVersion := Frame.newer f.streamVersion versionC } σ₁ v version σ' := by
  induction cs generalizing k f σ with
  | nil =>
    constructor
    · intro h
      exact ⟨[], none, σ, .nil, by simpa using h⟩
    · rintro ⟨vs, versionC, σ₁, ha, h⟩
      cases ha
      simpa using h
  | cons c cs ih =>
    have hs0 := hs 0 (by simp)
    have hc0 := hc 0 (by simp)
    simp only [Nat.add_zero, List.getElem?_cons_zero] at hs0 hc0
    rw [follows_evaluate hs0 hc0]
    have next (w : Value) (versionW : Option Nat) (σ₁ : State) :=
      ih (k + 1) (f := ({ f with cursor := f.cursor + 1 }.observe versionW).push w) (σ := σ₁)
        (fun j hj => by
          have := hs (j + 1) (by simpa using hj)
          simpa [Frame.push, Frame.observe, Nat.add_assoc, Nat.add_comm 1 j] using this)
        (fun j hj => by
          have := hc (j + 1) (by simpa using hj)
          simpa [Frame.push, Frame.observe, Nat.add_assoc, Nat.add_comm 1 j] using this)
    constructor
    · rintro ⟨w, versionW, σ₁, he, h⟩
      obtain ⟨vs, versionC, σ₂, ha, h⟩ := (next w versionW σ₁).1 h
      refine ⟨w :: vs, _, σ₂, .cons he ha, ?_⟩
      simpa [Frame.push, Frame.observe, Frame.newer_assoc, Nat.add_assoc, Nat.add_comm 1] using h
    · rintro ⟨vs, versionC, σ₂, ha, h⟩
      cases ha with
      | cons he ha =>
        refine ⟨_, _, _, he, (next _ _ _).2 ⟨_, _, _, ha, ?_⟩⟩
        simpa [Frame.push, Frame.observe, Frame.newer_assoc, Nat.add_assoc, Nat.add_comm 1] using h

theorem EntersAll.length_eq {x : ScopeId} {cs : List NodeId} {vs : List Value}
    (h : EntersAll s E x cs σ vs version σ') : vs.length = cs.length := by
  induction h with
  | nil => rfl
  | cons _ _ ih => simp [ih]

/-! ### Nodes that enter no child -/

theorem follows_instantly {i : NodeId} {x : ScopeId} {first : Step} {w : Value}
    (hs : s.program.tree.steps i = [first, .finish])
    (h : ∀ n rest, (busy n (.start i [first, .finish] x :: rest) σ).execute s
      ⟨i, [first, .finish], 1, [], x, none⟩ rest first =
        busy n (⟨i, [first, .finish], 1, [w], x, none⟩ :: rest) σ) :
    Follows s P E (.start i (s.program.tree.steps i) x) σ v version σ' ↔
      P i w ∧ v = w ∧ version = none ∧ σ' = σ.finish s i none w := by
  rw [hs, follows_step (a := first) rfl h, follows_finish (w := w) (u := []) rfl rfl]

/-- A blocked or incomplete node gives its failure. -/
theorem follows_fault {i : NodeId} {x : ScopeId} {kind : ExceptionKind} {message : String}
    (h : s.program.tree.fault? i = some (kind, message)) :
    Follows s P E (.start i (s.program.tree.steps i) x) σ v version σ' ↔
      P i (.failure kind message i) ∧ v = .failure kind message i ∧ version = none ∧
        σ' = σ.finish s i none (.failure kind message i) :=
  follows_instantly (Tree.steps_of_fault h) fun _ _ => rfl

/-- The value of a node that enters no child and reads no stream. -/
def leaf? (s : Setting) (i : NodeId) (n : Node) (x : ScopeId) (scopes : Scopes) : Option Value :=
  match n.kind with
  | .number a => some (.number a)
  | .text a => some (.text a)
  | .boolean a => some (.boolean a)
  | .reference name =>
    some ((scopes.lookup x name).getD
      (.failure .unknownName ("`" ++ name ++ "` is not defined") i))
  | .function parameters => some (.function ⟨i, n.children.headD i, parameters, x⟩)
  | .previous => match s.program.tree.enclosingReaction? i with
    | some r => some ((s.cache.value? r).getD
        (.failure .incompleteExpression "reaction has no previous value yet" i))
    | none => some (.failure .incompleteExpression "`.` can only be used inside a reaction" i)
  | .placeholder => some (.failure .incompleteExpression "placeholder needs an expression" i)
  | _ => none

theorem follows_leaf {i : NodeId} {n : Node} {x : ScopeId} {w : Value}
    (hi : s.program.tree.Working i n) (hw : leaf? s i n x σ.scopes = some w) :
    Follows s P E (.start i (s.program.tree.steps i) x) σ v version σ' ↔
      P i w ∧ v = w ∧ version = none ∧ σ' = σ.finish s i none w := by
  have hs := hi.steps
  unfold leaf? at hw
  cases hk : n.kind <;> rw [hk] at hs hw <;> simp only [Tree.kindSteps] at hs <;>
    simp only [reduceCtorEq, Option.some.injEq] at hw
  case number => subst hw; exact follows_instantly hs fun _ _ => rfl
  case text => subst hw; exact follows_instantly hs fun _ _ => rfl
  case boolean => subst hw; exact follows_instantly hs fun _ _ => rfl
  case reference => subst hw; exact follows_instantly hs fun _ _ => rfl
  case function => subst hw; exact follows_instantly hs fun _ _ => rfl
  case placeholder => subst hw; exact follows_instantly hs fun _ _ => rfl
  case previous =>
    cases hr : s.program.tree.enclosingReaction? i with
    | none =>
      simp only [hr, Option.some.injEq] at hs hw
      subst hw
      exact follows_instantly hs fun _ _ => rfl
    | some r =>
      simp only [hr, Option.some.injEq] at hs hw
      subst hw
      exact follows_instantly hs fun _ _ => rfl

/-- What a node asks of a stream. -/
def reads? : NodeKind → Option (String × FetchMode)
  | .stream name => some (name, .latest)
  | .changed name => some (name, .changed)
  | _ => none

theorem reads?_changed {kind : NodeKind} {stream : String}
    (h : reads? kind = some (stream, .changed)) : kind = .changed stream := by
  unfold reads? at h
  split at h <;> simp_all

theorem steps_of_reads {t : Tree} {i : NodeId} {n : Node} {stream : String} {mode : FetchMode}
    (hi : t.Working i n) (hk : reads? n.kind = some (stream, mode)) :
    t.steps i = [.fetch stream mode, .finish] := by
  rw [hi.steps]
  cases hn : n.kind <;> rw [hn] at hk <;> simp only [reads?, reduceCtorEq] at hk
  case stream name => cases hk; rfl
  case changed name => cases hk; rfl

theorem follows_read {i : NodeId} {n : Node} {x : ScopeId} {stream : String} {mode : FetchMode}
    (hi : s.program.tree.Working i n) (hk : reads? n.kind = some (stream, mode)) :
    let read := fetch s σ.record i stream mode
    Follows s P E (.start i (s.program.tree.steps i) x) σ v version σ' ↔
      P i read.1 ∧ v = read.1 ∧ version = read.2.1 ∧
        σ' = (σ.read s i stream mode).finish s i read.2.1 read.1 := by
  intro read
  have hm (n : Nat) (rest : List Frame) :
      (busy n (.start i [.fetch stream mode, .finish] x :: rest) σ).execute s
        ⟨i, [.fetch stream mode, .finish], 1, [], x, none⟩ rest (.fetch stream mode) =
      busy n (⟨i, [.fetch stream mode, .finish], 1, [read.1], x, read.2.1⟩ :: rest)
        (σ.read s i stream mode) := by
    have hf := fetch_withSteps s σ.record n i stream mode
    simp only [execute, busy, hf]
    simp only [put, setRecord, Frame.observe, Frame.push, Frame.none_newer]
    rfl
  rw [steps_of_reads hi hk, follows_step (a := .fetch stream mode) rfl hm,
    follows_finish (w := read.1) (u := []) rfl rfl]

/-! ### Nodes that enter all their children -/

/-- The value that a node makes of those of all its children. -/
def gather? (i : NodeId) : NodeKind → List Value → Option Value
  | .program, [v] => some v
  | .bind _, [v] => some v
  | .list, vs => some (.list vs)
  | .struct names, vs => some (.struct (Assoc.ofList (names.zip vs)))
  | .property name, [v] => some (v.property name i)
  | .unary operator, [v] => some (.unary operator v i)
  | .binary operators, v :: vs =>
    some ((operators.zip vs).foldl (fun left (o, right) => .binary o left right i) v)
  | _, _ => none

/-- Whether a node of the kind makes its value of those of all its children. -/
def gathers : NodeKind → Bool
  | .program | .bind _ | .list | .struct _ | .property _ | .unary _ | .binary _ => true
  | _ => false

theorem gather?_isSome {i : NodeId} {kind : NodeKind} {vs : List Value}
    (hf : Tree.fits kind vs.length = true) (hg : gathers kind = true) :
    (gather? i kind vs).isSome := by
  cases kind <;> simp only [gathers, Bool.false_eq_true] at hg <;>
    rcases vs with _ | ⟨v, _ | ⟨w, vs⟩⟩ <;> simp_all [Tree.fits, gather?]

theorem gathers_of_gather? {i : NodeId} {kind : NodeKind} {vs : List Value} {v : Value}
    (h : gather? i kind vs = some v) : gathers kind = true := by
  cases kind <;> simp [gather?] at h <;> rfl

/-- After all children have been evaluated. -/
theorem follows_collect {i : NodeId} {cs : List NodeId} {x : ScopeId} {tail : List Step}
    (hc : s.program.tree.children i = cs)
    (hs : s.program.tree.steps i = (List.range cs.length).map .evaluate ++ tail) :
    Follows s P E (.start i (s.program.tree.steps i) x) σ v version σ' ↔
      ∃ vs versionC σ₁, EntersAll s E x cs σ vs versionC σ₁ ∧ Follows s P E
        ⟨i, s.program.tree.steps i, cs.length, vs.reverse, x, versionC⟩ σ₁ v version σ' := by
  rw [follows_evaluates cs 0]
  · simp [Frame.start]
  · intro j hj
    have hlt : j < ((List.range cs.length).map Step.evaluate).length := by simpa using hj
    simp only [Frame.start, hs, Nat.zero_add, List.getElem?_append_left hlt]
    simp [hj]
  · intro j hj
    simp [Frame.start, hc]

/-- An operation that leaves one value, and the end. -/
theorem follows_apply {i : NodeId} {x : ScopeId} {k : Nat} {steps : List Step} {o : Operation}
    {values : List Value} {versionC : Option Nat} {w : Value}
    (ho : steps[k]? = some (.apply o)) (hf : steps[k + 1]? = some .finish)
    (h : ∀ n rest, (busy n (⟨i, steps, k, values, x, versionC⟩ :: rest) σ).apply s
      ⟨i, steps, k + 1, values, x, versionC⟩ rest o =
        busy n (⟨i, steps, k + 1, [w], x, versionC⟩ :: rest) σ) :
    Follows s P E ⟨i, steps, k, values, x, versionC⟩ σ v version σ' ↔
      P i w ∧ v = w ∧ version = versionC ∧ σ' = σ.finish s i versionC w :=
  (follows_step (f := ⟨i, steps, k, values, x, versionC⟩) (a := .apply o)
    (g := ⟨i, steps, k + 1, [w], x, versionC⟩) (τ := σ) ho h).trans
    (follows_finish (w := w) (u := []) hf rfl)

/-- The operators of a chain, each right after the operand on its right. -/
theorem follows_chain {i : NodeId} {x : ScopeId} {steps : List Step}
    (operators : List BinaryOperator) (cs : List NodeId) (k cursor : Nat) (left : Value)
    (versionL : Option Nat) {σ : State} (hl : cs.length = operators.length)
    (hs : steps.drop cursor = (operators.zipIdx k).flatMap
      (fun (o, k) => [.evaluate (k + 1), .apply (.binary o)]) ++ [.finish])
    (hc : (s.program.tree.children i).drop (k + 1) = cs) :
    Follows s P E ⟨i, steps, cursor, [left], x, versionL⟩ σ v version σ' ↔
      ∃ vs versionC σ₁, EntersAll s E x cs σ vs versionC σ₁ ∧
        let w := (operators.zip vs).foldl (fun left (o, right) => .binary o left right i) left
        P i w ∧ v = w ∧ version = Frame.newer versionL versionC ∧
          σ' = σ₁.finish s i (Frame.newer versionL versionC) w := by
  have hget (j : Nat) : steps[cursor + j]? = (steps.drop cursor)[j]? := by simp
  induction operators generalizing cs k cursor left versionL σ with
  | nil =>
    obtain rfl : cs = [] := List.eq_nil_of_length_eq_zero hl
    have h0 := hget 0
    rw [hs] at h0
    rw [follows_finish (w := left) (u := []) h0 rfl]
    constructor
    · rintro ⟨hp, rfl, rfl, rfl⟩
      exact ⟨[], none, σ, .nil, by simpa using hp, rfl, by simp, by simp⟩
    · rintro ⟨vs, versionC, σ₁, ha, hp, rfl, rfl, rfl⟩
      cases ha
      exact ⟨hp, rfl, by simp, by simp⟩
  | cons o operators ih =>
    obtain ⟨c, cs', rfl⟩ : ∃ c cs', cs = c :: cs' := by
      cases cs with
      | nil => simp at hl
      | cons c cs' => exact ⟨c, cs', rfl⟩
    have h0 := hget 0
    have h1 := hget 1
    rw [hs] at h0 h1
    have hchild : (s.program.tree.children i)[k + 1]? = some c := by
      have : (s.program.tree.children i)[k + 1 + 0]? =
          ((s.program.tree.children i).drop (k + 1))[0]? := by simp
      simpa [hc] using this
    have hs' : steps.drop (cursor + 2) = (operators.zipIdx (k + 1)).flatMap
        (fun (o, k) => [.evaluate (k + 1), .apply (.binary o)]) ++ [.finish] := by
      rw [← List.drop_drop, hs]
      simp
    have hc' : (s.program.tree.children i).drop (k + 1 + 1) = cs' := by
      rw [← List.drop_drop, hc]
      rfl
    have hget' (j : Nat) : steps[cursor + 2 + j]? = (steps.drop (cursor + 2))[j]? := by simp
    have next (w : Value) (versionW : Option Nat) (σ₁ : State) :
        Follows s P E ⟨i, steps, cursor + 1, [w, left], x, Frame.newer versionL versionW⟩ σ₁ v
          version σ' ↔ _ :=
      (follows_step (a := .apply (.binary o))
        (g := ⟨i, steps, cursor + 2, [.binary o left w i], x, Frame.newer versionL versionW⟩)
        (τ := σ₁) h1 fun _ _ => rfl).trans
        (ih cs' (k + 1) (cursor + 2) (.binary o left w i) (Frame.newer versionL versionW)
          (by simpa using hl) hs' hc' hget')
    rw [follows_evaluate (k := k + 1) (c := c) h0 hchild]
    constructor
    · rintro ⟨w, versionW, σ₁, he, h⟩
      obtain ⟨vs, versionC, σ₂, ha, hp, rfl, rfl, rfl⟩ := (next w versionW σ₁).1 h
      exact ⟨w :: vs, _, σ₂, .cons he ha, hp, rfl, by rw [Frame.newer_assoc],
        by rw [Frame.newer_assoc]; rfl⟩
    · rintro ⟨vs, versionC, σ₂, ha, hp, rfl, rfl, rfl⟩
      cases ha with
      | cons he ha =>
        refine ⟨_, _, _, he, (next _ _ _).2 ⟨_, _, _, ha, hp, rfl, ?_, ?_⟩⟩
        · rw [Frame.newer_assoc]
        · rw [Frame.newer_assoc]
          rfl

/-- A node whose steps after its children's make one value of theirs. -/
theorem follows_gather_of_tail {i : NodeId} {n : Node} {x : ScopeId} {r : List Step}
    (hi : s.program.tree.Working i n)
    (hs : s.program.tree.steps i = (List.range n.children.length).map .evaluate ++ r)
    (h : ∀ vs versionC σ₁, vs.length = n.children.length → ∃ w, gather? i n.kind vs = some w ∧
      (Follows s P E ⟨i, s.program.tree.steps i, n.children.length, vs.reverse, x, versionC⟩ σ₁ v
        version σ' ↔ P i w ∧ v = w ∧ version = versionC ∧ σ' = σ₁.finish s i versionC w)) :
    Follows s P E (.start i (s.program.tree.steps i) x) σ v version σ' ↔
      ∃ vs σ₁, EntersAll s E x n.children σ vs version σ₁ ∧ gather? i n.kind vs = some v ∧
        P i v ∧ σ' = σ₁.finish s i version v := by
  rw [follows_collect hi.children hs]
  constructor
  · rintro ⟨vs, versionC, σ₁, ha, h'⟩
    obtain ⟨w, hw, hiff⟩ := h vs versionC σ₁ ha.length_eq
    obtain ⟨hp, rfl, rfl, rfl⟩ := hiff.1 h'
    exact ⟨vs, σ₁, ha, hw, hp, rfl⟩
  · rintro ⟨vs, σ₁, ha, hv, hp, rfl⟩
    obtain ⟨w, hw, hiff⟩ := h vs version σ₁ ha.length_eq
    obtain rfl : w = v := by simpa [hw] using hv
    exact ⟨vs, version, σ₁, ha, hiff.2 ⟨hp, rfl, rfl, rfl⟩⟩

/-- A node that hands on the value of its only child. -/
theorem follows_pass {i : NodeId} {n : Node} {x : ScopeId} (hi : s.program.tree.Working i n)
    (hl : n.children.length = 1) (hs : s.program.tree.steps i = [.evaluate 0, .finish])
    (hw : ∀ w, gather? i n.kind [w] = some w) :
    Follows s P E (.start i (s.program.tree.steps i) x) σ v version σ' ↔
      ∃ vs σ₁, EntersAll s E x n.children σ vs version σ₁ ∧ gather? i n.kind vs = some v ∧
        P i v ∧ σ' = σ₁.finish s i version v := by
  refine follows_gather_of_tail (r := [.finish]) hi (by rw [hs, hl]; rfl) ?_
  intro vs versionC σ₁ hvs
  obtain ⟨w, rfl⟩ := List.length_eq_one_iff.1 (hvs.trans hl)
  exact ⟨w, hw w, follows_finish (w := w) (u := []) (by rw [hs, hl]; rfl) rfl⟩

/-- A node that makes its value by one operation. -/
theorem follows_turn {i : NodeId} {n : Node} {x : ScopeId} (hi : s.program.tree.Working i n)
    (o : Operation) (g : List Value → Value)
    (hs : s.program.tree.steps i =
      (List.range n.children.length).map .evaluate ++ [.apply o, .finish])
    (hw : ∀ vs : List Value, vs.length = n.children.length → gather? i n.kind vs = some (g vs))
    (ho : ∀ vs : List Value, vs.length = n.children.length → ∀ m rest versionC (σ₁ : State),
      (busy m (⟨i, s.program.tree.steps i, n.children.length, vs.reverse, x, versionC⟩ :: rest)
        σ₁).apply s ⟨i, s.program.tree.steps i, n.children.length + 1, vs.reverse, x, versionC⟩
          rest o = busy m (⟨i, s.program.tree.steps i, n.children.length + 1, [g vs], x,
            versionC⟩ :: rest) σ₁) :
    Follows s P E (.start i (s.program.tree.steps i) x) σ v version σ' ↔
      ∃ vs σ₁, EntersAll s E x n.children σ vs version σ₁ ∧ gather? i n.kind vs = some v ∧
        P i v ∧ σ' = σ₁.finish s i version v := by
  refine follows_gather_of_tail hi hs ?_
  intro vs versionC σ₁ hvs
  refine ⟨g vs, hw vs hvs, follows_apply (o := o) ?_ ?_ fun m rest => ho vs hvs m rest versionC σ₁⟩
  · rw [hs, List.getElem?_append_right (by simp)]
    simp
  · rw [hs, List.getElem?_append_right (by simp)]
    simp

/-- A node that makes its value of those of its children enters them all in turn. -/
theorem follows_gather {i : NodeId} {n : Node} {x : ScopeId}
    (hi : s.program.tree.Working i n) (hg : gathers n.kind = true) :
    Follows s P E (.start i (s.program.tree.steps i) x) σ v version σ' ↔
      ∃ vs σ₁, EntersAll s E x n.children σ vs version σ₁ ∧ gather? i n.kind vs = some v ∧
        P i v ∧ σ' = σ₁.finish s i version v := by
  have hs := hi.steps
  have hfits := hi.fits
  have hall (vs : List Value) : (vs.reverse.take vs.length).reverse = vs := by
    rw [List.take_of_length_le (by simp), List.reverse_reverse]
  obtain ⟨k, hk⟩ : ∃ k, n.kind = k := ⟨_, rfl⟩
  rw [hk] at hg hs hfits
  cases k <;> simp only [gathers, Bool.false_eq_true] at hg <;>
    simp only [Tree.fits, beq_iff_eq] at hfits
  case program => exact follows_pass hi hfits hs fun w => by rw [hk]; rfl
  case bind name => exact follows_pass hi hfits hs fun w => by rw [hk]; rfl
  case list =>
    refine follows_turn hi (.makeList n.children.length) .list hs (fun vs _ => by rw [hk]; rfl) ?_
    intro vs hvs m rest versionC σ₁
    simp only [apply, Frame.dropValues, Frame.lastValues, ← hvs, hall]
    simp [put, Frame.push, busy]
  case struct names =>
    refine follows_turn hi (.makeStruct names) (fun vs => .struct (Assoc.ofList (names.zip vs))) hs
      (fun vs _ => by rw [hk]; rfl) ?_
    intro vs hvs m rest versionC σ₁
    have hl : names.length = vs.length := by rw [hvs, hfits]
    simp only [apply, Frame.dropValues, Frame.lastValues, hl, hall]
    simp [put, Frame.push, busy]
  case property name =>
    refine follows_turn hi (.property name) (fun vs => (vs.headD default).property name i)
      (by rw [hfits]; exact hs) (fun vs hvs => ?_) fun vs hvs => ?_
    · obtain ⟨w, rfl⟩ := List.length_eq_one_iff.1 (hvs.trans hfits)
      rw [hk]
      rfl
    · obtain ⟨w, rfl⟩ := List.length_eq_one_iff.1 (hvs.trans hfits)
      exact fun _ _ _ _ => rfl
  case unary operator =>
    refine follows_turn hi (.unary operator) (fun vs => .unary operator (vs.headD default) i)
      (by rw [hfits]; exact hs) (fun vs hvs => ?_) fun vs hvs => ?_
    · obtain ⟨w, rfl⟩ := List.length_eq_one_iff.1 (hvs.trans hfits)
      rw [hk]
      rfl
    · obtain ⟨w, rfl⟩ := List.length_eq_one_iff.1 (hvs.trans hfits)
      exact fun _ _ _ _ => rfl
  case binary operators =>
    simp only [Bool.and_eq_true, beq_iff_eq] at hfits
    obtain ⟨c, cs, hcs⟩ : ∃ c cs, n.children = c :: cs := by
      cases h : n.children with
      | nil => rw [h] at hfits; simp at hfits
      | cons c cs => exact ⟨c, cs, rfl⟩
    have hchild : (s.program.tree.children i)[0]? = some c := by rw [hi.children, hcs]; rfl
    have hl : cs.length = operators.length := by
      rw [hcs] at hfits
      simpa using hfits.2
    have hs0 : (s.program.tree.steps i)[0]? = some (.evaluate 0) := by rw [hs]; rfl
    have chain (w : Value) (versionW : Option Nat) (σ₁ : State) :
        Follows s P E ⟨i, s.program.tree.steps i, 1, [w], x, versionW⟩ σ₁ v version σ' ↔ _ :=
      follows_chain operators cs 0 1 w versionW hl (by rw [hs]; rfl)
        (by rw [hi.children, hcs]; rfl)
    rw [follows_evaluate (k := 0) (c := c) hs0 hchild, hcs]
    constructor
    · rintro ⟨w, versionW, σ₁, he, h⟩
      have h : Follows s P E ⟨i, s.program.tree.steps i, 1, [w], x, versionW⟩ σ₁ v version σ' := by
        simpa [Frame.start, Frame.push, Frame.observe] using h
      obtain ⟨vs, versionC, σ₂, ha, hp, rfl, rfl, rfl⟩ := (chain w versionW σ₁).1 h
      exact ⟨w :: vs, σ₂, .cons he ha, by rw [hk]; rfl, hp, rfl⟩
    · rintro ⟨vs, σ₂, ha, hv, hp, rfl⟩
      cases ha with
      | @cons _ _ _ w versionW σ₁ vs versionC _ he ha =>
        rw [hk] at hv
        cases hv
        refine ⟨w, versionW, σ₁, he, ?_⟩
        have h := (chain w versionW σ₁).2 ⟨vs, versionC, σ₂, ha, hp, rfl, rfl, rfl⟩
        simpa [Frame.start, Frame.push, Frame.observe] using h

/-! ### Conditionals -/

/-- The branch that the value of a condition leads to. -/
def taken? (yes no : NodeId) : Value → Option NodeId
  | .boolean true => some yes
  | .boolean false => some no
  | _ => none

theorem eq_of_taken? {yes no d : NodeId} {u : Value} (h : taken? yes no u = some d) :
    d = yes ∨ d = no := by
  unfold taken? at h
  split at h <;> cases h
  · exact .inl rfl
  · exact .inr rfl

/-- Only a function has a body to run, and only for as many arguments as it has parameters. -/
theorem callee_eq_body {i : NodeId} {v : Value} {count : Nat} {c : Closure}
    (h : callee i v count = .body c) : v = .function c ∧ c.parameters.length = count := by
  unfold callee at h
  split at h
  · split at h
    · cases h
      exact ⟨rfl, ‹_›⟩
    · cases h
  · cases h
  · cases h

/-- What becomes of a condition that leads to no branch. -/
def refused (i : NodeId) : Value → Value
  | .exception e => .exception e
  | w => .mismatch i ("expected a boolean condition, got " ++ w.typeName)

theorem branch_eq (f : Frame) (target : Nat) (w : Value) : branch f target w =
    match w with
    | .boolean true => f
    | .boolean false => f.jump target
    | w => f.completeWith (refused f.node w) := by
  cases w with
  | boolean b => cases b <;> rfl
  | _ => rfl

/-- A conditional enters its first child and then at most one of the others. -/
theorem follows_conditional {i a b c : NodeId} {n : Node} {x : ScopeId}
    (hi : s.program.tree.Working i n) (hk : n.kind = .conditional) (hc : n.children = [a, b, c]) :
    Follows s P E (.start i (s.program.tree.steps i) x) σ v version σ' ↔
      ∃ w versionW σ₁, Enters s E a x σ w versionW σ₁ ∧ match taken? b c w with
        | some d => ∃ versionD σ₂, Enters s E d x σ₁ v versionD σ₂ ∧ P i v ∧
          version = Frame.newer versionW versionD ∧ σ' = σ₂.finish s i version v
        | none => v = refused i w ∧ P i v ∧ version = versionW ∧ σ' = σ₁.finish s i version v := by
  have hs : s.program.tree.steps i =
      [.evaluate 0, .jumpIfFalse 4, .evaluate 1, .jump 5, .evaluate 2, .finish] := by
    rw [hi.steps, hk]
    rfl
  have child {k : Nat} {d : NodeId} (h : [a, b, c][k]? = some d) :
      (s.program.tree.children i)[k]? = some d := by rw [hi.children, hc, h]
  rw [hs, follows_evaluate (k := 0) (c := a) rfl (child rfl)]
  refine exists_congr fun w => exists_congr fun versionW => exists_congr fun σ₁ =>
    and_congr_right fun _ => ?_
  simp only [Frame.start, Frame.observe, Frame.push, Frame.none_newer]
  rw [follows_step (a := .jumpIfFalse 4) (τ := σ₁) (g := branch ⟨i, [.evaluate 0, .jumpIfFalse 4,
    .evaluate 1, .jump 5, .evaluate 2, .finish], 2, [], x, versionW⟩ 4 w) rfl fun _ _ => rfl,
    branch_eq]
  split
  · rw [follows_evaluate (k := 1) (c := b) rfl (child rfl)]
    constructor
    · rintro ⟨w', versionD, σ₂, he, h⟩
      rw [follows_step (a := .jump 5) (τ := σ₂) (g := ⟨i, [.evaluate 0, .jumpIfFalse 4,
        .evaluate 1, .jump 5, .evaluate 2, .finish], 5, [w'], x, Frame.newer versionW versionD⟩) rfl
        fun _ _ => rfl, follows_finish (w := w') (u := []) rfl rfl] at h
      obtain ⟨hp, rfl, rfl, rfl⟩ := h
      exact ⟨versionD, σ₂, he, hp, rfl, rfl⟩
    · rintro ⟨versionD, σ₂, he, hp, rfl, rfl⟩
      refine ⟨v, versionD, σ₂, he, ?_⟩
      rw [follows_step (a := .jump 5) (τ := σ₂) (g := ⟨i, [.evaluate 0, .jumpIfFalse 4,
        .evaluate 1, .jump 5, .evaluate 2, .finish], 5, [v], x, Frame.newer versionW versionD⟩) rfl
        fun _ _ => rfl, follows_finish (w := v) (u := []) rfl rfl]
      exact ⟨hp, rfl, rfl, rfl⟩
  · rw [follows_evaluate (k := 2) (c := c) rfl (child rfl)]
    constructor
    · rintro ⟨w', versionD, σ₂, he, h⟩
      obtain ⟨hp, rfl, rfl, rfl⟩ := (follows_finish (w := w') (u := []) rfl rfl).1 h
      exact ⟨versionD, σ₂, he, hp, rfl, rfl⟩
    · rintro ⟨versionD, σ₂, he, hp, rfl, rfl⟩
      exact ⟨v, versionD, σ₂, he,
        (follows_finish (w := v) (u := []) rfl rfl).2 ⟨hp, rfl, rfl, rfl⟩⟩
  · rename_i h₁ h₂
    have hn : taken? b c w = none := by
      unfold taken?
      split
      · exact absurd rfl h₁
      · exact absurd rfl h₂
      · rfl
    rw [hn, follows_finish (w := refused i w) (u := []) rfl rfl]
    constructor
    · rintro ⟨hp, rfl, rfl, rfl⟩
      exact ⟨rfl, hp, rfl, rfl⟩
    · rintro ⟨rfl, hp, rfl, rfl⟩
      exact ⟨hp, rfl, rfl, rfl⟩

/-! ### Blocks -/

/-- The steps that define the name of a bind. -/
def boundSteps (t : Tree) (c : NodeId) : List Step :=
  match t.kind? c with
  | some (.bind name) => [.define name]
  | _ => []

theorem follows_bound {i c : NodeId} {y : ScopeId} {steps r : List Step} {cursor : Nat} {w : Value}
    {versionC : Option Nat} (hs : steps.drop cursor = boundSteps s.program.tree c ++ r) :
    Follows s P E ⟨i, steps, cursor, [w], y, versionC⟩ σ v version σ' ↔
      Follows s P E ⟨i, steps, cursor + (boundSteps s.program.tree c).length, [w], y, versionC⟩
        (bound s y c w σ) v version σ' := by
  unfold boundSteps bound at *
  cases hk : s.program.tree.kind? c with
  | none => rfl
  | some kind =>
    cases kind <;> try rfl
    case bind name =>
      have h0 : steps[cursor]? = some (.define name) := by
        have : steps[cursor + 0]? = (steps.drop cursor)[0]? := by simp
        rw [hs, hk] at this
        simpa using this
      exact follows_step (a := .define name) h0 fun _ _ => rfl

theorem statementSteps_cons (t : Tree) (k : Nat) (c : NodeId) (rest : List NodeId) :
    t.statementSteps k (c :: rest) = .evaluate k :: (boundSteps t c ++
      ((if rest.isEmpty then [] else [Step.discard]) ++ t.statementSteps (k + 1) rest)) := by
  simp only [Tree.statementSteps, List.append_assoc, List.cons_append]
  rfl

theorem follows_statements {i : NodeId} {y : ScopeId} {steps : List Step} (cs : List NodeId)
    (k cursor : Nat) (versionL : Option Nat) {σ : State} (hne : cs ≠ [])
    (hs : steps.drop cursor = s.program.tree.statementSteps k cs)
    (hc : (s.program.tree.children i).drop k = cs) :
    Follows s P E ⟨i, steps, cursor, [], y, versionL⟩ σ v version σ' ↔
      ∃ versionC σ₁, Statements s E y cs σ v versionC σ₁ ∧ P i v ∧
        version = Frame.newer versionL versionC ∧ σ' = σ₁.finish s i version v := by
  induction cs generalizing k cursor versionL σ with
  | nil => exact absurd rfl hne
  | cons c rest ih =>
    rw [statementSteps_cons] at hs
    have h0 : steps[cursor]? = some (.evaluate k) := by
      have : steps[cursor + 0]? = (steps.drop cursor)[0]? := by simp
      simpa [hs] using this
    have hchild : (s.program.tree.children i)[k]? = some c := by
      have : (s.program.tree.children i)[k + 0]? = ((s.program.tree.children i).drop k)[0]? := by
        simp
      simpa [hc] using this
    have hs1 : steps.drop (cursor + 1) = boundSteps s.program.tree c ++
        ((if rest.isEmpty then [] else [Step.discard]) ++
          s.program.tree.statementSteps (k + 1) rest) := by
      rw [← List.drop_drop, hs]
      rfl
    have hs2 : steps.drop (cursor + 1 + (boundSteps s.program.tree c).length) =
        (if rest.isEmpty then [] else [Step.discard]) ++
          s.program.tree.statementSteps (k + 1) rest := by
      rw [← List.drop_drop, hs1, List.drop_left]
    have h2 (j : Nat) : steps[cursor + 1 + (boundSteps s.program.tree c).length + j]? =
        (steps.drop (cursor + 1 + (boundSteps s.program.tree c).length))[j]? := by simp
    have after (w : Value) (versionW : Option Nat) (σ₁ : State) :
        Follows s P E ⟨i, steps, cursor + 1, [w], y, versionW⟩ σ₁ v version σ' ↔ _ :=
      follows_bound (c := c) hs1
    rw [follows_evaluate (k := k) (c := c) h0 hchild]
    cases rest with
    | nil =>
      have hf := h2 0
      rw [hs2] at hf
      constructor
      · rintro ⟨w, versionW, σ₁, he, h⟩
        have h := (after w (Frame.newer versionL versionW) σ₁).1 h
        rw [follows_finish (w := w) (u := []) hf rfl] at h
        obtain ⟨hp, rfl, rfl, rfl⟩ := h
        exact ⟨versionW, _, .last he, hp, rfl, rfl⟩
      · rintro ⟨versionC, σ₁, hst, hp, rfl, rfl⟩
        cases hst with
        | last he =>
          refine ⟨v, versionC, _, he, (after v (Frame.newer versionL versionC) _).2 ?_⟩
          rw [follows_finish (w := v) (u := []) hf rfl]
          exact ⟨hp, rfl, rfl, rfl⟩
    | cons d rest =>
      have hd := h2 0
      rw [hs2] at hd
      have hs3 : steps.drop (cursor + 1 + (boundSteps s.program.tree c).length + 1) =
          s.program.tree.statementSteps (k + 1) (d :: rest) := by
        rw [← List.drop_drop, hs2]
        rfl
      have hc3 : (s.program.tree.children i).drop (k + 1) = d :: rest := by
        rw [← List.drop_drop, hc]
        rfl
      have next (w : Value) (versionW : Option Nat) (σ₁ : State) :=
        (after w versionW σ₁).trans ((follows_step (a := .discard) (τ := bound s y c w σ₁)
          (g := ⟨i, steps, cursor + 1 + (boundSteps s.program.tree c).length + 1, [], y, versionW⟩) hd
          fun _ _ => rfl).trans (ih (k + 1) _ versionW (by simp) hs3 hc3))
      constructor
      · rintro ⟨w, versionW, σ₁, he, h⟩
        obtain ⟨versionC, σ₂, hst, hp, rfl, rfl⟩ := (next w (Frame.newer versionL versionW) σ₁).1 h
        exact ⟨_, σ₂, .cons he hst, hp, by rw [Frame.newer_assoc], rfl⟩
      · rintro ⟨versionC, σ₂, hst, hp, rfl, rfl⟩
        cases hst with
        | cons he hst =>
          exact ⟨_, _, _, he, (next _ _ _).2 ⟨_, _, hst, hp, (Frame.newer_assoc _ _ _).symm, rfl⟩⟩

/-- A block opens a scope and runs its statements in it. -/
theorem follows_block {i : NodeId} {n : Node} {x : ScopeId}
    (hi : s.program.tree.Working i n) (hk : n.kind = .block) :
    Follows s P E (.start i (s.program.tree.steps i) x) σ v version σ' ↔
      ∃ σ₁, Statements s E (σ.scopes.addChild x).1 n.children (σ.openScope x) v version σ₁ ∧
        P i v ∧ σ' = σ₁.finish s i version v := by
  have hs : s.program.tree.steps i =
      .enterScope :: s.program.tree.statementSteps 0 n.children := by
    rw [hi.steps, hk]
    rfl
  have hne : n.children ≠ [] := by
    have := hi.fits
    rw [hk] at this
    intro h
    simp [Tree.fits, h] at this
  have first : Follows s P E (.start i (s.program.tree.steps i) x) σ v version σ' ↔
      Follows s P E ⟨i, s.program.tree.steps i, 1, [], (σ.scopes.addChild x).1, none⟩
        (σ.openScope x) v version σ' :=
    follows_step (a := .enterScope) (by rw [hs]; rfl) fun _ _ => rfl
  rw [first, follows_statements n.children 0 1 none hne (by rw [hs]; rfl) hi.children]
  simp only [Frame.none_newer]
  constructor
  · rintro ⟨versionC, σ₁, hst, hp, rfl, rfl⟩
    exact ⟨σ₁, hst, hp, rfl⟩
  · rintro ⟨σ₁, hst, hp, rfl⟩
    exact ⟨version, σ₁, hst, hp, rfl, rfl⟩

end Machine
end StreamLang
