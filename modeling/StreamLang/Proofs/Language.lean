import StreamLang.Proofs.Machine.Calls
import StreamLang.Proofs.Machine.Confinement
import StreamLang.Proofs.Machine.Safety
import StreamLang.Proofs.Machine.Whole
import StreamLang.Proofs.Meaning
/-!
The language, told on the tree. A relation says what each node comes to in a scope, with no machine,
steps or frames, and with no values from before. Running the steps of the nodes implements it: a pass
over a fresh program ends with a value for some budget if and only if that is what the root comes to,
and it runs out of every budget if and only if the root comes to nothing.
-/
namespace StreamLang

open Machine

namespace Tree

/-- The values of nodes that need nothing but themselves. No reaction has a state yet. -/
def constant? (t : Tree) (i : NodeId) : NodeKind → Option Value
  | .number a => some (.number a)
  | .text a => some (.text a)
  | .boolean a => some (.boolean a)
  | .placeholder => some (.failure .incompleteExpression "placeholder needs an expression" i)
  | .previous => some (.failure .incompleteExpression
      (if (t.enclosingReaction? i).isSome then "reaction has no previous value yet"
        else "`.` can only be used inside a reaction") i)
  | _ => none

/-- A statement that is a bind binds its name. -/
def bindStatement (t : Tree) (x : ScopeId) (i : NodeId) (v : Value) (σ : Scopes) : Scopes :=
  match t.kind? i with
  | some (.bind name) => σ.define x name v
  | _ => σ

variable (t : Tree) (w : World)

mutual

/-- What a node comes to in a scope, and the scopes after that. -/
inductive Evaluates : NodeId → ScopeId → Scopes → Value → Scopes → Prop where
  /-- A blocked node and one that lacks parts fail without looking at their children. -/
  | fault {i x σ kind message} (hi : t.fault? i = some (kind, message)) :
    Evaluates i x σ (.failure kind message i) σ
  | constant {i n x σ v} (hi : t.Working i n) (hv : t.constant? i n.kind = some v) :
    Evaluates i x σ v σ
  | reference {i n x σ name} (hi : t.Working i n) (hk : n.kind = .reference name) :
    Evaluates i x σ ((σ.lookup x name).getD
      (.failure .unknownName ("`" ++ name ++ "` is not defined") i)) σ
  | read {i n x σ stream mode} (hi : t.Working i n) (hk : reads? n.kind = some (stream, mode)) :
    Evaluates i x σ (w.reading i stream mode) σ
  /-- A function keeps the scope that it is made in. -/
  | function {i n x σ parameters} (hi : t.Working i n) (hk : n.kind = .function parameters) :
    Evaluates i x σ (.function ⟨i, n.children.headD i, parameters, x⟩) σ
  /-- Most nodes make their value of those of all their children; a chain folds from the left. -/
  | gather {i n x σ vs v σ'} (hi : t.Working i n)
    (parts : EvaluatesAll x n.children σ vs σ') (hv : gather? i n.kind vs = some v) :
    Evaluates i x σ v σ'
  /-- A block opens a scope for its statements. -/
  | block {i n x σ v σ'} (hi : t.Working i n) (hk : n.kind = .block)
    (body : EvaluatesBlock (σ.addChild x).1 n.children (σ.addChild x).2 v σ') :
    Evaluates i x σ v σ'
  | branch {i n x a yes no u d σ σ₁ v σ'} (hi : t.Working i n) (hk : n.kind = .conditional)
    (hc : n.children = [a, yes, no]) (condition : Evaluates a x σ u σ₁)
    (hd : taken? yes no u = some d) (part : Evaluates d x σ₁ v σ') : Evaluates i x σ v σ'
  | refuse {i n x a yes no u σ σ'} (hi : t.Working i n) (hk : n.kind = .conditional)
    (hc : n.children = [a, yes, no]) (condition : Evaluates a x σ u σ')
    (hd : taken? yes no u = none) : Evaluates i x σ (refused i u) σ'
  /-- A call runs the body in a new scope, inside the one that the function has kept. -/
  | call {i n x target arguments c σ σ₁ v σ'} (hi : t.Working i n) (hk : n.kind = .call)
    (parts : EvaluatesAll x n.children σ (target :: arguments) σ₁)
    (hc : callee i target arguments.length = .body c) (live : c.scope < σ₁.all.size)
    (body : Evaluates c.body (σ₁.addChild c.scope).1
      ((σ₁.addChild c.scope).2.defineAll (σ₁.addChild c.scope).1 (c.parameters.zip arguments))
      v σ') : Evaluates i x σ v σ'
  /-- What is no function, or takes another number of arguments, is not run. -/
  | uncalled {i n x target arguments v σ σ'} (hi : t.Working i n) (hk : n.kind = .call)
    (parts : EvaluatesAll x n.children σ (target :: arguments) σ')
    (hc : callee i target arguments.length = .value v) : Evaluates i x σ v σ'
  /-- A reaction begins with its first part. -/
  | reaction {i n x a more σ v σ'} (hi : t.Working i n) (hk : n.kind = .reaction)
    (hc : n.children = a :: more) (initial : Evaluates a x σ v σ') : Evaluates i x σ v σ'

/-- Nodes one after another in one scope. -/
inductive EvaluatesAll : ScopeId → List NodeId → Scopes → List Value → Scopes → Prop where
  | nil {x σ} : EvaluatesAll x [] σ [] σ
  | cons {x i is σ v σ₁ vs σ'} (first : Evaluates i x σ v σ₁)
    (others : EvaluatesAll x is σ₁ vs σ') : EvaluatesAll x (i :: is) σ (v :: vs) σ'

/-- The statements of a block in its scope; the last value counts. -/
inductive EvaluatesBlock : ScopeId → List NodeId → Scopes → Value → Scopes → Prop where
  | last {x i σ v σ₁} (only : Evaluates i x σ v σ₁) :
    EvaluatesBlock x [i] σ v (t.bindStatement x i v σ₁)
  | next {x i j is σ u σ₁ v σ'} (first : Evaluates i x σ u σ₁)
    (others : EvaluatesBlock x (j :: is) (t.bindStatement x i u σ₁) v σ') :
    EvaluatesBlock x (i :: j :: is) σ v σ'

end

end Tree

/-- For such nodes, for what lies below them and for the bodies of such functions no committed value is
used. -/
structure Setting.Unaided (s : Setting) (H : NodeId → Prop) (q : Closure → Prop) : Prop where
  part : ∀ {i c}, H i → c ∈ s.program.tree.children i → H c
  body : ∀ {c}, q c → H c.body
  anew : ∀ {i}, H i → ∀ r, s.reuse? r i = none
  stateless : ∀ {i r}, H i → s.program.tree.kind? i = some .previous →
    s.program.tree.enclosingReaction? i = some r → s.cache.value? r = none
  begins : ∀ {i}, H i → s.program.tree.kind? i = some .reaction → s.cache.has i = false

/-- With nothing committed this holds of all nodes. -/
theorem Setting.unaided_of_fresh {s : Setting} (hc : s.cache = .empty) :
    s.Unaided (fun _ => True) fun _ => True where
  part _ _ := trivial
  body _ := trivial
  anew _ r := by simp [Setting.reuse?, Cache.reusable?, hc]
  stateless _ _ _ := by simp [Cache.value?, hc]
  begins _ _ := by simp [Cache.has, hc]

theorem Tree.every_of_constant {t : Tree} {i : NodeId} {kind : NodeKind} {v : Value}
    {q : Closure → Prop} (hv : t.constant? i kind = some v) : v.Every q := by
  unfold constant? at hv
  split at hv <;> cases hv <;> simp

theorem World.every_reading {w : World} {q : Closure → Prop}
    (h : ∀ stream e, w.snapshot.get? stream = some e → e.value.Every q) (i : NodeId)
    (stream : String) (mode : FetchMode) : (w.reading i stream mode).Every q := by
  unfold reading
  split
  · exact Value.every_failure _ _ _
  · have he := h _ _ ‹_›
    split
    · exact Value.every_boolean _
    · split
      · split
        · exact he
        · exact Value.every_failure _ _ _
      · exact he

namespace Machine

variable {s : Setting} {scopes : Scopes} {i : NodeId} {x : ScopeId} {v : Value}
  {version : Option Nat} {σ σ' : State}

theorem bound_scopes (s : Setting) (x : ScopeId) (i : NodeId) (v : Value) (σ : State) :
    (bound s x i v σ).scopes = s.program.tree.bindStatement x i v σ.scopes := by
  unfold bound Tree.bindStatement
  cases s.program.tree.kind? i with
  | none => rfl
  | some kind => cases kind <;> rfl

/-! ### Nodes that use no committed values -/

section Unaided

variable {H : NodeId → Prop} {G : ScopeId → Prop} {q : Closure → Prop} (hu : s.Unaided H q)
include hu

theorem unaided_enters_iff {E : Frame → State → Value → Option Nat → State → Prop}
    (hi : H i) : Enters s E i x σ v version σ' ↔
      i < s.program.tree.size ∧ E (.start i (s.program.tree.steps i) x) (σ.enter i) v version σ' := by
  rw [Enters, hu.anew hi]

theorem unaided_leaf?_of_constant {n : Node} {S : Scopes}
    (hi : H i) (hw : s.program.tree.Working i n)
    (hv : s.program.tree.constant? i n.kind = some v) : leaf? s i n x S = some v := by
  unfold leaf?
  cases hk : n.kind <;> simp only [hk, Tree.constant?, reduceCtorEq] at hv <;> try exact hv
  case previous =>
    cases hr : s.program.tree.enclosingReaction? i with
    | none => simpa [hr] using hv
    | some r =>
      have hkind := hw.kind.trans (congrArg some hk)
      simpa [hr, hu.stateless hi hkind hr] using hv

/-! ### What the machine comes to, a node comes to -/

variable {P : NodeId → Value → Prop} {E : Frame → State → Value → Option Nat → State → Prop}
  (hs : s.Contains G q)
include hs

section Sound

variable (hE : ∀ {i x v version} {σ σ' : State}, H i → G x →
  E (.start i (s.program.tree.steps i) x) σ v version σ' → σ.scopes.Confines G q →
    s.program.tree.Evaluates (s.world scopes) i x σ.scopes v σ'.scopes ∧ v.Every q ∧
      σ'.scopes.Confines G q)
include hE

omit hs in
theorem evaluatesAll_of_entersAll {is : List NodeId} {vs : List Value} (hi : ∀ i ∈ is, H i)
    (hx : G x) (h : EntersAll s E x is σ vs version σ') (hσ : σ.scopes.Confines G q) :
    s.program.tree.EvaluatesAll (s.world scopes) x is σ.scopes vs σ'.scopes ∧
      (∀ v ∈ vs, v.Every q) ∧ σ'.scopes.Confines G q := by
  induction h with
  | nil => exact ⟨.nil, fun _ hv => absurd hv List.not_mem_nil, hσ⟩
  | cons first _ ih =>
    obtain ⟨hfirst, hothers⟩ := List.forall_mem_cons.1 hi
    obtain ⟨he, hv, hσ⟩ := hE hfirst hx ((unaided_enters_iff hu hfirst).1 first).2 hσ
    obtain ⟨hes, hvs, hσ⟩ := ih hothers hσ
    exact ⟨.cons he hes, List.forall_mem_cons.2 ⟨hv, hvs⟩, hσ⟩

omit hu hs hE in
theorem confines_bindStatement {S : Scopes} (t : Tree) (h : S.Confines G q) (x : ScopeId) (i : NodeId)
    (hv : v.Every q) : (t.bindStatement x i v S).Confines G q := by
  unfold Tree.bindStatement
  split
  · exact h.define x _ hv
  · exact h

omit hs in
theorem evaluatesBlock_of_statements {is : List NodeId} (hi : ∀ i ∈ is, H i) (hx : G x)
    (h : Statements s E x is σ v version σ') (hσ : σ.scopes.Confines G q) :
    s.program.tree.EvaluatesBlock (s.world scopes) x is σ.scopes v σ'.scopes ∧ v.Every q ∧
      σ'.scopes.Confines G q := by
  induction h with
  | last only =>
    obtain ⟨hfirst, -⟩ := List.forall_mem_cons.1 hi
    obtain ⟨he, hv, hσ⟩ := hE hfirst hx ((unaided_enters_iff hu hfirst).1 only).2 hσ
    rw [bound_scopes]
    exact ⟨.last he, hv, confines_bindStatement _ hσ _ _ hv⟩
  | cons first _ ih =>
    obtain ⟨hfirst, hothers⟩ := List.forall_mem_cons.1 hi
    obtain ⟨he, hv, hσ⟩ := hE hfirst hx ((unaided_enters_iff hu hfirst).1 first).2 hσ
    rw [bound_scopes] at ih
    obtain ⟨hes, hvs, hσ⟩ := ih hothers (confines_bindStatement _ hσ _ _ hv)
    exact ⟨.next he hes, hvs, hσ⟩

/-- One node, if all that is run on the way comes to what it should. -/
theorem evaluates_of_follows (hi : H i) (hx : G x) (hσ : σ.scopes.Confines G q)
    (h : Follows s P E (.start i (s.program.tree.steps i) x) σ v version σ') :
    s.program.tree.Evaluates (s.world scopes) i x σ.scopes v σ'.scopes ∧ v.Every q ∧
      σ'.scopes.Confines G q := by
  cases hnode : s.program.tree.node? i with
  | none => simpa [hnode] using Tree.lt_size_iff.1 (lt_size_of_follows h)
  | some m =>
    rcases Tree.fault_or_working (t := s.program.tree) (i := i) (by rw [hnode]; rfl) with
      ⟨kind, message, hf⟩ | ⟨n, hw⟩
    · obtain ⟨-, rfl, -, rfl⟩ := (follows_fault hf).1 h
      exact ⟨.fault hf, Value.every_failure _ _ _, hσ⟩
    have parts (c : NodeId) (hc : c ∈ n.children) : H c := hu.part hi (hw.children ▸ hc)
    have constant {u : Value} (hc : s.program.tree.constant? i n.kind = some u) :
        s.program.tree.Evaluates (s.world scopes) i x σ.scopes v σ'.scopes ∧ v.Every q ∧
          σ'.scopes.Confines G q := by
      obtain ⟨-, rfl, -, rfl⟩ := (follows_leaf hw (unaided_leaf?_of_constant hu hi hw hc)).1 h
      exact ⟨.constant hw hc, Tree.every_of_constant hc, hσ⟩
    have read {stream : String} {mode : FetchMode} (hk : reads? n.kind = some (stream, mode)) :
        s.program.tree.Evaluates (s.world scopes) i x σ.scopes v σ'.scopes ∧ v.Every q ∧
          σ'.scopes.Confines G q := by
      obtain ⟨-, rfl, -, rfl⟩ := (follows_read hw hk).1 h
      rw [fetch_value s scopes]
      exact ⟨.read hw hk, World.every_reading hs.holds.snapshot _ _ _, hσ⟩
    have gather (hg : gathers n.kind = true) :
        s.program.tree.Evaluates (s.world scopes) i x σ.scopes v σ'.scopes ∧ v.Every q ∧
          σ'.scopes.Confines G q := by
      obtain ⟨vs, σ₁, ha, hv, -, rfl⟩ := (follows_gather hw hg).1 h
      obtain ⟨ha, hvs, hσ₁⟩ := evaluatesAll_of_entersAll hu hE parts hx ha hσ
      exact ⟨.gather hw ha hv, every_gather? hvs hv, hσ₁⟩
    cases hk : n.kind
    case program | bind | list | struct | property | binary | unary =>
      exact gather (by rw [hk]; rfl)
    case stream | changed => exact read (by rw [hk]; rfl)
    case number | text | boolean | placeholder | previous => exact constant (by rw [hk]; rfl)
    case reference name =>
      have hleaf : leaf? s i n x σ.scopes = some ((σ.scopes.lookup x name).getD
          (.failure .unknownName ("`" ++ name ++ "` is not defined") i)) := by
        simp only [leaf?, hk]
      obtain ⟨-, rfl, -, rfl⟩ := (follows_leaf hw hleaf).1 h
      refine ⟨.reference hw hk, ?_, hσ⟩
      cases hl : σ.scopes.lookup x name with
      | none => exact Value.every_failure _ _ _
      | some u => exact hσ.lookup hx hl
    case function parameters =>
      have hleaf : leaf? s i n x σ.scopes =
          some (.function ⟨i, n.children.headD i, parameters, x⟩) := by simp only [leaf?, hk]
      have hfits := hw.fits
      rw [hk] at hfits
      obtain ⟨c, hc⟩ : ∃ c, n.children = [c] :=
        List.length_eq_one_iff.1 (by simpa [Tree.fits] using hfits)
      obtain ⟨-, rfl, -, rfl⟩ := (follows_leaf hw hleaf).1 h
      refine ⟨.function hw hk, Value.every_function.2 ?_, hσ⟩
      rw [hc]
      exact hs.makes i c parameters x (hw.kind.trans (congrArg some hk)) (hw.children.trans hc) hx
    case block =>
      obtain ⟨σ₁, hb, -, rfl⟩ := (follows_block hw hk).1 h
      obtain ⟨hb, hv, hσ₁⟩ := evaluatesBlock_of_statements hu hE parts
        (hσ.fresh _ (Nat.le_refl _)) hb (hσ.addChild hx)
      exact ⟨.block hw hk hb, hv, hσ₁⟩
    case conditional =>
      obtain ⟨a, yes, no, hchildren⟩ := hw.conditional_children hk
      obtain ⟨u, versionU, σ₁, ha, h⟩ := (follows_conditional hw hk hchildren).1 h
      have hH (c : NodeId) (hc : c ∈ [a, yes, no]) : H c := parts c (hchildren ▸ hc)
      obtain ⟨ha, hv, hσ₁⟩ := hE (hH a (by simp)) hx
        ((unaided_enters_iff hu (hH a (by simp))).1 ha).2 hσ
      cases hd : taken? yes no u with
      | some d =>
        rw [hd] at h
        obtain ⟨versionD, σ₂, hpart, -, -, rfl⟩ := h
        have hHd : H d := by rcases eq_of_taken? hd with rfl | rfl <;> exact hH _ (by simp)
        obtain ⟨hpart, hv, hσ₂⟩ := hE hHd hx ((unaided_enters_iff hu hHd).1 hpart).2 hσ₁
        exact ⟨.branch hw hk hchildren ha hd hpart, hv, hσ₂⟩
      | none =>
        rw [hd] at h
        obtain ⟨rfl, -, -, rfl⟩ := h
        exact ⟨.refuse hw hk hchildren ha hd, every_refused i u, hσ₁⟩
    case call =>
      obtain ⟨target, arguments, versionC, σ₁, ha, h⟩ := (follows_call hw hk).1 h
      obtain ⟨ha, hvs, hσ₁⟩ := evaluatesAll_of_entersAll hu hE parts hx ha hσ
      obtain ⟨htarget, harguments⟩ := List.forall_mem_cons.1 hvs
      cases hcall : callee i target arguments.length with
      | value u =>
        rw [hcall] at h
        obtain ⟨-, rfl, -, rfl⟩ := h
        exact ⟨.uncalled hw hk ha hcall, every_callee hcall, hσ₁⟩
      | body c =>
        rw [hcall] at h
        obtain ⟨hlive, -, versionB, σ₂, hbody, -, -, rfl⟩ := h
        have hc : q c := Value.every_function.1 ((callee_eq_body hcall).1 ▸ htarget)
        have hcalled : (σ₁.called c arguments).scopes.Confines G q :=
          (hσ₁.addChild (hs.inside c hc)).defineAll _ fun b hb =>
            harguments _ (List.of_mem_zip hb).2
        obtain ⟨hbody, hv, hσ₂⟩ := hE (hu.body hc) (hσ₁.fresh _ (Nat.le_refl _)) hbody
          hcalled
        exact ⟨.call hw hk ha hcall hlive hbody, hv, hσ₂⟩
    case reaction =>
      have hfits := hw.fits
      rw [hk] at hfits
      cases hchildren : n.children with
      | nil => simp [Tree.fits, hchildren] at hfits
      | cons a more =>
        have hfresh : s.cache.has i = false := hu.begins hi (hw.kind.trans (congrArg some hk))
        obtain ⟨σ₁, ha, -, rfl⟩ := (follows_reaction hw hk hchildren hfresh).1 h
        have hHa : H a := parts a (by simp [hchildren])
        obtain ⟨ha, hv, hσ₁⟩ := hE hHa hx ((unaided_enters_iff hu hHa).1 ha).2 hσ
        exact ⟨.reaction hw hk hchildren ha, hv, hσ₁⟩

end Sound

/-- What is put on top of a frame takes fewer steps. -/
theorem unaided_evaluates_of_runs {k : Nat} (hi : H i) (hx : G x)
    (hσ : σ.scopes.Confines G q)
    (h : Runs s P k (.start i (s.program.tree.steps i) x) σ v version σ') :
    s.program.tree.Evaluates (s.world scopes) i x σ.scopes v σ'.scopes ∧ v.Every q ∧
      σ'.scopes.Confines G q := by
  induction k using Nat.strong_induction_on generalizing i x σ v version σ' with
  | _ k ih =>
    refine evaluates_of_follows hu hs ?_ hi hx hσ (h.follows (Nat.le_refl k))
    rintro i x v version σ σ' hi hx ⟨j, hj, h⟩ hσ
    exact ih j hj hi hx hσ h

end Unaided

section Fresh

variable (hc : s.cache = .empty)
include hc

theorem enters_iff {E : Frame → State → Value → Option Nat → State → Prop} :
    Enters s E i x σ v version σ' ↔
      i < s.program.tree.size ∧ E (.start i (s.program.tree.steps i) x) (σ.enter i) v version σ' :=
  unaided_enters_iff (Setting.unaided_of_fresh hc) trivial

theorem leaf?_of_constant {n : Node} {S : Scopes} (hw : s.program.tree.Working i n)
    (hv : s.program.tree.constant? i n.kind = some v) : leaf? s i n x S = some v :=
  unaided_leaf?_of_constant (Setting.unaided_of_fresh hc) trivial hw hv

theorem evaluates_of_runs {P : NodeId → Value → Prop} {k : Nat}
    (h : Runs s P k (.start i (s.program.tree.steps i) x) σ v version σ') :
    s.program.tree.Evaluates (s.world scopes) i x σ.scopes v σ'.scopes := by
  have all (S : Scopes) : S.Confines (fun _ => True) fun _ => True :=
    ⟨fun _ _ => trivial, fun _ _ _ _ => trivial, fun _ _ _ _ _ _ _ _ => trivial⟩
  have hs : s.Contains (fun _ => True) fun _ => True :=
    ⟨⟨fun _ _ _ _ _ => trivial, fun _ _ _ _ _ => trivial⟩, trivial, fun _ _ => trivial,
      fun _ _ _ _ _ _ _ => trivial⟩
  exact (unaided_evaluates_of_runs (Setting.unaided_of_fresh hc) hs trivial trivial (all _) h).1

/-! ### What a node comes to, the machine comes to -/

omit hc in
/-- Entering a node comes to this, whatever the record is. -/
def Implements (s : Setting) (i : NodeId) (x : ScopeId) (S : Scopes) (v : Value) (S' : Scopes) :
    Prop :=
  ∀ σ : State, σ.scopes = S → ∃ version σ',
    Enters s (Completes s fun _ _ => True) i x σ v version σ' ∧ σ'.scopes = S'

omit hc in
/-- So does entering nodes in turn. -/
def ImplementsAll (s : Setting) (x : ScopeId) (is : List NodeId) (S : Scopes) (vs : List Value)
    (S' : Scopes) : Prop :=
  ∀ σ : State, σ.scopes = S → ∃ version σ',
    EntersAll s (Completes s fun _ _ => True) x is σ vs version σ' ∧ σ'.scopes = S'

omit hc in
/-- So does running the statements of a block. -/
def ImplementsBlock (s : Setting) (x : ScopeId) (is : List NodeId) (S : Scopes) (v : Value)
    (S' : Scopes) : Prop :=
  ∀ σ : State, σ.scopes = S → ∃ version σ',
    Statements s (Completes s fun _ _ => True) x is σ v version σ' ∧ σ'.scopes = S'

/-- With nothing committed, a node is run. -/
theorem implements_of_follows {S S' : Scopes} (h : ∀ σ : State, σ.scopes = S → ∃ version σ',
    Follows s (fun _ _ => True) (Completes s fun _ _ => True)
      (.start i (s.program.tree.steps i) x) (σ.enter i) v version σ' ∧ σ'.scopes = S') :
    Implements s i x S v S' := by
  intro σ hσ
  obtain ⟨version, σ', h, h'⟩ := h σ hσ
  exact ⟨version, σ', (enters_iff hc).2 ⟨lt_size_of_follows h, completes_iff.2 h⟩, h'⟩

/-- The induction is on how the node came to its value. -/
theorem implements_of_evaluates {S S' : Scopes}
    (h : s.program.tree.Evaluates (s.world scopes) i x S v S') : Implements s i x S v S' := by
  induction h using @Tree.Evaluates.rec _ _ _
    (fun x is S vs S' _ => ImplementsAll s x is S vs S')
    (fun x is S v S' _ => ImplementsBlock s x is S v S') with
  | fault hi =>
    exact implements_of_follows hc fun σ hσ =>
      ⟨none, _, (follows_fault hi).2 ⟨trivial, rfl, rfl, rfl⟩, hσ⟩
  | constant hw hv =>
    exact implements_of_follows hc fun σ hσ =>
      ⟨none, _, (follows_leaf hw (leaf?_of_constant hc hw hv)).2 ⟨trivial, rfl, rfl, rfl⟩, hσ⟩
  | reference hw hk =>
    refine implements_of_follows hc fun σ hσ =>
      ⟨none, _, (follows_leaf hw ?_).2 ⟨trivial, rfl, rfl, rfl⟩, hσ⟩
    simp only [leaf?, hk, ← hσ]
    rfl
  | @read i _ _ _ _ _ hw hk =>
    refine implements_of_follows hc fun σ hσ => ?_
    rw [← fetch_value s scopes (σ.enter i).record]
    exact ⟨_, _, (follows_read hw hk).2 ⟨trivial, rfl, rfl, rfl⟩, hσ⟩
  | function hw hk =>
    refine implements_of_follows hc fun σ hσ =>
      ⟨none, _, (follows_leaf hw ?_).2 ⟨trivial, rfl, rfl, rfl⟩, hσ⟩
    simp only [leaf?, hk]
  | @gather i n _ _ vs _ _ hw _ hv ih =>
    refine implements_of_follows hc fun σ hσ => ?_
    obtain ⟨version, σ₁, ha, h₁⟩ := ih (σ.enter i) hσ
    have hg : gathers n.kind = true := gathers_of_gather? hv
    exact ⟨version, _, (follows_gather hw hg).2 ⟨vs, σ₁, ha, hv, trivial, rfl⟩, h₁⟩
  | @block i _ x _ _ _ hw hk _ ih =>
    refine implements_of_follows hc ?_
    rintro σ rfl
    obtain ⟨version, σ₁, hs, h₁⟩ := ih ((σ.enter i).openScope x) rfl
    exact ⟨version, _, (follows_block hw hk).2 ⟨σ₁, hs, trivial, rfl⟩, h₁⟩
  | @branch i _ _ _ _ _ _ _ _ _ v _ hw hk hchildren _ hd _ ihCondition ihPart =>
    refine implements_of_follows hc fun σ hσ => ?_
    obtain ⟨versionA, σ₁, ha, h₁⟩ := ihCondition (σ.enter i) hσ
    obtain ⟨versionD, σ₂, hpart, h₂⟩ := ihPart σ₁ h₁
    refine ⟨Frame.newer versionA versionD, σ₂.finish s i (Frame.newer versionA versionD) v,
      (follows_conditional hw hk hchildren).2 ⟨_, _, _, ha, ?_⟩, h₂⟩
    rw [hd]
    exact ⟨versionD, σ₂, hpart, trivial, rfl, rfl⟩
  | @refuse i _ _ _ _ _ u _ _ hw hk hchildren _ hd ih =>
    refine implements_of_follows hc fun σ hσ => ?_
    obtain ⟨versionA, σ₁, ha, h₁⟩ := ih (σ.enter i) hσ
    refine ⟨versionA, σ₁.finish s i versionA (refused i u),
      (follows_conditional hw hk hchildren).2 ⟨_, _, _, ha, ?_⟩, h₁⟩
    rw [hd]
    exact ⟨rfl, trivial, rfl, rfl⟩
  | @call i _ _ target arguments c _ _ v _ hw hk _ hcall live _ ihParts ihBody =>
    refine implements_of_follows hc fun σ hσ => ?_
    obtain ⟨versionC, σ₁, ha, rfl⟩ := ihParts (σ.enter i) hσ
    obtain ⟨versionB, σ₂, hbody, h₂⟩ := ihBody (σ₁.called c arguments) rfl
    refine ⟨Frame.newer versionC versionB, σ₂.finish s i (Frame.newer versionC versionB) v,
      (follows_call hw hk).2 ⟨target, arguments, versionC, σ₁, ha, ?_⟩, h₂⟩
    rw [hcall]
    obtain ⟨inside, hbody⟩ := (enters_iff hc).1 hbody
    exact ⟨live, inside, versionB, σ₂, hbody, trivial, rfl, rfl⟩
  | @uncalled i _ _ target arguments v _ _ hw hk _ hcall ih =>
    refine implements_of_follows hc fun σ hσ => ?_
    obtain ⟨versionC, σ₁, ha, h₁⟩ := ih (σ.enter i) hσ
    refine ⟨versionC, σ₁.finish s i versionC v,
      (follows_call hw hk).2 ⟨target, arguments, versionC, σ₁, ha, ?_⟩, h₁⟩
    rw [hcall]
    exact ⟨trivial, rfl, rfl, rfl⟩
  | @reaction i _ _ _ _ _ _ _ hw hk hchildren _ ih =>
    refine implements_of_follows hc fun σ hσ => ?_
    have hfresh : s.cache.has i = false := by simp [Cache.has, hc]
    obtain ⟨version, σ₁, ha, h₁⟩ := ih (σ.enter i) hσ
    exact ⟨version, _, (follows_reaction hw hk hchildren hfresh).2 ⟨σ₁, ha, trivial, rfl⟩, h₁⟩
  | nil => exact fun σ hσ => ⟨none, σ, .nil, hσ⟩
  | cons _ _ ihFirst ihOthers =>
    intro σ hσ
    obtain ⟨version, σ₁, first, h₁⟩ := ihFirst σ hσ
    obtain ⟨versionS, σ₂, others, h₂⟩ := ihOthers σ₁ h₁
    exact ⟨_, σ₂, .cons first others, h₂⟩
  | last _ ih =>
    intro σ hσ
    obtain ⟨version, σ₁, only, h₁⟩ := ih σ hσ
    exact ⟨version, _, .last only, by rw [bound_scopes, h₁]⟩
  | @next x i _ _ _ u _ _ _ _ _ ihFirst ihOthers =>
    intro σ hσ
    obtain ⟨version, σ₁, first, h₁⟩ := ihFirst σ hσ
    obtain ⟨versionS, σ₂, others, h₂⟩ := ihOthers (bound s x i u σ₁) (by rw [bound_scopes, h₁])
    exact ⟨_, σ₂, .cons first others, h₂⟩

/-! ### Whole passes -/

/-- A pass that ends with a value tells what the root comes to. -/
theorem evaluates_of_finish (h : ((start scopes).finish s false).status = .ended (.ofValue v)) :
    ∃ after, s.program.tree.Evaluates (s.world scopes) s.root (scopes.addChild s.globals).1
      (scopes.addChild s.globals).2 v after := by
  have hv : ((start scopes).run s false (s.budget + 2)).endValue? = some v := by
    have hend : ((start scopes).run s false (s.budget + 2)).status = .ended (.ofValue v) := h
    simp [endValue?, terminal?, hend, value?_ofValue]
  obtain ⟨n, version, σ', he, -⟩ :=
    enters_of_run (P := fun _ _ => True) (fun _ _ _ _ _ => trivial) hv
  obtain ⟨-, k, hk⟩ := (enters_iff hc).1 he
  exact ⟨σ'.scopes, evaluates_of_runs hc hk⟩

/-- What the root comes to, a pass ends with as soon as the budget suffices. -/
theorem finish_of_evaluates {after : Scopes} (h : s.program.tree.Evaluates (s.world scopes) s.root
    (scopes.addChild s.globals).1 (scopes.addChild s.globals).2 v after) :
    ∃ needed, ∀ budget, needed ≤ budget →
      ((start scopes).finish { s with budget } false).status = .ended (.ofValue v) := by
  obtain ⟨version, σ', he, -⟩ := implements_of_evaluates hc h (State.initial s scopes) rfl
  exact finish_of_enters he

end Fresh

/-- A pass with no functions but its own ends with a value or exceeds its budget. -/
theorem ended_or_exceeded (o : s.program.tree.Ordered) (ha : s.Alive scopes.all.size)
    (hs : scopes.Every (Closure.Lives s.program.tree scopes.all.size)) :
    (∃ v, ((start scopes).finish s false).status = .ended (.ofValue v)) ∨
      ((start scopes).finish s false).status = .ended .budgetExceeded := by
  rcases stopped_finish s scopes with h | h | ⟨fault, h⟩
  · exact .inl h
  · exact .inr h
  · rw [finish, run_eq_ticks] at h
    exact absurd h (((poised_start ha.provides hs).ticks o (fun _ hi => hi) _).unbroken fault)

/-- With nothing committed, a pass ends with a value for some budget if and only if the root comes to
that value. If all functions around the program are its own, it exceeds every budget if and only if
the root comes to nothing. -/
theorem ends_iff_evaluates {d : Draft} {body : NodeId} (ht : d.finish body = .ok s.program.tree)
    (hc : s.cache = .empty) :
    (∀ v, (∃ budget, ((start scopes).finish { s with budget } false).status =
        .ended (.ofValue v)) ↔
      ∃ after, s.program.tree.Evaluates (s.world scopes) s.root (scopes.addChild s.globals).1
        (scopes.addChild s.globals).2 v after) ∧
    (s.Alive scopes.all.size → scopes.Every (Closure.Lives s.program.tree scopes.all.size) →
      ((∀ budget, ((start scopes).finish { s with budget } false).status =
        .ended .budgetExceeded) ↔
      ¬ ∃ v after, s.program.tree.Evaluates (s.world scopes) s.root (scopes.addChild s.globals).1
        (scopes.addChild s.globals).2 v after)) := by
  refine ⟨fun v => ⟨?_, ?_⟩, fun ha hs => ⟨?_, ?_⟩⟩
  · rintro ⟨budget, h⟩
    exact evaluates_of_finish (s := { s with budget }) hc h
  · rintro ⟨after, h⟩
    obtain ⟨needed, hn⟩ := finish_of_evaluates hc h
    exact ⟨needed, hn needed (Nat.le_refl needed)⟩
  · rintro h ⟨v, after, he⟩
    obtain ⟨needed, hn⟩ := finish_of_evaluates hc he
    have hv := (h needed).symm.trans (hn needed (Nat.le_refl needed))
    unfold Terminal.ofValue at hv
    split at hv <;> cases hv
  · intro h budget
    have alive : ({ s with budget } : Setting).Alive scopes.all.size :=
      ⟨ha.root, ha.globals, ha.cache, ha.snapshot⟩
    refine (ended_or_exceeded (s := { s with budget }) (Draft.finish_ordered ht) alive
      hs).resolve_left ?_
    rintro ⟨v, hv⟩
    obtain ⟨after, he⟩ := evaluates_of_finish (s := { s with budget }) hc hv
    exact h ⟨v, after, he⟩

end Machine

namespace Tree

variable {t : Tree} {w w' : World} {i : NodeId} {x : ScopeId} {σ τ τ' : Scopes} {v v' : Value}

end Tree

/-! A function that says twice what a stream shows. -/

namespace Twice

def draft : Draft :=
  ⟨#[⟨.reference "x", [], none, none⟩, ⟨.reference "x", [], none, none⟩,
    ⟨.binary [.add], [0, 1], none, none⟩, ⟨.function ["x"], [2], none, none⟩,
    ⟨.bind "f", [3], none, none⟩, ⟨.reference "f", [], none, none⟩, ⟨.stream "s", [], none, none⟩,
    ⟨.call, [5, 6], none, none⟩, ⟨.block, [4, 7], none, none⟩]⟩

def tree : Tree := ((draft.finish 8).toOption).getD ⟨#[], 0⟩

def scopes : Scopes := Scopes.empty.addRoot.2

def setting : Setting where
  program := .ofTree tree
  cache := .empty
  staleness := .empty
  globals := 0
  snapshot := ⟨1, [("s", ⟨.text "ab", 1, true, false, false⟩)]⟩
  root := 9
  budget := 0
  policy := .degrade

theorem alive : setting.Alive scopes.all.size where
  root := by decide +kernel
  globals := by decide
  cache i e he := by simp [setting] at he
  snapshot stream e he := by
    obtain ⟨-, rfl⟩ : (stream, e) = ("s", _) := List.mem_singleton.1 (Assoc.mem_of_get? he)
    exact Value.every_text _

end Twice

/-- The program says "abab", and a budget suffices for it. -/
theorem Machine.twice_evaluates :
    (∃ after, Twice.tree.Evaluates (Twice.setting.world Twice.scopes) 9 1
      (Twice.scopes.addChild 0).2 (.text "abab") after) ∧
    ¬ ∀ budget, ((Machine.start Twice.scopes).finish { Twice.setting with budget } false).status =
      .ended .budgetExceeded := by
  have hd : Twice.draft.finish 8 = .ok Twice.setting.program.tree := by decide +kernel
  have h := @Machine.ends_iff_evaluates Twice.setting Twice.scopes Twice.draft 8 hd rfl
  have hends : ((Machine.start Twice.scopes).finish { Twice.setting with budget := 100 }
      false).status = .ended (.ofValue (.text "abab")) := by rfl
  have he := (h.1 (.text "abab")).1 ⟨100, hends⟩
  exact ⟨he, fun hall => (h.2 Twice.alive Scopes.every_empty.addRoot).1 hall ⟨_, he⟩⟩

end StreamLang
