import StreamLang.Proofs.Machine.Once
import StreamLang.Proofs.Machine.Whole
import StreamLang.Proofs.Reaction.Values
import StreamLang.Proofs.Reuse.Pass
/-!
A pass over a tree with one reaction that has a state. By induction on nodes: what a node below the
reaction hands down is its value in the state, whether the node was run or a committed value stood
in for it, and so what the reaction hands down is the next state.
-/
namespace StreamLang

open Machine

/-- What a record says of binds holds: one that is said to be unchanged was committed with the value
that it has. -/
def Setting.Tells (s : Setting) (V : NodeId → Value) (r : Record) : Prop :=
  ∀ b : NodeId, r.bindsChanged[b]? = some false → s.cache.value? b = some (V b)

namespace Setting.Tells

variable {s : Setting} {V : NodeId → Value} {r r' : Record}

theorem empty : s.Tells V .empty := by
  intro b hb
  simp [Record.empty] at hb

theorem of_eq (h : s.Tells V r) (hb : r'.bindsChanged = r.bindsChanged) : s.Tells V r' := by
  intro b hc
  rw [hb] at hc
  exact h b hc

theorem finish (h : s.Tells V r) {f : Frame} {v : Value} (hv : v = V f.node)
    (hf : s.Faithful f.node v) : s.Tells V (s.noteFinish r f v) := by
  intro b hb
  rw [s.noteFinish_bindsChanged] at hb
  split at hb
  · rename_i hbind
    rw [Std.ExtTreeMap.getElem?_insert] at hb
    split at hb
    · rename_i heq
      obtain rfl : f.node = b := by simpa using heq
      cases hu : s.cache.value? f.node with
      | none => simp [hu] at hb
      | some u => rw [hf hbind u hu (by simpa [hu] using hb), hv]
    · exact h b hb
  · exact h b hb

theorem reuse (h : s.Tells V r) {i : NodeId} (hv : s.cache.value? i = some (V i)) :
    s.Tells V (s.noteReuse r i) := by
  intro b hb
  rw [s.noteReuse_bindsChanged] at hb
  split at hb
  · rw [Std.ExtTreeMap.getElem?_insert] at hb
    split at hb
    · rename_i heq
      obtain rfl : i = b := by simpa using heq
      exact hv
    · exact h b hb
  · exact h b hb

end Setting.Tells

/-- A pass over a tree with one reaction, which has a state. Below it committed values stand in only
for themselves. -/
structure Recurring (t : Tree) (r : NodeId) (n : Node) (w : World) (U V : NodeId → Value)
    (kept : Value) (s : Setting) : Prop where
  program : s.program = .ofTree t
  reactive : t.Reactive r n
  valued : t.Valued r w U V
  snapshot : w.snapshot = s.snapshot
  policy : w.policy = s.policy
  states : w.states = s.cache.value?
  kept : s.cache.value? r = some kept
  stands : ∀ record i u, t.Below r i → ¬ t.Spent i → s.Tells V record →
    s.reuse? record i = some u → u = V i

/-- Committed values stand in only for themselves below a sheltered reaction, if they fit the world seen
last, and if what is in sight of the reaction has its value in the world of the pass. -/
theorem Begun.stands {t : Tree} {ht : t.InPlace} {left : NodeId → Prop} {w w' : World}
    {U V V' : NodeId → Value} {s : Setting} (b : Begun (.stateless ht) left w w' U V' s) {r : NodeId} {n : Node} (rx : t.Reactive r n)
    (sheltered : t.Sheltered r) (same : ∀ i, t.InSight r i → t.Stateless i → V i = V' i)
    {record : Record} {i : NodeId} {u : Value} (hi : t.Below r i) (hs : ¬ t.Spent i)
    (tells : s.Tells V record) (hr : s.reuse? record i = some u) : u = V i := by
  have hv := Setting.isVolatile_of_reuse? hr
  rw [b.program] at hv
  have hst := rx.stateless_of_not_volatile sheltered hi hv hs
  have told (d : NodeId) (hd : d ∈ (Analysis.ofTree t).dependencies i) (hds : t.Stateless d)
      (hb : record.bindsChanged[d]? = some false) : s.cache.value? d = some (V' d) := by
    obtain ⟨j, hj, hres, -⟩ := (Analysis.mem_dependencies rx.ordered).1 hd
    rw [tells d hb, same d (rx.inSight_of_resolution (rx.below_within hi hj) hres) hds]
  obtain ⟨hu, -⟩ :=
    b.eq_of_unaffected hst (Setting.value?_of_reuse? hr)
      (b.unaffected_of_reuse hst.self.kind_ne_reaction hr) told
  rw [hu, same i (.inl hi) hst]

/-- A node is about to be entered, for the first time in the pass, in a scope that shows what its
names stand for. -/
structure Located (t : Tree) (w : World) (V : NodeId → Value) (s : Setting) (i : NodeId)
    (x : ScopeId) (σ : State) : Prop where
  lt : i < t.size
  scope : x < σ.scopes.all.size
  nested : σ.scopes.Nested
  names : ∀ name, σ.scopes.lookup x name = t.named w V name i
  unspent : ¬ t.Spent i
  tells : s.Tells V σ.record
  fresh : ∀ j, t.Within i j → σ.record.written? j = none

/-- What a pass keeps while it goes on. If the reaction has been run in it, its value is the next
state. -/
structure Advances (r : NodeId) (n : Node) (V : NodeId → Value) (kept : Value) (s : Setting)
    (σ σ' : State) : Prop where
  nested : σ'.scopes.Nested
  scopes : σ.scopes.Extends σ'.scopes
  tells : s.Tells V σ'.record
  next : σ'.record.written? r ≠ none → σ.record.written? r ≠ none ∨ V r = Tree.nextState r n V kept

/-- Outside of the reaction the nodes in `i` have the values that the pass has for them. -/
def Tree.Fits (t : Tree) (r : NodeId) (V : NodeId → Value) (s : Setting) (i : NodeId) (d : Record) :
    Prop :=
  ∀ j u, t.Within i j → ¬ t.Below r j → s.came d j = some u → V j = u

variable {t : Tree} {r i c : NodeId} {n : Node} {w : World} {U V : NodeId → Value} {kept : Value}
  {s : Setting} {x : ScopeId} {σ σ₁ σ' : State} {v : Value}
  {version : Option Nat}

theorem Tree.Fits.part {d d' : Record} (h : t.Fits r V s i d') (hc : t.Within i c)
    (same : ∀ j, t.Within c j → d'.written? j = d.written? j) : t.Fits r V s c d := by
  intro j u hj hb hu
  refine h j u (hc.trans hj) hb ?_
  rw [Setting.came, same j hj]
  exact hu

/-- Before a node finishes, its children fit if it fits after that. -/
theorem Tree.Fits.child (h : t.Fits r V s i (σ.finish s i version v).record) (o : t.Ordered)
    (hc : c ∈ t.children i) : t.Fits r V s c σ.record := by
  refine h.part (Within.child hc) fun j hj => ?_
  have hne : i ≠ j := by
    rintro rfl
    exact o.not_within_parent hc hj
  rw [written?_finish, if_neg hne]

namespace Advances

theorem refl (hn : σ.scopes.Nested) (ht : s.Tells V σ.record) : Advances r n V kept s σ σ :=
  ⟨hn, .refl _, ht, .inl⟩

theorem trans (h : Advances r n V kept s σ σ₁) (h' : Advances r n V kept s σ₁ σ') :
    Advances r n V kept s σ σ' where
  nested := h'.nested
  scopes := h.scopes.trans h'.scopes
  tells := h'.tells
  next hw := by
    rcases h'.next hw with hw | hv
    · exact h.next hw
    · exact .inr hv

theorem finish (h : Advances r n V kept s σ σ₁) (hv : v = V i) (hf : s.Faithful i v)
    (hr : i = r → V r = Tree.nextState r n V kept) :
    Advances r n V kept s σ (σ₁.finish s i version v) where
  nested := h.nested
  scopes := h.scopes
  tells := h.tells.finish (f := ⟨i, [], 0, [], 0, version⟩) hv hf
  next hw := by
    rw [written?_finish] at hw
    split at hw
    · exact .inr (hr ‹_›)
    · exact h.next hw

theorem bound (h : Advances r n V kept s σ σ₁) {y : ScopeId} (hy : σ.scopes.all.size ≤ y) :
    Advances r n V kept s σ (bound s y c v σ₁) where
  nested := nested_bound h.nested
  scopes := extends_bound h.scopes hy
  tells := (bound_record s y c v σ₁).symm ▸ h.tells
  next := (bound_record s y c v σ₁).symm ▸ h.next

end Advances

namespace Located

theorem advance (h : Located t w V s i x σ) (ha : Advances r n V kept s σ σ')
    (fresh : ∀ j, t.Within i j → σ'.record.written? j = σ.record.written? j) :
    Located t w V s i x σ' where
  lt := h.lt
  scope := Nat.lt_of_lt_of_le h.scope ha.scopes.size_le
  nested := ha.nested
  names name := (ha.scopes.lookup h.nested ha.nested name x h.scope).trans (h.names name)
  unspent := h.unspent
  tells := ha.tells
  fresh j hj := (fresh j hj).trans (h.fresh j hj)

theorem enter (h : Located t w V s i x σ) : Located t w V s i x (σ.enter i) :=
  ⟨h.lt, h.scope, h.nested, h.names, h.unspent, h.tells.of_eq rfl, h.fresh⟩

theorem advances_enter (h : Located t w V s i x σ) : Advances r n V kept s σ (σ.enter i) :=
  ⟨h.nested, .refl _, h.enter.tells, .inl⟩

/-- The parts of a node that is no block are entered in the scope of the node. -/
theorem part (o : t.Ordered) (hf : t.isFunction i = false) (h : Located t w V s i x σ)
    (hb : t.kind? i ≠ some .block) (hc : c ∈ t.children i) (hs : ¬ t.Spent c) :
    Located t w V s c x σ where
  lt := Nat.lt_trans (o.child_lt hc) h.lt
  scope := h.scope
  nested := h.nested
  names name := (h.names name).trans (o.named_part hc hb hf name).symm
  unspent := hs
  tells := h.tells
  fresh j hj := h.fresh j ((Tree.Within.child hc).trans hj)

end Located

/-- A node hands down its value whenever it is entered in its place. -/
def Sure (t : Tree) (r : NodeId) (n : Node) (w : World) (V : NodeId → Value) (kept : Value)
    (s : Setting) (i : NodeId) : Prop :=
  ∀ {x σ v version σ'}, Located t w V s i x σ → t.Fits r V s i σ'.record →
    Enters s (Completes s s.Faithful) i x σ v version σ' → v = V i ∧ Advances r n V kept s σ σ'

namespace Recurring

variable (b : Recurring t r n w U V kept s)
include b

theorem tree_eq : s.program.tree = t := by
  rw [b.program]
  rfl

theorem no_call (i : NodeId) : t.kind? i ≠ some .call :=
  b.reactive.kind_ne rfl (by simp) (by simp) i

/-- Children that are entered in turn hand down their values. -/
theorem all {is : List NodeId} {p : NodeId} {vs : List Value} (sure : ∀ c ∈ is, Sure t r n w V kept s c)
    (hp : ∀ c ∈ is, c ∈ t.children p) (nodup : is.Nodup) (located : ∀ c ∈ is, Located t w V s c x σ)
    (hn : σ.scopes.Nested) (ht : s.Tells V σ.record) (fits : ∀ c ∈ is, t.Fits r V s c σ'.record)
    (h : EntersAll s (Completes s s.Faithful) x is σ vs version σ') :
    vs = is.map V ∧ Advances r n V kept s σ σ' := by
  have o := b.reactive.ordered
  induction h with
  | nil => exact ⟨rfl, .refl hn ht⟩
  | @cons c is σ v versionC σ₁ vs versionCs σ' first others ih =>
    obtain ⟨hc, nodup⟩ := List.nodup_cons.1 nodup
    have apart {d j : NodeId} (hd : d ∈ is) (hdj : t.Within d j) (hcj : t.Within c j) : False := by
      obtain rfl := o.sibling_eq (hp c List.mem_cons_self) (hp d (List.mem_cons_of_mem _ hd)) hcj hdj
      exact hc hd
    have lt (d : NodeId) (hd : d ∈ c :: is) : d < t.size := (located d hd).lt
    -- what is entered later leaves alone what the first child has written
    have same (j : NodeId) (hj : t.Within c j) : σ'.record.written? j = σ₁.record.written? j :=
      others.written?_outside b.tree_eq o b.no_call (fun d hd => lt d (List.mem_cons_of_mem _ hd))
        fun d hd hdj => apart hd hdj hj
    obtain ⟨rfl, ha⟩ := sure c List.mem_cons_self (located c List.mem_cons_self)
      ((fits c List.mem_cons_self).part (.refl c) same) first
    have later (d : NodeId) (hd : d ∈ is) : Located t w V s d x σ₁ :=
      (located d (List.mem_cons_of_mem _ hd)).advance ha fun j hj =>
        first.written?_outside b.tree_eq o b.no_call (lt c List.mem_cons_self) fun hcj => apart hd hj hcj
    obtain ⟨rfl, has⟩ := ih (fun d hd => sure d (List.mem_cons_of_mem _ hd))
      (fun d hd => hp d (List.mem_cons_of_mem _ hd)) nodup later ha.nested ha.tells
      fun d hd => fits d (List.mem_cons_of_mem _ hd)
    exact ⟨rfl, ha.trans has⟩

/-- The statements of a block hand down their values, each in the scope in which those before it have
been bound. -/
theorem statements {p : NodeId} {m : Node} (hw : t.Working p m) (hk : m.kind = .block)
    (sure : ∀ c ∈ m.children, Sure t r n w V kept s c)
    (unspent : ∀ c ∈ m.children, ¬ t.Spent c) {y : ScopeId} {σ₀ : State}
    (hy : σ₀.scopes.all.size ≤ y) (pre : List NodeId) {cs : List NodeId} (hc : m.children = pre ++ cs)
    (ha : Advances r n V kept s σ₀ σ) (hlt : y < σ.scopes.all.size)
    (names : ∀ name, σ.scopes.lookup y name = match pre.reverse.find? (t.isBindOf name) with
      | some b => some (V b)
      | none => t.named w V name p)
    (fresh : ∀ c ∈ cs, ∀ j, t.Within c j → σ.record.written? j = none)
    (fits : ∀ c ∈ cs, t.Fits r V s c σ'.record)
    (h : Statements s (Completes s s.Faithful) y cs σ v version σ') :
    v = V (m.children.getLastD p) ∧ Advances r n V kept s σ₀ σ' := by
  have o := b.reactive.ordered
  have children : t.children p = m.children := hw.children
  have lt (c : NodeId) (hc : c ∈ m.children) : c < t.size := by
    have hc : c ∈ t.children p := children ▸ hc
    exact o.child_lt_size hc
  have located {pre post : List NodeId} {c : NodeId} {σ : State} (hc : m.children = pre ++ c :: post)
      (ha : Advances r n V kept s σ₀ σ) (hlt : y < σ.scopes.all.size)
      (names : ∀ name, σ.scopes.lookup y name = match pre.reverse.find? (t.isBindOf name) with
        | some b => some (V b)
        | none => t.named w V name p)
      (fresh : ∀ j, t.Within c j → σ.record.written? j = none) : Located t w V s c y σ :=
    ⟨lt c (by simp [hc]), hlt, ha.nested,
      fun name => (names name).trans (o.named_statement (hw.kind.trans (by rw [hk]))
        (children.trans hc) name).symm, unspent c (by simp [hc]), ha.tells, fresh⟩
  induction h generalizing pre with
  | @last c σ v version σ₁ only =>
    have fits : t.Fits r V s c σ₁.record := bound_record s y c v σ₁ ▸ fits c List.mem_cons_self
    obtain ⟨rfl, hc'⟩ := sure c (by simp [hc])
      (located hc ha hlt names (fresh c List.mem_cons_self)) fits only
    exact ⟨by simp [hc], (ha.trans hc').bound hy⟩
  | @cons c d is σ v versionC σ₁ u version σ' first others ih =>
    have hnodup : (c :: d :: is).Nodup :=
      (List.nodup_append.1 (hc ▸ children ▸ o.nodup p)).2.1
    have mem {e : NodeId} (he : e ∈ c :: d :: is) : e ∈ m.children := by
      rw [hc]
      exact List.mem_append_right pre he
    have apart {e j : NodeId} (he : e ∈ d :: is) (hej : t.Within e j) (hcj : t.Within c j) : False := by
      obtain rfl := o.sibling_eq (children ▸ mem List.mem_cons_self)
        (children ▸ mem (List.mem_cons_of_mem _ he)) hcj hej
      exact (List.nodup_cons.1 hnodup).1 he
    have same (j : NodeId) (hj : t.Within c j) : σ'.record.written? j = σ₁.record.written? j := by
      rw [others.written?_outside b.tree_eq o b.no_call
        (fun e he => lt e (mem (List.mem_cons_of_mem _ he))) fun e he hej => apart he hej hj,
        bound_record]
    have here := located hc ha hlt names (fresh c List.mem_cons_self)
    obtain ⟨rfl, hc'⟩ := sure c (mem List.mem_cons_self) here
      ((fits c List.mem_cons_self).part (.refl c) same) first
    have hlt₁ : y < σ₁.scopes.all.size := Nat.lt_of_lt_of_le hlt hc'.scopes.size_le
    refine ih (pre ++ [c]) (by simp [hc]) ((ha.trans hc').bound hy) (size_bound.symm ▸ hlt₁) ?_
      (fun e he j hj => ?_) fun e he => fits e (List.mem_cons_of_mem _ he)
    · have ht := b.tree_eq
      subst ht
      refine names_bound hc'.nested hlt₁ rfl fun name => ?_
      exact (hc'.scopes.lookup ha.nested hc'.nested name y hlt).trans (names name)
    · rw [bound_record, first.written?_outside b.tree_eq o b.no_call here.lt
        fun hcj => apart he hj hcj]
      exact fresh e (List.mem_cons_of_mem _ he) j hj

/-- What a node has handed down is its value: below the reaction if it follows from the other values,
and outside in any case. -/
theorem value (h : Located t w V s i x σ) (fits : t.Fits r V s i σ'.record)
    (he : Enters s (Completes s s.Faithful) i x σ v version σ')
    (hv : t.Below r i → v = t.valueFrom w V i) : v = V i := by
  by_cases hi : t.Below r i
  · rw [hv hi, ← b.valued.below i hi]
  · exact (fits i v (.refl i) hi (he.came b.tree_eq b.no_call h.lt (h.fresh i (.refl i)))).symm

/-- Parts of a node that is no block, entered before it finishes, hand down their values. -/
theorem parts {m : Node} (h : Located t w V s i x σ) (fits : t.Fits r V s i σ'.record)
    (hw : t.Working i m) (hb : m.kind ≠ .block) (is : List NodeId) {vs : List Value}
    (sure : ∀ c ∈ is, Sure t r n w V kept s c) (sub : is.Sublist m.children)
    (unspent : ∀ c ∈ is, ¬ t.Spent c) {versionC : Option Nat}
    (hall : EntersAll s (Completes s s.Faithful) x is (σ.enter i) vs versionC σ₁)
    (hσ : σ' = σ₁.finish s i version v) : vs = is.map V ∧ Advances r n V kept s σ σ₁ := by
  have o := b.reactive.ordered
  have hkind : t.kind? i ≠ some .block := by
    rw [hw.kind]
    simpa using hb
  have child (c : NodeId) (hc : c ∈ is) : c ∈ t.children i := hw.children ▸ sub.subset hc
  subst hσ
  obtain ⟨hvs, ha⟩ := b.all sure child (sub.nodup (hw.children ▸ o.nodup i))
    (fun c hc => h.enter.part o (b.reactive.isFunction i) hkind (child c hc) (unspent c hc))
    h.enter.nested h.enter.tells (fun c hc => fits.child o (child c hc)) hall
  exact ⟨hvs, h.advances_enter.trans ha⟩

theorem hands_of_conditional {m : Node} (h : Located t w V s i x σ)
    (fits : t.Fits r V s i σ'.record) (hw : t.Working i m) (hk : m.kind = .conditional)
    (sure : ∀ c ∈ m.children, Sure t r n w V kept s c) (unspent : ∀ c ∈ m.children, ¬ t.Spent c)
    (value : (t.Below r i → v = t.valueFrom w V i) → v = V i)
    (he : Follows s s.Faithful (Completes s s.Faithful) (.start i (s.program.tree.steps i) x)
      (σ.enter i) v version σ') :
    v = V i ∧ Advances r n V kept s σ σ' := by
  obtain ⟨a, yes, no, hc⟩ := hw.conditional_children hk
  have hb : m.kind ≠ .block := by simp [hk]
  have hr (hir : i = r) : V r = Tree.nextState r n V kept := by
    have hkind := hw.kind
    rw [hir, b.reactive.kind_reaction, hk] at hkind
    cases hkind
  have mean : t.valueFrom w V i = _ := hw.valueFrom.trans (Tree.kindValue_conditional hk hc)
  obtain ⟨u, versionU, σ₁, hea, he⟩ := (follows_conditional (b.tree_eq.symm ▸ hw) hk hc).1 he
  cases htaken : taken? yes no u with
  | none =>
    rw [htaken] at he
    obtain ⟨hv, hfaithful, rfl, rfl⟩ := he
    have sub : [a].Sublist m.children := by simp [hc]
    obtain ⟨hu, ha⟩ := b.parts h fits hw hb [a] (fun c hc' => sure c (sub.subset hc')) sub
      (fun c hc' => unspent c (sub.subset hc')) (.cons hea .nil) rfl
    obtain rfl : u = V a := by simpa using hu
    have hv : v = V i := value fun _ => by rw [mean, htaken, hv]
    exact ⟨hv, ha.finish hv hfaithful hr⟩
  | some d =>
    rw [htaken] at he
    obtain ⟨versionD, σ₂, hed, hfaithful, rfl, rfl⟩ := he
    have sub : [a, d].Sublist m.children := by
      rw [hc]
      unfold taken? at htaken
      split at htaken <;> simp_all
    obtain ⟨hu, ha⟩ := b.parts h fits hw hb [a, d] (fun c hc' => sure c (sub.subset hc')) sub
      (fun c hc' => unspent c (sub.subset hc')) (.cons hea (.cons hed .nil)) rfl
    obtain ⟨rfl, hd⟩ : u = V a ∧ v = V d := by simpa using hu
    have hv : v = V i := value fun _ => by rw [mean, htaken, hd]
    exact ⟨hv, ha.finish hv hfaithful hr⟩

/-- The reaction hands down its next state. -/
theorem hands_of_reaction (h : Located t w V s r x σ) (fits : t.Fits r V s r σ'.record)
    (sure : ∀ c ∈ n.children, Sure t r n w V kept s c) (hv : v = V r)
    (he : Follows s s.Faithful (Completes s s.Faithful) (.start r (s.program.tree.steps r) x)
      (σ.enter r) v version σ') :
    v = V r ∧ Advances r n V kept s σ σ' := by
  have hw := b.reactive.working
  have hk := b.reactive.kind
  have hb : n.kind ≠ .block := by simp [hk]
  have hw' : s.program.tree.Working r n := b.tree_eq.symm ▸ hw
  rcases b.reactive.children_cases with ⟨a, next, hc⟩ | ⟨a, condition, next, hc⟩
  · have hhas : s.cache.has r = true := by
      obtain ⟨e, he, -⟩ := Option.map_eq_some_iff.1 b.kept
      simp [Cache.has, he]
    obtain ⟨σ₁, hen, hfaithful, rfl⟩ := (follows_reaction_next hw' hk hc hhas).1 he
    obtain ⟨hn, ha⟩ := b.parts h fits hw hb [next] (fun c hc' => sure c (by simp_all))
      (by simp [hc]) (fun c hc' => b.reactive.not_spent hc hc') (.cons hen .nil) rfl
    have hn : v = V next := by simpa using hn
    exact ⟨hv, ha.finish hv hfaithful fun _ => by simp only [Tree.nextState, hc, ← hv, hn]⟩
  · obtain ⟨u, versionU, σ₁, hec, he⟩ := (follows_reaction_when hw' hk hc b.kept).1 he
    have first (hσ : σ' = σ₁.finish s r version v) : u = V condition ∧ Advances r n V kept s σ σ₁ := by
      obtain ⟨hu, ha⟩ := b.parts h fits hw hb [condition] (fun c hc' => sure c (by simp_all))
        (by simp [hc]) (fun c hc' => b.reactive.not_spent hc (by simp_all)) (.cons hec .nil) hσ
      exact ⟨by simpa using hu, ha⟩
    split at he
    · obtain ⟨versionD, σ₂, hen, hfaithful, rfl, rfl⟩ := he
      obtain ⟨hn, ha⟩ := b.parts h fits hw hb [condition, next] (fun c hc' => sure c (by simp_all))
        (by simp [hc]) (fun c hc' => b.reactive.not_spent hc hc') (.cons hec (.cons hen .nil)) rfl
      obtain ⟨hu, hn⟩ : .boolean true = V condition ∧ v = V next := by simpa using hn
      exact ⟨hv, ha.finish hv hfaithful fun _ => by simp only [Tree.nextState, hc, ← hv, ← hu, hn]⟩
    · obtain ⟨hkept, hfaithful, rfl, rfl⟩ := he
      obtain ⟨hu, ha⟩ := first rfl
      exact ⟨hv, ha.finish hv hfaithful fun _ => by simp only [Tree.nextState, hc, ← hv, ← hu, hkept]⟩
    · rename_i htrue hfalse
      obtain ⟨hrefused, hfaithful, rfl, rfl⟩ := he
      obtain ⟨rfl, ha⟩ := first rfl
      refine ⟨hv, ha.finish hv hfaithful fun _ => ?_⟩
      rw [← hv, hrefused]
      simp only [Tree.nextState, hc]

/-- Every node hands down its value. -/
theorem sure (i : NodeId) : Sure t r n w V kept s i := by
  induction i using Nat.strong_induction_on with
  | _ i ih =>
    intro x σ v version σ' h fits he
    have value := b.value h fits he
    unfold Enters at he
    split at he
    · rename_i u hr
      obtain ⟨rfl, -, rfl⟩ := he
      have hv : v = V i := value fun hi =>
        (b.stands σ.record i v hi h.unspent h.tells hr).trans (b.valued.below i hi)
      have hcommitted := Setting.value?_of_reuse? hr
      refine ⟨hv, h.nested, .refl _, h.tells.reuse (hv ▸ hcommitted), fun hw => .inl ?_⟩
      rwa [← Record.written?_congr (s.noteReuse_writes σ.record i)]
    replace he := completes_iff.1 he.2
    rcases Tree.fault_or_working (Tree.lt_size_iff.1 h.lt) with ⟨kind, message, hf⟩ | ⟨m, hw⟩
    · obtain ⟨hfaithful, rfl, rfl, rfl⟩ := (follows_fault (b.tree_eq.symm ▸ hf)).1 he
      have hv := value fun _ => (Tree.valueFrom_fault hf).symm
      refine ⟨hv, h.advances_enter.finish hv hfaithful ?_⟩
      rintro rfl
      rw [b.reactive.working.fault?_eq_none] at hf
      cases hf
    have hw' : s.program.tree.Working i m := b.tree_eq.symm ▸ hw
    have child (c : NodeId) (hc : c ∈ m.children) : Sure t r n w V kept s c :=
      ih c (b.reactive.ordered.child_lt (hw.children ▸ hc))
    by_cases hir : i = r
    · subst hir
      obtain rfl := hw.unique b.reactive.working
      exact b.hands_of_reaction h fits child (value fun hi => absurd rfl hi.2) he
    have unspent (c : NodeId) (hc : c ∈ m.children) : ¬ t.Spent c := fun hs =>
      h.unspent (Tree.spent_of_child b.reactive.ordered (hw.children ▸ hc) (b.reactive.kind_ne_of_ne hir) hs)
    have finished {τ : State} (ha : Advances r n V kept s σ τ) (hf : s.Faithful i v)
        (hv : v = t.valueFrom w V i) :
        v = V i ∧ Advances r n V kept s σ (τ.finish s i version v) :=
      have hv : v = V i := value fun _ => hv
      ⟨hv, ha.finish hv hf fun he => absurd he hir⟩
    have leaf {u : Value} (hu : leaf? s i m x (σ.enter i).scopes = some u)
        (hv : u = t.kindValue w V i m) : v = V i ∧ Advances r n V kept s σ σ' := by
      obtain ⟨hfaithful, rfl, rfl, rfl⟩ := (follows_leaf hw' hu).1 he
      exact finished h.advances_enter hfaithful (hv.trans hw.valueFrom.symm)
    have gather (hg : gathers m.kind = true) : v = V i ∧ Advances r n V kept s σ σ' := by
      obtain ⟨vs, σ₁, hall, hv, hfaithful, rfl⟩ := (follows_gather hw' hg).1 he
      have hb : m.kind ≠ .block := by
        intro hk
        simp [hk, gathers] at hg
      obtain ⟨rfl, ha⟩ := b.parts h fits hw hb m.children child (List.Sublist.refl _) unspent hall rfl
      exact finished ha hfaithful (by rw [hw.valueFrom, Tree.kindValue_gather hg, hv]; rfl)
    have read {stream : String} {mode : FetchMode} (hk : reads? m.kind = some (stream, mode)) :
        v = V i ∧ Advances r n V kept s σ σ' := by
      obtain ⟨hfaithful, rfl, rfl, rfl⟩ := (follows_read hw' hk).1 he
      obtain ⟨hwrites, -, hbinds, -, -⟩ := fetch_record s (σ.enter i).record i stream mode
      have same : ((σ.enter i).read s i stream mode).record.written? r = σ.record.written? r :=
        Record.written?_congr hwrites r
      refine finished ⟨h.nested, .refl _, h.enter.tells.of_eq hbinds, fun hne => .inl (same ▸ hne)⟩
        hfaithful ?_
      · rw [hw.valueFrom, Tree.kindValue_read hk, fetch_value s σ.scopes]
        exact World.reading_congr b.snapshot.symm b.policy.symm
    have hkinds := b.reactive.kinds i m.kind hw.kind hir
    cases hk : m.kind
    case program | bind | list | struct | property | binary | unary => exact gather (by rw [hk]; rfl)
    case stream name => exact read (by rw [hk]; rfl)
    case changed name => exact read (by rw [hk]; rfl)
    case function | call | reaction => simp [hk, NodeKind.isPlain] at hkinds
    case conditional => exact b.hands_of_conditional h fits hw hk child unspent value he
    case block =>
      obtain ⟨σ₁, hs, hfaithful, rfl⟩ := (follows_block hw' hk).1 he
      have inside (c : NodeId) (hc : c ∈ m.children) : t.Within i c :=
        Tree.Within.child (hw.children ▸ hc)
      have opened : Advances r n V kept s σ ((σ.enter i).openScope x) :=
        ⟨Scopes.nested_addChild h.nested h.scope, Scopes.extends_addChild _ _, h.tells.of_eq rfl, .inl⟩
      have hy : σ.scopes.all.size < ((σ.enter i).openScope x).scopes.all.size := by
        rw [State.openScope, Scopes.size_addChild]
        exact Nat.lt_succ_self _
      obtain ⟨hv, ha⟩ := b.statements hw hk child unspent (Nat.le_refl σ.scopes.all.size) []
        (List.nil_append _).symm opened hy
        (fun name => (Scopes.lookup_addChild h.nested h.scope name).trans (h.names name))
        (fun c hc j hj => h.fresh j ((inside c hc).trans hj))
        (fun c hc => fits.child b.reactive.ordered (hw.children ▸ hc)) hs
      refine finished ha hfaithful ?_
      rw [hw.valueFrom, hv]
      simp only [Tree.kindValue, hk]
    case number | text | boolean | placeholder =>
      refine leaf (u := t.kindValue w V i m) ?_ rfl
      simp only [leaf?, Tree.kindValue, hk]
    case reference name =>
      refine leaf (u := t.kindValue w V i m) ?_ rfl
      have hn : (σ.enter i).scopes.lookup x name = t.named w V name i := h.names name
      simp only [leaf?, Tree.kindValue, hk, hn]
    case previous =>
      refine leaf (u := t.kindValue w V i m) ?_ rfl
      simp only [leaf?, Tree.kindValue, hk, b.tree_eq, b.states]
      cases t.enclosingReaction? i <;> rfl

/-- If a pass that has ended with a value has run the reaction, it has written the next state. -/
theorem written_of_run {scopes : Scopes} {k : Nat} {u : Value} (hroot : s.root = t.root)
    (hn : scopes.Nested) (hg : s.globals < scopes.all.size)
    (houter : w.outer = scopes.lookup s.globals)
    (hP : ∀ j < k, ∀ i u, ((Machine.start scopes).run s false j).completing? s = some (i, u) →
      s.Faithful i u)
    (hend : ((Machine.start scopes).run s false k).endValue? = some u)
    (fits : t.Fits r V s t.root ((Machine.start scopes).run s false k).record)
    (hv : ((Machine.start scopes).run s false k).record.written? r = some v) :
    v = Tree.nextState r n V kept := by
  obtain ⟨m, version, σ', he, hrun⟩ := enters_of_run hP hend
  have hrecord (i : NodeId) :
      ((Machine.start scopes).run s false k).record.written? i = σ'.record.written? i := by
    rw [hrun]
    rfl
  have o := b.reactive.ordered
  have htop := b.reactive.accepted.parent_root
  have placed : Located t w V s t.root (scopes.addChild s.globals).1 (State.initial s scopes) := by
    refine ⟨b.reactive.accepted.root_lt, ?_, Scopes.nested_addChild hn hg, fun name => ?_,
      Tree.not_spent_top o htop, .empty, fun _ _ => rfl⟩
    · simp only [State.initial, Scopes.size_addChild]
      exact Nat.lt_succ_self _
    · rw [Tree.named, Tree.resolve_top htop, houter]
      exact Scopes.lookup_addChild hn hg name
  rw [hroot] at he
  have fits : t.Fits r V s t.root σ'.record := fits.part (.refl _) fun j _ => hrecord j
  obtain ⟨-, ha⟩ := b.sure t.root placed fits he
  rw [hrecord] at hv
  have hr : t.Within t.root r := by
    by_contra hout
    rw [he.written?_outside b.tree_eq o b.no_call placed.lt hout] at hv
    cases hv
  have hvr : V r = v := fits r v hr (fun hb => hb.2 rfl) (Setting.came_of_written hv)
  rcases ha.next (by simp [hv]) with hw | hnext
  · exact absurd rfl hw
  · exact hvr.symm.trans hnext

end Recurring
end StreamLang
