import StreamLang.Proofs.Machine.Bound
import StreamLang.Proofs.Machine.Calls
import StreamLang.Proofs.Reuse.Begun
/-!
A pass gives the known nodes that it comes to their values. By induction on nodes, which are greater
than those below them: if a node is entered in a scope that shows what its names stand for, and is
known, the value handed down is the one that the node has in the world of the pass, whether it was
evaluated or a committed value stood in for it. Nodes that are not known may hand down anything; what
lies below them is entered in its place all the same.
-/
namespace StreamLang

/-- What the name stands for, seen from the node, is known. -/
def Tree.Focus.Knows {t : Tree} (f : t.Focus) (name : String) (i : NodeId) : Prop :=
  ∀ b, t.resolve name i = .bind b → f.known b

/-- The node reads whether a stream has changed, and it has. -/
def Tree.Signals (t : Tree) (seen : Snapshot) (j : NodeId) : Prop :=
  ∃ n stream e, t.Working j n ∧ n.kind = .changed stream ∧ seen.get? stream = some e ∧ e.changed = true

/-- Nodes that were told of a change in between were drawn on by one of these nodes. -/
def Tree.Traced (t : Tree) (V : NodeId → Value) (s : Setting) (is : List NodeId) (r r' : Record) :
    Prop :=
  ∀ j ∈ r'.edgeTriggered, j ∈ r.edgeTriggered ∨ ∃ c ∈ is,
    Relation.ReflTransGen (t.Draws s.cache.value? V) c j ∧ t.Signals s.snapshot j

/-- A node is about to be entered in a scope that shows what its names stand for. In a part that is
run once only, nothing was committed before. -/
structure Placed {t : Tree} (f : t.Focus) (left : NodeId → Prop) (w : World) (V : NodeId → Value)
    (s : Setting) (i : NodeId) (x : ScopeId) (σ : State) : Prop where
  lt : i < t.size
  live : t.Live i
  scope : x < σ.scopes.all.size
  nested : σ.scopes.Nested
  names : ∀ name, f.Knows name i → σ.scopes.lookup x name = t.named w V name i
  before : ∀ p b c, t.Precedes p b c → t.Within c i → f.known b → Found t left V s σ.record b
  awake : t.Spent i → ∀ j, t.Within i j → f.known j → s.cache.has j = false
  sound : Sound f left V s σ.record

/-- What a pass keeps while it goes on. -/
structure Onwards {t : Tree} (f : t.Focus) (left : NodeId → Prop) (V : NodeId → Value) (s : Setting)
    (σ σ' : State) : Prop where
  grows : σ.record.Grows σ'.record
  sound : Sound f left V s σ'.record
  nested : σ'.scopes.Nested
  scopes : σ.scopes.Extends σ'.scopes

variable {t : Tree} {f : t.Focus} {left : NodeId → Prop} {w w' : World} {V V' : NodeId → Value}
  {s : Setting} {i : NodeId} {x : ScopeId} {σ σ₁ σ' : State} {v : Value} {version : Option Nat}
  {is js : List NodeId} {r r₁ r' : Record}

namespace Tree.Traced

theorem of_eq (h : r'.edgeTriggered = r.edgeTriggered) : t.Traced V s is r r' := fun _ hj =>
  .inl (h ▸ hj)

theorem trans (h : t.Traced V s is r r₁) (h' : t.Traced V s js r₁ r') :
    t.Traced V s (is ++ js) r r' := by
  intro j hj
  rcases h' j hj with hj | ⟨c, hc, hd⟩
  · rcases h j hj with hj | ⟨c, hc, hd⟩
    · exact .inl hj
    · exact .inr ⟨c, List.mem_append_left _ hc, hd⟩
  · exact .inr ⟨c, List.mem_append_right _ hc, hd⟩

/-- What was drawn on by nodes that a node draws on was drawn on by that node. -/
theorem up (h : t.Traced V s is r r') (hi : ∀ c ∈ is, t.Draws s.cache.value? V i c) :
    t.Traced V s [i] r r' := by
  intro j hj
  rcases h j hj with hj | ⟨c, hc, hd, hs⟩
  · exact .inl hj
  · exact .inr ⟨i, List.mem_singleton.2 rfl, .head (hi c hc) hd, hs⟩

theorem congr {u u' : Record} (h : t.Traced V s is r r') (hr : u.edgeTriggered = r.edgeTriggered)
    (hr' : u'.edgeTriggered = r'.edgeTriggered) : t.Traced V s is u u' := by
  intro j hj
  rw [hr]
  exact h j (hr' ▸ hj)

end Tree.Traced

theorem Onwards.trans (h : Onwards f left V s σ σ₁) (h' : Onwards f left V s σ₁ σ') :
    Onwards f left V s σ σ' :=
  ⟨h.grows.trans h'.grows, h'.sound, h'.nested, h.scopes.trans h'.scopes⟩

theorem Onwards.found (h : Onwards f left V s σ σ') (hi : f.known i)
    (hf : Found t left V s σ.record i) : Found t left V s σ'.record i := h.sound.found hi h.grows hf

namespace Placed

theorem onwards (h : Placed f left w V s i x σ) (h' : Onwards f left V s σ σ') :
    Placed f left w V s i x σ' where
  lt := h.lt
  live := h.live
  scope := Nat.lt_of_lt_of_le h.scope h'.scopes.size_le
  nested := h'.nested
  names name hname :=
    (h'.scopes.lookup h.nested h'.nested name x h.scope).trans (h.names name hname)
  before p b c hp hc hb := h'.found hb (h.before p b c hp hc hb)
  awake := h.awake
  sound := h'.sound

theorem start (h : Placed f left w V s i x σ) : Onwards f left V s σ σ :=
  ⟨.refl _, h.sound, h.nested, Scopes.Extends.refl _⟩

/-- A part of a node that is no reaction is no more spent than the node. -/
theorem awake_part (h : Placed f left w V s i x σ) (hk : t.kind? i ≠ some .reaction) {c : NodeId}
    (hc : c ∈ t.children i) (hs : t.Spent c) (j : NodeId) (hj : t.Within c j) (hkj : f.known j) :
    s.cache.has j = false :=
  h.awake (Tree.spent_of_child f.ordered hc hk hs) j ((Tree.Within.child hc).trans hj) hkj

/-- The parts of a node that is no block are entered in the scope of the node. -/
theorem part (h : Placed f left w V s i x σ) {n : Node} (hw : t.Working i n)
    (hk : n.kind ≠ .block) {c : NodeId} (hc : c ∈ n.children)
    (awake : t.Spent c → ∀ j, t.Within c j → f.known j → s.cache.has j = false) :
    Placed f left w V s c x σ := by
  have o := f.ordered
  have hc : c ∈ t.children i := hw.children ▸ hc
  have hb : t.kind? i ≠ some .block := by
    rw [hw.kind]
    simpa using hk
  have hf := f.isFunction i
  refine ⟨Nat.lt_trans (o.child_lt hc) h.lt, h.live.child o hw hc, h.scope, h.nested, ?_, ?_, awake,
    h.sound⟩
  · intro name hname
    refine (h.names name fun b hb' => hname b ?_).trans (o.named_part hc hb hf name).symm
    rwa [o.resolve_part hc hb hf]
  · intro p b d hp hd
    rcases hd.cases_tail with rfl | ⟨q, hq, hcq⟩
    · obtain rfl := o.parent_unique hp.later hc
      exact absurd hp.block hb
    · obtain rfl := o.parent_unique hc hcq
      exact h.before p b d hp hq

/-- The same of a node that is no reaction either. -/
theorem part_of_ne (h : Placed f left w V s i x σ) {n : Node} (hw : t.Working i n)
    (hk : n.kind ≠ .block) (hr : n.kind ≠ .reaction) {c : NodeId} (hc : c ∈ n.children) :
    Placed f left w V s c x σ :=
  h.part hw hk hc (h.awake_part (by rw [hw.kind]; simpa using hr) (hw.children ▸ hc))

end Placed

/-- What has happened when a node hands down its value. -/
structure Evaluated {t : Tree} (f : t.Focus) (left : NodeId → Prop) (V : NodeId → Value) (s : Setting)
    (i : NodeId) (σ : State) (v : Value) (σ' : State) : Prop where
  value : f.known i → v = V i
  found : f.known i → Found t left V s σ'.record i
  traced : f.known i → t.Traced V s [i] σ.record σ'.record
  onwards : Onwards f left V s σ σ'

namespace Placed

variable (h : Placed f left w' V' s i x σ)
include h

theorem enter : Onwards f left V' s σ (σ.enter i) :=
  ⟨.of_eq rfl rfl rfl, h.sound.of_eq rfl rfl rfl fun _ h => h, h.nested, Scopes.Extends.refl _⟩

/-- A node that was entered finishes. -/
theorem finish (ht : s.program = .ofTree t) (ho : Onwards f left V' s σ σ₁)
    (hv : f.known i → v = V' i)
    (hd : f.known i → ∀ m, t.Draws s.cache.value? V' i m → Settled left s σ₁.record m)
    (hr : ∀ n kept, f.Reacts i n → s.cache.value? i = some kept → V' i = Tree.nextState i n V' kept)
    (he : ∀ n stream e, t.Working i n → n.kind = .changed stream →
      s.snapshot.get? stream = some e → e.changed = true → i ∈ σ₁.record.edgeTriggered)
    (htr : f.known i → t.Traced V' s [i] σ.record σ₁.record)
    (hf : s.Faithful i v) : Evaluated f left V' s i σ v (σ₁.finish s i version v) := by
  obtain ⟨hs, grows, found⟩ := ho.sound.finish ht (g := ⟨i, [], 0, [], 0, version⟩) h.live hv hd hr
    (fun p b c hp hc hb => ho.found hb (h.before p b c hp hc hb)) he hf
  exact ⟨hv, found, fun hi => (htr hi).congr rfl (s.noteFinish_edgeTriggered _ _ _),
    ho.grows.trans grows, hs, ho.nested, ho.scopes⟩

/-- A node without parts finishes at once. -/
theorem finish_leaf (ht : s.program = .ofTree t) (hv : f.known i → v = V' i)
    (hc : t.children i = [])
    (hk : ∀ n stream, t.Working i n → n.kind ≠ .changed stream) (hf : s.Faithful i v) :
    Evaluated f left V' s i σ v ((σ.enter i).finish s i version v) := by
  have partless {n : Node} (hn : f.Reacts i n) : False := by
    rw [hn.working.children] at hc
    rcases hn.children_cases with ⟨a, c, hn⟩ | ⟨a, d, c, hn⟩ <;> simp [hn] at hc
  refine h.finish ht h.enter hv (fun hi m hm => ?_) (fun n _ hn => (partless hn).elim)
    (fun n stream _ hw hn => absurd hn (hk n stream hw)) (fun _ => .of_eq rfl) hf
  rcases hm with hm | ⟨n, hw, hkind, -⟩
  · have := hm.mem_children
    simp [hc] at this
  · exact (partless ⟨hi, hw, hkind⟩).elim

end Placed

namespace Begun

open Machine

variable (b : Begun f left w w' V V' s)
include b

/-- A committed value stands in for an evaluation. -/
theorem evaluated_of_reuse (h : Placed f left w' V' s i x σ)
    (hr : s.reuse? σ.record i = some v) : Evaluated f left V' s i σ v (σ.reuse s i) := by
  have steady (hi : f.known i) : f.steady i := by
    have hvolatile := Setting.isVolatile_of_reuse? hr
    rw [b.program] at hvolatile
    refine (f.steady_or_spent i hi hvolatile).resolve_right fun hs => ?_
    obtain ⟨e, he, -⟩ := Option.map_eq_some_iff.1 (Setting.value?_of_reuse? hr)
    have := h.awake hs i (.refl i) hi
    simp [Cache.has, he] at this
  have value (hi : f.known i) := b.value_of_reuse h.sound (steady hi) hr
  obtain ⟨hs, grows, found⟩ :=
    h.sound.reuse b.program (fun hi => (value hi).2) (b.upheld_of_reuse h.sound hr)
  exact ⟨fun hi => (value hi).1, found, fun _ => .of_eq (s.noteReuse_edgeTriggered _ _), grows, hs,
    h.nested, Scopes.Extends.refl _⟩

theorem evaluated_of_fault (h : Placed f left w' V' s i x σ) {kind : ExceptionKind}
    {message : String} (hi : t.fault? i = some (kind, message))
    (hf : s.Faithful i (.failure kind message i)) :
    Evaluated f left V' s i σ (.failure kind message i)
      ((σ.enter i).finish s i version (.failure kind message i)) := by
  have free (n : Node) (hw : t.Working i n) : False := by
    rw [hw.fault?_eq_none] at hi
    cases hi
  refine h.finish b.program h.enter (fun _ => ?_) (fun _ m hm => ?_)
    (fun n _ hn => (free n hn.working).elim) (fun n _ _ hw => (free n hw).elim) (fun _ => .of_eq rfl) hf
  · rw [b.renewed.after i fun n hn => free n hn.working, Tree.valueFrom_fault hi]
  · rcases hm with ⟨n, hw, -⟩ | ⟨n, hw, -⟩ <;> exact (free n hw).elim

theorem evaluated_of_leaf (h : Placed f left w' V' s i x σ) {n : Node} (hw : t.Working i n)
    (hn : n.children = []) (hr : n.kind ≠ .reaction) (hk : ∀ stream, n.kind ≠ .changed stream)
    (hv : f.known i → v = t.kindValue w' V' i n) (hf : s.Faithful i v) :
    Evaluated f left V' s i σ v ((σ.enter i).finish s i version v) := by
  refine h.finish_leaf b.program (fun hi => ?_) (hw.children.trans hn)
    (fun m stream hm => hw.unique hm ▸ hk stream) hf
  rw [b.renewed.after i fun m hm => hr (hw.unique hm.working ▸ hm.kind), hw.valueFrom, hv hi]

omit b in
/-- What a read adds to the nodes that were told of a change. -/
theorem traced_of_fetch {n : Node} (hw : t.Working i n) {stream : String} {mode : FetchMode}
    (hk : reads? n.kind = some (stream, mode)) (r : Record) :
    t.Traced V' s [i] r (fetch s r i stream mode).2.2 := by
  intro j hj
  unfold fetch at hj
  cases he : s.snapshot.get? stream with
  | none =>
    simp only [he] at hj
    exact .inl hj
  | some e =>
    simp only [he] at hj
    cases mode with
    | changed =>
      simp only at hj
      split at hj
      · rename_i hc
        have hchanged : n.kind = .changed stream := by
          cases h : n.kind <;> rw [h] at hk <;> simp_all [reads?]
        have signals : t.Signals s.snapshot i := ⟨n, stream, e, hw, hchanged, he, hc⟩
        refine (mem_pushNew.1 hj).imp id fun (hji : j = i) => ⟨i, List.mem_singleton.2 rfl, ?_⟩
        rw [hji]
        exact ⟨.refl, signals⟩
      · exact .inl hj
    | latest =>
      have same : (fetch s r i stream .latest).2.2.edgeTriggered = r.edgeTriggered := by
        unfold fetch
        simp only [he]
        split
        · cases s.policy <;> simp only <;> split <;> rfl
        · split <;> rfl
      exact Tree.Traced.of_eq same j (by simpa only [fetch, he] using hj)

theorem evaluated_of_read (h : Placed f left w' V' s i x σ) {n : Node} (hw : t.Working i n)
    {stream : String} {mode : FetchMode} (hk : reads? n.kind = some (stream, mode))
    (hf : s.Faithful i (fetch s (σ.enter i).record i stream mode).1) :
    Evaluated f left V' s i σ (fetch s (σ.enter i).record i stream mode).1
      (((σ.enter i).read s i stream mode).finish s i version
        (fetch s (σ.enter i).record i stream mode).1) := by
  obtain ⟨hwrites, hcleaned, hbinds, hedges, hedge⟩ :=
    fetch_record s (σ.enter i).record i stream mode
  have ho : Onwards f left V' s σ ((σ.enter i).read s i stream mode) :=
    h.enter.trans ⟨.of_eq hwrites hcleaned hbinds, h.enter.sound.of_eq hwrites hcleaned hbinds hedges,
      h.nested, Scopes.Extends.refl _⟩
  have hr : n.kind ≠ .reaction := by
    intro hr
    simp [hr, reads?] at hk
  have hc : n.children = [] := by
    have := hw.fits
    cases hn : n.kind <;> rw [hn] at hk this <;> simp_all [reads?, Tree.fits]
  have not_reacts (m : Node) (hm : f.Reacts i m) : False := hr (hw.unique hm.working ▸ hm.kind)
  refine h.finish b.program ho (fun _ => ?_) (fun hi m hm => ?_) (fun m _ hm => (not_reacts m hm).elim)
    (fun m stream' e hm hm' he hch => ?_)
    (fun _ => (traced_of_fetch hw hk (σ.enter i).record).congr rfl rfl) hf
  · rw [b.renewed.after i fun m hm => not_reacts m hm, hw.valueFrom, Tree.kindValue_read hk,
      fetch_value s σ.scopes]
    exact World.reading_congr b.snapshot.symm b.policy.symm
  · rcases hm with hm | ⟨m', hm', hkind, -⟩
    · have hmc := hm.mem_children
      rw [hw.children, hc] at hmc
      cases hmc
    · exact (not_reacts m' ⟨hi, hm', hkind⟩).elim
  · rw [hw.unique hm] at hm'
    rw [hm'] at hk
    cases hk
    exact hedge rfl e he hch

omit b in
/-- Parts that are entered in turn are all evaluated. -/
theorem evaluated_all (is : List NodeId) {vs : List Value}
    (ih : ∀ c ∈ is, ∀ {σ v version σ'}, Placed f left w' V' s c x σ →
      Enters s (Completes s s.Faithful) c x σ v version σ' → Evaluated f left V' s c σ v σ')
    (h : ∀ c ∈ is, Placed f left w' V' s c x σ) (start : Onwards f left V' s σ σ)
    (he : EntersAll s (Completes s s.Faithful) x is σ vs version σ') :
    ((∀ c ∈ is, f.known c) → vs = is.map V' ∧ t.Traced V' s is σ.record σ'.record) ∧
      (∀ c ∈ is, f.known c → Settled left s σ'.record c) ∧ Onwards f left V' s σ σ' := by
  induction he with
  | nil => exact ⟨fun _ => ⟨rfl, .of_eq rfl⟩, by simp, start⟩
  | @cons c is σ v versionC σ₁ vs versionCs σ' first others ihAll =>
    have hc := ih c List.mem_cons_self (h c List.mem_cons_self) first
    obtain ⟨hvs, hsets, hos⟩ := ihAll (fun d hd => ih d (List.mem_cons_of_mem _ hd))
      (fun d hd => (h d (List.mem_cons_of_mem _ hd)).onwards hc.onwards)
      ⟨.refl _, hc.onwards.sound, hc.onwards.nested, Scopes.Extends.refl _⟩
    refine ⟨fun hs => ?_, ?_, hc.onwards.trans hos⟩
    · have hk := hs c List.mem_cons_self
      obtain ⟨hvs, htraced⟩ := hvs fun d hd => hs d (List.mem_cons_of_mem _ hd)
      exact ⟨by rw [hc.value hk, hvs, List.map_cons], (hc.traced hk).trans htraced⟩
    · intro d hd hs
      rcases List.mem_cons.1 hd with rfl | hd
      · exact (hc.found hs).settled.mono hos.grows
      · exact hsets d hd hs

theorem evaluated_of_gather (h : Placed f left w' V' s i x σ) {n : Node} (hw : t.Working i n)
    (hg : gathers n.kind = true) {vs : List Value}
    (ih : ∀ c ∈ n.children, ∀ {σ v version σ'}, Placed f left w' V' s c x σ →
      Enters s (Completes s s.Faithful) c x σ v version σ' → Evaluated f left V' s c σ v σ')
    (he : EntersAll s (Completes s s.Faithful) x n.children (σ.enter i) vs version σ₁)
    (hv : gather? i n.kind vs = some v) (hf : s.Faithful i v) :
    Evaluated f left V' s i σ v (σ₁.finish s i version v) := by
  have hb : n.kind ≠ .block := by
    intro hk
    simp [hk, gathers] at hg
  have hr : n.kind ≠ .reaction := by
    intro hk
    simp [hk, gathers] at hg
  have hc : n.kind ≠ .conditional := by
    intro hk
    simp [hk, gathers] at hg
  have placed := h.onwards h.enter
  obtain ⟨hvs, hset, ho⟩ := evaluated_all n.children ih
    (fun c hc => placed.part_of_ne hw hb hr hc) placed.start he
  have child (hi : f.known i) (c : NodeId) (hc : c ∈ n.children) : f.known c :=
    f.known_child i c hi (hw.children ▸ hc)
  have not_reacts (m : Node) (hm : f.Reacts i m) : False := hr (hw.unique hm.working ▸ hm.kind)
  refine h.finish b.program (h.enter.trans ho) (fun hi => ?_) (fun hi m hm => ?_)
    (fun m _ hm => (not_reacts m hm).elim) (fun m stream e hm hk => ?_) (fun hi => ?_) hf
  · rw [b.renewed.after i fun m hm => not_reacts m hm, hw.valueFrom, Tree.kindValue_gather hg,
      ← (hvs (child hi)).1, hv]
    rfl
  · rcases hm with hm | ⟨m', hm', hkind, -⟩
    · have hmc := hw.children ▸ hm.mem_children
      exact hset m hmc (child hi m hmc)
    · exact (not_reacts m' ⟨hi, hm', hkind⟩).elim
  · rw [← hw.unique hm, hk] at hg
    cases hg
  · exact ((hvs (child hi)).2.congr rfl rfl).up fun c hmem =>
      .inl ⟨n, hw, hr, hmem, fun hk => absurd hk hc⟩

theorem evaluated_of_conditional (h : Placed f left w' V' s i x σ) {n : Node} (hw : t.Working i n)
    (hk : n.kind = .conditional)
    (ih : ∀ c ∈ n.children, ∀ {σ v version σ'}, Placed f left w' V' s c x σ →
      Enters s (Completes s s.Faithful) c x σ v version σ' → Evaluated f left V' s c σ v σ')
    (he : Follows s s.Faithful (Completes s s.Faithful) (.start i (s.program.tree.steps i) x)
      (σ.enter i) v version σ') :
    Evaluated f left V' s i σ v σ' := by
  obtain ⟨a, yes, no, hc⟩ := hw.conditional_children hk
  have hr : n.kind ≠ .reaction := by simp [hk]
  have part (c : NodeId) (hm : c ∈ n.children) {σ₁ : State} (ho : Onwards f left V' s σ σ₁) :
      Placed f left w' V' s c x σ₁ := (h.onwards ho).part_of_ne hw (by simp [hk]) hr hm
  have child (hi : f.known i) (c : NodeId) (hc : c ∈ n.children) : f.known c :=
    f.known_child i c hi (hw.children ▸ hc)
  have ha : a ∈ n.children := by simp [hc]
  obtain ⟨u, versionU, σ₁, first, he⟩ :=
    (follows_conditional (b.tree_eq.symm ▸ hw) hk hc).1 he
  have hea := ih a ha (part a ha h.enter) first
  have hoa := h.enter.trans hea.onwards
  have noEdge (m : Node) (stream : String) (hm : t.Working i m) (hmk : m.kind = .changed stream) :
      False := by
    rw [hw.unique hm, hk] at hmk
    cases hmk
  have not_reacts (m : Node) (hm : f.Reacts i m) : False := hr (hw.unique hm.working ▸ hm.kind)
  have value := b.renewed.after i fun m hm => not_reacts m hm
  rw [hw.valueFrom, Tree.kindValue_conditional hk hc] at value
  have decides (hi : f.known i) {m : NodeId} (hm : t.Draws s.cache.value? V' i m) :
      m = a ∨ taken? yes no u = some m := by
    rcases hm with ⟨m', hm', -, -, hd⟩ | ⟨m', hm', hkind, -⟩
    · rw [hea.value (child hi a ha)]
      rw [hw.unique hm'] at hd
      exact hd hk a yes no hc
    · exact (not_reacts m' ⟨hi, hm', hkind⟩).elim
  have drawsA (hi : f.known i) : t.Draws s.cache.value? V' i a :=
    .inl ⟨n, hw, hr, ha, fun _ a' b' c' hc' => .inl (by
      rw [hc] at hc'
      exact (List.cons.inj hc').1)⟩
  cases htaken : taken? yes no u with
  | none =>
    rw [htaken] at he
    obtain ⟨hv, hf, rfl, rfl⟩ := he
    refine h.finish b.program hoa (fun hi => ?_) (fun hi m hm => ?_)
      (fun m _ hm => (not_reacts m hm).elim)
      (fun m stream e hm hmk => (noEdge m stream hm hmk).elim) (fun hi => ?_) hf
    · rw [value, ← hea.value (child hi a ha), htaken, hv]
    · rcases decides hi hm with rfl | hm
      · exact (hea.found (child hi _ ha)).settled
      · rw [htaken] at hm
        cases hm
    · exact ((hea.traced (child hi a ha)).congr rfl rfl).up (by simpa using drawsA hi)
  | some d =>
    rw [htaken] at he
    obtain ⟨versionD, σ₂, second, hf, rfl, rfl⟩ := he
    have hd : d ∈ n.children := by
      unfold taken? at htaken
      split at htaken <;> simp_all
    have hed := ih d hd (part d hd hoa) second
    refine h.finish b.program (hoa.trans hed.onwards) (fun hi => ?_) (fun hi m hm => ?_)
      (fun m _ hm => (not_reacts m hm).elim)
      (fun m stream e hm hmk => (noEdge m stream hm hmk).elim) (fun hi => ?_) hf
    · rw [value, ← hea.value (child hi a ha), htaken, hed.value (child hi d hd)]
    · rcases decides hi hm with rfl | hm
      · exact (hea.found (child hi _ ha)).settled.mono hed.onwards.grows
      · obtain rfl : d = m := Option.some.inj (htaken.symm.trans hm)
        exact (hed.found (child hi d hd)).settled
    · have drawsD : t.Draws s.cache.value? V' i d := .inl ⟨n, hw, hr, hd, fun _ a' b' c' hc' => by
        obtain ⟨rfl, rfl, rfl⟩ : a = a' ∧ yes = b' ∧ no = c' := by simpa [hc] using hc'
        exact .inr (hea.value (child hi a ha) ▸ htaken)⟩
      have htraced := ((hea.traced (child hi a ha)).trans (hed.traced (child hi d hd)))
      exact (htraced.congr rfl rfl).up (by simpa using ⟨drawsA hi, drawsD⟩)

/-- A reaction that is not followed enters some of its parts. What it makes of them does not matter. -/
theorem evaluated_of_unknown (h : Placed f left w' V' s i x σ) {n : Node} (hw : t.Working i n)
    (hk : n.kind = .reaction) (unknown : ¬ f.known i)
    (ih : ∀ c ∈ n.children, ∀ {σ v version σ'}, Placed f left w' V' s c x σ →
      Enters s (Completes s s.Faithful) c x σ v version σ' → Evaluated f left V' s c σ v σ')
    (he : Follows s s.Faithful (Completes s s.Faithful) (.start i (s.program.tree.steps i) x)
      (σ.enter i) v version σ') :
    Evaluated f left V' s i σ v σ' := by
  obtain ⟨is, vs, versionC, σ₁, sub, hall, hf, rfl⟩ :=
    he.enters_of_reaction (b.tree_eq.symm ▸ hw) hk
  have placed := h.onwards h.enter
  have hkind : t.kind? i = some .reaction := hw.kind.trans (by rw [hk])
  obtain ⟨-, -, ho⟩ := evaluated_all is (fun c hc => ih c (sub.subset hc))
    (fun c hc => placed.part hw (by simp [hk]) (sub.subset hc) fun hs j hj hkj =>
      absurd (f.around_spent i j hkind hkj (hs.within hj)) unknown) placed.start hall
  refine h.finish b.program (h.enter.trans ho) (fun hi => absurd hi unknown)
    (fun hi => absurd hi unknown) (fun _ _ hn => absurd hn.known unknown) (fun m stream e hm hmk => ?_)
    (fun hi => absurd hi unknown) hf
  rw [hw.unique hm, hk] at hmk
  cases hmk

/-- A reaction that is followed has its turn. -/
theorem evaluated_of_turn (m : f.Mindful s) (h : Placed f left w' V' s i x σ) {n : Node}
    (hi : f.Reacts i n) (hr : s.reuse? σ.record i = none)
    (ih : ∀ c ∈ n.children, ∀ {σ v version σ'}, Placed f left w' V' s c x σ →
      Enters s (Completes s s.Faithful) c x σ v version σ' → Evaluated f left V' s c σ v σ')
    (he : Follows s s.Faithful (Completes s s.Faithful) (.start i (s.program.tree.steps i) x)
      (σ.enter i) v version σ') :
    Evaluated f left V' s i σ v σ' := by
  have hw := hi.working
  have hk := hi.kind
  have hb : n.kind ≠ .block := by simp [hk]
  have hw' : s.program.tree.Working i n := b.tree_eq.symm ▸ hw
  have known (c : NodeId) (hc : c ∈ n.children) : f.known c :=
    f.known_child i c hi.known (hw.children ▸ hc)
  have noEdge {σ : State} (m : Node) (stream : String) (e : SnapshotEntry) (hm : t.Working i m)
      (hmk : m.kind = .changed stream) (_ : s.snapshot.get? stream = some e) (_ : e.changed = true) :
      i ∈ σ.record.edgeTriggered := by
    rw [hw.unique hm, hk] at hmk
    cases hmk
  have states := b.renewed.states i n hi
  by_cases hhas : s.cache.has i = true
  swap
  · -- without a state it is its first part, of which nothing was committed before
    have hnone : s.cache.value? i = none := by simpa [Cache.has, Cache.value?] using hhas
    obtain ⟨a, more, hc⟩ : ∃ a more, n.children = a :: more := by
      rcases hi.children_cases with ⟨a, c, hn⟩ | ⟨a, d, c, hn⟩ <;> exact ⟨a, _, hn⟩
    obtain ⟨σ₁, first, hf, rfl⟩ := (follows_reaction hw' hk hc (by simpa using hhas)).1 he
    have ha : a ∈ n.children := by simp [hc]
    have placed := (h.onwards h.enter).part hw hb ha fun _ j _ _ => by
      by_contra hj
      have hl : ¬ left i := b.kept.ready j i (by simpa using hj) hi.known hi.kind? h.live
      exact hhas ((b.kept.stands i hi.known hi.kind?).2 hl)
    have hea := ih a ha placed first
    have draws (m : NodeId) : t.Draws s.cache.value? V' i m ↔ m = a := by
      rw [hi.draws_iff, hnone, hc]
    refine h.finish b.program (h.enter.trans hea.onwards) (fun _ => ?_) (fun _ m hm => ?_)
      (fun _ kept _ hkept => ?_) noEdge (fun _ => ?_) hf
    · rw [b.renewed.turns i n hi, Tree.turn_of_none (states.trans hnone), hea.value (known a ha), hc]
      rfl
    · obtain rfl := (draws m).1 hm
      exact (hea.found (known _ ha)).settled
    · rw [hnone] at hkept
      cases hkept
    · exact ((hea.traced (known a ha)).congr rfl rfl).up (by simpa using (draws a).2 rfl)
  have hl : ¬ left i := (b.kept.stands i hi.known hi.kind?).1 hhas
  have hkept := b.kept.state_eq hi hl
  have hnext : V' i = Tree.nextState i n V' (V i) := by
    rw [b.renewed.turns i n hi, Tree.turn_of_not_calm (states.trans hkept)
      (b.not_calm_of_run h.sound m hi hl h.before hr)]
  have ran (n' : Node) (kept : Value) (hn : f.Reacts i n') (hc : s.cache.value? i = some kept) :
      V' i = Tree.nextState i n' V' kept := by
    rw [hi.unique hn, ← Option.some.inj (hkept.symm.trans hc)]
    exact hnext
  have part {c : NodeId} {σ₁ : State} (hc : c ∈ t.checked i) (ho : Onwards f left V' s σ σ₁) :
      Placed f left w' V' s c x σ₁ :=
    (h.onwards ho).part hw hb (hw.children ▸ hi.mem_children_of_checked hc) fun hs =>
      absurd hs (hi.not_spent_part hc (.refl c))
  rcases hi.children_cases with ⟨a, c, hn⟩ | ⟨a, d, c, hn⟩
  · have hmem : c ∈ n.children := by simp [hn]
    have hchecked : c ∈ t.checked i := by simp [hi.checked_eq, hn]
    obtain ⟨σ₁, first, hf, rfl⟩ := (follows_reaction_next hw' hk hn hhas).1 he
    have hec := ih c hmem (part hchecked h.enter) first
    have draws (m : NodeId) : t.Draws s.cache.value? V' i m ↔ m = c := by
      rw [hi.draws_iff, hkept, hn]
    refine h.finish b.program (h.enter.trans hec.onwards) (fun _ => ?_) (fun _ m hm => ?_) ran noEdge
      (fun _ => ?_) hf
    · rw [hnext, hec.value (known c hmem)]
      simp only [Tree.nextState, hn]
    · obtain rfl := (draws m).1 hm
      exact (hec.found (known _ hmem)).settled
    · exact ((hec.traced (known c hmem)).congr rfl rfl).up (by simpa using (draws c).2 rfl)
  · have hdmem : d ∈ n.children := by simp [hn]
    have hcmem : c ∈ n.children := by simp [hn]
    have hdchecked : d ∈ t.checked i := by simp [hi.checked_eq, hn]
    have hcchecked : c ∈ t.checked i := by simp [hi.checked_eq, hn]
    obtain ⟨u, versionU, σ₁, first, he⟩ := (follows_reaction_when hw' hk hn hkept).1 he
    have hed := ih d hdmem (part hdchecked h.enter) first
    have hu := hed.value (known d hdmem)
    have hod := h.enter.trans hed.onwards
    have draws (m : NodeId) : t.Draws s.cache.value? V' i m ↔
        m = d ∨ V' d = .boolean true ∧ m = c := by
      rw [hi.draws_iff, hkept, hn]
    simp only [Tree.nextState, hn, ← hu] at hnext
    have traced := hed.traced (known d hdmem)
    have kept (hne : u ≠ .boolean true) (hv : v = V' i) (hf : s.Faithful i v) :
        Evaluated f left V' s i σ v (σ₁.finish s i version v) := by
      refine h.finish b.program hod (fun _ => hv) (fun _ m hm => ?_) ran noEdge (fun _ => ?_) hf
      · rcases (draws m).1 hm with rfl | ⟨htrue, -⟩
        · exact (hed.found (known _ hdmem)).settled
        · exact absurd (hu.trans htrue) hne
      · exact (traced.congr rfl rfl).up (by simpa using (draws d).2 (.inl rfl))
    split at he
    · obtain ⟨versionD, σ₂, second, hf, rfl, rfl⟩ := he
      have hec := ih c hcmem (part hcchecked hod) second
      refine h.finish b.program (hod.trans hec.onwards) (fun _ => ?_) (fun _ m hm => ?_) ran noEdge
        (fun _ => ?_) hf
      · exact (hec.value (known c hcmem)).trans hnext.symm
      · rcases (draws m).1 hm with rfl | ⟨-, rfl⟩
        · exact (hed.found (known _ hdmem)).settled.mono hec.onwards.grows
        · exact (hec.found (known _ hcmem)).settled
      · exact ((traced.trans (hec.traced (known c hcmem))).congr rfl rfl).up
          (by simpa using ⟨(draws d).2 (.inl rfl), (draws c).2 (.inr ⟨hu.symm, rfl⟩)⟩)
    · obtain ⟨hv, hf, rfl, rfl⟩ := he
      exact kept (by simp) (hv.trans hnext.symm) hf
    · rename_i htrue hfalse
      obtain ⟨hv, hf, rfl, rfl⟩ := he
      refine kept (by simpa using htrue) (hv.trans ?_) hf
      rw [hnext]
      split <;> simp_all

end Begun

/-! ### Blocks -/

/-- The statements `pre` of a block `p`, entered in the state `σ₀`, have been run in its scope. -/
structure InBlock {t : Tree} (f : t.Focus) (left : NodeId → Prop) (w : World) (V : NodeId → Value)
    (s : Setting) (p : NodeId) (y : ScopeId) (σ₀ : State) (pre : List NodeId) (σ : State) : Prop where
  onwards : Onwards f left V s σ₀ σ
  fresh : σ₀.scopes.all.size ≤ y
  scope : y < σ.scopes.all.size
  bound : ∀ name b, pre.reverse.find? (t.isBindOf name) = some b → f.known b →
    σ.scopes.lookup y name = some (V b)
  around : ∀ name, pre.reverse.find? (t.isBindOf name) = none → f.Knows name p →
    σ.scopes.lookup y name = t.named w V name p
  found : ∀ c ∈ pre, f.known c → Found t left V s σ.record c
  traced : (∀ c ∈ pre, f.known c) → t.Traced V s pre σ₀.record σ.record

namespace InBlock

variable {p c : NodeId} {y : ScopeId} {σ₀ : State} {pre post : List NodeId}

/-- Right after the scope of a block has been opened. -/
theorem start (h : Placed f left w V s p x σ) :
    InBlock f left w V s p (σ.scopes.addChild x).1 σ [] (σ.openScope x) where
  onwards := ⟨.of_eq rfl rfl rfl, h.sound, Scopes.nested_addChild h.nested h.scope,
    Scopes.extends_addChild _ _⟩
  fresh := Nat.le_refl _
  scope := by
    change σ.scopes.all.size < _
    rw [State.openScope, Scopes.size_addChild]
    exact Nat.lt_succ_self _
  bound name b hb := by cases hb
  around name _ hname := (Scopes.lookup_addChild h.nested h.scope name).trans (h.names name hname)
  found := by simp
  traced _ := .of_eq rfl

/-- The next statement can be entered. -/
theorem placed (h : InBlock f left w V s p y σ₀ pre σ)
    (hp : Placed f left w V s p x σ₀) {n : Node} (hw : t.Working p n) (hk : n.kind = .block)
    (hc : n.children = pre ++ c :: post) : Placed f left w V s c y σ := by
  have o := f.ordered
  have hc : t.children p = pre ++ c :: post := hw.children.trans hc
  have hmem : c ∈ t.children p := by simp [hc]
  have hkind : t.kind? p = some .block := hw.kind.trans (by rw [hk])
  refine ⟨Nat.lt_trans (o.child_lt hmem) hp.lt, hp.live.child o hw hmem, h.scope,
    h.onwards.nested, ?_, ?_, ?_, h.onwards.sound⟩
  · intro name hname
    have hres := o.resolve_statement name hmem hkind
    rw [o.before_eq hc] at hres
    rw [o.named_statement hkind hc name]
    cases hfind : pre.reverse.find? (t.isBindOf name) with
    | some b =>
      rw [hfind] at hres
      exact h.bound name b hfind (hname b hres)
    | none =>
      rw [hfind] at hres
      exact h.around name hfind fun b hb => hname b (hres.trans hb)
  · intro q b d hq hd hb
    rcases hd.cases_tail with rfl | ⟨q', hq', hcq⟩
    · obtain rfl := o.parent_unique hq.later hmem
      exact h.found b (o.before_eq hc ▸ hq.earlier) hb
    · obtain rfl := o.parent_unique hmem hcq
      exact h.onwards.found hb (hp.before q b d hq hq' hb)
  · exact hp.awake_part (by simp [hkind]) hmem

/-- The statement has been run and its name, if it has one, is bound. -/
theorem next (h : InBlock f left w V s p y σ₀ pre σ) (ht : s.program.tree = t)
    (he : Evaluated f left V s c σ v σ₁) :
    InBlock f left w V s p y σ₀ (pre ++ [c]) (Machine.bound s y c v σ₁) := by
  have hr := Machine.bound_record s y c v σ₁
  have hy : y < σ₁.scopes.all.size := Nat.lt_of_lt_of_le h.scope he.onwards.scopes.size_le
  have ho := h.onwards.trans he.onwards
  have hfind (name : String) : (pre ++ [c]).reverse.find? (t.isBindOf name) =
      if t.isBindOf name c then some c else pre.reverse.find? (t.isBindOf name) := by
    rw [List.reverse_append, List.reverse_singleton, List.singleton_append, List.find?_cons]
    cases t.isBindOf name c <;> rfl
  have hlookup (name : String) : (Machine.bound s y c v σ₁).scopes.lookup y name =
      if t.isBindOf name c then some v else σ.scopes.lookup y name := by
    rw [Machine.lookup_bound he.onwards.nested hy, ht,
      he.onwards.scopes.lookup h.onwards.nested he.onwards.nested name y h.scope]
  refine ⟨⟨hr ▸ ho.grows, hr ▸ ho.sound, Machine.nested_bound ho.nested,
    Machine.extends_bound ho.scopes h.fresh⟩, h.fresh, Machine.size_bound.symm ▸ hy, ?_, ?_,
    fun d hd hs => ?_, fun hs => ?_⟩
  · intro name b hb hs
    rw [hfind] at hb
    rw [hlookup]
    split at hb
    · rename_i hname
      obtain rfl := Option.some.inj hb
      rw [if_pos hname, he.value hs]
    · rename_i hname
      rw [if_neg hname]
      exact h.bound name b hb hs
  · intro name hb hname
    rw [hfind] at hb
    rw [hlookup]
    split at hb
    · cases hb
    · rename_i hne
      rw [if_neg hne]
      exact h.around name hb hname
  · rw [hr]
    rcases List.mem_append.1 hd with hd | hd
    · exact he.onwards.found hs (h.found d hd hs)
    · obtain rfl := List.mem_singleton.1 hd
      exact he.found hs
  · rw [hr]
    exact (h.traced fun d hd => hs d (List.mem_append_left _ hd)).trans
      (he.traced (hs c (List.mem_append_right _ (List.mem_singleton.2 rfl))))

/-- All statements have been run. -/
theorem run (ht : s.program.tree = t) (hp : Placed f left w V s p x σ₀)
    {n : Node} (hw : t.Working p n) (hk : n.kind = .block)
    (ih : ∀ c ∈ n.children, ∀ {σ v version σ'}, Placed f left w V s c y σ →
      Machine.Enters s (Machine.Completes s s.Faithful) c y σ v version σ' → Evaluated f left V s c σ v σ')
    {cs : List NodeId} (hc : n.children = pre ++ cs)
    (h : InBlock f left w V s p y σ₀ pre σ)
    (hs : Machine.Statements s (Machine.Completes s s.Faithful) y cs σ v version σ') :
    ((∀ c ∈ n.children, f.known c) → v = V (n.children.getLastD p)) ∧
      InBlock f left w V s p y σ₀ n.children σ' := by
  induction hs generalizing pre with
  | @last c σ v version σ₁ only =>
    have he := ih c (by simp [hc]) (h.placed hp hw hk hc) only
    refine ⟨fun hs => by rw [he.value (hs c (by simp [hc])), hc]; simp, ?_⟩
    rw [hc]
    exact h.next ht he
  | @cons c d is σ u versionU σ₁ v version σ' first others ihs =>
    have he := ih c (by simp [hc]) (h.placed hp hw hk hc) first
    have hc : n.children = (pre ++ [c]) ++ d :: is := by simp [hc]
    exact ihs hc (h.next ht he)

end InBlock

namespace Begun

open Machine

variable (b : Begun f left w w' V V' s)
include b

theorem evaluated_of_block (h : Placed f left w' V' s i x σ) {n : Node} (hw : t.Working i n)
    (hk : n.kind = .block)
    (ih : ∀ c ∈ n.children, ∀ {x σ v version σ'}, Placed f left w' V' s c x σ →
      Enters s (Completes s s.Faithful) c x σ v version σ' → Evaluated f left V' s c σ v σ')
    (he : Follows s s.Faithful (Completes s s.Faithful) (.start i (s.program.tree.steps i) x)
      (σ.enter i) v version σ') :
    Evaluated f left V' s i σ v σ' := by
  obtain ⟨σ₁, hs, hf, rfl⟩ := (follows_block (b.tree_eq.symm ▸ hw) hk).1 he
  have placed := h.onwards h.enter
  have hc : n.children = [] ++ n.children := rfl
  obtain ⟨hv, hb⟩ := InBlock.run b.tree_eq placed hw hk (fun c hc => ih c hc) hc
    (InBlock.start placed) hs
  have hr : n.kind ≠ .reaction := by simp [hk]
  have child (hi : f.known i) (c : NodeId) (hc : c ∈ n.children) : f.known c :=
    f.known_child i c hi (hw.children ▸ hc)
  have not_reacts (m : Node) (hm : f.Reacts i m) : False := hr (hw.unique hm.working ▸ hm.kind)
  refine h.finish b.program (h.enter.trans hb.onwards) (fun hi => ?_) (fun hi m hm => ?_)
    (fun m _ hm => (not_reacts m hm).elim) (fun m stream e hm hmk => ?_) (fun hi => ?_) hf
  · rw [b.renewed.after i fun m hm => not_reacts m hm, hw.valueFrom, hv (child hi)]
    simp only [Tree.kindValue, hk]
  · rcases hm with hm | ⟨m', hm', hkind, -⟩
    · have hmc := hw.children ▸ hm.mem_children
      exact (hb.found m hmc (child hi m hmc)).settled
    · exact (not_reacts m' ⟨hi, hm', hkind⟩).elim
  · rw [hw.unique hm, hk] at hmk
    cases hmk
  · exact ((hb.traced (child hi)).congr rfl rfl).up fun c hmem =>
      .inl ⟨n, hw, hr, hmem, fun hc => absurd (hk.symm.trans hc) (by simp)⟩

/-- Every node that is entered hands down its value in the world of the pass, if it is known. -/
theorem evaluated (m : f.Mindful s) (h : Placed f left w' V' s i x σ)
    (he : Enters s (Completes s s.Faithful) i x σ v version σ') : Evaluated f left V' s i σ v σ' := by
  induction i using Nat.strong_induction_on generalizing x σ v version σ' with
  | _ i ih =>
    unfold Enters at he
    split at he
    · rename_i u hr
      obtain ⟨rfl, -, rfl⟩ := he
      exact b.evaluated_of_reuse h hr
    rename_i hnone
    replace he := completes_iff.1 he.2
    rcases Tree.fault_or_working (Tree.lt_size_iff.1 h.lt) with ⟨kind, message, hi⟩ | ⟨n, hw⟩
    · obtain ⟨hf, rfl, rfl, rfl⟩ := (follows_fault (b.tree_eq.symm ▸ hi)).1 he
      exact b.evaluated_of_fault h hi hf
    have hw' : s.program.tree.Working i n := b.tree_eq.symm ▸ hw
    have child {c : NodeId} (hc : c ∈ n.children) {x : ScopeId} {σ : State} {v : Value}
        {version : Option Nat} {σ' : State} (hp : Placed f left w' V' s c x σ)
        (hc' : Enters s (Completes s s.Faithful) c x σ v version σ') : Evaluated f left V' s c σ v σ' :=
      ih c (f.ordered.child_lt (hw.children ▸ hc)) hp hc'
    have leaf {u : Value} (hu : leaf? s i n x (σ.enter i).scopes = some u)
        (hn : n.children = []) (hk : ∀ stream, n.kind ≠ .changed stream)
        (hr : n.kind ≠ .reaction) (hv : f.known i → u = t.kindValue w' V' i n) :
        Evaluated f left V' s i σ v σ' := by
      obtain ⟨hf, rfl, rfl, rfl⟩ := (follows_leaf hw' hu).1 he
      exact b.evaluated_of_leaf h hw hn hr hk hv hf
    have gather (hg : gathers n.kind = true) : Evaluated f left V' s i σ v σ' := by
      obtain ⟨vs, σ₁, hall, hv, hf, rfl⟩ := (follows_gather hw' hg).1 he
      exact b.evaluated_of_gather h hw hg (fun c hc _ _ _ _ => child hc) hall hv hf
    have read {stream : String} {mode : FetchMode} (hk : reads? n.kind = some (stream, mode)) :
        Evaluated f left V' s i σ v σ' := by
      obtain ⟨hf, rfl, rfl, rfl⟩ := (follows_read hw' hk).1 he
      exact b.evaluated_of_read h hw hk hf
    have hfits := hw.fits
    have empty (h0 : Tree.fits n.kind n.children.length = (n.children.length == 0)) :
        n.children = [] := by
      rw [h0, beq_iff_eq] at hfits
      exact List.eq_nil_of_length_eq_zero hfits
    cases hk : n.kind
    case program | bind | list | struct | property | binary | unary => exact gather (by rw [hk]; rfl)
    case stream name => exact read (by rw [hk]; rfl)
    case changed name => exact read (by rw [hk]; rfl)
    case block => exact b.evaluated_of_block h hw hk (fun c hc _ _ _ _ _ => child hc) he
    case conditional => exact b.evaluated_of_conditional h hw hk (fun c hc _ _ _ _ => child hc) he
    case reaction =>
      by_cases hi : f.known i
      · exact b.evaluated_of_turn m h ⟨hi, hw, hk⟩ hnone (fun c hc _ _ _ _ => child hc) he
      · exact b.evaluated_of_unknown h hw hk hi (fun c hc _ _ _ _ => child hc) he
    case call => exact absurd (hw.kind.trans (by rw [hk])) (f.inPlace.callFree i)
    case function parameters =>
      have := f.isFunction i
      simp [Tree.isFunction, hw.kind, hk] at this
    case number | text | boolean | placeholder =>
      refine leaf (u := t.kindValue w' V' i n) ?_ (empty (by rw [hk]; rfl)) (by simp [hk]) (by simp [hk])
        fun _ => rfl
      simp only [leaf?, Tree.kindValue, hk]
    case reference name =>
      refine leaf (by simp only [leaf?, hk]; rfl) (empty (by rw [hk]; rfl)) (by simp [hk])
        (by simp [hk]) fun hi => ?_
      have hn : (σ.enter i).scopes.lookup x name = t.named w' V' name i := by
        refine h.names name fun d hd => f.known_bind i d hi ?_
        rw [Tree.resolution?_reference (hw.kind.trans (by rw [hk])), hd]
      rw [Tree.kindValue_reference hk, ← hn]
    case previous =>
      obtain ⟨u, hu⟩ := Option.isSome_iff_exists.1
        (show (leaf? s i n x (σ.enter i).scopes).isSome = true by
          simp only [leaf?, hk]
          split <;> rfl)
      refine leaf hu (empty (by rw [hk]; rfl)) (by simp [hk]) (by simp [hk]) fun hi => ?_
      simp only [leaf?, hk, b.tree_eq] at hu
      simp only [Tree.kindValue, hk]
      cases he : t.enclosingReaction? i with
      | none => simpa [he] using hu.symm
      | some r =>
        obtain ⟨hkr, hwr, hne⟩ := Tree.enclosingReaction?_spec f.ordered he
        obtain ⟨nr, hnr⟩ := h.live r hwr hne
        have hr : f.Reacts r nr := by
          refine ⟨f.enclosing i r hi (hw.kind.trans (by rw [hk])) he, hnr, ?_⟩
          exact Option.some.inj (hnr.kind.symm.trans hkr)
        simpa [he, b.renewed.states r nr hr] using hu.symm

end Begun
end StreamLang
