import StreamLang.Proofs.Machine.Kinds
import StreamLang.Proofs.Tree.Names
/-!
What the nodes of a tree mean. In a world, which fixes what streams show and what the names around
the program stand for, every node has a value that follows from those of its children and, for a
reference, from that of the bind it refers to. Outside of functions nothing needs itself on the way,
so such values exist, and they are the same in two worlds wherever nothing that is needed differs.
-/
namespace StreamLang

/-- What a program can see of its surroundings. -/
structure World where
  snapshot : Snapshot
  policy : UnavailablePolicy
  /-- The names around the program. -/
  outer : String → Option Value
  /-- The committed states of reactions. -/
  states : NodeId → Option Value

namespace World

/-- What a node reads of a stream. -/
def reading (w : World) (i : NodeId) (stream : String) (mode : FetchMode) : Value :=
  match w.snapshot.get? stream with
  | none => .failure .unknownName ("there is no stream called `" ++ stream ++ "`") i
  | some e =>
    match mode with
    | .changed => .boolean e.changed
    | .latest =>
      if e.degraded then
        match w.policy with
        | .degrade => e.value
        | .exception =>
          .failure .streamUnavailable ("stream `" ++ stream ++ "` is unavailable") i
      else e.value

theorem reading_congr {w w' : World} (hs : w.snapshot = w'.snapshot) (hp : w.policy = w'.policy)
    {i : NodeId} {stream : String} {mode : FetchMode} :
    w.reading i stream mode = w'.reading i stream mode := by
  simp only [reading, hs, hp]

end World

/-- The world of a pass. -/
def Setting.world (s : Setting) (scopes : Scopes) : World :=
  ⟨s.snapshot, s.policy, scopes.lookup s.globals, s.cache.value?⟩

theorem Machine.fetch_value (s : Setting) (scopes : Scopes) (r : Record) (i : NodeId)
    (stream : String) (mode : FetchMode) :
    (fetch s r i stream mode).1 = (s.world scopes).reading i stream mode := by
  cases h : s.snapshot.get? stream with
  | none => simp only [fetch, World.reading, Setting.world, h]
  | some e =>
    cases mode with
    | changed => simp only [fetch, World.reading, Setting.world, h]
    | latest =>
      simp only [fetch, World.reading, Setting.world, h]
      by_cases hd : e.degraded = true
      · simp only [hd, if_true]
        cases s.policy <;> rfl
      · simp only [hd]
        rfl

namespace Tree

/-- What a name stands for at a place in the tree. -/
def named (t : Tree) (w : World) (V : NodeId → Value) (name : String) (i : NodeId) :
    Option Value :=
  match t.resolve name i with
  | .bind b => some (V b)
  | _ => w.outer name

/-- What a node that is neither blocked nor incomplete makes of the values of others. -/
def kindValue (t : Tree) (w : World) (V : NodeId → Value) (i : NodeId) (n : Node) : Value :=
  match n.kind with
  | .number a => .number a
  | .text a => .text a
  | .boolean a => .boolean a
  | .reference name =>
    (t.named w V name i).getD (.failure .unknownName ("`" ++ name ++ "` is not defined") i)
  | .stream name => w.reading i name .latest
  | .changed name => w.reading i name .changed
  | .placeholder => .failure .incompleteExpression "placeholder needs an expression" i
  | .previous => match t.enclosingReaction? i with
    | some r => (w.states r).getD
        (.failure .incompleteExpression "reaction has no previous value yet" i)
    | none => .failure .incompleteExpression "`.` can only be used inside a reaction" i
  | .block => V (n.children.getLastD i)
  | .conditional => match n.children with
    | [a, b, c] => match Machine.taken? b c (V a) with
      | some d => V d
      | none => Machine.refused i (V a)
    | _ => default
  | kind => (Machine.gather? i kind (n.children.map V)).getD default

/-- What a node makes of the values of others. -/
def valueFrom (t : Tree) (w : World) (V : NodeId → Value) (i : NodeId) : Value :=
  match t.fault? i with
  | some (kind, message) => .failure kind message i
  | none => match t.node? i with
    | some n => t.kindValue w V i n
    | none => default

variable {t : Tree} {w : World} {V V' : NodeId → Value} {i : NodeId} {n : Node}

theorem valueFrom_fault {kind : ExceptionKind} {message : String}
    (h : t.fault? i = some (kind, message)) : t.valueFrom w V i = .failure kind message i := by
  simp [valueFrom, h]

theorem Working.fault?_eq_none (h : t.Working i n) : t.fault? i = none := by
  simp [fault?, h.node, h.free, h.fits]

theorem Working.valueFrom (h : t.Working i n) : t.valueFrom w V i = t.kindValue w V i n := by
  simp [Tree.valueFrom, h.fault?_eq_none, h.node]

theorem kindValue_gather (hg : Machine.gathers n.kind = true) :
    t.kindValue w V i n = (Machine.gather? i n.kind (n.children.map V)).getD default := by
  unfold kindValue
  cases hk : n.kind <;> rw [hk] at hg <;> simp [Machine.gathers] at hg ⊢

theorem kindValue_reference {name : String} (hk : n.kind = .reference name) :
    t.kindValue w V i n = (t.named w V name i).getD
      (.failure .unknownName ("`" ++ name ++ "` is not defined") i) := by
  simp only [kindValue, hk]

theorem kindValue_read {stream : String} {mode : FetchMode}
    (hk : Machine.reads? n.kind = some (stream, mode)) :
    t.kindValue w V i n = w.reading i stream mode := by
  unfold kindValue
  cases h : n.kind <;> rw [h] at hk <;> simp only [Machine.reads?, reduceCtorEq] at hk <;>
    cases hk <;> rfl

theorem kindValue_conditional {a b c : NodeId} (hk : n.kind = .conditional)
    (hc : n.children = [a, b, c]) : t.kindValue w V i n = match Machine.taken? b c (V a) with
      | some d => V d
      | none => Machine.refused i (V a) := by
  simp only [kindValue, hk, hc]

/-- Of a conditional only the condition and the branch that it leads to are needed; of any other node
all children. What a reaction needs depends on its state as well, and it is left out here. -/
def Decides (t : Tree) (V : NodeId → Value) (i m : NodeId) : Prop :=
  ∃ n, t.Working i n ∧ n.kind ≠ .reaction ∧ m ∈ n.children ∧ (n.kind = .conditional →
    ∀ a b c, n.children = [a, b, c] → m = a ∨ Machine.taken? b c (V a) = some m)

/-- What decides a node is the same for other values if conditions, which decide in any case, have
the same. -/
theorem Decides.congr {m : NodeId} (h : t.Decides V' i m)
    (same : ∀ a, (∀ U, t.Decides U i a) → V a = V' a) : t.Decides V i m := by
  obtain ⟨n, hw, hr, hm, hd⟩ := h
  refine ⟨n, hw, hr, hm, fun hk a b c hc => ?_⟩
  have ha : V a = V' a := same a fun U => ⟨n, hw, hr, by simp [hc], fun _ a' b' c' hc' => .inl (by
    rw [hc] at hc'
    exact (List.cons.inj hc').1)⟩
  rw [ha]
  exact hd hk a b c hc

/-- The value of a node is the same in another world and for other values if nothing differs that
decides it: what the node reads, what its name stands for, and the values of its parts. -/
theorem valueFrom_congr {w' : World}
    (hr : ∀ n stream mode, t.Working i n → Machine.reads? n.kind = some (stream, mode) →
      w.reading i stream mode = w'.reading i stream mode)
    (hn : ∀ n name, t.Working i n → n.kind = .reference name →
      t.named w V name i = t.named w' V' name i)
    (hp : ∀ n r, t.Working i n → n.kind = .previous → t.enclosingReaction? i = some r →
      w.states r = w'.states r)
    (hc : ∀ m, t.Decides V i m → V m = V' m) : t.valueFrom w V i = t.valueFrom w' V' i := by
  cases hf : t.fault? i with
  | some f => rw [valueFrom_fault hf, valueFrom_fault hf]
  | none =>
    cases hnode : t.node? i with
    | none => simp [valueFrom, hf, hnode]
    | some n =>
      obtain ⟨kind, message, h⟩ | ⟨n', hw⟩ := fault_or_working (t := t) (i := i) (by simp [hnode])
      · simp [hf] at h
      obtain rfl : n = n' := by simpa [hnode] using hw.node
      have hall (hk : n.kind ≠ .conditional) (hk' : n.kind ≠ .reaction) (m : NodeId)
          (hm : m ∈ n.children) : V m = V' m := hc m ⟨n, hw, hk', hm, fun h => absurd h hk⟩
      rw [hw.valueFrom, hw.valueFrom]
      have gather (hg : Machine.gathers n.kind = true) :
          t.kindValue w V i n = t.kindValue w' V' i n := by
        rw [kindValue_gather hg, kindValue_gather hg]
        have : n.children.map V = n.children.map V' :=
          List.map_congr_left fun m hm => hall (by rintro h; simp [h, Machine.gathers] at hg)
            (by rintro h; simp [h, Machine.gathers] at hg) m hm
        rw [this]
      cases hk : n.kind
      case program => exact gather (by rw [hk]; rfl)
      case bind => exact gather (by rw [hk]; rfl)
      case list => exact gather (by rw [hk]; rfl)
      case struct => exact gather (by rw [hk]; rfl)
      case property => exact gather (by rw [hk]; rfl)
      case binary => exact gather (by rw [hk]; rfl)
      case unary => exact gather (by rw [hk]; rfl)
      case number => simp only [kindValue, hk]
      case text => simp only [kindValue, hk]
      case boolean => simp only [kindValue, hk]
      case placeholder => simp only [kindValue, hk]
      case reference name =>
        rw [kindValue_reference hk, kindValue_reference hk, hn n name hw hk]
      case stream name =>
        have hrd : Machine.reads? n.kind = some (name, .latest) := by rw [hk]; rfl
        rw [kindValue_read hrd, kindValue_read hrd, hr n name .latest hw hrd]
      case changed name =>
        have hrd : Machine.reads? n.kind = some (name, .changed) := by rw [hk]; rfl
        rw [kindValue_read hrd, kindValue_read hrd, hr n name .changed hw hrd]
      case previous =>
        simp only [kindValue, hk]
        cases hr : t.enclosingReaction? i with
        | none => rfl
        | some r => simp only [hp n r hw hk hr]
      case block =>
        simp only [kindValue, hk]
        cases hl : n.children.getLast? with
        | none =>
          have := hw.fits
          simp [hk, Tree.fits, List.getLast?_eq_none_iff.1 hl] at this
        | some m =>
          rw [List.getLastD_eq_getLast?, hl]
          exact hall (by simp [hk]) (by simp [hk]) m (List.mem_of_getLast? hl)
      case conditional =>
        obtain ⟨a, b, c, habc⟩ := hw.conditional_children hk
        have decides (m : NodeId) (hm : m ∈ [a, b, c])
            (h : m = a ∨ Machine.taken? b c (V a) = some m) : V m = V' m := by
          refine hc m ⟨n, hw, by simp [hk], habc ▸ hm, ?_⟩
          rintro - a' b' c' h'
          obtain ⟨rfl, rfl, rfl⟩ : a = a' ∧ b = b' ∧ c = c' := by simpa [habc] using h'
          exact h
        have ha := decides a (by simp) (.inl rfl)
        rw [kindValue_conditional hk habc, kindValue_conditional hk habc, ← ha]
        cases ht : Machine.taken? b c (V a) with
        | none => rfl
        | some d =>
          refine decides d ?_ (.inr ht)
          unfold Machine.taken? at ht
          split at ht <;> simp_all
      case function => simp only [kindValue, hk, Machine.gather?]
      case call => simp only [kindValue, hk, Machine.gather?]
      case reaction => simp only [kindValue, hk, Machine.gather?]

/-- Values for all nodes, each of which follows from the others. -/
def Means (t : Tree) (w : World) (V : NodeId → Value) : Prop := ∀ i, V i = t.valueFrom w V i

theorem needs_of_decides {m : NodeId} (h : t.Decides V i m) : t.Needs i m := by
  obtain ⟨n, hw, -, hm, -⟩ := h
  exact .inl (hw.children ▸ hm)

theorem needs_of_named {name : String} {b : NodeId} (hw : t.Working i n)
    (hk : n.kind = .reference name) (h : t.resolve name i = .bind b) : t.Needs i b :=
  .inr (by rw [resolution?_reference (hw.kind.trans (by rw [hk])), h])

/-- A part of a node that is no block sees what the node sees. -/
theorem Ordered.named_part (o : t.Ordered) {p c : NodeId} (hc : c ∈ t.children p)
    (hb : t.kind? p ≠ some .block) (hf : t.isFunction p = false) (name : String) :
    t.named w V name c = t.named w V name p := by
  rw [named, named, o.resolve_part hc hb hf]

/-- A statement of a block sees the last bind of a name among those before it. -/
theorem Ordered.named_statement (o : t.Ordered) {p c : NodeId} {pre post : List NodeId}
    (hp : t.kind? p = some .block) (hc : t.children p = pre ++ c :: post) (name : String) :
    t.named w V name c = match pre.reverse.find? (t.isBindOf name) with
      | some b => some (V b)
      | none => t.named w V name p := by
  simp only [named]
  rw [o.resolve_statement _ (by simp [hc]) hp, o.before_eq hc]
  cases pre.reverse.find? (t.isBindOf name) <;> rfl

/-- Nothing matters for the value of a node but what it needs. -/
theorem valueFrom_of_needs (h : ∀ m, t.Needs i m → V m = V' m) :
    t.valueFrom w V i = t.valueFrom w V' i := by
  refine valueFrom_congr (fun _ _ _ _ _ => rfl) (fun n name hw hk => ?_) (fun _ _ _ _ _ => rfl)
    fun m hm => h m (needs_of_decides hm)
  unfold named
  cases hr : t.resolve name i with
  | bind b => simp only [h b (needs_of_named hw hk hr)]
  | parameter => rfl
  | global => rfl

/-- Outside of functions there are values that follow from each other in a given way, if the way
looks at nothing but what a node needs, however far one follows. -/
theorem Ordered.exists_following (o : t.Ordered) (hf : ∀ i, t.isFunction i = false)
    (follow : (NodeId → Value) → NodeId → Value) (near : ∀ V V' i,
      (∀ m, Relation.TransGen t.Needs i m → V m = V' m) → follow V i = follow V' i) :
    ∃ V, ∀ i, V i = follow V i := by
  classical
  let wf := (o.needs_wellFounded hf).transGen
  let step (i : NodeId)
      (rec : (m : NodeId) → Relation.TransGen (Function.swap t.Needs) m i → Value) : Value :=
    follow (fun m => if h : Relation.TransGen (Function.swap t.Needs) m i then rec m h else default) i
  refine ⟨wf.fix step, fun i => (wf.fix_eq step i).trans (near _ _ i fun m hm => ?_)⟩
  exact dif_pos (Relation.transGen_swap.2 hm)

/-- Outside of functions there are values in every world that follow from each other where they are
not given. -/
theorem Ordered.exists_values (o : t.Ordered) (hf : ∀ i, t.isFunction i = false) (w : World)
    (given : NodeId → Prop) (U : NodeId → Value) :
    ∃ V, (∀ i, given i → V i = U i) ∧ ∀ i, ¬ given i → V i = t.valueFrom w V i := by
  classical
  obtain ⟨V, hV⟩ := o.exists_following hf
    (fun V i => if given i then U i else t.valueFrom w V i) fun V V' i h => by
      split
      · rfl
      · exact valueFrom_of_needs fun m hm => h m (.single hm)
  exact ⟨V, fun i hi => (hV i).trans (if_pos hi), fun i hi => (hV i).trans (if_neg hi)⟩

theorem Ordered.exists_means (o : t.Ordered) (hf : ∀ i, t.isFunction i = false) (w : World) :
    ∃ V, t.Means w V := by
  obtain ⟨V, -, hV⟩ := o.exists_values hf w (fun _ => False) fun _ => default
  exact ⟨V, fun i => hV i not_false⟩

end Tree
end StreamLang
