import StreamLang.Proofs.Closures
import StreamLang.Proofs.Machine.Kinds
import StreamLang.Proofs.Machine.Moves
/-!
Which functions a pass can come by: those that there were before it and those that its function nodes
make. No other step makes a function, so what holds of the former and is ensured of the latter holds
of every function at every time. It is enough to look at scopes that the frames or such functions lead
to (`Machine.Confined`); `Machine.Holds` is about all scopes.
-/
namespace StreamLang

namespace Step

/-- What a step tells about the node that it belongs to. -/
def Meets (t : Tree) (i : NodeId) : Step → Prop
  | push v => v.Every fun _ => False
  | evaluate _ => t.isFunction i = false
  | apply (.lookup name) => t.kind? i = some (.reference name)
  | apply (.makeFunction function body parameters) =>
    function = i ∧ t.kind? i = some (.function parameters) ∧ body ∈ t.children i
  | define _ | discard | enterScope => t.kind? i = some .block
  | _ => True

end Step

namespace Tree

variable {t : Tree} {i : NodeId}

theorem mem_statementSteps {cs : List NodeId} {k : Nat} {a : Step}
    (h : a ∈ t.statementSteps k cs) :
    (∃ j, a = .evaluate j) ∨ (∃ name, a = .define name) ∨ a = .discard ∨ a = .finish := by
  induction cs generalizing k with
  | nil => exact .inr (.inr (.inr (List.mem_singleton.1 h)))
  | cons c cs ih =>
    simp only [Machine.statementSteps_cons, List.mem_cons, List.mem_append] at h
    rcases h with rfl | h | h | h
    · exact .inl ⟨k, rfl⟩
    · unfold Machine.boundSteps at h
      split at h
      · exact .inr (.inl ⟨_, List.mem_singleton.1 h⟩)
      · cases h
    · split at h
      · cases h
      · exact .inr (.inr (.inl (List.mem_singleton.1 h)))
    · exact ih h

theorem forall_mem_collectSteps {p : Step → Prop} {count : Nat} {o : Operation}
    (evaluate : ∀ j, p (.evaluate j)) (apply : p (.apply o)) (finish : p .finish) :
    ∀ a ∈ collectSteps count o, p a := by
  simp [collectSteps, or_imp, forall_and, evaluate, apply, finish]

/-- Each step tells what its node is like. -/
theorem meets_of_mem_steps : ∀ a ∈ t.steps i, a.Meets t i := by
  cases hn : t.node? i with
  | none => simp [steps, hn]
  | some n =>
    rcases fault_or_working (by rw [hn]; rfl : (t.node? i).isSome) with ⟨kind, message, hf⟩ | ⟨n, hw⟩
    · simp [steps_of_fault hf, failSteps, Step.Meets]
    have hfits := hw.fits
    have hkind := hw.kind
    rw [hw.steps]
    cases hk : n.kind <;> rw [hk] at hkind hfits
    case function parameters =>
      obtain ⟨c, hc⟩ : ∃ c, n.children = [c] := List.length_eq_one_iff.1 (by simpa [fits] using hfits)
      simp [kindSteps, Step.Meets, hkind, hw.children, hc]
    all_goals have plain : t.isFunction i = false := by simp [isFunction, hkind]
    case list | struct | call =>
      exact forall_mem_collectSteps (fun _ => plain) (by simp [Step.Meets]) trivial
    case block =>
      intro a h
      rcases List.mem_cons.1 h with rfl | h
      · exact hkind
      rcases mem_statementSteps h with ⟨j, rfl⟩ | ⟨name, rfl⟩ | rfl | rfl
      · exact plain
      · exact hkind
      · exact hkind
      · trivial
    case binary operators =>
      intro a h
      have h : a ∈ chainSteps operators := h
      simp only [chainSteps, List.mem_cons, List.mem_append, List.mem_flatMap, List.not_mem_nil,
        or_false] at h
      rcases h with (rfl | ⟨⟨o, k⟩, -, rfl | rfl⟩) | rfl
      · exact plain
      · exact plain
      · trivial
      · trivial
    case reaction =>
      simp only [kindSteps]
      split <;> simp [Step.Meets, plain]
    case previous =>
      simp only [kindSteps]
      split <;> simp [failSteps, Step.Meets]
    all_goals simp [kindSteps, failSteps, Step.Meets, plain, hkind]

end Tree

/-- All functions among the committed values and in the snapshot are such. -/
structure Setting.Holds (p : Closure → Prop) (s : Setting) : Prop where
  cache : ∀ i e, s.cache.find? i = some e → e.value.Every p
  snapshot : ∀ stream e, s.snapshot.get? stream = some e → e.value.Every p

theorem Setting.Holds.mono {p q : Closure → Prop} {s : Setting} (h : s.Holds p)
    (hpq : ∀ c, p c → q c) : s.Holds q :=
  ⟨fun i e he => (h.cache i e he).mono hpq, fun stream e he => (h.snapshot stream e he).mono hpq⟩

/-- A value that stands in for an evaluation is a committed one. -/
theorem Setting.Holds.reuse? {p : Closure → Prop} {s : Setting} (h : s.Holds p) {r : Record}
    {i : NodeId} {v : Value} (hv : s.reuse? r i = some v) : v.Every p := by
  obtain ⟨e, he, rfl⟩ : ∃ e, s.cache.find? i = some e ∧ e.value = v := by
    unfold Setting.reuse? Cache.reusable? at hv
    split at hv
    · cases hv
    · split at hv
      · split at hv
        · split at hv
          · exact ⟨_, ‹_›, Option.some.inj hv⟩
          · cases hv
        · cases hv
      · cases hv
  exact h.cache i e he

namespace Machine

theorem every_gather? {q : Closure → Prop} {i : NodeId} {kind : NodeKind} {vs : List Value}
    {v : Value} (h : ∀ u ∈ vs, u.Every q) (hv : gather? i kind vs = some v) : v.Every q := by
  have chain (operators : List BinaryOperator) (left : Value) (more : List Value)
      (hl : left.Every q) : ((operators.zip more).foldl
        (fun left p => .binary p.1 left p.2 i) left).Every q := by
    induction operators generalizing left more with
    | nil => exact hl
    | cons o operators ih =>
      cases more with
      | nil => exact hl
      | cons u more => exact ih _ more (Value.every_binary o left u i)
  unfold gather? at hv
  split at hv <;> cases hv
  · exact h _ List.mem_cons_self
  · exact h _ List.mem_cons_self
  · exact Value.every_list.2 h
  · exact Value.every_struct_ofList h
  · exact (h _ List.mem_cons_self).property _ _
  · exact Value.every_unary _ _ _
  · exact chain _ _ _ (h _ List.mem_cons_self)

theorem every_refused {q : Closure → Prop} (i : NodeId) (v : Value) : (refused i v).Every q := by
  unfold refused
  split
  · exact Value.every_exception _
  · exact Value.every_failure _ _ _

theorem every_callee {q : Closure → Prop} {i : NodeId} {v u : Value} {count : Nat}
    (h : callee i v count = .value u) : u.Every q := by
  unfold callee at h
  split at h
  · split at h <;> cases h
    exact Value.every_failure _ _ _
  · cases h
    exact Value.every_exception _
  · cases h
    exact Value.every_failure _ _ _

/-- All frames run in some of the scopes, and all functions there and among the values of the frames
are such. -/
structure Confined (G : ScopeId → Prop) (p : Closure → Prop) (m : Machine) : Prop where
  scopes : m.scopes.Confines G p
  inside : ∀ f ∈ m.frames, G f.scope
  values : ∀ f ∈ m.frames, ∀ v ∈ f.values, v.Every p

namespace Confined

variable {G : ScopeId → Prop} {p : Closure → Prop} {s : Setting} {m m' : Machine} {f g : Frame}
  {rest : List Frame} {a : Step}

theorem of_eq (h : m.Confined G p) (scopes : m'.scopes = m.scopes) (frames : m'.frames = m.frames) :
    m'.Confined G p :=
  ⟨scopes ▸ h.scopes, frames ▸ h.inside, frames ▸ h.values⟩

theorem cutOff (h : m.Confined G p) (T : Terminal) : (m.cutOff T).Confined G p :=
  ⟨h.scopes, fun _ hf => absurd hf List.not_mem_nil, fun _ hf => absurd hf List.not_mem_nil⟩

/-- Another frame in place of the one on top. -/
theorem put (h : m.Confined G p) (hm : m.frames = f :: rest) (hx : G g.scope)
    (hg : ∀ v ∈ g.values, v.Every p) : (m.put g rest).Confined G p where
  scopes := h.scopes
  inside := List.forall_mem_cons.2
    ⟨hx, fun k hk => h.inside k (hm ▸ List.mem_cons_of_mem _ hk)⟩
  values := List.forall_mem_cons.2
    ⟨hg, fun k hk => h.values k (hm ▸ List.mem_cons_of_mem _ hk)⟩

theorem openScope (h : m.Confined G p) {x : ScopeId} (hx : G x) :
    (m.openScope x).2.Confined G p :=
  ⟨h.scopes.addChild hx, h.inside, h.values⟩

theorem define (h : m.Confined G p) (x : ScopeId) {bindings : List (String × Value)}
    (hb : ∀ b ∈ bindings, b.2.Every p) : (m.define x bindings).Confined G p :=
  ⟨h.scopes.defineAll x hb, h.inside, h.values⟩

/-- A scope that was just opened is one of those. -/
theorem opened (h : m.Confined G p) (x : ScopeId) : G (m.openScope x).1 :=
  h.scopes.fresh _ (Nat.le_refl m.scopes.all.size)

theorem call (h : m.Confined G p) (i : NodeId) {x : ScopeId} (hx : G x) :
    (m.call s i x).Confined G p :=
  call_induction (fun _ => h.of_eq rfl rfl) fun _ =>
    ⟨h.scopes, List.forall_mem_cons.2 ⟨hx, h.inside⟩,
      List.forall_mem_cons.2 ⟨fun _ hv => absurd hv List.not_mem_nil, h.values⟩⟩

theorem handDown (h : m.Confined G p) (version : Option Nat) {v : Value} (hv : v.Every p) :
    (m.handDown version v).Confined G p := by
  unfold Machine.handDown
  cases hf : m.frames with
  | nil => exact h.of_eq rfl rfl
  | cons f rest =>
    refine h.put hf (h.inside f (hf ▸ List.mem_cons_self)) (List.forall_mem_cons.2 ⟨hv, ?_⟩)
    exact h.values f (hf ▸ List.mem_cons_self)

theorem enter (h : m.Confined G p) (hs : s.Holds p) (i : NodeId) {x : ScopeId} (hx : G x) :
    (m.enter s i x).Confined G p := by
  unfold Machine.enter
  split
  · exact (h.of_eq rfl rfl : (m.setRecord (s.noteReuse m.record i)).Confined G p).handDown none
      (hs.reuse? ‹_›)
  · exact h.call i hx

theorem enterRoot (h : m.Confined G p) (hs : s.Holds p) (hx : G s.globals) :
    (m.enterRoot s).Confined G p :=
  ((h.openScope hx).of_eq rfl rfl :
    { (m.openScope s.globals).2 with started := true }.Confined G p).enter hs _ (h.opened s.globals)

theorem fetch (hs : s.Holds p) (r : Record) (i : NodeId) (stream : String) (mode : FetchMode) :
    (Machine.fetch s r i stream mode).1.Every p := by
  unfold Machine.fetch
  split
  · exact Value.every_failure _ _ _
  · rename_i e he
    split
    · exact Value.every_boolean _
    · simp only
      split
      · split
        · exact hs.snapshot stream e he
        · exact Value.every_failure _ _ _
      · exact hs.snapshot stream e he

section Step

variable (h : m.Confined G p) (hs : s.Holds p) (hm : m.frames = f :: rest)
include h hm

/-- One value more, on top of some of those that there were. -/
theorem push {values : List Value} {v : Value} (hx : g.scope = f.scope) (hg : g.values = v :: values)
    (hvalues : ∀ u ∈ values, u ∈ f.values) (hv : v.Every p) : (m.put g rest).Confined G p := by
  refine h.put hm (hx ▸ h.inside f (hm ▸ List.mem_cons_self)) fun u hu => ?_
  rw [hg] at hu
  rcases List.mem_cons.1 hu with rfl | hu
  · exact hv
  · exact h.values f (hm ▸ List.mem_cons_self) u (hvalues u hu)

theorem applyCallee (hG : ∀ c, p c → G c.scope) {values arguments : List Value} {target : Value}
    (ht : target ∈ f.values) (hvalues : ∀ u ∈ values, u ∈ f.values)
    (harguments : ∀ u ∈ arguments, u ∈ f.values) :
    (m.applyCallee s { f with cursor := f.cursor + 1, values } rest target arguments).Confined
      G p := by
  have all {u : Value} (hu : u ∈ f.values) : u.Every p := h.values f (hm ▸ List.mem_cons_self) u hu
  unfold Machine.applyCallee
  split
  · rename_i v hc
    refine h.push hm rfl rfl hvalues ?_
    unfold callee at hc
    split at hc
    · split at hc
      · cases hc
      · cases hc
        exact Value.every_failure _ _ _
    · cases hc
      exact Value.every_exception _
    · cases hc
      exact Value.every_failure _ _ _
  · rename_i c hc
    obtain ⟨rfl, -⟩ := callee_eq_body hc
    split
    · exact h.of_eq rfl rfl
    · have hput : (m.put { f with cursor := f.cursor + 1, values } rest).Confined G p :=
        h.put hm (h.inside f (hm ▸ List.mem_cons_self)) fun u hu => all (hvalues u hu)
      exact ((hput.openScope (hG c (Value.every_function.1 (all ht)))).define _ fun b hb =>
        all (harguments _ (List.of_mem_zip hb).2)).call _ (hput.opened c.scope)

include hs in
theorem apply (hG : ∀ c, p c → G c.scope) {o : Operation}
    (make : ∀ function body parameters, o = .makeFunction function body parameters →
      p ⟨function, body, parameters, f.scope⟩) :
    (m.apply s { f with cursor := f.cursor + 1 } rest o).Confined G p := by
  have all {u : Value} (hu : u ∈ f.values) : u.Every p := h.values f (hm ▸ List.mem_cons_self) u hu
  have last {count : Nat} {u : Value} (hu : u ∈ Frame.lastValues f count) : u ∈ f.values :=
    List.mem_of_mem_take (List.mem_reverse.1 hu)
  have failed (fault : Fault) : (m.fail fault).Confined G p := h.of_eq rfl rfl
  cases o with
  | binary operator =>
    simp only [Machine.apply]
    split
    · rename_i values hv
      exact h.push hm rfl rfl (fun u hu => by simp [hv, hu]) (Value.every_binary _ _ _ _)
    · exact failed _
  | unary operator =>
    simp only [Machine.apply]
    split
    · rename_i hv
      exact h.push hm rfl rfl (fun u hu => by simp [hv, hu]) (Value.every_unary _ _ _)
    · exact failed _
  | property name =>
    simp only [Machine.apply]
    split
    · rename_i subject values hv
      exact h.push hm rfl rfl (fun u hu => by simp [hv, hu]) ((all (by simp [hv])).property _ _)
    · exact failed _
  | lookup name =>
    refine h.push hm rfl rfl (fun _ hu => hu) ?_
    cases hl : m.scopes.lookup f.scope name with
    | none => exact Value.every_failure _ _ _
    | some v => exact h.scopes.lookup (h.inside f (hm ▸ List.mem_cons_self)) hl
  | makeList count =>
    simp only [Machine.apply]
    split
    · exact failed _
    · exact h.push hm rfl rfl (fun _ hu => List.mem_of_mem_drop hu)
        (Value.every_list.2 fun u hu => all (last hu))
  | makeStruct names =>
    simp only [Machine.apply]
    split
    · exact failed _
    · exact h.push hm rfl rfl (fun _ hu => List.mem_of_mem_drop hu)
        (Value.every_struct_ofList fun u hu => all (last hu))
  | makeFunction function body parameters =>
    exact h.push hm rfl rfl (fun _ hu => hu) (Value.every_function.2 (make _ _ _ rfl))
  | call count =>
    simp only [Machine.apply]
    split
    · exact failed _
    · split
      · rename_i target values hv
        have hdrop {u : Value} (hu : u ∈ target :: values) : u ∈ f.values :=
          List.mem_of_mem_drop (hv ▸ hu)
        exact h.applyCallee hm hG (hdrop List.mem_cons_self)
          (fun u hu => hdrop (List.mem_cons_of_mem _ hu)) fun u hu => last hu
      · exact failed _
  | previous reaction =>
    refine h.push hm rfl rfl (fun _ hu => hu) ?_
    cases hc : s.cache.find? reaction with
    | none =>
      simp only [Cache.value?, hc, Option.map_none, Option.getD_none]
      exact Value.every_failure _ _ _
    | some e =>
      simp only [Cache.value?, hc, Option.map_some, Option.getD_some]
      exact hs.cache reaction e hc
  | fail kind message => exact h.push hm rfl rfl (fun _ hu => hu) (Value.every_failure _ _ _)

include hs in
/-- A step keeps it, if it holds of the function that the step makes. -/
theorem execute (hG : ∀ c, p c → G c.scope) (meets : a.Meets s.program.tree f.node)
    (make : ∀ function body parameters, a = .apply (.makeFunction function body parameters) →
      p ⟨function, body, parameters, f.scope⟩) :
    (m.execute s { f with cursor := f.cursor + 1 } rest a).Confined G p := by
  have all {u : Value} (hu : u ∈ f.values) : u.Every p := h.values f (hm ▸ List.mem_cons_self) u hu
  have failed (fault : Fault) : (m.fail fault).Confined G p := h.of_eq rfl rfl
  have hx : G f.scope := h.inside f (hm ▸ List.mem_cons_self)
  have keep {g : Frame} (hgx : g.scope = f.scope) (hg : ∀ u ∈ g.values, u ∈ f.values) :
      (m.put g rest).Confined G p :=
    h.put hm (hgx ▸ hx) fun u hu => all (hg u hu)
  have next : (m.put { f with cursor := f.cursor + 1 } rest).Confined G p :=
    keep rfl fun _ hu => hu
  cases a with
  | push v => exact h.push hm rfl rfl (fun _ hu => hu) (Value.Every.mono meets fun _ => False.elim)
  | evaluate index =>
    simp only [Machine.execute]
    split
    · exact failed _
    · exact next.enter hs _ hx
  | apply o => exact h.apply hs hm hG fun _ _ _ ho => make _ _ _ (congrArg Step.apply ho)
  | fetch stream mode =>
    exact (h.of_eq rfl rfl :
      (m.setRecord (Machine.fetch s m.record f.node stream mode).2.2).Confined G p).push hm rfl rfl
        (fun _ hu => hu) (fetch hs _ _ _ _)
  | define name =>
    simp only [Machine.execute]
    split
    · rename_i v values hv
      refine next.define _ fun b hb => ?_
      rw [List.mem_singleton.1 hb]
      exact all (hv ▸ List.mem_cons_self)
    · exact failed _
  | discard =>
    simp only [Machine.execute]
    split
    · rename_i hv
      exact keep rfl fun u hu => by simp [hv, hu]
    · exact failed _
  | enterScope => exact (h.openScope hx).put hm (h.opened f.scope) fun u hu => all hu
  | jump target => exact keep rfl fun _ hu => hu
  | jumpIfFalse target =>
    simp only [Machine.execute]
    split
    · rename_i condition values hv
      have hvalues {u : Value} (hu : u ∈ values) : u ∈ f.values := by simp [hv, hu]
      unfold branch
      split
      · exact keep rfl fun _ hu => hvalues hu
      · exact keep rfl fun _ hu => hvalues hu
      · exact h.push hm rfl rfl (fun _ hu => absurd hu List.not_mem_nil) (Value.every_exception _)
      · exact h.push hm rfl rfl (fun _ hu => absurd hu List.not_mem_nil) (Value.every_failure _ _ _)
    · exact failed _
  | jumpIfInitialized target =>
    refine keep ?_ fun u hu => ?_
    · split <;> rfl
    · split at hu <;> exact hu
  | finish =>
    simp only [Machine.execute]
    split
    · rename_i v values hv
      have hrest (record : Record) : { m with frames := rest, record }.Confined G p :=
        ⟨h.scopes, fun k hk => h.inside k (hm ▸ List.mem_cons_of_mem _ hk),
          fun k hk => h.values k (hm ▸ List.mem_cons_of_mem _ hk)⟩
      exact (hrest _).handDown _ (all (hv ▸ List.mem_cons_self))
    · exact failed _

end Step
end Confined

/-- All functions in the scopes and among the values of the frames are such. -/
structure Holds (p : Closure → Prop) (m : Machine) : Prop where
  scopes : m.scopes.Every p
  values : ∀ f ∈ m.frames, ∀ v ∈ f.values, v.Every p

theorem holds_iff {p : Closure → Prop} {m : Machine} : m.Holds p ↔ m.Confined (fun _ => True) p :=
  ⟨fun h => ⟨Scopes.every_iff.1 h.scopes, fun _ _ => trivial, h.values⟩,
    fun h => ⟨Scopes.every_iff.2 h.scopes, h.values⟩⟩

namespace Holds

variable {p q : Closure → Prop} {s : Setting} {m m' : Machine} {f : Frame} {rest : List Frame}
  {a : Step}

theorem mono (h : m.Holds p) (hpq : ∀ c, p c → q c) : m.Holds q :=
  ⟨h.scopes.mono hpq, fun f hf v hv => (h.values f hf v hv).mono hpq⟩

theorem of_eq (h : m.Holds p) (scopes : m'.scopes = m.scopes) (frames : m'.frames = m.frames) :
    m'.Holds p :=
  ⟨scopes ▸ h.scopes, frames ▸ h.values⟩

theorem cutOff (h : m.Holds p) (T : Terminal) : (m.cutOff T).Holds p :=
  holds_iff.2 ((holds_iff.1 h).cutOff T)

theorem enterRoot (h : m.Holds p) (hs : s.Holds p) : (m.enterRoot s).Holds p :=
  holds_iff.2 ((holds_iff.1 h).enterRoot hs trivial)

theorem execute (h : m.Holds p) (hs : s.Holds p) (hm : m.frames = f :: rest)
    (meets : a.Meets s.program.tree f.node)
    (make : ∀ function body parameters, a = .apply (.makeFunction function body parameters) →
      p ⟨function, body, parameters, f.scope⟩) :
    (m.execute s { f with cursor := f.cursor + 1 } rest a).Holds p :=
  holds_iff.2 ((holds_iff.1 h).execute hs hm (fun _ _ => trivial) meets make)

end Holds
end Machine
end StreamLang
