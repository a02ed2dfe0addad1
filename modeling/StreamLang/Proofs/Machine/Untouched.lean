import StreamLang.Proofs.Machine.Confinement
/-!
Nodes that a pass leaves alone. A node with a committed value that stands in for its evaluation is never
entered anew, whatever comes above it; it could only run as the body of a function. The functions that a
pass makes have other bodies, as a body is volatile, so what matters is where the other functions come
from (`Setting.Offers`).
-/
namespace StreamLang

/-- The function is one that the program makes. -/
structure Closure.Of (t : Tree) (c : Closure) : Prop where
  kind : t.kind? c.function = some (.function c.parameters)
  body : t.children c.function = [c.body]

/-- The functions that a pass can come by without making them: those in committed values, in what the
streams show and among the globals, and those that can be seen from where another one was made. -/
inductive Setting.Offers (s : Setting) (scopes : Scopes) : Closure → Prop where
  | committed {i e c} (he : s.cache.find? i = some e) (hc : e.value.Mentions c) : Offers s scopes c
  | streamed {stream e c} (he : s.snapshot.get? stream = some e) (hc : e.value.Mentions c) :
    Offers s scopes c
  | global {c} (hc : scopes.Shows s.globals c) : Offers s scopes c
  | captured {f c} (hf : Offers s scopes f) (hc : scopes.Shows f.scope c) : Offers s scopes c

/-- The scopes that a pass can look into: those that are seen from the globals or from where a function
on offer was made, and all that it opens. -/
def Setting.Opens (s : Setting) (scopes : Scopes) (o : ScopeId) : Prop :=
  scopes.all.size ≤ o ∨ ∃ i, (i = s.globals ∨ ∃ c, s.Offers scopes c ∧ c.scope = i) ∧
    Relation.ReflTransGen (fun i o => scopes.outside? i = some o) i o

/-- A function whose body is another node, from a scope that the pass can look into. -/
def Setting.Spares (s : Setting) (scopes : Scopes) (n : NodeId) (c : Closure) : Prop :=
  c.body ≠ n ∧ s.Opens scopes c.scope

namespace Setting

variable {s : Setting} {scopes : Scopes} {n : NodeId}

theorem opens_globals (s : Setting) (scopes : Scopes) : s.Opens scopes s.globals :=
  scopes.opens_globals s.globals _

theorem Offers.opens {c : Closure} (h : s.Offers scopes c) : s.Opens scopes c.scope :=
  scopes.opens_kept s.globals h

/-- What holds of all functions that there are holds of those on offer. -/
theorem Offers.of_every {p : Closure → Prop} {c : Closure} (h : s.Offers scopes c) (hs : s.Holds p)
    (hscopes : scopes.Every p) : p c := by
  have shown {i : ScopeId} {c : Closure} (h : scopes.Shows i c) : p c := by
    obtain ⟨o, -, scope, hscope, b, hb, hc⟩ := h
    exact hscopes o scope hscope b hb c hc
  cases h with
  | committed he hc => exact hs.cache _ _ he c hc
  | streamed he hc => exact hs.snapshot _ _ he c hc
  | global hc => exact shown hc
  | captured _ hc => exact shown hc

/-- If all functions on offer are such, and all that the program makes, then so are all that the pass can
come by, and they are from scopes that it can look into. -/
theorem contains_of_offers {B : Closure → Prop} (offers : ∀ c, s.Offers scopes c → B c)
    (makes : ∀ i body parameters scope, s.program.tree.kind? i = some (.function parameters) →
      s.program.tree.children i = [body] → B ⟨i, body, parameters, scope⟩) :
    scopes.Confines (s.Opens scopes) (fun c => B c ∧ s.Opens scopes c.scope) ∧
      s.Contains (s.Opens scopes) fun c => B c ∧ s.Opens scopes c.scope where
  left := Scopes.confines_opens (fun _ => .global) (fun _ _ => .captured) offers
  right := {
    holds := {
      cache := fun _ _ he c hc =>
        have offered : s.Offers scopes c := .committed he hc
        ⟨offers c offered, offered.opens⟩
      snapshot := fun _ _ he c hc =>
        have offered : s.Offers scopes c := .streamed he hc
        ⟨offers c offered, offered.opens⟩ }
    globals := s.opens_globals scopes
    inside := fun _ hc => hc.2
    makes := fun i body parameters scope hk hb hscope => ⟨makes i body parameters scope hk hb, hscope⟩ }

theorem noteFinish_evaluations (s : Setting) (r : Record) (f : Frame) (v : Value) :
    (s.noteFinish r f v).evaluations = r.evaluations := by
  unfold noteFinish
  simp only
  split <;> rfl

theorem noteReuse_evaluations (s : Setting) (r : Record) (i : NodeId) :
    (s.noteReuse r i).evaluations = r.evaluations := by
  unfold noteReuse
  split <;> split <;> rfl

end Setting

/-- The node has neither been run nor been given a value. -/
structure Record.Untouched (r : Record) (n : NodeId) : Prop where
  run : r.evaluations[n]? = none
  write : ¬ r.Wrote n

namespace Record.Untouched

variable {r r' : Record} {n i : NodeId}

theorem empty (n : NodeId) : Record.empty.Untouched n := ⟨by simp [Record.empty], List.not_mem_nil⟩

theorem of_eq (h : r.Untouched n) (evaluations : r'.evaluations = r.evaluations)
    (writes : r'.writes = r.writes) : r'.Untouched n :=
  ⟨evaluations ▸ h.run, fun hw => h.write (by rw [Wrote, ← writes]; exact hw)⟩

theorem countEvaluation (h : r.Untouched n) (hi : i ≠ n) : (r.countEvaluation i).Untouched n := by
  refine ⟨?_, h.write⟩
  show (r.evaluations.insert i _)[n]? = none
  rw [Std.ExtTreeMap.getElem?_insert, if_neg (by simpa using hi)]
  exact h.run

theorem noteFinish (h : r.Untouched n) (s : Setting) {f : Frame} (hf : f.node ≠ n) (v : Value) :
    (s.noteFinish r f v).Untouched n := by
  refine ⟨(s.noteFinish_evaluations r f v).symm ▸ h.run, fun hw => ?_⟩
  rw [Wrote, s.noteFinish_writes] at hw
  rcases Assoc.mem_keys_put.1 hw with hw | rfl
  · exact h.write hw
  · exact hf rfl

end Record.Untouched

namespace Machine

theorem fetch_evaluations (s : Setting) (r : Record) (i : NodeId) (stream : String)
    (mode : FetchMode) : (fetch s r i stream mode).2.2.evaluations = r.evaluations := by
  unfold fetch
  split
  · rfl
  · cases mode with
    | changed =>
      simp only
      split <;> rfl
    | latest =>
      simp only
      split
      · cases s.policy <;> simp only <;> split <;> rfl
      · split <;> rfl

/-- The node has neither been run nor been given a value, and is not running. -/
structure Untouched (m : Machine) (n : NodeId) : Prop where
  frames : ∀ f ∈ m.frames, f.node ≠ n
  record : m.record.Untouched n

namespace Untouched

variable {s : Setting} {scopes : Scopes} {m m' : Machine} {n i : NodeId} {f g : Frame}
  {rest : List Frame}

theorem start (scopes : Scopes) (n : NodeId) : (Machine.start scopes).Untouched n :=
  ⟨fun _ hf => absurd hf List.not_mem_nil, .empty n⟩

theorem of_eq (h : m.Untouched n) (frames : m'.frames = m.frames)
    (record : m'.record.Untouched n) : m'.Untouched n :=
  ⟨frames ▸ h.frames, record⟩

/-- The frame on top goes on. -/
theorem put (h : m.Untouched n) (hm : m.frames = f :: rest) (hg : g.node = f.node) :
    (m.put g rest).Untouched n := by
  have hall : ∀ k ∈ f :: rest, k.node ≠ n := hm ▸ h.frames
  exact ⟨List.forall_mem_cons.2 ⟨hg ▸ hall f List.mem_cons_self,
    fun k hk => hall k (List.mem_cons_of_mem _ hk)⟩, h.record⟩

theorem call (h : m.Untouched n) (hi : i ≠ n) (x : ScopeId) : (m.call s i x).Untouched n :=
  call_induction (I := (Untouched · n)) (fun _ => h.of_eq rfl h.record) fun _ =>
    ⟨List.forall_mem_cons.2 ⟨hi, h.frames⟩, h.record.countEvaluation hi⟩

theorem handDown (h : m.Untouched n) (version : Option Nat) (v : Value) :
    (m.handDown version v).Untouched n := by
  unfold Machine.handDown
  cases hf : m.frames with
  | nil => exact h.of_eq rfl h.record
  | cons f rest => exact h.put hf rfl

/-- If a committed value stands in for the node, it is not run. -/
theorem enter (h : m.Untouched n) {i : NodeId} (hn : i = n → ∀ r, (s.reuse? r n).isSome)
    (x : ScopeId) : (m.enter s i x).Untouched n := by
  unfold Machine.enter
  split
  · have hr : (m.setRecord (s.noteReuse m.record i)).Untouched n :=
      h.of_eq rfl (h.record.of_eq (s.noteReuse_evaluations _ i) (s.noteReuse_writes _ i))
    exact hr.handDown none _
  · rename_i hnone
    refine h.call ?_ x
    rintro rfl
    have hsome := hn rfl m.record
    rw [hnone] at hsome
    cases hsome

section Step

variable (h : m.Untouched n) (hm : m.frames = f :: rest)
include h hm

/-- A call runs the body of a function among the values of its frame. -/
theorem applyCallee (hg : g.node = f.node) {target : Value}
    (ht : target.Every fun c => c.body ≠ n) (arguments : List Value) :
    (m.applyCallee s g rest target arguments).Untouched n := by
  unfold Machine.applyCallee
  split
  · exact h.put hm hg
  · rename_i c hc
    obtain ⟨rfl, -⟩ := callee_eq_body hc
    split
    · exact h.of_eq rfl h.record
    · have hput : (m.put g rest).Untouched n := h.put hm hg
      exact (hput.of_eq rfl hput.record : (((m.put g rest).openScope c.scope).2.define
        ((m.put g rest).openScope c.scope).1 (c.parameters.zip arguments)).Untouched n).call
          (Value.every_function.1 ht) _

/-- No other step of a frame runs the node than one that comes to it as a part, unless a committed value
stands in for it. -/
theorem execute {a : Step} (part : ∀ index, a = .evaluate index →
      (s.program.tree.children f.node)[index]? = some n → ∀ r, (s.reuse? r n).isSome)
    (hvalues : ∀ v ∈ f.values, v.Every fun c => c.body ≠ n) :
    (m.execute s { f with cursor := f.cursor + 1 } rest a).Untouched n := by
  have failed (fault : Fault) : (m.fail fault).Untouched n := h.of_eq rfl h.record
  by_cases ha : ∃ count, a = .apply (.call count)
  · obtain ⟨count, rfl⟩ := ha
    simp only [Machine.execute, Machine.apply]
    split
    · exact failed _
    · split
      · rename_i target values hv
        have hmem : target ∈ f.values := List.mem_of_mem_drop (hv ▸ List.mem_cons_self)
        exact h.applyCallee (g := { f with cursor := f.cursor + 1, values }) hm rfl
          (hvalues target hmem) _
      · exact failed _
  by_cases he : ∃ index, a = .evaluate index
  · obtain ⟨index, rfl⟩ := he
    simp only [Machine.execute]
    split
    · exact failed _
    · rename_i i hi
      have hput : (m.put { f with cursor := f.cursor + 1 } rest).Untouched n := h.put hm rfl
      exact hput.enter (fun hin => part index rfl (hin ▸ hi)) f.scope
  · have resumes : f.Resumes { f with cursor := f.cursor + 1 } := ⟨rfl, rfl, rfl⟩
    have hmoved : Moved s m f rest a (m.execute s { f with cursor := f.cursor + 1 } rest a) :=
      moved_execute resumes a
    generalize m.execute s { f with cursor := f.cursor + 1 } rest a = m' at hmoved
    cases hmoved with
    | failed fault => exact failed fault
    | resumed _ hg => exact h.put hm hg.node
    | @read g stream mode hg =>
      have hr : (m.setRecord (fetch s m.record f.node stream mode).2.2).Untouched n :=
        h.of_eq rfl (h.record.of_eq (fetch_evaluations s m.record f.node stream mode)
          (fetch_record s m.record f.node stream mode).1)
      exact hr.put hm hg.node
    | defined hg => exact (h.put hm hg.node).of_eq rfl h.record
    | opened node => exact (h.of_eq rfl h.record : (m.openScope f.scope).2.Untouched n).put hm node
    | entered => exact absurd ⟨_, rfl⟩ he
    | called => exact absurd ⟨_, rfl⟩ ha
    | @finished g version v hg =>
      have hf : g.node ≠ n := hg.node ▸ h.frames f (hm ▸ List.mem_cons_self)
      have hr : { m with frames := rest, record := s.noteFinish m.record g v }.Untouched n :=
        ⟨fun k hk => h.frames k (hm ▸ List.mem_cons_of_mem _ hk), h.record.noteFinish s hf v⟩
      exact hr.handDown version v

end Step

/-- A tick keeps it, if the node is neither the root nor a part that a frame comes to, unless a committed
value stands in for it, and no function among the values has it for its body. -/
theorem tick (h : m.Untouched n) (root : s.root = n → ∀ r, (s.reuse? r n).isSome)
    (part : ∀ f ∈ m.frames, ∀ index, f.steps[f.cursor]? = some (.evaluate index) →
      (s.program.tree.children f.node)[index]? = some n → ∀ r, (s.reuse? r n).isSome)
    (hvalues : ∀ f ∈ m.frames, ∀ v ∈ f.values, v.Every fun c => c.body ≠ n) (abort : Bool) :
    (m.tick s abort).Untouched n := by
  have hcount : (m.setRecord m.record.countStep).Untouched n :=
    h.of_eq rfl (h.record.of_eq rfl rfl)
  generalize hm' : m.tick s abort = m'
  cases ticked hm' with
  | ended => exact h
  | cutOff => exact ⟨fun _ hf => absurd hf List.not_mem_nil, h.record⟩
  | entered =>
    have hu : { (m.openScope s.globals).2 with started := true }.Untouched n := h.of_eq rfl h.record
    exact hu.enter root _
  | failed => exact hcount.of_eq rfl hcount.record
  | @executed f rest a hm ha =>
    have hf : f ∈ m.frames := hm ▸ List.mem_cons_self
    exact hcount.execute hm (fun index he => part f hf index (he ▸ ha)) (hvalues f hf)

end Untouched
end Machine

/-- In this pass a committed value stands in for the node, and no function on offer has it for its
body. -/
structure Setting.Avoids (s : Setting) (scopes : Scopes) (n : NodeId) : Prop where
  ordered : s.program.tree.Ordered
  program : s.program = .ofTree s.program.tree
  reuse : ∀ r, (s.reuse? r n).isSome
  offers : ∀ c, s.Offers scopes c → c.body ≠ n

namespace Setting.Avoids

variable {s : Setting} {scopes : Scopes} {n : NodeId}

theorem not_volatile (h : s.Avoids scopes n) : s.program.analysis.isVolatile n = false := by
  have hsome := h.reuse .empty
  unfold Setting.reuse? at hsome
  split at hsome
  · cases hsome
  · exact Bool.eq_false_iff.2 ‹_›

/-- What lies in a function is volatile. -/
theorem body_ne (h : s.Avoids scopes n) {i body : NodeId} (hi : s.program.tree.isFunction i = true)
    (hb : body ∈ s.program.tree.children i) : body ≠ n := by
  rintro rfl
  have hv := h.not_volatile
  rw [h.program] at hv
  have hany : (s.program.tree.ancestors body).any s.program.tree.isFunction = true := by
    rw [h.ordered.ancestors_child hb, List.any_cons, hi, Bool.true_or]
  simp only [Program.ofTree, Analysis.isVolatile, Analysis.ofTree, Tree.ids,
    Array.getD_eq_getD_getElem?] at hv
  by_cases hlt : body < s.program.tree.size
  · simp [hlt, hany] at hv
  · simp [hlt] at hv

/-- So all functions that such a pass comes by have other bodies. -/
theorem contains (h : s.Avoids scopes n) : scopes.Confines (s.Opens scopes) (s.Spares scopes n) ∧
    s.Contains (s.Opens scopes) (s.Spares scopes n) :=
  Setting.contains_of_offers (B := fun c => c.body ≠ n) h.offers fun i body _ _ hk hb =>
    h.body_ne (i := i) (by rw [Tree.isFunction, hk]) (hb ▸ List.mem_singleton_self body)

end Setting.Avoids

namespace Machine

/-- What holds of the machine of a pass that avoids a node. -/
structure Spares (s : Setting) (scopes : Scopes) (n : NodeId) (m : Machine) : Prop where
  contained : m.Contained s (s.Opens scopes) (s.Spares scopes n)
  untouched : m.Untouched n

namespace Spares

variable {s : Setting} {scopes : Scopes} {n : NodeId} {m : Machine}

theorem start (hs : s.Avoids scopes n) : (Machine.start scopes).Spares s scopes n :=
  ⟨.start s hs.contains.1, .start scopes n⟩

/-- A tick keeps it. -/
theorem tick (h : m.Spares s scopes n) (hs : s.Avoids scopes n) (abort : Bool) :
    (m.tick s abort).Spares s scopes n :=
  ⟨h.contained.tick hs.contains.2 abort,
    h.untouched.tick (fun _ => hs.reuse) (fun _ _ _ _ _ => hs.reuse)
      (fun f hf v hv => (h.contained.confined.values f hf v hv).mono fun _ hc => hc.1) abort⟩

end Spares
end Machine
end StreamLang
