import Mathlib.Data.List.Chain
import StreamLang.Proofs.Machine.Heights
import StreamLang.Proofs.Machine.Naming
import StreamLang.Proofs.Machine.Once
/-!
What a pass knows of binds. In a tree without functions each frame is that of a child of the one below,
and a block has gone by all binds before the statement that it is at. So when a pass comes to a node, it
has found out of each bind that the node depends on whether it differs from what was committed.
-/
namespace StreamLang

/-- The pass has found out whether the bind differs from what was committed. -/
def Record.Knows (r : Record) (b : NodeId) : Prop := (r.bindsChanged[b]?).isSome

namespace Setting

variable {s : Setting} {r r' : Record} {i : NodeId} {v : Value}

/-- What the tree and the setting of a pass without functions are like. -/
structure FunctionFree (s : Setting) : Prop where
  accepted : s.program.tree.Accepted
  program : s.program = .ofTree s.program.tree
  root : s.root = s.program.tree.root
  tree : ∀ i, s.program.tree.isFunction i = false
  values : s.Holds fun _ => False

/-- What is known of binds stays known. -/
theorem knows_noteReuse (i : NodeId) {b : NodeId} (h : r.Knows b) : (s.noteReuse r i).Knows b := by
  rw [Record.Knows, s.noteReuse_bindsChanged]
  split
  · by_cases hi : i = b
    · simp [hi]
    · simpa [Record.Knows, Std.ExtTreeMap.getElem?_insert, hi] using h
  · exact h

theorem knows_noteFinish (f : Frame) (v : Value) {b : NodeId} (h : r.Knows b) :
    (s.noteFinish r f v).Knows b := by
  rw [Record.Knows, s.noteFinish_bindsChanged]
  split
  · by_cases hi : f.node = b
    · simp [hi]
    · simpa [Record.Knows, Std.ExtTreeMap.getElem?_insert, hi] using h
  · exact h

/-- A bind that is used again is known, and so is one that has finished. -/
theorem noteReuse_knows (hi : s.program.tree.kindIs NodeKind.isBind i = true) :
    (s.noteReuse r i).Knows i := by
  rw [Record.Knows, s.noteReuse_bindsChanged, if_pos hi]
  simp

theorem noteFinish_knows {f : Frame} (hf : s.program.tree.kindIs NodeKind.isBind f.node = true)
    (v : Value) : (s.noteFinish r f v).Knows f.node := by
  rw [Record.Knows, s.noteFinish_bindsChanged, if_pos hf]
  simp

/-- Whether a committed value stands in depends on no more of a record than what it says of binds. -/
theorem reuse?_congr (h : r'.bindsChanged = r.bindsChanged) (i : NodeId) :
    s.reuse? r' i = s.reuse? r i := by
  have hb : s.bindChanged r' = s.bindChanged r := by
    funext b
    simp only [bindChanged, h]
  have hu : s.unaffected r' = s.unaffected r := by
    funext j
    simp only [unaffected, hb]
  have hh : s.holds r' i = s.holds r i := by simp only [holds, hu]
  rw [reuse?, reuse?, hh]

theorem has_of_reuse? (h : s.reuse? r i = some v) : s.cache.has i = true := by
  have hv := value?_of_reuse? h
  rw [Cache.value?] at hv
  obtain ⟨e, he, -⟩ := Option.map_eq_some_iff.1 hv
  simp [Cache.has, he]

/-- What a record says of binds and of values is right, and what a written node depends on is known. -/
structure Notes (s : Setting) (r : Record) : Prop where
  binds : ∀ b : NodeId, r.Knows b → s.program.tree.kindIs NodeKind.isBind b = true
  changed : ∀ b : NodeId, r.bindsChanged[b]? = some true →
    ∃ v, r.written? b = some v ∧ (s.cache.value? b).any (·.equal v) = false
  come : ∀ b : NodeId, r.Knows b → r.Wrote b ∨ s.cache.has b = true
  reusable : ∀ i w, (i, w) ∈ r.writes → w.reusable = !s.program.analysis.isVolatile i
  depends : ∀ i, r.Wrote i → ∀ b ∈ s.program.analysis.dependencies i,
    r.Wrote b ∨ s.cache.has b = true

namespace Notes

theorem empty (s : Setting) : s.Notes .empty := by
  refine ⟨?_, ?_, ?_, ?_, ?_⟩ <;> simp [Record.empty, Record.Wrote, Record.Knows, Assoc.keys]

theorem of_eq (h : s.Notes r) (writes : r'.writes = r.writes)
    (binds : r'.bindsChanged = r.bindsChanged) : s.Notes r' := by
  refine ⟨?_, ?_, ?_, ?_, ?_⟩
  · simpa only [Record.Knows, binds] using h.binds
  · simpa only [binds, Record.written?, writes] using h.changed
  · simpa only [Record.Knows, binds, Record.Wrote, writes] using h.come
  · simpa only [writes] using h.reusable
  · simpa only [Record.Wrote, writes] using h.depends

theorem reuse (h : s.Notes r) (hi : s.reuse? r i = some v) : s.Notes (s.noteReuse r i) := by
  have hw := s.noteReuse_writes r i
  have get {b : NodeId} {c : Bool} (hbc : (s.noteReuse r i).bindsChanged[b]? = some c) :
      r.bindsChanged[b]? = some c ∨
        b = i ∧ c = false ∧ s.program.tree.kindIs NodeKind.isBind i = true := by
    rw [s.noteReuse_bindsChanged] at hbc
    split at hbc
    · rename_i hbind
      by_cases hi : i = b
      · subst hi
        exact .inr ⟨rfl, by simpa using hbc.symm, hbind⟩
      · exact .inl (by simpa [Std.ExtTreeMap.getElem?_insert, hi] using hbc)
    · exact .inl hbc
  refine ⟨fun b hb => ?_, fun b hbc => ?_, fun b hb => ?_, ?_, ?_⟩
  · obtain ⟨c, hbc⟩ := Option.isSome_iff_exists.1 hb
    obtain hbc | ⟨rfl, -, hbind⟩ := get hbc
    · exact h.binds b (by rw [Record.Knows, hbc]; rfl)
    · exact hbind
  · obtain hbc | ⟨-, hc, -⟩ := get hbc
    · simpa only [Record.written?, hw] using h.changed b hbc
    · cases hc
  · obtain ⟨c, hbc⟩ := Option.isSome_iff_exists.1 hb
    rw [Record.Wrote, hw]
    obtain hbc | ⟨rfl, -, -⟩ := get hbc
    · exact h.come b (by rw [Record.Knows, hbc]; rfl)
    · exact .inr (has_of_reuse? hi)
  · simpa only [hw] using h.reusable
  · simpa only [Record.Wrote, hw] using h.depends

theorem finish (h : s.Notes r) (f : Frame) (v : Value)
    (depends : ∀ b ∈ s.program.analysis.dependencies f.node, r.Knows b) :
    s.Notes (s.noteFinish r f v) := by
  have wrote {i : NodeId} : (s.noteFinish r f v).Wrote i ↔ r.Wrote i ∨ i = f.node := by
    rw [Record.Wrote, s.noteFinish_writes]
    exact Assoc.mem_keys_put
  have known {b : NodeId} (hb : r.Wrote b ∨ s.cache.has b = true) :
      (s.noteFinish r f v).Wrote b ∨ s.cache.has b = true :=
    hb.imp_left fun hb => wrote.2 (.inl hb)
  have get {b : NodeId} {c : Bool} (hbc : (s.noteFinish r f v).bindsChanged[b]? = some c) :
      f.node ≠ b ∧ r.bindsChanged[b]? = some c ∨ f.node = b ∧
        s.program.tree.kindIs NodeKind.isBind b = true ∧
          c = !((s.cache.value? b).any (·.equal v)) := by
    rw [s.noteFinish_bindsChanged] at hbc
    by_cases hb : f.node = b
    · subst hb
      refine .inr ⟨rfl, ?_⟩
      split at hbc
      · rename_i hbind
        exact ⟨hbind, by simpa using hbc.symm⟩
      · rename_i hbind
        exact absurd (h.binds f.node (by rw [Record.Knows, hbc]; rfl)) hbind
    · refine .inl ⟨hb, ?_⟩
      split at hbc
      · simpa [Std.ExtTreeMap.getElem?_insert, hb] using hbc
      · exact hbc
  refine ⟨fun b hb => ?_, fun b hbc => ?_, fun b hb => ?_, fun i w hm => ?_, fun i hi b hb => ?_⟩
  · obtain ⟨c, hbc⟩ := Option.isSome_iff_exists.1 hb
    obtain ⟨-, hbc⟩ | ⟨-, hbind, -⟩ := get hbc
    · exact h.binds b (by rw [Record.Knows, hbc]; rfl)
    · exact hbind
  · rw [Record.written?_noteFinish]
    obtain ⟨hb, hbc⟩ | ⟨hb, -, hc⟩ := get hbc
    · rw [if_neg hb]
      exact h.changed b hbc
    · exact ⟨v, if_pos hb, by simpa using hc⟩
  · obtain ⟨c, hbc⟩ := Option.isSome_iff_exists.1 hb
    obtain ⟨-, hbc⟩ | ⟨hb, -, -⟩ := get hbc
    · exact known (h.come b (by rw [Record.Knows, hbc]; rfl))
    · exact .inl (wrote.2 (.inr hb.symm))
  · rw [s.noteFinish_writes] at hm
    rcases Assoc.mem_of_mem_put hm with ⟨rfl, rfl⟩ | hm
    · rfl
    · exact h.reusable i w hm
  · rcases wrote.1 hi with hi | rfl
    · exact known (h.depends i hi b hb)
    · exact known (h.come b (depends b hb))

end Notes
end Setting

/-! ### Binds before a place -/

namespace Tree

variable {t : Tree} {p b c e i r : NodeId}

/-- The binds before a place have been run. -/
theorem Placed.exists_binds {D : Deeds} {away : Bool} {x : ScopeId} (h : t.Placed D away i x)
    (o : t.Ordered) (top : t.parent? t.root = none) (hf : ∀ i, t.isFunction i = false)
    (hp : t.Precedes p b e) (he : t.Within e i) (hb : t.kindIs NodeKind.isBind b = true) :
    ∃ y v, .binds y b v ∈ D := by
  induction h with
  | program opened =>
    rcases he.cases_tail with rfl | ⟨q, -, hq⟩
    · exact absurd (o.parent_iff.2 hp.later) (by simp [top])
    · exact absurd (o.parent_iff.2 hq) (by simp [top])
  | part child hblock _ _ ih =>
    rcases he.cases_tail with rfl | ⟨q, hq, hc⟩
    · obtain rfl := o.parent_unique child hp.later
      exact absurd hp.block hblock
    · obtain rfl := o.parent_unique child hc
      exact ih hq
  | statement opened _ child _ run _ ih =>
    rcases he.cases_tail with rfl | ⟨q, hq, hc⟩
    · obtain rfl := o.parent_unique child hp.later
      obtain ⟨⟨j, v⟩, hm, rfl⟩ := List.mem_map.1 (run.subset (show b ∈ _ by
        simp [bindsBefore, hp.earlier, hb]))
      exact ⟨_, v, Deeds.mem_bound.1 hm⟩
    · obtain rfl := o.parent_unique child hc
      exact ih hq
  | @body _ _ c _ _ hk _ _ _ _ =>
    have := hf c.function
    simp [isFunction, hk] at this

/-- A block takes one step after another. -/
theorem goesOn_of_block {a : Step} (hb : t.kind? p = some .block) (ha : a ∈ t.steps p) :
    a.goesOn = true ∨ a = .finish := by
  rcases steps_of_block hb with h | ⟨kind, message, h⟩ <;> rw [h] at ha
  · rcases List.mem_cons.1 ha with rfl | ha
    · exact .inl rfl
    rcases mem_statementSteps ha with ⟨j, rfl⟩ | ⟨name, rfl⟩ | rfl | rfl
    · exact .inl rfl
    · exact .inl rfl
    · exact .inl rfl
    · exact .inr rfl
  · rcases List.mem_cons.1 ha with rfl | ha
    · exact .inl rfl
    · exact .inr (List.mem_singleton.1 ha)

/-- The steps of a reaction with two parts, of one with a condition, and of a faulty one. -/
theorem steps_of_reaction (hr : t.kind? r = some .reaction) :
    ((t.children r).length = 2 ∧
      t.steps r = [.jumpIfInitialized 3, .evaluate 0, .jump 4, .evaluate 1, .finish]) ∨
    t.steps r = [.jumpIfInitialized 3, .evaluate 0, .jump 8, .evaluate 1, .jumpIfFalse 7,
      .evaluate 2, .jump 8, .apply (.previous r), .finish] ∨
    ∃ kind message, t.steps r = failSteps kind message := by
  rcases fault_or_working (lt_size_iff.1 (lt_size_of_kind hr)) with ⟨kind, message, hf⟩ | ⟨n, hw⟩
  · exact .inr (.inr ⟨kind, message, steps_of_fault hf⟩)
  have hk : n.kind = .reaction := Option.some.inj (hw.kind.symm.trans hr)
  rw [hw.steps, hw.children, hk]
  by_cases hc : n.children.length = 2
  · exact .inl ⟨hc, if_pos hc⟩
  · exact .inr (.inl (if_neg hc))

/-- A reaction comes to the part after its first one at once or not at all. -/
theorem leads_of_reaction {q k k' : Nat} {a : Step} (hr : t.kind? r = some .reaction) {n : Nat}
    (ha : (t.steps r)[n]? = some a) (hq : (q, k') ∈ a.leads n k (t.steps r).length) :
    q ≠ 0 ∧ (q = 3 → n = 0) := by
  have hn := (List.getElem?_eq_some_iff.1 ha).1
  rcases steps_of_reaction hr with ⟨-, h⟩ | h | ⟨kind, message, h⟩ <;> rw [h] at ha hq hn <;>
    simp only [failSteps, List.length_cons, List.length_nil] at ha hq hn <;>
    interval_cases n <;> cases ha <;> simp [Step.leads] at hq <;> omega

end Tree

namespace Frame

variable {s : Setting} {r r' : Record} {f g : Frame} {i : NodeId}

/-- A reaction at its beginning, or at the part after its first one, has evaluated nothing. -/
theorem evaluated?_of_reaction {t : Tree} (hs : f.steps = t.steps f.node)
    (hr : t.kind? f.node = some .reaction) (hc : f.cursor = 0 ∨ f.cursor = 3) :
    f.evaluated? t = none := by
  rw [evaluated?, hs]
  rcases Tree.steps_of_reaction hr with ⟨-, h⟩ | h | ⟨kind, message, h⟩ <;> rw [h] <;>
    rcases hc with hc | hc <;> rw [hc] <;> rfl

/-- A block that has just evaluated a bind knows whether it differs. A reaction that is at its beginning,
or at the part after its first one, could not be answered from what was committed. -/
structure Informed (s : Setting) (r : Record) (f : Frame) : Prop where
  block : s.program.tree.kind? f.node = some .block → ∀ i,
    f.evaluated? s.program.tree = some i → s.program.tree.kindIs NodeKind.isBind i = true → r.Knows i
  reaction : s.program.tree.kind? f.node = some .reaction → f.cursor = 0 ∨ f.cursor = 3 →
    s.reuse? r f.node = none

theorem evaluated?_congr {t : Tree} (node : g.node = f.node) (steps : g.steps = f.steps)
    (cursor : g.cursor = f.cursor) : g.evaluated? t = f.evaluated? t := by
  simp only [evaluated?, node, steps, cursor]

namespace Informed

theorem of_eq (h : f.Informed s r) (node : g.node = f.node) (steps : g.steps = f.steps)
    (cursor : g.cursor = f.cursor) (binds : r'.bindsChanged = r.bindsChanged) : g.Informed s r' := by
  refine ⟨fun hb i hi hbind => ?_, fun hr hc => ?_⟩
  · rw [evaluated?_congr node steps cursor] at hi
    rw [Record.Knows, binds]
    exact h.block (node ▸ hb) i hi hbind
  · rw [Setting.reuse?_congr binds, node]
    exact h.reaction (node ▸ hr) (cursor ▸ hc)

/-- When a node is done, the frame that has evaluated it may go on. -/
theorem of_evaluated (hs : f.steps = s.program.tree.steps f.node)
    (hi : f.evaluated? s.program.tree = some i)
    (known : s.program.tree.kindIs NodeKind.isBind i = true → r.Knows i) : f.Informed s r where
  block _ j hj hbind := by
    obtain rfl : i = j := Option.some.inj (hi.symm.trans hj)
    exact known hbind
  reaction hr hc := by
    rw [evaluated?_of_reaction hs hr hc] at hi
    cases hi

/-- A node that is entered could not be answered. -/
theorem start {x : ScopeId} (hr : s.reuse? r i = none) :
    (Frame.start i (s.program.tree.steps i) x).Informed s r where
  block hb j hj _ := by
    have none : (Frame.start i (s.program.tree.steps i) x).evaluated? s.program.tree = none := by
      rcases Tree.steps_of_block hb with h | ⟨kind, message, h⟩ <;> rw [evaluated?] <;>
        simp only [Frame.start] at h ⊢ <;> rw [h] <;> rfl
    rw [none] at hj
    cases hj
  reaction _ _ := hr

/-- What a step leaves the frame informed of that evaluates nothing. -/
theorem leads {a : Step} (h : f.Informed s r) (hs : f.steps = s.program.tree.steps f.node)
    (ha : f.steps[f.cursor]? = some a) (node : g.node = f.node) (steps : g.steps = f.steps)
    {k k' : Nat} (hq : (g.cursor, k') ∈ a.leads f.cursor k f.steps.length)
    (other : ∀ j, a ≠ .evaluate j) (binds : r'.bindsChanged = r.bindsChanged) : g.Informed s r' := by
  refine ⟨fun hb i hi _ => ?_, fun hr hc => ?_⟩
  · rw [node] at hb
    have hgo : a.goesOn = true := by
      refine (Tree.goesOn_of_block hb (hs ▸ List.mem_of_getElem? ha)).resolve_right ?_
      rintro rfl
      simp [Step.leads] at hq
    rw [Step.leads_of_goesOn hgo] at hq
    obtain ⟨hcur, -⟩ := Prod.mk.inj (List.mem_singleton.1 hq)
    rw [evaluated?, steps, hcur, Nat.add_sub_cancel, ha] at hi
    split at hi
    · rename_i heq
      exact absurd (Option.some.inj heq) (other _)
    · cases hi
  · rw [node] at hr
    rw [hs] at ha hq
    obtain ⟨h0, h3⟩ := Tree.leads_of_reaction hr ha hq
    rw [Setting.reuse?_congr binds, node]
    exact h.reaction hr (.inl (h3 (hc.resolve_left h0)))

end Informed
end Frame

namespace Machine

/-- What becomes of a machine by a step of the frame `f` on top of `rest`, if no function is called: it
goes on, enters a part of the node, or is done with it. -/
inductive Went (s : Setting) (m : Machine) (f : Frame) (rest : List Frame) : Step → Machine → Prop where
  | failed {a} (fault : Fault) : Went s m f rest a (m.fail fault)
  | on {a g m' k k'} (frames : m'.frames = g :: rest) (node : g.node = f.node)
    (steps : g.steps = f.steps) (leads : (g.cursor, k') ∈ a.leads f.cursor k f.steps.length)
    (other : ∀ j, a ≠ .evaluate j) (writes : m'.record.writes = m.record.writes)
    (binds : m'.record.bindsChanged = m.record.bindsChanged) (started : m'.started = m.started) :
    Went s m f rest a m'
  | entered {j i} (child : (s.program.tree.children f.node)[j]? = some i) :
    Went s m f rest (.evaluate j) ((m.put { f with cursor := f.cursor + 1 } rest).enter s i f.scope)
  | finished {v version} (g : Frame) (node : g.node = f.node) : Went s m f rest .finish
    ({ m with frames := rest, record := s.noteFinish m.record g v }.handDown version v)

variable {s : Setting} {m : Machine} {f : Frame} {rest : List Frame} {a : Step}

theorem went_apply (o : Operation)
    (plain : ∀ count, o = .call count → ∀ v ∈ f.values, v.Every fun _ => False) :
    Went s m f rest (.apply o) (m.apply s { f with cursor := f.cursor + 1 } rest o) := by
  have go {g : Frame} {o : Operation} (node : g.node = f.node) (steps : g.steps = f.steps)
      (cursor : g.cursor = f.cursor + 1) : Went s m f rest (.apply o) (m.put g rest) :=
    .on (k := 0) rfl node steps (by simp only [Step.leads, cursor]; exact List.mem_singleton.2 rfl)
      (by simp) rfl rfl rfl
  cases o with
  | call count =>
    simp only [apply]
    split
    · exact .failed _
    split
    · rename_i target values hv
      unfold applyCallee
      split
      · exact go rfl rfl rfl
      · rename_i c hc
        obtain ⟨rfl, -⟩ := callee_eq_body hc
        have hmem : .function c ∈ f.values := List.mem_of_mem_drop (hv ▸ List.mem_cons_self)
        exact (Value.every_function.1 (plain count rfl _ hmem)).elim
    · exact .failed _
  | binary | unary | property =>
    simp only [apply]
    split
    · exact go rfl rfl rfl
    · exact .failed _
  | makeList | makeStruct =>
    simp only [apply]
    split
    · exact .failed _
    · exact go rfl rfl rfl
  | lookup | makeFunction | previous | fail => exact go rfl rfl rfl

theorem went_execute (a : Step)
    (plain : ∀ count, a = .apply (.call count) → ∀ v ∈ f.values, v.Every fun _ => False) :
    Went s m f rest a (m.execute s { f with cursor := f.cursor + 1 } rest a) := by
  have go {a : Step} {g : Frame} {m' : Machine} {k' : Nat} (frames : m'.frames = g :: rest)
      (node : g.node = f.node) (steps : g.steps = f.steps)
      (leads : (g.cursor, k') ∈ a.leads f.cursor 0 f.steps.length) (other : ∀ j, a ≠ .evaluate j)
      (record : m'.record = m.record) (started : m'.started = m.started) : Went s m f rest a m' :=
    .on frames node steps leads other (by rw [record]) (by rw [record]) started
  cases a with
  | push v => exact go rfl rfl rfl (.head _) (by simp) rfl rfl
  | evaluate j =>
    simp only [execute]
    split
    · exact .failed _
    · exact .entered ‹_›
  | apply o => exact went_apply o fun count ho => plain count (congrArg Step.apply ho)
  | fetch stream mode =>
    have hr := fetch_record s m.record f.node stream mode
    simp only at hr
    exact .on (k := 0) rfl rfl rfl (.head _) (by simp) hr.1 hr.2.2.1 rfl
  | define name =>
    simp only [execute]
    split
    · exact go rfl rfl rfl (.head _) (by simp) rfl rfl
    · exact .failed _
  | discard =>
    simp only [execute]
    split
    · exact go rfl rfl rfl (.head _) (by simp) rfl rfl
    · exact .failed _
  | enterScope => exact go rfl rfl rfl (.head _) (by simp) rfl rfl
  | jump target => exact go rfl rfl rfl (.head _) (by simp) rfl rfl
  | jumpIfFalse target =>
    simp only [execute]
    split
    · unfold branch
      split
      · exact go rfl rfl rfl (.head _) (by simp) rfl rfl
      · exact go rfl rfl rfl (.tail _ (.head _)) (by simp) rfl rfl
      · exact go rfl rfl rfl (.tail _ (.tail _ (.head _))) (by simp) rfl rfl
      · exact go rfl rfl rfl (.tail _ (.tail _ (.head _))) (by simp) rfl rfl
    · exact .failed _
  | jumpIfInitialized target =>
    simp only [execute]
    split
    · exact go rfl rfl rfl (.tail _ (.head _)) (by simp) rfl rfl
    · exact go rfl rfl rfl (.head _) (by simp) rfl rfl
  | finish =>
    simp only [execute]
    split
    · exact .finished _ rfl
    · exact .failed _

/-- The frame below has just come to the node of the one above. -/
def Nests (t : Tree) (frames : List Frame) : Prop :=
  frames.IsChain fun f g => g.evaluated? t = some f.node

/-- A machine has attended to the binds that it has run: it knows whether they differ, and so does the
frame on top. -/
structure Attended (s : Setting) (D : Deeds) (m : Machine) : Prop where
  notes : s.Notes m.record
  bound : ∀ {x i v}, .binds x i v ∈ D → s.program.tree.kindIs NodeKind.isBind i = true →
    m.record.Knows i
  nests : Nests s.program.tree m.frames
  informed : ∀ f ∈ m.frames.head?, f.Informed s m.record
  fresh : m.started = true ∨ m.frames = []

namespace Attended

variable {D : Deeds} {m' : Machine} {i : NodeId} {x : ScopeId} {g : Frame}

/-- Another frame for the same node on top. -/
theorem nests_replace {t : Tree} (h : Nests t (f :: rest)) (node : g.node = f.node) :
    Nests t (g :: rest) := by
  obtain ⟨below, h⟩ := List.isChain_cons.1 h
  exact List.isChain_cons.2 ⟨fun k hk => node ▸ below k hk, h⟩

theorem of_eq (h : m.Attended s D) (frames : m'.frames = m.frames)
    (writes : m'.record.writes = m.record.writes)
    (binds : m'.record.bindsChanged = m.record.bindsChanged) (started : m'.started = m.started) :
    m'.Attended s D where
  notes := h.notes.of_eq writes binds
  bound hd hb := by
    rw [Record.Knows, binds]
    exact h.bound hd hb
  nests := frames ▸ h.nests
  informed f hf := (h.informed f (frames ▸ hf)).of_eq rfl rfl rfl binds
  fresh := by
    rw [frames, started]
    exact h.fresh

theorem start (s : Setting) (scopes : Scopes) : (Machine.start scopes).Attended s [] :=
  ⟨.empty s, by simp, .nil, by simp [Machine.start], .inr rfl⟩

section Done

/-! The node `i` is done, and the frame on top has come to it right before. -/

variable (notes : s.Notes m.record)
  (bound : ∀ {x i v}, .binds x i v ∈ D → s.program.tree.kindIs NodeKind.isBind i = true →
    m.record.Knows i)
  (nests : Nests s.program.tree m.frames)
  (steps : ∀ f ∈ m.frames.head?, f.steps = s.program.tree.steps f.node)
  (evaluated : ∀ f ∈ m.frames.head?, f.evaluated? s.program.tree = some i)
  (started : m.started = true)
include notes bound nests steps evaluated started

theorem handDown (known : s.program.tree.kindIs NodeKind.isBind i = true → m.record.Knows i)
    (version : Option Nat) (v : Value) : (m.handDown version v).Attended s D := by
  unfold Machine.handDown
  split
  · rename_i hm
    exact ⟨notes, bound, hm ▸ .nil, by simp [conclude, hm], .inl started⟩
  · rename_i f rest hm
    rw [hm] at nests steps evaluated
    refine ⟨notes, bound, nests_replace nests rfl, fun g hg => ?_, .inl started⟩
    obtain rfl := Option.some.inj hg
    exact (Frame.Informed.of_evaluated (steps f rfl) (evaluated f rfl) known).of_eq rfl rfl rfl rfl

theorem enter (inside : i < s.program.tree.size) (x : ScopeId) : (m.enter s i x).Attended s D := by
  unfold Machine.enter
  split
  · rename_i v hr
    exact handDown (m := m.setRecord (s.noteReuse m.record i)) (notes.reuse hr)
      (fun hd hb => Setting.knows_noteReuse i (bound hd hb)) nests steps evaluated started
      Setting.noteReuse_knows none v
  · rename_i hr
    have binds : (m.record.countEvaluation i).bindsChanged = m.record.bindsChanged := rfl
    rw [call_of_lt inside]
    refine ⟨notes.of_eq rfl binds, bound, List.isChain_cons.2 ⟨evaluated, nests⟩, ?_, .inl started⟩
    rintro f hf
    obtain rfl := Option.some.inj hf
    exact .start (Setting.reuse?_congr binds i ▸ hr)

end Done

theorem binds_of_deedOf? {v : Value} (h : m.deedOf? s f a = some (.binds x i v)) :
    (∃ name, a = .define name) ∧ f.evaluated? s.program.tree = some i := by
  cases a with
  | define name =>
    simp only [deedOf?] at h
    split at h
    · cases h
      exact ⟨⟨name, rfl⟩, ‹_›⟩
    · cases h
  | apply o =>
    cases o with
    | call count =>
      simp only [deedOf?] at h
      split at h
      · split at h
        · split at h <;> cases h
        · cases h
      · cases h
    | _ => cases h
  | _ => cases h

variable (ff : s.FunctionFree) (T : m.Traced s D) (h : m.Attended s D)
include ff T h

/-- Of each bind that a node on the stack depends on it is known whether it differs. -/
theorem knows_dependency (hf : f ∈ m.frames) {b : NodeId}
    (hb : b ∈ s.program.analysis.dependencies f.node) : m.record.Knows b := by
  have o := ff.accepted.ordered
  rw [ff.program] at hb
  obtain ⟨p, e, hp, he, hbind⟩ := o.exists_precedes_of_dependency ff.tree hb
  obtain ⟨y, v, hd⟩ : ∃ y v, .binds y b v ∈ D := by
    cases T.stacked.located f hf with
    | begun _ placed => exact placed.exists_binds o ff.accepted.parent_root ff.tree hp he hbind
    | inside _ _ placed _ _ =>
      exact placed.exists_binds o ff.accepted.parent_root ff.tree hp he hbind
  exact h.bound hd hbind

theorem execute (hm : m.frames = f :: rest) (ha : f.steps[f.cursor]? = some a) (started : m.started = true) :
    (m.execute s { f with cursor := f.cursor + 1 } rest a).Attended s
      ((m.deedOf? s f a).toList ++ D) := by
  have hf : f ∈ m.frames := hm ▸ List.mem_cons_self
  have hsteps := T.stacked.steps f hf
  have hinformed := h.informed f (by simp [hm])
  have hnests := hm ▸ h.nests
  obtain ⟨hbelow, hrest⟩ := List.isChain_cons.1 hnests
  have bound {x i v} (hd : .binds x i v ∈ (m.deedOf? s f a).toList ++ D)
      (hb : s.program.tree.kindIs NodeKind.isBind i = true) : m.record.Knows i := by
    rcases List.mem_append.1 hd with hd | hd
    · obtain ⟨⟨name, rfl⟩, hi⟩ := binds_of_deedOf? (by simpa using hd)
      have meets := Tree.meets_of_mem_steps _ (hsteps ▸ List.mem_of_getElem? ha)
      exact hinformed.block meets i hi hb
    · exact h.bound hd hb
  have plain (v : Value) (hv : v ∈ f.values) : v.Every fun _ => False :=
    (T.functions.values f hf v hv).mono fun c hc => by
      have := ff.tree c.function
      simp [Tree.isFunction, hc.kind] at this
  have went : Went s m f rest a (m.execute s { f with cursor := f.cursor + 1 } rest a) :=
    went_execute a fun _ _ => plain
  generalize m.execute s { f with cursor := f.cursor + 1 } rest a = m' at went
  cases went with
  | failed fault => exact ⟨h.notes, bound, h.nests, h.informed, h.fresh⟩
  | on frames node steps leads other writes binds hstarted =>
    refine ⟨h.notes.of_eq writes binds, fun hd hb => ?_, ?_, fun k hk => ?_, .inl ?_⟩
    · rw [Record.Knows, binds]
      exact bound hd hb
    · rw [frames]
      exact nests_replace hnests node
    · rw [frames] at hk
      obtain rfl := Option.some.inj hk
      exact hinformed.leads hsteps ha node steps leads other binds
    · rw [hstarted, started]
  | @entered j i child =>
    refine enter (m := m.put { f with cursor := f.cursor + 1 } rest) h.notes bound
      (nests_replace hnests rfl) ?_ ?_ started
      (ff.accepted.ordered.child_lt_size (List.mem_of_getElem? child)) f.scope
    · rintro k hk
      obtain rfl := Option.some.inj hk
      exact hsteps
    · rintro k hk
      obtain rfl := Option.some.inj hk
      simp [Frame.evaluated?, ha, child]
  | @finished v version g node =>
    refine handDown (m := { m with frames := rest, record := s.noteFinish m.record g v })
      (i := f.node) (h.notes.finish g v ?_)
      (fun hd hb => Setting.knows_noteFinish g v (bound hd hb)) hrest ?_ hbelow started ?_ version v
    · rw [node]
      exact fun b hb => knows_dependency ff T h hf hb
    · intro k hk
      exact T.stacked.steps k (hm ▸ List.mem_cons_of_mem _ (List.mem_of_mem_head? hk))
    · rw [← node]
      exact fun hb => Setting.noteFinish_knows hb v

theorem tick : (m.tick s false).Attended s ((m.deed? s).toList ++ D) := by
  unfold Machine.tick deed?
  split
  · exact h
  simp only [Bool.false_eq_true, if_false]
  split
  · rename_i hstarted
    have hempty : m.frames = [] := h.fresh.resolve_left (by simpa using hstarted)
    refine enter (m := { (m.openScope s.globals).2 with started := true }) h.notes
      (fun hd hb => h.bound (by simpa using hd) hb) h.nests ?_ ?_ rfl
      (ff.root ▸ ff.accepted.root_lt) _ <;>
    · intro f hf
      have hf : f ∈ m.frames.head? := hf
      simp [hempty] at hf
  split
  · exact ⟨h.notes, h.bound, .nil, by simp [cutOff], .inr rfl⟩
  have hstarted : m.started = true := by simp_all
  unfold step
  cases hm : m.frames with
  | nil =>
    have : (m.setRecord m.record.countStep).frames = [] := hm
    simp only [this]
    exact h.of_eq rfl rfl rfl rfl
  | cons f rest =>
    have hm' : (m.setRecord m.record.countStep).frames = f :: rest := hm
    simp only [hm']
    cases ha : f.steps[f.cursor]? with
    | none => exact h.of_eq rfl rfl rfl rfl
    | some a =>
      have counted : (m.setRecord m.record.countStep).Traced s D :=
        T.keep rfl (T.functions.of_eq rfl rfl) T.stacked
      exact execute (m := m.setRecord m.record.countStep) ff counted (h.of_eq rfl rfl rfl rfl)
        hm' ha hstarted

end Attended

/-- However far a pass has come, it has attended to all binds that it has run. -/
theorem attended_run {base : Scopes} (ff : s.FunctionFree) (hn : base.Nested)
    (hg : s.globals < base.all.size) (hb : base.Every fun _ => False) (n : Nat) :
    let D := (Machine.start base).deeds s n
    ((Machine.start base).run s false n).Traced s D ∧
      ((Machine.start base).run s false n).Attended s D := by
  have founded := Setting.founded_nil ff.accepted ff.program ff.root hn hg ff.values hb
  have traced (k : Nat) := founded.traced k
  simp only [List.append_nil] at traced
  refine ⟨traced n, ?_⟩
  induction n with
  | zero => exact .start s base
  | succ n ih =>
    rw [run_add, run_succ, run_zero]
    exact Attended.tick ff (traced n) ih

end Machine
end StreamLang
