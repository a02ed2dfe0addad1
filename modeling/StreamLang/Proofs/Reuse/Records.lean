import StreamLang.Proofs.Machine.BigStep
import StreamLang.Proofs.Reuse.Kept
/-!
What the record of a pass is worth. Every known node that is written has its value in the world of
the pass, and whatever it has drawn on has been dealt with as well: it was written, or its
committed value is known to hold.
-/
namespace StreamLang

/-- The pass has given the node a value. -/
def Record.Wrote (r : Record) (i : NodeId) : Prop := i ∈ Assoc.keys r.writes

/-- The value that a pass has written for a node. -/
def Record.written? (r : Record) (i : NodeId) : Option Value := (Assoc.get? i r.writes).map (·.value)

/-- Nothing that was written, cleaned or noted of binds is taken back. -/
structure Record.Grows (r r' : Record) : Prop where
  wrote : ∀ i, r.Wrote i → r'.Wrote i
  cleaned : ∀ i ∈ r.cleaned, i ∈ r'.cleaned
  noted : ∀ i : NodeId, r.bindsChanged[i]? ≠ none → r'.bindsChanged[i]? ≠ none

namespace Record

variable {r r' r'' : Record} {i : NodeId} {v : Value}

theorem Grows.refl (r : Record) : r.Grows r := ⟨fun _ h => h, fun _ h => h, fun _ h => h⟩

theorem Grows.trans (h : r.Grows r') (h' : r'.Grows r'') : r.Grows r'' :=
  ⟨fun i hi => h'.wrote i (h.wrote i hi), fun i hi => h'.cleaned i (h.cleaned i hi),
    fun i hi => h'.noted i (h.noted i hi)⟩

theorem Grows.of_eq (writes : r'.writes = r.writes) (cleaned : r'.cleaned = r.cleaned)
    (binds : r'.bindsChanged = r.bindsChanged) : r.Grows r' :=
  ⟨fun i h => by rwa [Wrote, writes], fun i h => by rwa [cleaned], fun i h => by rwa [binds]⟩

theorem written?_congr (h : r'.writes = r.writes) (i : NodeId) : r'.written? i = r.written? i := by
  simp only [written?, h]

theorem mem_of_written? (h : r.written? i = some v) : ∃ w, (i, w) ∈ r.writes ∧ w.value = v := by
  obtain ⟨w, hw, rfl⟩ := Option.map_eq_some_iff.1 h
  exact ⟨w, Assoc.mem_of_get? hw, rfl⟩

theorem wrote_iff : r.Wrote i ↔ r.written? i ≠ none := by
  unfold Wrote written? Assoc.keys
  induction r.writes with
  | nil => simp [Assoc.get?]
  | cons p rest ih =>
    obtain ⟨j, w⟩ := p
    by_cases hj : j = i
    · simp [Assoc.get?, hj]
    · simpa [Assoc.get?, hj, Ne.symm hj] using ih

end Record

theorem Cache.value?_of_reusable? {c : Cache} {i : NodeId} {v : Value}
    (h : c.reusable? i = some v) : c.value? i = some v := by
  unfold reusable? at h
  unfold value?
  cases he : c.find? i with
  | none => simp [he] at h
  | some e =>
    simp only [he] at h
    split at h
    · exact h
    · cases h

namespace Setting

/-- The value that a node has in a pass: the one written for it, or else the committed one. -/
def came (s : Setting) (r : Record) (i : NodeId) : Option Value :=
  (r.written? i).or (s.cache.value? i)

theorem came_of_written {s : Setting} {r : Record} {i : NodeId} {v : Value}
    (h : r.written? i = some v) : s.came r i = some v := by
  rw [came, h]
  rfl

theorem came_of_not_written {s : Setting} {r : Record} {i : NodeId}
    (h : r.written? i = none) : s.came r i = s.cache.value? i := by
  rw [came, h]
  rfl

theorem holds_of_reuse? {s : Setting} {r : Record} {i : NodeId} {v : Value}
    (h : s.reuse? r i = some v) : s.holds r i = true ∧ s.cache.reusable? i = some v := by
  unfold reuse? at h
  split at h
  · cases h
  split at h
  · exact ⟨‹_›, h⟩
  · cases h

theorem isVolatile_of_reuse? {s : Setting} {r : Record} {i : NodeId} {v : Value}
    (h : s.reuse? r i = some v) : s.program.analysis.isVolatile i = false := by
  unfold reuse? at h
  split at h
  · cases h
  · exact Bool.eq_false_iff.2 ‹_›

theorem value?_of_reuse? {s : Setting} {r : Record} {i : NodeId} {v : Value}
    (h : s.reuse? r i = some v) : s.cache.value? i = some v :=
  Cache.value?_of_reusable? (holds_of_reuse? h).2

/-- A bind that comes out equal to its committed value has that very value. -/
def Faithful (s : Setting) (i : NodeId) (v : Value) : Prop :=
  s.program.tree.kindIs NodeKind.isBind i = true →
    ∀ u, s.cache.value? i = some u → u.equal v = true → u = v

variable (s : Setting) (r : Record)

theorem noteFinish_writes (f : Frame) (v : Value) : (s.noteFinish r f v).writes =
    Assoc.put f.node ⟨v, !s.program.analysis.isVolatile f.node,
      s.program.tree.kind? f.node == some .reaction, f.streamVersion⟩ r.writes := by
  unfold noteFinish
  simp only
  split <;> rfl

theorem noteFinish_cleaned (f : Frame) (v : Value) : (s.noteFinish r f v).cleaned = r.cleaned := by
  unfold noteFinish
  simp only
  split <;> rfl

theorem noteFinish_edgeTriggered (f : Frame) (v : Value) :
    (s.noteFinish r f v).edgeTriggered = r.edgeTriggered := by
  unfold noteFinish
  simp only
  split <;> rfl

theorem noteFinish_bindsChanged (f : Frame) (v : Value) : (s.noteFinish r f v).bindsChanged =
    if s.program.tree.kindIs NodeKind.isBind f.node then
      r.bindsChanged.insert f.node !((s.cache.value? f.node).any (·.equal v))
    else r.bindsChanged := by
  unfold noteFinish Tree.kindIs
  simp only
  split <;> rfl

theorem noteReuse_writes (i : NodeId) : (s.noteReuse r i).writes = r.writes := by
  unfold noteReuse
  split <;> split <;> rfl

theorem noteReuse_edgeTriggered (i : NodeId) :
    (s.noteReuse r i).edgeTriggered = r.edgeTriggered := by
  unfold noteReuse
  split <;> split <;> rfl

theorem noteReuse_cleaned (i : NodeId) : (s.noteReuse r i).cleaned =
    if s.staleness.isClean i then r.cleaned else r.cleaned ++ [i] := by
  unfold noteReuse
  split <;> split <;> rfl

theorem noteReuse_bindsChanged (i : NodeId) : (s.noteReuse r i).bindsChanged =
    if s.program.tree.kindIs NodeKind.isBind i then r.bindsChanged.insert i false
    else r.bindsChanged := by
  unfold noteReuse
  split <;> split <;> rfl

end Setting

namespace Machine

/-- Reading a stream leaves no trace but in what was read, and among the nodes that were told of a
change. -/
theorem fetch_record (s : Setting) (r : Record) (i : NodeId) (stream : String) (mode : FetchMode) :
    let r' := (fetch s r i stream mode).2.2
    r'.writes = r.writes ∧ r'.cleaned = r.cleaned ∧ r'.bindsChanged = r.bindsChanged ∧
      (∀ j ∈ r.edgeTriggered, j ∈ r'.edgeTriggered) ∧
      (mode = .changed → ∀ e, s.snapshot.get? stream = some e → e.changed = true →
        i ∈ r'.edgeTriggered) := by
  intro r'
  unfold r' fetch
  split
  · rename_i hn
    exact ⟨rfl, rfl, rfl, fun _ h => h, fun _ e he => by simp [hn] at he⟩
  · rename_i e he
    cases mode with
    | changed =>
      simp only
      split
      · refine ⟨rfl, rfl, rfl, fun j hj => mem_pushNew.2 (.inl hj), fun _ _ _ _ => ?_⟩
        exact mem_pushNew.2 (.inr rfl)
      · rename_i hc
        refine ⟨rfl, rfl, rfl, fun _ h => h, fun _ e' he' hc' => ?_⟩
        obtain rfl : e = e' := Option.some.inj (he.symm.trans he')
        exact absurd hc' hc
    | latest =>
      simp only
      split
      · cases s.policy <;> simp only <;> split <;> exact ⟨rfl, rfl, rfl, fun _ h => h, by simp⟩
      · split <;> exact ⟨rfl, rfl, rfl, fun _ h => h, by simp⟩

end Machine

/-- The pass has dealt with the node: it was written, or its committed value is known to hold. -/
def Settled (left : NodeId → Prop) (s : Setting) (r : Record) (i : NodeId) : Prop :=
  r.Wrote i ∨ ¬ left i ∧ (s.staleness.mark? i = none ∨ i ∈ r.cleaned)

/-- The pass has come to the node and has found its value. -/
structure Found (t : Tree) (left : NodeId → Prop) (V : NodeId → Value) (s : Setting) (r : Record)
    (i : NodeId) : Prop where
  settled : Settled left s r i
  came : s.came r i = some (V i)
  noted : t.kindIs NodeKind.isBind i = true → r.bindsChanged[i]? ≠ none

/-- Why what is committed for steady nodes at `c` or below still holds: `c` has no mark, or is in
doubt about binds that turned out the same. -/
def Upheld {t : Tree} (f : t.Focus) (left : NodeId → Prop) (V : NodeId → Value) (s : Setting)
    (r : Record) (c : NodeId) : Prop :=
  s.staleness.mark? c = none ∨ s.staleness.mark? c = some .maybeDirty ∧
    ∀ b ∈ (Analysis.ofTree t).dependencies c, f.steady b →
      Settled left s r b ∧ s.cache.value? b = some (V b)

/-- What holds of the record of a pass in a world with the values `V`. -/
structure Sound {t : Tree} (f : t.Focus) (left : NodeId → Prop) (V : NodeId → Value) (s : Setting)
    (r : Record) : Prop where
  live : ∀ i w, (i, w) ∈ r.writes → t.Live i
  flags : ∀ i w, (i, w) ∈ r.writes → w.reusable = !(Analysis.ofTree t).isVolatile i ∧
    w.reaction = (t.kind? i == some .reaction)
  write : ∀ i w, f.known i → (i, w) ∈ r.writes → w.value = V i
  draws : ∀ i m, f.known i → r.Wrote i → t.Draws s.cache.value? V i m → Settled left s r m
  /-- A reaction that was run has got the state that follows. -/
  ran : ∀ i n kept, f.Reacts i n → r.Wrote i → s.cache.value? i = some kept →
    V i = Tree.nextState i n V kept
  before : ∀ i p b c, r.Wrote i → t.Precedes p b c → t.Within c i → f.known b → Found t left V s r b
  edge : ∀ i n stream e, r.Wrote i → t.Working i n → n.kind = .changed stream →
    s.snapshot.get? stream = some e → e.changed = true → i ∈ r.edgeTriggered
  cleaned : ∀ m ∈ r.cleaned, s.staleness.mark? m ≠ none ∧ (f.steady m → ¬ left m) ∧
    ∀ c ∈ t.checked m, Upheld f left V s r c
  binds : ∀ b : NodeId, f.steady b → r.bindsChanged[b]? = some false →
    Settled left s r b ∧ s.cache.value? b = some (V b)
  /-- A bind that is said to have changed differs from what was committed. -/
  told : ∀ (b : NodeId) u, f.steady b → r.bindsChanged[b]? = some true → s.cache.value? b = some u →
    u.equal (V b) = false

variable {t : Tree} {f : t.Focus} {left : NodeId → Prop} {V : NodeId → Value} {s : Setting}
  {r r' : Record}

theorem Settled.mono {i : NodeId} (h : Settled left s r i) (grows : r.Grows r') :
    Settled left s r' i := by
  rcases h with h | ⟨hl, h | h⟩
  · exact .inl (grows.wrote i h)
  · exact .inr ⟨hl, .inl h⟩
  · exact .inr ⟨hl, .inr (grows.cleaned i h)⟩

theorem Found.mono {i : NodeId} (h : Found t left V s r i) (grows : r.Grows r')
    (write : ∀ w, (i, w) ∈ r'.writes → w.value = V i) : Found t left V s r' i where
  settled := h.settled.mono grows
  came := by
    cases hw : r'.written? i with
    | some v =>
      obtain ⟨w, hmem, rfl⟩ := Record.mem_of_written? hw
      rw [Setting.came_of_written hw, write w hmem]
    | none =>
      have hn : r.written? i = none := by
        by_contra hne
        exact Record.wrote_iff.1 (grows.wrote i (Record.wrote_iff.2 hne)) hw
      rw [Setting.came_of_not_written hw, ← Setting.came_of_not_written hn, h.came]
  noted hk := grows.noted i (h.noted hk)

theorem Upheld.mono {c : NodeId} (h : Upheld f left V s r c) (grows : r.Grows r') :
    Upheld f left V s r' c :=
  h.imp id fun ⟨hm, hd⟩ => ⟨hm, fun b hb hs => (hd b hb hs).imp_left (·.mono grows)⟩

namespace Sound

theorem empty : Sound f left V s .empty := by
  refine ⟨?_, ?_, ?_, ?_, ?_, ?_, ?_, ?_, ?_, ?_⟩ <;> simp [Record.empty, Record.Wrote, Assoc.keys]

theorem found (h : Sound f left V s r') {i : NodeId} (hi : f.known i) (grows : r.Grows r')
    (hf : Found t left V s r i) : Found t left V s r' i :=
  hf.mono grows fun w hw => h.write i w hi hw

/-- The pass has found a node if the committed value is its value and is known to hold. -/
theorem found_of_committed (h : Sound f left V s r) {i : NodeId} (hi : f.known i)
    (hs : Settled left s r i) (hv : s.cache.value? i = some (V i))
    (noted : t.kindIs NodeKind.isBind i = true → r.bindsChanged[i]? ≠ none) : Found t left V s r i where
  settled := hs
  came := by
    cases hw : r.written? i with
    | some v =>
      obtain ⟨w, hmem, rfl⟩ := Record.mem_of_written? hw
      rw [Setting.came_of_written hw, h.write i w hi hmem]
    | none => rw [Setting.came_of_not_written hw, hv]
  noted := noted

/-- What a record is worth does not depend on what it counts. -/
theorem of_eq (h : Sound f left V s r) (writes : r'.writes = r.writes)
    (cleaned : r'.cleaned = r.cleaned) (binds : r'.bindsChanged = r.bindsChanged)
    (edges : ∀ i ∈ r.edgeTriggered, i ∈ r'.edgeTriggered) : Sound f left V s r' := by
  have wrote (i : NodeId) : r'.Wrote i ↔ r.Wrote i := by rw [Record.Wrote, writes]; rfl
  have grows : r.Grows r' := .of_eq writes cleaned binds
  have hwrite (i : NodeId) (w : Write) (hi : f.known i) (hm : (i, w) ∈ r'.writes) :
      w.value = V i := h.write i w hi (writes ▸ hm)
  refine ⟨?_, ?_, hwrite, ?_, ?_, ?_, ?_, ?_, ?_, ?_⟩
  · rw [writes]
    exact h.live
  · rw [writes]
    exact h.flags
  · exact fun i m hi hw hd => (h.draws i m hi ((wrote i).1 hw) hd).mono grows
  · exact fun i n kept hr hw hk => h.ran i n kept hr ((wrote i).1 hw) hk
  · exact fun i p b c hi hp hc hb => (h.before i p b c ((wrote i).1 hi) hp hc hb).mono grows
      fun w => hwrite b w hb
  · exact fun i n stream e hi hw hk he hc => edges i (h.edge i n stream e ((wrote i).1 hi) hw hk he hc)
  · intro m hm
    obtain ⟨hmark, hl, hc⟩ := h.cleaned m (cleaned ▸ hm)
    exact ⟨hmark, hl, fun c hmem => (hc c hmem).mono grows⟩
  · intro b hs hb
    obtain ⟨hset, hv⟩ := h.binds b hs (binds ▸ hb)
    exact ⟨hset.mono grows, hv⟩
  · exact fun b u hs hb => h.told b u hs (binds ▸ hb)

/-- A node may finish: if it is known, with its value and once all that it draws on has been dealt
with. -/
theorem finish (h : Sound f left V s r) (ht : s.program = .ofTree t) {g : Frame} {v : Value}
    (live : t.Live g.node)
    (hv : f.known g.node → v = V g.node)
    (hd : f.known g.node → ∀ m, t.Draws s.cache.value? V g.node m → Settled left s r m)
    (hr : ∀ n kept, f.Reacts g.node n → s.cache.value? g.node = some kept →
      V g.node = Tree.nextState g.node n V kept)
    (hb : ∀ p b c, t.Precedes p b c → t.Within c g.node → f.known b → Found t left V s r b)
    (he : ∀ n stream e, t.Working g.node n → n.kind = .changed stream →
      s.snapshot.get? stream = some e → e.changed = true → g.node ∈ r.edgeTriggered)
    (hf : s.Faithful g.node v) :
    Sound f left V s (s.noteFinish r g v) ∧ r.Grows (s.noteFinish r g v) ∧
      (f.known g.node → Found t left V s (s.noteFinish r g v) g.node) := by
  have wrote (i : NodeId) : (s.noteFinish r g v).Wrote i ↔ r.Wrote i ∨ i = g.node := by
    rw [Record.Wrote, s.noteFinish_writes]
    exact Assoc.mem_keys_put
  have htree : s.program.tree = t := by rw [ht]; rfl
  have hcleaned := s.noteFinish_cleaned r g v
  have hedges := s.noteFinish_edgeTriggered r g v
  have hbinds (b : NodeId) : (s.noteFinish r g v).bindsChanged[b]? =
      if t.kindIs NodeKind.isBind g.node = true ∧ g.node = b then
        some !((s.cache.value? g.node).any (·.equal v))
      else r.bindsChanged[b]? := by
    rw [s.noteFinish_bindsChanged, htree]
    by_cases hk : t.kindIs NodeKind.isBind g.node = true
    · simp [hk, Std.ExtTreeMap.getElem?_insert]
    · simp [hk]
  have grows : r.Grows (s.noteFinish r g v) := by
    refine ⟨fun i h => (wrote i).2 (.inl h), fun i hi => hcleaned.symm ▸ hi, fun i hi => ?_⟩
    rw [hbinds]
    split
    · simp
    · exact hi
  have written {i : NodeId} {w : Write} (hm : (i, w) ∈ (s.noteFinish r g v).writes) :
      i = g.node ∧ w = ⟨v, !s.program.analysis.isVolatile g.node,
        s.program.tree.kind? g.node == some .reaction, g.streamVersion⟩ ∨ (i, w) ∈ r.writes := by
    rw [s.noteFinish_writes] at hm
    exact (Assoc.mem_of_mem_put hm).imp Prod.mk.inj id
  have hwrite (i : NodeId) (w : Write) (hi : f.known i) (hm : (i, w) ∈ (s.noteFinish r g v).writes) :
      w.value = V i := by
    rcases written hm with ⟨rfl, rfl⟩ | hm
    · exact hv hi
    · exact h.write i w hi hm
  have self : Settled left s (s.noteFinish r g v) g.node := .inl ((wrote _).2 (.inr rfl))
  have found (hi : f.known g.node) : Found t left V s (s.noteFinish r g v) g.node := by
    refine ⟨self, Setting.came_of_written ?_, fun hk => ?_⟩
    · rw [Record.written?, s.noteFinish_writes, Assoc.get?_put, if_pos rfl, ← hv hi]
      rfl
    · rw [hbinds, if_pos ⟨hk, rfl⟩]
      simp
  refine ⟨⟨?_, ?_, hwrite, ?_, ?_, ?_, ?_, ?_, ?_, ?_⟩, grows, found⟩
  · intro i w hm
    rcases written hm with ⟨rfl, -⟩ | hm
    · exact live
    · exact h.live i w hm
  · intro i w hm
    rcases written hm with ⟨rfl, rfl⟩ | hm
    · rw [ht]
      exact ⟨rfl, rfl⟩
    · exact h.flags i w hm
  · intro i m hi hw hdm
    rcases (wrote i).1 hw with hw | rfl
    · exact (h.draws i m hi hw hdm).mono grows
    · exact (hd hi m hdm).mono grows
  · intro i n kept hi hw hk
    rcases (wrote i).1 hw with hw | rfl
    · exact h.ran i n kept hi hw hk
    · exact hr n kept hi hk
  · intro i p b c hi hp hc hs
    refine Found.mono ?_ grows fun w => hwrite b w hs
    rcases (wrote i).1 hi with hi | rfl
    · exact h.before i p b c hi hp hc hs
    · exact hb p b c hp hc hs
  · intro i n stream e hi hw hk hse hc
    rw [hedges]
    rcases (wrote i).1 hi with hi | rfl
    · exact h.edge i n stream e hi hw hk hse hc
    · exact he n stream e hw hk hse hc
  · intro m hm
    rw [hcleaned] at hm
    obtain ⟨hmark, hl, hc⟩ := h.cleaned m hm
    exact ⟨hmark, hl, fun c hmem => (hc c hmem).mono grows⟩
  · intro b hs hb
    rw [hbinds] at hb
    split at hb
    · rename_i hbind
      obtain ⟨hbind, rfl⟩ := hbind
      refine ⟨self, ?_⟩
      -- the value came out equal to the committed one, and so it is that one
      cases hu : s.cache.value? g.node with
      | none => simp [hu] at hb
      | some u =>
        rw [hf (htree.symm ▸ hbind) u hu (by simpa [hu] using hb), hv (f.known_of_steady _ hs)]
    · exact (h.binds b hs hb).imp_left (·.mono grows)
  · intro b u hs hb hu
    rw [hbinds] at hb
    split at hb
    · rename_i hbind
      obtain ⟨-, rfl⟩ := hbind
      rw [← hv (f.known_of_steady _ hs)]
      simpa [hu] using hb
    · exact h.told b u hs hb hu

/-- A committed value may be used if all that is checked for it upholds it, and if it is, for a
known node, the value of the node. -/
theorem reuse (h : Sound f left V s r) (ht : s.program = .ofTree t) {i : NodeId}
    (hv : f.known i → ¬ left i ∧ s.cache.value? i = some (V i))
    (hc : ∀ c ∈ t.checked i, Upheld f left V s r c) :
    Sound f left V s (s.noteReuse r i) ∧ r.Grows (s.noteReuse r i) ∧
      (f.known i → Found t left V s (s.noteReuse r i) i) := by
  have hwrites := s.noteReuse_writes r i
  have htree : s.program.tree = t := by rw [ht]; rfl
  have wrote (j : NodeId) : (s.noteReuse r i).Wrote j ↔ r.Wrote j := by
    rw [Record.Wrote, hwrites]
    rfl
  have hcleaned (j : NodeId) : j ∈ (s.noteReuse r i).cleaned ↔
      j ∈ r.cleaned ∨ s.staleness.mark? i ≠ none ∧ j = i := by
    rw [s.noteReuse_cleaned, Staleness.isClean]
    cases s.staleness.mark? i <;> simp
  have hbinds (b : NodeId) : (s.noteReuse r i).bindsChanged[b]? =
      if t.kindIs NodeKind.isBind i = true ∧ i = b then some false else r.bindsChanged[b]? := by
    rw [s.noteReuse_bindsChanged, htree]
    by_cases hk : t.kindIs NodeKind.isBind i = true
    · simp [hk, Std.ExtTreeMap.getElem?_insert]
    · simp [hk]
  have grows : r.Grows (s.noteReuse r i) := by
    refine ⟨fun j => (wrote j).2, fun j hj => (hcleaned j).2 (.inl hj), fun j hj => ?_⟩
    rw [hbinds]
    split
    · simp
    · exact hj
  have hwrite (j : NodeId) (w : Write) (hj : f.known j) (hm : (j, w) ∈ (s.noteReuse r i).writes) :
      w.value = V j := h.write j w hj (hwrites ▸ hm)
  have self (hi : f.known i) : Settled left s (s.noteReuse r i) i := by
    refine .inr ⟨(hv hi).1, ?_⟩
    by_cases hn : s.staleness.mark? i = none
    · exact .inl hn
    · exact .inr ((hcleaned i).2 (.inr ⟨hn, rfl⟩))
  have sound : Sound f left V s (s.noteReuse r i) := by
    refine ⟨?_, ?_, hwrite, ?_, ?_, ?_, ?_, ?_, ?_, ?_⟩
    · rw [hwrites]
      exact h.live
    · rw [hwrites]
      exact h.flags
    · exact fun j m hj hw hd => (h.draws j m hj ((wrote j).1 hw) hd).mono grows
    · exact fun j n kept hj hw hk => h.ran j n kept hj ((wrote j).1 hw) hk
    · exact fun j p b c hj hp hw hb => (h.before j p b c ((wrote j).1 hj) hp hw hb).mono grows
        fun w => hwrite b w hb
    · intro j n stream e hj hw hk he hch
      rw [s.noteReuse_edgeTriggered]
      exact h.edge j n stream e ((wrote j).1 hj) hw hk he hch
    · intro m hmem
      rcases (hcleaned m).1 hmem with hmem | ⟨hn, rfl⟩
      · obtain ⟨hmark, hml, hup⟩ := h.cleaned m hmem
        exact ⟨hmark, hml, fun c hmc => (hup c hmc).mono grows⟩
      · exact ⟨hn, fun hs => (hv (f.known_of_steady _ hs)).1, fun c hmc => (hc c hmc).mono grows⟩
    · intro b hs hb
      rw [hbinds] at hb
      split at hb
      · rename_i hbind
        obtain ⟨-, rfl⟩ := hbind
        have hi := f.known_of_steady i hs
        exact ⟨self hi, (hv hi).2⟩
      · exact (h.binds b hs hb).imp_left (·.mono grows)
    · intro b u hs hb
      rw [hbinds] at hb
      split at hb
      · cases hb
      · exact h.told b u hs hb
  refine ⟨sound, grows, fun hi => sound.found_of_committed hi (self hi) (hv hi).2 fun hk => ?_⟩
  rw [hbinds, if_pos ⟨hk, rfl⟩]
  simp

end Sound
end StreamLang
