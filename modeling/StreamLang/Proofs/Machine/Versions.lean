import StreamLang.Proofs.Machine.Confinement
import StreamLang.Proofs.Machine.Once
import StreamLang.Proofs.Machine.Whole
import StreamLang.Proofs.Tree.Plain
/-!
Which version of a stream is written for a node. In a tree in which every node that runs runs all its
parts, it is the newest among the streams that were read in this pass within the node. What was read in
an earlier pass, for a part whose committed value was used again, is left out. Main statements:
`written_newest` and, for a pass from scratch, `written_from_scratch`.
-/
namespace StreamLang

/-- The greatest of some numbers, none if there are none. -/
def IsNewest (version : Option Nat) (P : Nat → Prop) : Prop :=
  match version with
  | none => ∀ k, ¬ P k
  | some k => P k ∧ ∀ l, P l → l ≤ k

namespace IsNewest

variable {a b : Option Nat} {P Q : Nat → Prop}

theorem congr (h : IsNewest a P) (hPQ : ∀ k, P k ↔ Q k) : IsNewest a Q := by
  obtain rfl : P = Q := funext fun k => propext (hPQ k)
  exact h

theorem newer (h : IsNewest a P) (h' : IsNewest b Q) :
    IsNewest (Frame.newer a b) fun k => P k ∨ Q k := by
  cases a with
  | none =>
    rw [Frame.none_newer]
    exact h'.congr fun k => ⟨.inr, fun hk => hk.resolve_left (h k)⟩
  | some k =>
    cases b with
    | none => exact h.congr fun l => ⟨.inl, fun hl => hl.resolve_right (h' l)⟩
    | some l =>
      refine ⟨?_, fun n hn => ?_⟩
      · rcases Nat.le_total k l with hkl | hkl
        · rw [Nat.max_eq_right hkl]
          exact .inr h'.1
        · rw [Nat.max_eq_left hkl]
          exact .inl h.1
      · rcases hn with hn | hn
        · exact Nat.le_trans (h.2 n hn) (Nat.le_max_left k l)
        · exact Nat.le_trans (h'.2 n hn) (Nat.le_max_right k l)

theorem unique (h : IsNewest a P) (h' : IsNewest b P) : a = b := by
  cases a with
  | none =>
    cases b with
    | none => rfl
    | some l => exact absurd h'.1 (h l)
  | some k =>
    cases b with
    | none => exact absurd h.1 (h' k)
    | some l => rw [Nat.le_antisymm (h'.2 k h.1) (h.2 l h'.1)]

end IsNewest

namespace Tree

/-- A plain tree without conditionals: every node that works runs all its parts. -/
structure Steady (t : Tree) : Prop where
  plain : t.Plain
  unconditional : ∀ i, t.kind? i ≠ some .conditional

/-- Running `i` from scratch comes to these nodes: a node that works runs its parts. -/
inductive Comes (t : Tree) (i : NodeId) : NodeId → Prop where
  | refl : Comes t i i
  | part {j c : NodeId} {n : Node} (h : Comes t i j) (hj : t.Working j n) (hc : c ∈ n.children) :
    Comes t i c

namespace Comes

variable {t : Tree} {i j c : NodeId} {n : Node}

theorem within (h : t.Comes i j) : t.Within i j := by
  induction h with
  | refl => exact .refl i
  | part _ hj hc ih => exact ih.trans (Within.child (hj.children ▸ hc))

theorem head (hi : t.Working i n) (hc : c ∈ n.children) (h : t.Comes c j) : t.Comes i j := by
  induction h with
  | refl => exact .part .refl hi hc
  | part _ hj hd ih => exact .part ih hj hd

theorem cases_head (h : t.Comes i j) : i = j ∨ ∃ n c, t.Working i n ∧ c ∈ n.children ∧ t.Comes c j := by
  induction h with
  | refl => exact .inl rfl
  | part hij hj hd ih =>
    right
    rcases ih with rfl | ⟨n, c, hi, hc, h⟩
    · exact ⟨_, _, hj, hd, .refl⟩
    · exact ⟨n, c, hi, hc, .part h hj hd⟩

theorem iff_of_working (hi : t.Working i n) :
    t.Comes i j ↔ i = j ∨ ∃ c ∈ n.children, t.Comes c j := by
  constructor
  · intro h
    rcases h.cases_head with h | ⟨m, c, hm, hc, h⟩
    · exact .inl h
    · obtain rfl := hi.unique hm
      exact .inr ⟨c, hc, h⟩
  · rintro (rfl | ⟨c, hc, h⟩)
    · exact .refl
    · exact h.head hi hc

end Comes
end Tree

namespace Record

/-- What a pass has written for a node. -/
def write? (r : Record) (i : NodeId) : Option Write := Assoc.get? i r.writes

/-- The node was run in the pass, to its end. -/
def Ran (r : Record) (i : NodeId) : Prop := (r.write? i).isSome = true

theorem write?_noteFinish (s : Setting) (r : Record) (f : Frame) (v : Value) (i : NodeId) :
    (s.noteFinish r f v).write? i = if f.node = i then
      some ⟨v, !s.program.analysis.isVolatile f.node,
        s.program.tree.kind? f.node == some .reaction, f.streamVersion⟩ else r.write? i := by
  rw [write?, s.noteFinish_writes, Assoc.get?_put]
  rfl

theorem write?_congr {r r' : Record} (h : r'.writes = r.writes) (i : NodeId) :
    r'.write? i = r.write? i := by rw [write?, h, write?]

end Record

namespace Setting

/-- The node reads a stream that stands at this version in the snapshot. -/
def ReadsAt (s : Setting) (j : NodeId) (k : Nat) : Prop :=
  ∃ n stream mode e, s.program.tree.Working j n ∧ Machine.reads? n.kind = some (stream, mode) ∧
    s.snapshot.get? stream = some e ∧ e.version = k

/-- The newest version of a stream that is read at some of the nodes which running `is` from scratch
comes to. -/
def Newest (s : Setting) (ran : NodeId → Prop) (is : List NodeId) (version : Option Nat) : Prop :=
  IsNewest version fun k => ∃ i ∈ is, ∃ j, s.program.tree.Comes i j ∧ ran j ∧ s.ReadsAt j k

/-- All streams that running `i` from scratch reads, have been read at these nodes. -/
def AllRead (s : Setting) (ran : NodeId → Prop) (i : NodeId) : Prop :=
  ∀ j k, s.program.tree.Comes i j → s.ReadsAt j k → ran j

variable {s : Setting} {ran ran' : NodeId → Prop} {is : List NodeId} {version : Option Nat}

theorem Newest.congr (h : s.Newest ran is version)
    (same : ∀ i ∈ is, ∀ j, s.program.tree.Comes i j → (ran j ↔ ran' j)) :
    s.Newest ran' is version :=
  IsNewest.congr h fun k => by
    constructor
    · rintro ⟨i, hi, j, hj, hran, hk⟩
      exact ⟨i, hi, j, hj, (same i hi j hj).1 hran, hk⟩
    · rintro ⟨i, hi, j, hj, hran, hk⟩
      exact ⟨i, hi, j, hj, (same i hi j hj).2 hran, hk⟩

/-- If no reader was left out, the version is what it is from scratch. -/
theorem Newest.all {i : NodeId} (h : s.Newest ran [i] version) (all : s.AllRead ran i) :
    s.Newest (fun _ => True) [i] version :=
  IsNewest.congr h fun k => by
    constructor
    · rintro ⟨i, hi, j, hj, -, hk⟩
      exact ⟨i, hi, j, hj, trivial, hk⟩
    · rintro ⟨i', hi, j, hj, -, hk⟩
      obtain rfl := List.mem_singleton.1 hi
      exact ⟨i', hi, j, hj, all j k hj hk, hk⟩

end Setting

namespace Machine

/-- What comes of running some nodes, with this version handed down: only what running them comes to is
written; the version is that of what was read; each of them ran or had a committed value; and the same
holds of every node within them that was run. -/
structure Accounts (s : Setting) (is : List NodeId) (σ σ' : State) (version : Option Nat) : Prop where
  outside : ∀ j, (∀ i ∈ is, ¬ s.program.tree.Comes i j) → σ'.record.write? j = σ.record.write? j
  newest : s.Newest σ'.record.Ran is version
  entered : ∀ i ∈ is, σ'.record.Ran i ∨ (s.cache.reusable? i).isSome = true
  written : ∀ i ∈ is, ∀ j, s.program.tree.Within i j → ∀ w, σ'.record.write? j = some w →
    s.Newest σ'.record.Ran [j] w.streamVersion ∧ ∀ n, s.program.tree.Working j n →
      ∀ c ∈ n.children, σ'.record.Ran c ∨ (s.cache.reusable? c).isSome = true

namespace Accounts

variable {s : Setting} {i : NodeId} {is : List NodeId} {n : Node} {σ σ₁ σ' : State} {v : Value}
  {a b version : Option Nat}

theorem nil (s : Setting) (σ : State) : Accounts s [] σ σ none where
  outside _ _ := rfl
  newest _ hk := by
    obtain ⟨i, hi, -⟩ := hk
    cases hi
  entered _ hi := by cases hi
  written _ hi := by cases hi

/-- Only the writes of the later state count. -/
theorem of_eq {τ τ' : State} (h : Accounts s is σ σ' version)
    (before : τ.record.writes = σ.record.writes) (after : τ'.record.writes = σ'.record.writes) :
    Accounts s is τ τ' version := by
  have write (j : NodeId) : τ'.record.write? j = σ'.record.write? j := Record.write?_congr after j
  have ran : τ'.record.Ran = σ'.record.Ran := funext fun j => by rw [Record.Ran, write, Record.Ran]
  refine ⟨fun j hj => ?_, ran ▸ h.newest, ran ▸ h.entered, fun i hi j hj w hw => ?_⟩
  · rw [write, h.outside j hj, Record.write?_congr before]
  · rw [write] at hw
    exact ran ▸ h.written i hi j hj w hw

/-- One node and then others that lie apart from it. -/
theorem cons (first : Accounts s [i] σ σ₁ a) (others : Accounts s is σ₁ σ' b)
    (apart : ∀ d ∈ is, ∀ j, s.program.tree.Within i j → ¬ s.program.tree.Within d j) :
    Accounts s (i :: is) σ σ' (Frame.newer a b) := by
  have kept {j : NodeId} (hj : s.program.tree.Within i j) :
      σ'.record.write? j = σ₁.record.write? j :=
    others.outside j fun d hd hdj => apart d hd j hj hdj.within
  have ran {j : NodeId} (hj : s.program.tree.Within i j) : σ'.record.Ran j ↔ σ₁.record.Ran j := by
    rw [Record.Ran, kept hj, Record.Ran]
  refine ⟨fun j hj => ?_, ?_, fun d hd => ?_, fun d hd j hj w hw => ?_⟩
  · rw [others.outside j fun d hd => hj d (List.mem_cons_of_mem _ hd)]
    exact first.outside j (by simpa using hj i List.mem_cons_self)
  · have head : s.Newest σ'.record.Ran [i] a := first.newest.congr fun i' hi' j hj => by
      obtain rfl := List.mem_singleton.1 hi'
      exact (ran hj.within).symm
    refine IsNewest.congr (IsNewest.newer head others.newest) fun k => ?_
    simp [or_and_right, exists_or]
  · rcases List.mem_cons.1 hd with rfl | hd
    · exact (first.entered d List.mem_cons_self).imp_left (ran (.refl d)).2
    · exact others.entered d hd
  · rcases List.mem_cons.1 hd with rfl | hd
    · rw [kept hj] at hw
      obtain ⟨hnewest, hparts⟩ := first.written d List.mem_cons_self j hj w hw
      refine ⟨hnewest.congr fun j' hj' k hk => ?_, fun n hn c hc => ?_⟩
      · obtain rfl := List.mem_singleton.1 hj'
        exact (ran (hj.trans hk.within)).symm
      · have hcj : s.program.tree.Within d c := hj.trans (.child (hn.children ▸ hc))
        exact (hparts n hn c hc).imp_left (ran hcj).2
    · exact others.written d hd j hj w hw

/-- A node that has a committed value and is not run. -/
theorem reuse (fresh : ∀ j, s.program.tree.Within i j → σ.record.write? j = none) {w : Value}
    (hr : s.reuse? σ.record i = some w) : Accounts s [i] σ (σ.reuse s i) none := by
  have same (j : NodeId) : (σ.reuse s i).record.write? j = σ.record.write? j :=
    Record.write?_congr (s.noteReuse_writes σ.record i) j
  refine ⟨fun j _ => same j, fun k hk => ?_, fun d hd => .inr ?_, fun d hd j hj w hw => ?_⟩
  · obtain ⟨d, hd, j, hj, hran, -⟩ := hk
    obtain rfl := List.mem_singleton.1 hd
    rw [Record.Ran, same, fresh j hj.within] at hran
    cases hran
  · obtain rfl := List.mem_singleton.1 hd
    unfold Setting.reuse? at hr
    split at hr
    · cases hr
    · split at hr
      · rw [hr]
        rfl
      · cases hr
  · obtain rfl := List.mem_singleton.1 hd
    rw [same, fresh j hj] at hw
    cases hw

variable (o : s.program.tree.Ordered)
include o

/-- A node that has run all its parts and reads nothing itself. -/
theorem finish (hi : s.program.tree.Working i n) (silent : reads? n.kind = none)
    (h : Accounts s n.children σ σ₁ version) :
    Accounts s [i] σ (σ₁.finish s i version v) version := by
  have ne {c j : NodeId} (hc : c ∈ n.children) (hj : s.program.tree.Within c j) : i ≠ j := by
    rintro rfl
    exact o.not_within_parent (hi.children ▸ hc) hj
  have write (j : NodeId) := Record.write?_noteFinish s σ₁.record ⟨i, [], 0, [], 0, version⟩ v j
  have kept {j : NodeId} (hj : i ≠ j) :
      (σ₁.finish s i version v).record.write? j = σ₁.record.write? j := (write j).trans (if_neg hj)
  have ran {j : NodeId} (hj : i ≠ j) :
      (σ₁.finish s i version v).record.Ran j ↔ σ₁.record.Ran j := by
    rw [Record.Ran, kept hj, Record.Ran]
  have itself : (σ₁.finish s i version v).record.write? i = some _ := (write i).trans (if_pos rfl)
  have newest : s.Newest (σ₁.finish s i version v).record.Ran [i] version :=
    IsNewest.congr h.newest fun k => by
      constructor
      · rintro ⟨c, hc, j, hj, hran, hk⟩
        exact ⟨i, List.mem_cons_self, j, hj.head hi hc, (ran (ne hc hj.within)).2 hran, hk⟩
      · rintro ⟨i', hi', j, hj, hran, hk⟩
        obtain rfl := List.mem_singleton.1 hi'
        rcases (Tree.Comes.iff_of_working hi).1 hj with rfl | ⟨c, hc, hj⟩
        · obtain ⟨m, stream, mode, e, hm, hreads, -⟩ := hk
          rw [hi.unique hm, silent] at hreads
          cases hreads
        · exact ⟨c, hc, j, hj, (ran (ne hc hj.within)).1 hran, hk⟩
  refine ⟨fun j hj => ?_, newest, fun d hd => .inl ?_, fun d hd j hj w hw => ?_⟩
  · have hout : ¬ s.program.tree.Comes i j := hj i List.mem_cons_self
    have hij : i ≠ j := by
      rintro rfl
      exact hout .refl
    rw [kept hij]
    exact h.outside j fun c hc hcj => hout (hcj.head hi hc)
  · obtain rfl := List.mem_singleton.1 hd
    rw [Record.Ran, itself]
    rfl
  · obtain rfl := List.mem_singleton.1 hd
    rcases hj.cases_head with rfl | ⟨c, hc, hcj⟩
    · rw [itself] at hw
      obtain rfl := Option.some.inj hw
      refine ⟨newest, fun m hm c hc => ?_⟩
      obtain rfl := hi.unique hm
      exact (h.entered c hc).imp_left (ran (ne hc (.refl c))).2
    · have hc : c ∈ n.children := hi.children ▸ hc
      rw [kept (ne hc hcj)] at hw
      obtain ⟨hnewest, hparts⟩ := h.written c hc j hcj w hw
      refine ⟨hnewest.congr fun j' hj' k hk => ?_, fun m hm e he => ?_⟩
      · obtain rfl := List.mem_singleton.1 hj'
        exact (ran (ne hc (hcj.trans hk.within))).symm
      · have hce : s.program.tree.Within c e := hcj.trans (.child (hm.children ▸ he))
        exact (hparts m hm e he).imp_left (ran (ne hc hce)).2

omit o in
/-- A node that runs no part: nothing of its own was written before. -/
theorem stop (fresh : ∀ j, s.program.tree.Within i j → σ.record.write? j = none)
    (before : σ₁.record.writes = σ.record.writes)
    (partless : ∀ n, s.program.tree.Working i n → n.children = [])
    (newest : IsNewest version (s.ReadsAt i)) :
    Accounts s [i] σ (σ₁.finish s i version v) version := by
  have write (j : NodeId) := Record.write?_noteFinish s σ₁.record ⟨i, [], 0, [], 0, version⟩ v j
  have kept {j : NodeId} (hj : i ≠ j) :
      (σ₁.finish s i version v).record.write? j = σ.record.write? j :=
    ((write j).trans (if_neg hj)).trans (Record.write?_congr before j)
  have itself : (σ₁.finish s i version v).record.write? i = some _ := (write i).trans (if_pos rfl)
  have ran : (σ₁.finish s i version v).record.Ran i := by
    rw [Record.Ran, itself]
    rfl
  have only {j : NodeId} (hj : s.program.tree.Comes i j) : i = j := by
    rcases hj.cases_head with rfl | ⟨n, c, hn, hc, -⟩
    · rfl
    · rw [partless n hn] at hc
      cases hc
  have newest : s.Newest (σ₁.finish s i version v).record.Ran [i] version :=
    IsNewest.congr newest fun k => by
      constructor
      · intro hk
        exact ⟨i, List.mem_cons_self, i, .refl, ran, hk⟩
      · rintro ⟨d, hd, j, hj, -, hk⟩
        obtain rfl := List.mem_singleton.1 hd
        rwa [only hj]
  refine ⟨fun j hj => kept ?_, newest, fun d hd => .inl ?_, fun d hd j hj w hw => ?_⟩
  · rintro rfl
    exact hj i List.mem_cons_self .refl
  · obtain rfl := List.mem_singleton.1 hd
    exact ran
  · obtain rfl := List.mem_singleton.1 hd
    by_cases hdj : d = j
    · subst hdj
      rw [itself] at hw
      obtain rfl := Option.some.inj hw
      refine ⟨newest, fun n hn c hc => ?_⟩
      rw [partless n hn] at hc
      cases hc
    · rw [kept hdj, fresh j hj] at hw
      cases hw

end Accounts

/-! ### Running a node -/

section Steady

variable {s : Setting} {P : NodeId → Value → Prop} {i : NodeId} {is : List NodeId} {x : ScopeId}
  {σ σ' : State} {v : Value} {vs : List Value} {version : Option Nat}

/-- What entering a node comes to, if nothing within it was written before. -/
def Sound (s : Setting) (P : NodeId → Value → Prop) (i : NodeId) : Prop :=
  ∀ x σ v version σ', Enters s (Completes s P) i x σ v version σ' →
    (∀ j, s.program.tree.Within i j → σ.record.write? j = none) → Accounts s [i] σ σ' version

theorem EntersAll.accounts (h : EntersAll s (Completes s P) x is σ vs version σ')
    (sound : ∀ i ∈ is, Sound s P i)
    (apart : is.Pairwise fun i d => ∀ j, s.program.tree.Within i j → ¬ s.program.tree.Within d j)
    (fresh : ∀ i ∈ is, ∀ j, s.program.tree.Within i j → σ.record.write? j = none) :
    Accounts s is σ σ' version := by
  induction h with
  | nil => exact .nil s _
  | @cons i is σ v a σ₁ vs b σ' first others ih =>
    obtain ⟨hi, apart⟩ := List.pairwise_cons.1 apart
    have first := sound i List.mem_cons_self _ _ _ _ _ first (fresh i List.mem_cons_self)
    refine first.cons (ih (fun d hd => sound d (List.mem_cons_of_mem _ hd)) apart fun d hd j hj => ?_)
      fun d hd j hij => hi d hd j hij
    rw [first.outside j fun i' hi' hij => ?_]
    · exact fresh d (List.mem_cons_of_mem _ hd) j hj
    · obtain rfl := List.mem_singleton.1 hi'
      exact hi d hd j hij.within hj

theorem Statements.accounts (h : Statements s (Completes s P) x is σ v version σ')
    (sound : ∀ i ∈ is, Sound s P i)
    (apart : is.Pairwise fun i d => ∀ j, s.program.tree.Within i j → ¬ s.program.tree.Within d j)
    (fresh : ∀ i ∈ is, ∀ j, s.program.tree.Within i j → σ.record.write? j = none) :
    Accounts s is σ σ' version := by
  induction h with
  | @last i σ v version σ₁ only =>
    have only := sound i List.mem_cons_self _ _ _ _ _ only (fresh i List.mem_cons_self)
    exact only.of_eq rfl (congrArg Record.writes (bound_record ..))
  | @cons i d is σ w a σ₁ v b σ' first others ih =>
    obtain ⟨hi, apart⟩ := List.pairwise_cons.1 apart
    have first := (sound i List.mem_cons_self _ _ _ _ _ first (fresh i List.mem_cons_self)).of_eq rfl
      (congrArg Record.writes (bound_record s x i w σ₁))
    refine first.cons (ih (fun d hd => sound d (List.mem_cons_of_mem _ hd)) apart fun d hd j hj => ?_)
      fun d hd j hij => hi d hd j hij
    rw [first.outside j fun i' hi' hij => ?_]
    · exact fresh d (List.mem_cons_of_mem _ hd) j hj
    · obtain rfl := List.mem_singleton.1 hi'
      exact hi d hd j hij.within hj

/-- Parts of one node lie apart. -/
theorem pairwise_apart {t : Tree} (o : t.Ordered) (p : NodeId) :
    (t.children p).Pairwise fun i d => ∀ j, t.Within i j → ¬ t.Within d j :=
  (o.nodup p).imp_of_mem fun hi hd hne _ hij hdj => hne (o.sibling_eq hi hd hij hdj)

theorem fetch_version (s : Setting) (r : Record) (i : NodeId) (stream : String) (mode : FetchMode) :
    (fetch s r i stream mode).2.1 = (s.snapshot.get? stream).map (·.version) := by
  unfold fetch
  split
  · rename_i h
    rw [h]
    rfl
  · rename_i e h
    rw [h]
    cases mode with
    | changed => rfl
    | latest =>
      simp only
      split
      · cases s.policy <;> rfl
      · rfl

/-- A reader hands down the version of its stream. -/
theorem isNewest_fetch {n : Node} {stream : String} {mode : FetchMode}
    (hi : s.program.tree.Working i n) (hk : reads? n.kind = some (stream, mode)) (r : Record) :
    IsNewest (fetch s r i stream mode).2.1 (s.ReadsAt i) := by
  have reads {k : Nat} : s.ReadsAt i k ↔ ∃ e, s.snapshot.get? stream = some e ∧ e.version = k := by
    constructor
    · rintro ⟨m, stream', mode', e, hm, hreads, he⟩
      rw [hi.unique hm, hk] at hreads
      obtain ⟨rfl, -⟩ := Prod.mk.inj (Option.some.inj hreads)
      exact ⟨e, he⟩
    · rintro ⟨e, he⟩
      exact ⟨n, stream, mode, e, hi, hk, he⟩
  rw [fetch_version]
  cases hs : s.snapshot.get? stream with
  | none =>
    intro k hr
    obtain ⟨e, he, -⟩ := reads.1 hr
    rw [hs] at he
    cases he
  | some e =>
    refine ⟨reads.2 ⟨e, hs, rfl⟩, fun l hl => ?_⟩
    obtain ⟨e', he', rfl⟩ := reads.1 hl
    rw [hs] at he'
    rw [Option.some.inj he']

theorem isNewest_none (h : ∀ n, s.program.tree.Working i n → reads? n.kind = none) :
    IsNewest none (s.ReadsAt i) := by
  rintro k ⟨n, stream, mode, e, hn, hreads, -⟩
  rw [h n hn] at hreads
  cases hreads

/-- Entering a node of a steady tree writes, for it and for all that is run within it, the newest version
that was read there. -/
theorem sound_of_steady (steady : s.program.tree.Steady) (hi : i < s.program.tree.size) :
    Sound s P i := by
  have o := steady.plain.ordered
  -- Inwards, as parts have smaller numbers. The kinds only differ in how they come to their parts.
  induction i using Nat.strong_induction_on with
  | _ i ih =>
  intro x σ v version σ' h fresh
  unfold Enters at h
  split at h
  · rename_i w hr
    obtain ⟨-, rfl, rfl⟩ := h
    exact .reuse fresh hr
  replace h := completes_iff.1 h.2
  rcases Tree.fault_or_working (Tree.lt_size_iff.1 hi) with ⟨kind, message, hf⟩ | ⟨n, hw⟩
  · obtain ⟨-, -, rfl, rfl⟩ := (follows_fault hf).1 h
    have idle (m : Node) (hm : s.program.tree.Working i m) : False := by
      simp [Tree.fault?, hm.node, hm.free, hm.fits] at hf
    exact .stop fresh rfl (fun m hm => (idle m hm).elim) (isNewest_none fun m hm => (idle m hm).elim)
  have partless (hc : n.children = []) (m : Node) (hm : s.program.tree.Working i m) :
      m.children = [] := by rw [hw.unique hm, hc]
  have sound (c : NodeId) (hc : c ∈ n.children) : Sound s P c := by
    have hlt := o.child_lt (hw.children ▸ hc)
    exact ih c hlt (Nat.lt_trans hlt hi)
  have apart := pairwise_apart o i
  rw [hw.children] at apart
  have freshParts (c : NodeId) (hc : c ∈ n.children) (j : NodeId) (hj : s.program.tree.Within c j) :
      σ.record.write? j = none := fresh j ((Tree.Within.child (hw.children ▸ hc)).trans hj)
  have leaf (hu : (leaf? s i n x (σ.enter i).scopes).isSome) (hfits : Tree.fits n.kind n.children.length =
      (n.children.length == 0)) (silent : reads? n.kind = none) : Accounts s [i] σ σ' version := by
    obtain ⟨u, hu⟩ := Option.isSome_iff_exists.1 hu
    obtain ⟨-, -, rfl, rfl⟩ := (follows_leaf hw hu).1 h
    have hc : n.children = [] := by simpa [hfits] using hw.fits
    exact .stop fresh rfl (partless hc) (isNewest_none fun m hm => by rw [hw.unique hm, silent])
  have read {stream : String} {mode : FetchMode} (hr : reads? n.kind = some (stream, mode))
      (hfits : Tree.fits n.kind n.children.length = (n.children.length == 0)) :
      Accounts s [i] σ σ' version := by
    obtain ⟨-, -, rfl, rfl⟩ := (follows_read hw hr).1 h
    have hc : n.children = [] := by simpa [hfits] using hw.fits
    exact .stop fresh (fetch_record s (σ.enter i).record i stream mode).1 (partless hc)
      (isNewest_fetch hw hr _)
  have gather (hg : gathers n.kind = true) (silent : reads? n.kind = none) :
      Accounts s [i] σ σ' version := by
    obtain ⟨vs, σ₁, hall, -, -, rfl⟩ := (follows_gather hw hg).1 h
    have hall : Accounts s n.children (σ.enter i) σ₁ version := hall.accounts sound apart freshParts
    exact (hall.of_eq (τ := σ) rfl rfl).finish o hw silent
  have plain := steady.plain.working_isPlain hw
  cases hk : n.kind
  case program | bind | list | struct | property | binary | unary =>
    exact gather (by rw [hk]; rfl) (by rw [hk]; rfl)
  case stream | changed => exact read (by rw [hk]; rfl) (by rw [hk]; rfl)
  case number | text | boolean | placeholder | reference =>
    exact leaf (by simp only [leaf?, hk, Option.isSome_some]) (by rw [hk]; rfl) (by rw [hk]; rfl)
  case function | call | reaction | previous => simp [hk, NodeKind.isPlain] at plain
  case conditional => exact absurd (hw.kind.trans (congrArg some hk)) (steady.unconditional i)
  case block =>
    obtain ⟨σ₁, hs, -, rfl⟩ := (follows_block hw hk).1 h
    have hs : Accounts s n.children ((σ.enter i).openScope x) σ₁ version :=
      hs.accounts sound apart freshParts
    exact (hs.of_eq (τ := σ) rfl rfl).finish o hw (by rw [hk]; rfl)

end Steady

/-! ### Whole runs -/

/-- There is one write for a node, the last one. -/
theorem nodup_invariant (s : Setting) : Invariant s fun m => (Assoc.keys m.record.writes).Nodup where
  cutOff _ _ h := h
  enterRoot m h := by rwa [enterRoot, writes_enter]
  countStep _ h := h
  fail _ _ h := h
  moved m f rest a m' h _ _ hmoved := by
    cases hmoved with
    | failed | resumed | defined | opened => exact h
    | called => rwa [writes_call]
    | read =>
      simp only [put, setRecord]
      rwa [(fetch_record ..).1]
    | entered => rwa [writes_enter]
    | finished =>
      rw [record_handDown]
      simp only [s.noteFinish_writes]
      exact Assoc.nodup_keys_put h _ _

theorem write?_of_mem {scopes : Scopes} {n : Nat} {i : NodeId} {w : Write}
    (h : (i, w) ∈ ((start scopes).run s false n).record.writes) :
    ((start scopes).run s false n).record.write? i = some w := by
  have empty : (Assoc.keys (start scopes).record.writes).Nodup := List.nodup_nil
  exact Assoc.get?_of_mem ((nodup_invariant s).run empty false n) h

/-- If no value of an earlier pass can stand in for what running a node comes to, and the node was run,
then all that was run as well. -/
theorem Accounts.ran_of_comes {s : Setting} {is : List NodeId} {σ σ' : State} {version : Option Nat}
    {r i j : NodeId} (h : Accounts s is σ σ' version) (o : s.program.tree.Ordered) (hr : r ∈ is)
    (hri : s.program.tree.Within r i) (hi : σ'.record.Ran i) (hj : s.program.tree.Comes i j)
    (unused : ∀ j, s.program.tree.Comes i j → j ≠ i → s.cache.reusable? j = none) :
    σ'.record.Ran j := by
  induction hj with
  | refl => exact hi
  | @part j c n hij hw hc ih =>
    obtain ⟨w, hj⟩ := Option.isSome_iff_exists.1 ih
    refine ((h.written r hr j (hri.trans hij.within) w hj).2 n hw c hc).resolve_right fun hu => ?_
    have hcj : c ∈ s.program.tree.children j := hw.children ▸ hc
    have hne : c ≠ i := by
      rintro rfl
      exact o.not_within_parent hcj hij.within
    rw [unused c (hij.part hw hc) hne] at hu
    cases hu

section Whole

variable {s : Setting} {scopes : Scopes} {k : Nat} {i : NodeId} {w : Write}
  (steady : s.program.tree.Steady) (hroot : s.root < s.program.tree.size)
include steady hroot

/-- What a run from the start that ends with a value comes to. -/
theorem exists_accounts (hv : ((start scopes).run s false k).endValue?.isSome) :
    ∃ σ' version, ((start scopes).run s false k).record.writes = σ'.record.writes ∧
      Accounts s [s.root] (State.initial s scopes) σ' version := by
  obtain ⟨v, hv⟩ := Option.isSome_iff_exists.1 hv
  obtain ⟨n, version, σ', he, hm⟩ :=
    enters_of_run (P := fun _ _ => True) (fun _ _ _ _ _ => trivial) hv
  refine ⟨σ', version, by rw [hm]; rfl, ?_⟩
  exact sound_of_steady steady hroot _ _ _ _ _ he fun _ _ => rfl

/-- Only nodes are written to which running the root from scratch comes. -/
theorem comes_of_written (hv : ((start scopes).run s false k).endValue?.isSome)
    (hw : ((start scopes).run s false k).record.write? i = some w) :
    s.program.tree.Comes s.root i := by
  obtain ⟨σ', version, hm, h⟩ := exists_accounts steady hroot hv
  by_contra hi
  rw [Record.write?_congr hm, h.outside i (by simpa using hi)] at hw
  cases hw

/-- What is written for a node has the newest version that was read, in this run, within it. If no value
of an earlier pass can stand in for a part of it, that is all that could be read. -/
theorem written_newest (hv : ((start scopes).run s false k).endValue?.isSome)
    (hw : ((start scopes).run s false k).record.write? i = some w) :
    s.Newest ((start scopes).run s false k).record.Ran [i] w.streamVersion ∧
      ((∀ j, s.program.tree.Comes i j → j ≠ i → s.cache.reusable? j = none) →
        ∀ j, s.program.tree.Comes i j → ((start scopes).run s false k).record.Ran j) := by
  have hi := (comes_of_written steady hroot hv hw).within
  obtain ⟨σ', version, hm, h⟩ := exists_accounts steady hroot hv
  have ran : ((start scopes).run s false k).record.Ran = σ'.record.Ran :=
    funext fun j => by rw [Record.Ran, Record.write?_congr hm, Record.Ran]
  rw [Record.write?_congr hm] at hw
  rw [ran]
  refine ⟨(h.written _ List.mem_cons_self i hi w hw).1, fun unused j hj => ?_⟩
  refine h.ran_of_comes steady.plain.ordered List.mem_cons_self hi ?_ hj unused
  rw [Record.Ran, hw]
  rfl

/-- With an empty cache and budget enough, all is written that running the root comes to, each with the
newest version that there is within it. -/
theorem written_from_scratch (scopes : Scopes) (empty : s.cache = .empty)
    (hi : s.program.tree.Comes s.root i) :
    ∃ needed, ∀ budget, needed ≤ budget →
      ∃ w, ((start scopes).finish { s with budget } false).record.write? i = some w ∧
        s.Newest (fun _ => True) [i] w.streamVersion := by
  obtain ⟨v, version, σ', he⟩ := exists_enters (P := fun _ _ => True) rfl steady.plain.ordered
    steady.plain.callFree (fun _ _ => trivial) hroot (scopes.addChild s.globals).1 (State.initial s scopes)
  obtain ⟨needed, h⟩ := finish_of_enters he
  refine ⟨needed, fun budget hb => ?_⟩
  have hv : (((start scopes).finish { s with budget } false).endValue?).isSome := by
    rw [endValue?, terminal?, h budget hb]
    simp [value?_ofValue]
  have unused (j : NodeId) : { s with budget }.cache.reusable? j = none := by
    simp [empty, Cache.reusable?]
  obtain ⟨σ', version, hm, ha⟩ := exists_accounts (s := { s with budget }) steady hroot hv
  have hran := (ha.entered _ List.mem_cons_self).resolve_right (by simp [unused])
  have hran := ha.ran_of_comes steady.plain.ordered List.mem_cons_self (.refl _) hran hi fun j _ _ => unused j
  obtain ⟨w, hw⟩ := Option.isSome_iff_exists.1 hran
  have hw : ((start scopes).finish { s with budget } false).record.write? i = some w := by
    rwa [finish, Record.write?_congr hm]
  obtain ⟨newest, all⟩ := written_newest (s := { s with budget }) steady hroot hv hw
  exact ⟨w, hw, newest.all fun j _ hj _ => all (fun j _ _ => unused j) j hj⟩

end Whole

end Machine
end StreamLang
