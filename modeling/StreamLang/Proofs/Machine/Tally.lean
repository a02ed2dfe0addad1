import Mathlib.Algebra.BigOperators.Group.Finset.Piecewise
import Mathlib.Algebra.Order.BigOperators.Group.Finset
import StreamLang.Proofs.Machine.Forward
import StreamLang.Proofs.Machine.Untouched
/-!
How often nodes are run. All that matters for it is where the frames stand, how often each node was run and
what was written (`Tally`), and there are four things that a step can do to that (`Tally.Moves`). A node that
is the body of no function in reach is run at most as often as the node around it, and a node that is run
once is written once.
-/
namespace StreamLang

/-- What is counted of a machine. -/
structure Tally where
  /-- The node and the next step of each frame, the running frame first. -/
  places : List (NodeId × Nat)
  evaluations : NodeMap Nat
  writes : Assoc NodeId Write
  steps : Nat
  /-- Whether the root has been entered. -/
  started : Bool

namespace Tally

/-- How often a node was run. -/
def count (y : Tally) (i : NodeId) : Nat := (y.evaluations[i]?).getD 0

/-- What was written for a node. -/
def write? (y : Tally) (i : NodeId) : Option Write := Assoc.get? i y.writes

/-- A node begins to run. -/
def run (y : Tally) (i : NodeId) : Tally :=
  { y with
    places := (i, 0) :: y.places
    evaluations := y.evaluations.insert i (y.count i + 1) }

theorem count_run (y : Tally) (i j : NodeId) :
    (y.run i).count j = y.count j + if i = j then 1 else 0 := by
  simp only [count, run, Std.ExtTreeMap.getElem?_insert, compare_eq_iff_eq]
  split
  · rename_i h
    rw [h]
    rfl
  · rfl

/-- What a step of the running frame can do in a tree, if calls only run such nodes. -/
inductive Moves (t : Tree) (called : NodeId → Prop) (y : Tally) : Tally → Prop where
  /-- The frame goes on to a later step. -/
  | on {i p q rest} (top : y.places = (i, p) :: rest) (inside : p < (t.steps i).length) (later : p < q) :
    Moves t called y { y with places := (i, q) :: rest }
  | part {i p k c rest} (top : y.places = (i, p) :: rest) (ha : (t.steps i)[p]? = some (.evaluate k))
    (hc : (t.children i)[k]? = some c) : Moves t called y ({ y with places := (i, p + 1) :: rest }.run c)
  | call {i p b rest} (top : y.places = (i, p) :: rest) (inside : p < (t.steps i).length)
    (hb : called b) : Moves t called y ({ y with places := (i, p + 1) :: rest }.run b)
  | done {i p rest} (top : y.places = (i, p) :: rest) (inside : p < (t.steps i).length) (w : Write) :
    Moves t called y { y with places := rest, writes := Assoc.put i w y.writes }

/-- What a tick can do, unless it breaks the machine: the root may be run or have a committed value. -/
inductive Ticks (t : Tree) (called : NodeId → Prop) (y : Tally) : Tally → Prop where
  | same : Ticks t called y y
  | cut : Ticks t called y { y with places := [] }
  | root (fresh : y.started = false) : Ticks t called y ({ y with started := true }.run t.root)
  | reused : Ticks t called y { y with started := true }
  | moved {y'} (h : Moves t called { y with steps := y.steps + 1 } y') : Ticks t called y y'

end Tally

/-! ### What the moves keep -/

namespace Tree

/-- A frame at this place may yet come to evaluate `c`, a part of its node. -/
def awaits (t : Tree) (c : NodeId) (x : NodeId × Nat) : Bool :=
  ((t.steps x.1).drop x.2).any fun a => a.part?.any fun k => (t.children x.1)[k]? == some c

variable {t : Tree} {c i p : NodeId} {q r k : Nat}

theorem awaits_iff : t.awaits c (i, q) = true ↔
    ∃ r k, q ≤ r ∧ (t.steps i)[r]? = some (.evaluate k) ∧ (t.children i)[k]? = some c := by
  simp only [awaits, List.any_eq_true, Option.any_eq_true, beq_iff_eq]
  constructor
  · rintro ⟨a, ha, k, hk, hc⟩
    obtain ⟨r, hr⟩ := List.mem_iff_getElem?.1 ha
    rw [List.getElem?_drop] at hr
    cases a <;> cases hk
    exact ⟨q + r, k, Nat.le_add_right q r, hr, hc⟩
  · rintro ⟨r, k, hqr, ha, hc⟩
    refine ⟨.evaluate k, List.mem_iff_getElem?.2 ⟨r - q, ?_⟩, k, rfl, hc⟩
    rwa [List.getElem?_drop, Nat.add_sub_cancel' hqr]

theorem awaits_of_le (h : t.awaits c (i, r) = true) (hq : q ≤ r) : t.awaits c (i, q) = true := by
  obtain ⟨l, k, hl, ha, hc⟩ := awaits_iff.1 h
  exact awaits_iff.2 ⟨l, k, Nat.le_trans hq hl, ha, hc⟩

/-- Only frames of the node around it do. -/
theorem mem_children_of_awaits (h : t.awaits c (i, q) = true) : c ∈ t.children i := by
  obtain ⟨-, k, -, -, hc⟩ := awaits_iff.1 h
  exact List.mem_of_getElem? hc

/-- After the step that evaluates it, no more. -/
theorem not_awaits_succ (o : t.Ordered) (ha : (t.steps i)[q]? = some (.evaluate k))
    (hc : (t.children i)[k]? = some c) : t.awaits c (i, q + 1) = false := by
  rw [Bool.eq_false_iff]
  intro h
  obtain ⟨r, l, hr, ha', hc'⟩ := awaits_iff.1 h
  obtain rfl := (List.getElem?_inj (List.getElem?_eq_some_iff.1 hc).1 (o.nodup i)).1 (hc.trans hc'.symm)
  exact absurd (evaluate_unique ha ha') (Nat.ne_of_lt hr)

end Tree

namespace Tally

/-- If none but these nodes is the body of a function in reach, any other node is run at most as often as
the node around it, and it is not run at all if there is none. Whatever runs or has been written was
run. -/
structure Counted (t : Tree) (called : NodeId → Prop) (y : Tally) : Prop where
  part : ∀ p, ∀ c ∈ t.children p, ¬ called c →
    y.count c + y.places.countP (t.awaits c) ≤ y.count p
  apart : ∀ c, c ≠ t.root → (∀ p, c ∉ t.children p) → ¬ called c → y.count c = 0
  root : ¬ called t.root → y.count t.root ≤ if y.started then 1 else 0
  done : ∀ c, y.places.countP (·.1 == c) + (if (y.write? c).isSome then 1 else 0) ≤ y.count c

namespace Counted

variable {t : Tree} {called : NodeId → Prop} {y y' : Tally}

theorem of_steps (h : y.Counted t called) (steps : Nat) : { y with steps }.Counted t called :=
  ⟨h.part, h.apart, h.root, h.done⟩

theorem cut (h : y.Counted t called) : { y with places := [] }.Counted t called where
  part p c hc hn := Nat.le_trans (Nat.le_add_right ..) (h.part p c hc hn)
  apart := h.apart
  root := h.root
  done c := Nat.le_trans (Nat.add_le_add_right (Nat.zero_le _) _) (h.done c)

theorem start (h : y.Counted t called) : { y with started := true }.Counted t called where
  part := h.part
  apart := h.apart
  root hn := by
    have hroot := h.root hn
    simp only [count, if_true] at hroot ⊢
    split at hroot
    · exact hroot
    · exact Nat.le_succ_of_le hroot
  done := h.done

/-- A node begins to run: a part that its frame has come to, the body of a function, or the root. -/
theorem run (o : t.Ordered) {b : NodeId}
    (part : ∀ p, ∀ c ∈ t.children p, ¬ called c →
      y.count c + (if b = c then 1 else 0) + y.places.countP (t.awaits c) ≤ y.count p)
    (apart : ∀ c, c ≠ t.root → (∀ p, c ∉ t.children p) → ¬ called c → b ≠ c ∧ y.count c = 0)
    (root : ¬ called t.root →
      y.count t.root + (if b = t.root then 1 else 0) ≤ if y.started then 1 else 0)
    (done : ∀ c, y.places.countP (·.1 == c) + (if (y.write? c).isSome then 1 else 0) ≤ y.count c) :
    (y.run b).Counted t called where
  part p c hc hn := by
    have hpart := part p c hc hn
    have hplace : (if t.awaits c (b, 0) then 1 else 0) ≤ if b = p then 1 else 0 := by
      split
      · rename_i h
        rw [if_pos (o.parent_unique (Tree.mem_children_of_awaits h) hc)]
      · exact Nat.zero_le _
    rw [count_run, count_run, Tally.run, List.countP_cons]
    omega
  apart c hroot hc hn := by
    obtain ⟨hne, hzero⟩ := apart c hroot hc hn
    rw [count_run, if_neg hne, hzero]
  root hn := by
    rw [count_run]
    exact root hn
  done c := by
    have hdone := done c
    have hwrite : (y.run b).write? c = y.write? c := rfl
    rw [count_run, hwrite, Tally.run, List.countP_cons]
    simp only [beq_iff_eq]
    omega

section Moves

variable (h : y.Counted t called) {i : NodeId} {p : Nat} {rest : List (NodeId × Nat)}
  (top : y.places = (i, p) :: rest)
include h top

/-- The running frame goes on. -/
theorem on {q : Nat} (later : p ≤ q) : { y with places := (i, q) :: rest }.Counted t called where
  part d c hc hn := by
    have hpart := h.part d c hc hn
    have hplace : (if t.awaits c (i, q) then 1 else 0) ≤ if t.awaits c (i, p) then 1 else 0 := by
      split
      · rename_i h
        rw [if_pos (Tree.awaits_of_le h later)]
      · exact Nat.zero_le _
    rw [top, List.countP_cons] at hpart
    rw [List.countP_cons]
    simp only [count] at hpart ⊢
    omega
  apart := h.apart
  root := h.root
  done c := by
    have hdone := h.done c
    rw [top] at hdone
    exact hdone

/-- The running frame finishes. -/
theorem finish (w : Write) :
    { y with places := rest, writes := Assoc.put i w y.writes }.Counted t called where
  part d c hc hn := by
    have hpart := h.part d c hc hn
    rw [top, List.countP_cons] at hpart
    simp only [count] at hpart ⊢
    omega
  apart := h.apart
  root := h.root
  done c := by
    have hdone := h.done c
    rw [top, List.countP_cons] at hdone
    simp only [write?, Assoc.get?_put, count, beq_iff_eq] at hdone ⊢
    by_cases hic : i = c
    · simp only [hic, if_true, Option.isSome_some] at hdone ⊢
      omega
    · simp only [hic, if_false] at hdone ⊢
      exact hdone

end Moves

variable (o : t.Ordered) (hroot : t.parent? t.root = none)
include o hroot

theorem root_ne {p c : NodeId} (hc : c ∈ t.children p) : c ≠ t.root := by
  rintro rfl
  rw [o.parent_iff.2 hc] at hroot
  cases hroot

theorem moves (h : y.Counted t called) (hm : Moves t called y y') : y'.Counted t called := by
  cases hm with
  | on top _ later => exact h.on top (Nat.le_of_lt later)
  | @part i p k c rest top ha hc =>
    have on := h.on top (Nat.le_succ p)
    have hmem := List.mem_of_getElem? hc
    refine run o (fun d e he hn => ?_) (fun e hne he hn => ⟨?_, on.apart e hne he hn⟩)
      (fun hn => ?_) on.done
    · by_cases hce : c = e
      -- The frame was counted as one that awaits `c`. It no longer does, and `c` is run instead.
      · subst hce
        have hpart := h.part d c he hn
        have here : t.awaits c (i, p) = true := Tree.awaits_iff.2 ⟨p, k, Nat.le_refl p, ha, hc⟩
        rw [top, List.countP_cons, if_pos here] at hpart
        rw [if_pos rfl, List.countP_cons, Tree.not_awaits_succ o ha hc]
        simp only [count, Bool.false_eq_true, if_false] at hpart ⊢
        omega
      · rw [if_neg hce]
        exact on.part d e he hn
    · rintro rfl
      exact he i hmem
    · rw [if_neg (root_ne o hroot hmem)]
      exact on.root hn
  | call top _ hb =>
    have on := h.on top (Nat.le_succ _)
    have other {c : NodeId} (hn : ¬ called c) : _ ≠ c := fun hbc => hn (hbc ▸ hb)
    refine run o (fun d c hc hn => ?_) (fun c hne hc hn => ⟨other hn, on.apart c hne hc hn⟩)
      (fun hn => ?_) on.done
    · rw [if_neg (other hn)]
      exact on.part d c hc hn
    · rw [if_neg (other hn)]
      exact on.root hn
  | done top _ w => exact h.finish top w

theorem ticks (h : y.Counted t called) (ht : Ticks t called y y') : y'.Counted t called := by
  cases ht with
  | same => exact h
  | cut => exact h.cut
  | root fresh =>
    refine run o (fun p c hc hn => ?_) (fun c hne hc hn => ⟨hne.symm, h.apart c hne hc hn⟩)
      (fun hn => ?_) h.done
    · rw [if_neg (root_ne o hroot hc).symm]
      exact h.part p c hc hn
    · have hcount : y.count t.root ≤ 0 := by simpa [fresh] using h.root hn
      rw [if_pos rfl, if_pos rfl]
      exact Nat.succ_le_succ hcount
  | reused => exact h.start
  | moved hm => exact (h.of_steps _).moves o hroot hm

omit hroot in
/-- So a node that is within the body of no function in reach is run at most once. -/
theorem count_le_one (h : y.Counted t called) {i : NodeId} (free : ∀ a, t.Within a i → ¬ called a) :
    y.count i ≤ 1 := by
  -- Outwards, as the node around another has the greater number.
  induction hd : t.size - i using Nat.strong_induction_on generalizing i with
  | _ d ih =>
  by_cases hp : ∃ p, i ∈ t.children p
  · obtain ⟨p, hp⟩ := hp
    have hlt := o.child_lt hp
    have hsize := Tree.lt_size_of_mem_children hp
    have hfree (a : NodeId) (ha : t.Within a p) : ¬ called a := free a (ha.trans (.child hp))
    calc y.count i ≤ y.count i + y.places.countP (t.awaits i) := Nat.le_add_right ..
      _ ≤ y.count p := h.part p i hp (free i (.refl i))
      _ ≤ 1 := ih (t.size - p) (by omega) hfree rfl
  · by_cases hi : i = t.root
    · subst hi
      refine Nat.le_trans (h.root (free _ (.refl _))) ?_
      split <;> decide
    · rw [h.apart i hi (fun p hc => hp ⟨p, hc⟩) (free i (.refl i))]
      exact Nat.zero_le 1

omit o hroot

/-- And what is written for a node that is run once stays. -/
theorem write_kept (h : y.Counted t called) (ht : Ticks t called y y') {i : NodeId} {w : Write}
    (once : y.count i ≤ 1) (hw : y.write? i = some w) : y'.write? i = some w := by
  cases ht with
  | same | cut | root | reused => exact hw
  | moved hm =>
    cases hm with
    | on | part | call => exact hw
    | @done j p rest top _ w' =>
      have hne : j ≠ i := by
        rintro rfl
        have hdone := h.done j
        have top : y.places = (j, p) :: rest := top
        rw [top, hw, List.countP_cons] at hdone
        simp only [beq_self_eq_true, if_true, Option.isSome_some] at hdone
        omega
      exact (Assoc.get?_put j i w' y.writes).trans ((if_neg hne).trans hw)

end Counted
end Tally

/-! ### How many steps there can be -/

/-- The steps of all nodes together. -/
def Tree.work (t : Tree) : Nat := ∑ i ∈ Finset.range t.size, (t.steps i).length

namespace Tally

variable {t : Tree} {called : NodeId → Prop} {y y' : Tally}

/-- The steps of all nodes, each as often as the node was run. -/
def load (t : Tree) (y : Tally) : Nat := ∑ i ∈ Finset.range t.size, y.count i * (t.steps i).length

/-- The steps that the frames have before them. -/
def ahead (t : Tree) (y : Tally) : Nat := (y.places.map fun x => (t.steps x.1).length - x.2).sum

theorem load_run (y : Tally) (i : NodeId) : (y.run i).load t = y.load t + (t.steps i).length := by
  simp only [load, count_run, Nat.add_mul, Finset.sum_add_distrib, ite_mul, one_mul, zero_mul,
    Finset.sum_ite_eq, Finset.mem_range]
  split
  · rfl
  · rename_i h
    cases hs : t.steps i with
    | nil => rfl
    | cons a rest => exact absurd (Tree.lt_size_of_steps (p := 0) (by rw [hs]; rfl)) h

theorem load_le_work (h : ∀ i, y.count i ≤ 1) : y.load t ≤ t.work :=
  Finset.sum_le_sum fun i _ => (Nat.mul_le_mul_right _ (h i)).trans_eq (Nat.one_mul _)

/-- Every step that was made belongs to a node that was run, and is not made again. -/
def Spent (t : Tree) (y : Tally) : Prop := y.steps + y.ahead t ≤ y.load t

namespace Spent

/-- A node begins to run. -/
theorem run (h : y.Spent t) (i : NodeId) : (y.run i).Spent t := by
  have hahead : (y.run i).ahead t = (t.steps i).length + y.ahead t := by simp [ahead, Tally.run]
  have hsteps : (y.run i).steps = y.steps := rfl
  rw [Spent, load_run, hahead, hsteps]
  unfold Spent at h
  omega

theorem moves (h : y.Spent t) (hm : Moves t called { y with steps := y.steps + 1 } y') :
    y'.Spent t := by
  have on {i : NodeId} {p q : Nat} {rest : List (NodeId × Nat)} (top : y.places = (i, p) :: rest)
      (inside : p < (t.steps i).length) (later : p < q) :
      { y with places := (i, q) :: rest, steps := y.steps + 1 }.Spent t := by
    have h : y.steps + y.ahead t ≤ y.load t := h
    simp only [ahead, top, List.map_cons, List.sum_cons] at h
    simp only [Spent, ahead, List.map_cons, List.sum_cons]
    have same : ({ y with places := (i, q) :: rest, steps := y.steps + 1 } : Tally).load t = y.load t := rfl
    rw [same]
    omega
  cases hm with
  | on top inside later => exact on top inside later
  | part top ha hc => exact (on top (List.getElem?_eq_some_iff.1 ha).1 (Nat.lt_succ_self _)).run _
  | call top inside => exact (on top inside (Nat.lt_succ_self _)).run _
  | @done i p rest top inside w =>
    have top : y.places = (i, p) :: rest := top
    have h : y.steps + y.ahead t ≤ y.load t := h
    simp only [ahead, top, List.map_cons, List.sum_cons] at h
    have same : ({ y with
        places := rest, writes := Assoc.put i w y.writes, steps := y.steps + 1 } : Tally).load t =
        y.load t := rfl
    simp only [Spent, ahead] at h ⊢
    rw [same]
    omega

theorem ticks (h : y.Spent t) (ht : Ticks t called y y') : y'.Spent t := by
  cases ht with
  | same => exact h
  | cut => exact Nat.le_trans (Nat.add_le_add_left (Nat.zero_le _) _) h
  | root =>
    have started : { y with started := true }.Spent t := h
    exact started.run t.root
  | reused => exact h
  | moved hm => exact h.moves hm

end Spent
end Tally

namespace Machine

def tally (m : Machine) : Tally where
  places := m.frames.map fun f => (f.node, f.cursor)
  evaluations := m.record.evaluations
  writes := m.record.writes
  steps := m.record.steps
  started := m.started

variable {s : Setting} {m m' : Machine} {f g : Frame} {rest : List Frame} {a : Step}
  {called : NodeId → Prop}

theorem tally_handDown (m : Machine) (version : Option Nat) (v : Value) :
    (m.handDown version v).tally = m.tally := by
  unfold handDown
  split
  · rfl
  · rename_i hf
    simp [tally, put, hf, Frame.push, Frame.observe]

theorem tally_call (i : NodeId) (x : ScopeId) :
    (m.call s i x).tally = m.tally ∨ (m.call s i x).tally = m.tally.run i :=
  call_induction (I := fun m' => m'.tally = m.tally ∨ m'.tally = m.tally.run i) (fun _ => .inl rfl)
    fun _ => .inr rfl

theorem tally_enter (i : NodeId) (x : ScopeId) :
    (m.enter s i x).tally = m.tally ∨ (m.enter s i x).tally = m.tally.run i := by
  unfold enter
  split
  · left
    rw [tally_handDown]
    simp only [tally, setRecord, s.noteReuse_evaluations, s.noteReuse_writes, s.steps_noteReuse]
  · exact tally_call i x

/-- An operation that calls nothing leaves another value. -/
theorem apply_of_ne_call (s : Setting) (m : Machine) (f : Frame) (rest : List Frame) {o : Operation}
    (ho : ∀ count, o ≠ .call count) :
    (∃ fault, m.apply s f rest o = m.fail fault) ∨
      ∃ values, m.apply s f rest o = m.put { f with values } rest := by
  cases o with
  | call count => exact absurd rfl (ho count)
  | binary | unary | property =>
    simp only [apply]
    split
    · exact .inr ⟨_, rfl⟩
    · exact .inl ⟨_, rfl⟩
  | makeList | makeStruct =>
    simp only [apply]
    split
    · exact .inl ⟨_, rfl⟩
    · exact .inr ⟨_, rfl⟩
  | lookup | makeFunction | previous | fail => exact .inr ⟨_, rfl⟩

section Execute

variable (called) (o : s.program.tree.Ordered) (hm : m.frames = f :: rest)
  (hs : f.steps = s.program.tree.steps f.node) (ha : f.steps[f.cursor]? = some a)
  (bodies : ∀ count, a = .apply (.call count) → ∀ v ∈ f.values, v.Every fun c => called c.body)
include o hm hs ha bodies

/-- Each step but one that breaks the machine is one of the four moves. -/
theorem moves_execute :
    (∃ fault, m.execute s { f with cursor := f.cursor + 1 } rest a = m.fail fault) ∨
      m.tally.Moves s.program.tree called
        (m.execute s { f with cursor := f.cursor + 1 } rest a).tally := by
  have top : m.tally.places = (f.node, f.cursor) :: rest.map fun f => (f.node, f.cursor) := by
    simp [tally, hm]
  have inside : f.cursor < (s.program.tree.steps f.node).length :=
    hs ▸ (List.getElem?_eq_some_iff.1 ha).1
  have forward : a.Forward f.cursor f.steps.length := hs ▸ o.forward (hs ▸ ha)
  have goes {m' : Machine} {g : Frame} (same : m'.tally = m.tally) (node : g.node = f.node)
      (later : f.cursor < g.cursor) : m.tally.Moves s.program.tree called (m'.put g rest).tally := by
    have put : (m'.put g rest).tally = { m'.tally with
        places := (g.node, g.cursor) :: rest.map fun f => (f.node, f.cursor) } := rfl
    rw [put, same, node]
    exact .on top inside later
  have on {g : Frame} (node : g.node = f.node) (later : f.cursor < g.cursor) :
      m.tally.Moves s.program.tree called (m.put g rest).tally := goes rfl node later
  have next {g : Frame} (node : g.node = f.node) (cursor : g.cursor = f.cursor + 1) :
      m.tally.Moves s.program.tree called (m.put g rest).tally :=
    on node (cursor ▸ Nat.lt_succ_self f.cursor)
  cases a with
  | push v => exact .inr (next rfl rfl)
  | evaluate index =>
    simp only [execute]
    split
    · exact .inl ⟨_, rfl⟩
    · rename_i c hc
      right
      rcases tally_enter (s := s) (m := m.put { f with cursor := f.cursor + 1 } rest) c f.scope with h | h
      · rw [h]
        exact next rfl rfl
      · rw [h]
        exact .part top (hs ▸ ha) hc
  | apply op =>
    by_cases hop : ∃ count, op = .call count
    · obtain ⟨count, rfl⟩ := hop
      simp only [execute, apply]
      split
      · exact .inl ⟨_, rfl⟩
      split
      · rename_i target values hv
        have hmem : target ∈ f.values := List.mem_of_mem_drop (hv ▸ List.mem_cons_self)
        unfold applyCallee
        split
        · exact .inr (next rfl rfl)
        · rename_i c hc
          obtain ⟨rfl, -⟩ := callee_eq_body hc
          split
          · exact .inl ⟨_, rfl⟩
          · right
            let waiting : Machine := m.put { f with cursor := f.cursor + 1, values } rest
            have opened := tally_call (s := s) (m := (waiting.openScope c.scope).2.define
              (waiting.openScope c.scope).1 (c.parameters.zip (Frame.lastValues f count))) c.body
              (waiting.openScope c.scope).1
            rcases opened with h | h
            · exact h ▸ next rfl rfl
            · exact h ▸ .call top inside (Value.every_function.1 (bodies count rfl _ hmem))
      · exact .inl ⟨_, rfl⟩
    · rcases apply_of_ne_call s m { f with cursor := f.cursor + 1 } rest
        fun count h => hop ⟨count, h⟩ with ⟨fault, h⟩ | ⟨values, h⟩
      · exact .inl ⟨fault, h⟩
      · right
        rw [execute, h]
        exact next rfl rfl
  | fetch stream mode =>
    have same : (m.setRecord (fetch s m.record f.node stream mode).2.2).tally = m.tally := by
      simp only [tally, setRecord, fetch_evaluations, (fetch_record ..).1, steps_fetch]
    exact .inr (goes same rfl (Nat.lt_succ_self f.cursor))
  | define name =>
    simp only [execute]
    split
    · exact .inr (next rfl rfl)
    · exact .inl ⟨_, rfl⟩
  | discard =>
    simp only [execute]
    split
    · exact .inr (next rfl rfl)
    · exact .inl ⟨_, rfl⟩
  | enterScope => exact .inr (next rfl rfl)
  | jump target => exact .inr (on rfl forward)
  | jumpIfFalse target =>
    simp only [execute]
    split
    · right
      unfold branch
      split
      · exact next rfl rfl
      · exact on rfl forward.1
      · exact on rfl (Nat.lt_sub_of_add_lt forward.2)
      · exact on rfl (Nat.lt_sub_of_add_lt forward.2)
    · exact .inl ⟨_, rfl⟩
  | jumpIfInitialized target =>
    right
    simp only [execute]
    split
    · exact on rfl forward
    · exact next rfl rfl
  | finish =>
    simp only [execute]
    split
    · rename_i v values hv
      right
      rw [tally_handDown]
      have h : m.tally.Moves s.program.tree called _ := .done top inside
        ⟨v, !s.program.analysis.isVolatile f.node, s.program.tree.kind? f.node == some .reaction,
          f.streamVersion⟩
      simp only [tally, s.noteFinish_evaluations, s.noteFinish_writes, s.steps_noteFinish] at h ⊢
      exact h
    · exact .inl ⟨_, rfl⟩

end Execute

/-! ### Ticks and runs -/

/-- The calls that the frames are about to make run only such nodes. -/
def CallsOnly (m : Machine) (called : NodeId → Prop) : Prop :=
  ∀ f ∈ m.frames, ∀ count, f.steps[f.cursor]? = some (.apply (.call count)) →
    ∀ v ∈ f.values, v.Every fun c => called c.body

theorem ticks_tally (o : s.program.tree.Ordered) (hroot : s.root = s.program.tree.root)
    (listening : m.Listening s) (calls : m.CallsOnly called) (abort : Bool) :
    (∃ fault, (m.tick s abort).status = .broken fault ∧
        (m.tick s abort).tally = { m.tally with steps := m.tally.steps + 1 }) ∨
      m.tally.Ticks s.program.tree called (m.tick s abort).tally := by
  generalize hm' : m.tick s abort = m'
  cases ticked hm' with
  | ended => exact .inr .same
  | cutOff => exact .inr .cut
  | entered h =>
    right
    rcases tally_enter (s := s) (m := { (m.openScope s.globals).2 with started := true }) s.root
      (m.openScope s.globals).1 with he | he
    · rw [enterRoot, he]
      exact .reused
    · rw [enterRoot, he, hroot]
      exact .root h
  | failed fault => exact .inl ⟨fault, rfl, rfl⟩
  | @executed f rest a hm ha =>
    have hf : f ∈ m.frames := hm ▸ List.mem_cons_self
    rcases moves_execute (s := s) (m := m.setRecord m.record.countStep) called o hm
      (listening.steps f hf) ha (fun count hc => calls f hf count (hc ▸ ha)) with ⟨fault, h⟩ | h
    · exact .inl ⟨fault, by rw [h]; rfl, by rw [h]; rfl⟩
    · exact .inr (.moved h)

theorem counted_start (s : Setting) (scopes : Scopes) (called : NodeId → Prop) :
    (start scopes).tally.Counted s.program.tree called where
  part _ _ _ _ := by simp [tally, start, Record.empty, Tally.count]
  apart _ _ _ _ := by simp [tally, start, Record.empty, Tally.count]
  root _ := by simp [tally, start, Record.empty, Tally.count]
  done _ := by simp [tally, start, Record.empty, Tally.count, Tally.write?]

theorem spent_start (s : Setting) (scopes : Scopes) : (start scopes).tally.Spent s.program.tree := by
  simp [Tally.Spent, Tally.ahead, tally, start, Record.empty]

end Machine
end StreamLang
