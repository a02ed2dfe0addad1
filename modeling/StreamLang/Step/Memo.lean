import StreamLang.Step.Generate
/-!
Steps made so far, for one edition of a program. Asking for another edition forgets them, so what is
handed out is always what the tree at hand gives.
-/
namespace StreamLang

structure StepMemo where
  edition : Nat
  known : NodeMap (List Step)

namespace StepMemo

/-- No edition has the number zero. -/
def empty : StepMemo := ⟨0, ∅⟩

def size (m : StepMemo) : Nat := m.known.size

def clear (m : StepMemo) : StepMemo := { m with known := ∅ }

/-- The steps of a node in an edition of a tree. -/
def get (m : StepMemo) (edition : Nat) (t : Tree) (i : NodeId) : List Step × StepMemo :=
  let known := if m.edition = edition then m.known else ∅
  match known[i]? with
  | some steps => (steps, ⟨edition, known⟩)
  | none =>
    let steps := t.steps i
    (steps, ⟨edition, known.insert i steps⟩)

/-- All steps made so far are those of the edition they were made for. -/
def Faithful (trees : Nat → Tree) (m : StepMemo) : Prop :=
  ∀ (i : NodeId) steps, m.known[i]? = some steps → steps = (trees m.edition).steps i

variable {trees : Nat → Tree} {m : StepMemo}

theorem faithful_empty (trees : Nat → Tree) : empty.Faithful trees := by
  intro i steps h
  simp [empty] at h

theorem faithful_clear (trees : Nat → Tree) (m : StepMemo) : m.clear.Faithful trees := by
  intro i steps h
  simp [clear] at h

/-- Whatever is asked for, what is handed out are the steps of the edition at hand, and nothing else is
kept. -/
theorem Faithful.get (h : m.Faithful trees) (edition : Nat) (i : NodeId) :
    (m.get edition (trees edition) i).1 = (trees edition).steps i ∧
      (m.get edition (trees edition) i).2.Faithful trees := by
  have kept : Faithful trees ⟨edition, if m.edition = edition then m.known else ∅⟩ := by
    intro j steps hj
    simp only at hj
    split at hj
    · rename_i heq
      exact heq ▸ h j steps hj
    · simp at hj
  unfold StepMemo.get
  cases hknown : (if m.edition = edition then m.known else ∅)[i]? with
  | some steps =>
    simp only [hknown]
    exact ⟨kept i steps hknown, kept⟩
  | none =>
    simp only [hknown, true_and]
    refine fun j steps hj => ?_
    simp only [Std.ExtTreeMap.getElem?_insert] at hj
    split at hj
    · rename_i heq
      cases hj
      rw [Nat.compare_eq_eq.1 heq]
    · exact kept j steps hj

/-- What a memory has been asked for: the steps of a node of an edition, or to forget. -/
inductive Request where
  | get (edition : Nat) (i : NodeId)
  | clear

def serve (trees : Nat → Tree) (m : StepMemo) : Request → StepMemo
  | .get edition i => (m.get edition (trees edition) i).2
  | .clear => m.clear

/-- After any requests, in whatever order the editions were asked for, a memory hands out what the tree
gives. -/
theorem get_foldl_serve (trees : Nat → Tree) (requests : List Request) (edition : Nat) (i : NodeId) :
    ((requests.foldl (serve trees) empty).get edition (trees edition) i).1 =
      (trees edition).steps i := by
  suffices ∀ m : StepMemo, m.Faithful trees → (requests.foldl (serve trees) m).Faithful trees from
    ((this empty (faithful_empty trees)).get edition i).1
  induction requests with
  | nil => exact fun _ h => h
  | cons r requests ih =>
    intro m h
    refine ih _ ?_
    cases r with
    | get edition i => exact (h.get edition i).2
    | clear => exact faithful_clear trees m

end StepMemo
end StreamLang
