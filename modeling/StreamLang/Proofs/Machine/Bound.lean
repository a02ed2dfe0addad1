import StreamLang.Proofs.Machine.Kinds
import StreamLang.Proofs.Scopes
/-!
What a statement leaves in the scope of its block: a bind its name, any other nothing.
-/
namespace StreamLang.Machine

variable {s : Setting} {y : ScopeId} {c : NodeId} {v : Value} {σ : State}

theorem bound_record (s : Setting) (y : ScopeId) (c : NodeId) (v : Value) (σ : State) :
    (bound s y c v σ).record = σ.record := by
  unfold bound
  split <;> rfl

theorem bound_of_bind {name : String} (h : s.program.tree.kind? c = some (.bind name)) :
    (bound s y c v σ).scopes = σ.scopes.define y name v := by
  simp only [bound, h]
  rfl

theorem bound_of_not_bind (h : ∀ name, s.program.tree.kind? c ≠ some (.bind name)) :
    bound s y c v σ = σ := by
  unfold bound
  split
  · exact absurd ‹_› (h _)
  · rfl

theorem bind_or_not (t : Tree) (c : NodeId) :
    (∃ name, t.kind? c = some (.bind name)) ∨ ∀ name, t.kind? c ≠ some (.bind name) := by
  by_cases h : ∃ name, t.kind? c = some (.bind name)
  · exact .inl h
  · exact .inr fun name hn => h ⟨name, hn⟩

theorem size_bound : (bound s y c v σ).scopes.all.size = σ.scopes.all.size := by
  rcases bind_or_not s.program.tree c with ⟨name, h⟩ | h
  · rw [bound_of_bind h, Scopes.size_define]
  · rw [bound_of_not_bind h]

theorem nested_bound (hn : σ.scopes.Nested) : (bound s y c v σ).scopes.Nested := by
  rcases bind_or_not s.program.tree c with ⟨name, h⟩ | h
  · rw [bound_of_bind h]
    exact Scopes.nested_define hn y name v
  · rwa [bound_of_not_bind h]

/-- Scopes that are older than the block stay as they are. -/
theorem extends_bound {scopes : Scopes} (h : scopes.Extends σ.scopes) (hy : scopes.all.size ≤ y) :
    scopes.Extends (bound s y c v σ).scopes := by
  rcases bind_or_not s.program.tree c with ⟨name, hb⟩ | hb
  · rw [bound_of_bind hb]
    exact Scopes.extends_define h hy name v
  · rwa [bound_of_not_bind hb]

theorem lookup_bound (hn : σ.scopes.Nested) (hy : y < σ.scopes.all.size) (name : String) :
    (bound s y c v σ).scopes.lookup y name =
      if s.program.tree.isBindOf name c then some v else σ.scopes.lookup y name := by
  rcases bind_or_not s.program.tree c with ⟨bound, hb⟩ | hb
  · rw [bound_of_bind hb, Scopes.lookup_define hn hy, Tree.isBindOf, hb]
    by_cases hname : bound = name <;> simp [hname]
  · have hno : s.program.tree.isBindOf name c = false :=
      Bool.eq_false_iff.2 fun h => hb name (by simpa [Tree.isBindOf] using h)
    rw [bound_of_not_bind hb, hno]
    rfl

/-- After another statement of a block names stand for what they stood for, but for the name that
the statement binds. -/
theorem names_bound {pre : List NodeId} {V : NodeId → Value} {outer : String → Option Value}
    (hn : σ.scopes.Nested) (hy : y < σ.scopes.all.size) (hv : v = V c)
    (h : ∀ name, σ.scopes.lookup y name =
      match pre.reverse.find? (s.program.tree.isBindOf name) with
      | some b => some (V b)
      | none => outer name) (name : String) :
    (bound s y c v σ).scopes.lookup y name =
      match (pre ++ [c]).reverse.find? (s.program.tree.isBindOf name) with
      | some b => some (V b)
      | none => outer name := by
  have hfind : (pre ++ [c]).reverse.find? (s.program.tree.isBindOf name) =
      if s.program.tree.isBindOf name c then some c
      else pre.reverse.find? (s.program.tree.isBindOf name) := by
    rw [List.reverse_append, List.reverse_singleton, List.singleton_append, List.find?_cons]
    cases s.program.tree.isBindOf name c <;> rfl
  rw [lookup_bound hn hy, hfind, h, hv]
  cases s.program.tree.isBindOf name c <;> rfl

/-! ### What is kept on the way -/

variable {E : Frame → State → Value → Option Nat → State → Prop} {C : State → Prop} {x : ScopeId}
  {version : Option Nat} {σ' : State}

/-- What is kept whenever one of the nodes is entered is kept by entering them in turn. -/
theorem EntersAll.keeps {is : List NodeId} {vs : List Value}
    (h : EntersAll s E x is σ vs version σ')
    (enters : ∀ c ∈ is, ∀ {σ v version σ'}, Enters s E c x σ v version σ' → C σ → C σ') (hσ : C σ) :
    C σ' := by
  induction h with
  | nil => exact hσ
  | cons first _ ih =>
    exact ih (fun d hd => enters d (List.mem_cons_of_mem _ hd)) (enters _ List.mem_cons_self first hσ)

theorem Statements.keeps {is : List NodeId} (h : Statements s E x is σ v version σ')
    (enters : ∀ c ∈ is, ∀ {σ v version σ'}, Enters s E c x σ v version σ' → C σ → C σ')
    (binds : ∀ {c v σ}, C σ → C (bound s x c v σ)) (hσ : C σ) : C σ' := by
  induction h with
  | last only => exact binds (enters _ List.mem_cons_self only hσ)
  | cons first _ ih =>
    exact ih (fun d hd => enters d (List.mem_cons_of_mem _ hd))
      (binds (enters _ List.mem_cons_self first hσ))

end StreamLang.Machine
