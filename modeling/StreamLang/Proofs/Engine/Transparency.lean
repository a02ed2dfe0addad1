import StreamLang.Proofs.Engine.Living
import StreamLang.Proofs.Engine.Unreached
import StreamLang.Proofs.Machine.Returns
import StreamLang.Proofs.Renaming
/-!
When a committed function stands in well for a new one. The body of a function is run whenever it is
called, so nothing but the scope can tell a function that was kept from one that is made again. As long
as both scopes show the same for all names that the body looks for, the call has the same value.
-/
namespace StreamLang

open Machine

namespace Tree

variable {t : Tree} {i c : NodeId}

/-- The node lies in a function. -/
def InFunction (t : Tree) (i : NodeId) : Prop := ∃ f ∈ t.ancestors i, t.isFunction f = true

theorem InFunction.child (h : t.InFunction i) (o : t.Ordered) (hc : c ∈ t.children i) :
    t.InFunction c := by
  obtain ⟨f, hf, hk⟩ := h
  exact ⟨f, by rw [o.ancestors_child hc]; exact List.mem_cons_of_mem _ hf, hk⟩

/-- So it is run whenever it is reached. -/
theorem InFunction.isVolatile (h : t.InFunction i) : (Analysis.ofTree t).isVolatile i = true := by
  obtain ⟨f, hf, hk⟩ := h
  have hany : (t.ancestors i).any t.isFunction = true := List.any_eq_true.2 ⟨f, hf, hk⟩
  simp only [Analysis.isVolatile, Analysis.ofTree, Array.getD_eq_getD_getElem?,
    List.getElem?_toArray, List.getElem?_map]
  cases hj : t.ids[i]? with
  | none => rfl
  | some j =>
    obtain ⟨hi, rfl⟩ := List.getElem?_eq_some_iff.1 hj
    simp [ids, hany]

end Tree

namespace Stage

end Stage

namespace Stretch

variable {t : Tree} {e : Engine} {stages : List Stage}

end Stretch

namespace Machine

variable {t : Tree} {s : Setting} {m : Machine} {c d : Closure} {arguments : List Value} {v : Value}
  {y : ScopeId}

end Machine

namespace Greeting

def draft : Draft :=
  ⟨#[⟨.text "hi ", [], none, none⟩, ⟨.bind "x", [0], none, none⟩, ⟨.reference "x", [], none, none⟩,
    ⟨.reference "p", [], none, none⟩, ⟨.binary [.add], [2, 3], none, none⟩,
    ⟨.function ["p"], [4], none, none⟩, ⟨.bind "f", [5], none, none⟩,
    ⟨.reference "f", [], none, none⟩, ⟨.stream "keyboard", [], none, none⟩,
    ⟨.call, [7, 8], none, none⟩, ⟨.block, [1, 6, 9], none, none⟩]⟩

def tree : Tree := ((draft.finish 10).toOption).getD ⟨#[], 0⟩

/-- The engine before its first pass. -/
def fresh : Engine := .load tree Aside.catalog .default

/-- After the first pass. -/
def ready : Engine := (Nat.iterate Pass.tick 36 (Pass.opened fresh)).abandon.engine

/-- After the first pass and a key. -/
def typed : Engine := ready.told "keyboard" (.text "k")

/-- The second pass, when it calls the function. -/
def second : Pass := Nat.iterate Pass.tick 14 (Pass.opened typed)

/-- The function as the first pass has made it, and as the second one would. -/
def kept : Closure := ⟨5, 4, ["p"], 2⟩

def again : Closure := { kept with scope := 5 }

/-- The machine is about to call the function that was kept with the key. -/
def callsKept (m : Machine) : Bool :=
  match m.frames with
  | f :: _ => match f.steps[f.cursor]?, f.values with
    | some (.apply (.call 1)), .text a :: .function c :: _ => a == "k" && c == kept
    | _, _ => false
  | [] => false

theorem eq_text {o : Option Value} {a : String} (h : o.any (·.equal (.text a)) = true) :
    o = some (.text a) := by
  obtain ⟨v, rfl, hv⟩ := (Option.any_eq_true _ _).1 h
  cases v <;> simp_all [Value.equal]

/-- What can be read off the program and its two passes. -/
@[mk_iff]
structure Checked : Prop where
  built : draft.finish 10 = .ok tree
  kinds : ∀ n ∈ tree.nodes, n.kind ≠ .conditional ∧ n.kind ≠ .reaction ∧ n.kind ≠ .previous
  function : tree.kind? 5 = some (.function ["p"]) ∧ tree.children 5 = [4] ∧ (tree.fault? 5).isNone
  body : tree.kind? 4 = some (.binary [.add]) ∧ tree.children 4 = [2, 3] ∧
    (tree.kind? 2 = some (.reference "x") ∧ tree.children 2 = []) ∧
    tree.kind? 3 = some (.reference "p") ∧ tree.children 3 = []
  key_told : (ready.addEvent "keyboard" (.text "k")).toOption.isSome = true
  runs : typed.stopped = false ∧ typed.config.conflictPolicy = .attach
  started : second.machine.started = true
  atCall : callsKept second.machine = true
  higher : ∀ j < 8, second.machine.frames.length <
    (second.machine.run second.setting false (j + 1)).frames.length
  back : (second.machine.run second.setting false 9).frames.length ≤ second.machine.frames.length
  running : (second.machine.run second.setting false 9).isRunning = true
  top : (second.machine.run second.setting false 9).topValue?.any (·.equal (.text "hi k")) = true
  older : kept.scope < ready.scopes.all.size
  current : 5 < second.machine.scopes.all.size
  shown : ∀ a ∈ [("x", "hi "), ("p", "k")],
    (kept.shows ready.scopes [.text "k"] a.1).any (·.equal (.text a.2)) = true ∧
      (again.shows second.machine.scopes [.text "k"] a.1).any (·.equal (.text a.2)) = true

theorem checked : Checked := checked_iff.2 (by decide +kernel)

theorem functional : tree.Functional := by
  refine ⟨⟨draft, 10, checked.built⟩, fun i k hk => ?_⟩
  obtain ⟨n, hn, rfl⟩ := Option.map_eq_some_iff.1 hk
  exact checked.kinds n (Array.mem_of_getElem? hn)

theorem new_fresh : Engine.new tree Aside.catalog .default = .ok fresh := rfl

theorem plain (name : String) (spec : StreamSpec) (h : Aside.catalog.get? name = some spec) :
    spec.default.Every fun _ => False := by
  obtain ⟨-, rfl⟩ := Prod.mk.inj (List.mem_singleton.1 (Assoc.mem_of_get? h))
  exact Value.every_text _

/-- The first pass. -/
theorem stretch_ready : ∃ past, Stretch Known Known fresh (.idle ready :: past) := by
  have opened : Stretch Known Known fresh [.busy fresh (Pass.opened fresh), .idle fresh] :=
    .step .rest (.start (Pass.start_eq_opened rfl rfl))
  exact ⟨_, (opened.ticks 36).step .leave⟩

theorem calls : second.machine.Calls second.setting kept [.text "k"] (.text "hi k") where
  started := checked.started
  atCall := by
    have h := checked.atCall
    unfold callsKept at h
    split at h
    · rename_i f rest hm
      split at h
      · rename_i a c values ha hv
        simp only [Bool.and_eq_true, beq_iff_eq] at h
        obtain ⟨rfl, rfl⟩ := h
        exact ⟨f, rest, values, hm, ha, hv⟩
      · cases h
    · cases h
  arity := rfl
  returns := ⟨8, checked.higher, checked.back, checked.running, eq_text checked.top⟩

end Greeting

end StreamLang
