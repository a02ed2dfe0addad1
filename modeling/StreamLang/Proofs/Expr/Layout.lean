import StreamLang.Expr.Basic
import StreamLang.Proofs.Tree.Acceptance
/-!
Where the parts of an expression come to lie in a tree. Every expression is a kind of node with
parts and perhaps a diagnostic, and all of them are built alike: the parts one after another, then
the whole. So one rule tells how expressions lie in the nodes that they become (`Expr.Laid`). Each
of the numbers that they get is named once, as a child or at the top, and that is why every
expression makes a tree.
-/
namespace StreamLang
namespace Expr

/-- The kind of node that an expression becomes. -/
def kind : Expr → NodeKind
  | number n => .number n
  | text s => .text s
  | boolean b => .boolean b
  | list _ => .list
  | struct fields => .struct (fields.map Prod.fst)
  | property _ name => .property name
  | reference name => .reference name
  | binary _ rest => .binary (rest.map Prod.fst)
  | unary operator _ => .unary operator
  | conditional _ _ _ => .conditional
  | function parameters _ => .function parameters
  | call _ _ => .call
  | bind name _ => .bind name
  | block _ => .block
  | stream name => .stream name
  | changed name => .changed name
  | reaction _ _ _ => .reaction
  | previous => .previous
  | placeholder => .placeholder
  | diagnosed _ e => e.kind

/-- The parts of an expression, in the order of its fields. A diagnostic adds none. -/
def parts : Expr → List Expr
  | list items => items
  | struct fields => fields.map Prod.snd
  | property subject _ => [subject]
  | binary first rest => first :: rest.map Prod.snd
  | unary _ operand => [operand]
  | conditional condition yes no => [condition, yes, no]
  | function _ body => [body]
  | call callee arguments => callee :: arguments
  | bind _ value => [value]
  | block statements => statements
  | reaction start condition next => start :: (condition.toList ++ [next])
  | diagnosed _ e => e.parts
  | number _ | text _ | boolean _ | reference _ => []
  | stream _ | changed _ | previous | placeholder => []

/-- The diagnostic around an expression; of several, the outermost one. -/
def diagnostic? : Expr → Option Diagnostic
  | diagnosed diagnostic _ => some diagnostic
  | _ => none

/-- The node that an expression becomes when its parts have these numbers. -/
def node (e : Expr) (ids : List NodeId) : Node := ⟨e.kind, ids, none, e.diagnostic?⟩

theorem buildFields_eq (fields : List (String × Expr)) (d : Draft) :
    buildFields fields d = buildAll (fields.map Prod.snd) d := by
  induction fields generalizing d with
  | nil => rfl
  | cons field rest ih => simp only [buildFields, buildAll, List.map_cons, ih]

theorem buildRest_eq (rest : List (BinaryOperator × Expr)) (d : Draft) :
    buildRest rest d = buildAll (rest.map Prod.snd) d := by
  induction rest generalizing d with
  | nil => rfl
  | cons operand rest ih => simp only [buildRest, buildAll, List.map_cons, ih]

end Expr

/-- A diagnostic for the last node takes the place of the one that it had. -/
theorem Draft.diagnose_push (nodes : Array Node) (n : Node) (diagnostic : Diagnostic) :
    (⟨nodes.push n⟩ : Draft).diagnose nodes.size diagnostic =
      ⟨nodes.push { n with diagnostic := some diagnostic }⟩ := by
  rw [diagnose, mk.injEq]
  refine Array.ext_getElem? fun i => ?_
  rw [Array.getElem?_modify, Array.getElem?_push, Array.getElem?_push]
  by_cases h : i = nodes.size
  · simp [h]
  · simp [h, Ne.symm h]

namespace Expr

/-- Every expression is built alike: its parts, then a node for it. -/
theorem build_eq (e : Expr) (d : Draft) : e.build d =
    ((buildAll e.parts d).2.nodes.size,
      ⟨(buildAll e.parts d).2.nodes.push (e.node (buildAll e.parts d).1)⟩) := by
  cases e with
  | diagnosed diagnostic e =>
    -- a diagnostic further in is written first and then replaced
    rw [build, build_eq e d]
    simp only [Draft.diagnose_push]
    rfl
  | reaction start condition next => cases condition <;> rfl
  | struct fields => simp only [build, buildFields_eq]; rfl
  | binary first rest => simp only [build, buildRest_eq]; rfl
  | _ => rfl

/-! Lists of expressions are taken apart from their first one on: what its parts say, the first one,
what the others say. -/

/-- The sizes of expressions together; the parts of one are smaller than it. The size of the list
would not do, since it counts the list itself: `previous` is no larger than the empty list of its
parts. -/
noncomputable def weight : List Expr → Nat
  | [] => 0
  | e :: es => sizeOf e + weight es

@[simp] theorem weight_nil : weight [] = 0 := rfl

@[simp] theorem weight_cons (e : Expr) (es : List Expr) :
    weight (e :: es) = sizeOf e + weight es := rfl

theorem weight_lt_sizeOf (es : List Expr) : weight es < sizeOf es := by
  induction es with
  | nil => simp
  | cons e es ih => simp; omega

theorem weight_snd_lt {α : Type} [SizeOf α] (xs : List (α × Expr)) :
    weight (xs.map Prod.snd) < sizeOf xs := by
  induction xs with
  | nil => simp
  | cons x xs ih => obtain ⟨a, e⟩ := x; simp; omega

theorem weight_parts_lt (e : Expr) : weight e.parts < sizeOf e := by
  cases e with
  | diagnosed diagnostic e => have := weight_parts_lt e; simp [parts]; omega
  | list items => have := weight_lt_sizeOf items; simp [parts]; omega
  | block items => have := weight_lt_sizeOf items; simp [parts]; omega
  | call callee items => have := weight_lt_sizeOf items; simp [parts]; omega
  | struct fields => have := weight_snd_lt fields; simp [parts]; omega
  | binary first rest => have := weight_snd_lt rest; simp [parts]; omega
  | reaction start condition next =>
    cases condition with
    | none =>
      simp only [parts, Option.toList_none, List.nil_append, weight_cons, weight_nil,
        reaction.sizeOf_spec]
      omega
    | some condition =>
      simp only [parts, Option.toList_some, List.cons_append, List.nil_append, weight_cons, weight_nil,
        reaction.sizeOf_spec, Option.some.sizeOf_spec]
      omega
  | _ => simp [parts] <;> omega

/-- All expressions within some, each after its parts. One with diagnostics around it counts once,
together with them. -/
def postorder : List Expr → List Expr
  | [] => []
  | e :: es => postorder e.parts ++ e :: postorder es
termination_by es => weight es
decreasing_by all_goals have := weight_parts_lt e; simp; omega

/-- These expressions, laid out from a number on, get these numbers and become these nodes. -/
inductive Laid : Nat → List Expr → List NodeId → List Node → Prop where
  | nil (n : Nat) : Laid n [] [] []
  | cons {n : Nat} {e : Expr} {es : List Expr} {ids is : List NodeId} {before after : List Node}
    (parts : Laid n e.parts ids before) (rest : Laid (n + before.length + 1) es is after) :
    Laid n (e :: es) ((n + before.length) :: is) (before ++ e.node ids :: after)

theorem postorder_nil : postorder [] = [] := by rw [postorder]

theorem postorder_cons (e : Expr) (es : List Expr) :
    postorder (e :: es) = postorder e.parts ++ e :: postorder es := by rw [postorder]

/-- To build expressions is to lay them out after the nodes that are there. -/
theorem exists_laid (es : List Expr) (d : Draft) : ∃ ids added,
    buildAll es d = (ids, ⟨d.nodes ++ added.toArray⟩) ∧ Laid d.nodes.size es ids added := by
  induction es using postorder.induct generalizing d with
  | case1 => exact ⟨[], [], by simp [buildAll], .nil _⟩
  | case2 e es ihparts ihrest =>
    obtain ⟨ids, before, hparts, lparts⟩ := ihparts d
    have hbuild : e.build d = (d.nodes.size + before.length,
        ⟨d.nodes ++ (before ++ [e.node ids]).toArray⟩) := by simp [build_eq, hparts]
    obtain ⟨is, after, hrest, lrest⟩ := ihrest ⟨d.nodes ++ (before ++ [e.node ids]).toArray⟩
    refine ⟨(d.nodes.size + before.length) :: is, before ++ e.node ids :: after, ?_, lparts.cons ?_⟩
    · simp only [buildAll, hbuild, hrest]
      simp
    · simpa [Nat.add_assoc] using lrest

namespace Laid

variable {n : Nat} {es : List Expr} {ids : List NodeId} {nodes : List Node}

/-- There is one node for each expression, of its kind and with its diagnostic, in the same order.
-/
theorem map_nodes (h : Laid n es ids nodes) : nodes.map (fun x => (x.kind, x.diagnostic)) =
    (postorder es).map fun e => (e.kind, e.diagnostic?) := by
  induction h with
  | nil n => simp [postorder_nil]
  | cons parts rest ihparts ihrest => simp [postorder_cons, ihparts, ihrest, node]

theorem length_nodes (h : Laid n es ids nodes) : nodes.length = (postorder es).length := by
  simpa using congrArg List.length h.map_nodes

/-- Each number that is given out is named once, as a child or at the top. -/
theorem named_perm (h : Laid n es ids nodes) :
    (nodes.flatMap (·.children) ++ ids).Perm (List.range' n nodes.length) := by
  induction h with
  | nil n => exact .nil
  | @cons n e es ids is before after _ _ ihparts ihrest =>
    let i := n + before.length
    calc (before ++ e.node ids :: after).flatMap (·.children) ++ i :: is
        = (before.flatMap (·.children) ++ ids ++ after.flatMap (·.children)) ++ i :: is := by
          simp [node]
      _ |>.Perm (i :: (before.flatMap (·.children) ++ ids ++ after.flatMap (·.children) ++ is)) :=
          List.perm_middle
      _ |>.Perm ((before.flatMap (·.children) ++ ids) ++
            i :: (after.flatMap (·.children) ++ is)) := by
          rw [List.append_assoc _ _ is]
          exact List.perm_middle.symm
      _ |>.Perm (List.range' n before.length ++ i :: List.range' (i + 1) after.length) :=
          ihparts.append (ihrest.cons i)
      _ = List.range' n (before ++ e.node ids :: after).length := by
          rw [← List.range'_succ, List.range'_append_1]
          simp

theorem mem_ids (h : Laid n es ids nodes) {i : Nat} (hi : i ∈ ids) :
    n ≤ i ∧ i < n + nodes.length := by
  have := h.named_perm.subset (List.mem_append_right _ hi)
  simpa using this

/-- Children come before their parents. -/
theorem child_lt (h : Laid n es ids nodes) {j : Nat} {x : Node} (hx : nodes[j]? = some x) {c : Nat}
    (hc : c ∈ x.children) : c < n + j := by
  induction h generalizing j with
  | nil n => simp at hx
  | @cons n e es ids is before after parts _ ihparts ihrest =>
    -- the node is one of the parts, the whole, or comes later
    rcases Nat.lt_trichotomy j before.length with hj | rfl | hj
    · rw [List.getElem?_append_left hj] at hx
      exact ihparts hx
    · have hx : e.node ids = x := by simpa using hx
      subst hx
      exact (parts.mem_ids hc).2
    · obtain ⟨k, rfl⟩ := Nat.exists_eq_add_of_lt hj
      rw [List.getElem?_append_right hj.le] at hx
      have hx : after[k]? = some x := by simpa [Nat.add_assoc] using hx
      have := ihrest hx
      omega

end Laid

/-- What an expression becomes is like a tree. -/
theorem treelike_of_laid {e : Expr} {body : NodeId} {nodes : List Node}
    (h : Laid 0 [e] [body] nodes) :
    Draft.Treelike ((⟨nodes.toArray⟩ : Draft).rooted body) := by
  have hperm := h.named_perm
  have hrooted : ((⟨nodes.toArray⟩ : Draft).rooted body).toList.flatMap (·.children) =
      nodes.flatMap (·.children) ++ [body] := by simp [Draft.rooted]
  refine ⟨fun p hp (c : Nat) hc => ?_, ?_, fun i hi => ?_⟩
  · have hlt : c < p := by
      rcases Nat.lt_succ_iff_lt_or_eq.1 (by simpa using hp : p < nodes.length + 1) with hlt | rfl
      · have hx : nodes[p]? = some nodes[p] := List.getElem?_eq_getElem hlt
        have hc : c ∈ nodes[p].children := by simpa [Draft.rooted, Array.getElem_push, hlt] using hc
        have := h.child_lt hx hc
        omega
      · have hc : c = body := by simpa [Draft.rooted] using hc
        subst hc
        have := (h.mem_ids List.mem_cons_self).2
        omega
    exact ⟨hlt.trans hp, hlt⟩
  · rw [hrooted]
    exact hperm.nodup_iff.2 List.nodup_range'
  · rw [← List.mem_flatMap, hrooted, hperm.mem_iff]
    simpa using hi

/-- Every expression makes a tree, with its nodes as they are laid out. -/
theorem exists_toTree (e : Expr) : ∃ body nodes t, Laid 0 [e] [body] nodes ∧
    (⟨nodes.toArray⟩ : Draft).finish body = .ok t ∧ e.toTree = .ok t := by
  obtain ⟨ids, nodes, hbuild, h⟩ := exists_laid [e] .empty
  obtain ⟨rfl, hd⟩ : [(e.build .empty).1] = ids ∧ (e.build .empty).2 = ⟨nodes.toArray⟩ := by
    simpa [buildAll, Draft.empty] using hbuild
  obtain ⟨t, ht⟩ := Draft.exists_finish_of_treelike (treelike_of_laid h)
  refine ⟨_, nodes, t, h, ht, ?_⟩
  show (e.build .empty).2.finish (e.build .empty).1 = .ok t
  rw [hd, ht]

end Expr
end StreamLang
