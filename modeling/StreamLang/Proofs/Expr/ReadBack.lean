import StreamLang.Proofs.Expr.Layout
/-!
Expressions read back from their trees. The kind of an expression and its parts say all about it but
its diagnostics, and of these a node keeps one. So every expression makes a tree, and the tree gives
the expression back, with one diagnostic where there were several around one another
(`Expr.toTree_reads_back`).
-/
namespace StreamLang
namespace Expr

/-- The expression without the diagnostics around it. -/
def bare : Expr → Expr
  | diagnosed _ e => e.bare
  | e => e

/-- Puts a diagnostic around an expression, if there is one. -/
def around (diagnostic : Option Diagnostic) (e : Expr) : Expr :=
  match diagnostic with
  | some d => diagnosed d e
  | none => e

theorem sizeOf_snd_lt {α : Type} [SizeOf α] {x : α × Expr} {xs : List (α × Expr)} (h : x ∈ xs) :
    sizeOf x.2 < sizeOf xs := by
  have hx : sizeOf x.2 < sizeOf x := by
    obtain ⟨a, e⟩ := x
    show sizeOf e < sizeOf (a, e)
    rw [Prod.mk.sizeOf_spec]
    omega
  exact hx.trans (List.sizeOf_lt_of_mem h)

/-- The expression with the outermost diagnostic only wherever there are several around one another.
-/
def collapse : Expr → Expr
  | list items => list (items.map collapse)
  | struct fields => struct (fields.map fun field => (field.1, collapse field.2))
  | property subject name => property subject.collapse name
  | binary first rest =>
    binary first.collapse (rest.map fun operand => (operand.1, collapse operand.2))
  | unary operator operand => unary operator operand.collapse
  | conditional condition yes no => conditional condition.collapse yes.collapse no.collapse
  | function parameters body => function parameters body.collapse
  | call callee arguments => call callee.collapse (arguments.map collapse)
  | bind name value => bind name value.collapse
  | block statements => block (statements.map collapse)
  | reaction start (some condition) next =>
    reaction start.collapse (some condition.collapse) next.collapse
  | reaction start none next => reaction start.collapse none next.collapse
  | diagnosed diagnostic e => diagnosed diagnostic e.collapse.bare
  | number n => number n
  | text s => text s
  | boolean b => boolean b
  | reference name => reference name
  | stream name => stream name
  | changed name => changed name
  | previous => previous
  | placeholder => placeholder
termination_by e => sizeOf e
decreasing_by
  all_goals first
    | decreasing_tactic
    | have := sizeOf_snd_lt ‹_ ∈ _›; simp; omega

theorem collapse_reaction (start : Expr) (condition : Option Expr) (next : Expr) :
    collapse (reaction start condition next) =
      reaction start.collapse (condition.map collapse) next.collapse := by
  cases condition <;> simp [collapse]

/-- The expression of a kind with these parts, if they are as many as the kind asks for. -/
def ofParts? : NodeKind → List Expr → Option Expr
  | .number n, [] => some (number n)
  | .text s, [] => some (text s)
  | .boolean b, [] => some (boolean b)
  | .list, items => some (list items)
  | .struct names, values =>
    if names.length = values.length then some (struct (names.zip values)) else none
  | .property name, [subject] => some (property subject name)
  | .reference name, [] => some (reference name)
  | .binary operators, first :: rest =>
    if operators.length = rest.length then some (binary first (operators.zip rest)) else none
  | .unary operator, [operand] => some (unary operator operand)
  | .conditional, [condition, yes, no] => some (conditional condition yes no)
  | .function parameters, [body] => some (function parameters body)
  | .call, callee :: arguments => some (call callee arguments)
  | .bind name, [value] => some (bind name value)
  | .block, statements => some (block statements)
  | .stream name, [] => some (stream name)
  | .changed name, [] => some (changed name)
  | .reaction, [start, condition, next] => some (reaction start (some condition) next)
  | .reaction, [start, next] => some (reaction start none next)
  | .previous, [] => some previous
  | .placeholder, [] => some placeholder
  | _, _ => none

theorem zip_map_fst_snd {α β : Type} (xs : List (α × β)) :
    (xs.map Prod.fst).zip (xs.map Prod.snd) = xs := by
  simpa only [List.unzip_fst, List.unzip_snd] using List.zip_unzip xs

/-- Kind and parts say all about an expression but its diagnostics. -/
theorem ofParts?_parts (e : Expr) : ofParts? e.kind e.parts = some e.bare := by
  cases e with
  | diagnosed diagnostic e => exact ofParts?_parts e
  | struct fields => simp [kind, parts, bare, ofParts?, zip_map_fst_snd]
  | binary first rest => simp [kind, parts, bare, ofParts?, zip_map_fst_snd]
  | reaction start condition next => cases condition <;> rfl
  | _ => rfl

@[simp] theorem kind_bare (e : Expr) : e.bare.kind = e.kind := by
  cases e with
  | diagnosed diagnostic e => exact kind_bare e
  | _ => rfl

@[simp] theorem parts_bare (e : Expr) : e.bare.parts = e.parts := by
  cases e with
  | diagnosed diagnostic e => exact parts_bare e
  | _ => rfl

@[simp] theorem bare_bare (e : Expr) : e.bare.bare = e.bare := by
  cases e with
  | diagnosed diagnostic e => exact bare_bare e
  | _ => rfl

@[simp] theorem kind_collapse (e : Expr) : e.collapse.kind = e.kind := by
  cases e with
  | diagnosed diagnostic e =>
    rw [collapse]
    exact (kind_bare e.collapse).trans (kind_collapse e)
  | _ => simp [collapse, collapse_reaction, kind, Function.comp_def]

@[simp] theorem parts_collapse (e : Expr) : e.collapse.parts = e.parts.map collapse := by
  cases e with
  | diagnosed diagnostic e =>
    rw [collapse]
    exact (parts_bare e.collapse).trans (parts_collapse e)
  | reaction start condition next => cases condition <;> simp [collapse, parts]
  | _ => simp [collapse, parts]

@[simp] theorem diagnostic?_collapse (e : Expr) : e.collapse.diagnostic? = e.diagnostic? := by
  cases e <;> simp [collapse, collapse_reaction, diagnostic?]

theorem around_bare_collapse (e : Expr) : around e.diagnostic? e.collapse.bare = e.collapse := by
  cases e <;> simp [collapse, collapse_reaction, diagnostic?, around, bare]

/-- An expression is got back from its kind, from its parts as they are got back and from the
diagnostic around it. -/
theorem around_ofParts? (e : Expr) :
    (ofParts? e.kind (e.parts.map collapse)).map (around e.diagnostic?) = some e.collapse := by
  rw [← kind_collapse, ← parts_collapse, ofParts?_parts, Option.map_some, around_bare_collapse]

end Expr

namespace Tree

/-- The expression at a node, read down to `n` levels. -/
def exprWithin (t : Tree) : Nat → NodeId → Option Expr
  | 0, _ => none
  | n + 1, i => do
    let x ← t.node? i
    let parts ← x.children.mapM (t.exprWithin n)
    (Expr.ofParts? x.kind parts).map (Expr.around x.diagnostic)

/-- The expression at a node. Numbers fall from a node to its children, as for `descendants`. -/
def expr? (t : Tree) (i : NodeId) : Option Expr := t.exprWithin (i + 1) i

/-- The expression that a program consists of. -/
def body? (t : Tree) : Option Expr :=
  match t.node? t.root with
  | some ⟨.program, [body], _, _⟩ => t.expr? body
  | _ => none

/-- A node and those below it down to `n` levels, each after its children. -/
def postorderWithin (t : Tree) : Nat → NodeId → List NodeId
  | 0, _ => []
  | n + 1, i => (t.children i).flatMap (t.postorderWithin n) ++ [i]

def postorder (t : Tree) (i : NodeId) : List NodeId := t.postorderWithin (i + 1) i

/-- From a number on, a tree has these nodes, apart from their parents. -/
def Holds (t : Tree) (n : Nat) (nodes : List Node) : Prop :=
  ∀ j x, nodes[j]? = some x → t.node? (n + j) = some { x with parent := t.parent? (n + j) }

namespace Holds

variable {t : Tree} {n : Nat} {x : Node} {xs ys : List Node}

theorem left (h : t.Holds n (xs ++ ys)) : t.Holds n xs := fun j x hx =>
  h j x (by rw [List.getElem?_append_left (List.getElem?_eq_some_iff.1 hx).1, hx])

theorem right (h : t.Holds n (xs ++ ys)) : t.Holds (n + xs.length) ys := fun j x hx => by
  rw [Nat.add_assoc]
  refine h _ x ?_
  rw [List.getElem?_append_right (Nat.le_add_right _ _), Nat.add_sub_cancel_left, hx]

theorem head (h : t.Holds n (x :: xs)) : t.node? n = some { x with parent := t.parent? n } :=
  h 0 x rfl

theorem tail (h : t.Holds n (x :: xs)) : t.Holds (n + 1) xs :=
  right (show t.Holds n ([x] ++ xs) from h)

end Holds

theorem holds_of_finish {nodes : List Node} {body : NodeId} {t : Tree}
    (h : (⟨nodes.toArray⟩ : Draft).finish body = .ok t) :
    t.Holds 0 (nodes ++ [⟨.program, [body], none, none⟩]) := by
  intro j x hx
  rw [Nat.zero_add, Draft.finish_node? h j, Draft.rooted]
  simp [hx]

variable {t : Tree}

/-- A node is read if its parts are. -/
theorem exprWithin_of_parts {e : Expr} {ids : List NodeId} {parent : Option NodeId} {k : Nat}
    {i : NodeId} (hnode : t.node? i = some { e.node ids with parent })
    (hparts : ids.mapM (t.exprWithin k) = some (e.parts.map Expr.collapse)) :
    t.exprWithin (k + 1) i = some e.collapse := by
  simp only [exprWithin, hnode, Expr.node, Option.bind_eq_bind, Option.bind_some, hparts]
  exact e.around_ofParts?

end Tree

namespace Expr.Laid

variable {t : Tree} {n : Nat} {es : List Expr} {ids : List NodeId} {nodes : List Node}

/-- Expressions are read at the numbers that they got. -/
theorem mapM_exprWithin (h : Laid n es ids nodes) (ht : t.Holds n nodes) {k : Nat}
    (hk : n + nodes.length ≤ k) : ids.mapM (t.exprWithin k) = some (es.map collapse) := by
  induction h generalizing k with
  | nil n => rfl
  | @cons n e es ids is before after _ _ ihparts ihrest =>
    rw [List.length_append, List.length_cons] at hk
    obtain ⟨k, rfl⟩ : ∃ k', k = k' + 1 := ⟨k - 1, by omega⟩
    have hparts := ihparts ht.left (k := k) (by omega)
    have hrest := ihrest ht.right.tail (k := k + 1) (by omega)
    have hread := Tree.exprWithin_of_parts ht.right.head hparts
    simp [List.mapM_cons, hread, hrest]

/-- An expression is read where it lies, after its parts. -/
theorem expr?_whole {e : Expr} {before after : List Node} (parts : Laid n e.parts ids before)
    (ht : t.Holds n (before ++ e.node ids :: after)) :
    t.expr? (n + before.length) = some e.collapse :=
  Tree.exprWithin_of_parts ht.right.head (parts.mapM_exprWithin ht.left (Nat.le_refl _))

/-- At every number one reads the expression that has its place in the order. -/
theorem map_expr? (h : Laid n es ids nodes) (ht : t.Holds n nodes) :
    (List.range' n nodes.length).map t.expr? = (postorder es).map (some ∘ collapse) := by
  induction h with
  | nil n => simp [postorder_nil]
  | @cons n e es ids is before after parts _ ihparts ihrest =>
    have hread := parts.expr?_whole ht
    rw [postorder_cons, List.map_append, List.map_cons, ← ihparts ht.left, ← ihrest ht.right.tail,
      List.length_append, List.length_cons, ← List.range'_append_1, List.range'_succ,
      List.map_append, List.map_cons, hread]
    rfl

/-- Going through the tree with every node after its children gives the numbers in their order. -/
theorem flatMap_postorderWithin (h : Laid n es ids nodes) (ht : t.Holds n nodes) {k : Nat}
    (hk : n + nodes.length ≤ k) :
    ids.flatMap (t.postorderWithin k) = List.range' n nodes.length := by
  induction h generalizing k with
  | nil n => rfl
  | @cons n e es ids is before after _ _ ihparts ihrest =>
    rw [List.length_append, List.length_cons] at hk
    obtain ⟨k, rfl⟩ : ∃ k', k = k' + 1 := ⟨k - 1, by omega⟩
    have hchildren : t.children (n + before.length) = ids := by
      rw [Tree.children, ht.right.head]
      rfl
    rw [List.flatMap_cons, Tree.postorderWithin, hchildren, ihparts ht.left (by omega),
      ihrest ht.right.tail (by omega), List.length_append, List.length_cons,
      ← List.range'_append_1, List.range'_succ, List.append_assoc]
    rfl

/-- An expression has the last number of those that it needs, and is read there. -/
theorem last {e : Expr} {body : NodeId} (h : Laid 0 [e] [body] nodes) (ht : t.Holds 0 nodes) :
    nodes.length = body + 1 ∧ t.expr? body = some e.collapse := by
  cases h with
  | cons parts rest =>
    cases rest
    exact ⟨by simp, parts.expr?_whole ht⟩

end Expr.Laid

namespace Expr

theorem node_collapse (e : Expr) (ids : List NodeId) : e.collapse.node ids = e.node ids := by
  simp [node]

theorem buildAll_collapse (es : List Expr) (d : Draft) :
    buildAll (es.map collapse) d = buildAll es d := by
  induction es using postorder.induct generalizing d with
  | case1 => rfl
  | case2 e es ihparts ihrest =>
    simp only [List.map_cons, buildAll, build_eq, parts_collapse, ihparts, node_collapse, ihrest]

/-- An expression and what it collapses to make the same tree. -/
theorem toTree_collapse (e : Expr) : e.collapse.toTree = e.toTree := by
  have hbuild : e.collapse.build .empty = e.build .empty := by
    simp only [build_eq, parts_collapse, buildAll_collapse, node_collapse]
  rw [toTree, toTree, hbuild]

/-- Every expression makes a tree. This has one node for each expression within, apart from
diagnostics, and the root; they are numbered as they are met when every part is looked at before the
whole. What is read at each number is the expression in its place, and at the top the expression
itself, with the outermost diagnostic only where there were several around one another. -/
theorem toTree_reads_back (e : Expr) : ∃ t, e.toTree = .ok t ∧
    t.size = (postorder [e]).length + 1 ∧ t.postorder t.root = t.ids ∧
    (List.range t.root).map t.expr? = (postorder [e]).map (some ∘ collapse) ∧
    t.node? t.root = some ⟨.program, [t.root - 1], none, none⟩ ∧
    t.body? = some e.collapse := by
  obtain ⟨body, nodes, t, h, ht, htree⟩ := exists_toTree e
  have holds := Tree.holds_of_finish ht
  obtain ⟨hlast, hread⟩ := h.last holds.left
  have hroot : t.root = nodes.length := Draft.finish_root_eq ht
  have hsize : t.size = nodes.length + 1 := hroot ▸ Draft.finish_root ht
  have accepted : t.Accepted := ⟨_, body, ht⟩
  have htop : t.node? t.root = some ⟨.program, [body], none, none⟩ := by
    have htop := holds.right.head
    rw [Nat.zero_add, ← hroot, accepted.parent_root] at htop
    exact htop
  refine ⟨t, htree, ?_, ?_, ?_, ?_, ?_⟩
  · rw [hsize, h.length_nodes]
  · have hchildren : t.children t.root = [body] := by
      rw [Tree.children, htop]
      rfl
    have hbelow : [body].flatMap (t.postorderWithin t.root) = List.range' 0 nodes.length :=
      h.flatMap_postorderWithin holds.left (by rw [Nat.zero_add]; exact hroot.ge)
    calc t.postorder t.root
        = [body].flatMap (t.postorderWithin t.root) ++ [t.root] := by
          rw [Tree.postorder, Tree.postorderWithin, hchildren]
      _ = List.range nodes.length ++ [nodes.length] := by rw [hbelow, hroot, List.range_eq_range']
      _ = t.ids := by rw [Tree.ids, hsize, List.range_succ]
  · rw [hroot, List.range_eq_range']
    exact h.map_expr? holds.left
  · rw [htop, hroot, hlast, Nat.add_sub_cancel]
  · rw [Tree.body?, htop]
    exact hread

end Expr
end StreamLang
