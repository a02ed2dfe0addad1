import StreamLang.Proofs.Engine.FromScratch
import StreamLang.Proofs.Reaction.Run
/-!
Sessions over trees with one reaction. Main statement: when a pass that is committed has run a
reaction that had a state, it has written the next state, as it follows from the snapshot and the
values of the pass, provided that what is volatile below the reaction is known to be so, and that the
session has confused no values and has forgotten of none that it is dirty.
-/
namespace StreamLang

open Machine

/-- The values that nodes have in a pass with the next tick. -/
def Pass.values (p : Pass) (i : NodeId) : Value := (p.setting.came p.next.record i).getD default

/-- The world in which a pass takes place that was started on an engine. -/
def Pass.world (p : Pass) (before : Engine) : World := p.setting.world before.scopes

namespace Stage

variable {before : Engine} {p : Pass}

/-- A pass that is committed with the next tick and has run the reaction, which had a state, has
written the state that follows. -/
theorem Reached.next_state (h : Reached Tree.InPlace Pass.Careful (busy before p)) (hf : p.Faithful)
    (hc : p.commits = true) {r : NodeId} {n : Node} {V : NodeId → Value} {kept v : Value}
    (rx : p.setting.program.tree.Reactive r n) (sheltered : p.setting.program.tree.Sheltered r)
    (hV : p.setting.program.tree.Valued r (p.world before) p.values V)
    (hkept : p.setting.cache.value? r = some kept) (hv : p.next.record.written? r = some v) :
    v = Tree.nextState r n V kept := by
  simp only [Pass.commits, Bool.and_eq_true, Bool.not_eq_true'] at hc
  obtain ⟨hunfinished, hend⟩ := hc
  obtain ⟨result, hend⟩ := Option.isSome_iff_exists.1 hend
  obtain ⟨t, -, ⟨ht, left, w, w', U, V', u⟩ | past⟩ := h.coherent
  swap
  · simp [past.settled.finished] at hunfinished
  obtain rfl := u.tree_eq
  obtain ⟨k, hcommitted⟩ := u.isOpen.committed hf hend
  obtain ⟨hrun, hallowed, -⟩ := hcommitted.concluded
  have sound := (u.arrived_of_committed hcommitted (Tree.Focus.mindful_stateless p.setting)).sound
  have found (q b c : NodeId) (hq : p.setting.program.tree.Precedes q b c)
      (hcr : p.setting.program.tree.Within c r) (hb : p.setting.program.tree.Stateless b) :
      p.values b = V' b := by
    have hr : p.next.record.Wrote r := Record.wrote_iff.2 (by simp [hv])
    rw [Pass.values, (sound.before r q b c hr hq hcr hb).came]
    rfl
  have same := rx.eq_of_stateless hV
    (fun i _ => u.begun.renewed.after i fun _ => Tree.Focus.not_reacts_stateless) u.begun.snapshot.symm
    u.begun.policy.symm u.outer.symm found
  have recurring : Recurring p.setting.program.tree r n (p.world before) p.values V kept p.setting :=
    { program := u.begun.program, reactive := rx, valued := hV, snapshot := rfl, policy := rfl
      states := rfl, kept := hkept
      stands := fun _ _ _ hi hs tells hr => u.begun.stands rx sheltered same hi hs tells hr }
  have fits : p.setting.program.tree.Fits r V p.setting p.setting.program.tree.root
      ((Machine.start before.scopes).run p.setting false k).record := by
    intro j u _ hj hcame
    rw [hV.outside j hj, Pass.values, hrun, hcame]
    rfl
  exact recurring.written_of_run u.root u.nested u.globals_lt rfl hallowed (hrun ▸ hend) fits
    (hrun ▸ hv)

end Stage

/-! A reaction that adds a letter to its state with each key, in a block with one bind: in the one
program of the letter, in the other of the new text. -/

namespace Growing

/-- The reaction with the given parts of its block, which is node 7. -/
def draft (parts : Array Node) : Draft :=
  ⟨#[⟨.text "", [], none, none⟩, ⟨.changed "keyboard", [], none, none⟩] ++ parts ++
    #[⟨.reaction, [0, 1, 7], none, none⟩]⟩

/-- `x` stands for the letter. -/
def ofLetter : Array Node :=
  #[⟨.text "a", [], none, none⟩, ⟨.bind "x", [2], none, none⟩, ⟨.previous, [], none, none⟩,
    ⟨.reference "x", [], none, none⟩, ⟨.binary [.add], [4, 5], none, none⟩, ⟨.block, [3, 6], none, none⟩]

/-- `x` stands for the state with the letter added. -/
def ofText : Array Node :=
  #[⟨.previous, [], none, none⟩, ⟨.text "a", [], none, none⟩, ⟨.binary [.add], [2, 3], none, none⟩,
    ⟨.bind "x", [4], none, none⟩, ⟨.reference "x", [], none, none⟩, ⟨.block, [5, 6], none, none⟩]

def tree (parts : Array Node) : Tree := (((draft parts).finish 8).toOption).getD ⟨#[], 0⟩

def catalog : Catalog := ⟨[("keyboard", ⟨"keyboard", .push, .text, .text ""⟩)]⟩

def fresh (parts : Array Node) : Engine := .load (tree parts) catalog .default

/-- After one pass and a key. -/
def once (parts : Array Node) : Engine := (fresh parts).passed.told "keyboard" (.text "k")

/-- After two passes, each with a key after it. -/
def twice (parts : Array Node) : Engine := (once parts).passed.told "keyboard" (.text "k")

/-- The third pass after so many ticks. -/
def third (parts : Array Node) (n : Nat) : Pass := Nat.iterate Pass.tick n (.opened (twice parts))

/-- The third pass before its last tick, if the block binds the letter. -/
def addsLetter : Pass := third ofLetter 22

/-- The third pass before its last tick, if the block binds the new text. -/
def addsText : Pass := third ofText 24

/-- The reaction, below the root. -/
def node : Node := ⟨.reaction, [0, 1, 7], some 9, none⟩

/-- All nodes before the reaction lie below it. -/
def Shaped (t : Tree) : Prop := t.Reactive 8 node ∧ ∀ i, t.Below 8 i ↔ i < 8

def isAtom : Value → Bool
  | .text _ | .boolean _ => true
  | _ => false

/-- Texts and truth values are found equal only to themselves. -/
theorem eq_of_equal {u v : Value} (h : isAtom u = true) (heq : u.equal v = true) : u = v := by
  cases u <;> simp only [isAtom, Bool.false_eq_true] at h <;> cases v <;> simp_all [Value.equal]

theorem eq_of_any {o : Option Value} {u : Value} (hu : isAtom u = true)
    (h : o.any (u.equal ·) = true) : o = some u := by
  obtain ⟨v, rfl, heq⟩ := (Option.any_eq_true _ _).1 h
  rw [eq_of_equal hu heq]

/-- What can be read off a pass that does not find any marked node to be up to date. -/
@[mk_iff]
structure Quiet (parts : Array Node) (e : Engine) : Prop where
  tree_eq : (Pass.opened e).setting.program.tree = tree parts
  atoms : ∀ i < (tree parts).size, ((Pass.opened e).setting.cache.value? i).all isAtom = true
  cleaned : ((Machine.start e.scopes).finish (Pass.opened e).setting false).record.cleaned = []

instance (parts : Array Node) (e : Engine) : Decidable (Quiet parts e) :=
  decidable_of_iff _ (quiet_iff parts e).symm

theorem Quiet.careful {parts : Array Node} {e : Engine} (h : Quiet parts e) (k : Nat) :
    (Nat.iterate Pass.tick k (.opened e)).Careful := by
  refine ⟨fun i v _ hbind u hu heq => ?_, fun i _ _ _ =>
    Pass.not_sweeps_of_cleaned h.cleaned k i⟩
  rw [Pass.setting_iterate_tick] at hbind hu
  rw [h.tree_eq] at hbind
  obtain ⟨kind, hk, -⟩ := (Option.any_eq_true _ _).1 hbind
  have hatom := h.atoms i (Tree.lt_size_of_kind hk)
  rw [hu] at hatom
  exact eq_of_equal hatom heq

/-- What can be read off a program and its first passes. -/
@[mk_iff]
structure Checked (parts : Array Node) : Prop where
  built : (draft parts).finish 8 = .ok (tree parts)
  node_eq : (tree parts).node? 8 = some node
  kinds : ∀ i < (tree parts).size, i ≠ 8 →
    ((tree parts).kind? i).all (fun k => k.isPlain || k == .previous) = true
  below : ∀ i < 8, (tree parts).isAncestorOrSelf 8 i = true
  once_told : ((fresh parts).passed.addEvent "keyboard" (.text "k")).toOption.isSome = true
  once_runs : (once parts).stopped = false ∧ (once parts).config.conflictPolicy = .attach
  twice_told : ((once parts).passed.addEvent "keyboard" (.text "k")).toOption.isSome = true
  twice_runs : (twice parts).stopped = false ∧ (twice parts).config.conflictPolicy = .attach
  quiet : ∀ e ∈ [fresh parts, once parts, twice parts], Quiet parts e

theorem checked_ofLetter : Checked ofLetter := (checked_iff ofLetter).2 (by decide +kernel)

theorem checked_ofText : Checked ofText := (checked_iff ofText).2 (by decide +kernel)

theorem Checked.shaped {parts : Array Node} (h : Checked parts) : Shaped (tree parts) := by
  have o : (tree parts).Ordered := Draft.finish_ordered h.built
  refine ⟨⟨⟨_, _, h.built⟩, ⟨h.node_eq, rfl, rfl⟩, rfl, fun i k hi hne => ?_⟩,
    fun i => ⟨fun hi => ?_, fun hi => ?_⟩⟩
  · have := h.kinds i (Tree.lt_size_of_kind hi) hne
    simpa [hi] using this
  · exact Nat.lt_of_le_of_ne (o.within_le hi.1) hi.2
  · exact ⟨o.isAncestorOrSelf_iff.1 (h.below i hi), Nat.ne_of_lt hi⟩

theorem Checked.careful {parts : Array Node} (h : Checked parts) (n : Nat) : (third parts n).Careful :=
  (h.quiet _ (by simp)).careful n

theorem Checked.reached {parts : Array Node} (h : Checked parts) (n : Nat) :
    Stage.Reached Tree.InPlace Pass.Careful (.busy (twice parts) (third parts n)) := by
  have hnew : Engine.new (tree parts) catalog .default = .ok (fresh parts) := rfl
  have first : Stage.Reached Tree.InPlace Pass.Careful (.idle (fresh parts).passed) :=
    ((Stage.Reached.new h.shaped.1.inPlace hnew).passed rfl rfl (h.quiet _ (by simp)).careful).step
      .leave
  have key : Stage.Reached Tree.InPlace Pass.Careful (.idle (once parts)) :=
    first.told "keyboard" (.text "k") h.once_told
  have second : Stage.Reached Tree.InPlace Pass.Careful (.idle (once parts).passed) :=
    (key.passed h.once_runs.1 h.once_runs.2 (h.quiet _ (by simp)).careful).step .leave
  have typed : Stage.Reached Tree.InPlace Pass.Careful (.idle (twice parts)) :=
    second.told "keyboard" (.text "k") h.twice_told
  exact (typed.step (.start (Pass.start_eq_opened h.twice_runs.1 h.twice_runs.2))).ticks n
    fun k _ => h.careful k

/-- Values as they are listed, and others as in `U`. -/
def listed (values : List Value) (U : NodeId → Value) (i : NodeId) : Value := (values[i]?).getD (U i)

/-- Listed values are those of the nodes below the reaction if each is found equal to the value that
follows from the others. -/
theorem valued {t : Tree} (ht : Shaped t) {w : World} {U : NodeId → Value} (values : List Value)
    (hlen : values.length = 8) (atoms : ∀ i < 8, isAtom (listed values U i) = true)
    (follow : ∀ i < 8, (listed values U i).equal (t.valueFrom w (listed values U) i) = true) :
    t.Valued 8 w U (listed values U) where
  outside i hi := by
    have hle : values.length ≤ i := hlen ▸ Nat.le_of_not_lt fun h => hi ((ht.2 i).2 h)
    simp [listed, List.getElem?_eq_none hle]
  below i hi := eq_of_equal (atoms i ((ht.2 i).1 hi)) (follow i ((ht.2 i).1 hi))

/-! The values below the reaction in the third pass. -/

def letterValues : List Value :=
  [.text "", .boolean true, .text "a", .text "a", .text "a", .text "a", .text "aa", .text "aa"]

def textValues : List Value :=
  [.text "", .boolean true, .text "a", .text "a", .text "aa", .text "aa", .text "aa", .text "aa"]

/-- What can be read off the third pass before its last tick, given the values in it and the state
that the reaction gets. -/
@[mk_iff]
structure Adds (parts : Array Node) (p : Pass) (values : List Value) (next : String) : Prop where
  tree_eq : p.setting.program.tree = tree parts
  atoms : ∀ i < 8, isAtom (listed values p.values i) = true
  follow : ∀ i < 8, (listed values p.values i).equal
    ((tree parts).valueFrom (p.world (twice parts)) (listed values p.values) i) = true
  kept : (p.setting.cache.value? 8).any ((Value.text "a").equal ·) = true
  written : (p.next.record.written? 8).any ((Value.text next).equal ·) = true
  reuses : (p.setting.reuse? p.next.record 3).isSome = true
  commits : p.commits = true

theorem adds_addsLetter : Adds ofLetter addsLetter letterValues "aa" :=
  (adds_iff ..).2 (by decide +kernel)

theorem adds_addsText : Adds ofText addsText textValues "a" :=
  (adds_iff ..).2 (by decide +kernel)

theorem sheltered_ofLetter : (tree ofLetter).Sheltered 8 := by
  have all : ∀ i < 8, ∀ b < 8, (tree ofLetter).resolution? i = some (.bind b) →
      (Analysis.ofTree (tree ofLetter)).isVolatile b = true →
      (Analysis.ofTree (tree ofLetter)).isVolatile i = true := by decide +kernel
  have below := checked_ofLetter.shaped.2
  exact fun i b hi hb => all i ((below i).1 hi) b ((below b).1 hb)

theorem tree_addsLetter : addsLetter.setting.program.tree = tree ofLetter := adds_addsLetter.tree_eq

theorem tree_addsText : addsText.setting.program.tree = tree ofText := adds_addsText.tree_eq

theorem valued_addsLetter : (tree ofLetter).Valued 8 (addsLetter.world (twice ofLetter))
    addsLetter.values (listed letterValues addsLetter.values) :=
  valued checked_ofLetter.shaped _ rfl adds_addsLetter.atoms adds_addsLetter.follow

theorem valued_addsText : (tree ofText).Valued 8 (addsText.world (twice ofText)) addsText.values
    (listed textValues addsText.values) :=
  valued checked_ofText.shaped _ rfl adds_addsText.atoms adds_addsText.follow

end Growing

/-- The third pass of the program whose block binds the letter adds another one, and uses the
committed value of the bind for it. -/
theorem Stage.Reached.letter_next_state : ∃ v,
    Growing.addsLetter.next.record.written? 8 = some v ∧ v.equal (.text "aa") = true ∧
    (Growing.addsLetter.setting.reuse? Growing.addsLetter.next.record 3).isSome = true ∧
    v = Tree.nextState 8 Growing.node (Growing.listed Growing.letterValues Growing.addsLetter.values)
      (.text "a") := by
  have tree := Growing.tree_addsLetter
  have reached : Stage.Reached Tree.InPlace Pass.Careful
      (.busy (Growing.twice Growing.ofLetter) Growing.addsLetter) := Growing.checked_ofLetter.reached 22
  have careful : Growing.addsLetter.Careful := Growing.checked_ofLetter.careful 22
  have adds := Growing.adds_addsLetter
  have written : Growing.addsLetter.next.record.written? 8 = some (.text "aa") :=
    Growing.eq_of_any rfl adds.written
  have kept : Growing.addsLetter.setting.cache.value? 8 = some (.text "a") :=
    Growing.eq_of_any rfl adds.kept
  exact ⟨_, written, rfl, adds.reuses, Stage.Reached.next_state reached careful.faithful adds.commits
    (tree ▸ Growing.checked_ofLetter.shaped.1) (tree ▸ Growing.sheltered_ofLetter)
    (tree ▸ Growing.valued_addsLetter) kept written⟩

/-- If the block binds the new text, the reference to it is not taken to be volatile, and the third
pass uses its committed value, which was right in the state before. -/
theorem Stage.Reached.exists_not_next_state :
    ¬ ∀ before p r n V kept v, Reached Tree.InPlace Pass.Careful (busy before p) → p.Faithful →
      p.commits = true → p.setting.program.tree.Reactive r n →
      p.setting.program.tree.Valued r (p.world before) p.values V →
      p.setting.cache.value? r = some kept → p.next.record.written? r = some v →
      v = Tree.nextState r n V kept := by
  intro h
  have tree := Growing.tree_addsText
  have reached : Stage.Reached Tree.InPlace Pass.Careful
      (.busy (Growing.twice Growing.ofText) Growing.addsText) := Growing.checked_ofText.reached 24
  have careful : Growing.addsText.Careful := Growing.checked_ofText.careful 24
  have adds := Growing.adds_addsText
  have written : Growing.addsText.next.record.written? 8 = some (.text "a") :=
    Growing.eq_of_any rfl adds.written
  have kept : Growing.addsText.setting.cache.value? 8 = some (.text "a") :=
    Growing.eq_of_any rfl adds.kept
  have heq : Value.text "a" = .text "aa" :=
    h _ _ 8 Growing.node (Growing.listed Growing.textValues Growing.addsText.values) _ _ reached
      careful.faithful adds.commits (tree ▸ Growing.checked_ofText.shaped.1)
      (tree ▸ Growing.valued_addsText) kept written
  simp at heq

end StreamLang
