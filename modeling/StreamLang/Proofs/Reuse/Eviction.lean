import Mathlib.Data.List.Perm.Basic
import Mathlib.Data.Prod.Lex
import StreamLang.Reactor
/-!
Which entries eviction takes. `Cache.Cut` says so without a way to do it: as many entries stay as there is
room for, besides the states of reactions, and those that go are older than those that stay. A cache can be
cut down in one way only (`Cut.unique`), and eviction does it (`evict_cut`), in whatever order it comes by the
entries (`evictable_of_perm`).
-/
namespace StreamLang
namespace Cache

/-- The nodes whose entries are not the states of reactions. -/
def plain (c : Cache) : List NodeId := (c.entries.toList.filter (!·.2.reaction)).map Prod.fst

/-- The nodes that eviction goes through, the oldest entry first. -/
def queue (c : Cache) : List NodeId := c.evictable.map Prod.fst

/-- Entries are as old as the pass that committed them, and in one pass the lower node comes first. -/
def age (p : NodeId × CacheEntry) : Lex (Nat × Nat) := toLex (p.2.pass, p.1)

/-- Both nodes have entries, and that of the first is older. -/
def Before (c : Cache) (i j : NodeId) : Prop :=
  ∃ e d, c.find? i = some e ∧ c.find? j = some d ∧ age (i, e) < age (j, d)

/-- The cache is cut down to `rest`, with room for so many entries besides the states of reactions. The nodes
that have lost their entries are `gone`, and all other entries are as they were. -/
structure Cut (c : Cache) (capacity : Nat) (gone : List NodeId) (rest : Cache) : Prop where
  plain : ∀ i ∈ gone, i ∈ c.plain
  find? : ∀ i, rest.find? i = if i ∈ gone then none else c.find? i
  count : rest.plain.length = min c.plain.length capacity
  /-- What stays is newer than what goes. -/
  newest : ∀ i ∈ gone, ∀ j ∈ rest.plain, c.Before i j
  /-- The oldest goes first. -/
  ordered : gone.Pairwise c.Before

variable {c rest rest' : Cache} {capacity : Nat} {gone gone' : List NodeId} {i j : NodeId} {e : CacheEntry}

theorem Before.asymm (h : c.Before i j) : ¬ c.Before j i := by
  rintro ⟨d', e', hd', he', h'⟩
  obtain ⟨e, d, he, hd, h⟩ := h
  obtain rfl := Option.some.inj (he.symm.trans he')
  obtain rfl := Option.some.inj (hd.symm.trans hd')
  exact lt_asymm h h'

theorem Before.ne (h : c.Before i j) : i ≠ j := by
  rintro rfl
  exact h.asymm h

theorem Before.pass_le {d : CacheEntry} (h : c.Before i j) (he : c.find? i = some e)
    (hd : c.find? j = some d) : e.pass ≤ d.pass := by
  obtain ⟨e', d', he', hd', h⟩ := h
  obtain rfl := Option.some.inj (he.symm.trans he')
  obtain rfl := Option.some.inj (hd.symm.trans hd')
  rcases Prod.Lex.lt_iff.1 h with h | ⟨h, -⟩
  · exact Nat.le_of_lt h
  · exact Nat.le_of_eq h

/-! ### What eviction goes through -/

theorem older_iff {a b : NodeId × CacheEntry} : older a b = true ↔ age a ≤ age b := by
  simp [older, age, Prod.Lex.le_iff]

theorem insertByAge_perm (a : NodeId × CacheEntry) (l : List (NodeId × CacheEntry)) :
    (insertByAge a l).Perm (a :: l) := by
  induction l with
  | nil => exact .refl _
  | cons b rest ih =>
    unfold insertByAge
    split
    · exact .refl _
    · exact (ih.cons b).trans (.swap a b rest)

theorem sortByAge_perm (l : List (NodeId × CacheEntry)) : (sortByAge l).Perm l := by
  induction l with
  | nil => exact .refl _
  | cons a rest ih => exact (insertByAge_perm a _).trans (ih.cons a)

theorem mem_evictable : (i, e) ∈ c.evictable ↔ c.find? i = some e ∧ e.reaction = false := by
  rw [evictable, (sortByAge_perm _).mem_iff, List.mem_filter, Std.ExtTreeMap.mem_toList_iff_getElem?_eq_some, find?]
  simp

theorem queue_perm (c : Cache) : c.queue.Perm c.plain := (sortByAge_perm _).map _

theorem mem_plain : i ∈ c.plain ↔ ∃ e, c.find? i = some e ∧ e.reaction = false := by
  rw [← c.queue_perm.mem_iff, queue, List.mem_map]
  constructor
  · rintro ⟨⟨i, e⟩, h, rfl⟩
    exact ⟨e, mem_evictable.1 h⟩
  · rintro ⟨e, h⟩
    exact ⟨(i, e), mem_evictable.2 h, rfl⟩

theorem nodup_plain (c : Cache) : c.plain.Nodup := by
  refine List.Nodup.sublist (List.filter_sublist.map Prod.fst) ?_
  rw [Std.ExtTreeMap.map_fst_toList_eq_keys]
  exact Std.ExtTreeMap.nodup_keys

theorem nodup_queue (c : Cache) : c.queue.Nodup := c.queue_perm.nodup_iff.2 c.nodup_plain

theorem pairwise_insertByAge {a : NodeId × CacheEntry} {l : List (NodeId × CacheEntry)}
    (h : l.Pairwise fun a b => age a ≤ age b) :
    (insertByAge a l).Pairwise fun a b => age a ≤ age b := by
  induction l with
  | nil => exact List.pairwise_singleton _ a
  | cons b rest ih =>
    obtain ⟨hb, hrest⟩ := List.pairwise_cons.1 h
    unfold insertByAge
    split
    · have hab := older_iff.1 ‹_›
      refine List.pairwise_cons.2 ⟨fun d hd => ?_, h⟩
      rcases List.mem_cons.1 hd with rfl | hd
      · exact hab
      · exact le_trans hab (hb d hd)
    · have hba := le_of_not_ge (mt older_iff.2 ‹_›)
      refine List.pairwise_cons.2 ⟨fun d hd => ?_, ih hrest⟩
      rcases List.mem_cons.1 ((insertByAge_perm a rest).subset hd) with rfl | hd
      · exact hba
      · exact hb d hd

theorem pairwise_sortByAge (l : List (NodeId × CacheEntry)) :
    (sortByAge l).Pairwise fun a b => age a ≤ age b := by
  induction l with
  | nil => exact List.Pairwise.nil
  | cons a rest ih => exact pairwise_insertByAge ih

/-- Eviction goes through the entries from the oldest to the newest. -/
theorem pairwise_queue (c : Cache) : c.queue.Pairwise c.Before := by
  rw [queue, List.pairwise_map]
  refine ((pairwise_sortByAge _).and (List.pairwise_map.1 c.nodup_queue)).imp_of_mem ?_
  rintro ⟨i, e⟩ ⟨j, d⟩ hi hj ⟨hle, hne⟩
  refine ⟨e, d, (mem_evictable.1 hi).1, (mem_evictable.1 hj).1, lt_of_le_of_ne hle fun heq => hne ?_⟩
  exact congrArg (fun p => (ofLex p).2) heq

/-- The order in which the entries are come by does not matter. -/
theorem evictable_of_perm {entries : List (NodeId × CacheEntry)} (h : entries.Perm c.entries.toList) :
    sortByAge (entries.filter (!·.2.reaction)) = c.evictable := by
  have perm : (sortByAge (entries.filter (!·.2.reaction))).Perm c.evictable :=
    (sortByAge_perm _).trans ((h.filter _).trans (sortByAge_perm _).symm)
  refine List.Perm.eq_of_pairwise ?_ (pairwise_sortByAge _) (pairwise_sortByAge _) perm
  rintro ⟨i, e⟩ ⟨j, d⟩ hi hj hle hge
  obtain rfl : i = j := congrArg (fun p => (ofLex p).2) (le_antisymm hle hge)
  have he := (mem_evictable.1 (perm.subset hi)).1
  obtain rfl := Option.some.inj (he.symm.trans (mem_evictable.1 hj).1)
  rfl

/-! ### What is left -/

/-- When nodes lose their entries, the others keep theirs. -/
theorem mem_plain_of_gone (h : ∀ i, rest.find? i = if i ∈ gone then none else c.find? i) :
    i ∈ rest.plain ↔ i ∈ c.plain ∧ i ∉ gone := by
  rw [mem_plain, mem_plain, h]
  by_cases hi : i ∈ gone <;> simp [hi]

theorem find?_evict (c : Cache) (capacity : Nat) (i : NodeId) :
    (c.evict capacity).2.find? i = if i ∈ (c.evict capacity).1 then none else c.find? i :=
  find?_foldl_remove _ _ _

theorem evict_fst (c : Cache) (capacity : Nat) :
    (c.evict capacity).1 = c.queue.take (c.plain.length - capacity) := by
  rw [← c.queue_perm.length_eq, queue, List.length_map, ← List.map_take]
  rfl

theorem mem_plain_of_evict (h : i ∈ (c.evict capacity).1) : i ∈ c.plain := by
  rw [evict_fst] at h
  exact c.queue_perm.subset (List.mem_of_mem_take h)

/-- Besides the states of reactions just the newest entries stay. -/
theorem plain_evict_perm (c : Cache) (capacity : Nat) :
    (c.evict capacity).2.plain.Perm (c.queue.drop (c.plain.length - capacity)) := by
  have nodup := c.nodup_queue
  rw [List.perm_ext_iff_of_nodup (nodup_plain _) (nodup.sublist (List.drop_sublist _ _))]
  intro i
  have split := List.take_append_drop (c.plain.length - capacity) c.queue
  rw [mem_plain_of_gone (c.find?_evict capacity), evict_fst, ← c.queue_perm.mem_iff]
  rw [← split, List.nodup_append] at nodup
  constructor
  · rintro ⟨hi, hn⟩
    rw [← split, List.mem_append] at hi
    exact hi.resolve_left hn
  · intro hi
    exact ⟨List.mem_of_mem_drop hi, fun hn => nodup.2.2 i hn i hi rfl⟩

/-- Eviction cuts a cache down. -/
theorem evict_cut (c : Cache) (capacity : Nat) :
    c.Cut capacity (c.evict capacity).1 (c.evict capacity).2 := by
  have sorted := c.pairwise_queue
  rw [← List.take_append_drop (c.plain.length - capacity) c.queue, List.pairwise_append,
    ← evict_fst] at sorted
  obtain ⟨ordered, -, newest⟩ := sorted
  refine ⟨fun _ => mem_plain_of_evict, c.find?_evict capacity, ?_, fun i hi j hj => ?_, ordered⟩
  · rw [(c.plain_evict_perm capacity).length_eq, List.length_drop, c.queue_perm.length_eq]
    omega
  · exact newest i hi j ((c.plain_evict_perm capacity).subset hj)

namespace Cut

/-- Cutting down only removes. -/
theorem find?_of_rest (h : c.Cut capacity gone rest) (he : rest.find? i = some e) :
    c.find? i = some e := by
  rw [h.find?] at he
  split at he
  · cases he
  · exact he

/-- It never takes the state of a reaction. -/
theorem find?_of_reaction (h : c.Cut capacity gone rest) (he : c.find? i = some e)
    (hr : e.reaction = true) : rest.find? i = some e := by
  rw [h.find?, if_neg, he]
  intro hi
  obtain ⟨d, hd, hplain⟩ := mem_plain.1 (h.plain i hi)
  obtain rfl := Option.some.inj (he.symm.trans hd)
  rw [hr] at hplain
  cases hplain

/-! ### There is no other way -/

theorem nodup (h : c.Cut capacity gone rest) : gone.Nodup := h.ordered.imp Before.ne

/-- What goes in one way of cutting down goes in every other. -/
theorem mem_gone (h : c.Cut capacity gone rest) (h' : c.Cut capacity gone' rest') (hi : i ∈ gone') :
    i ∈ gone := by
  by_contra hn
  have stays : i ∈ rest.plain := (mem_plain_of_gone h.find?).2 ⟨h'.plain i hi, hn⟩
  have goes : i ∉ rest'.plain := fun hmem => ((mem_plain_of_gone h'.find?).1 hmem).2 hi
  -- All that stays the other way is newer than what goes there, so here it stays along with that.
  have newer : rest'.plain ⊆ rest.plain := by
    intro j hj
    have hjc : j ∈ c.plain := ((mem_plain_of_gone h'.find?).1 hj).1
    refine (mem_plain_of_gone h.find?).2 ⟨hjc, fun hjgone => ?_⟩
    exact (h.newest j hjgone i stays).asymm (h'.newest i hi j hj)
  have more : (i :: rest'.plain).length ≤ rest.plain.length :=
    (List.subperm_of_subset (List.nodup_cons.2 ⟨goes, nodup_plain rest'⟩)
      (List.cons_subset.2 ⟨stays, newer⟩)).length_le
  rw [List.length_cons, h.count, h'.count] at more
  omega

/-- There is one way only to cut a cache down. -/
theorem unique (h : c.Cut capacity gone rest) (h' : c.Cut capacity gone' rest') :
    gone = gone' ∧ rest = rest' := by
  have same (i : NodeId) : i ∈ gone ↔ i ∈ gone' := ⟨h'.mem_gone h, h.mem_gone h'⟩
  constructor
  · exact List.Perm.eq_of_pairwise (fun _ _ _ _ hij hji => absurd hji hij.asymm) h.ordered h'.ordered
      ((List.perm_ext_iff_of_nodup h.nodup h'.nodup).2 same)
  · refine ext_find? fun i => ?_
    simp only [h.find?, h'.find?, same]

/-- Where there is room, nothing goes. -/
theorem of_le (h : c.plain.length ≤ capacity) : c.Cut capacity [] c :=
  ⟨by simp, by simp, (Nat.min_eq_left h).symm, by simp, .nil⟩

end Cut

theorem evict_eq_iff : c.evict capacity = (gone, rest) ↔ c.Cut capacity gone rest := by
  constructor
  · intro h
    have cut := c.evict_cut capacity
    rwa [h] at cut
  · intro h
    obtain ⟨hgone, hrest⟩ := (c.evict_cut capacity).unique h
    exact Prod.ext hgone hrest

theorem length_plain_evict (c : Cache) (capacity : Nat) :
    (c.evict capacity).2.plain.length ≤ capacity := by
  rw [(c.evict_cut capacity).count]
  exact Nat.min_le_right _ _

/-- Evicting again removes nothing. -/
theorem evict_evict (c : Cache) (capacity : Nat) :
    (c.evict capacity).2.evict capacity = ([], (c.evict capacity).2) :=
  evict_eq_iff.2 (.of_le (c.length_plain_evict capacity))

end Cache
end StreamLang
