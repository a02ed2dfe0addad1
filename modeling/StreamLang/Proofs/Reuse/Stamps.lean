import StreamLang.Proofs.Reuse.Commit
/-!
Entries are stamped with the number of the pass that committed them, and the stamps serve for one
thing: the oldest entries are evicted first. So a pass may have a later number, and commits the same
values and evicts the same entries (`commit_renumber`).
-/
namespace StreamLang

/-- The same entry, with another stamp in place of one. -/
def CacheEntry.restamp (pass pass' : Nat) (e : CacheEntry) : CacheEntry :=
  if e.pass = pass then { e with pass := pass' } else e

namespace Cache

/-- The same entries, with another stamp in place of one. -/
def restamp (pass pass' : Nat) (c : Cache) : Cache := ⟨c.entries.map fun _ e => e.restamp pass pass'⟩

/-- No entry is newer than such a pass. -/
def Stamped (c : Cache) (pass : Nat) : Prop := ∀ i e, c.find? i = some e → e.pass ≤ pass

variable {c : Cache} {pass pass' : Nat}

theorem find?_restamp (pass pass' : Nat) (c : Cache) (i : NodeId) :
    (c.restamp pass pass').find? i = (c.find? i).map (·.restamp pass pass') := by
  simp [find?, restamp, Std.ExtTreeMap.getElem?_map]

theorem restamp_put (c : Cache) (i : NodeId) (e : CacheEntry) :
    (c.put i e).restamp pass pass' = (c.restamp pass pass').put i (e.restamp pass pass') := by
  refine ext_find? fun j => ?_
  simp only [find?_restamp, find?_put]
  split <;> rfl

theorem restamp_remove (c : Cache) (i : NodeId) :
    (c.remove i).restamp pass pass' = (c.restamp pass pass').remove i := by
  refine ext_find? fun j => ?_
  simp only [find?_restamp, find?_remove]
  split <;> rfl

theorem restamp_of_older (h : ∀ i e, c.find? i = some e → e.pass < pass) :
    c.restamp pass pass' = c := by
  refine ext_find? fun j => ?_
  rw [find?_restamp]
  cases hj : c.find? j with
  | none => rfl
  | some e =>
    have hne : e.pass ≠ pass := Nat.ne_of_lt (h j e hj)
    simp [CacheEntry.restamp, hne]

/-- As long as nothing is newer, a later stamp changes no order. -/
theorem older_restamp (hle : pass ≤ pass') {a b : NodeId × CacheEntry} (ha : a.2.pass ≤ pass)
    (hb : b.2.pass ≤ pass) :
    older (a.1, a.2.restamp pass pass') (b.1, b.2.restamp pass pass') = older a b := by
  have hnew (e : CacheEntry) :
      (e.restamp pass pass').pass = if e.pass = pass then pass' else e.pass := by
    unfold CacheEntry.restamp
    split <;> rfl
  have key (x y : Nat) (hx : x ≤ pass) (hy : y ≤ pass) :
      ((if x = pass then pass' else x) < (if y = pass then pass' else y) ↔ x < y) ∧
        ((if x = pass then pass' else x) = (if y = pass then pass' else y) ↔ x = y) := by
    split <;> split <;> omega
  obtain ⟨hlt, heq⟩ := key a.2.pass b.2.pass ha hb
  simp only [older, hnew, beq_eq_decide, hlt, heq]

theorem map_insertByAge {f : NodeId × CacheEntry → NodeId × CacheEntry} {a : NodeId × CacheEntry}
    {l : List (NodeId × CacheEntry)} (h : ∀ b ∈ l, older (f a) (f b) = older a b) :
    (insertByAge a l).map f = insertByAge (f a) (l.map f) := by
  induction l with
  | nil => rfl
  | cons b rest ih =>
    have ih := ih fun d hd => h d (List.mem_cons_of_mem b hd)
    simp only [insertByAge, List.map_cons, h b List.mem_cons_self, ← ih]
    split <;> rfl

theorem map_sortByAge {f : NodeId × CacheEntry → NodeId × CacheEntry}
    {l : List (NodeId × CacheEntry)} (h : ∀ a ∈ l, ∀ b ∈ l, older (f a) (f b) = older a b) :
    (sortByAge l).map f = sortByAge (l.map f) := by
  induction l with
  | nil => rfl
  | cons a rest ih =>
    have first (b : NodeId × CacheEntry) (hb : b ∈ sortByAge rest) :
        older (f a) (f b) = older a b :=
      h a List.mem_cons_self b (List.mem_cons_of_mem a ((sortByAge_perm rest).subset hb))
    have rest := ih fun b hb d hd => h b (List.mem_cons_of_mem a hb) d (List.mem_cons_of_mem a hd)
    exact (map_insertByAge first).trans (congrArg (insertByAge (f a)) rest)

theorem evictable_restamp (h : c.Stamped pass) (hle : pass ≤ pass') :
    (c.restamp pass pass').evictable =
      c.evictable.map fun p => (p.1, p.2.restamp pass pass') := by
  have hreaction (e : CacheEntry) : (e.restamp pass pass').reaction = e.reaction := by
    unfold CacheEntry.restamp
    split <;> rfl
  have hstamp (p : NodeId × CacheEntry) (hp : p ∈ c.entries.toList.filter (!·.2.reaction)) :
      p.2.pass ≤ pass :=
    h p.1 p.2 (Std.ExtTreeMap.mem_toList_iff_getElem?_eq_some.1 (List.mem_filter.1 hp).1)
  unfold evictable
  rw [map_sortByAge fun a ha b hb => older_restamp hle (hstamp a ha) (hstamp b hb)]
  have hlist : (c.restamp pass pass').entries.toList =
      c.entries.toList.map fun p => (p.1, p.2.restamp pass pass') := Std.ExtTreeMap.toList_map
  rw [hlist, List.filter_map]
  simp only [Function.comp_def, hreaction]

/-- The same entries are evicted. -/
theorem evict_restamp (h : c.Stamped pass) (hle : pass ≤ pass') (capacity : Nat) :
    ((c.restamp pass pass').evict capacity).2 = (c.evict capacity).2.restamp pass pass' := by
  have hremove (ids : List NodeId) (c : Cache) :
      ids.foldl remove (c.restamp pass pass') = (ids.foldl remove c).restamp pass pass' := by
    induction ids generalizing c with
    | nil => rfl
    | cons i rest ih => rw [List.foldl_cons, List.foldl_cons, ← restamp_remove, ih]
  unfold evict
  rw [evictable_restamp h hle]
  simp only [List.length_map, ← List.map_take, List.map_map, Function.comp_def]
  exact hremove _ c

end Cache

namespace Reactor

/-- The same reactor, if the pass that was begun last had another number. -/
def renumber (r : Reactor) (pass : Nat) : Reactor :=
  { r with pass, cache := r.cache.restamp r.pass pass }

variable {r : Reactor} {pass : Nat}

theorem renumber_of_older (h : ∀ i e, r.cache.find? i = some e → e.pass < r.pass) :
    r.renumber pass = { r with pass } := by
  rw [renumber, Cache.restamp_of_older h]

theorem applyWrites_pass (r : Reactor) (pass : Nat) (writes : Assoc NodeId Write) :
    (r.applyWrites pass writes).pass = r.pass := by
  induction writes generalizing r with
  | nil => rfl
  | cons p rest ih => exact ih _

theorem applyWrites_stamped (h : r.cache.Stamped r.pass) (writes : Assoc NodeId Write) :
    (r.applyWrites r.pass writes).cache.Stamped r.pass := by
  intro i e he
  rcases r.applyWrites_cache r.pass writes i with ⟨w, -, hw⟩ | ⟨-, hw⟩
  · obtain rfl := Option.some.inj (hw.symm.trans he)
    exact Nat.le_refl _
  · exact h i e (hw ▸ he)

theorem applyWrites_renumber (r : Reactor) (pass : Nat) (writes : Assoc NodeId Write) :
    (r.renumber pass).applyWrites pass writes = (r.applyWrites r.pass writes).renumber pass := by
  induction writes generalizing r with
  | nil => rfl
  | cons p rest ih =>
    obtain ⟨i, w⟩ := p
    have hentry : entryOf pass w = (entryOf r.pass w).restamp r.pass pass := (if_pos rfl).symm
    refine Eq.trans ?_ (ih { r with
      cache := r.cache.put i (entryOf r.pass w)
      staleness := r.staleness.markClean i })
    simp only [applyWrites, List.foldl_cons, renumber]
    rw [Cache.restamp_put, hentry]

theorem evictOver_renumber (h : r.cache.Stamped r.pass) (hle : r.pass ≤ pass) :
    (r.renumber pass).evictOver = r.evictOver.renumber pass := by
  obtain ⟨registry, inbox, staleness, cache, edgeTriggered, number, _ | capacity⟩ := r
  · rfl
  · simp only [evictOver, renumber, Cache.evict_restamp h hle]

theorem evictOver_pass (r : Reactor) : r.evictOver.pass = r.pass := by
  unfold evictOver
  cases r.capacity <;> rfl

theorem commit_pass (r : Reactor) (t : Tree) (seen : Snapshot) (done : Record) :
    (r.commit t seen done).pass = r.pass := by
  rw [← r.applyWrites_pass seen.pass done.writes]
  exact evictOver_pass _

/-- What a pass commits does not depend on its number, but for stamps. -/
theorem commit_renumber (h : r.cache.Stamped r.pass) (hle : r.pass ≤ pass) (t : Tree)
    {seen : Snapshot} (hseen : seen.pass = r.pass) (done : Record) :
    (r.renumber pass).commit t { seen with pass } done =
      (r.commit t seen done).renumber pass := by
  have hwrites := r.applyWrites_renumber pass done.writes
  have hstamped := applyWrites_stamped h done.writes
  have hpass := r.applyWrites_pass r.pass done.writes
  rw [← hseen] at hwrites hstamped hpass
  have hnumber : (r.unevicted t seen done).pass = seen.pass := hpass
  have hevict : ((r.unevicted t seen done).renumber pass).evictOver =
      (r.unevicted t seen done).evictOver.renumber pass :=
    evictOver_renumber (hnumber.symm ▸ hstamped) (by rw [hnumber, hseen]; exact hle)
  refine Eq.trans ?_ hevict
  unfold commit
  simp only [hwrites]
  rfl

end Reactor
end StreamLang
