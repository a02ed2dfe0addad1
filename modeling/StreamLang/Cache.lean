import StreamLang.Value.Basic
/-!
The value that each node had when a pass last committed it. For a reaction this is its state, and
having an entry means having been initialized; such entries are never evicted.
-/
namespace StreamLang

structure CacheEntry where
  value : Value
  /-- The pass that committed the value. -/
  pass : Nat
  /-- The newest version of a stream read for the value. -/
  streamVersion : Option Nat
  /-- Whether the value may stand in for an evaluation. -/
  reusable : Bool
  reaction : Bool
  deriving Repr

@[ext] structure Cache where
  entries : NodeMap CacheEntry

namespace Cache

def empty : Cache := ⟨∅⟩

def size (c : Cache) : Nat := c.entries.size

def find? (c : Cache) (i : NodeId) : Option CacheEntry := c.entries[i]?

def value? (c : Cache) (i : NodeId) : Option Value := (c.find? i).map (·.value)

/-- The value of a node, if it may stand in for an evaluation. -/
def reusable? (c : Cache) (i : NodeId) : Option Value :=
  match c.find? i with
  | some e => if e.reusable then some e.value else none
  | none => none

/-- Whether the node was committed before; for a reaction, whether it is initialized. -/
def has (c : Cache) (i : NodeId) : Bool := (c.find? i).isSome

def put (c : Cache) (i : NodeId) (e : CacheEntry) : Cache := ⟨c.entries.insert i e⟩

def remove (c : Cache) (i : NodeId) : Cache := ⟨c.entries.erase i⟩

/-- Whether the first entry was committed before the second; within a pass, numbers decide. -/
def older (a b : NodeId × CacheEntry) : Bool :=
  a.2.pass < b.2.pass || a.2.pass == b.2.pass && a.1 ≤ b.1

/-- Puts an entry among others, before the first that is not older. -/
def insertByAge (a : NodeId × CacheEntry) : List (NodeId × CacheEntry) → List (NodeId × CacheEntry)
  | [] => [a]
  | b :: rest => if older a b then a :: b :: rest else b :: insertByAge a rest

/-- The entries, oldest first. -/
def sortByAge (entries : List (NodeId × CacheEntry)) : List (NodeId × CacheEntry) :=
  entries.foldr insertByAge []

/-- What eviction may take, oldest first. -/
def evictable (c : Cache) : List (NodeId × CacheEntry) :=
  sortByAge (c.entries.toList.filter (!·.2.reaction))

/-- Removes the oldest entries until there are at most so many besides those of reactions. -/
def evict (c : Cache) (capacity : Nat) : List NodeId × Cache :=
  let evicted := (c.evictable.take (c.evictable.length - capacity)).map (·.1)
  (evicted, evicted.foldl remove c)

/-- A cache is told by what it has for each node. -/
theorem ext_find? {c c' : Cache} (h : ∀ i, c.find? i = c'.find? i) : c = c' :=
  Cache.ext (Std.ExtTreeMap.ext_getElem? fun {i} => h i)

@[simp] theorem find?_empty (i : NodeId) : empty.find? i = none := by simp [find?, empty]

theorem find?_put (c : Cache) (i j : NodeId) (e : CacheEntry) :
    (c.put i e).find? j = if i = j then some e else c.find? j := by
  simp [find?, put, Std.ExtTreeMap.getElem?_insert]

theorem find?_remove (c : Cache) (i j : NodeId) :
    (c.remove i).find? j = if i = j then none else c.find? j := by
  simp [find?, remove, Std.ExtTreeMap.getElem?_erase]

/-- Removing nodes one after another leaves exactly the entries of all others. -/
theorem find?_foldl_remove (ids : List NodeId) (c : Cache) (j : NodeId) :
    (ids.foldl remove c).find? j = if j ∈ ids then none else c.find? j := by
  induction ids generalizing c with
  | nil => simp
  | cons i rest ih =>
    rw [List.foldl_cons, ih, find?_remove]
    by_cases hr : j ∈ rest
    · simp [hr]
    · by_cases h : i = j
      · simp [h]
      · simp [hr, h, Ne.symm h]

end Cache
end StreamLang
