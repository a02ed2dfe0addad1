/-!
Lists of pairs and of distinct elements in the order in which they first came in. Writing to a key
that is present changes its value and leaves it where it is, so what such a list shows depends on
when a key first appeared and on what was written to it last.
-/
namespace StreamLang

abbrev Assoc (α : Type u) (β : Type v) := List (α × β)

namespace Assoc

def get? [DecidableEq α] (k : α) : Assoc α β → Option β
  | [] => none
  | (k', v) :: rest => if k' = k then some v else get? k rest

def put [DecidableEq α] (k : α) (v : β) : Assoc α β → Assoc α β
  | [] => [(k, v)]
  | (k', v') :: rest => if k' = k then (k, v) :: rest else (k', v') :: put k v rest

/-- Puts the pairs in, first to last. -/
def ofList [DecidableEq α] (pairs : List (α × β)) : Assoc α β :=
  pairs.foldl (fun a p => put p.1 p.2 a) []

def keys (a : Assoc α β) : List α := a.map Prod.fst

variable [DecidableEq α]

@[simp] theorem get?_nil (k : α) : get? k ([] : Assoc α β) = none := rfl
@[simp] theorem put_nil (k : α) (v : β) : put k v [] = [(k, v)] := rfl

theorem get?_put (k k' : α) (v : β) (a : Assoc α β) :
    get? k' (put k v a) = if k = k' then some v else get? k' a := by
  induction a with
  | nil => simp [get?]
  | cons p rest ih =>
    obtain ⟨k₀, v₀⟩ := p
    by_cases h : k₀ = k
    · subst h
      by_cases h' : k₀ = k' <;> simp [put, get?, h']
    · by_cases h' : k₀ = k'
      · subst h'
        simp [put, get?, h, Ne.symm h]
      · simp [put, get?, h, h', ih]

theorem put_of_get? {k : α} {v : β} {a : Assoc α β} (h : get? k a = some v) : put k v a = a := by
  induction a with
  | nil => cases h
  | cons p rest ih =>
    obtain ⟨k', v'⟩ := p
    by_cases hk : k' = k
    · subst hk
      simp only [get?, if_true, Option.some.injEq] at h
      simp [put, h]
    · simp only [get?, hk, if_false] at h
      simp [put, hk, ih h]

/-- A key that is present keeps its place; any other goes to the end. -/
theorem keys_put (k : α) (v : β) (a : Assoc α β) :
    keys (put k v a) = if k ∈ keys a then keys a else keys a ++ [k] := by
  induction a with
  | nil => simp [keys]
  | cons p rest ih =>
    obtain ⟨k₀, v₀⟩ := p
    by_cases h : k₀ = k
    · subst h
      simp [put, keys]
    · by_cases hr : k ∈ keys rest <;> simp_all [put, keys, Ne.symm h]

theorem mem_of_mem_put {k : α} {v : β} {a : Assoc α β} {p : α × β} (h : p ∈ put k v a) :
    p = (k, v) ∨ p ∈ a := by
  induction a with
  | nil => simpa using h
  | cons q rest ih =>
    obtain ⟨k', v'⟩ := q
    unfold put at h
    split at h
    · rcases List.mem_cons.1 h with h | h
      · exact .inl h
      · exact .inr (List.mem_cons_of_mem _ h)
    · rcases List.mem_cons.1 h with h | h
      · exact .inr (h ▸ List.mem_cons_self)
      · exact (ih h).imp_right (List.mem_cons_of_mem _)

theorem mem_keys_put {k k' : α} {v : β} {a : Assoc α β} :
    k' ∈ keys (put k v a) ↔ k' ∈ keys a ∨ k' = k := by
  rw [keys_put]
  split
  · constructor
    · exact .inl
    · rintro (h | rfl)
      · exact h
      · assumption
  · simp

theorem nodup_keys_put {a : Assoc α β} (h : (keys a).Nodup) (k : α) (v : β) :
    (keys (put k v a)).Nodup := by
  rw [keys_put]
  split
  · exact h
  · rename_i hk
    rw [List.nodup_append]
    refine ⟨h, by simp, ?_⟩
    rintro x hx y hy rfl
    exact hk (List.mem_singleton.1 hy ▸ hx)

/-- Whatever is in the list was put there. -/
theorem mem_of_mem_ofList {pairs : List (α × β)} {p : α × β} (h : p ∈ ofList pairs) : p ∈ pairs := by
  have key (pairs : List (α × β)) (a : Assoc α β)
      (h : p ∈ pairs.foldl (fun a q => put q.1 q.2 a) a) : p ∈ a ∨ p ∈ pairs := by
    induction pairs generalizing a with
    | nil => exact .inl h
    | cons q rest ih =>
      rcases ih _ h with h | h
      · rcases mem_of_mem_put h with rfl | h
        · exact .inr List.mem_cons_self
        · exact .inl h
      · exact .inr (List.mem_cons_of_mem _ h)
  exact (key pairs [] h).resolve_left List.not_mem_nil

theorem mem_of_get? {k : α} {v : β} {a : Assoc α β} (h : get? k a = some v) : (k, v) ∈ a := by
  induction a with
  | nil => cases h
  | cons p rest ih =>
    obtain ⟨k', v'⟩ := p
    by_cases hk : k' = k
    · subst hk
      simp only [get?, if_true, Option.some.injEq] at h
      exact h ▸ List.mem_cons_self
    · simp only [get?, hk, if_false] at h
      exact List.mem_cons_of_mem _ (ih h)

/-- The other way round, if no key comes twice. -/
theorem get?_of_mem {a : Assoc α β} (nodup : (keys a).Nodup) {k : α} {v : β} (h : (k, v) ∈ a) :
    get? k a = some v := by
  induction a with
  | nil => cases h
  | cons p rest ih =>
    obtain ⟨k', v'⟩ := p
    obtain ⟨hk, nodup⟩ := List.nodup_cons.1 nodup
    rcases List.mem_cons.1 h with h | h
    · obtain ⟨rfl, rfl⟩ := Prod.mk.inj h
      exact if_pos rfl
    · have hne : k' ≠ k := by
        rintro rfl
        exact hk (List.mem_map.2 ⟨_, h, rfl⟩)
      rw [get?, if_neg hne]
      exact ih nodup h

end Assoc

/-- Adds an element at the end unless it is there. -/
def pushNew [DecidableEq α] (xs : List α) (a : α) : List α := if a ∈ xs then xs else xs ++ [a]

def pushAllNew [DecidableEq α] (xs ys : List α) : List α := ys.foldl pushNew xs

theorem mem_pushNew [DecidableEq α] {xs : List α} {a b : α} :
    b ∈ pushNew xs a ↔ b ∈ xs ∨ b = a := by
  unfold pushNew
  split <;> simp_all

end StreamLang
