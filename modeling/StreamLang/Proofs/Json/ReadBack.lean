import StreamLang.Proofs.Json.Tokens
/-!
A JSON text is read as what was written (`read_write`), as long as its numbers read back and it does
not nest deeper than the reader goes.
-/
namespace StreamLang.Json

/-- What has a text that says all of it. -/
inductive Faithful : Json → Prop where
  | null : Faithful null
  | boolean (b : Bool) : Faithful (boolean b)
  | natural {n : Nat} (h : n < 0x10000000000000000) : Faithful (natural n)
  | real {x : Amount} (finite : x.isFinite = true) (h : ReadsBack x) : Faithful (real x)
  | text (s : String) : Faithful (text s)
  | array {items : List Json} (h : ∀ j ∈ items, Faithful j) : Faithful (array items)
  | object {fields : List (String × Json)} (h : ∀ f ∈ fields, Faithful f.2) :
    Faithful (object fields)

theorem readableItems_iff {js : List Json} :
    readableItems js = true ↔ ∀ j ∈ js, j.readable = true := by
  induction js with
  | nil => simp [readableItems]
  | cons j js ih => simp [readableItems, ih]

theorem readableFields_iff {fields : List (String × Json)} :
    readableFields fields = true ↔ ∀ f ∈ fields, f.2.readable = true := by
  induction fields with
  | nil => simp [readableFields]
  | cons f fields ih => simp [readableFields, ih]

theorem Faithful.readable {j : Json} (h : Faithful j) : j.readable = true := by
  induction h with
  | array _ ih => exact readableItems_iff.2 ih
  | object _ ih => exact readableFields_iff.2 ih
  | _ => rfl

theorem ends_cons {c : Char} (rest : List Char)
    (h : c.isDigit = false ∧ c ≠ '.' ∧ c ≠ 'e' ∧ c ≠ 'E') : Ends (c :: rest) := by
  rintro _ ⟨⟩
  exact h

@[simp] theorem skipBlank_cons {c : Char} (h : isBlank c = false) (cs : List Char) :
    skipBlank (c :: cs) = c :: cs := by
  simp [skipBlank, h]

/-- The text begins with a character that is no blank and closes nothing. -/
theorem chars_head {j : Json} (h : Faithful j) :
    ∃ c cs, j.chars = c :: cs ∧ isBlank c = false ∧ c ≠ ']' := by
  have numeric {cs : List Char} (hne : cs ≠ []) (hcs : ∀ c ∈ cs, Numeric c) :
      ∃ c cs', cs = c :: cs' ∧ isBlank c = false ∧ c ≠ ']' := by
    obtain ⟨c, cs', rfl⟩ := List.exists_cons_of_ne_nil hne
    have hc := hcs c List.mem_cons_self
    exact ⟨c, cs', rfl, hc.not_blank, hc.ne (by decide)⟩
  cases h with
  | null => exact ⟨'n', _, rfl, by decide⟩
  | boolean b => cases b <;> exact ⟨_, _, rfl, by decide⟩
  | natural => exact numeric Nat.toDigits_ne_nil fun c => .of_digits
  | real finite =>
    obtain ⟨all, c, hc, -⟩ := numeric_amountText finite
    exact numeric (List.ne_nil_of_mem hc) all
  | text => exact ⟨'"', _, rfl, by decide⟩
  | array => exact ⟨'[', _, rfl, by decide⟩
  | object => exact ⟨'\x7b', _, rfl, by decide⟩

/-- With any bound that twice its length satisfies, and before anything that does not prolong it, the
text is read as what was written. -/
def IsRead (j : Json) : Prop :=
  ∀ bound allowance rest, Ends rest → 2 * j.chars.length ≤ bound → j.nesting ≤ allowance →
    value bound allowance (j.chars ++ rest) = some (j, rest)

theorem items_chars {j : Json} {js : List Json} (h : ∀ k ∈ j :: js, IsRead k) (bound allowance : Nat)
    (rest : List Char) (hbound : 2 * (charsItems (j :: js)).length + 1 ≤ bound)
    (hdeep : nestingItems (j :: js) ≤ allowance) :
    items bound allowance (charsItems (j :: js) ++ ']' :: rest) = some (j :: js, rest) := by
  induction js generalizing j bound with
  | nil =>
    obtain ⟨bound, rfl⟩ : ∃ b, bound = b + 1 := ⟨bound - 1, by omega⟩
    have hj : value bound allowance (j.chars ++ ']' :: rest) = some (j, ']' :: rest) :=
      h j List.mem_cons_self bound allowance _ (ends_cons _ (by decide))
        (by simp [charsItems] at hbound; omega) (by simpa [nestingItems] using hdeep)
    simp [items, charsItems, hj, isBlank]
  | cons k js ih =>
    obtain ⟨bound, rfl⟩ : ∃ b, bound = b + 1 := ⟨bound - 1, by omega⟩
    have hchars : charsItems (j :: k :: js) = j.chars ++ ',' :: charsItems (k :: js) := rfl
    rw [hchars, List.length_append, List.length_cons] at hbound
    rw [nestingItems] at hdeep
    have hj : value bound allowance (j.chars ++ ',' :: (charsItems (k :: js) ++ ']' :: rest)) =
        some (j, ',' :: (charsItems (k :: js) ++ ']' :: rest)) :=
      h j List.mem_cons_self bound allowance _ (ends_cons _ (by decide)) (by omega) (by omega)
    have hjs := ih (fun l hl => h l (List.mem_cons_of_mem _ hl)) bound (by omega) (by omega)
    simp [items, hchars, hj, hjs, isBlank]

theorem members_chars {f : String × Json} {fs : List (String × Json)}
    (h : ∀ g ∈ f :: fs, IsRead g.2) (bound allowance : Nat) (rest : List Char)
    (hbound : 2 * (charsFields (f :: fs)).length + 1 ≤ bound)
    (hdeep : nestingFields (f :: fs) ≤ allowance) :
    members bound allowance (charsFields (f :: fs) ++ '\x7d' :: rest) =
      some ((f :: fs).map fun g => (some g.1, g.2), rest) := by
  induction fs generalizing f bound with
  | nil =>
    obtain ⟨bound, rfl⟩ : ∃ b, bound = b + 1 := ⟨bound - 1, by omega⟩
    obtain ⟨k, j⟩ := f
    have hread : IsRead j := h (k, j) List.mem_cons_self
    have hchars : charsFields [(k, j)] = quoted k ++ ':' :: j.chars := rfl
    rw [hchars, List.length_append, List.length_cons] at hbound
    obtain ⟨ps, hquoted, hps, hk⟩ := pieces_quoted k (':' :: (j.chars ++ '\x7d' :: rest))
    have hj : value bound allowance (j.chars ++ '\x7d' :: rest) = some (j, '\x7d' :: rest) :=
      hread bound allowance _ (ends_cons _ (by decide)) (by omega)
        (by simpa [nestingFields] using hdeep)
    rw [hchars, List.append_assoc, List.cons_append, hquoted]
    simp [members, isBlank, hps, hj, hk]
  | cons g fs ih =>
    obtain ⟨bound, rfl⟩ : ∃ b, bound = b + 1 := ⟨bound - 1, by omega⟩
    obtain ⟨k, j⟩ := f
    have hread : IsRead j := h (k, j) List.mem_cons_self
    have hchars : charsFields ((k, j) :: g :: fs) =
        quoted k ++ ':' :: j.chars ++ ',' :: charsFields (g :: fs) := rfl
    rw [hchars, List.length_append, List.length_append, List.length_cons, List.length_cons] at hbound
    rw [nestingFields] at hdeep
    obtain ⟨ps, hquoted, hps, hk⟩ :=
      pieces_quoted k (':' :: (j.chars ++ ',' :: (charsFields (g :: fs) ++ '\x7d' :: rest)))
    have hj : value bound allowance (j.chars ++ ',' :: (charsFields (g :: fs) ++ '\x7d' :: rest)) =
        some (j, ',' :: (charsFields (g :: fs) ++ '\x7d' :: rest)) :=
      hread bound allowance _ (ends_cons _ (by decide)) (by omega) (by omega)
    have hfs := ih (fun l hl => h l (List.mem_cons_of_mem _ hl)) bound (by omega) (by omega)
    rw [hchars]
    simp only [List.append_assoc, List.cons_append]
    rw [hquoted]
    simp [members, isBlank, hps, hj, hk, hfs]

theorem isRead_array {js : List Json} (faithful : ∀ j ∈ js, Faithful j) (h : ∀ j ∈ js, IsRead j) :
    IsRead (array js) := by
  intro bound allowance rest _ hbound hdeep
  have hchars : (array js).chars = '[' :: charsItems js ++ [']'] := rfl
  rw [hchars] at hbound ⊢
  obtain ⟨bound, rfl⟩ : ∃ b, bound = b + 1 := ⟨bound - 1, by simp at hbound; omega⟩
  have ha : allowance ≠ 0 := by
    rintro rfl
    cases hdeep
  rcases js with _ | ⟨j, js⟩
  · simp [value, charsItems, isBlank, container, ha]
  · obtain ⟨c, cs, hc, hblank, hclose⟩ := chars_head (faithful j List.mem_cons_self)
    obtain ⟨cs', hhead⟩ : ∃ cs', charsItems (j :: js) = c :: cs' := by
      cases js with
      | nil => exact ⟨cs, hc⟩
      | cons k js => exact ⟨cs ++ ',' :: charsItems (k :: js), congrArg (· ++ _) hc⟩
    have hitems := items_chars h bound (allowance - 1) rest (by simp at hbound; omega)
      (by simp [nesting] at hdeep; omega)
    rw [hhead] at hitems ⊢
    simp only [List.cons_append, List.nil_append, List.append_assoc] at hitems ⊢
    simp [value, skipBlank_cons (c := '[') rfl, skipBlank_cons hblank, hclose, hitems, container, ha]

theorem keyed_map (fields : List (String × Json)) :
    keyed (fields.map fun f => (some f.1, f.2)) = some fields := by
  rw [keyed, List.mapM_map]
  have hpure : fields.mapM (m := Option) (fun f => pure (id f)) = pure (fields.map id) :=
    List.mapM_pure
  rw [List.map_id] at hpure
  exact hpure

theorem isRead_object {fields : List (String × Json)} (h : ∀ f ∈ fields, IsRead f.2) :
    IsRead (object fields) := by
  intro bound allowance rest _ hbound hdeep
  have hchars : (object fields).chars = '\x7b' :: charsFields fields ++ ['\x7d'] := rfl
  rw [hchars] at hbound ⊢
  obtain ⟨bound, rfl⟩ : ∃ b, bound = b + 1 := ⟨bound - 1, by simp at hbound; omega⟩
  have ha : allowance ≠ 0 := by
    rintro rfl
    cases hdeep
  rcases fields with _ | ⟨f, fields⟩
  · simp [value, charsFields, isBlank, container, ha]
  · obtain ⟨cs, hhead⟩ : ∃ cs, charsFields (f :: fields) = '"' :: cs := by
      cases fields <;> exact ⟨_, rfl⟩
    have hmembers := members_chars h bound (allowance - 1) rest (by simp at hbound; omega)
      (by simp [nesting] at hdeep; omega)
    have hkeyed := keyed_map (f :: fields)
    rw [List.map_cons] at hkeyed
    rw [hhead] at hmembers ⊢
    simp only [List.cons_append, List.nil_append, List.append_assoc] at hmembers ⊢
    simp [value, isBlank, hmembers, container, ha, hkeyed]

theorem Faithful.isRead {j : Json} (h : Faithful j) : IsRead j := by
  have bounded {bound : Nat} {cs : List Char} (hne : cs ≠ []) (h : 2 * cs.length ≤ bound) :
      ∃ b, bound = b + 1 := by
    have := List.length_pos_iff.2 hne
    exact ⟨bound - 1, by omega⟩
  induction h with
  | null =>
    intro bound allowance rest _ hbound _
    obtain ⟨bound, rfl⟩ := bounded (by decide) hbound
    rfl
  | boolean b =>
    intro bound allowance rest _ hbound _
    cases b <;> obtain ⟨bound, rfl⟩ := bounded (by decide) hbound <;> rfl
  | natural hn =>
    intro bound allowance rest hrest hbound _
    obtain ⟨bound, rfl⟩ := bounded Nat.toDigits_ne_nil hbound
    exact value_toDigits hn bound allowance hrest
  | real finite hx =>
    intro bound allowance rest hrest hbound _
    obtain ⟨-, c, hc, -⟩ := numeric_amountText finite
    obtain ⟨bound, rfl⟩ := bounded (List.ne_nil_of_mem hc) hbound
    exact value_amountText finite hx bound allowance hrest
  | text s =>
    intro bound allowance rest _ hbound _
    obtain ⟨bound, rfl⟩ := bounded (List.cons_ne_nil '"' _) hbound
    obtain ⟨ps, hquoted, hps, hs⟩ := pieces_quoted s rest
    rw [chars, hquoted]
    simp [value, isBlank, hps, hs]
  | array faithful ih => exact isRead_array faithful ih
  | object _ ih => exact isRead_object ih

/-- What is written is read as it was, if it does not nest deeper than the reader goes. -/
theorem read_write {j : Json} (h : Faithful j) {allowance : Nat} (hdeep : j.nesting ≤ allowance) :
    read allowance (write j) = some j := by
  have hvalue := h.isRead (2 * j.chars.length + 2) allowance [] ends_nil (by omega) hdeep
  rw [List.append_nil] at hvalue
  simp [read, write, hvalue, skipBlank]

end StreamLang.Json
