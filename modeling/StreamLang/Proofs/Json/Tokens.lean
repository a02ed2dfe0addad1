import Mathlib.Data.List.TakeWhile
import StreamLang.Json.Reader
import StreamLang.Json.Writer
/-!
Strings and numbers are read as they were written, whatever follows them. A string ends at its quote;
a number goes on as long as it can, so what follows must not prolong it.
-/
namespace StreamLang.Json

/-! ### Strings -/

/-- The three ways in which a character is written. -/
theorem escape_cases (c : Char) :
    (∃ e, escape c = ['\\', e] ∧ e ≠ 'u' ∧ shortEscape? e = some c) ∨
    (escape c = ['\\', 'u', '0', '0', hexDigit (c.toNat / 16), hexDigit (c.toNat % 16)] ∧
      c.toNat < 0x20) ∨
    (escape c = [c] ∧ ¬ c.toNat < 0x20 ∧ c ≠ '"' ∧ c ≠ '\\') := by
  unfold escape
  split
  iterate 7 exact .inl ⟨_, rfl, by decide, rfl⟩
  split
  · exact .inr (.inl ⟨rfl, ‹_›⟩)
  · exact .inr (.inr ⟨rfl, ‹_›, ‹_›, ‹_›⟩)

theorem hexUnit?_hexDigit :
    ∀ n < 0x20, hexUnit? '0' '0' (hexDigit (n / 16)) (hexDigit (n % 16)) = some n := by decide

/-- A character is read as one piece, which says it before any others. -/
theorem pieces_escape (c : Char) :
    ∃ p, (∀ cs, pieces (escape c ++ cs) = (pieces cs).map fun r => (p :: r.1, r.2)) ∧
      ∀ ps, characters (p :: ps) = (characters ps).map (c :: ·) := by
  obtain ⟨e, he, hu, hshort⟩ | ⟨he, hlt⟩ | ⟨he, hlt, hquote, hslash⟩ := escape_cases c
  · refine ⟨.plain c, fun cs => ?_, fun ps => rfl⟩
    rw [he]
    cases hp : pieces cs <;> simp [pieces, hu, hshort, hp]
  · have hhigh : isHighUnit c.toNat = false := by
      simp [isHighUnit]
      omega
    have hlow : isLowUnit c.toNat = false := by
      simp [isLowUnit]
      omega
    refine ⟨.escaped c.toNat, fun cs => ?_, fun ps => ?_⟩
    · simp only [he, List.cons_append, List.nil_append, pieces, hexUnit?_hexDigit _ hlt]
      cases pieces cs <;> rfl
    · cases ps with
      | nil => simp [characters, hhigh, hlow]
      | cons p ps => cases p <;> simp [characters, hhigh, hlow]
  · refine ⟨.plain c, fun cs => ?_, fun ps => rfl⟩
    rw [he]
    cases hp : pieces cs <;> simp [pieces, hslash, hlt, hp]

/-- A string is read up to the quote after it. -/
theorem pieces_escaped (cs rest : List Char) :
    ∃ ps, pieces (cs.flatMap escape ++ '"' :: rest) = some (ps, rest) ∧ characters ps = some cs := by
  induction cs with
  | nil => exact ⟨[], rfl, rfl⟩
  | cons c cs ih =>
    obtain ⟨ps, hps, hcs⟩ := ih
    obtain ⟨p, hp, hc⟩ := pieces_escape c
    refine ⟨p :: ps, ?_, ?_⟩
    · rw [List.flatMap_cons, List.append_assoc, hp, hps]
      rfl
    · rw [hc, hcs]
      rfl

theorem pieces_quoted (s : String) (rest : List Char) :
    ∃ ps, quoted s ++ rest = '"' :: (s.toList.flatMap escape ++ '"' :: rest) ∧
      pieces (s.toList.flatMap escape ++ '"' :: rest) = some (ps, rest) ∧ stringText ps = some s := by
  obtain ⟨ps, hps, hs⟩ := pieces_escaped s.toList rest
  exact ⟨ps, by simp [quoted], hps, by simp [stringText, hs]⟩

/-! ### Numbers -/

/-- What can follow a number without being taken for a part of it. -/
def Ends (rest : List Char) : Prop :=
  ∀ c ∈ rest.head?, c.isDigit = false ∧ c ≠ '.' ∧ c ≠ 'e' ∧ c ≠ 'E'

theorem ends_nil : Ends [] := by simp [Ends]

theorem span_append (cs : List Char) {more : List Char} (h : Ends more) :
    DecimalLiteral.span (cs ++ more) =
      ((DecimalLiteral.span cs).1, (DecimalLiteral.span cs).2 ++ more) := by
  induction cs with
  | nil =>
    cases more with
    | nil => rfl
    | cons c more => simp [DecimalLiteral.span, (h c rfl).1]
  | cons c cs ih =>
    obtain ⟨htake, hdrop⟩ := Prod.ext_iff.1 ih
    simp only [DecimalLiteral.span] at htake hdrop ⊢
    by_cases hc : c.isDigit <;> simp [hc, htake, hdrop]

theorem wholeDigits?_append {cs ds rest more : List Char}
    (h : wholeDigits? cs = some (ds, rest)) (hmore : Ends more) :
    wholeDigits? (cs ++ more) = some (ds, rest ++ more) := by
  unfold wholeDigits? at h ⊢
  rw [span_append cs hmore]
  generalize DecimalLiteral.span cs = s at h ⊢
  obtain ⟨whole, r⟩ := s
  rcases whole with _ | ⟨d, _ | ⟨d', whole⟩⟩
  · simp at h
  · obtain ⟨rfl, rfl⟩ : [d] = ds ∧ r = rest := by simpa using h
    simp
  · by_cases hd : d = '0'
    · simp [hd] at h
    · simp [hd] at h
      simp [← h.1, ← h.2, hd]

/-- The sign of an exponent, and what follows it. -/
def exponentSign : List Char → Bool × List Char
  | '-' :: r => (true, r)
  | '+' :: r => (false, r)
  | r => (false, r)

theorem exponentSign_append {cs : List Char} (h : cs ≠ []) (more : List Char) :
    exponentSign (cs ++ more) = ((exponentSign cs).1, (exponentSign cs).2 ++ more) := by
  match cs, h with
  | c :: cs, _ =>
    by_cases hm : c = '-'
    · subst hm
      rfl
    · by_cases hp : c = '+'
      · subst hp
        rfl
      · simp [exponentSign, hm, hp]

theorem exponent?_cons (c : Char) (cs : List Char) :
    DecimalLiteral.exponent? (c :: cs) =
      if c = 'e' || c = 'E' then
        if (DecimalLiteral.span (exponentSign cs).2).1.isEmpty then none
        else
          let n : Int := DecimalLiteral.digitsValue 0 (DecimalLiteral.span (exponentSign cs).2).1
          some (if (exponentSign cs).1 then -n else n, (DecimalLiteral.span (exponentSign cs).2).2)
      else some (0, c :: cs) := by
  rcases cs with _ | ⟨c', cs⟩
  · rfl
  · by_cases hm : c' = '-'
    · subst hm
      rfl
    · by_cases hp : c' = '+'
      · subst hp
        rfl
      · simp [DecimalLiteral.exponent?, exponentSign, hm, hp]

theorem exponent?_append {cs rest more : List Char} {e : Int}
    (h : DecimalLiteral.exponent? cs = some (e, rest)) (hmore : Ends more) :
    DecimalLiteral.exponent? (cs ++ more) = some (e, rest ++ more) := by
  cases cs with
  | nil =>
    cases h
    cases more with
    | nil => rfl
    | cons c more =>
      obtain ⟨-, -, he, hE⟩ := hmore c rfl
      simp [DecimalLiteral.exponent?, he, hE]
  | cons c cs =>
    rw [exponent?_cons] at h
    rw [List.cons_append, exponent?_cons]
    by_cases hc : (c = 'e' || c = 'E') = true
    · rw [if_pos hc] at h ⊢
      have hne : cs ≠ [] := by
        rintro rfl
        cases h
      rw [exponentSign_append hne, span_append _ hmore]
      split at h
      · cases h
      · rename_i hds
        cases h
        rw [if_neg hds]
    · rw [if_neg hc] at h ⊢
      cases h
      rfl

/-- The sign of a number, and what follows it. -/
def numberSign : List Char → Bool × List Char
  | '-' :: r => (true, r)
  | r => (false, r)

theorem numberSign_append {cs : List Char} (h : cs ≠ []) (more : List Char) :
    numberSign (cs ++ more) = ((numberSign cs).1, (numberSign cs).2 ++ more) := by
  match cs, h with
  | c :: cs, _ =>
    by_cases hm : c = '-'
    · subst hm
      rfl
    · simp [numberSign, hm]

/-- The digits after a point and what follows them, and whether there is a point. -/
def fraction? : List Char → Option (List Char × List Char × Bool)
  | '.' :: r =>
    if (DecimalLiteral.span r).1.isEmpty then none
    else some ((DecimalLiteral.span r).1, (DecimalLiteral.span r).2, true)
  | r => some ([], r, false)

theorem fraction?_of_ne {c : Char} (hc : c ≠ '.') (cs : List Char) :
    fraction? (c :: cs) = some ([], c :: cs, false) := by
  simp [fraction?, hc]

theorem fraction?_append {cs ds rest more : List Char} {pointed : Bool}
    (h : fraction? cs = some (ds, rest, pointed)) (hmore : Ends more) :
    fraction? (cs ++ more) = some (ds, rest ++ more, pointed) := by
  match cs, h with
  | [], h =>
    cases h
    cases more with
    | nil => rfl
    | cons c more => simp [fraction?, (hmore c rfl).2.1]
  | c :: cs, h =>
    by_cases hc : c = '.'
    · subst hc
      rw [fraction?] at h
      rw [List.cons_append, fraction?, span_append cs hmore]
      split at h
      · cases h
      · rename_i hds
        cases h
        rw [if_neg hds]
    · rw [fraction?_of_ne hc] at h
      cases h
      exact fraction?_of_ne hc _

def marked : List Char → Bool
  | c :: _ => c == 'e' || c == 'E'
  | [] => false

theorem marked_append (cs : List Char) {more : List Char} (hmore : Ends more) :
    marked (cs ++ more) = marked cs := by
  cases cs with
  | nil =>
    cases more with
    | nil => rfl
    | cons c more =>
      obtain ⟨-, -, he, hE⟩ := hmore c rfl
      simp [marked, he, hE]
  | cons c cs => rfl

/-- A number is read in four parts. -/
theorem numeral?_eq (cs : List Char) : numeral? cs = do
    let w ← wholeDigits? (numberSign cs).2
    let f ← fraction? w.2
    let e ← DecimalLiteral.exponent? f.2.1
    return (⟨DecimalLiteral.kept (numberSign cs).1 w.1 f.1 e.1, !f.2.2 && !marked f.2.1⟩, e.2) := by
  simp only [numeral?, numberSign]
  congr 1
  funext w
  obtain ⟨whole, rest⟩ := w
  rcases rest with _ | ⟨c, rest⟩
  · rfl
  · by_cases hc : c = '.'
    · subst hc
      simp only [fraction?]
      split <;> rfl
    · split
      · rename_i r heq
        cases heq
        exact absurd rfl hc
      · simp only [fraction?_of_ne hc]
        rfl

theorem numeral?_append {cs rest more : List Char} {n : Numeral}
    (h : numeral? cs = some (n, rest)) (hmore : Ends more) :
    numeral? (cs ++ more) = some (n, rest ++ more) := by
  rw [numeral?_eq] at h ⊢
  simp only [Option.bind_eq_bind, Option.bind_eq_some_iff] at h
  obtain ⟨⟨ws, r⟩, hw, ⟨fs, r', pointed⟩, hf, ⟨e, r''⟩, he, hn⟩ := h
  cases hn
  have hne : cs ≠ [] := by
    rintro rfl
    cases hw
  simp [numberSign_append hne, wholeDigits?_append hw hmore, fraction?_append hf hmore,
    exponent?_append he hmore, marked_append _ hmore]

theorem wholeDigits?_eq_some {cs : List Char} {r : List Char × List Char}
    (h : wholeDigits? cs = some r) : r = DecimalLiteral.span cs := by
  unfold wholeDigits? at h
  split at h
  · cases h
  · cases h
  · exact (Option.some.inj h).symm

theorem span_suffix (cs : List Char) : (DecimalLiteral.span cs).2 <:+ cs := List.dropWhile_suffix _

theorem numberSign_suffix (cs : List Char) : (numberSign cs).2 <:+ cs := by
  unfold numberSign
  split
  · exact List.suffix_cons _ _
  · exact List.suffix_rfl

theorem fraction?_suffix {cs : List Char} {r : List Char × List Char × Bool}
    (h : fraction? cs = some r) : r.2.1 <:+ cs := by
  unfold fraction? at h
  split at h
  · split at h
    · cases h
    · cases h
      exact (span_suffix _).trans (List.suffix_cons _ _)
  · cases h
    exact List.suffix_rfl

theorem exponent?_suffix {cs : List Char} {r : Int × List Char}
    (h : DecimalLiteral.exponent? cs = some r) : r.2 <:+ cs := by
  have sign (cs : List Char) : (exponentSign cs).2 <:+ cs := by
    unfold exponentSign
    split
    · exact List.suffix_cons _ _
    · exact List.suffix_cons _ _
    · exact List.suffix_rfl
  cases cs with
  | nil =>
    cases h
    exact List.suffix_rfl
  | cons c cs =>
    rw [exponent?_cons] at h
    split at h
    · split at h
      · cases h
      · cases h
        exact ((span_suffix _).trans (sign cs)).trans (List.suffix_cons _ _)
    · cases h
      exact List.suffix_rfl

theorem numeral?_suffix {cs rest : List Char} {n : Numeral} (h : numeral? cs = some (n, rest)) :
    rest <:+ cs := by
  rw [numeral?_eq] at h
  simp only [Option.bind_eq_bind, Option.bind_eq_some_iff] at h
  obtain ⟨w, hw, f, hf, e, he, hn⟩ := h
  cases hn
  obtain rfl := wholeDigits?_eq_some hw
  exact (((exponent?_suffix he).trans (fraction?_suffix hf)).trans (span_suffix _)).trans
    (numberSign_suffix cs)

/-- What is read without point and exponent is a sign and digits. -/
theorem numeral?_integral {cs rest : List Char} {n : Numeral} (h : numeral? cs = some (n, rest))
    (hi : n.integral = true) :
    ∃ front, cs = front ++ rest ∧ ∀ c ∈ front, c = '-' ∨ c.isDigit = true := by
  rw [numeral?_eq] at h
  simp only [Option.bind_eq_bind, Option.bind_eq_some_iff] at h
  obtain ⟨⟨ws, r⟩, hw, ⟨fs, r', pointed⟩, hf, ⟨e, r''⟩, he, hn⟩ := h
  cases hn
  obtain ⟨rfl, hm⟩ : pointed = false ∧ marked r' = false := by simpa using hi
  obtain rfl : r' = r := by
    rcases r with _ | ⟨c, r⟩
    · cases hf
      rfl
    · by_cases hc : c = '.'
      · subst hc
        rw [fraction?] at hf
        split at hf <;> cases hf
      · rw [fraction?_of_ne hc] at hf
        cases hf
        rfl
  obtain rfl : r'' = r' := by
    rcases r' with _ | ⟨c, r⟩
    · cases he
      rfl
    · rw [exponent?_cons, if_neg (by simpa [marked] using hm)] at he
      cases he
      rfl
  obtain ⟨rfl, rfl⟩ := Prod.ext_iff.1 (wholeDigits?_eq_some hw)
  have digits : ∀ c ∈ (DecimalLiteral.span (numberSign cs).2).1, c = '-' ∨ c.isDigit = true :=
    fun c hc => .inr (List.mem_takeWhile_imp hc)
  have split : (DecimalLiteral.span (numberSign cs).2).1 ++
      (DecimalLiteral.span (numberSign cs).2).2 = (numberSign cs).2 := List.takeWhile_append_dropWhile
  rcases cs with _ | ⟨c, cs⟩
  · exact ⟨[], rfl, by simp⟩
  · by_cases hc : c = '-'
    · subst hc
      refine ⟨'-' :: (DecimalLiteral.span cs).1, ?_, ?_⟩
      · exact congrArg ('-' :: ·) split.symm
      · exact List.forall_mem_cons.2 ⟨.inl rfl, digits⟩
    · have hs : (numberSign (c :: cs)).2 = c :: cs := by simp [numberSign, hc]
      rw [hs] at split digits ⊢
      exact ⟨_, split.symm, digits⟩

/-! ### The text of an amount -/

/-- A character that occurs in numbers. -/
def Numeric (c : Char) : Prop := c.isDigit = true ∨ c ∈ ['.', 'e', '-', '+']

instance : DecidablePred Numeric := fun _ => inferInstanceAs (Decidable (_ ∨ _))

theorem Numeric.ne {c d : Char} (h : Numeric c) (hd : ¬ Numeric d) : c ≠ d := fun e => hd (e ▸ h)

theorem Numeric.not_blank {c : Char} (h : Numeric c) : isBlank c = false := by
  simp [isBlank, h.ne (d := ' ') (by decide), h.ne (d := '\n') (by decide),
    h.ne (d := '\t') (by decide), h.ne (d := '\r') (by decide)]

theorem Numeric.of_digits {n : Nat} {c : Char} (h : c ∈ Nat.toDigits 10 n) : Numeric c :=
  .inl (Nat.isDigit_of_mem_toDigits (by decide) (by decide) h)

theorem numeric_positional {ds : List Char} (h : ∀ c ∈ ds, Numeric c) (e : Int) :
    (∀ c ∈ Decimal.positional true ds e, Numeric c) ∧ '.' ∈ Decimal.positional true ds e := by
  have zeros (n : Nat) : ∀ c ∈ Decimal.zeros n, Numeric c := fun c hc => by
    rw [(List.mem_replicate.1 hc).2]
    exact .inl rfl
  have zero : Numeric '0' := .inl rfl
  have point : Numeric '.' := .inr (by decide)
  unfold Decimal.positional
  split
  · simp only [List.forall_mem_append]
    exact ⟨⟨⟨h, zeros _⟩, by simp [zero, point]⟩, by simp⟩
  · dsimp only
    split
    · simp only [List.forall_mem_append, List.forall_mem_cons]
      exact ⟨⟨fun c hc => h c (List.mem_of_mem_take hc), point,
        fun c hc => h c (List.mem_of_mem_drop hc)⟩, by simp⟩
    · simp only [List.cons_append, List.forall_mem_append, List.forall_mem_cons]
      exact ⟨⟨zero, point, zeros _, h⟩, by simp⟩

theorem numeric_scientific {ds : List Char} (h : ∀ c ∈ ds, Numeric c) (leading : Int) :
    (∀ c ∈ Decimal.scientific ds leading, Numeric c) ∧ 'e' ∈ Decimal.scientific ds leading := by
  have point : Numeric '.' := .inr (by decide)
  have mark : Numeric 'e' := .inr (by decide)
  have sign : Numeric (if leading < 0 then '-' else '+') := by
    split
    · exact .inr (by decide)
    · exact .inr (by decide)
  have rest : ∀ c ∈ (if ds.length = 1 then [] else '.' :: ds.drop 1), Numeric c := by
    split
    · simp
    · exact List.forall_mem_cons.2 ⟨point, fun c hc => h c (List.mem_of_mem_drop hc)⟩
  refine ⟨?_, by simp [Decimal.scientific]⟩
  simp only [Decimal.scientific, List.forall_mem_append, List.forall_mem_cons]
  exact ⟨⟨fun c hc => h c (List.mem_of_mem_take hc), rest⟩, mark, sign, fun c => .of_digits⟩

/-- The text of a finite amount is a number that is not integral. -/
theorem numeric_amountText {x : Amount} (hx : x.isFinite = true) :
    (∀ c ∈ amountText x, Numeric c) ∧ ∃ c ∈ amountText x, c = '.' ∨ c = 'e' := by
  have unsigned : (∀ c ∈ amountLayout.unsigned x, Numeric c) ∧
      ∃ c ∈ amountLayout.unsigned x, c = '.' ∨ c = 'e' := by
    unfold Decimal.Layout.unsigned
    split
    · obtain ⟨all, point⟩ := numeric_positional (show ∀ c ∈ ['0'], Numeric c by simp [Numeric]) 0
      exact ⟨all, '.', point, .inl rfl⟩
    · dsimp only
      split
      · obtain ⟨all, point⟩ := numeric_positional (fun c => Numeric.of_digits) _
        exact ⟨all, '.', point, .inl rfl⟩
      · obtain ⟨all, mark⟩ := numeric_scientific (fun c => Numeric.of_digits) _
        exact ⟨all, 'e', mark, .inr rfl⟩
  rw [amountText, if_pos hx, Decimal.Layout.finite]
  split
  · obtain ⟨all, c, hc, hpoint⟩ := unsigned
    exact ⟨List.forall_mem_cons.2 ⟨.inr (by decide), all⟩, c, List.mem_cons_of_mem _ hc, hpoint⟩
  · exact unsigned

/-- A text that begins like a number is read as one. -/
theorem value_numeral {cs : List Char} (h : ∀ c ∈ cs.head?, Numeric c) (bound allowance : Nat) :
    value (bound + 1) allowance cs = (numeral? cs).map fun (n, rest) => (n.value, rest) := by
  have skip : skipBlank cs = cs := by
    cases cs with
    | nil => rfl
    | cons c cs => simp [skipBlank, (h c rfl).not_blank]
  rw [value, skip]
  split
  · exact absurd (h 'n' rfl) (by decide)
  · exact absurd (h 't' rfl) (by decide)
  · exact absurd (h 'f' rfl) (by decide)
  · exact absurd (h '"' rfl) (by decide)
  · exact absurd (h '[' rfl) (by decide)
  · exact absurd (h '\x7b' rfl) (by decide)
  · rfl

/-- Whether the text of an amount is read as this amount. -/
def ReadsBack (x : Amount) : Prop :=
  (read standardAllowance (write (.real x))).bind amount? = some x

instance (x : Amount) : Decidable (ReadsBack x) :=
  inferInstanceAs (Decidable (_ = _))

/-- An amount that reads back alone reads back before anything that can follow it. -/
theorem value_amountText {x : Amount} (hx : x.isFinite = true) (h : ReadsBack x) (bound allowance : Nat)
    {rest : List Char} (hrest : Ends rest) :
    value (bound + 1) allowance (amountText x ++ rest) = some (.real x, rest) := by
  obtain ⟨all, c, hc, hpoint⟩ := numeric_amountText hx
  have hne : amountText x ≠ [] := List.ne_nil_of_mem hc
  have begins (more : List Char) : ∀ c ∈ (amountText x ++ more).head?, Numeric c := by
    obtain ⟨d, ds, hd⟩ := List.exists_cons_of_ne_nil hne
    rw [hd] at all ⊢
    rintro c ⟨⟩
    exact all d List.mem_cons_self
  obtain ⟨j, hread, hj⟩ := Option.bind_eq_some_iff.1 h
  have hlone : value (2 * (write (.real x)).length + 1 + 1) standardAllowance (amountText x) =
      (numeral? (amountText x)).map fun (n, rest) => (n.value, rest) :=
    value_numeral (by simpa using begins []) _ _
  obtain ⟨n, left, hn, hleft⟩ : ∃ n left, numeral? (amountText x) = some (n, left) ∧
      skipBlank left = [] ∧ n.value = j := by
    rw [read, show (write (.real x)).toList = amountText x by simp [write, chars], hlone] at hread
    cases hnum : numeral? (amountText x) with
    | none => simp [hnum] at hread
    | some r =>
      simp only [hnum, Option.map_some] at hread
      split at hread
      · exact ⟨r.1, r.2, rfl, ‹_›, Option.some.inj hread⟩
      · cases hread
  have blanks : ∀ d ∈ left, isBlank d = true := List.dropWhile_eq_nil_iff.1 hleft.1
  obtain rfl : left = [] := by
    refine List.eq_nil_iff_forall_not_mem.2 fun d hd => ?_
    have hblank := blanks d hd
    rw [(all d ((numeral?_suffix hn).subset hd)).not_blank] at hblank
    cases hblank
  have hreal : n.value = .real x := by
    have hi : n.integral = false := by
      rw [Bool.eq_false_iff]
      intro hi
      obtain ⟨front, hfront, hdigits⟩ := numeral?_integral hn hi
      rw [hfront, List.append_nil] at hc
      rcases hpoint with rfl | rfl <;> rcases hdigits _ hc with hd | hd <;> revert hd <;> decide
    rw [← hleft.2] at hj
    unfold Numeral.value at hj ⊢
    simp only [hi, Bool.false_and, Bool.false_eq_true, if_false] at hj ⊢
    cases hs : Amount.scaled? n.literal with
    | none => simp [hs, amount?] at hj
    | some y => simpa [hs, amount?] using hj
  rw [value_numeral (begins rest), numeral?_append hn hrest]
  simp [hreal]

/-! ### Natural numbers -/

theorem keep_eq {n : Nat} {cs : List Char} (h : DecimalLiteral.digitsValue n cs < 0x10000000000000000) :
    DecimalLiteral.keep n cs = (DecimalLiteral.digitsValue n cs, []) := by
  have grows (n : Nat) (cs : List Char) : n ≤ DecimalLiteral.digitsValue n cs := by
    induction cs generalizing n with
    | nil => exact Nat.le_refl n
    | cons c cs ih => exact Nat.le_trans (by omega) (ih (10 * n + (c.toNat - '0'.toNat)))
  induction cs generalizing n with
  | nil => rfl
  | cons c cs ih =>
    have hc : DecimalLiteral.digitsValue n [c] < 0x10000000000000000 :=
      Nat.lt_of_le_of_lt (grows _ cs) h
    rw [DecimalLiteral.keep, if_pos hc]
    exact ih h

theorem toDigits_head {n : Nat} (hn : n ≠ 0) : ∃ c cs, Nat.toDigits 10 n = c :: cs ∧ c ≠ '0' := by
  induction n using Nat.base_induction 10 (by decide) with
  | single m hm =>
    exact ⟨m.digitChar, [], Nat.toDigits_of_lt_base hm, by simpa using hn⟩
  | digit m k hk hm ih =>
    obtain ⟨c, cs, hc, hne⟩ := ih hm.ne'
    rw [← Nat.toDigits_append_toDigits (by decide) hm hk, hc]
    exact ⟨c, cs ++ _, rfl, hne⟩

theorem numeral?_toDigits {n : Nat} (hn : n < 0x10000000000000000) :
    numeral? (Nat.toDigits 10 n) = some (⟨⟨false, n, 0⟩, true⟩, []) := by
  have digits : ∀ c ∈ Nat.toDigits 10 n, c.isDigit = true :=
    fun c hc => Nat.isDigit_of_mem_toDigits (by decide) (by decide) hc
  have hsign : numberSign (Nat.toDigits 10 n) = (false, Nat.toDigits 10 n) := by
    obtain ⟨c, cs, hcs⟩ := List.exists_cons_of_ne_nil (Nat.toDigits_ne_nil (n := n) (b := 10))
    have hc : c ≠ '-' := by
      rintro rfl
      exact absurd (digits '-' (hcs ▸ List.mem_cons_self)) (by decide)
    simp [hcs, numberSign, hc]
  have hspan : DecimalLiteral.span (Nat.toDigits 10 n) = (Nat.toDigits 10 n, []) := by
    simp only [DecimalLiteral.span, List.takeWhile_eq_self_iff.2 digits,
      List.dropWhile_eq_nil_iff.2 digits]
  have hwhole : wholeDigits? (Nat.toDigits 10 n) = some (Nat.toDigits 10 n, []) := by
    by_cases hz : n = 0
    · subst hz
      rfl
    · obtain ⟨c, cs, hcs, hc⟩ := toDigits_head hz
      rw [hcs] at hspan ⊢
      simp [wholeDigits?, hspan, hc]
  have hkept : DecimalLiteral.kept false (Nat.toDigits 10 n) [] 0 = ⟨false, n, 0⟩ := by
    have hvalue : DecimalLiteral.digitsValue 0 (Nat.toDigits 10 n) = n := Nat.ofDigitChars_ten_toDigits
    rw [DecimalLiteral.kept, keep_eq (by rwa [hvalue]), hvalue]
    rfl
  rw [numeral?_eq, hsign]
  simp [hwhole, fraction?, DecimalLiteral.exponent?, hkept, marked]

/-- A natural number of sixty-four bits is read as itself. -/
theorem value_toDigits {n : Nat} (hn : n < 0x10000000000000000) (bound allowance : Nat)
    {rest : List Char} (hrest : Ends rest) :
    value (bound + 1) allowance (Nat.toDigits 10 n ++ rest) = some (.natural n, rest) := by
  have begins : ∀ c ∈ (Nat.toDigits 10 n ++ rest).head?, Numeric c := by
    obtain ⟨c, cs, hcs⟩ := List.exists_cons_of_ne_nil (Nat.toDigits_ne_nil (n := n) (b := 10))
    have hc : Numeric c := .of_digits (n := n) (hcs ▸ List.mem_cons_self)
    rw [hcs]
    rintro _ ⟨⟩
    exact hc
  rw [value_numeral begins, numeral?_append (numeral?_toDigits hn) hrest]
  rfl

end StreamLang.Json
