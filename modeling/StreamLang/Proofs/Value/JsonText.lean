import Mathlib.Tactic.MkIffOfInductiveProp
import StreamLang.Proofs.Json.ReadBack
import StreamLang.Proofs.Value.Parts
import StreamLang.Proofs.Value.RoundTrip
import StreamLang.Value.Json
/-!
A value without functions survives its JSON text (`Value.json_reads_back`). It does not matter which
of a type and its content comes first, anywhere in the text.
-/
namespace StreamLang

namespace Number

theorem ofJson?_toJson (n : Number) : ofJson? n.toJson = some n := by
  obtain ⟨amount, unit⟩ := n
  cases unit <;> simp [ofJson?, toJson, Json.object?, Json.distinct, Json.field?,
    Json.amount?, Json.nullable?, Json.text?]

end Number

namespace Exception

theorem ofJson?_toJson {e : Exception} (h : ∀ i ∈ e.node, i < 0x100000000) (kept : Bool) :
    ofJson? kept e.toJson = some e := by
  obtain ⟨kind, message, node⟩ := e
  have hkind : ExceptionKind.ofName? kind.name = some kind := ExceptionKind.ofName?_name kind
  cases node with
  | none =>
    simp [ofJson?, toJson, Json.object?, Json.distinct, Json.field?,
      Json.choice?, Json.text?, Json.nullable?, hkind]
  | some i =>
    have hi : i < 0x100000000 := h i rfl
    simp [ofJson?, toJson, Json.object?, Json.distinct, Json.field?,
      Json.choice?, Json.text?, Json.nullable?, nodeOfJson?, Json.natural?, hi, hkind]

end Exception

namespace Value

/-- The two ways to write a type with its content. -/
def Tagged (type : String) (content j : Json) : Prop :=
  j = typed type content ∨ j = .object [("value", content), ("type", .text type)]

mutual
/-- What says the value, with each type before or after its content. -/
def Written : Value → Json → Prop
  | number n, j => Tagged "number" n.toJson j
  | text s, j => Tagged "text" (.text s) j
  | boolean b, j => Tagged "boolean" (.boolean b) j
  | list items, j => ∃ js, WrittenItems items js ∧ Tagged "list" (.array js) j
  | struct fields, j => ∃ fs, WrittenFields fields fs ∧ Tagged "structure" (.object fs) j
  | function _, _ => False
  | exception e, j => Tagged "exception" e.toJson j

def WrittenItems : List Value → List Json → Prop
  | [], js => js = []
  | v :: vs, js => ∃ k ks, js = k :: ks ∧ v.Written k ∧ WrittenItems vs ks

def WrittenFields : List (String × Value) → List (String × Json) → Prop
  | [], fs => fs = []
  | (name, v) :: rest, fs => ∃ k ks, fs = (name, k) :: ks ∧ v.Written k ∧ WrittenFields rest ks
end

/-- What can be said in JSON: amounts are finite and there are no functions. No name comes twice in a
structure, and numbers of nodes have thirty-two bits. -/
def Printable : Value → Prop
  | number n => n.amount.isFinite = true
  | struct fields => (fields.map Prod.fst).Nodup
  | function _ => False
  | exception e => ∀ i ∈ e.node, i < 0x100000000
  | _ => True

/-- The amount of a number reads back. -/
def Readable : Value → Prop
  | number n => Json.ReadsBack n.amount
  | _ => True

def Sound (v : Value) : Prop := v.Printable ∧ v.Readable

theorem faithful_tagged {type : String} {content j : Json} (h : Tagged type content j)
    (hc : content.Faithful) : j.Faithful := by
  rcases h with rfl | rfl <;> refine .object ?_ <;> simp [hc, Json.Faithful.text]

mutual
theorem faithful_of_written : ∀ {v : Value} {j : Json}, v.Throughout Sound → v.Written j → j.Faithful
  | number ⟨amount, unit⟩, j, hv, h => by
    obtain ⟨finite, back⟩ : amount.isFinite = true ∧ Json.ReadsBack amount := hv.self
    refine faithful_tagged h (.object ?_)
    cases unit <;> simp [Json.Faithful.real finite back, Json.Faithful.text]
  | text s, j, hv, h => faithful_tagged h (.text s)
  | boolean b, j, hv, h => faithful_tagged h (.boolean b)
  | list items, j, hv, ⟨js, hjs, h⟩ =>
    faithful_tagged h (.array (faithful_of_writtenItems (fun v => hv.item) hjs))
  | struct fields, j, hv, ⟨fs, hfs, h⟩ =>
    faithful_tagged h (.object (faithful_of_writtenFields (fun f => hv.field) hfs))
  | exception ⟨kind, message, node⟩, j, hv, h => by
    refine faithful_tagged h (.object ?_)
    have hnode : ∀ i ∈ node, i < 0x100000000 := hv.self.1
    cases node with
    | none => simp [Json.Faithful.null, Json.Faithful.text]
    | some i =>
      have hi : i < 0x10000000000000000 := Nat.lt_trans (hnode i rfl) (by decide)
      simp [Json.Faithful.natural hi, Json.Faithful.text]

theorem faithful_of_writtenItems : ∀ {vs : List Value} {js : List Json},
    (∀ v ∈ vs, v.Throughout Sound) → WrittenItems vs js → ∀ j ∈ js, j.Faithful
  | [], js, _, h => by
    rw [WrittenItems] at h
    simp [h]
  | v :: vs, js, hv, h => by
    obtain ⟨k, ks, rfl, hk, hks⟩ := h
    obtain ⟨hhead, hrest⟩ := List.forall_mem_cons.1 hv
    exact List.forall_mem_cons.2 ⟨faithful_of_written hhead hk, faithful_of_writtenItems hrest hks⟩

theorem faithful_of_writtenFields : ∀ {fields : List (String × Value)} {fs : List (String × Json)},
    (∀ f ∈ fields, f.2.Throughout Sound) → WrittenFields fields fs → ∀ f ∈ fs, f.2.Faithful
  | [], fs, _, h => by
    rw [WrittenFields] at h
    simp [h]
  | (name, v) :: fields, fs, hv, h => by
    obtain ⟨k, ks, rfl, hk, hks⟩ := h
    obtain ⟨hhead, hrest⟩ := List.forall_mem_cons.1 hv
    exact List.forall_mem_cons.2 ⟨faithful_of_written hhead hk, faithful_of_writtenFields hrest hks⟩
end

/-! ### The order of a type and its content -/

theorem nesting_tagged {type : String} {content j : Json} (h : Tagged type content j) :
    j.nesting = content.nesting + 1 := by
  rcases h with rfl | rfl <;> simp [typed, Json.nesting, Json.nestingFields]

mutual
/-- In any order there are as many arrays and objects inside one another. -/
theorem nesting_of_written : ∀ {v : Value} {j : Json}, v.Written j → j.nesting = v.nesting
  | number ⟨amount, unit⟩, j, h => by
    rw [nesting_tagged h]
    cases unit <;> rfl
  | text s, j, h => nesting_tagged h
  | boolean b, j, h => nesting_tagged h
  | list items, j, ⟨js, hjs, h⟩ => by
    rw [nesting_tagged h, Json.nesting, nesting_of_writtenItems hjs]
    rfl
  | struct fields, j, ⟨fs, hfs, h⟩ => by
    rw [nesting_tagged h, Json.nesting, nesting_of_writtenFields hfs]
    rfl
  | exception ⟨kind, message, node⟩, j, h => by
    rw [nesting_tagged h]
    cases node <;> rfl

theorem nesting_of_writtenItems : ∀ {vs : List Value} {js : List Json}, WrittenItems vs js →
    Json.nestingItems js = nestingItems vs
  | [], js, h => by
    rw [WrittenItems] at h
    rw [h]
    rfl
  | v :: vs, js, h => by
    obtain ⟨k, ks, rfl, hk, hks⟩ := h
    rw [Json.nestingItems, nestingItems, nesting_of_written hk, nesting_of_writtenItems hks]

theorem nesting_of_writtenFields : ∀ {fields : List (String × Value)} {fs : List (String × Json)},
    WrittenFields fields fs → Json.nestingFields fs = nestingFields fields
  | [], fs, h => by
    rw [WrittenFields] at h
    rw [h]
    rfl
  | (name, v) :: fields, fs, h => by
    obtain ⟨k, ks, rfl, hk, hks⟩ := h
    rw [Json.nestingFields, nestingFields, nesting_of_written hk, nesting_of_writtenFields hks]
end

mutual
/-- A value without functions is written, the types first. -/
theorem exists_toJson? : ∀ {v : Value}, v.Throughout Sound → ∃ j, v.toJson? = some j ∧ v.Written j
  | number n, _ => ⟨_, rfl, .inl rfl⟩
  | text s, _ => ⟨_, rfl, .inl rfl⟩
  | boolean b, _ => ⟨_, rfl, .inl rfl⟩
  | list items, hv => by
    obtain ⟨js, hjs, h⟩ := exists_toJsonItems? fun v => hv.item
    exact ⟨_, by rw [toJson?, hjs]; rfl, js, h, .inl rfl⟩
  | struct fields, hv => by
    obtain ⟨fs, hfs, h⟩ := exists_toJsonFields? fun f => hv.field
    exact ⟨_, by rw [toJson?, hfs]; rfl, fs, h, .inl rfl⟩
  | function c, hv => hv.self.1.elim
  | exception e, _ => ⟨_, rfl, .inl rfl⟩

theorem exists_toJsonItems? : ∀ {vs : List Value}, (∀ v ∈ vs, v.Throughout Sound) →
    ∃ js, toJsonItems? vs = some js ∧ WrittenItems vs js
  | [], _ => ⟨[], rfl, rfl⟩
  | v :: vs, hv => by
    obtain ⟨hhead, hrest⟩ := List.forall_mem_cons.1 hv
    obtain ⟨j, hj, h⟩ := exists_toJson? hhead
    obtain ⟨js, hjs, hs⟩ := exists_toJsonItems? hrest
    exact ⟨j :: js, by simp [toJsonItems?, hj, hjs], j, js, rfl, h, hs⟩

theorem exists_toJsonFields? : ∀ {fields : List (String × Value)},
    (∀ f ∈ fields, f.2.Throughout Sound) →
      ∃ fs, toJsonFields? fields = some fs ∧ WrittenFields fields fs
  | [], _ => ⟨[], rfl, rfl⟩
  | (name, v) :: fields, hv => by
    obtain ⟨hhead, hrest⟩ := List.forall_mem_cons.1 hv
    obtain ⟨j, hj, h⟩ := exists_toJson? hhead
    obtain ⟨fs, hfs, hs⟩ := exists_toJsonFields? hrest
    exact ⟨(name, j) :: fs, by simp [toJsonFields?, hj, hfs], j, fs, rfl, h, hs⟩
end

/-! ### Reading -/

theorem readable_of_tagged {type : String} {content j : Json} (h : Tagged type content j)
    (hj : j.readable = true) : content.readable = true := by
  rcases h with rfl | rfl <;> simpa [typed, Json.readable, Json.readableFields] using hj

/-- Whichever comes first, the type tells how the content is read. -/
theorem readWithin_tagged {type : String} {content j : Json} (h : Tagged type content j)
    (hc : content.readable = true) (bound : Nat) (kept : Bool) :
    ∃ kept', readWithin (bound + 1) kept j = ofContent? kept' (readWithin bound kept') type content := by
  rcases h with rfl | rfl
  · exact ⟨kept, by simp [readWithin, typed, Json.object?, Json.distinct, Json.field?,
      Json.choice?, typeFirst]⟩
  · exact ⟨true, by simp [readWithin, Json.object?, Json.distinct, Json.field?, Json.choice?,
      typeFirst, hc]⟩

mutual
/-- The value is read from whatever says it, kept aside or not. -/
theorem readWithin_written : ∀ {v : Value} {j : Json} (bound : Nat) (kept : Bool),
    v.Throughout Sound → v.Written j → v.nesting < bound → readWithin bound kept j = some v
  | _, _, 0, _, _, _, hb => absurd hb (Nat.not_lt_zero _)
  | number n, j, bound + 1, kept, hv, h, _ => by
    have hj := (faithful_of_written hv h).readable
    obtain ⟨kept', hread⟩ := readWithin_tagged h (readable_of_tagged h hj) bound kept
    rw [hread, ofContent?, Number.ofJson?_toJson]
    rfl
  | text s, j, bound + 1, kept, _, h, _ => by
    obtain ⟨kept', hread⟩ := readWithin_tagged h rfl bound kept
    rw [hread]
    rfl
  | boolean b, j, bound + 1, kept, _, h, _ => by
    obtain ⟨kept', hread⟩ := readWithin_tagged h rfl bound kept
    rw [hread]
    rfl
  | list items, j, bound + 1, kept, hv, hw, hb => by
    have hj := (faithful_of_written hv hw).readable
    obtain ⟨js, hjs, h⟩ := hw
    obtain ⟨kept', hread⟩ := readWithin_tagged h (readable_of_tagged h hj) bound kept
    rw [nesting] at hb
    have hitems := mapM_writtenItems bound kept' (fun v => hv.item) hjs (by omega)
    rw [hread, ofContent?, Json.array?, Option.bind_some, hitems]
    rfl
  | struct fields, j, bound + 1, kept, hv, hw, hb => by
    have hj := (faithful_of_written hv hw).readable
    obtain ⟨fs, hfs, h⟩ := hw
    obtain ⟨kept', hread⟩ := readWithin_tagged h (readable_of_tagged h hj) bound kept
    rw [nesting] at hb
    have hfields := mapM_writtenFields bound kept' (fun f => hv.field) hfs (by omega)
    have distinct : (fields.map Prod.fst).Nodup := hv.self.1
    rw [hread, ofContent?, Json.object?, Option.bind_eq_bind, Option.bind_some, hfields]
    exact congrArg (fun a => some (struct a)) (Assoc.ofList_of_nodup distinct)
  | exception e, j, bound + 1, kept, hv, h, _ => by
    have hj := (faithful_of_written hv h).readable
    obtain ⟨kept', hread⟩ := readWithin_tagged h (readable_of_tagged h hj) bound kept
    rw [hread, ofContent?, Exception.ofJson?_toJson hv.self.1]
    rfl

theorem mapM_writtenItems : ∀ {vs : List Value} {js : List Json} (bound : Nat) (kept : Bool),
    (∀ v ∈ vs, v.Throughout Sound) → WrittenItems vs js → nestingItems vs < bound →
      js.mapM (readWithin bound kept) = some vs
  | [], js, bound, kept, _, h, _ => by
    rw [WrittenItems] at h
    rw [h]
    rfl
  | v :: vs, js, bound, kept, hv, h, hb => by
    obtain ⟨k, ks, rfl, hk, hks⟩ := h
    obtain ⟨hhead, hrest⟩ := List.forall_mem_cons.1 hv
    obtain ⟨hb, hbs⟩ := Nat.max_lt.1 hb
    rw [List.mapM_cons, readWithin_written bound kept hhead hk hb,
      mapM_writtenItems bound kept hrest hks hbs]
    rfl

theorem mapM_writtenFields : ∀ {fields : List (String × Value)} {fs : List (String × Json)}
    (bound : Nat) (kept : Bool), (∀ f ∈ fields, f.2.Throughout Sound) → WrittenFields fields fs →
      nestingFields fields < bound →
      fs.mapM (fun f => (readWithin bound kept f.2).map (f.1, ·)) = some fields
  | [], fs, bound, kept, _, h, _ => by
    rw [WrittenFields] at h
    rw [h]
    rfl
  | (name, v) :: fields, fs, bound, kept, hv, h, hb => by
    obtain ⟨k, ks, rfl, hk, hks⟩ := h
    obtain ⟨hhead, hrest⟩ := List.forall_mem_cons.1 hv
    obtain ⟨hb, hbs⟩ := Nat.max_lt.1 hb
    rw [List.mapM_cons, readWithin_written bound kept hhead hk hb,
      mapM_writtenFields bound kept hrest hks hbs]
    rfl
end

/-- A value without functions, of finite amounts whose texts read back, has a JSON text. If this does
not nest too deeply, the value is read back from it, and from any other that differs only in which of
a type and its content comes first. -/
theorem json_reads_back {v : Value} (printable : v.Throughout Printable)
    (codec : v.Throughout Readable) :
    ∃ j, v.toJson? = some j ∧ v.toText? = some j.write ∧
      (j.nesting ≤ Json.standardAllowance →
        ofText? j.write = some v ∧ ∀ j', v.Written j' → ofText? j'.write = some v) := by
  have sound : v.Throughout Sound := fun u hu => ⟨printable u hu, codec u hu⟩
  obtain ⟨j, hj, hw⟩ := exists_toJson? sound
  refine ⟨j, hj, by rw [toText?, hj]; rfl, fun hdeep => ?_⟩
  have reads (j' : Json) (hw' : v.Written j') : ofText? j'.write = some v := by
    have hn : j'.nesting ≤ Json.standardAllowance := by
      rwa [nesting_of_written hw', ← nesting_of_written hw]
    rw [ofText?, Json.read_write (faithful_of_written sound hw') hn, Option.bind_some, ofJson?]
    exact readWithin_written _ _ sound hw' (by rw [nesting_of_written hw']; omega)
  exact ⟨reads j hw, reads⟩

/-! A structure with a field without a name, the empty unit, a negative zero and the least positive
amount, quotes and control characters, and failures with a node and without. -/

namespace Letter

def tenth : Amount := ⟨0x3FB999999999999A⟩
def negativeZero : Amount := ⟨0x8000000000000000⟩
def least : Amount := ⟨1⟩

def value : Value :=
  .struct [("sum", .number ⟨tenth, some ""⟩),
    ("place", .list [.number ⟨negativeZero, none⟩, .number ⟨least, some "m"⟩, .boolean true]),
    ("", .text "\"\\/\x07\n é"),
    ("lost", .list [.exception ⟨.streamUnavailable, "gone\t", some 7⟩,
      .exception ⟨.unknownName, "who?", none⟩])]

/-- What can be read off the value. -/
@[mk_iff]
structure Checked : Prop where
  finite : ∀ x ∈ [tenth, negativeZero, least], x.isFinite = true
  back : ∀ x ∈ [tenth, negativeZero, least], Json.ReadsBack x
  shallow : value.toJson?.all (·.nesting ≤ Json.standardAllowance) = true

theorem checked : Checked := checked_iff.2 (by decide +kernel)

end Letter

open Letter in
/-- The value is read back from all of its texts. -/
theorem Letter.value_reads_back :
    value.Throughout Printable ∧ value.Throughout Readable ∧
      ∃ j : Json, value.toText? = some j.write ∧ ofText? j.write = some value ∧
        ∀ j', value.Written j' → ofText? j'.write = some value := by
  have printable : value.Throughout Printable := by
    have := checked.finite
    simp_all [value, Printable]
  have codec : value.Throughout Readable := by
    have := checked.back
    simp_all [value, Readable]
  obtain ⟨j, hj, htext, hread⟩ := json_reads_back printable codec
  have shallow := checked.shallow
  rw [hj] at shallow
  exact ⟨printable, codec, j, htext, hread (of_decide_eq_true shallow)⟩

end Value
end StreamLang
