import StreamLang.Value.Basic
/-!
What lies in a value, and what is true throughout it.
-/
namespace StreamLang.Value

/-- The value itself and all that lies in it, at any depth. -/
inductive Holds : Value → Value → Prop where
  | self (v : Value) : Holds v v
  | item {items : List Value} {v u : Value} (hv : v ∈ items) (h : Holds v u) : Holds (list items) u
  | field {fields : List (String × Value)} {f : String × Value} {u : Value} (hf : f ∈ fields)
    (h : Holds f.2 u) : Holds (struct fields) u

def Throughout (P : Value → Prop) (v : Value) : Prop := ∀ u, v.Holds u → P u

variable {P Q : Value → Prop} {v : Value}

theorem Throughout.self (h : v.Throughout P) : P v := h v (.self v)

theorem Throughout.item {items : List Value} (h : (list items).Throughout P) (hv : v ∈ items) :
    v.Throughout P := fun u hu => h u (.item hv hu)

theorem Throughout.field {fields : List (String × Value)} (h : (struct fields).Throughout P)
    {f : String × Value} (hf : f ∈ fields) : f.2.Throughout P := fun u hu => h u (.field hf hu)

theorem throughout_list {items : List Value} :
    (list items).Throughout P ↔ P (list items) ∧ ∀ v ∈ items, v.Throughout P := by
  constructor
  · exact fun h => ⟨h.self, fun v hv => h.item hv⟩
  · rintro ⟨hself, h⟩ u (_ | ⟨hv, hu⟩ | _)
    · exact hself
    · exact h _ hv u hu

theorem throughout_struct {fields : List (String × Value)} :
    (struct fields).Throughout P ↔ P (struct fields) ∧ ∀ f ∈ fields, f.2.Throughout P := by
  constructor
  · exact fun h => ⟨h.self, fun f hf => h.field hf⟩
  · rintro ⟨hself, h⟩ u (_ | _ | ⟨hf, hu⟩)
    · exact hself
    · exact h _ hf u hu

/-- What has no parts is all there is in it. -/
theorem throughout_leaf (hlist : ∀ items, v ≠ list items) (hstruct : ∀ fields, v ≠ struct fields) :
    v.Throughout P ↔ P v := by
  refine ⟨Throughout.self, fun h u hu => ?_⟩
  cases hu with
  | self => exact h
  | item => exact absurd rfl (hlist _)
  | field => exact absurd rfl (hstruct _)

@[simp] theorem throughout_number {n : Number} : (number n).Throughout P ↔ P (number n) :=
  throughout_leaf nofun nofun
@[simp] theorem throughout_text {s : String} : (text s).Throughout P ↔ P (text s) :=
  throughout_leaf nofun nofun
@[simp] theorem throughout_boolean {b : Bool} : (boolean b).Throughout P ↔ P (boolean b) :=
  throughout_leaf nofun nofun
@[simp] theorem throughout_function {c : Closure} : (function c).Throughout P ↔ P (function c) :=
  throughout_leaf nofun nofun
@[simp] theorem throughout_exception {e : Exception} :
    (exception e).Throughout P ↔ P (exception e) := throughout_leaf nofun nofun

attribute [simp] throughout_list throughout_struct

theorem Throughout.mono (h : v.Throughout P) (himp : ∀ u, P u → Q u) : v.Throughout Q :=
  fun u hu => himp u (h u hu)

end StreamLang.Value
