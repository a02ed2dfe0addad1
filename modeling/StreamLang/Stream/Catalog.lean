import StreamLang.Value.Basic
/-!
The streams that a program may read, each with a shape that its values have, a way in which it
produces them, and the value that is read while there is none. A catalog is ordered; adding a stream
under a known name replaces it in place.
-/
namespace StreamLang

inductive Emission where
  /-- Takes clock readings and gives the milliseconds since the first one. -/
  | elapsed
  /-- Gives a value when a pass asks for one. -/
  | onDemand
  /-- Gives whatever its source pushes. -/
  | push
  deriving DecidableEq, Repr

def Emission.name : Emission → String
  | elapsed => "elapsed"
  | onDemand => "on-demand"
  | push => "push"

def Emission.ofName? (s : String) : Option Emission :=
  [elapsed, onDemand, push].find? (·.name == s)

inductive Shape where
  | duration
  | number
  | text
  | boolean
  | point
  deriving DecidableEq, Repr

namespace Shape

def name : Shape → String
  | duration => "duration"
  | number => "number"
  | text => "text"
  | boolean => "boolean"
  | point => "point"

def ofName? (s : String) : Option Shape :=
  [duration, number, text, boolean, point].find? (·.name == s)

/-- How a message names the shape. -/
def describe : Shape → String
  | duration => "a duration in ms"
  | number => "a number"
  | text => "text"
  | boolean => "a boolean"
  | point => "a structure with numeric x and y"

def isNumber : Value → Bool
  | .number _ => true
  | _ => false

/-- A duration may leave out its unit; a point may have more fields. -/
def accepts : Shape → Value → Bool
  | duration, .number n => n.unit == none || n.unit == some "ms"
  | number, .number _ => true
  | text, .text _ => true
  | boolean, .boolean _ => true
  | point, .struct fields =>
    (Assoc.get? "x" fields).any isNumber && (Assoc.get? "y" fields).any isNumber
  | _, _ => false

end Shape

structure StreamSpec where
  name : String
  emission : Emission
  shape : Shape
  /-- Read while the stream is unavailable or has no value yet. -/
  default : Value
  deriving Repr

def milliseconds (x : Amount) : Value := .number ⟨x, some "ms"⟩

/-- A pushed stream of numbers that starts from zero. -/
def StreamSpec.number (name : String) : StreamSpec := ⟨name, .push, .number, .plain .zero⟩

structure Catalog where
  specs : Assoc String StreamSpec
  deriving Repr

namespace Catalog

def empty : Catalog := ⟨[]⟩

def add (c : Catalog) (spec : StreamSpec) : Catalog := ⟨Assoc.put spec.name spec c.specs⟩

def get? (c : Catalog) (name : String) : Option StreamSpec := Assoc.get? name c.specs

def names (c : Catalog) : List String := Assoc.keys c.specs

def builtin : Catalog :=
  [⟨"time", .elapsed, .duration, milliseconds .zero⟩,
    ⟨"random", .onDemand, .number, .plain .zero⟩,
    ⟨"keyboard", .push, .text, .text ""⟩,
    ⟨"mouse-position", .push, .point, .struct [("x", .plain .zero), ("y", .plain .zero)]⟩,
    ⟨"mouse-button", .push, .boolean, .boolean false⟩,
    .number "microphone"].foldl add empty

end Catalog
end StreamLang
