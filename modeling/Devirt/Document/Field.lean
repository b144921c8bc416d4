import Devirt.Json.Value

set_option autoImplicit false

/-! # Fields of documents

How the fields of a record are read: required ones must be there, optional ones may be absent or null,
and others fall back to a default when they are absent.  A reader that opens brackets takes the number
of brackets it may still open, its *room*, as first argument. -/

namespace Devirt.Document

/-- A field that may be absent or null. -/
def optional {α : Type} (read : Json → Option α) : Option Json → Option (Option α)
  | none | some .null => some none
  | some j => (read j).map some

/-- A field with a value for its absence. -/
def defaulted {α : Type} (value : α) (read : Json → Option α) : Option Json → Option α
  | none => some value
  | some j => read j

/-- The items of an array. -/
def listOf {α : Type} (read : Json → Option α) : Json → Option (List α)
  | .array items => items.mapM read
  | _ => none

def strings : Nat → Json → Option (List String)
  | 0, _ => none
  | _ + 1, j => listOf Json.string? j

def names (ns : List String) : Json := .array (ns.map .string)

/-- A constructor with what it is given. -/
def tagged (tag : String) (content : Json) : Json := .record [(tag, content)]

/-- A constructor without content: its tag, alone or with a null. -/
def unitTag? : Json → Option String
  | .string s => some s
  | .object [.mk key _ .null] => some key
  | _ => none

end Devirt.Document
