import Devirt.Number.Double

set_option autoImplicit false

/-! # JSON values

A JSON text as a value.  Objects keep all their members in order, repeated keys included; what repeated
keys mean is up to whoever reads the object.  Numbers written without fraction and exponent are exact
integers as long as they fit 64 bits; all others are doubles.

A text may hold literals of the right form that denote nothing: a number too large for a double, or a
string with half of a surrogate pair.  They are kept as `unreadable`, so that a reader which passes them
over is not disturbed by them. -/

namespace Devirt

mutual

inductive Json where
  | null
  | bool (value : Bool)
  | int (value : Int)
  | real (value : Double)
  | string (value : String)
  | array (items : List Json)
  | object (members : List Member)
  | unreadable

/-- A member of an object.  `plain` says that its key was written without escapes. -/
inductive Member where
  | mk (key : String) (plain : Bool) (value : Json)

end

instance : Inhabited Json := ⟨.null⟩

namespace Member

def key : Member → String
  | mk k _ _ => k

def value : Member → Json
  | mk _ _ v => v

end Member

namespace Json

/-- An object with the given members in order. -/
def record (fields : List (String × Json)) : Json :=
  .object (fields.map fun f => .mk f.1 true f.2)

/-! ## Equality -/

mutual

/-- Whether two values are the same, with their members in the same order. -/
def same : Json → Json → Bool
  | .null, .null | .unreadable, .unreadable => true
  | .bool x, .bool y => x == y
  | .int x, .int y => x == y
  | .real x, .real y => x == y
  | .string x, .string y => x == y
  | .array xs, .array ys => sameItems xs ys
  | .object ms, .object ns => sameMembers ms ns
  | _, _ => false

def sameItems : List Json → List Json → Bool
  | [], [] => true
  | x :: xs, y :: ys => same x y && sameItems xs ys
  | _, _ => false

def sameMembers : List Member → List Member → Bool
  | [], [] => true
  | .mk k p x :: ms, .mk l q y :: ns => k == l && p == q && same x y && sameMembers ms ns
  | _, _ => false

end

mutual

theorem same_iff : ∀ x y : Json, same x y = true ↔ x = y
  | .null, y | .unreadable, y | .bool _, y | .int _, y | .real _, y | .string _, y => by
    cases y <;> simp [same]
  | .array xs, y => by cases y <;> simp [same, sameItems_iff xs]
  | .object ms, y => by cases y <;> simp [same, sameMembers_iff ms]

theorem sameItems_iff : ∀ xs ys : List Json, sameItems xs ys = true ↔ xs = ys
  | [], ys => by cases ys <;> simp [sameItems]
  | x :: xs, [] => by simp [sameItems]
  | x :: xs, y :: ys => by simp [sameItems, same_iff x y, sameItems_iff xs ys]

theorem sameMembers_iff : ∀ ms ns : List Member, sameMembers ms ns = true ↔ ms = ns
  | [], ns => by cases ns <;> simp [sameMembers]
  | m :: ms, [] => by simp [sameMembers]
  | .mk k p x :: ms, .mk l q y :: ns => by
    simp [sameMembers, same_iff x y, sameMembers_iff ms ns, and_assoc]

end

instance : DecidableEq Json := fun x y => decidable_of_iff (same x y = true) (same_iff x y)

/-! ## Nesting -/

/-- Brackets of a document that may be open at once. -/
def maxNesting : Nat := 127

mutual

/-- Whether a value can be read in full with `room` more brackets open at once. -/
def fits : Nat → Json → Bool
  | _, unreadable => false
  | 0, array _ | 0, object _ => false
  | room + 1, array items => itemsFit room items
  | room + 1, object members => membersFit room members
  | _, _ => true

def itemsFit : Nat → List Json → Bool
  | _, [] => true
  | room, j :: js => fits room j && itemsFit room js

def membersFit : Nat → List Member → Bool
  | _, [] => true
  | room, .mk _ _ v :: ms => fits room v && membersFit room ms

end

/-! ## Reading members -/

/-- The value of a field that stands once, `none` if it is absent; twice is refused. -/
def field? (name : String) (members : List Member) : Option (Option Json) :=
  match members.filter fun m => m.key == name with
  | [] => some none
  | [m] => some (some m.value)
  | _ => none

/-- The fields of a record with these names, each present or absent.  A record is an object, whose
other members are passed over, or an array of the leading fields in order. -/
def fields? (names : List String) : Json → Option (List (Option Json))
  | .object members => names.mapM fun n => field? n members
  | .array items =>
    if items.length ≤ names.length then
      some (items.map some ++ List.replicate (names.length - items.length) none)
    else none
  | _ => none

/-! ## Reading scalars -/

def bool? : Json → Option Bool
  | .bool b => some b
  | _ => none

def string? : Json → Option String
  | .string s => some s
  | _ => none

/-- Any number, an integer rounded to the nearest double. -/
def number? : Json → Option Double
  | .int n => some (Double.ofInt n)
  | .real x => some x
  | _ => none

/-- An integer in a range; a number with fraction or exponent is none. -/
def intIn? (lo hi : Int) : Json → Option Int
  | .int n => if lo ≤ n ∧ n ≤ hi then some n else none
  | _ => none

def uint8? (j : Json) : Option UInt8 := (intIn? 0 0xff j).map fun n => UInt8.ofNat n.toNat

def uint32? (j : Json) : Option UInt32 := (intIn? 0 0xffffffff j).map fun n => UInt32.ofNat n.toNat

def uint64? (j : Json) : Option UInt64 := (intIn? 0 0xffffffffffffffff j).map fun n => UInt64.ofNat n.toNat

def int32? (j : Json) : Option Int32 := (intIn? (-0x80000000) 0x7fffffff j).map Int32.ofInt

end Json

end Devirt
