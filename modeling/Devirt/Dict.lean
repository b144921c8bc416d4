set_option autoImplicit false

/-! # Finite maps

A finite map is kept as the list of its pairs, in the order in which the keys first came in.  Its
meaning is `get?`; the lemmas below say what each operation does to it. -/

namespace Devirt

/-- A finite map from `κ` to `υ`. -/
structure Dict (κ υ : Type) where
  entries : List (κ × υ)

namespace Dict

variable {κ υ : Type} [DecidableEq κ]

def empty : Dict κ υ := ⟨[]⟩

instance : Inhabited (Dict κ υ) := ⟨empty⟩

def find (k : κ) : List (κ × υ) → Option υ
  | [] => none
  | (k', v) :: rest => if k' = k then some v else find k rest

/-- The value at a key. -/
def get? (d : Dict κ υ) (k : κ) : Option υ := find k d.entries

def contains (d : Dict κ υ) (k : κ) : Bool := (d.get? k).isSome

/-- Replaces the value at a key, where it stands, or puts a new pair at the end. -/
def put (k : κ) (v : υ) : List (κ × υ) → List (κ × υ)
  | [] => [(k, v)]
  | (k', v') :: rest => if k' = k then (k', v) :: rest else (k', v') :: put k v rest

def insert (d : Dict κ υ) (k : κ) (v : υ) : Dict κ υ := ⟨put k v d.entries⟩

/-- Keeps the pairs that pass the test. -/
def filter (d : Dict κ υ) (keep : κ → υ → Bool) : Dict κ υ :=
  ⟨d.entries.filter fun p => keep p.1 p.2⟩

def keys (d : Dict κ υ) : List κ := d.entries.map (·.1)

def size (d : Dict κ υ) : Nat := d.entries.length

def isEmpty (d : Dict κ υ) : Bool := d.entries.isEmpty

/-! ## Small facts -/

@[simp] theorem get?_empty (k : κ) : (empty : Dict κ υ).get? k = none := rfl

theorem find_put (k j : κ) (v : υ) (l : List (κ × υ)) :
    find j (put k v l) = if k = j then some v else find j l := by
  induction l with
  | nil => simp [put, find]
  | cons p rest ih =>
    obtain ⟨k', v'⟩ := p
    by_cases h : k' = k
    · subst h
      by_cases hj : k' = j <;> simp [put, find, hj]
    · by_cases hj : k' = j
      · subst hj
        simp [put, find, h, Ne.symm h]
      · simp [put, find, h, hj, ih]

/-- An insertion shows at its key and nowhere else. -/
@[simp] theorem get?_insert (d : Dict κ υ) (k j : κ) (v : υ) :
    (d.insert k v).get? j = if k = j then some v else d.get? j :=
  find_put k j v d.entries

end Dict

end Devirt
