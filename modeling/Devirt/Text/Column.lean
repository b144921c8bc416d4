set_option autoImplicit false

/-! # Columns

Texts set to a width, counted in characters.  A text that is too long is left as it is. -/

namespace Devirt.Text

def blanks (n : Nat) : String := String.ofList (List.replicate n ' ')

/-- Set to the right edge of the column. -/
def alignRight (width : Nat) (s : String) : String := blanks (width - s.length) ++ s

/-- Set to the left edge of the column. -/
def alignLeft (width : Nat) (s : String) : String := s ++ blanks (width - s.length)

/-- Set in the middle; an odd blank goes to the right. -/
def center (width : Nat) (s : String) : String :=
  let room := width - s.length
  blanks (room / 2) ++ s ++ blanks (room - room / 2)

end Devirt.Text
