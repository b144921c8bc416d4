set_option autoImplicit false

/-! # Quoted strings

A string constant is written between double quotes.  The quote, the backslash, newline, carriage
return and tab have a short escape; every other control character is written as a backslash and its
decimal code, without padding; all else stands for itself. -/

namespace Devirt.Text

/-- The written form of one character. -/
def escape (c : Char) : List Char :=
  if c = '"' then ['\\', '"']
  else if c = '\\' then ['\\', '\\']
  else if c = '\n' then ['\\', 'n']
  else if c = '\r' then ['\\', 'r']
  else if c = '\t' then ['\\', 't']
  else if c.toNat < 32 ∨ c.toNat = 127 then '\\' :: Nat.toDigits 10 c.toNat
  else [c]

/-- The characters of the quoted form, quotes included. -/
def quoteChars (s : List Char) : List Char :=
  '"' :: (s.flatMap escape ++ ['"'])

/-- The quoted form of a string. -/
def quote (s : String) : String := String.ofList (quoteChars s.toList)

theorem toList_quote (s : String) : (quote s).toList = quoteChars s.toList := by
  simp [quote]

/-- A quoted string stays on its line. -/
theorem newline_notMem_escape (c : Char) : '\n' ∉ escape c := by
  unfold escape
  split
  · decide
  split
  · decide
  split
  · decide
  split
  · decide
  split
  · decide
  split
  · intro h
    rcases List.mem_cons.1 h with h | h
    · exact absurd h (by decide)
    · exact absurd (Nat.isDigit_of_mem_toDigits (by decide) (by decide) h) (by decide)
  · intro h
    rw [List.mem_singleton] at h
    exact absurd h.symm ‹¬c = '\n'›

end Devirt.Text
