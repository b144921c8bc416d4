import Devirt.Bytecode.Prototype
import Devirt.Syntax.Printer
import Mathlib.Data.List.Chain
import Mathlib.Tactic

set_option autoImplicit false

/-! # Reading quoted strings

A literal of the analysed language is read from its opening quote to its closing one.  A backslash
stands before a letter, a quote or another backslash, or before the decimal code of a character: as many
digits as follow, three at most.

A code is written with as many digits as it has.  A code of one or two digits is therefore read
together with the digits of the string that stand behind it.  `unquote_quote` says that this is all that
goes wrong: a string is read back from its quoted form just if it is `Separated`. -/

namespace Devirt

namespace Text

/-! ## The reader -/

/-- What a letter, a quote or a backslash stands for behind a backslash. -/
def ofLetter? : Char → Option Char
  | '"' => some '"'
  | '\\' => some '\\'
  | 'n' => some '\n'
  | 'r' => some '\r'
  | 't' => some '\t'
  | _ => none

/-- The digits that a text begins with, `k` of them at most. -/
def leadingDigits (k : Nat) (cs : List Char) : List Char := (cs.take k).takeWhile Char.isDigit

def readLetter : List Char → Option (Char × List Char)
  | [] => none
  | c :: cs => (ofLetter? c).map fun d => (d, cs)

/-- What stands behind a backslash, and the text that follows.  A code is that of a byte. -/
def readEscape (cs : List Char) : Option (Char × List Char) :=
  let ds := leadingDigits 3 cs
  if ds = [] then readLetter cs
  else if Nat.ofDigitChars 10 ds 0 < 256 then
    some (Char.ofNat (Nat.ofDigitChars 10 ds 0), cs.drop ds.length)
  else none

/-- One character of a literal, however it is written, and the text that follows. -/
def readChar (c : Char) (cs : List Char) : Option (Char × List Char) :=
  if c = '\\' then readEscape cs else some (c, cs)

/-- The characters up to the closing quote, fewer than `n`, and the text behind it. -/
def readBody : Nat → List Char → Option (List Char × List Char)
  | 0, _ => none
  | _ + 1, [] => none
  | n + 1, c :: cs =>
    if c = '"' then some ([], cs)
    else
      (readChar c cs).bind fun x => (readBody n x.2).map fun y => (x.1 :: y.1, y.2)

/-- A literal, from its opening quote to its closing one, and the text behind it. -/
def readQuoted : List Char → Option (List Char × List Char)
  | '"' :: cs => readBody cs.length cs
  | _ => none

/-- The string that a text stands for, if all of it is a literal. -/
def unquote (text : String) : Option String :=
  match readQuoted text.toList with
  | some (s, []) => some (String.ofList s)
  | _ => none

/-! ## Written characters -/

/-- Written as a code of one or two digits. -/
def HasShortCode (c : Char) : Prop := c.toNat < 32 ∧ c ≠ '\n' ∧ c ≠ '\r' ∧ c ≠ '\t'

instance (c : Char) : Decidable (HasShortCode c) := inferInstanceAs (Decidable (_ ∧ _))

/-- No short code stands right before a digit. -/
def Separated (s : List Char) : Prop := s.IsChain fun c d => HasShortCode c → d.isDigit = false

instance (s : List Char) : Decidable (Separated s) :=
  inferInstanceAs (Decidable (s.IsChain fun c d => HasShortCode c → d.isDigit = false))

/-- The ways in which a character is written. -/
inductive Written (c : Char) : List Char → Prop
  | letter {d : Char} (h : ofLetter? d = some c) (hd : d.isDigit = false) : Written c ['\\', d]
  | shortCode (h : HasShortCode c) : Written c ('\\' :: Nat.toDigits 10 c.toNat)
  | longCode (h : c.toNat = 127) : Written c ('\\' :: Nat.toDigits 10 c.toNat)
  | plain (hquote : c ≠ '"') (hbackslash : c ≠ '\\') (hcode : ¬ HasShortCode c) : Written c [c]

theorem written (c : Char) : Written c (escape c) := by
  unfold escape
  split
  · next h => subst h; exact .letter rfl rfl
  split
  · next h => subst h; exact .letter rfl rfl
  split
  · next h => subst h; exact .letter rfl rfl
  split
  · next h => subst h; exact .letter rfl rfl
  split
  · next h => subst h; exact .letter rfl rfl
  split
  · next hn hr ht h =>
    rcases h with h | h
    · exact .shortCode ⟨h, hn, hr, ht⟩
    · exact .longCode h
  · next hquote hbackslash _ _ _ hcode =>
    exact .plain hquote hbackslash fun h => hcode (.inl h.1)

theorem Written.length_pos {c : Char} {w : List Char} (h : Written c w) : 0 < w.length := by
  cases h <;> simp

/-- Neither a digit nor a character with a short code has a letter. -/
theorem of_ofLetter? {c d : Char} (h : ofLetter? d = some c) :
    c.isDigit = false ∧ ¬ HasShortCode c := by
  unfold ofLetter? at h
  split at h
  case h_6 => cases h
  all_goals
    cases h
    decide

/-- A digit is written as it is. -/
theorem escape_of_isDigit {c : Char} (h : c.isDigit = true) : escape c = [c] := by
  have hcode : 48 ≤ c.toNat ∧ c.toNat ≤ 57 := by
    simpa [Char.isDigit, UInt32.le_iff_toNat_le] using h
  have hw := written c
  generalize escape c = w at hw
  cases hw with
  | letter hd =>
    rw [(of_ofLetter? hd).1] at h
    cases h
  | shortCode hs => exact absurd hs.1 (by omega)
  | longCode hl => omega
  | plain => rfl

/-- The text of another character does not begin with a digit. -/
theorem exists_escape_of_not_isDigit {c : Char} (h : c.isDigit = false) :
    ∃ d t, escape c = d :: t ∧ d.isDigit = false := by
  have hw := written c
  generalize escape c = w at hw ⊢
  cases hw with
  | letter | shortCode | longCode => exact ⟨'\\', _, rfl, rfl⟩
  | plain => exact ⟨c, [], rfl, h⟩

/-! ## Digits behind a code -/

theorem leadingDigits_append {k : Nat} {ds : List Char} (hds : ∀ d ∈ ds, d.isDigit = true)
    (hk : ds.length ≤ k) (cs : List Char) :
    leadingDigits k (ds ++ cs) = ds ++ leadingDigits (k - ds.length) cs := by
  rw [leadingDigits, List.take_append, List.take_of_length_le hk,
    List.takeWhile_append_of_pos hds, leadingDigits]

theorem leadingDigits_cons_of_not_isDigit {c : Char} (h : c.isDigit = false) (k : Nat)
    (cs : List Char) : leadingDigits k (c :: cs) = [] := by
  cases k with
  | zero => rfl
  | succ k => simp [leadingDigits, h]

/-- A written string, its closing quote and the text behind. -/
def body (s rest : List Char) : List Char := s.flatMap escape ++ '"' :: rest

theorem body_cons (c : Char) (s rest : List Char) :
    body (c :: s) rest = escape c ++ body s rest := by
  rw [body, List.flatMap_cons, List.append_assoc, body]

/-- A written string begins with the digits of the string, and behind them goes on as written. -/
theorem leadingDigits_body (k : Nat) (s rest : List Char) :
    leadingDigits k (body s rest) = leadingDigits k s ∧
      (body s rest).drop (leadingDigits k s).length
        = body (s.drop (leadingDigits k s).length) rest := by
  induction s generalizing k with
  | nil =>
      have hnil : leadingDigits k [] = [] := by simp [leadingDigits]
      rw [hnil]
      exact ⟨leadingDigits_cons_of_not_isDigit (by decide) k rest, rfl⟩
  | cons c s ih =>
      rw [body_cons]
      cases hc : c.isDigit with
      | false =>
          obtain ⟨d, t, hd, hdigit⟩ := exists_escape_of_not_isDigit hc
          rw [leadingDigits_cons_of_not_isDigit hc, hd, List.cons_append,
            leadingDigits_cons_of_not_isDigit hdigit, List.length_nil, List.drop_zero,
            List.drop_zero, body_cons, hd]
          exact ⟨rfl, rfl⟩
      | true =>
          rw [escape_of_isDigit hc]
          cases k with
          | zero => exact ⟨rfl, by simp [leadingDigits, body_cons, escape_of_isDigit hc]⟩
          | succ k =>
              obtain ⟨hdigits, hdrop⟩ := ih k
              have hcons : ∀ cs, leadingDigits (k + 1) (c :: cs) = c :: leadingDigits k cs :=
                fun cs => by simp [leadingDigits, hc]
              rw [List.singleton_append, hcons, hcons, hdigits]
              exact ⟨rfl, hdrop⟩

/-! ## Reading a written string -/

/-- The digits of a string that are read as a part of the code before them. -/
def taken (c : Char) (s : List Char) : List Char :=
  if HasShortCode c then leadingDigits (3 - (Nat.toDigits 10 c.toNat).length) s else []

theorem taken_of_not_short {c : Char} (h : ¬ HasShortCode c) (s : List Char) : taken c s = [] :=
  if_neg h

/-- Nothing is taken just if the code and the string may stand together. -/
theorem taken_eq_nil_iff {c : Char} {s : List Char} :
    taken c s = [] ↔ ∀ d ∈ s.head?, HasShortCode c → d.isDigit = false := by
  by_cases hc : HasShortCode c
  · have hshort : (Nat.toDigits 10 c.toNat).length ≤ 2 :=
      (Nat.length_toDigits_le_iff (by decide) (by decide)).mpr (by have := hc.1; omega)
    obtain ⟨k, hk⟩ : ∃ k, 3 - (Nat.toDigits 10 c.toNat).length = k + 1 :=
      ⟨2 - (Nat.toDigits 10 c.toNat).length, by omega⟩
    rw [taken, if_pos hc, hk]
    cases s with
    | nil => simp [leadingDigits]
    | cons d s => cases hd : d.isDigit <;> simp [leadingDigits, hd, hc]
  · simp [taken_of_not_short hc, hc]

theorem readEscape_letter {d : Char} (hd : d.isDigit = false) (cs : List Char) :
    readEscape (d :: cs) = (ofLetter? d).map fun c => (c, cs) := by
  rw [readEscape, leadingDigits_cons_of_not_isDigit hd]
  rfl

/-- At a code of at most three digits its number and the digits behind it are read. -/
theorem readEscape_code {n : Nat} (hn : n < 1000) (s rest : List Char) :
    readEscape (Nat.toDigits 10 n ++ body s rest)
      = let ds := leadingDigits (3 - (Nat.toDigits 10 n).length) s
        if Nat.ofDigitChars 10 ds n < 256 then
          some (Char.ofNat (Nat.ofDigitChars 10 ds n), body (s.drop ds.length) rest)
        else none := by
  have hdigit : ∀ d ∈ Nat.toDigits 10 n, d.isDigit = true := fun d hd =>
    Nat.isDigit_of_mem_toDigits (by decide) (by decide) hd
  have hlength : (Nat.toDigits 10 n).length ≤ 3 :=
    (Nat.length_toDigits_le_iff (by decide) (by decide)).mpr hn
  obtain ⟨hdigits, hdrop⟩ :=
    leadingDigits_body (3 - (Nat.toDigits 10 n).length) s rest
  have hall : leadingDigits 3 (Nat.toDigits 10 n ++ body s rest)
      = Nat.toDigits 10 n ++ leadingDigits (3 - (Nat.toDigits 10 n).length) s := by
    rw [leadingDigits_append hdigit hlength, hdigits]
  rw [readEscape, hall]
  simp only [List.append_eq_nil_iff, Nat.toDigits_ne_nil, false_and, if_false]
  rw [Nat.ofDigitChars_append, Nat.ofDigitChars_toDigits (by decide) (by decide),
    List.length_append, List.drop_append, List.drop_of_length_le (by omega), List.nil_append,
    Nat.add_sub_cancel_left, hdrop]

/-- What is read first in a written string: its first character, if nothing is taken. -/
theorem readChar_escape (c : Char) (s rest : List Char) :
    ∃ d w, escape c ++ body s rest = d :: w ∧ d ≠ '"' ∧ ∃ read : Option Char,
      (taken c s = [] → read = some c) ∧
        readChar d w = read.map fun e => (e, body (s.drop (taken c s).length) rest) := by
  have hw := written c
  generalize escape c = w at hw
  cases hw with
  | letter hc hd =>
      refine ⟨'\\', _, rfl, by decide, some c, fun _ => rfl, ?_⟩
      rw [taken_of_not_short (of_ofLetter? hc).2, readChar, if_pos rfl]
      refine (readEscape_letter hd (body s rest)).trans ?_
      rw [hc]
      rfl
  | shortCode h =>
      have hread := readEscape_code (n := c.toNat) (by have := h.1; omega) s rest
      have htaken : taken c s = leadingDigits (3 - (Nat.toDigits 10 c.toNat).length) s := if_pos h
      rw [← htaken] at hread
      refine ⟨'\\', _, rfl, by decide, if Nat.ofDigitChars 10 (taken c s) c.toNat < 256 then
        some (Char.ofNat (Nat.ofDigitChars 10 (taken c s) c.toNat)) else none, ?_, ?_⟩
      · intro hnil
        rw [hnil, Nat.ofDigitChars_nil, if_pos (by have := h.1; omega), Char.ofNat_toNat]
      · rw [readChar, if_pos rfl]
        refine hread.trans ?_
        dsimp only
        split_ifs <;> rfl
  | longCode h =>
      have hread := readEscape_code (n := c.toNat) (by omega) s rest
      refine ⟨'\\', _, rfl, by decide, some c, fun _ => rfl, ?_⟩
      rw [taken_of_not_short fun hs => absurd hs.1 (by omega), readChar, if_pos rfl]
      refine hread.trans ?_
      -- Three digits leave no room for a fourth.
      have hnone : leadingDigits (3 - (Nat.toDigits 10 c.toNat).length) s = [] := by
        rw [h]
        rfl
      dsimp only
      rw [hnone, Nat.ofDigitChars_nil, if_pos (by omega), Char.ofNat_toNat]
      rfl
  | plain hquote hbackslash hcode =>
      refine ⟨c, _, rfl, hquote, some c, fun _ => rfl, ?_⟩
      rw [taken_of_not_short hcode, readChar, if_neg hbackslash]
      rfl

theorem readBody_close (n : Nat) (rest : List Char) :
    readBody (n + 1) (body [] rest) = some ([], rest) :=
  rfl

theorem readBody_cons (n : Nat) (c : Char) (s rest : List Char) :
    ∃ read : Option Char, (taken c s = [] → read = some c) ∧
      readBody (n + 1) (body (c :: s) rest)
        = read.bind fun d =>
            (readBody n (body (s.drop (taken c s).length) rest)).map fun y => (d :: y.1, y.2) := by
  obtain ⟨d, w, hw, hquote, read, hread, hchar⟩ := readChar_escape c s rest
  refine ⟨read, hread, ?_⟩
  rw [body_cons, hw, readBody, if_neg hquote, hchar]
  cases read <;> rfl

theorem length_taken_le (c : Char) (s : List Char) : (taken c s).length ≤ s.length := by
  rw [taken]
  split_ifs
  · exact ((List.takeWhile_sublist _).trans (List.take_sublist _ s)).length_le
  · exact Nat.zero_le _

theorem separated_cons {c : Char} {s : List Char} :
    Separated (c :: s) ↔ taken c s = [] ∧ Separated s := by
  rw [Separated, List.isChain_cons, taken_eq_nil_iff, Separated]

theorem readBody_of_separated {s : List Char} (h : Separated s) (rest : List Char) {n : Nat}
    (hn : s.length < n) : readBody n (body s rest) = some (s, rest) := by
  induction s generalizing n with
  | nil =>
      obtain ⟨m, rfl⟩ : ∃ m, n = m + 1 := ⟨n - 1, by omega⟩
      exact readBody_close m rest
  | cons c s ih =>
      rw [List.length_cons] at hn
      obtain ⟨m, rfl⟩ : ∃ m, n = m + 1 := ⟨n - 1, by omega⟩
      obtain ⟨hnil, hs⟩ := separated_cons.mp h
      obtain ⟨read, hread, hbody⟩ := readBody_cons m c s rest
      rw [hbody, hread hnil, hnil, List.length_nil, List.drop_zero, ih hs (by omega)]
      rfl

/-- No more characters are read than were written, and fewer if any are taken by a code. -/
theorem length_of_readBody {n : Nat} {s rest t r : List Char}
    (h : readBody n (body s rest) = some (t, r)) :
    t.length ≤ s.length ∧ (t.length = s.length → Separated s) := by
  -- What is left behind a code is no tail of the string, so this goes by characters that are read.
  induction n generalizing s t with
  | zero => cases h
  | succ n ih =>
      cases s with
      | nil =>
          rw [readBody_close] at h
          cases h
          exact ⟨le_rfl, fun _ => .nil⟩
      | cons c s =>
          obtain ⟨read, -, hbody⟩ := readBody_cons n c s rest
          rw [hbody] at h
          obtain ⟨d, -, hread⟩ := Option.bind_eq_some_iff.mp h
          obtain ⟨⟨u, r'⟩, hu, heq⟩ := Option.map_eq_some_iff.mp hread
          obtain ⟨rfl, rfl⟩ : d :: u = t ∧ r' = r := by simpa using heq
          obtain ⟨hle, hseparated⟩ := ih hu
          rw [List.length_drop] at hle hseparated
          have htaken : (taken c s).length ≤ s.length := length_taken_le c s
          simp only [List.length_cons]
          refine ⟨by omega, fun hlength => ?_⟩
          have hnil : taken c s = [] := List.eq_nil_of_length_eq_zero (by omega)
          rw [hnil, List.length_nil, List.drop_zero] at hseparated
          exact separated_cons.mpr ⟨hnil, hseparated (by omega)⟩

/-! ## The main theorem -/

theorem length_le_flatMap_escape (s : List Char) : s.length ≤ (s.flatMap escape).length := by
  induction s with
  | nil => rfl
  | cons c s ih =>
      have hpos := (written c).length_pos
      rw [List.flatMap_cons, List.length_append, List.length_cons]
      omega

theorem unquote_eq_some_iff (s : String) : unquote (quote s) = some s ↔ Separated s.toList := by
  have hchars : readQuoted (quote s).toList
      = readBody (body s.toList []).length (body s.toList []) := by
    rw [toList_quote]
    rfl
  rw [unquote, hchars]
  constructor
  · intro h
    split at h
    · next t ht =>
      obtain rfl : String.ofList t = s := Option.some.inj h
      rw [String.toList_ofList] at ht ⊢
      exact (length_of_readBody ht).2 rfl
    · cases h
  · intro h
    have hfuel : s.toList.length < (body s.toList []).length := by
      have hwritten := length_le_flatMap_escape s.toList
      rw [body, List.length_append, List.length_singleton]
      omega
    rw [readBody_of_separated h [] hfuel]
    exact congrArg some String.ofList_toList

/-- A string is read back from its quoted form just if none of its short codes stands before a digit.
Two such strings are not written alike, neither in sources nor in listings. -/
theorem unquote_quote (s : String) :
    (unquote (quote s) = some s ↔ Separated s.toList) ∧
      ∀ t, Separated s.toList → Separated t.toList → s ≠ t →
        (Expr.string s).text ≠ (Expr.string t).text ∧
          (Constant.string s).text ≠ (Constant.string t).text := by
  refine ⟨unquote_eq_some_iff s, fun t hs ht hne => ?_⟩
  have hquote : quote s ≠ quote t := fun h => by
    rw [← unquote_eq_some_iff, h, (unquote_eq_some_iff t).mpr ht] at hs
    exact hne (Option.some.inj hs).symm
  refine ⟨?_, hquote⟩
  rwa [Expr.text, Expr.text]

/-- A zero character before a letter, and a delete character before a digit. -/
theorem unquote_quote_controls :
    Separated "\x00a\x7f1".toList ∧ Separated "\x01a".toList ∧
      unquote (quote "\x00a\x7f1") = some "\x00a\x7f1" ∧
      (Expr.string "\x00a\x7f1").text ≠ (Expr.string "\x01a").text := by
  have hs : Separated "\x00a\x7f1".toList := by decide
  have ht : Separated "\x01a".toList := by decide
  obtain ⟨hread, hdiffer⟩ := unquote_quote "\x00a\x7f1"
  exact ⟨hs, ht, hread.mpr hs, (hdiffer _ hs ht (by decide)).1⟩

/-- The code of a character is read together with the digit behind it, and so are two strings that are
not the same written alike. -/
theorem unquote_quote_digit :
    unquote (quote "\x012") = some "\x0c" ∧ (Expr.string "\x012").text = (Expr.string "\x0c").text ∧
      (Constant.string "\x012").text = (Constant.string "\x0c").text ∧ "\x012" ≠ "\x0c" := by
  decide

end Text

end Devirt
