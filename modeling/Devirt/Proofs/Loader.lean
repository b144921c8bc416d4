import Devirt.Binary.Image
import Mathlib.Tactic

set_option autoImplicit false

/-! # A loader undoes the image

The grammar of Lua 5.1 chunks, read from front to back: a header of 12 bytes, then a prototype.
A prototype is its source, two line numbers, four bytes of sizes, the code, the constants, the
nested prototypes, and three lists for debugging.  Numbers are little-endian; lists and strings
are preceded by their length, and the length of a string counts a closing zero byte.

A reader answers what it has read and the bytes that are left.  `Prototype.loaded` says which
tree an image should be read as; `load_image` says that it is, down to the last byte. -/

namespace Devirt

namespace Loader

/-! ## What is loaded -/

inductive Literal where
  | nil
  | bool (value : Bool)
  | number (bits : Nat)
  | string (bytes : List UInt8)
  deriving DecidableEq

/-- The name of a local variable and the instructions between which it is active. -/
structure LocalName where
  name : Option (List UInt8)
  start : Nat
  stop : Nat
  deriving DecidableEq

/-- All of a loaded prototype but its children. -/
structure Body where
  source : Option (List UInt8)
  lineDefined : Nat
  lastLineDefined : Nat
  numUpvalues : UInt8
  numParams : UInt8
  isVararg : UInt8
  maxStackSize : UInt8
  code : List UInt32
  constants : List Literal
  lines : List Nat
  locals : List LocalName
  upvalueNames : List (Option (List UInt8))
  deriving DecidableEq

inductive Tree where
  | mk (body : Body) (children : List Tree)

/-! ## Readers -/

/-- A reader takes what it reads off the front of the bytes. -/
abbrev Reader (α : Type) := List UInt8 → Option (α × List UInt8)

def readByte : Reader UInt8
  | [] => none
  | b :: bs => some (b, bs)

/-- A number of `n` bytes, lowest first. -/
def readNumber : Nat → Reader Nat
  | 0, bs => some (0, bs)
  | n + 1, bs => do
    let (b, bs) ← readByte bs
    let (x, bs) ← readNumber n bs
    return (b.toNat + 256 * x, bs)

def readInt : Reader Nat := readNumber 4

def readSize : Reader Nat := readNumber 8

def readWord : Reader UInt32 := fun bs => do
  let (x, bs) ← readInt bs
  return (UInt32.ofNat x, bs)

/-- So many items one after the other. -/
def readMany {α : Type} (read : Reader α) : Nat → Reader (List α)
  | 0, bs => some ([], bs)
  | n + 1, bs => do
    let (x, bs) ← read bs
    let (xs, bs) ← readMany read n bs
    return (x :: xs, bs)

/-- A list is preceded by its length. -/
def readList {α : Type} (read : Reader α) : Reader (List α) := fun bs => do
  let (n, bs) ← readInt bs
  readMany read n bs

/-- A string with its closing zero byte; a length of zero means that there is none. -/
def readString : Reader (Option (List UInt8)) := fun bs => do
  let (n, bs) ← readSize bs
  match n with
  | 0 => return (none, bs)
  | n + 1 =>
    let (text, bs) ← readMany readByte n bs
    let (last, bs) ← readByte bs
    if last = 0 then return (some text, bs) else none

/-- A constant begins with the tag of its type. -/
def readLiteral : Reader Literal := fun bs => do
  let (tag, bs) ← readByte bs
  if tag = 0 then return (.nil, bs)
  else if tag = 1 then
    let (b, bs) ← readByte bs
    return (.bool (b ≠ 0), bs)
  else if tag = 3 then
    let (x, bs) ← readNumber 8 bs
    return (.number x, bs)
  else if tag = 4 then
    let (text, bs) ← readString bs
    let text ← text
    return (.string text, bs)
  else none

def readLocal : Reader LocalName := fun bs => do
  let (name, bs) ← readString bs
  let (start, bs) ← readInt bs
  let (stop, bs) ← readInt bs
  return (⟨name, start, stop⟩, bs)

/-- A prototype whose children nest less than `depth` levels. -/
def readTree : Nat → Reader Tree
  | 0, _ => none
  | depth + 1, bs => do
    let (source, bs) ← readString bs
    let (lineDefined, bs) ← readInt bs
    let (lastLineDefined, bs) ← readInt bs
    let (numUpvalues, bs) ← readByte bs
    let (numParams, bs) ← readByte bs
    let (isVararg, bs) ← readByte bs
    let (maxStackSize, bs) ← readByte bs
    let (code, bs) ← readList readWord bs
    let (constants, bs) ← readList readLiteral bs
    let (children, bs) ← readList (readTree depth) bs
    let (lines, bs) ← readList readInt bs
    let (locals, bs) ← readList readLocal bs
    let (upvalueNames, bs) ← readList readString bs
    let body : Body :=
      { source, lineDefined, lastLineDefined, numUpvalues, numParams, isVararg, maxStackSize, code,
        constants, lines, locals, upvalueNames }
    return (.mk body children, bs)

/-- The signature, the version and the format; low bytes first; the sizes of integers, lengths,
instructions and numbers; numbers are no integers. -/
def preamble : List UInt8 :=
  [0x1b, 0x4c, 0x75, 0x61] ++ [0x51, 0] ++ [1] ++ [4, 8, 4, 8] ++ [0]

/-- A chunk: the header, then one prototype.  Every level takes at least one byte, so the bytes
bound how deep prototypes nest. -/
def load (bs : List UInt8) : Option (Tree × List UInt8) := do
  let (head, rest) ← readMany readByte 12 bs
  if head = preamble then readTree bs.length rest else none

end Loader

/-! ## What a tree should be loaded as -/

open Loader

/-- A constant, strings by their bytes and numbers by their bits. -/
def Constant.literal : Constant → Literal
  | nil => .nil
  | bool b => .bool b
  | number x => .number x.bits.toNat
  | string s => .string s.toUTF8.toList

/-- A prototype without debug information, its instructions as words. -/
def Loader.Body.stripped (source : Option (List UInt8)) (h : Header) (code : List UInt32)
    (ks : List Constant) : Body :=
  { source := source
    lineDefined := 0
    lastLineDefined := 0
    numUpvalues := h.numUpvalues
    numParams := h.numParams
    isVararg := h.isVararg
    maxStackSize := h.maxStackSize
    code := code
    constants := ks.map Constant.literal
    lines := []
    locals := []
    upvalueNames := [] }

namespace Prototype

mutual

/-- The prototype with its instructions as words and without debug information, if every
instruction can be packed. -/
def loaded (source : Option (List UInt8)) : Prototype → Except PackError Tree
  | mk h is ks ps => do
    let code ← is.zipIdx.mapM fun p => Binary.pack h.name p.2 p.1
    let children ← loadedAll ps
    return .mk (Body.stripped source h code ks) children

/-- Children have no source. -/
def loadedAll : List Prototype → Except PackError (List Tree)
  | [] => .ok []
  | p :: ps => do
    let t ← loaded none p
    let ts ← loadedAll ps
    return t :: ts

end

mutual

/-- The lists of every prototype can be counted in 4 bytes, and no string has `2 ^ 63` bytes or
more, which is more than can be addressed. -/
def Fits : Prototype → Prop
  | mk h is ks ps =>
    is.length < 0x100000000 ∧ ks.length < 0x100000000 ∧ ps.length < 0x100000000 ∧
      h.name.utf8ByteSize < 0x8000000000000000 ∧
      (∀ s, Constant.string s ∈ ks → s.utf8ByteSize < 0x8000000000000000) ∧ FitAll ps

def FitAll : List Prototype → Prop
  | [] => True
  | p :: ps => Fits p ∧ FitAll ps

end

end Prototype

/-! ## Readers take off what was written -/

namespace Loader

/-- Whatever follows the bytes, the reader takes off just them and answers `x`. -/
def Reads {α : Type} (read : Reader α) (bytes : List UInt8) (x : α) : Prop :=
  ∀ rest, read (bytes ++ rest) = some (x, rest)

theorem Reads.bind_eq {α β : Type} {read : Reader α} {bytes : List UInt8} {x : α}
    (h : Reads read bytes x) (f : α × List UInt8 → Option β) (rest : List UInt8) :
    (read (bytes ++ rest) >>= f) = f (x, rest) := by
  rw [h rest]
  rfl

theorem reads_byte (b : UInt8) : Reads readByte [b] b := fun _ => rfl

theorem readByte_bind {β : Type} (b : UInt8) (f : UInt8 × List UInt8 → Option β)
    (rest : List UInt8) : (readByte (b :: rest) >>= f) = f (b, rest) := rfl

theorem reads_number (n x : Nat) :
    Reads (readNumber n) (Binary.littleEndian n x) (x % 256 ^ n) := by
  induction n generalizing x with
  | zero =>
      intro rest
      simp [readNumber, Binary.littleEndian, Nat.mod_one]
  | succ n ih =>
      -- the lowest byte, then the number without it
      intro rest
      have hmod : x % 256 ^ (n + 1) = x % 256 + 256 * (x / 256 % 256 ^ n) := by
        rw [Nat.pow_succ', Nat.mod_mul]
      simp [readNumber, Binary.littleEndian, readByte, ih (x / 256) rest, hmod]

theorem reads_int {n : Nat} (h : n < 0x100000000) : Reads readInt (Binary.int n) n := by
  have hn := reads_number 4 n
  rwa [Nat.mod_eq_of_lt (by omega)] at hn

theorem reads_size {n : Nat} (h : n < 0x10000000000000000) :
    Reads readSize (Binary.size n) n := by
  have hn := reads_number 8 n
  rwa [Nat.mod_eq_of_lt (by omega)] at hn

theorem reads_word (w : UInt32) : Reads readWord (Binary.int w.toNat) w := by
  intro rest
  have hw := reads_int w.toNat_lt rest
  simp [readWord, hw]

/-- Items that are read one by one are read together. -/
theorem reads_many {α β : Type} {read : Reader β} (write : α → List UInt8) (value : α → β)
    (xs : List α) (h : ∀ x ∈ xs, Reads read (write x) (value x)) :
    Reads (readMany read xs.length) (xs.flatMap write) (xs.map value) := by
  induction xs with
  | nil => intro rest; rfl
  | cons x xs ih =>
      intro rest
      have hx := h x (by simp) (xs.flatMap write ++ rest)
      have hxs := ih (fun y hy => h y (by simp [hy])) rest
      simp [readMany, hx, hxs]

theorem reads_bytes (bytes : List UInt8) : Reads (readMany readByte bytes.length) bytes bytes := by
  have h : Reads (readMany readByte bytes.length) (bytes.flatMap fun b => [b]) (bytes.map id) :=
    reads_many _ _ bytes fun b _ => reads_byte b
  simpa using h

theorem reads_list {α : Type} {read : Reader α} {n : Nat} {bytes : List UInt8} {xs : List α}
    (hn : n < 0x100000000) (h : Reads (readMany read n) bytes xs) :
    Reads (readList read) (Binary.int n ++ bytes) xs := by
  intro rest
  simp [readList, reads_int hn (bytes ++ rest), h rest]

theorem reads_empty {α : Type} (read : Reader α) : Reads (readList read) (Binary.int 0) [] := by
  have h : Reads (readMany read 0) [] [] := fun _ => rfl
  simpa using reads_list (by omega) h

/-! ## Strings and constants -/

theorem length_toList_loop (bs : ByteArray) (i : Nat) (r : List UInt8) :
    (ByteArray.toList.loop bs i r).length = bs.size - i + r.length := by
  fun_induction ByteArray.toList.loop bs i r with
  | case1 i r hi ih =>
      rw [ih, List.length_cons]
      omega
  | case2 i r hi =>
      rw [List.length_reverse]
      omega

theorem length_toUTF8 (s : String) : s.toUTF8.toList.length = s.utf8ByteSize := by
  rw [ByteArray.toList, length_toList_loop]
  rfl

theorem reads_string {s : String} (h : s.utf8ByteSize + 1 < 0x10000000000000000) :
    Reads readString (Binary.string s) (some s.toUTF8.toList) := by
  intro rest
  -- the three parts, each followed by the parts after it
  rw [← length_toUTF8] at h
  have hsize := reads_size h (s.toUTF8.toList ++ ([0] ++ rest))
  have htext := reads_bytes s.toUTF8.toList ([0] ++ rest)
  have hlast := reads_byte 0 rest
  simp only [readString, Binary.string, List.append_assoc, hsize, Option.bind_eq_bind,
    Option.bind_some, htext, hlast]
  rfl

theorem reads_none : Reads readString (Binary.source none) none := by
  intro rest
  have hsize := reads_size (n := 0) (by omega) rest
  simp [readString, Binary.source, hsize]

theorem reads_literal (k : Constant)
    (h : ∀ s, k = .string s → s.utf8ByteSize + 1 < 0x10000000000000000) :
    Reads readLiteral (Binary.constant k) k.literal := by
  intro rest
  cases k with
  | nil => rfl
  | bool b => cases b <;> rfl
  | number x =>
      have hx := reads_number 8 x.bits.toNat rest
      rw [Nat.mod_eq_of_lt (by have := x.bits.toNat_lt; omega)] at hx
      simp [readLiteral, readByte, Binary.constant, Constant.literal, hx]
  | string s =>
      have hs := reads_string (h s rfl) rest
      -- the bytes of the text play no part from here on
      rw [Binary.constant, Constant.literal]
      generalize s.toUTF8.toList = text at hs ⊢
      simp [readLiteral, readByte, hs]

/-! ## Code and prototypes -/

theorem bind_ok {ε α β : Type} {x : Except ε α} {f : α → Except ε β} {b : β}
    (h : x >>= f = .ok b) : ∃ a, x = .ok a ∧ f a = .ok b := by
  cases x with
  | error e => cases h
  | ok a => exact ⟨a, rfl, h⟩

theorem reads_words (function : String) (is : List Instruction) (k : Nat) {bytes : List UInt8}
    (h : Binary.words function k is = .ok bytes) :
    ∃ code, (is.zipIdx k).mapM (fun p => Binary.pack function p.2 p.1) = .ok code ∧
      Reads (readMany readWord is.length) bytes code := by
  induction is generalizing k bytes with
  | nil =>
      cases h
      exact ⟨[], rfl, fun _ => rfl⟩
  | cons i is ih =>
      obtain ⟨word, hword, h⟩ := bind_ok h
      obtain ⟨tail, htail, h⟩ := bind_ok h
      cases h
      obtain ⟨code, hcode, hread⟩ := ih (k + 1) htail
      refine ⟨word :: code, ?_, ?_⟩
      · simp [List.zipIdx_cons, hword, hcode]
        rfl
      · intro rest
        have hw := reads_word word (tail ++ rest)
        simp [readMany, hw, hread rest]

theorem reads_constants {ks : List Constant} (hlen : ks.length < 0x100000000)
    (h : ∀ s, Constant.string s ∈ ks → s.utf8ByteSize < 0x8000000000000000) :
    Reads (readList readLiteral) (Binary.constants ks) (ks.map Constant.literal) := by
  apply reads_list hlen
  apply reads_many
  intro k hk
  apply reads_literal
  rintro s rfl
  have := h s hk
  omega

mutual

theorem reads_prototype (p : Prototype) (hfits : p.Fits) {name : Option String}
    {source : Option (List UInt8)} (hsource : Reads readString (Binary.source name) source)
    {bytes : List UInt8} (h : Binary.prototype name p = .ok bytes) (depth : Nat)
    (hdepth : bytes.length ≤ depth) :
    ∃ t, p.loaded source = .ok t ∧ Reads (readTree depth) bytes t := by
  cases p with
  | mk hd is ks ps =>
      obtain ⟨his, hks, hps, -, hstrings, hfitAll⟩ := hfits
      obtain ⟨code, hcode, h⟩ := bind_ok h
      obtain ⟨children, hchildren, h⟩ := bind_ok h
      cases h
      obtain ⟨words, hwords, hreadCode⟩ := reads_words hd.name is 0 hcode
      cases depth with
      | zero => simp at hdepth
      | succ depth =>
          -- The source name alone keeps the children shorter than the whole.
          have hshorter : children.length ≤ depth := by
            simp [Binary.int, Binary.littleEndian] at hdepth
            omega
          obtain ⟨ts, hts, hreadChildren⟩ :=
            reads_prototypes ps hfitAll hchildren depth hshorter
          refine ⟨.mk (Body.stripped source hd words ks) ts, ?_, ?_⟩
          · simp only [Prototype.loaded, hwords, hts]
            rfl
          · -- field by field, in the order of the grammar
            intro rest
            have hzero : Reads readInt (Binary.int 0) 0 := reads_int (by omega)
            simp only [List.append_assoc, List.cons_append, List.nil_append]
            rw [readTree, ← List.append_assoc (Binary.int is.length),
              ← List.append_assoc (Binary.int ps.length)]
            refine (hsource.bind_eq _ _).trans ?_
            refine (hzero.bind_eq _ _).trans ?_
            refine (hzero.bind_eq _ _).trans ?_
            refine (readByte_bind hd.numUpvalues _ _).trans ?_
            refine (readByte_bind hd.numParams _ _).trans ?_
            refine (readByte_bind hd.isVararg _ _).trans ?_
            refine (readByte_bind hd.maxStackSize _ _).trans ?_
            refine ((reads_list his hreadCode).bind_eq _ _).trans ?_
            refine ((reads_constants hks hstrings).bind_eq _ _).trans ?_
            refine ((reads_list hps hreadChildren).bind_eq _ _).trans ?_
            refine ((reads_empty readInt).bind_eq _ _).trans ?_
            refine ((reads_empty readLocal).bind_eq _ _).trans ?_
            refine ((reads_empty readString).bind_eq _ _).trans ?_
            rfl

theorem reads_prototypes (ps : List Prototype) (hfits : Prototype.FitAll ps) {bytes : List UInt8}
    (h : Binary.prototypes ps = .ok bytes) (depth : Nat) (hdepth : bytes.length ≤ depth) :
    ∃ ts, Prototype.loadedAll ps = .ok ts ∧
      Reads (readMany (readTree depth) ps.length) bytes ts := by
  cases ps with
  | nil =>
      cases h
      exact ⟨[], rfl, fun _ => rfl⟩
  | cons p ps =>
      obtain ⟨first, hfirst, h⟩ := bind_ok h
      obtain ⟨tail, htail, h⟩ := bind_ok h
      cases h
      rw [List.length_append] at hdepth
      obtain ⟨t, ht, hread⟩ := reads_prototype p hfits.1 reads_none hfirst depth (by omega)
      obtain ⟨ts, hts, hreads⟩ := reads_prototypes ps hfits.2 htail depth (by omega)
      refine ⟨t :: ts, ?_, ?_⟩
      · simp only [Prototype.loadedAll, hts]
        rw [ht]
        rfl
      · intro rest
        simp only [List.append_assoc, List.length_cons, readMany, hread _, hreads _,
          Option.bind_eq_bind, Option.bind_some]
        rfl

end

theorem reads_rootSource {root : Prototype} (h : root.Fits) :
    Reads readString (Binary.source (some ("=" ++ root.name)))
      (some ("=" ++ root.name).toUTF8.toList) := by
  cases root with
  | mk hd is ks ps =>
      obtain ⟨-, -, -, hsize, -⟩ := h
      have hone : "=".utf8ByteSize = 1 := by decide
      apply reads_string
      rw [String.utf8ByteSize_append, hone]
      simp only [Prototype.name, Prototype.header]
      omega

end Loader

/-! ## The main theorem -/

/-- What a tree is written as is read as that tree, and nothing is left over. -/
theorem load_image (root : Prototype) (hfits : root.Fits) (bytes : List UInt8)
    (h : root.image = .ok bytes) :
    ∃ t, root.loaded (some ("=" ++ root.name).toUTF8.toList) = .ok t ∧
      load bytes = some (t, []) := by
  obtain ⟨body, hbody, h⟩ := bind_ok h
  cases h
  -- the whole chunk is longer than the prototype, so `load` reads deep enough
  have hdepth : body.length ≤ (Binary.header ++ body).length := by
    rw [List.length_append]
    omega
  obtain ⟨t, ht, hread⟩ := reads_prototype root hfits (reads_rootSource hfits) hbody _ hdepth
  refine ⟨t, ht, ?_⟩
  have hbodyRead := hread []
  rw [List.append_nil] at hbodyRead
  have hheader : Reads (readMany readByte 12) Binary.header preamble := reads_bytes Binary.header
  calc load (Binary.header ++ body)
      = if preamble = preamble then readTree (Binary.header ++ body).length body else none :=
        hheader.bind_eq _ body
    _ = some (t, []) := by rw [if_pos rfl, hbodyRead]

/-- A function with a dead instruction, a constant of every type and a child. -/
def Loader.nested : Prototype :=
  .mk ⟨"main", 0, 2, 2, 0⟩
    [.resolved .loadK 0 3 0, .deadSlot, .resolved .ret 0 1 0]
    [.nil, .bool true, .number ⟨0x3ff0000000000000⟩, .string "a\x00b"]
    [.mk ⟨"child", 1, 0, 2, 1⟩ [.resolved .ret 0 1 0] [] []]

theorem load_image_nested :
    nested.Fits ∧ ∃ bytes, nested.image = .ok bytes ∧
      ∃ t, nested.loaded (some ("=" ++ nested.name).toUTF8.toList) = .ok t ∧
        load bytes = some (t, []) := by
  have hfits : nested.Fits := by
    simp [nested, Prototype.Fits, Prototype.FitAll]
    decide
  have himage : ∃ bytes, nested.image = .ok bytes := ⟨_, rfl⟩
  obtain ⟨bytes, hbytes⟩ := himage
  exact ⟨hfits, bytes, hbytes, load_image nested hfits bytes hbytes⟩

end Devirt
