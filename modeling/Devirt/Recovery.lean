import Devirt.Catalog.MoonSecV3
import Devirt.Dict
import Devirt.Fingerprint
import Devirt.Pass.Pipeline

set_option autoImplicit false

/-! # Recovering opcodes

The obfuscator numbers its opcodes afresh in every build, and dispatches each number to a handler.  A
handler table says which fingerprint the handler of a number has; the catalog says which opcode has a
handler of that shape.  Recovery applies both to every live instruction of a tree whose opcode is not
known yet. -/

namespace Devirt

/-! ## Handlers -/

/-- What is known of the handler of an opcode number. -/
inductive Handler where
  | fingerprint (text : String)
  | source (body : Block)

namespace Handler

/-- The fingerprint of a handler; a body is simplified first. -/
def print (options : Options) (paths : Option Paths) : Handler → String
  | fingerprint text => text
  | source body => (body.simplify options paths).1.fingerprint

end Handler

/-- The fingerprints of the handlers, by opcode number in ascending order. -/
structure HandlerTable where
  entries : List (UInt32 × String)
  deriving DecidableEq, Inhabited

namespace HandlerTable

def empty : HandlerTable := ⟨[]⟩

def find (n : UInt32) : List (UInt32 × String) → Option String
  | [] => none
  | (m, fp) :: rest => if m = n then some fp else find n rest

def get? (t : HandlerTable) (n : UInt32) : Option String := find n t.entries

def put (n : UInt32) (fp : String) : List (UInt32 × String) → List (UInt32 × String)
  | [] => [(n, fp)]
  | (m, fp') :: rest =>
    if m = n then (n, fp) :: rest
    else if n < m then (n, fp) :: (m, fp') :: rest
    else (m, fp') :: put n fp rest

def insert (t : HandlerTable) (n : UInt32) (fp : String) : HandlerTable := ⟨put n fp t.entries⟩

theorem find_put (n m : UInt32) (fp : String) (l : List (UInt32 × String)) :
    find m (put n fp l) = if n = m then some fp else find m l := by
  induction l with
  | nil => simp [put, find]
  | cons p rest ih =>
    obtain ⟨k, fp'⟩ := p
    by_cases hk : k = n
    · subst hk
      by_cases hm : k = m <;> simp [put, find, hm]
    · by_cases hn : n < k
      · simp [put, find, hk, hn]
      · by_cases hm : k = m
        · subst hm
          simp [put, find, hk, hn, Ne.symm hk]
        · simp [put, find, hk, hn, hm, ih]

/-- An insertion shows at its number and nowhere else. -/
@[simp] theorem get?_insert (t : HandlerTable) (n m : UInt32) (fp : String) :
    (t.insert n fp).get? m = if n = m then some fp else t.get? m :=
  find_put n m fp t.entries

/-- The table of a list of handlers; of two with one number the later counts. -/
def ofHandlers (options : Options) (paths : Option Paths) (handlers : List (UInt32 × Handler)) :
    HandlerTable :=
  handlers.foldl (fun t h => t.insert h.1 (h.2.print options paths)) empty

end HandlerTable

/-! ## Reports -/

/-- Puts a number into an ascending list, once. -/
def insertOnce (n : UInt32) : List UInt32 → List UInt32
  | [] => [n]
  | m :: rest => if n = m then m :: rest else if n < m then n :: m :: rest else m :: insertOnce n rest

/-- What became of the instructions. -/
structure Report where
  /-- Instructions whose opcode was found. -/
  resolved : Nat
  /-- Instructions that had an opcode before. -/
  skipped : Nat
  dead : Nat
  unresolved : Nat
  /-- The opcode numbers that stayed unknown, ascending. -/
  unknown : List UInt32
  deriving DecidableEq, Inhabited

namespace Report

def start : Report := ⟨0, 0, 0, 0, []⟩

def isComplete (r : Report) : Bool := r.unresolved == 0

end Report

/-! ## The walk over the tree -/

namespace Recovery

/-- The instruction at an index, put right if its opcode can be found, and the report so far. -/
def step (catalog : Catalog) (handlers : HandlerTable) (index : Nat) (i : Instruction) (r : Report) :
    Instruction × Report :=
  if i.dead then (i, { r with dead := r.dead + 1 })
  else if i.opcode.isSome then (i, { r with skipped := r.skipped + 1 })
  else
    let i := { i with pc := UInt64.ofNat index }
    match (handlers.get? i.opNum).bind fun fp => catalog.resolve fp i with
    | some found => (found, { r with resolved := r.resolved + 1 })
    | none =>
      (i, { r with unresolved := r.unresolved + 1, unknown := insertOnce i.opNum r.unknown })

def steps (catalog : Catalog) (handlers : HandlerTable) :
    Nat → List Instruction → Report → List Instruction × Report
  | _, [], r => ([], r)
  | index, i :: is, r =>
    let (i, r) := step catalog handlers index i r
    let (is, r) := steps catalog handlers (index + 1) is r
    (i :: is, r)

mutual

/-- A prototype's own instructions come first, then its children in order. -/
def prototype (catalog : Catalog) (handlers : HandlerTable) :
    Prototype → Report → Prototype × Report
  | .mk h is ks ps, r =>
    let (is, r) := steps catalog handlers 0 is r
    let (ps, r) := prototypes catalog handlers ps r
    (.mk h is ks ps, r)

def prototypes (catalog : Catalog) (handlers : HandlerTable) :
    List Prototype → Report → List Prototype × Report
  | [], r => ([], r)
  | p :: ps, r =>
    let (p, r) := prototype catalog handlers p r
    let (ps, r) := prototypes catalog handlers ps r
    (p :: ps, r)

end

end Recovery

/-- Recovers the opcodes of a tree. -/
def Prototype.recoverWith (catalog : Catalog) (handlers : HandlerTable) (root : Prototype) :
    Prototype × Report :=
  Recovery.prototype catalog handlers root .start

def Prototype.recover (handlers : HandlerTable) (root : Prototype) : Prototype × Report :=
  root.recoverWith .moonSecV3 handlers

/-! ## Chunks -/

/-- What recovery starts from: the handlers that are known, and the tree. -/
structure Chunk where
  /-- By opcode number in ascending order. -/
  handlers : List (UInt32 × Handler)
  root : Prototype

namespace Chunk

def handlerTable (c : Chunk) (options : Options) (paths : Option Paths) : HandlerTable :=
  .ofHandlers options paths c.handlers

/-- The tree with its opcodes recovered. -/
def recover (c : Chunk) (options : Options) (paths : Option Paths) : Prototype × Report :=
  c.root.recover (c.handlerTable options paths)

end Chunk

end Devirt
