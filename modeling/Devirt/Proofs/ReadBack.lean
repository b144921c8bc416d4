import Devirt.Document.Chunk
import Devirt.Proofs.Sites

set_option autoImplicit false

/-! # Documents read back

A written document is read back as what was written, if its brackets do not nest too deep; if they
do, it is refused.  `Recovers read j x` says both at once, for every number of brackets that may
still be open: reading `j` answers `x` if `j` fits, and nothing otherwise.

Every reader recovers what its writer writes (`recovers_block`, `recovers_prototype`,
`recovers_chunk`).  For trees that is an induction with one case for each constructor, in which the
reader opens the same brackets as the document.  A chunk is renumbered once it is read, which sets
the `pc` of every instruction and nothing else (`ofJson?_toJson`). -/

namespace Devirt

namespace Json

/-! ## Room -/

@[simp] theorem itemsFit_eq (room : Nat) (js : List Json) :
    itemsFit room js = js.all (fits room) := by
  induction js with
  | nil => rfl
  | cons j js ih => rw [itemsFit, ih, List.all_cons]

@[simp] theorem membersFit_eq (room : Nat) (ms : List Member) :
    membersFit room ms = ms.all fun m => m.value.fits room := by
  induction ms with
  | nil => rfl
  | cons m ms ih =>
      obtain ⟨key, plain, v⟩ := m
      rw [membersFit, ih, List.all_cons, Member.value]

variable (room : Nat)

@[simp] theorem fits_null : fits room .null = true := by cases room <;> rfl

@[simp] theorem fits_bool (b : Bool) : fits room (.bool b) = true := by cases room <;> rfl

@[simp] theorem fits_int (n : Int) : fits room (.int n) = true := by cases room <;> rfl

@[simp] theorem fits_real (x : Double) : fits room (.real x) = true := by cases room <;> rfl

@[simp] theorem fits_string (s : String) : fits room (.string s) = true := by cases room <;> rfl

@[simp] theorem fits_array_succ (js : List Json) :
    fits (room + 1) (.array js) = js.all (fits room) := by
  rw [fits, itemsFit_eq]

@[simp] theorem fits_record_succ (fs : List (String × Json)) :
    (record fs).fits (room + 1) = fs.all fun f => f.2.fits room := by
  rw [record, fits, membersFit_eq, List.all_map]
  rfl

/-! ## Scalars -/

theorem intIn?_of_le {lo hi n : Int} (hlo : lo ≤ n) (hhi : n ≤ hi) : intIn? lo hi (.int n) = some n :=
  if_pos ⟨hlo, hhi⟩

@[simp] theorem uint8?_toNat (x : UInt8) : uint8? (.int x.toNat) = some x := by
  have hlt := x.toNat_lt
  rw [uint8?, intIn?_of_le (by omega) (by omega)]
  simp

@[simp] theorem uint32?_toNat (x : UInt32) : uint32? (.int x.toNat) = some x := by
  have hlt := x.toNat_lt
  rw [uint32?, intIn?_of_le (by omega) (by omega)]
  simp

@[simp] theorem uint64?_toNat (x : UInt64) : uint64? (.int x.toNat) = some x := by
  have hlt := x.toNat_lt
  rw [uint64?, intIn?_of_le (by omega) (by omega)]
  simp

@[simp] theorem int32?_toInt (x : Int32) : int32? (.int x.toInt) = some x := by
  have hlo := x.le_toInt
  have hhi := x.toInt_lt
  rw [int32?, intIn?_of_le (by omega) (by omega)]
  simp

end Json

namespace Document

open Json

/-! ## Answers under a condition -/

/-- Reading the document answers `x` if the document fits, and nothing otherwise. -/
def Recovers {α : Type} (read : Nat → Json → Option α) (j : Json) (x : α) : Prop :=
  ∀ room, read room j = if j.fits room = true then some x else none

section

variable {α β : Type} {p q : Prop} [Decidable p] [Decidable q]

@[simp] theorem bind_guard (x : α) (f : α → Option β) :
    (if p then some x else none).bind f = if p then f x else none := by
  by_cases hp : p <;> simp [hp]

@[simp] theorem map_guard (x : α) (f : α → β) :
    (if p then some x else none).map f = if p then some (f x) else none := by
  by_cases hp : p <;> simp [hp]

@[simp] theorem guard_guard (x : Option α) :
    (if p then if q then x else none else none) = if p ∧ q then x else none := by
  by_cases hp : p <;> simp [hp]

end

/-- Items that are recovered one by one make a list that is. -/
theorem mapM_cons_guard {α : Type} {read : Json → Option α} {j : Json} {js : List Json} {x : α}
    {xs : List α} {p q : Bool} (h : read j = if p = true then some x else none)
    (hs : js.mapM read = if q = true then some xs else none) :
    (j :: js).mapM read = if (p && q) = true then some (x :: xs) else none := by
  rw [List.mapM_cons, h, hs]
  cases p <;> cases q <;> rfl

theorem recovers_names (ns : List String) : Recovers strings (names ns) ns := by
  intro room
  cases room with
  | zero => rfl
  | succ room =>
      have hitems : (ns.map Json.string).mapM Json.string? = some ns := by
        induction ns with
        | nil => rfl
        | cons n ns ih => simp [List.mapM_cons, ih, Json.string?]
      simp [strings, names, listOf, hitems]

/-! ## Trees -/

/-- A constructor without content is read from its tag if no earlier one has that tag. -/
theorem readTag_string {α : Type} {all : List α} {tag : α → String} {x : α}
    (h : all.find? (fun y => tag y == tag x) = some x) (room : Nat) :
    readTag all tag room (.string (tag x)) = some x := by
  cases room <;> exact h

theorem readBinaryOp_tag (room : Nat) (op : BinaryOp) :
    readBinaryOp room (.string (binaryTag op)) = some op :=
  readTag_string (by cases op <;> rfl) room

theorem readUnaryOp_tag (room : Nat) (op : UnaryOp) :
    readUnaryOp room (.string (unaryTag op)) = some op :=
  readTag_string (by cases op <;> rfl) room

@[simp] theorem record_writeStmts (b : List Stmt) :
    record [("stmts", .array (writeStmts b))] = writeBlock b := rfl

@[simp] theorem fits_writeBlock (room : Nat) (b : List Stmt) :
    (writeBlock b).fits (room + 1) = fits room (.array (writeStmts b)) := by
  rw [writeBlock, fits_record_succ, List.all_cons, List.all_nil, Bool.and_true]

/-- The document of an expression is not null, so it does not pass for an absent one. -/
theorem optional_writeExpr {α : Type} (read : Json → Option α) (e : Expr) :
    optional read (some (writeExpr e)) = (read (writeExpr e)).map some := by
  cases e <;> rfl

mutual

theorem recovers_expr : (e : Expr) → Recovers readExpr (writeExpr e) e
  | .nil | .vararg => fun room => by cases room <;> rfl
  | .bool _ | .number _ | .string _ | .name _ => fun
    | 0 => rfl
    | room + 1 => by cases room <;> rfl
  | .binary op l r => fun
    | 0 | 1 => rfl
    | room + 2 => by
        change ((readBinaryOp room (.string (binaryTag op))).bind fun op =>
          (readExpr room (writeExpr l)).bind fun l =>
            (readExpr room (writeExpr r)).bind fun r => some (Expr.binary op l r)) = _
        rw [readBinaryOp_tag, recovers_expr l, recovers_expr r]
        simp [writeExpr, tagged]
  | .unary op e => fun
    | 0 | 1 => rfl
    | room + 2 => by
        change ((readUnaryOp room (.string (unaryTag op))).bind fun op =>
          (readExpr room (writeExpr e)).bind fun e => some (Expr.unary op e)) = _
        rw [readUnaryOp_tag, recovers_expr e]
        simp [writeExpr, tagged]
  | .member o f => fun
    | 0 | 1 => rfl
    | room + 2 => by
        change ((readExpr room (writeExpr o)).bind fun o => some (Expr.member o f)) = _
        rw [recovers_expr o]
        simp [writeExpr, tagged]
  | .index t k => fun
    | 0 | 1 => rfl
    | room + 2 => by
        change ((readExpr room (writeExpr t)).bind fun t =>
          (readExpr room (writeExpr k)).bind fun k => some (Expr.index t k)) = _
        rw [recovers_expr t, recovers_expr k]
        simp [writeExpr, tagged]
  | .call f args => fun
    | 0 | 1 => rfl
    | room + 2 => by
        change ((readExpr room (writeExpr f)).bind fun f =>
          (readExprs room (.array (writeExprs args))).bind fun args => some (Expr.call f args)) = _
        rw [recovers_expr f, recovers_exprs args]
        simp [writeExpr, tagged]
  | .table entries => fun
    | 0 | 1 => rfl
    | room + 2 => by
        change ((writeEntries entries).mapM fun e => readEntry room e).map Expr.table = _
        rw [mapM_entries entries]
        simp [writeExpr, tagged]
  | .function params variadic body => fun
    | 0 | 1 => rfl
    | room + 2 => by
        change ((strings room (names params)).bind fun params =>
          (readBlock room (writeBlock body)).bind fun body =>
            some (Expr.function params variadic body)) = _
        rw [recovers_names params, recovers_block body]
        simp [writeExpr, tagged]

theorem recovers_exprs (es : List Expr) : Recovers readExprs (.array (writeExprs es)) es
  | 0 => rfl
  | room + 1 => by
      change ((writeExprs es).mapM fun e => readExpr room e) = _
      rw [mapM_exprs es, fits_array_succ]

theorem mapM_exprs : (es : List Expr) → (room : Nat) →
    (writeExprs es).mapM (fun e => readExpr room e) =
      if (writeExprs es).all (fits room) = true then some es else none
  | [], _ => rfl
  | e :: es, room => mapM_cons_guard (recovers_expr e room) (mapM_exprs es room)

theorem mapM_entries : (es : List Entry) → (room : Nat) →
    (writeEntries es).mapM (fun e => readEntry room e) =
      if (writeEntries es).all (fits room) = true then some es else none
  | [], _ => rfl
  | .positional v :: es, room => by
      refine mapM_cons_guard ?_ (mapM_entries es room)
      cases room with
      | zero => rfl
      | succ room =>
          change ((readExpr room (writeExpr v)).bind fun v => some (Entry.positional v)) = _
          rw [recovers_expr v]
          simp
  | .keyed k v :: es, room => by
      refine mapM_cons_guard ?_ (mapM_entries es room)
      cases room with
      | zero => rfl
      | succ room =>
          change ((optional (fun k => readExpr room k) (some (writeExpr k))).bind fun key =>
            (readExpr room (writeExpr v)).bind fun v =>
              some (match key with | none => Entry.positional v | some k => .keyed k v)) = _
          rw [optional_writeExpr, recovers_expr k, recovers_expr v]
          simp

theorem recovers_block (b : List Stmt) : Recovers readBlock (writeBlock b) b
  | 0 | 1 => rfl
  | room + 2 => by
      change ((writeStmts b).mapM fun s => readStmt room s) = _
      rw [mapM_stmts b]
      simp

theorem recovers_stmt : (s : Stmt) → Recovers readStmt (writeStmt s) s
  | .brk => fun room => by cases room <;> rfl
  | .declare id ns values => fun
    | 0 | 1 => rfl
    | room + 2 => by
        change ((Json.int id.toNat).uint32?.bind fun id => (strings room (names ns)).bind fun ns =>
          (readExprs room (.array (writeExprs values))).bind fun values =>
            some (Stmt.declare id ns values)) = _
        rw [uint32?_toNat, recovers_names ns, recovers_exprs values]
        simp [writeStmt, tagged]
  | .assign id targets values => fun
    | 0 | 1 => rfl
    | room + 2 => by
        change ((Json.int id.toNat).uint32?.bind fun id =>
          (readExprs room (.array (writeExprs targets))).bind fun targets =>
            (readExprs room (.array (writeExprs values))).bind fun values =>
              some (Stmt.assign id targets values)) = _
        rw [uint32?_toNat, recovers_exprs targets, recovers_exprs values]
        simp [writeStmt, tagged]
  | .call f args => fun
    | 0 | 1 => rfl
    | room + 2 => by
        change ((readExpr room (writeExpr f)).bind fun f =>
          (readExprs room (.array (writeExprs args))).bind fun args => some (Stmt.call f args)) = _
        rw [recovers_expr f, recovers_exprs args]
        simp [writeStmt, tagged]
  | .scope body => fun
    | 0 | 1 | 2 => rfl
    | room + 3 => by
        change ((writeStmts body).mapM fun s => readStmt room s).map Stmt.scope = _
        rw [mapM_stmts body]
        simp [writeStmt, tagged]
  | .branch clauses none => fun
    | 0 | 1 | 2 => rfl
    | room + 3 => by
        change (((writeClauses clauses).mapM fun c => readClause room c).bind fun clauses =>
          some (Stmt.branch clauses none)) = _
        rw [mapM_clauses clauses]
        simp [writeStmt, tagged]
  | .branch clauses (some body) => fun
    | 0 | 1 | 2 => rfl
    | room + 3 => by
        change (((writeClauses clauses).mapM fun c => readClause room c).bind fun clauses =>
          ((readBlock (room + 1) (writeBlock body)).map some).bind fun orElse =>
            some (Stmt.branch clauses orElse)) = _
        rw [mapM_clauses clauses, recovers_block body]
        simp [writeStmt, tagged]
  | .whileLoop cond body => fun
    | 0 | 1 => rfl
    | room + 2 => by
        change ((readExpr room (writeExpr cond)).bind fun cond =>
          (readBlock room (writeBlock body)).bind fun body =>
            some (Stmt.whileLoop cond body)) = _
        rw [recovers_expr cond, recovers_block body]
        simp [writeStmt, tagged]
  | .repeatLoop body cond => fun
    | 0 | 1 => rfl
    | room + 2 => by
        change ((readBlock room (writeBlock body)).bind fun body =>
          (readExpr room (writeExpr cond)).bind fun cond =>
            some (Stmt.repeatLoop body cond)) = _
        rw [recovers_block body, recovers_expr cond]
        simp [writeStmt, tagged]
  | .numericFor var start limit none body => fun
    | 0 | 1 => rfl
    | room + 2 => by
        change ((readExpr room (writeExpr start)).bind fun start =>
          (readExpr room (writeExpr limit)).bind fun limit =>
            (readBlock room (writeBlock body)).bind fun body =>
              some (Stmt.numericFor var start limit none body)) = _
        rw [recovers_expr start, recovers_expr limit, recovers_block body]
        simp [writeStmt, tagged]
  | .numericFor var start limit (some step) body => fun
    | 0 | 1 => rfl
    | room + 2 => by
        change ((readExpr room (writeExpr start)).bind fun start =>
          (readExpr room (writeExpr limit)).bind fun limit =>
            (optional (fun e => readExpr room e) (some (writeExpr step))).bind fun step =>
              (readBlock room (writeBlock body)).bind fun body =>
                some (Stmt.numericFor var start limit step body)) = _
        rw [optional_writeExpr, recovers_expr start, recovers_expr limit, recovers_expr step,
          recovers_block body]
        simp [writeStmt, tagged]
  | .genericFor ns exprs body => fun
    | 0 | 1 => rfl
    | room + 2 => by
        change ((strings room (names ns)).bind fun ns =>
          (readExprs room (.array (writeExprs exprs))).bind fun exprs =>
            (readBlock room (writeBlock body)).bind fun body =>
              some (Stmt.genericFor ns exprs body)) = _
        rw [recovers_names ns, recovers_exprs exprs, recovers_block body]
        simp [writeStmt, tagged]
  | .ret values => fun
    | 0 | 1 => rfl
    | room + 2 => by
        change ((writeExprs values).mapM fun e => readExpr room e).map Stmt.ret = _
        rw [mapM_exprs values]
        simp [writeStmt, tagged]

theorem mapM_stmts : (ss : List Stmt) → (room : Nat) →
    (writeStmts ss).mapM (fun s => readStmt room s) =
      if (writeStmts ss).all (fits room) = true then some ss else none
  | [], _ => rfl
  | s :: ss, room => mapM_cons_guard (recovers_stmt s room) (mapM_stmts ss room)

theorem mapM_clauses : (cs : List Clause) → (room : Nat) →
    (writeClauses cs).mapM (fun c => readClause room c) =
      if (writeClauses cs).all (fits room) = true then some cs else none
  | [], _ => rfl
  | .mk cond body :: cs, room => by
      refine mapM_cons_guard ?_ (mapM_clauses cs room)
      cases room with
      | zero => rfl
      | succ room =>
          change ((readExpr room (writeExpr cond)).bind fun cond =>
            (readBlock room (writeBlock body)).bind fun body => some (Clause.mk cond body)) = _
          rw [recovers_expr cond, recovers_block body]
          simp

end

/-! ## Prototypes -/

theorem readOpcode_name (room : Nat) (op : Opcode) :
    readOpcode room (.string op.name) = some op :=
  readTag_string (by cases op <;> rfl) room

theorem recovers_instruction : (i : Instruction) → Recovers readInstruction (writeInstruction i) i
  | ⟨op, none, a, b, c, pc, dead⟩ => fun
    | 0 => rfl
    | room + 1 => by
        change ((Json.int op.toNat).uint32?.bind fun op => (Json.int a.toInt).int32?.bind fun a =>
          (Json.int b.toInt).int32?.bind fun b => (Json.int c.toInt).int32?.bind fun c =>
            (Json.int pc.toNat).uint64?.bind fun pc =>
              some (⟨op, none, a, b, c, pc, dead⟩ : Instruction)) = _
        simp [writeInstruction]
  | ⟨op, some opcode, a, b, c, pc, dead⟩ => fun
    | 0 => rfl
    | room + 1 => by
        change ((Json.int op.toNat).uint32?.bind fun op =>
          ((readOpcode room (.string opcode.name)).map some).bind fun opcode =>
            (Json.int a.toInt).int32?.bind fun a => (Json.int b.toInt).int32?.bind fun b =>
              (Json.int c.toInt).int32?.bind fun c => (Json.int pc.toNat).uint64?.bind fun pc =>
                some (⟨op, opcode, a, b, c, pc, dead⟩ : Instruction)) = _
        simp [writeInstruction, readOpcode_name]

theorem recovers_constant (k : Constant) :
    Recovers (fun _ => readConstant) (writeConstant k) k := by
  intro room
  cases k <;> simp [writeConstant, readConstant, Json.number?]

theorem recovers_array {α : Type} {read : Nat → Json → Option α} {write : α → Json}
    (h : ∀ x, Recovers read (write x) x) (xs : List α) :
    Recovers (arrayOf read) (.array (xs.map write)) xs
  | 0 => rfl
  | room + 1 => by
      rw [arrayOf, listOf, fits_array_succ]
      induction xs with
      | nil => rfl
      | cons x xs ih => exact mapM_cons_guard (h x room) ih

mutual

theorem recovers_prototype : (p : Prototype) → Recovers readPrototype (writePrototype p) p
  | .mk ⟨name, numParams, isVararg, maxStackSize, numUpvalues⟩ is ks ps => fun
    | 0 => rfl
    | room + 1 => by
        change ((Json.int numParams.toNat).uint8?.bind fun numParams =>
          (Json.int isVararg.toNat).uint8?.bind fun isVararg =>
            (Json.int maxStackSize.toNat).uint8?.bind fun maxStackSize =>
              (Json.int numUpvalues.toNat).uint8?.bind fun numUpvalues =>
                (arrayOf readInstruction room (.array (is.map writeInstruction))).bind fun is =>
                  (arrayOf (fun _ => readConstant) room (.array (ks.map writeConstant))).bind
                    fun ks => (readPrototypes room (.array (writePrototypes ps))).bind fun ps =>
                      some (Prototype.mk ⟨name, numParams, isVararg, maxStackSize, numUpvalues⟩
                        is ks ps)) = _
        rw [recovers_array recovers_instruction is, recovers_array recovers_constant ks,
          recovers_prototypes ps]
        simp [writePrototype]

theorem recovers_prototypes (ps : List Prototype) :
    Recovers readPrototypes (.array (writePrototypes ps)) ps
  | 0 => rfl
  | room + 1 => by
      change ((writePrototypes ps).mapM fun p => readPrototype room p) = _
      rw [mapM_prototypes ps, fits_array_succ]

theorem mapM_prototypes : (ps : List Prototype) → (room : Nat) →
    (writePrototypes ps).mapM (fun p => readPrototype room p) =
      if (writePrototypes ps).all (fits room) = true then some ps else none
  | [], _ => rfl
  | p :: ps, room => mapM_cons_guard (recovers_prototype p room) (mapM_prototypes ps room)

end

/-! ## Handlers -/

theorem digit?_digitChar {d : Nat} (h : d < 10) : Indirection.digit? d.digitChar = some d := by
  interval_cases d <;> rfl

/-- The decimal digits of a number are read back as that number. -/
theorem digits?_toDigits (n : Nat) : Indirection.digits? (Nat.toDigits 10 n) = some n := by
  have hfold : (Nat.toDigits 10 n).foldlM
      (fun m c => (Indirection.digit? c).map (m * 10 + ·)) 0 = some n := by
    induction n using Nat.strongRecOn with
    | ind n ih =>
        by_cases hlt : n < 10
        · rw [Nat.toDigits_of_lt_base hlt]
          simp [digit?_digitChar hlt]
        · rw [Nat.toDigits_of_base_le (by decide) (by omega), List.foldlM_append,
            ih (n / 10) (by omega)]
          simp [digit?_digitChar (Nat.mod_lt n (by decide : 0 < 10)), Nat.div_add_mod']
  rw [Indirection.digits?, hfold]
  exact Nat.toDigits_ne_nil

theorem readOpNum_toString (n : UInt32) : readOpNum (toString n.toNat) true = some n := by
  have hlt := n.toNat_lt
  have hdigits : Indirection.digits? (toString n.toNat).toList = some n.toNat := by
    rw [Nat.toString_eq_repr, Nat.toList_repr, digits?_toDigits]
  rw [readOpNum, hdigits]
  simp [show n.toNat ≤ 0xffffffff by omega]

theorem recovers_handler (h : Handler) : Recovers readHandler (writeHandler h) h := by
  intro room
  cases h with
  | fingerprint s => simp [writeHandler, readHandler]
  | source b =>
      change (if (writeBlock b).fits room = true then (readBlock room (writeBlock b)).map Handler.source
        else none) = _
      rw [recovers_block b]
      by_cases hfits : (writeBlock b).fits room = true <;> simp [writeHandler, hfits]

/-- Handlers in ascending order of their numbers, as a map keeps them. -/
def Ascending (hs : List (UInt32 × Handler)) : Prop := hs.Pairwise fun x y => x.1 < y.1

/-- A number above those of a list goes to its end. -/
theorem putHandler_of_forall_lt {n : UInt32} {h : Handler} {hs : List (UInt32 × Handler)}
    (hlt : ∀ x ∈ hs, x.1 < n) : putHandler n h hs = hs ++ [(n, h)] := by
  induction hs with
  | nil => rfl
  | cons x hs ih =>
      obtain ⟨m, h'⟩ := x
      have hm : m < n := hlt _ List.mem_cons_self
      rw [putHandler, if_neg (UInt32.ne_of_lt hm), if_neg (UInt32.lt_asymm hm),
        ih fun x hx => hlt x (List.mem_cons_of_mem _ hx), List.cons_append]

theorem mem_putHandler {n : UInt32} {h : Handler} {hs : List (UInt32 × Handler)}
    {x : UInt32 × Handler} (hx : x ∈ putHandler n h hs) : x = (n, h) ∨ x ∈ hs := by
  induction hs with
  | nil => exact .inl (List.mem_singleton.mp hx)
  | cons y hs ih =>
      obtain ⟨m, h'⟩ := y
      rw [putHandler] at hx
      split_ifs at hx
      · grind
      · grind
      · grind

theorem ascending_putHandler {n : UInt32} {h : Handler} {hs : List (UInt32 × Handler)}
    (hasc : Ascending hs) : Ascending (putHandler n h hs) := by
  induction hs with
  | nil => exact List.pairwise_singleton _ _
  | cons x hs ih =>
      obtain ⟨m, h'⟩ := x
      obtain ⟨hm, hrest⟩ := List.pairwise_cons.mp hasc
      rw [putHandler]
      split_ifs with heq hlt
      · subst heq
        exact List.pairwise_cons.mpr ⟨hm, hrest⟩
      · refine List.pairwise_cons.mpr ⟨fun x hx => ?_, hasc⟩
        rcases List.mem_cons.mp hx with rfl | hx
        · exact hlt
        · exact UInt32.lt_trans hlt (hm x hx)
      · refine List.pairwise_cons.mpr ⟨fun x hx => ?_, ih hrest⟩
        rcases mem_putHandler hx with rfl | hx
        · exact UInt32.lt_of_le_of_ne (UInt32.not_lt.mp hlt) heq
        · exact hm x hx

/-- What reading a member does to the handlers that are already put. -/
def putMember (room : Nat) (hs : List (UInt32 × Handler)) :
    Member → Option (List (UInt32 × Handler))
  | .mk key plain v =>
    (readOpNum key plain).bind fun n => (readHandler room v).bind fun h => some (putHandler n h hs)

theorem readHandlers_object (room : Nat) (ms : List Member) :
    readHandlers (room + 1) (.object ms) = ms.foldlM (putMember room) [] := rfl

/-- Whatever is read, its handlers are in ascending order. -/
theorem ascending_of_readHandlers {room : Nat} {j : Json} {hs : List (UInt32 × Handler)}
    (h : readHandlers room j = some hs) : Ascending hs := by
  have hrun : ∀ (ms : List Member) (room : Nat) {done hs : List (UInt32 × Handler)},
      Ascending done → ms.foldlM (putMember room) done = some hs → Ascending hs := by
    intro ms room
    induction ms with
    | nil => rintro done _ hdone ⟨⟩; exact hdone
    | cons m ms ih =>
        intro done hs hdone hfold
        obtain ⟨key, plain, v⟩ := m
        simp only [List.foldlM_cons, putMember, Option.bind_eq_bind, Option.bind_eq_some_iff]
          at hfold
        obtain ⟨_, ⟨n, _, h, _, ⟨⟩⟩, hfold⟩ := hfold
        exact ih (ascending_putHandler hdone) hfold
  match room, j, h with
  | room + 1, .object ms, h => exact hrun ms room List.Pairwise.nil h

/-- Reading on, when the handlers `done` are already put. -/
theorem foldlM_putMember (room : Nat) {done hs : List (UInt32 × Handler)}
    (hasc : Ascending (done ++ hs)) :
    (hs.map fun h => Member.mk (toString h.1.toNat) true (writeHandler h.2)).foldlM
        (putMember room) done =
      if (hs.all fun h => (writeHandler h.2).fits room) = true then some (done ++ hs) else none := by
  induction hs generalizing done with
  | nil => simp
  | cons x hs ih =>
      obtain ⟨n, h⟩ := x
      have hlt : ∀ x ∈ done, x.1 < n := fun x hx =>
        (List.pairwise_append.mp hasc).2.2 x hx _ List.mem_cons_self
      rw [List.append_cons] at hasc
      rw [List.map_cons, List.foldlM_cons, putMember, readOpNum_toString, recovers_handler h room,
        Option.bind_some, bind_guard, putHandler_of_forall_lt hlt, List.all_cons]
      by_cases hfits : (writeHandler h).fits room = true
      · have hrest := ih hasc
        rw [List.append_assoc, List.singleton_append] at hrest
        rw [if_pos hfits, hfits, Bool.true_and]
        exact hrest
      · simp [hfits]

theorem recovers_handlers {hs : List (UInt32 × Handler)} (hasc : Ascending hs) :
    Recovers readHandlers (writeHandlers hs) hs
  | 0 => rfl
  | room + 1 => by
      rw [writeHandlers, fits_record_succ, record, List.map_map, readHandlers_object]
      have hfold := @foldlM_putMember room [] hs hasc
      rw [List.all_map]
      exact hfold

/-! ## Chunks -/

theorem recovers_chunk {c : Chunk} (hasc : Ascending c.handlers) :
    Recovers readChunk (writeChunk c) c
  | 0 => rfl
  | room + 1 => by
      change ((readHandlers room (writeHandlers c.handlers)).bind fun handlers =>
        (readPrototype room (writePrototype c.root)).bind fun root =>
          some (⟨handlers, root⟩ : Chunk)) = _
      rw [recovers_handlers hasc, recovers_prototype c.root]
      simp [writeChunk]

end Document

namespace Prototype

theorem number_eq_mapIdx (start : Nat) (is : List Instruction) :
    number start is = is.mapIdx fun k i => { i with pc := UInt64.ofNat (start + k) } := by
  induction is generalizing start with
  | nil => rfl
  | cons i is ih =>
      rw [number, ih, List.mapIdx_cons]
      simp [Nat.add_assoc, Nat.add_comm 1]

mutual

/-- Numbering changes the `pc` of every instruction, to its index, and nothing else. -/
theorem renumber_eq_mapCode : (p : Prototype) →
    p.renumber = p.mapCode fun k i => { i with pc := UInt64.ofNat k }
  | mk h is ks ps => by
      rw [renumber, mapCode, number_eq_mapIdx, renumberAll_eq_mapCodeAll ps]
      simp

theorem renumberAll_eq_mapCodeAll : (ps : List Prototype) →
    renumberAll ps = mapCodeAll (fun k i => { i with pc := UInt64.ofNat k }) ps
  | [] => rfl
  | p :: ps => by
      rw [renumberAll, mapCodeAll, renumber_eq_mapCode p, renumberAll_eq_mapCodeAll ps]

end

end Prototype

/-! ## Whole documents -/

open Document

/-- Blocks, functions and chunks are what is read back from their documents, as long as these nest at
most as deep as may be read; those that nest deeper are refused.  The handlers of a chunk stand in
ascending order, as `ascending_of_readHandlers` has them; loading the chunk sets the `pc` of every
instruction to its index, and nothing else. -/
theorem ofJson?_toJson :
    (∀ b : Block,
      Block.ofJson? b.toJson = if b.toJson.fits Json.maxNesting = true then some b else none) ∧
    (∀ p : Prototype,
      Prototype.ofJson? p.toJson = if p.toJson.fits Json.maxNesting = true then some p else none) ∧
    (∀ c : Chunk, Ascending c.handlers →
      readChunk Json.maxNesting c.toJson =
          (if c.toJson.fits Json.maxNesting = true then some c else none) ∧
        Chunk.ofJson? c.toJson =
          if c.toJson.fits Json.maxNesting = true then
            some { c with root := c.root.mapCode fun k i => { i with pc := UInt64.ofNat k } }
          else none) := by
  refine ⟨fun b => recovers_block b _, fun p => recovers_prototype p _, fun c hasc => ?_⟩
  have hread : readChunk Json.maxNesting c.toJson =
      if c.toJson.fits Json.maxNesting = true then some c else none := recovers_chunk hasc _
  refine ⟨hread, ?_⟩
  rw [Chunk.ofJson?, hread, map_guard, Prototype.renumber_eq_mapCode]

/-- A chunk with a handler of either kind, whose one instruction says a wrong index. -/
def chunkOfTwoHandlers : Chunk :=
  { handlers := [(9, .fingerprint "58"), (10, .source [.ret [.table [.keyed .nil .vararg]]])]
    root := .mk { name := "main", numParams := 0, isVararg := 0, maxStackSize := 2, numUpvalues := 0 }
      [{ opNum := 9, opcode := none, a := 0, b := 1, c := 0, pc := 7, dead := false }]
      [.nil, .bool true, .string "k"] [] }

theorem ofJson?_toJson_two_handlers :
    Ascending chunkOfTwoHandlers.handlers ∧
      Chunk.ofJson? chunkOfTwoHandlers.toJson =
        some { chunkOfTwoHandlers with
          root := .mk
            { name := "main", numParams := 0, isVararg := 0, maxStackSize := 2, numUpvalues := 0 }
            [{ opNum := 9, opcode := none, a := 0, b := 1, c := 0, pc := 0, dead := false }]
            [.nil, .bool true, .string "k"] [] } := by
  have hasc : Ascending chunkOfTwoHandlers.handlers :=
    List.pairwise_pair.mpr (by decide)
  refine ⟨hasc, ?_⟩
  rw [(ofJson?_toJson.2.2 _ hasc).2]
  rfl

end Devirt
