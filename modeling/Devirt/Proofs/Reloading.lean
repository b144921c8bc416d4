import Devirt.CommandLine
import Devirt.Proofs.ReadBack

set_option autoImplicit false

/-! # Simplified trees loaded again

What `simplify --json` prints is the document of the simplified tree.  The printer puts no limit on
nesting, but whoever loads the document does, and inlining nests a tree deeper than it was.  So the
document is loaded as the tree it was printed from exactly if it fits (`loadTree_simplified`); a tree
that just fits may be simplified to one that does not (`not_ofJson?_simplify`). -/

namespace Devirt.CommandLine

/-- A loaded tree is what the document in the file is read as. -/
theorem loadTree_of_read {files : Files} {path text : String} {j : Json}
    (hfile : files path = some text) (hread : Json.read text = some j) :
    loadTree files path =
      match Block.ofJson? j with
      | some b => .ok b
      | none => .error (.invalidTree path) := by
  have htext : readText files path = .ok text := by rw [readText, hfile]
  have hdecoded : (Json.read text).bind Block.ofJson? = Block.ofJson? j := by rw [hread]; rfl
  rw [loadTree, load, htext]
  simp only [bind, Except.bind, hdecoded]
  cases Block.ofJson? j <;> rfl

/-- `simplify --json` prints the document of the simplified tree. -/
theorem answer_simplify {files : Files} {path : String} {s : Settings} {b : Block}
    (h : simplified files path s = .ok b) :
    answer files (.simplify path true s) = .text (b.toJson.pretty ++ "\n") := by
  simp only [answer, h]
  rfl

/-- Whatever tree, options and mapping are accepted, `simplify --json` prints the document of the
simplified tree.  If the reader makes of the text the document that was printed, then loading it gives
the simplified tree exactly if the document nests at most as deep as may be read; else it is refused. -/
theorem loadTree_simplified {files : Files} {path : String} {s : Settings} {b : Block}
    (h : simplified files path s = .ok b) (files' : Files) (out : String)
    (hfile : files' out = some (answer files (.simplify path true s)).stdout)
    (hread : Json.read (answer files (.simplify path true s)).stdout = some b.toJson) :
    answer files (.simplify path true s) = .text (b.toJson.pretty ++ "\n") ∧
      loadTree files' out =
        if b.toJson.fits Json.maxNesting = true then .ok b else .error (.invalidTree out) := by
  refine ⟨answer_simplify h, ?_⟩
  have hrecovers : Block.ofJson? b.toJson =
      if b.toJson.fits Json.maxNesting = true then some b else none :=
    Document.recovers_block b Json.maxNesting
  rw [loadTree_of_read hfile hread, hrecovers]
  by_cases hfits : b.toJson.fits Json.maxNesting = true <;> simp [hfits]

/-- `local _ = a; x = _` -/
def givenTree : Block := [.declare 1 ["_"] [.name "a"], .assign 2 [.name "x"] [.name "_"]]

/-- `x = a` -/
def inlinedTree : Block := [.assign 2 [.name "x"] [.name "a"]]

/-- A document of the tree that is given. -/
def givenText : String :=
  "\x7b\"stmts\":[" ++
    "\x7b\"Local\":\x7b\"id\":1,\"names\":[\"_\"],\"values\":[\x7b\"Name\":\"a\"\x7d]\x7d\x7d," ++
    "\x7b\"Assign\":\x7b\"id\":2,\"targets\":[\x7b\"Name\":\"x\"\x7d]," ++
      "\"values\":[\x7b\"Name\":\"_\"\x7d]\x7d\x7d]\x7d"

def givenFile : Files
  | "in.json" => some givenText
  | _ => none

theorem loadTree_simplified_inlined :
    simplified givenFile "in.json" .none = .ok inlinedTree ∧
      loadTree (fun _ => some (answer givenFile (.simplify "in.json" true .none)).stdout)
        "out.json" = .ok inlinedTree := by
  have hread : Json.read givenText = some givenTree.toJson := by decide +kernel
  have hreread : Json.read (inlinedTree.toJson.pretty ++ "\n") = some inlinedTree.toJson := by
    decide +kernel
  have hdocument : Block.ofJson? givenTree.toJson = some givenTree :=
    (Document.recovers_block givenTree Json.maxNesting).trans (if_pos (by decide))
  have hloaded : loadTree givenFile "in.json" = .ok givenTree := by
    have hgiven : givenFile "in.json" = some givenText := rfl
    rw [loadTree_of_read hgiven hread, hdocument]
  have h : simplified givenFile "in.json" .none = .ok inlinedTree := by
    rw [simplified, hloaded]
    rfl
  have hprinted : (answer givenFile (.simplify "in.json" true .none)).stdout =
      inlinedTree.toJson.pretty ++ "\n" :=
    congrArg Answer.stdout (answer_simplify h)
  have hreloaded : ∀ text, text = (answer givenFile (.simplify "in.json" true .none)).stdout →
      loadTree (fun _ => some text) "out.json" = .ok inlinedTree := by
    intro text htext
    have hreads := (loadTree_simplified h (fun _ => some text) "out.json" (congrArg some htext)
      (by rw [hprinted, hreread])).2
    rwa [if_pos (by decide)] at hreads
  exact ⟨h, hreloaded _ rfl⟩

/-! ## A tree that no longer fits -/

/-- `not not ... a`. -/
def negated : Nat → Expr
  | 0 => .name "a"
  | n + 1 => .unary .not (negated n)

/-- `local _1 = a + not ... not a; x = y + _1`, which is inlined one level deeper. -/
def deep : Block :=
  [.declare 1 ["_1"] [.binary .add (.name "a") (negated 59)],
   .assign 2 [.name "x"] [.binary .add (.name "y") (.name "_1")]]

/-- The document of a tree is accepted, and that of the simplified tree is not. -/
theorem not_ofJson?_simplify :
    ¬ ∀ (j : Json) (b : Block), Block.ofJson? j = some b →
      Block.ofJson? (b.simplify .standard none).1.toJson = some (b.simplify .standard none).1 := by
  intro h
  have haccepted : Block.ofJson? deep.toJson = some deep :=
    (Document.recovers_block deep Json.maxNesting).trans (if_pos (by decide +kernel))
  have hrefused : Block.ofJson? (deep.simplify .standard none).1.toJson = none :=
    (Document.recovers_block _ Json.maxNesting).trans (if_neg (by decide +kernel))
  exact Option.some_ne_none _ ((h _ _ haccepted).symm.trans hrefused)

end Devirt.CommandLine
