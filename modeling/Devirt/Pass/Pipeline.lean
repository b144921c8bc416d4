import Devirt.Pass.Walk
import Devirt.Pass.Folding
import Devirt.Pass.Indirection
import Devirt.Pass.Temporaries

set_option autoImplicit false

/-! # Pipelines

A pipeline walks its stages over a block one after the other, and repeats the whole round until a
round replaces nothing.  It stops early when a walk is halted, and gives up after a number of rounds;
in neither case has it converged. -/

namespace Devirt

/-- How a run went. -/
structure RunReport where
  iterations : Nat
  replacements : Nat
  converged : Bool
  deriving DecidableEq, Inhabited

structure Pipeline where
  stages : List Stage
  maxIterations : Nat

namespace Pipeline

/-- One round of walks: the block, the replacements made, and whether a walk was halted. -/
def round : List Stage → Block → Nat → Block × Nat × Bool
  | [], b, n => (b, n, false)
  | r :: rs, b, n =>
    let (b, w) := (r.prepare b).walk b
    if w.halted then (b, n + w.replacements, true) else round rs b (n + w.replacements)

/-- Rounds until one replaces nothing, `remaining` at most. -/
def rounds (rs : List Stage) : Nat → Block → RunReport → Block × RunReport
  | 0, b, report => (b, report)
  | remaining + 1, b, report =>
    let (b, n, halted) := round rs b 0
    let report : RunReport :=
      ⟨report.iterations + 1, report.replacements + n, !halted && n == 0⟩
    if halted || n == 0 then (b, report) else rounds rs remaining b report

def run (p : Pipeline) (b : Block) : Block × RunReport :=
  rounds p.stages p.maxIterations b ⟨0, 0, false⟩

/-- Folding, then the mapping if there is one, then the temporaries. -/
def standard (options : Options) (paths : Option Paths) : Pipeline where
  stages :=
    Folding.stage ::
      (paths.toList.map Indirection.stage ++ [Temporaries.stage options])
  maxIterations := options.maxIterations

end Pipeline

/-- Simplifies a block by the standard pipeline; `paths` is put to use as it stands. -/
def Block.simplify (options : Options) (paths : Option Paths) (b : Block) : Block × RunReport :=
  (Pipeline.standard options paths).run b

end Devirt
