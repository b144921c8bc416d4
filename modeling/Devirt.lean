import Devirt.Bytecode.Path
import Devirt.Main
import Devirt.Pass.Probe
import Devirt.Proofs.Replacement
import Devirt.Proofs.StraightLine
import Devirt.Proofs.Loader
import Devirt.Proofs.Renaming
import Devirt.Proofs.Scoping
import Devirt.Proofs.Simulation
import Devirt.Proofs.Tracking
import Devirt.Proofs.ScopeSafety
import Devirt.Proofs.Fixpoint
import Devirt.Proofs.Termination
import Devirt.Proofs.Inlining
import Devirt.Proofs.Skipping
import Devirt.Proofs.RecoveryRounds
import Devirt.Proofs.ImageFailure
import Devirt.Proofs.Comparing
import Devirt.Proofs.Spelling
import Devirt.Proofs.Reloading
import Devirt.Proofs.Collapsing
import Devirt.Proofs.WriteSafety
import Devirt.Proofs.HelperCalls
import Devirt.Proofs.CopiedCalls
import Devirt.Proofs.KeptCalls
import Devirt.Proofs.KeyChains
import Devirt.Proofs.Descents
import Devirt.Proofs.Assignable
import Devirt.Proofs.FoldedTree
import Devirt.Proofs.FoldedValues
import Devirt.Proofs.UsageEntries
import Devirt.Proofs.JumpTargets
import Devirt.Proofs.ConstantSlots
import Devirt.Proofs.RegisterRanges
import Devirt.Proofs.QuotedReading
import Devirt.Proofs.PrintedAlike
import Devirt.Proofs.ListingLines
import Devirt.Proofs.UnknownNames
import Devirt.Proofs.NameSearches
import Devirt.Proofs.ExactOperands
