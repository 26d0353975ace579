import TinyScript.Main
import TinyScript.Proofs.Agreement
import TinyScript.Proofs.Bindings
import TinyScript.Proofs.DeadCode
import TinyScript.Proofs.Nesting
import TinyScript.Proofs.Output
import TinyScript.Proofs.ProgramBody
import TinyScript.Proofs.ReadBack
import TinyScript.Proofs.StaticScope
import TinyScript.Proofs.Quotes
import TinyScript.Proofs.UnitBoundary
import TinyScript.Proofs.Unambiguous
import TinyScript.Proofs.Prompt
import TinyScript.Proofs.FileRun
import TinyScript.Proofs.WriteOnce
import TinyScript.Proofs.Provenance
import TinyScript.Proofs.Chains
import TinyScript.Proofs.MixedSums
import TinyScript.Proofs.Calls
import TinyScript.Proofs.PositionalParser
import TinyScript.Proofs.Parentheses
import TinyScript.Proofs.LexemeKinds
import TinyScript.Proofs.Offsets
import TinyScript.Proofs.BraceScans
