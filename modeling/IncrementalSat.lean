import IncrementalSat.Binding
import IncrementalSat.Engine.Scripted
import IncrementalSat.Engine.Traced
import IncrementalSat.Main
import IncrementalSat.Proofs.Verdicts
import IncrementalSat.Proofs.Tally
import IncrementalSat.Engine.Recorded
import IncrementalSat.Proofs.Calls
import IncrementalSat.Proofs.Exports
import IncrementalSat.Proofs.Lockstep
import IncrementalSat.Proofs.Observers
import IncrementalSat.Proofs.Protocol
import IncrementalSat.Proofs.Truncation
import IncrementalSat.Proofs.Refusals
import IncrementalSat.Proofs.Permanence
import IncrementalSat.Proofs.UnitClosure
import IncrementalSat.Proofs.ImplicationPoint
import IncrementalSat.Proofs.Catalog
import IncrementalSat.Proofs.OpenClause
import IncrementalSat.Proofs.FoundValuations
import IncrementalSat.Proofs.ClauseSets
import IncrementalSat.Proofs.FailedAssumptions
import IncrementalSat.Proofs.LubyNumbers
import IncrementalSat.Proofs.LubyExhaustion
import IncrementalSat.Proofs.Restarts
import IncrementalSat.Proofs.ValuationViews
import IncrementalSat.Proofs.ForeignCalls
import IncrementalSat.Proofs.CommandLineRuns
import IncrementalSat.Proofs.Checked.Sessions
import IncrementalSat.Proofs.WatchLists
import IncrementalSat.Proofs.TrailOrder
import IncrementalSat.Proofs.NewClauses
import IncrementalSat.Proofs.GeneratorPeriod
