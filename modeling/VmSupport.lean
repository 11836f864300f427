import VmSupport.Main
import VmSupport.Scenario.BindCalls
import VmSupport.Scenario.Buffer
import VmSupport.Scenario.HeapScenario
import VmSupport.Scenario.Session
import VmSupport.Proofs.Outcome
import VmSupport.Proofs.RegisteredFluids
import VmSupport.Proofs.ValueEncoding
import VmSupport.Proofs.BoundLocals
import VmSupport.Proofs.InPlaceBinding
import VmSupport.Proofs.RootSlots
import VmSupport.Proofs.Record
import VmSupport.Proofs.DeepBinding
import VmSupport.Proofs.FluidCode
import VmSupport.Proofs.ShallowBinding
import VmSupport.Proofs.BindingSimulation
import VmSupport.Proofs.BlockAccounts
import VmSupport.Proofs.BlockOwnership
import VmSupport.Proofs.Unwinding
import VmSupport.Proofs.BalancedUnwinding
import VmSupport.Proofs.RepeatedUnwinding
import VmSupport.Proofs.LeftoverEntries
import VmSupport.Proofs.Reachability
import VmSupport.Proofs.Marking
import VmSupport.Proofs.WrittenMemory
import VmSupport.Proofs.Reclaiming
import VmSupport.Proofs.Placement
import VmSupport.Proofs.SafeAllocation
import VmSupport.Proofs.ExactReclaiming
import VmSupport.Proofs.MarkingRounds
import VmSupport.Proofs.Inventory
import VmSupport.Proofs.InventorySteps
import VmSupport.Proofs.MachineRuns
import VmSupport.Proofs.ObjectBytes
import VmSupport.Proofs.CollectionSafety
import VmSupport.Proofs.EncodedBinding
import VmSupport.Proofs.TableSequence
import VmSupport.Proofs.RegionGrammar
import VmSupport.Proofs.ConfinedFrames
import VmSupport.Proofs.StraySlots
import VmSupport.Proofs.RelatedBindings
import VmSupport.Proofs.KeywordNumbering
import VmSupport.Proofs.Relocation
import VmSupport.Proofs.WindOperands
import VmSupport.Proofs.CarriedResults
import VmSupport.Proofs.TracedPayload
import VmSupport.Proofs.FreshObjects
import VmSupport.Proofs.CoherentCells
import VmSupport.Proofs.ArenaSteps
import VmSupport.Proofs.HandedOut
import VmSupport.Proofs.SharedHeap
import VmSupport.Proofs.RestoredMemory
import VmSupport.Proofs.FrameValues
import VmSupport.Proofs.UnmarkedObjects
import VmSupport.Proofs.ThriftyAllocation
import VmSupport.Proofs.ExhaustedHeap
import VmSupport.Proofs.FrugalMachine
import VmSupport.Proofs.StressRuns
import VmSupport.Proofs.PermutedPairs
import VmSupport.Proofs.StoredStrings
import VmSupport.Proofs.ByteCounts
import VmSupport.Proofs.HeaderFlags
import VmSupport.Proofs.BlockTiling
import VmSupport.Proofs.Strands
import VmSupport.Proofs.AllocationFaults
import VmSupport.Proofs.SharedMachine
import VmSupport.Proofs.AscendingMappings
import VmSupport.Proofs.StressParts
import VmSupport.Proofs.Supplies
import VmSupport.Proofs.NeutralIterations
import VmSupport.Proofs.NeutralWork
import VmSupport.Proofs.AmpleBlocks
import VmSupport.Proofs.ThreadPanics
import VmSupport.Proofs.Crews
import VmSupport.Proofs.StressTotals
