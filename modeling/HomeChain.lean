import HomeChain.Main
import HomeChain.Table.Tamper
import HomeChain.Text.Inspect
import HomeChain.Proofs.LinkCodec
import HomeChain.Proofs.Route
import HomeChain.Proofs.SlotView
import HomeChain.Proofs.FreeCircle
import HomeChain.Proofs.FreeListCalls
import HomeChain.Proofs.Chains
import HomeChain.Proofs.Layout
import HomeChain.Proofs.Contents
import HomeChain.Proofs.Walk
import HomeChain.Proofs.Insertion
import HomeChain.Proofs.Removal
import HomeChain.Proofs.Rebuilding
import HomeChain.Proofs.Visiting
import HomeChain.Proofs.Examination.Shape
import HomeChain.Proofs.Examination.FreeWalk
import HomeChain.Proofs.Examination.Claims
import HomeChain.Proofs.Examination.Verdict
import HomeChain.Proofs.Examination.Diagnoses
import HomeChain.Proofs.Session
import HomeChain.Proofs.Preservation
import HomeChain.Proofs.Declines
import HomeChain.Proofs.Canonical
import HomeChain.Proofs.Disturbance
import HomeChain.Proofs.PeakCapacity
import HomeChain.Proofs.Iteration
import HomeChain.Proofs.Scanning
import HomeChain.Proofs.Examination.Values
import HomeChain.Proofs.Tour
import HomeChain.Proofs.AgeOrder.Steps
import HomeChain.Proofs.AgeOrder.Runs
import HomeChain.Proofs.Examination.SingleFaults
import HomeChain.Proofs.Widths.Alike
import HomeChain.Proofs.Widths.Operations
import HomeChain.Proofs.Widths.Sessions
import HomeChain.Proofs.Statistics.Histogram
import HomeChain.Proofs.Statistics.Homes
import HomeChain.Proofs.Statistics.ProbeTotal
import HomeChain.Proofs.Undoing
import HomeChain.Proofs.Hashing.ClosedForm
import HomeChain.Proofs.Hashing.Mixing
import HomeChain.Proofs.Examination.WalkBack
import HomeChain.Proofs.LinkLimits
import HomeChain.Proofs.Demonstration.Multiples
import HomeChain.Proofs.Demonstration.Filling
