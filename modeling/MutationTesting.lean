import MutationTesting.Rust.Unwind
import MutationTesting.Rust.WorkList
import MutationTesting.Rust.BitMatrix
import MutationTesting.Rust.LinkedList
import MutationTesting.Rust.IndexMap
import MutationTesting.Rust.Chunks
import MutationTesting.Graph.Walk
import MutationTesting.Graph.Search
import MutationTesting.Graph.Simulation
import MutationTesting.Graph.Blocks
import MutationTesting.Graph.Flow
import MutationTesting.Mir.Control
import MutationTesting.Mir.Locals
import MutationTesting.Mir.Visitor
import MutationTesting.Mutator.Range
import MutationTesting.Mutator.Access
import MutationTesting.Mutator.Typing
import MutationTesting.Mutator.Distinct
import MutationTesting.Mutator.Cleanup
import MutationTesting.Mutator.Reachable
import MutationTesting.Mutator.BlockingPaths
import MutationTesting.Mutator.ExpiryPairs
import MutationTesting.Mutator.NeverTaken
import MutationTesting.Mutator.Termination
import MutationTesting.Mutator.Deletion
import MutationTesting.Mutator.SharedPlaces
import MutationTesting.Mutator.Reborrows
import MutationTesting.Borrowck.Values
import MutationTesting.Borrowck.Constraints
import MutationTesting.Borrowck.UniversalRegions
import MutationTesting.Borrowck.MemberConstraints
import MutationTesting.Borrowck.RegionTracker
import MutationTesting.Borrowck.RegionSccs
import MutationTesting.Borrowck.RegionInfer
import MutationTesting.Borrowck.RegionPropagate
import MutationTesting.Borrowck.RegionCheck
import MutationTesting.Borrowck.RegionSolve
import MutationTesting.Borrowck.PlacesConflict
import MutationTesting.Borrowck.PlaceExt
import MutationTesting.Borrowck.BorrowSet
import MutationTesting.Borrowck.OutOfScope
import MutationTesting.Borrowck.Borrows
import MutationTesting.Borrowck.Conflict
import MutationTesting.Mutator.Conflict
import MutationTesting.Driver.Session
import MutationTesting.Driver.Run
import MutationTesting.Driver.Course
import MutationTesting.Driver.Schedule
import MutationTesting.Driver.Results
import MutationTesting.Driver.Visualization
import MutationTesting.Driver.Crate
import MutationTesting.Driver.Counts
import MutationTesting.Driver.ErrCount
import MutationTesting.Driver.ToolRun
import MutationTesting.Driver.Directory
import MutationTesting.Driver.Verdict
import MutationTesting.Driver.Log
import MutationTesting.Driver.Order
import MutationTesting.Driver.Compile
