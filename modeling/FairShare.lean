import FairShare.Allocation
import FairShare.ComputerId
import FairShare.Duration
import FairShare.Json.Basic
import FairShare.Json.Duration
import FairShare.Json.Reader
import FairShare.Log
import FairShare.Metrics.Aggregate
import FairShare.Metrics.Context
import FairShare.Metrics.Metric
import FairShare.Metrics.Observer
import FairShare.Metrics.Record
import FairShare.Metrics.Registry
import FairShare.Metrics.Run
import FairShare.Metrics.Standard
import FairShare.Numeric.Binary64
import FairShare.Proofs.Account
import FairShare.Proofs.Admission
import FairShare.Proofs.Aftermath
import FairShare.Proofs.Agreement
import FairShare.Proofs.Aim
import FairShare.Proofs.Billing
import FairShare.Proofs.Books
import FairShare.Proofs.Cadence
import FairShare.Proofs.Callers
import FairShare.Proofs.Checking
import FairShare.Proofs.Closing
import FairShare.Proofs.Conservation
import FairShare.Proofs.Containment
import FairShare.Proofs.Custody
import FairShare.Proofs.Dispatch
import FairShare.Proofs.Documents
import FairShare.Proofs.Effect
import FairShare.Proofs.Escalation
import FairShare.Proofs.Eviction
import FairShare.Proofs.Fairness
import FairShare.Proofs.Finality
import FairShare.Proofs.Guise
import FairShare.Proofs.Handles
import FairShare.Proofs.History
import FairShare.Proofs.Interrupts
import FairShare.Proofs.Level
import FairShare.Proofs.Listening
import FairShare.Proofs.Minutes
import FairShare.Proofs.Naming
import FairShare.Proofs.Outset
import FairShare.Proofs.Pausing
import FairShare.Proofs.Posts
import FairShare.Proofs.Precision
import FairShare.Proofs.Publication
import FairShare.Proofs.Reach
import FairShare.Proofs.Readings
import FairShare.Proofs.Recording
import FairShare.Proofs.Registration
import FairShare.Proofs.Rendering
import FairShare.Proofs.Replay
import FairShare.Proofs.Reporting
import FairShare.Proofs.Resizing
import FairShare.Proofs.Resting
import FairShare.Proofs.Retrospect
import FairShare.Proofs.Rounding
import FairShare.Proofs.Runtime
import FairShare.Proofs.Sleeping
import FairShare.Proofs.Sorting
import FairShare.Proofs.Spelling
import FairShare.Proofs.Stays
import FairShare.Proofs.Submission
import FairShare.Proofs.Tally
import FairShare.Proofs.Unloading
import FairShare.Proofs.Vigil
import FairShare.Proofs.Wrapping
import FairShare.Proofs.Yield
import FairShare.Scheduler.Config
import FairShare.Scheduler.Error
import FairShare.Scheduler.Event
import FairShare.Scheduler.Executor
import FairShare.Scheduler.Instruction
import FairShare.Scheduler.Phase
import FairShare.Scheduler.Pool
import FairShare.Scheduler.Queue
import FairShare.Scheduler.Run
import FairShare.Scheduler.Scene
import FairShare.Scheduler.Section
import FairShare.Scheduler.Slice
import FairShare.Scheduler.Step
import FairShare.Scheduler.Watchdog
import FairShare.Simulation.Basic
import FairShare.Simulation.Control
import FairShare.Simulation.Order
import FairShare.Simulation.Report
import FairShare.Simulation.Script
import FairShare.Simulation.Turn
import FairShare.Text.Case
import FairShare.Text.Printable
import FairShare.Text.Quoted
import FairShare.Text.Record
import FairShare.Text.Trim
import FairShare.Timeout.Callers
import FairShare.Timeout.Config
import FairShare.Timeout.Run
import FairShare.Timeout.State
import FairShare.Word
