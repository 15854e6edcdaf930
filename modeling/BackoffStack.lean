import BackoffStack.Config
import BackoffStack.Hazard.Epoch
import BackoffStack.Hazard.Shelf
import BackoffStack.Range.Table
import BackoffStack.SpinLock.Contender
import BackoffStack.Notice
import BackoffStack.Treiber.Stack
import BackoffStack.Exchange.Call
import BackoffStack.Schedule
import BackoffStack.Elimination.World
import BackoffStack.Scenario.Lock
import BackoffStack.Scenario.Stores
import BackoffStack.Scenario.Tables
import BackoffStack.Scenario.Tokens
import BackoffStack.Scenario.Hazard
import BackoffStack.Scenario.Treiber
import BackoffStack.Scenario.Elimination
import BackoffStack.Scenario.Meeting
import BackoffStack.Scenario.Storm
import BackoffStack.Proofs.Places
import BackoffStack.Proofs.Rounds
import BackoffStack.Proofs.Segment.Slots
import BackoffStack.Proofs.Exchange.Envelopes
import BackoffStack.Proofs.Exchange.Stage
import BackoffStack.Proofs.Exchange.Row
import BackoffStack.Proofs.Exchange.History
import BackoffStack.Proofs.Exchange.Pairing
import BackoffStack.Proofs.Exchange.Occupancy
import BackoffStack.Proofs.Hazard.Registry
import BackoffStack.Proofs.Hazard.Turnover
import BackoffStack.Proofs.Hazard.Reclaim
import BackoffStack.Proofs.Hazard.Operations
import BackoffStack.Proofs.Hazard.Retire
import BackoffStack.Proofs.Hazard.Books
import BackoffStack.Proofs.Token.Density
import BackoffStack.Proofs.Hazard.Headway
import BackoffStack.Proofs.Hazard.Owners
import BackoffStack.Proofs.Hazard.Floor
import BackoffStack.Proofs.Treiber.Attempts
import BackoffStack.Proofs.Treiber.Ownership
import BackoffStack.Proofs.Treiber.Memory
import BackoffStack.Proofs.Treiber.Reuse
import BackoffStack.Proofs.Treiber.Undisturbed
import BackoffStack.Proofs.Elimination.Lifo
import BackoffStack.Proofs.Elimination.Runs
import BackoffStack.Proofs.Elimination.Linearizable
import BackoffStack.Proofs.Crowd.Ledger
import BackoffStack.Proofs.Crowd.Accesses
import BackoffStack.Proofs.Crowd.Alone
import BackoffStack.Proofs.Crowd.Custody
import BackoffStack.Proofs.Crowd.Steps
import BackoffStack.Proofs.Crowd.Safety
import BackoffStack.Proofs.Range.Walk
import BackoffStack.Proofs.Range.Turns
import BackoffStack.Proofs.Range.Personal
import BackoffStack.Proofs.Treiber.Garbage
import BackoffStack.Proofs.Treiber.Pops
import BackoffStack.Proofs.Treiber.Apart
import BackoffStack.Proofs.Elimination.Balance
import BackoffStack.Proofs.Crowd.Handles
import BackoffStack.Proofs.Hazard.Handles
import BackoffStack.Proofs.Exchange.Deadline
import BackoffStack.Proofs.Exchange.Matching
import BackoffStack.Proofs.Hazard.Links
import BackoffStack.Proofs.Hazard.Surgery
import BackoffStack.Proofs.Hazard.Draining
import BackoffStack.Proofs.Segment.Chain
import BackoffStack.Proofs.Segment.Spots
import BackoffStack.Proofs.Segment.Growth
import BackoffStack.Proofs.Segment.Stable
import BackoffStack.Proofs.Hazard.Overlooked
import BackoffStack.Proofs.Hazard.Rejection
import BackoffStack.Proofs.Range.Recall
import BackoffStack.Proofs.SpinLock.Contest
import BackoffStack.Proofs.SpinLock.Serial
