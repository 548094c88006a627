import LiveRecords.Changes
import LiveRecords.Changeset
import LiveRecords.Container
import LiveRecords.Container.Copy
import LiveRecords.Container.Editing
import LiveRecords.Container.Nesting
import LiveRecords.Container.Walk
import LiveRecords.Evaluation.Read
import LiveRecords.Evaluation.Session
import LiveRecords.Evaluation.Write
import LiveRecords.Fault
import LiveRecords.Formula
import LiveRecords.Formula.Builtin
import LiveRecords.Formula.Functions
import LiveRecords.Index
import LiveRecords.Label
import LiveRecords.Number.Checked
import LiveRecords.Number.Double
import LiveRecords.Number.Shortest
import LiveRecords.Number.Written
import LiveRecords.Packet
import LiveRecords.Record
import LiveRecords.Sensor
import LiveRecords.Sensor.Patterns
import LiveRecords.Space
import LiveRecords.Table
import LiveRecords.Text.Listing
import LiveRecords.Text.Quoted
import LiveRecords.Text.Unseen
import LiveRecords.Value
import LiveRecords.Value.Arithmetic
import LiveRecords.Value.IndexForm
import LiveRecords.Value.Order
import LiveRecords.Proofs.Tables
import LiveRecords.Proofs.Text.Spelling
import LiveRecords.Proofs.Effects
import LiveRecords.Proofs.Evaluation.Moves
import LiveRecords.Proofs.Operations
import LiveRecords.Proofs.Packets
import LiveRecords.Proofs.Container.WellKept
import LiveRecords.Proofs.Container.Outline
import LiveRecords.Proofs.Container.Acyclic
import LiveRecords.Proofs.Container.Storing
import LiveRecords.Proofs.Container.Lookup
import LiveRecords.Proofs.Container.Ledger
import LiveRecords.Proofs.Container.Mirror
import LiveRecords.Proofs.Container.Replies
import LiveRecords.Proofs.Container.Comprising
import LiveRecords.Proofs.Container.Refusals
import LiveRecords.Proofs.Container.Minting
import LiveRecords.Proofs.Container.Flattening
import LiveRecords.Proofs.Container.Walking
import LiveRecords.Proofs.Container.Growing
import LiveRecords.Proofs.Evaluation.Quiet
import LiveRecords.Proofs.Evaluation.Agreement
import LiveRecords.Proofs.Evaluation.Yields
import LiveRecords.Proofs.Evaluation.Reading
import LiveRecords.Proofs.Evaluation.Twins
import LiveRecords.Proofs.Evaluation.Cycles
import LiveRecords.Proofs.Evaluation.Traceless
import LiveRecords.Proofs.Evaluation.Failures
import LiveRecords.Proofs.Evaluation.Surfacing
import LiveRecords.Proofs.Evaluation.Writing
import LiveRecords.Proofs.Evaluation.Cells
import LiveRecords.Proofs.Evaluation.Confined
import LiveRecords.Proofs.Evaluation.Cascade
import LiveRecords.Proofs.Evaluation.Oblivious
import LiveRecords.Proofs.Evaluation.Restoring
import LiveRecords.Proofs.Evaluation.Calls
import LiveRecords.Proofs.Evaluation.Faulting
import LiveRecords.Proofs.Evaluation.Guard
import LiveRecords.Proofs.Evaluation.Activations
import LiveRecords.Proofs.Evaluation.Remnants
import LiveRecords.Proofs.Evaluation.References
import LiveRecords.Proofs.Evaluation.Relays
import LiveRecords.Proofs.Evaluation.Rings
import LiveRecords.Proofs.Evaluation.Limits
import LiveRecords.Proofs.Evaluation.Ending
import LiveRecords.Proofs.Evaluation.Undoing
import LiveRecords.Proofs.Evaluation.Tasks
import LiveRecords.Proofs.Evaluation.Arithmetic
import LiveRecords.Proofs.Evaluation.Shifts
import LiveRecords.Proofs.Record.Noting
import LiveRecords.Proofs.Record.Changes
import LiveRecords.Proofs.Record.Oblivious
import LiveRecords.Proofs.Record.Answers
import LiveRecords.Proofs.Record.Detaching
import LiveRecords.Proofs.Value.Order
import LiveRecords.Proofs.Value.IndexForm
import LiveRecords.Proofs.Value.Members
import LiveRecords.Proofs.Value.Indexable
import LiveRecords.Proofs.Sensor.Firing
import LiveRecords.Proofs.Index
import LiveRecords.Proofs.Index.History
import LiveRecords.Proofs.Packets.Runs
import LiveRecords.Proofs.Packets.Lookup
import LiveRecords.Proofs.Packets.Oblivious
import LiveRecords.Proofs.Packets.Acts
import LiveRecords.Proofs.Packets.Commits
import LiveRecords.Proofs.Packets.Batches
import LiveRecords.Proofs.Packets.Current
import LiveRecords.Proofs.Packets.Entries
import LiveRecords.Proofs.Packets.Consulting
import LiveRecords.Proofs.Sensor.Listening
import LiveRecords.Proofs.Packets.Explained
import LiveRecords.Proofs.Packets.Nested
import LiveRecords.Proofs.Record.Copies
import LiveRecords.Proofs.Container.Unfolding
import LiveRecords.Proofs.Record.Deriving
import LiveRecords.Proofs.Record.Apart
import LiveRecords.Proofs.Record.Refusals
import LiveRecords.Proofs.Record.Difference
