import ZMachine.Blueprint
import ZMachine.Host.Limited
import ZMachine.Host.Script
import ZMachine.Main
import ZMachine.Proofs.Action
import ZMachine.Proofs.Memory
import ZMachine.Proofs.Object.Chain
import ZMachine.Proofs.Object.Relink
import ZMachine.Proofs.Object.Store
import ZMachine.Proofs.Object.Loaded
import ZMachine.Proofs.Object.Moves
import ZMachine.Proofs.Text.Codec
import ZMachine.Proofs.Instruction.Decode
import ZMachine.Proofs.Machine.Effect
import ZMachine.Proofs.Machine.Handlers
import ZMachine.Proofs.Engine.Execute
import ZMachine.Proofs.Engine.Step
import ZMachine.Proofs.Engine.Calls
import ZMachine.Proofs.Object.Footprint
import ZMachine.Proofs.Engine.Run
import ZMachine.Proofs.Engine.Confinement
import ZMachine.Proofs.Engine.Endings
import ZMachine.Proofs.Machine.Condition
import ZMachine.Proofs.Machine.Routine
import ZMachine.Proofs.Engine.Outcome
import ZMachine.Proofs.Object.Coherence
import ZMachine.Proofs.Engine.Coherence
import ZMachine.Proofs.Blueprint.Patch
import ZMachine.Proofs.Blueprint.Sections
import ZMachine.Proofs.Blueprint.Objects
import ZMachine.Proofs.Blueprint.Properties
import ZMachine.Proofs.Blueprint.Dictionary
import ZMachine.Proofs.Blueprint.RoundTrip
import ZMachine.Proofs.Object.Forest
import ZMachine.Proofs.Dictionary.Search
import ZMachine.Proofs.Dictionary.Key
import ZMachine.Proofs.Dictionary.Agreement
import ZMachine.Proofs.Text.Bytes
import ZMachine.Proofs.Dictionary.Runs
import ZMachine.Proofs.Dictionary.Words
import ZMachine.Proofs.Dictionary.Token
import ZMachine.Proofs.Dictionary.Lookup
import ZMachine.Proofs.Faults
import ZMachine.Proofs.Machine.Faults
import ZMachine.Proofs.Engine.Books
import ZMachine.Proofs.Engine.Halting
import ZMachine.Proofs.Engine.Limit
import ZMachine.Proofs.Machine.Access
import ZMachine.Proofs.Engine.Safety
import ZMachine.Proofs.Text.Expansion
import ZMachine.Proofs.Machine.Spaces
import ZMachine.Proofs.Machine.Places
import ZMachine.Proofs.Engine.Variables
import ZMachine.Proofs.Engine.Hosts
import ZMachine.Proofs.Engine.Terminal
import ZMachine.Proofs.Machine.Typing
import ZMachine.Proofs.Engine.Typing
import ZMachine.Proofs.Object.Reached
import ZMachine.Proofs.Object.Atomicity
import ZMachine.Proofs.Object.Records
import ZMachine.Proofs.Object.Values
import ZMachine.Proofs.Object.Order
import ZMachine.Proofs.Object.Count
import ZMachine.Proofs.Dictionary.Listed
import ZMachine.Proofs.Object.Listing
import ZMachine.Proofs.Text.Unpacking
import ZMachine.Proofs.Text.Rereading
import ZMachine.Proofs.Engine.InlineText
