import RegisterMachine.Main
import RegisterMachine.Proofs.Effect
import RegisterMachine.Proofs.Reading
import RegisterMachine.Proofs.Handlers
import RegisterMachine.Proofs.Step
import RegisterMachine.Proofs.Calls
import RegisterMachine.Proofs.FailStop
import RegisterMachine.Proofs.Budget
import RegisterMachine.Proofs.Loading
import RegisterMachine.Proofs.Trailing
import RegisterMachine.Proofs.Invariant
import RegisterMachine.Proofs.Grammar
import RegisterMachine.Proofs.Meaning
import RegisterMachine.Proofs.Simulation
import RegisterMachine.Proofs.Scanning
import RegisterMachine.Proofs.Concatenation
import RegisterMachine.Proofs.Spelling
import RegisterMachine.Proofs.Encoding
import RegisterMachine.Proofs.HexRows
import RegisterMachine.Proofs.Refusal
import RegisterMachine.Proofs.Tools
import RegisterMachine.Proofs.Dialogue
import RegisterMachine.Proofs.Modes
import RegisterMachine.Proofs.Places
import RegisterMachine.Proofs.Viability
import RegisterMachine.Proofs.Pulls
import RegisterMachine.Proofs.Partition
import RegisterMachine.Proofs.Window
import RegisterMachine.Proofs.RoundTrip
import RegisterMachine.Proofs.Division
import RegisterMachine.Proofs.StraightLine
import RegisterMachine.Proofs.Wrapping
import RegisterMachine.Proofs.Relocation
import RegisterMachine.Proofs.Diagnosis
import RegisterMachine.Proofs.Evaluation
import RegisterMachine.Proofs.LongNumbers
import RegisterMachine.Proofs.Delivery
import RegisterMachine.Proofs.Listings
