import ChipEight.Main
import ChipEight.Clock
import ChipEight.Frame.Texture
import ChipEight.Instruction.Encode
import ChipEight.Keyboard
import ChipEight.Session
import ChipEight.Proofs.History
import ChipEight.Proofs.Rounds
import ChipEight.Proofs.Effects
import ChipEight.Proofs.WellFormed
import ChipEight.Proofs.Confinement
import ChipEight.Proofs.KeyWait
import ChipEight.Proofs.Buzzer
import ChipEight.Proofs.InstructionSet
import ChipEight.Proofs.Faults
import ChipEight.Proofs.Calls
import ChipEight.Proofs.Composition
import ChipEight.Proofs.Observation
import ChipEight.Proofs.Failures
import ChipEight.Proofs.HandDriven
import ChipEight.Proofs.Interleaving
import ChipEight.Proofs.Numerals
import ChipEight.Proofs.Messages
import ChipEight.Proofs.Assembler
import ChipEight.Proofs.Drawing
import ChipEight.Proofs.Randomness
import ChipEight.Proofs.Countdown
import ChipEight.Proofs.Trace
import ChipEight.Proofs.Parity
import ChipEight.Proofs.Pixels
import ChipEight.Proofs.BlockTransfer
import ChipEight.Proofs.Checks.Numbers
import ChipEight.Proofs.Checks.State
import ChipEight.Proofs.Checks.Loops
import ChipEight.Proofs.Checks.Execution
import ChipEight.Proofs.Checks.Machine
import ChipEight.Proofs.Arithmetic
import ChipEight.Proofs.ControlFlow
import ChipEight.Proofs.WriteSets
import ChipEight.Proofs.Checks.Clock
import ChipEight.Proofs.Loading
import ChipEight.Proofs.Decimal
import ChipEight.Proofs.Reports
import ChipEight.Proofs.Picture
import ChipEight.Proofs.Utf8
import ChipEight.Proofs.Listing
import ChipEight.Proofs.KeyHistory
