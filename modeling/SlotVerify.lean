import SlotVerify.Main
import SlotVerify.Proofs.CommandLine.Overwriting
import SlotVerify.Proofs.Fec.Burst
import SlotVerify.Proofs.Fec.Tiling
import SlotVerify.Proofs.Fec.Tables
import SlotVerify.Proofs.HashTree.Binding
import SlotVerify.Proofs.Plan.RoundTrip
import SlotVerify.Proofs.Verification.Signal
import SlotVerify.Proofs.Task.Cancellation
import SlotVerify.Proofs.Task.Delivery
import SlotVerify.Proofs.Task.Turns
import SlotVerify.Proofs.Task.Wakeups
import SlotVerify.Proofs.Verification.Failure
import SlotVerify.Proofs.Verification.Release
import SlotVerify.Proofs.Verification.Repetition
import SlotVerify.Task.Abort
import SlotVerify.Task.Script
import SlotVerify.Proofs.HashTree.Counting
import SlotVerify.Proofs.Verity.Initializing
import SlotVerify.Proofs.Verity.Updating
import SlotVerify.Proofs.Verity.Reuse
import SlotVerify.Proofs.CommandLine.HexText
import SlotVerify.Proofs.Fec.ReadCursor
import SlotVerify.Proofs.Machine.Chunks
import SlotVerify.Proofs.Machine.Handover
import SlotVerify.Proofs.Machine.Safety
import SlotVerify.Proofs.Machine.Stages
import SlotVerify.Proofs.Device.Traffic
