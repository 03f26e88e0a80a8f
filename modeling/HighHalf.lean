import HighHalf.Address.Phys
import HighHalf.Address.Range
import HighHalf.Address.Virt
import HighHalf.Address.Window
import HighHalf.Bench
import HighHalf.Board.Basic
import HighHalf.Board.Bytes
import HighHalf.Board.Event
import HighHalf.Board.Processor
import HighHalf.Board.Ram
import HighHalf.Board.Report
import HighHalf.Control.Encoding
import HighHalf.Control.Sequence
import HighHalf.Descriptor.Entry
import HighHalf.Descriptor.Flags
import HighHalf.Descriptor.Table
import HighHalf.Fatal
import HighHalf.Frames.Allocate
import HighHalf.Frames.Basic
import HighHalf.Frames.Error
import HighHalf.Frames.Ring
import HighHalf.Frames.Setup
import HighHalf.Frames.Summary
import HighHalf.Ledger
import HighHalf.Log
import HighHalf.Platform
import HighHalf.Register
import HighHalf.Relocation
import HighHalf.SampleBoard
import HighHalf.Serial.Console
import HighHalf.Serial.KernelLog
import HighHalf.Serial.Uart
import HighHalf.Space.Basic
import HighHalf.Space.Boot
import HighHalf.Space.Request
import HighHalf.Syndrome
import HighHalf.Tables.Error
import HighHalf.Tables.Map
import HighHalf.Tables.Walk
import HighHalf.Transition.Cause
import HighHalf.Transition.Phase
import HighHalf.Transition.Region
import HighHalf.Transition.Run
import HighHalf.Word
import HighHalf.Proofs.Address.Canonical
import HighHalf.Proofs.Board.Bank
import HighHalf.Proofs.Board.Steps
import HighHalf.Proofs.Boot.Bypass
import HighHalf.Proofs.Boot.Course
import HighHalf.Proofs.Boot.Footprint
import HighHalf.Proofs.Boot.Readback
import HighHalf.Proofs.Boot.Resolved
import HighHalf.Proofs.Boot.SwitchMoments
import HighHalf.Proofs.Boot.Verdict
import HighHalf.Proofs.Control.Refusal
import HighHalf.Proofs.Control.Registers
import HighHalf.Proofs.Frames.Bitmap
import HighHalf.Proofs.Frames.Contract
import HighHalf.Proofs.Frames.Custody
import HighHalf.Proofs.Frames.Effects
import HighHalf.Proofs.Frames.FirstFit
import HighHalf.Proofs.Frames.Lifetime
import HighHalf.Proofs.Frames.Overhang
import HighHalf.Proofs.Frames.Ownership
import HighHalf.Proofs.Frames.Plan
import HighHalf.Proofs.Frames.Provision
import HighHalf.Proofs.Frames.Recollection
import HighHalf.Proofs.Frames.Requests
import HighHalf.Proofs.Frames.Setup
import HighHalf.Proofs.Ledger.Agreement
import HighHalf.Proofs.Ledger.Conflicts
import HighHalf.Proofs.Relocation.Pointers
import HighHalf.Proofs.Relocation.Reapplied
import HighHalf.Proofs.Serial.Transmission
import HighHalf.Proofs.Space.Answers
import HighHalf.Proofs.Space.BeforeBoot
import HighHalf.Proofs.Space.Devices
import HighHalf.Proofs.Space.Halves
import HighHalf.Proofs.Space.Invalidation
import HighHalf.Proofs.Space.Lending
import HighHalf.Proofs.Space.Lifetime
import HighHalf.Proofs.Space.TreesKept
import HighHalf.Proofs.Tables.Closure
import HighHalf.Proofs.Tables.Cost
import HighHalf.Proofs.Tables.Descriptors
import HighHalf.Proofs.Tables.Mapping
import HighHalf.Proofs.Tables.Narrowing
import HighHalf.Proofs.Tables.Overlay
import HighHalf.Proofs.Tables.Passes
import HighHalf.Proofs.Tables.Permanence
import HighHalf.Proofs.Tables.Publication
import HighHalf.Proofs.Tables.Ranges
import HighHalf.Proofs.Tables.Reversal
import HighHalf.Proofs.Tables.Runs
import HighHalf.Proofs.Tables.Tree
import HighHalf.Proofs.Transition.Building
import HighHalf.Proofs.Transition.Checks
import HighHalf.Proofs.Transition.Dual
import HighHalf.Proofs.Transition.Faithful
import HighHalf.Proofs.Transition.GivenUp
import HighHalf.Proofs.Transition.Pages
import HighHalf.Proofs.Transition.Prepared
import HighHalf.Proofs.Transition.Success
import HighHalf.Proofs.Transition.Switch
import HighHalf.Proofs.Window.Mapper
import HighHalf.Proofs.Window.Mirror
import HighHalf.Proofs.Window.Shifts
