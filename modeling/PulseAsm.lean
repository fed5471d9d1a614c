import PulseAsm.Analysis.Report
import PulseAsm.Analysis.Text
import PulseAsm.Binary
import PulseAsm.Binary64.Basic
import PulseAsm.Binary64.Shortest
import PulseAsm.Board.Basic
import PulseAsm.Board.Reader
import PulseAsm.Board.Units
import PulseAsm.Command.Arguments
import PulseAsm.Command.Assembler
import PulseAsm.Command.Basic
import PulseAsm.Command.Disassembler
import PulseAsm.Device
import PulseAsm.Envelope
import PulseAsm.Error
import PulseAsm.Instr.Basic
import PulseAsm.Instr.Decoding
import PulseAsm.Instr.Encoding
import PulseAsm.Instr.Immediate
import PulseAsm.Instr.Listing
import PulseAsm.Isa.Field
import PulseAsm.Isa.Operator
import PulseAsm.Isa.Table
import PulseAsm.Json.Basic
import PulseAsm.Json.Parser
import PulseAsm.Json.Printer
import PulseAsm.Json.Reader
import PulseAsm.LittleEndian
import PulseAsm.Machine
import PulseAsm.Main
import PulseAsm.Program.Basic
import PulseAsm.Program.Builder
import PulseAsm.Program.Script
import PulseAsm.Pulse.Basic
import PulseAsm.Pulse.Params
import PulseAsm.Register
import PulseAsm.Text.Printable
import PulseAsm.Text.Quoted
import PulseAsm.Text.Radix
import PulseAsm.Text.UpperCase
import PulseAsm.Timeline
import PulseAsm.Wave
import PulseAsm.Proofs.Isa.Layout
import PulseAsm.Proofs.Keys
import PulseAsm.Proofs.Instr.RoundTrip
import PulseAsm.Proofs.Program.Build
import PulseAsm.Proofs.Program.Edits
import PulseAsm.Proofs.Image
import PulseAsm.Proofs.Program.Addresses
import PulseAsm.Proofs.Instr.Operands
import PulseAsm.Proofs.Machine.Execution
import PulseAsm.Proofs.Machine.Straight
import PulseAsm.Proofs.Program.Load
import PulseAsm.Proofs.Program.Growth
import PulseAsm.Proofs.Machine.Flow
import PulseAsm.Proofs.Program.Blocks
import PulseAsm.Proofs.Program.Loops
import PulseAsm.Proofs.Instr.NormalForm
import PulseAsm.Proofs.Analysis.Sweep
import PulseAsm.Proofs.Analysis.Reassembly
import PulseAsm.Proofs.Board
import PulseAsm.Proofs.Program.Encodable
import PulseAsm.Proofs.Timeline
import PulseAsm.Proofs.Program.OutputCode
import PulseAsm.Proofs.Program.Outputs
import PulseAsm.Proofs.Program.Windows
import PulseAsm.Proofs.Analysis.Reachability
import PulseAsm.Proofs.Program.Faults
import PulseAsm.Proofs.Program.Persistence
import PulseAsm.Proofs.Program.Calls
import PulseAsm.Proofs.Program.Branches
import PulseAsm.Proofs.Machine.Frame
import PulseAsm.Proofs.Program.Reservation
import PulseAsm.Proofs.Program.Waves
import PulseAsm.Proofs.Program.Firing
import PulseAsm.Proofs.Machine.Safety
import PulseAsm.Proofs.Analysis.Relisting
import PulseAsm.Proofs.Program.Labels
import PulseAsm.Proofs.Envelope
import PulseAsm.Proofs.Program.Triggers
import PulseAsm.Proofs.Analysis.Report
import PulseAsm.Proofs.Wave
import PulseAsm.Proofs.Params
import PulseAsm.Proofs.Machine.Limits
import PulseAsm.Proofs.Alignment
import PulseAsm.Proofs.Transport
import PulseAsm.Proofs.Instr.Listing
