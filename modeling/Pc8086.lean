import Pc8086.Cpu.RegisterName
import Pc8086.Main
import Pc8086.Proofs.Cpu.Delivery
import Pc8086.Proofs.Cpu.RepetitionRun
import Pc8086.Proofs.Interrupt.Stranding
import Pc8086.Snapshot.Basic
import Pc8086.Proofs.Interrupt.Cascade
import Pc8086.Proofs.Interrupt.Balance
import Pc8086.Proofs.Interrupt.Arrival
import Pc8086.Proofs.Interrupt.Rotation
import Pc8086.Proofs.Interrupt.Genuine
import Pc8086.Proofs.Timer.Reloading
import Pc8086.Proofs.Machine.Resumption
import Pc8086.Proofs.Cpu.PackedFlags
import Pc8086.Proofs.Cpu.Stack
import Pc8086.Proofs.Cpu.InterruptReturn
import Pc8086.Proofs.Cpu.Leftover
import Pc8086.Proofs.Cpu.Shadow
import Pc8086.Proofs.Cpu.Atomicity
import Pc8086.Proofs.Machine.Failures
import Pc8086.Proofs.Cpu.Reordering
import Pc8086.Proofs.Cpu.Reencoding
import Pc8086.Proofs.Interrupt.Consistency
import Pc8086.Proofs.Machine.Run
import Pc8086.Proofs.Cpu.Termination
import Pc8086.Proofs.Board.TimerInterrupt
import Pc8086.Proofs.Machine.Tracing
import Pc8086.Proofs.Machine.Listing
import Pc8086.Proofs.Cpu.UpperHalves
import Pc8086.Proofs.Cpu.NarrowExecution
import Pc8086.Proofs.Cpu.NarrowDecoding
import Pc8086.Proofs.Cpu.UnseenHalves
import Pc8086.Proofs.Interrupt.Polling
import Pc8086.Proofs.Board.Installation
import Pc8086.Proofs.Cpu.Vectoring
import Pc8086.Proofs.Cpu.Conditions
import Pc8086.Proofs.Cpu.MultiWord
import Pc8086.Proofs.Cpu.RepeatedShifts
import Pc8086.Proofs.Cpu.MultiplyDivide
import Pc8086.Proofs.Cpu.DecimalChain
import Pc8086.Proofs.Cpu.OperandDecoding
import Pc8086.Proofs.Cpu.PushEncodings
import Pc8086.Proofs.Cpu.PushedValues
import Pc8086.Proofs.Cpu.StackFrames
import Pc8086.Proofs.Cpu.StackPairs
import Pc8086.Proofs.Interrupt.Programming
import Pc8086.Proofs.Cpu.FlagFrame
import Pc8086.Proofs.Timer.Latching
import Pc8086.Proofs.Memory.Transfers
import Pc8086.Proofs.Cpu.RegisterStorage
