/-!
The latch between the interrupt request line and the processor. A request first seen at one
instruction boundary is not taken before the next.
-/

namespace Pc8086.Cpu

inductive RequestLatch where
  | idle
  /-- Seen at the boundary before the current instruction. -/
  | pending
  /-- A whole instruction has passed since the request was seen. -/
  | waited
  deriving DecidableEq, Inhabited

namespace RequestLatch

/-- Looks at the line at a boundary; true if the request may be taken now. -/
def sample (l : RequestLatch) (line : Bool) : Bool × RequestLatch :=
  if line then
    match l with
    | idle => (false, pending)
    | pending => (false, pending)
    | waited => (true, waited)
  else (false, idle)

def retire : RequestLatch → RequestLatch
  | pending => waited
  | l => l

def delivered (_ : RequestLatch) : RequestLatch :=
  idle

end RequestLatch

end Pc8086.Cpu
