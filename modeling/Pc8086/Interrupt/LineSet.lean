namespace Pc8086.Interrupt

abbrev Line := Fin 8

instance Line.neZero : @NeZero Nat Zero.ofOfNat0 8 := ⟨by decide⟩

structure LineSet where
  byte : UInt8
  deriving DecidableEq, Inhabited

namespace LineSet

def empty : LineSet := ⟨0⟩

def full : LineSet := ⟨0xFF⟩

def mask (l : Line) : UInt8 :=
  1 <<< UInt8.ofNat l.val

def contains (s : LineSet) (l : Line) : Bool :=
  s.byte &&& mask l != 0

def insert (s : LineSet) (l : Line) : LineSet :=
  ⟨s.byte ||| mask l⟩

def erase (s : LineSet) (l : Line) : LineSet :=
  ⟨s.byte &&& ~~~mask l⟩

end LineSet

end Pc8086.Interrupt
