namespace Pc8086.Text

/-- The value of a digit; letters of either case follow nine. -/
def digitValue? (c : Char) : Option Nat :=
  if c.isDigit then some (c.toNat - '0'.toNat)
  else if 'a' ≤ c ∧ c ≤ 'f' then some (c.toNat - 'a'.toNat + 10)
  else if 'A' ≤ c ∧ c ≤ 'F' then some (c.toNat - 'A'.toNat + 10)
  else none

def digit? (radix : Nat) (c : Char) : Option Nat :=
  (digitValue? c).filter (· < radix)

def natural? (radix : Nat) (ds : List Char) : Option Nat :=
  if ds.isEmpty then none else ds.foldlM (fun n c => (digit? radix c).map (radix * n + ·)) 0

end Pc8086.Text
