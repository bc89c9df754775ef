namespace Pc8086.Text

/-- The shortest text of `n`; zero is one digit. -/
def hex (n : Nat) : String :=
  String.ofList ((Nat.toDigits 16 n).map Char.toUpper)

def hexPadded (width n : Nat) : String :=
  String.ofList (((Nat.toDigits 16 n).map Char.toUpper).leftpad width '0')

/-- Two digits per byte, in order, with `sep` between neighbours. -/
def hexJoined (sep : String) (bytes : List UInt8) : String :=
  sep.intercalate (bytes.map fun b => hexPadded 2 b.toNat)

def hexBytes (bytes : List UInt8) : String :=
  hexJoined "" bytes

def padRight (width : Nat) (s : String) : String :=
  String.ofList (s.toList.rightpad width ' ')

end Pc8086.Text
