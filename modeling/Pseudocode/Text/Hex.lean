namespace Pseudocode.Hex

def digits (n : Nat) : String :=
  String.ofList (Nat.toDigits 16 n)

def padded (width n : Nat) : String :=
  let ds := Nat.toDigits 16 n
  String.ofList (List.replicate (width - ds.length) '0' ++ ds)

def literal (n : Nat) : String :=
  "0x" ++ digits n

def signed (n : Int) : String :=
  if n < 0 then "-" ++ literal n.natAbs else literal n.natAbs

end Pseudocode.Hex
