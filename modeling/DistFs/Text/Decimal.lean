/-!
# Decimal numbers

What a run of decimal digits stands for, and which decimal numbers are too large for a double.
-/

namespace DistFs.Decimal

def ofDigits (digits : List Char) : Nat := digits.foldl (fun n d => n * 10 + (d.toNat - 48)) 0

def limit : Nat := (1 <<< 1024) - (1 <<< 970)

def isFinite (digits : List Char) (power : Int) : Bool :=
  let n := ofDigits digits
  if n = 0 then true
  else if power ≤ 0 then n < limit * Nat.pow 10 (min (-power).toNat (digits.length + 1))
  else if power > 400 then false
  else n * Nat.pow 10 power.toNat < limit

end DistFs.Decimal
