import DualIssue.Fault

/-!
# Edit distance

How much of a block has moved, as a percentage, and its text with a fixed number of decimal places.
-/

namespace DualIssue

/-- The number of positions whose slot is another one. -/
def movedCount (order : List Slot) : Nat :=
  (order.zipIdx.filter fun (slot, position) => slot ≠ position).length

/-- The percentage of positions whose slot is another one; zero for the empty order. The count is
scaled before it is divided, so there is one rounding. -/
def editDistance (order : List Slot) : Float :=
  if order.isEmpty then 0.0
  else (movedCount order).toFloat * 100.0 / order.length.toFloat

/-- The nearest whole number to a quotient; a half goes to the even neighbour. -/
def roundDiv (num den : Nat) : Nat :=
  let q := num / den
  let r := num % den
  if 2 * r < den then q
  else if den < 2 * r then q + 1
  else if q % 2 = 0 then q else q + 1

/-- A finite non-negative double as the quotient of two whole numbers. With a nonzero exponent field its
value is the significand, `2 ^ 52` plus the low 52 bits, times two to the field less 1075. -/
def quotient (x : Float) : Nat × Nat :=
  let bits := x.toBits.toNat
  let exponent := (bits >>> 52) % 2048
  let fraction := bits % (1 <<< 52)
  if exponent = 0 then (fraction, 1 <<< 1074)
  else ((fraction + (1 <<< 52)) <<< (exponent - 1075), 1 <<< (1075 - exponent))

/-- A finite non-negative double with a fixed number of decimal places, at least one. The exact value
is rounded, a half to the even neighbour. -/
def fixedText (places : Nat) (x : Float) : String :=
  let (num, den) := quotient x
  let unit := Nat.pow 10 places
  let scaled := roundDiv (num * unit) den
  let digits := toString (scaled % unit)
  toString (scaled / unit) ++ "."
    ++ String.ofList (List.replicate (places - digits.length) '0') ++ digits

end DualIssue
