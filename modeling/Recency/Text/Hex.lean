/-
  Recency.Text.Hex — numbers in lower-case hexadecimal.
-/

namespace Recency.Text

/-- No leading zeros; zero is one digit. -/
def hex (n : Nat) : String := String.ofList (Nat.toDigits 16 n)

/-- Filled with zeros on the left to `width` digits. -/
def paddedHex (width n : Nat) : String :=
  let digits := Nat.toDigits 16 n
  String.ofList (List.replicate (width - digits.length) '0' ++ digits)

end Recency.Text
