import ScriptAnalyzer.Numeric.Shortest

/-!
Numbers in JSON texts. A numeral without a point and an exponent is an integer, if 64 bits hold it; any
other one is a double-precision number.
-/

namespace ScriptAnalyzer.Numeral

/-! Reading -/

/-- The digits that are taken into a number of 64 bits, and how many are left behind. The digits from the
first one on that does not fit are left behind. -/
def absorb (n : Nat) : List Char → Nat × Nat
  | [] => (n, 0)
  | d :: ds =>
    let m := 10 * n + (d.toNat - '0'.toNat)
    if m < 1 <<< 64 then absorb m ds else (n, ds.length + 1)

def powerOfTen (n : Nat) : UInt64 := Binary64.ofQuotient (Nat.pow 10 n) 1

/-- Divides by a power of ten, by parts if the power is out of range. -/
def divide (f : UInt64) (n : Nat) : UInt64 :=
  if n ≤ 308 then Binary64.div f (powerOfTen n)
  else if f = 0 then 0
  else divide (Binary64.div f (powerOfTen 308)) (n - 308)
termination_by n

/-- The double-precision number for `n * 10 ^ exponent`. It is rounded at each step, and need not be the
nearest one. None if it is out of range. -/
def scale? (n : Nat) (exponent : Int) : Option UInt64 :=
  let f := if n = 0 then 0 else Binary64.ofQuotient n 1
  if exponent < 0 then some (divide f (-exponent).toNat)
  else if f = 0 then some 0
  else if 308 < exponent then none
  else
    let f := Binary64.mul f (powerOfTen exponent.toNat)
    if f.toNat = Binary64.infinity then none else some f

structure Parts where
  isNegative : Bool
  whole : List Char
  places : List Char := []
  power : Option Int := none

namespace Parts

/-- The integer that the numeral stands for; zero has no sign, and a numeral that has one is none. -/
def integer? (p : Parts) : Option Int :=
  if !p.places.isEmpty || p.power.isSome then none
  else match absorb 0 p.whole with
  | (n, 0) =>
    if !p.isNegative then some n
    else if 0 < n && n ≤ 1 <<< 63 then some (-n)
    else none
  | _ => none

/-- The bits of the number that the numeral stands for. Digits that do not fit are dropped; behind dropped
whole digits, places can fit again. -/
def float? (p : Parts) : Option UInt64 :=
  let (n, dropped) := absorb 0 p.whole
  let (n, unused) := absorb n p.places
  let exponent : Int := dropped - (p.places.length - unused : Nat) + p.power.getD 0
  (scale? n exponent).map fun f => if p.isNegative then f ||| Binary64.signBit else f

end Parts

/-! Writing -/

/-- Decimals from `0.00001` on with up to sixteen digits before the point are written without an exponent.
Those have a digit behind the point. -/
def decimalText (d : Decimal) : String :=
  let digits := Nat.toDigits 10 d.digits
  let point := digits.length + d.exponent
  let zeros (n : Int) := List.replicate n.toNat '0'
  if 0 ≤ d.exponent && point ≤ 16 then String.ofList (digits ++ zeros d.exponent) ++ ".0"
  else if 0 < point && point ≤ 16 then
    String.ofList (digits.take point.toNat) ++ "." ++ String.ofList (digits.drop point.toNat)
  else if -5 < point && point ≤ 0 then "0." ++ String.ofList (zeros (-point) ++ digits)
  else
    let places := digits.drop 1
    String.ofList (digits.take 1) ++ (if places.isEmpty then "" else "." ++ String.ofList places) ++
      (if point < 1 then "e" else "e+") ++ toString (point - 1)

/-- The text of a finite number, by the fewest digits that it is read back from. -/
def floatText (bits : UInt64) : String :=
  let magnitude := bits &&& ~~~Binary64.signBit
  (if magnitude = bits then "" else "-") ++
    if magnitude = 0 then "0.0" else decimalText (Decimal.shortest magnitude)

end ScriptAnalyzer.Numeral
