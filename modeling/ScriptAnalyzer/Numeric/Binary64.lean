/-!
Double-precision numbers by their bits.

A positive value is `q * 2 ^ e` with `q < 2 ^ 53` and `-1074 ≤ e`, and `q` has 53 bits unless `e` is
least. Its bit pattern, read as a number, is `(e + 1074) * 2 ^ 52 + q`; a `q` that rounding carried
to `2 ^ 53` yields the pattern of the next exponent by the same formula.
-/

namespace ScriptAnalyzer.Binary64

def infinity : Nat := 0x7FF0000000000000

/-- The integer nearest to `num / den`; a tie goes to the even one. -/
def roundDiv (num den : Nat) : Nat :=
  let q := num / den
  let r := num % den
  if 2 * r < den then q
  else if den < 2 * r then q + 1
  else if q % 2 = 0 then q else q + 1

/-- The quotient `num / den` in units of `2 ^ (k - 1074)`, as numerator and denominator. -/
def scaled (num den k : Nat) : Nat × Nat :=
  if k ≤ 1074 then (num <<< (1074 - k), den) else (num, den <<< (k - 1074))

/-- The bits of the value nearest to `num / den`, for positive `num` and `den`. -/
def ofQuotient (num den : Nat) : UInt64 :=
  -- the exponent at which the quotient has 53 bits, or one less than that
  let k := num.log2 + 1074 - den.log2 - 53
  let s := scaled num den k
  let k := if s.1 < s.2 <<< 53 then k else k + 1
  let s := scaled num den k
  (min (k <<< 52 + roundDiv s.1 s.2) infinity).toUInt64

/-! Values without a sign, and their products and quotients. -/

/-- The bit that tells a negative value, and negative zero, from its magnitude. -/
def signBit : UInt64 := 0x8000000000000000

def quotient (bits : UInt64) : Nat × Nat :=
  let field := bits.toNat >>> 52
  let fraction := bits.toNat % 1 <<< 52
  let q := if field = 0 then fraction else 1 <<< 52 + fraction
  let k := field - 1
  if k ≤ 1074 then (q, 1 <<< (1074 - k)) else (q <<< (k - 1074), 1)

def mul (a b : UInt64) : UInt64 :=
  let (n, d) := quotient a
  let (m, e) := quotient b
  if n * m = 0 then 0 else ofQuotient (n * m) (d * e)

/-- The value of `a / b`, for a `b` that is not zero. -/
def div (a b : UInt64) : UInt64 :=
  let (n, d) := quotient a
  let (m, e) := quotient b
  if n = 0 then 0 else ofQuotient (n * e) (d * m)

def digitsValue (digits : List Char) : Nat :=
  digits.foldl (fun n c => 10 * n + (c.toNat - '0'.toNat)) 0

/-- The bits of the value nearest to `digits * 10 ^ exponent`. Beyond the range of the format the
power is not computed. -/
def ofDecimal (digits : Nat) (exponent : Int) : UInt64 :=
  if digits = 0 then 0
  else
    let magnitude := exponent + (Nat.log2 digits / 3 : Nat)
    if 400 < exponent then infinity.toUInt64
    else if magnitude < -400 then 0
    else if 0 ≤ exponent then ofQuotient (digits * Nat.pow 10 exponent.toNat) 1
    else ofQuotient digits (Nat.pow 10 (-exponent).toNat)

/-- Reads a numeral: digits, a fraction and an exponent, the latter two optional. -/
def ofNumeral (text : List Char) : UInt64 :=
  let isDigit (c : Char) : Bool := '0' ≤ c && c ≤ '9'
  let whole := text.takeWhile isDigit
  let rest := text.dropWhile isDigit
  let (fraction, rest) :=
    match rest with
    | '.' :: rest => (rest.takeWhile isDigit, rest.dropWhile isDigit)
    | _ => ([], rest)
  let exponent : Int :=
    match rest with
    | _ :: '-' :: ds => -(digitsValue ds : Int)
    | _ :: '+' :: ds => digitsValue ds
    | _ :: ds => digitsValue ds
    | [] => 0
  ofDecimal (digitsValue (whole ++ fraction)) (exponent - fraction.length)

def hex (bits : UInt64) : String :=
  let digits := Nat.toDigits 16 bits.toNat
  String.ofList (List.replicate (16 - digits.length) '0' ++ digits)

end ScriptAnalyzer.Binary64
