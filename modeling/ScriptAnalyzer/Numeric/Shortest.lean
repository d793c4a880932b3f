import ScriptAnalyzer.Numeric.Binary64

/-!
The shortest decimals that double-precision numbers are read back from.
-/

namespace ScriptAnalyzer

structure Decimal where
  digits : Nat
  exponent : Int
deriving DecidableEq, Repr

namespace Decimal

def width (n : Nat) : Nat := (Nat.toDigits 10 n).length

/-- The exponent of the first digit of `num / den`, which are positive. -/
def leadingExponent (num den : Nat) : Int :=
  if den ≤ num then width (num / den) - 1 else -width ((den - 1) / num)

/-- The two multiples of `10 ^ exponent` around `num / den`, the nearer one first, and of two equally
near ones the even one. -/
def neighbours (num den : Nat) (exponent : Int) : List Decimal :=
  let (num, den) := if 0 ≤ exponent then (num, den * Nat.pow 10 exponent.toNat)
    else (num * Nat.pow 10 (-exponent).toNat, den)
  let below := num / den
  let pair := if Binary64.roundDiv num den = below then [below, below + 1] else [below + 1, below]
  pair.map (⟨·, exponent⟩)

def trimmed (d : Decimal) : Decimal :=
  let zeros := ((Nat.toDigits 10 d.digits).reverse.takeWhile (· = '0')).length
  ⟨d.digits / Nat.pow 10 zeros, d.exponent + zeros⟩

/-- The decimal with the fewest digits that a positive finite value is read back from; seventeen digits
are enough. Of several the nearest one. -/
def shortest (bits : UInt64) : Decimal :=
  let (num, den) := Binary64.quotient bits
  let top := leadingExponent num den
  let found := (List.range 17).findSome? fun (n : Nat) =>
    (neighbours num den (top - n)).find? fun d => Binary64.ofDecimal d.digits d.exponent = bits
  (found.getD ⟨0, 0⟩).trimmed

end Decimal
end ScriptAnalyzer
