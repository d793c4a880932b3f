import ScriptAnalyzer.Text.Span
import ScriptAnalyzer.Typing.Ty

/-!
Format strings: the arguments that their placeholders ask for.

A placeholder is a percent sign, flags and a width, which are skipped, and a conversion character.
-/

namespace ScriptAnalyzer
namespace Format

/-- The functions of the core library whose first argument is a format string. -/
def functions : List String := ["printf", "printfn", "sprintf", "failwithf"]

inductive Conversion where
  | percent
  | typed (type : Ty)
  | any
deriving DecidableEq, Repr

def Conversion.ofChar? : Char → Option Conversion
  | '%' => some percent
  | 's' => some (typed .string)
  | 'd' | 'i' => some (typed .int)
  | 'f' | 'g' | 'e' => some (typed .float)
  | 'b' => some (typed .bool)
  | 'c' => some (typed .char)
  | 'A' | 'O' => some any
  | _ => none

/-- A placeholder that is none: where it starts in the contents of the string, and its conversion
character, if the string does not end in front of it. -/
structure BadPlaceholder where
  offset : Nat
  conversion : Option Char
deriving DecidableEq, Repr

def isFlag (c : Char) : Bool :=
  c == '-' || c == '+' || c == ' ' || c == '.' || ('0' ≤ c && c ≤ '9')

/-- The placeholders of a text that starts at `offset`; `opener?` is the offset of the percent sign
whose placeholder the text continues. -/
def conversions (offset : Nat) : (opener? : Option Nat) → Text → Except BadPlaceholder (List Conversion)
  | none, [] => .ok []
  | some start, [] => .error ⟨start, none⟩
  | none, c :: cs =>
    conversions (offset + c.utf8Size) (if c = '%' then some offset else none) cs
  | some start, c :: cs =>
    if isFlag c then conversions (offset + c.utf8Size) (some start) cs
    else match Conversion.ofChar? c with
      | none => .error ⟨start, some c⟩
      | some conversion =>
        (conversions (offset + c.utf8Size) none cs).map (conversion :: ·)

/-- The placeholders of a format string that take an argument. -/
def arguments (format : Text) : Except BadPlaceholder (List Conversion) :=
  (conversions 0 none format).map (·.filter (· != .percent))

end Format
end ScriptAnalyzer
