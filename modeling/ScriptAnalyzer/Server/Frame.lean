/-!
Frames around messages: header lines that tell the number of bytes, an empty line, and the message.
-/

namespace ScriptAnalyzer
namespace Frame

def encode (message : String) : String :=
  "Content-Length: " ++ toString message.utf8ByteSize ++ "\r\n\r\n" ++ message

/-- The text of a header line, which ends with a carriage return and a line feed. -/
def headerText? (line : String) : Option (List Char) :=
  match line.toList.reverse with
  | '\n' :: '\r' :: text => some text.reverse
  | _ => none

/-- The parts of a text in front of the first colon that a blank follows, and behind them. -/
def headerParts? : List Char → Option (List Char × List Char)
  | [] => none
  | ':' :: ' ' :: value => some ([], value)
  | c :: cs => (headerParts? cs).map fun p => (c :: p.1, p.2)

/-- What the header lines of a frame have told. -/
inductive Header where
  /-- More lines follow; with the number of bytes, if it has been told. -/
  | lines (size : Option Nat)
  | complete (size : Nat)
  | malformed
deriving DecidableEq, Repr

def Header.add (h : Header) (line : String) : Header :=
  match h, headerText? line with
  | lines (some size), some [] => complete size
  | lines size, some text =>
    match headerParts? text with
    | none => malformed
    | some (name, value) =>
      if name.map Char.toLower = "content-length".toList then
        if !value.isEmpty && value.all Char.isDigit then
          lines (some (value.foldl (fun n c => 10 * n + (c.toNat - '0'.toNat)) 0))
        else malformed
      else lines size
  | _, _ => malformed

end Frame
end ScriptAnalyzer
