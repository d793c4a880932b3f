import ScriptAnalyzer.Syntax.Error
import ScriptAnalyzer.Token.Lexer

/-!
Layout: the tokens that the grammar is about, with their place on the line.

Comments are left out, and so is every token inside a conditional region whose condition does not
hold. A region starts with `#if NAME` and ends with `#endif`; `#else` turns the innermost region
over. The rest of a conditional's line belongs to no branch. A token starts its line if no earlier
token that is kept stands on that line.
-/

namespace ScriptAnalyzer

/-- A token with its column, and whether it is the first on its line. -/
structure LaidToken where
  token : Token
  span : Span
  column : Nat
  lineStart : Bool
deriving DecidableEq, Repr, Inhabited

/-- An open conditional region: whether its current branch is active, and its `#if`. -/
structure Region where
  active : Bool
  opener : Span
deriving DecidableEq, Repr

namespace Layout

/-- Whether `offset` lies on the line of `start`, for an offset behind `start`. -/
def sameLine (text : Text) (start offset : Nat) : Bool :=
  (text.positionOf start).line == (text.positionOf offset).line

inductive Conditional where
  | ifBranch | elseBranch | endRegion
deriving DecidableEq, Repr

def Conditional.ofToken? : Token → Option Conditional
  | .directive "#if" => some .ifBranch
  | .directive "#else" => some .elseBranch
  | .directive "#endif" => some .endRegion
  | _ => none

/-- The name behind an `#if`, on the same line. -/
def condition? (text : Text) (start : Nat) : List (Token × Span) → Option String
  | (.ident name, span) :: _ => if sameLine text start span.start then some name else none
  | _ => none

def unmatched (directive : String) (span : Span) : SyntaxError :=
  { cause := .unmatchedConditional directive, span }

/-- The regions behind a conditional directive, innermost first, and the errors it causes. -/
def Conditional.apply (text : Text) (defines : List String) (span : Span)
    (rest : List (Token × Span)) (regions : List Region) :
    Conditional → List Region × List SyntaxError
  | .ifBranch =>
    match condition? text span.start rest with
    | some name => (⟨defines.contains name, span⟩ :: regions, [])
    | none =>
      (⟨false, span⟩ :: regions,
        [{ cause := .invalidDirective "#if", span, hint := some "write `#if SYMBOL`" }])
  | .elseBranch =>
    match regions with
    | r :: outer => ({ r with active := !r.active } :: outer, [])
    | [] => ([], [unmatched "#else" span])
  | .endRegion =>
    match regions with
    | _ :: outer => (outer, [])
    | [] => ([], [unmatched "#endif" span])

/-- The error of a text that is no token. -/
def lexicalError (text : Text) (span : Span) : SyntaxError :=
  match (span.slice? text).getD [] with
  | '(' :: '*' :: _ =>
    { cause := .unterminatedComment, span := ⟨span.start, span.start + 2⟩
      hint := some "close the comment with `*)`" }
  | c :: _ => { cause := .unexpectedChar c, span }
  | [] => { cause := .unexpectedChar '\x00', span }

/-- The tokens of active text and the lexical errors, in the order of the text. The regions that
stay open at its end are errors too, outermost first. -/
def activeTokens (text : Text) (defines : List String) (regions : List Region) :
    List (Token × Span) → List (Token × Span) × List SyntaxError
  | [] =>
    ([], regions.reverse.map fun r =>
      { unmatched "#if" r.opener with hint := some "add a matching `#endif`" })
  | (token, span) :: rest =>
    if token.isComment then activeTokens text defines regions rest
    else match Conditional.ofToken? token with
    | some conditional =>
      let (regions, errors) := conditional.apply text defines span rest regions
      let later := rest.dropWhile fun t => sameLine text span.start t.2.start
      let (tokens, laterErrors) := activeTokens text defines regions later
      (tokens, errors ++ laterErrors)
    | none =>
      let (tokens, errors) := activeTokens text defines regions rest
      if regions.all (·.active) then
        match token with
        | .error => (tokens, lexicalError text span :: errors)
        | .unclosedString _ => ((token, span) :: tokens, { cause := .unclosedString, span } :: errors)
        | _ => ((token, span) :: tokens, errors)
      else (tokens, errors)
termination_by tokens => tokens.length
decreasing_by
  · simp
  · exact Nat.lt_succ_of_le (List.dropWhile_sublist _).length_le
  · simp

/-- Adds the columns; `line?` is the line of the token before. -/
def place (text : Text) (line? : Option Nat) : List (Token × Span) → List LaidToken
  | [] => []
  | (token, span) :: rest =>
    let p := text.positionOf span.start
    { token, span, column := p.character, lineStart := line? != some p.line } ::
      place text (some p.line) rest

end Layout

/-- The end of a text as a token: it starts a line in the first column. -/
def LaidToken.endOf (size : Nat) : LaidToken :=
  { token := .eof, span := .empty size, column := 0, lineStart := true }

/-- The tokens that the grammar is about, without the end of the text, and the lexical errors. -/
def significantTokens (text : Text) (defines : List String) : List LaidToken × List SyntaxError :=
  let (tokens, errors) := Layout.activeTokens text defines [] (Token.tokens text)
  (Layout.place text none tokens, errors)

end ScriptAnalyzer
