import ScriptAnalyzer.Proofs.Syntax.DeclarationShifts

/-!
An indented file. Its tokens are those of the file, moved, and the parser goes over them as over the file's own. It
only starts elsewhere: in front of the first token its last place and its offside column are zero in both files, so
neither may have an effect before a token is read.
-/

namespace ScriptAnalyzer
namespace Parser

open ParserState Shift

variable {α β : Type} {t : LaidToken} {n : Nat} {s : ParserState}

/-- The state in front of the first token `t` of a file, as the first of a declaration. -/
structure AtFirst (t : LaidToken) (s : ParserState) : Prop where
  rest : ∃ ts, s.rest = t :: ts
  lineStart : t.lineStart = true
  anchored : s.anchor = some s.rest.length

/-- What the parser does in front of `t` is the same wherever the token before it ends, or it reads nothing and
returns a result of the kind `Q`. -/
def Heedless (t : LaidToken) (Q : α → Prop) (p : Parser α) (s : ParserState) : Prop :=
  (∃ r, ∀ place ≤ t.span.start, p.run { s with prevEnd := place } = r) ∨
    ∃ a errors, Q a ∧ ∀ place ≤ t.span.start, p.run { s with prevEnd := place } = (a, { s with errors, prevEnd := place })

namespace AtFirst

theorem errors (h : AtFirst t s) (errors : List SyntaxError) : AtFirst t { s with errors } :=
  ⟨h.rest, h.lineStart, h.anchored⟩

theorem atEnd (h : AtFirst t s) : s.atEnd = false := by
  obtain ⟨ts, hrest⟩ := h.rest
  rw [ParserState.atEnd, hrest]
  rfl

theorem current (h : AtFirst t s) : s.current = t := by
  obtain ⟨ts, hrest⟩ := h.rest
  rw [ParserState.current, hrest]
  rfl

theorem peek (h : AtFirst t s) : s.peek = t.token := congrArg LaidToken.token h.current

theorem isOffside (h : AtFirst t s) : s.isOffside = false := by
  rw [ParserState.isOffside, h.atEnd, h.anchored, beq_self_eq_true, Bool.or_true]
  rfl

theorem advance (h : AtFirst t s) (place : Nat) :
    { s with prevEnd := place : ParserState }.advance = s.advance := by
  obtain ⟨ts, hrest⟩ := h.rest
  simp only [ParserState.advance, hrest]

end AtFirst

section Steps

variable {Q : α → Prop} {R : β → Prop} {p : Parser α} {F : α → Parser β}

theorem Heedless.bind (h : Heedless t Q p s) (hF : ∀ a errors, Q a → Heedless t R (F a) { s with errors }) :
    Heedless t R (p >>= F) s := by
  obtain ⟨r, h⟩ | ⟨a, errors, ha, h⟩ := h
  · exact .inl ⟨(F r.1).run r.2, fun place hplace => congrArg (fun r : α × ParserState => (F r.1).run r.2) (h place hplace)⟩
  · have hrun : ∀ place ≤ t.span.start, (p >>= F).run { s with prevEnd := place } =
        (F a).run { s with errors, prevEnd := place } :=
      fun place hplace => congrArg (fun r : α × ParserState => (F r.1).run r.2) (h place hplace)
    obtain ⟨r, hnext⟩ | ⟨b, errors', hb, hnext⟩ := hF a errors ha
    · exact .inl ⟨r, fun place hplace => (hrun place hplace).trans (hnext place hplace)⟩
    · exact .inr ⟨b, errors', hb, fun place hplace => (hrun place hplace).trans (hnext place hplace)⟩

theorem Heedless.andThen (h : Heedless t (fun _ => False) p s) (F : α → Parser β) : Heedless t R (p >>= F) s :=
  h.bind fun _ _ => False.elim

theorem heedless_pure {a : α} (h : Q a) : Heedless t Q (pure a) s := .inr ⟨a, s.errors, h, fun _ _ => rfl⟩

theorem heedless_get_eq {F : ParserState → Parser α} (h : Heedless t Q p s)
    (hF : ∀ place ≤ t.span.start, F { s with prevEnd := place } = p) : Heedless t Q (get >>= F) s := by
  have hrun : ∀ place ≤ t.span.start, (get >>= F).run { s with prevEnd := place } = p.run { s with prevEnd := place } := by
    intro place hplace
    change (F { s with prevEnd := place }).run { s with prevEnd := place } = _
    rw [hF place hplace]
  obtain ⟨r, h⟩ | ⟨a, errors, ha, h⟩ := h
  · exact .inl ⟨r, fun place hplace => (hrun place hplace).trans (h place hplace)⟩
  · exact .inr ⟨a, errors, ha, fun place hplace => (hrun place hplace).trans (h place hplace)⟩

theorem heedless_get {F : ParserState → Parser α} (h : Heedless t Q (F s) s)
    (hF : ∀ place, F { s with prevEnd := place } = F s) : Heedless t Q (get >>= F) s :=
  heedless_get_eq h fun place _ => hF place

/-- A parser that reads the first token is heedless whatever it does behind it. -/
theorem skip_heedless (h : AtFirst t s) (F : Unit → Parser α) : Heedless t Q (skip >>= F) s :=
  .inl ⟨_, fun place _ => congrArg (F ()).run (h.advance place)⟩

theorem bump_heedless (h : AtFirst t s) (F : LaidToken → Parser α) : Heedless t Q (bump >>= F) s :=
  .inl ⟨_, fun place _ => congrArg (F s.current).run (h.advance place)⟩

theorem report_heedless (e : SyntaxError) : Heedless t (fun _ => True) (report e) s := by
  refine .inr ⟨(), (s.report e).errors, trivial, fun place _ => congrArg (Prod.mk ()) ?_⟩
  simp only [ParserState.report]
  split <;> rfl

theorem skipStray_heedless (h : AtFirst t s) : Heedless t (fun _ => True) skipStray s := by
  refine heedless_get ?_ fun _ => rfl
  rw [h.current, h.lineStart, Bool.or_true, Bool.true_or, if_pos rfl]
  exact heedless_pure trivial

end Steps

theorem literal?_heedless (s : ParserState) :
    Heedless t (fun value => value = none → t.token.startsAtom = true →
      (∃ name, t.token = .ident name) ∨ ∃ p, t.token = .punct p) (literal? t) s := by
  rw [literal?]
  split
  case h_1 text _ =>
    dsimp only
    split
    · exact heedless_pure (by simp)
    · exact (report_heedless _).bind fun _ _ _ => heedless_pure (by simp)
  case h_8 =>
    refine heedless_pure fun _ hatom => ?_
    cases htoken : t.token with
    | ident name => exact .inl ⟨name, rfl⟩
    | punct p => exact .inr ⟨p, rfl⟩
    | keyword k => cases k <;> simp_all [Token.startsAtom]
    | _ => simp_all [Token.startsAtom]
  all_goals exact heedless_pure (by simp)

theorem simpleExpr_heedless_open (h : AtFirst t s) (hopen : startsOpenExpr t.token = true) {Q : Expr → Prop} :
    Heedless t Q (simpleExpr (n + 2)) s := by
  refine heedless_get ?_ fun _ => rfl
  rw [h.peek]
  split
  case h_1 => exact .andThen (bump_heedless h _) _
  case h_2 => exact bump_heedless h _
  case h_3 => exact bump_heedless h _
  case h_4 hlet hif hfun =>
    cases htoken : t.token with
    | keyword k => cases k <;> simp_all [startsOpenExpr]
    | _ => simp_all [startsOpenExpr]

theorem atom_heedless (h : AtFirst t s) :
    Heedless t (fun _ => t.token.startsAtom = false) (atom (n + 3)) s := by
  refine heedless_get ?_ fun _ => rfl
  rw [h.isOffside, if_neg Bool.false_ne_true]
  dsimp only
  rw [h.current]
  split
  case h_1 => exact skip_heedless h _
  case h_2 => exact bump_heedless h _
  case h_3 => exact .andThen (bump_heedless h _) _
  case h_4 => exact .andThen (bump_heedless h _) _
  case h_5 hopen | h_6 hopen | h_7 hopen => exact simpleExpr_heedless_open h (by rw [hopen]; rfl)
  case h_8 hident hparen hbracket hbrace _ _ _ =>
    refine (literal?_heedless s).bind fun value errors hvalue => ?_
    cases value with
    | some value => exact skip_heedless (h.errors errors) _
    | none => 
      refine (report_heedless _).bind fun _ _ _ => heedless_pure ?_
      refine Bool.eq_false_iff.mpr fun hatom => ?_
      obtain ⟨name, hname⟩ | ⟨p, hp⟩ := hvalue rfl hatom
      · exact hident name hname
      · rw [hp] at hatom
        cases p <;> simp_all [Token.startsAtom]

theorem accesses_heedless (h : AtFirst t s) (hatom : t.token.startsAtom = false) (target : Expr) :
    Heedless t (fun _ => t.token.startsAtom = false) (accesses (n + 1) target) s := by
  refine heedless_get ?_ fun _ => rfl
  rw [h.peek]
  split
  case h_1 =>
    rw [h.isOffside, if_neg Bool.false_ne_true]
    exact bump_heedless h _
  case h_2 hparen => 
    rw [hparen] at hatom
    cases hatom
  case h_3 => exact heedless_pure hatom

theorem unary_heedless (h : AtFirst t s) : Heedless t (fun _ => True) (unary (n + 5)) s := by
  refine heedless_get ?_ fun _ => rfl
  rw [h.isOffside]
  split
  · exact bump_heedless h _
  · refine .bind (.bind (atom_heedless h) fun target errors hatom => accesses_heedless (h.errors errors) hatom target) ?_
    intro function errors hatom
    refine heedless_get ?_ fun _ => rfl
    rw [(h.errors errors).peek, hatom]
    exact heedless_pure trivial

theorem operand_heedless (h : AtFirst t s) : Heedless t (fun _ => True) (operand (n + 6) 0) s := by
  refine (unary_heedless h).bind fun lhs errors _ => heedless_get ?_ fun _ => rfl
  rw [(h.errors errors).peek, (h.errors errors).isOffside]
  split
  case h_1 => exact heedless_pure trivial
  case h_2 op left right _ =>
    rw [if_neg (by simp)]
    exact bump_heedless (h.errors errors) _

theorem simpleExpr_heedless (h : AtFirst t s) : Heedless t (fun _ => True) (simpleExpr (n + 7)) s := by
  cases hopen : startsOpenExpr t.token with
  | true => exact simpleExpr_heedless_open h hopen
  | false =>
    refine heedless_get ?_ fun _ => rfl
    rw [h.peek]
    split
    case h_1 hlet => rw [hlet] at hopen; cases hopen
    case h_2 hif => rw [hif] at hopen; cases hopen
    case h_3 hfun => rw [hfun] at hopen; cases hopen
    case h_4 => exact operand_heedless h

theorem expr_heedless (h : AtFirst t s) : Heedless t (fun _ => True) (expr (n + 8)) s := by
  refine (simpleExpr_heedless h).bind fun first errors _ => .bind (Q := fun more => more = []) ?_ ?_
  · refine heedless_get ?_ fun _ => rfl
    rw [(h.errors errors).peek, (h.errors errors).isOffside]
    split
    · exact skip_heedless (h.errors errors) _
    · exact heedless_pure rfl
  · rintro _ errors' rfl
    exact heedless_pure trivial

/-- A declaration of which nothing is read ends where it starts. -/
theorem decl_heedless (h : AtFirst t s) (column : Nat) :
    Heedless t (fun _ => True) (decl (n + 9) column) s := by
  refine heedless_get ?_ fun _ => rfl
  dsimp only
  rw [h.current, h.peek]
  refine Heedless.bind (Q := fun _ => True) ?_ fun shape errors _ => ?_
  · split
    case h_1 => exact .andThen (bump_heedless h _) _
    case h_2 => exact skip_heedless h _
    case h_3 => exact skip_heedless h _
    case h_4 => exact skip_heedless h _
    case h_5 => exact .andThen (bump_heedless h _) _
    case h_6 => exact skip_heedless h _
    case h_7 =>
      refine (expr_heedless h).bind fun e errors _ => (skipStray_heedless (h.errors errors)).bind fun _ errors' _ => ?_
      exact heedless_pure trivial
  · refine heedless_get_eq (heedless_pure (a := shape ⟨t.span.start, t.span.start⟩) trivial) fun place hle => ?_
    rw [Nat.max_eq_right hle]

theorem reject_heedless (h : AtFirst t s) : Heedless t (fun _ => False) reject s := by
  refine .bind (Q := fun _ => True) ?_ fun _ errors _ => ?_
  · refine heedless_get_eq (report_heedless ⟨.unexpectedToken s.peek.text, s.current.span, none, none⟩) fun place _ => ?_
    exact if_neg (Bool.eq_false_iff.mp h.atEnd)
  · exact .inl ⟨_, fun place _ => congrArg (Prod.mk ()) ((h.errors errors).advance place)⟩

theorem setAnchor_heedless {F : Unit → Parser α} (h : Heedless t (fun _ => False) (F ()) { s with anchor := some s.rest.length }) :
    Heedless t (fun _ => False) (setAnchor >>= F) s := by
  obtain ⟨r, h⟩ | ⟨_, _, hnone, -⟩ := h
  · exact .inl ⟨r, h⟩
  · exact hnone.elim

theorem decls_heedless {ts : List LaidToken} (hrest : s.rest = t :: ts) (hline : t.lineStart = true) :
    Heedless t (fun _ => False) (decls (n + 10) t.column) s := by
  have hend : s.atEnd = false := by rw [atEnd, hrest]; rfl
  have hcurrent : s.current = t := by rw [current, hrest]; rfl
  have h : AtFirst t { s with anchor := some s.rest.length } := ⟨⟨ts, hrest⟩, hline, rfl⟩
  refine heedless_get ?_ fun _ => rfl
  dsimp only
  rw [beforeColumn, hend, hcurrent, hline, if_neg (by simp), if_neg (by simp)]
  refine setAnchor_heedless (.bind (decl_heedless h t.column) fun d errors _ => .andThen ?_ _)
  refine heedless_get ?_ fun _ => rfl
  rw [if_pos rfl]
  exact reject_heedless (h.errors errors)

/-! The whole file -/

variable {σ : Shift}

theorem decls_atEnd (h : s.atEnd = true) (n column : Nat) : (decls n column).run s = ([], s) := by
  cases n with
  | zero => rfl
  | succ n =>
    change (if s.beforeColumn column then pure [] else _ : Parser (List Decl)).run s = _
    rw [if_pos (by rw [beforeColumn, h, Bool.true_or])]
    rfl

theorem file_mirrors (n : Nat) (s : ParserState) :
    Mirrors σ (fun r r' => r'.1 = r.1.map (·.mapSpans σ.span) ∧ r'.2.map (·.unplaced) = r.2.map (·.unplaced))
      (file n) (file n) s := by
  refine (header_mirrors s).andThen fun name s₁ => mirrors_get ?_
  refine Mirrors.bind (R := fun ds ds' => ds'.map (·.unplaced) = ds.map (·.unplaced)) ?_
    fun ds ds' s₂ hds => mirrors_pure ⟨rfl, hds⟩
  cases h : s₁.atEnd with
  | true =>
    -- the end of the file is at the first column in both files
    have hnothing : ∀ {s : ParserState} (column : Nat), s.atEnd = true →
        (withOffside column (decls n column)).run s = ([], s) := by
      intro s column h
      have hrun : (decls n column).run { s with offside := column } = ([], { s with offside := column }) :=
        decls_atEnd (s := { s with offside := column }) h n column
      exact congrArg (fun r : List Decl × ParserState => (r.1, { r.2 with offside := s.offside })) hrun
    rw [Mirrors, hnothing _ h, hnothing _ ((atEnd_state s₁).trans h)]
    exact ⟨rfl, rfl⟩
  | false =>
    rw [column_state s₁ h]
    exact withOffside_mirrors _ ((declsMirror σ n).decls _) s₁

/-- The parser neither looks at the offside column nor changes it. -/
def Columnless (p : Parser α) : Prop :=
  ∀ (s : ParserState) (offside : Nat), p.run { s with offside } = ((p.run s).1, { (p.run s).2 with offside })

theorem Columnless.bind {p : Parser α} {F : α → Parser β} (hp : Columnless p) (hF : ∀ a, Columnless (F a)) :
    Columnless (p >>= F) := fun s offside =>
  (congrArg (fun r : α × ParserState => (F r.1).run r.2) (hp s offside)).trans (hF _ _ offside)

theorem longIdent?_columnless : Columnless longIdent? := by
  rintro ⟨rest⟩ offside
  cases rest with
  | nil => rfl
  | cons t ts =>
    obtain ⟨token⟩ := t
    cases token <;> rfl

theorem report_columnless (e : SyntaxError) : Columnless (report e) := by
  intro s offside
  refine congrArg (Prod.mk ()) ?_
  change { s with offside : ParserState }.report e = { s.report e with offside }
  simp only [ParserState.report]
  split <;> rfl

theorem unexpected_columnless : Columnless unexpected := by
  rintro ⟨rest⟩ offside
  cases rest with
  | nil => exact report_columnless _ _ offside
  | cons t ts => exact report_columnless _ _ offside

/-- The next tokens are a header, as opposed to the declaration of a module. -/
def HasHeader (s : ParserState) : Prop :=
  s.peek = .keyword .moduleKw ∧
    ((s.rest.tail.dropWhile fun t => t.token.isIdent || t.token == .punct .dot).head?.map (·.token)) ≠
      some (.operator .eq)

/-- What stands behind the keyword of a header. -/
def headerName : Parser (Option LongIdent) := do
  match ← longIdent? with
  | some name => return some name
  | none => unexpected; return none

theorem headerName_columnless : Columnless headerName := by
  refine longIdent?_columnless.bind fun name => ?_
  cases name with
  | some name => exact fun _ _ => rfl
  | none => exact unexpected_columnless.bind fun _ _ _ => rfl

theorem header_of_hasHeader (h : HasHeader s) : header.run s = headerName.run s.advance := by
  change (if s.peek ≠ .keyword .moduleKw then pure none else
    if ((s.rest.tail.dropWhile fun t => t.token.isIdent || t.token == .punct .dot).head?.map (·.token)) =
      some (.operator .eq) then pure none else do skip; headerName : Parser (Option LongIdent)).run s = _
  rw [if_neg (not_not.mpr h.1), if_neg h.2]
  rfl

theorem header_of_not_hasHeader (h : ¬HasHeader s) : header.run s = (none, s) := by
  change (if s.peek ≠ .keyword .moduleKw then pure none else
    if ((s.rest.tail.dropWhile fun t => t.token.isIdent || t.token == .punct .dot).head?.map (·.token)) =
      some (.operator .eq) then pure none else do skip; headerName : Parser (Option LongIdent)).run s = _
  by_cases hmodule : s.peek = .keyword .moduleKw
  · rw [if_neg (not_not.mpr hmodule), if_pos (not_not.mp fun hbound => h ⟨hmodule, hbound⟩)]
    rfl
  · rw [if_pos hmodule]
    rfl

/-- The header is read without a look at columns. If there is none, nothing is read. -/
theorem header_heedless (s : ParserState) :
    (∀ prevEnd offside, header.run { s with prevEnd, offside } = (none, { s with prevEnd, offside })) ∨
      ∃ name, ∃ s' : ParserState, ∀ prevEnd offside, header.run { s with prevEnd, offside } = (name, { s' with offside }) := by
  by_cases hheader : HasHeader s
  · have hrest : s.rest ≠ [] := by
      intro hrest
      have hpeek := hheader.1
      rw [peek, current, hrest] at hpeek
      cases hpeek
    obtain ⟨t, ts, hrest⟩ := List.exists_cons_of_ne_nil hrest
    refine .inr ⟨(headerName.run { s with rest := ts, prevEnd := t.span.stop }).1,
      (headerName.run { s with rest := ts, prevEnd := t.span.stop }).2, fun prevEnd offside => ?_⟩
    have hadvance : { s with prevEnd, offside : ParserState }.advance =
        { s with rest := ts, prevEnd := t.span.stop, offside } := by
      simp only [advance, hrest]
    have hread : header.run { s with prevEnd, offside } = headerName.run { s with prevEnd, offside : ParserState }.advance :=
      header_of_hasHeader hheader
    rw [hadvance] at hread
    exact hread.trans (headerName_columnless { s with rest := ts, prevEnd := t.span.stop } offside)
  · exact .inl fun _ _ => header_of_not_hasHeader hheader

theorem file_run (n : Nat) (s : ParserState) : (file n).run s =
    (let r := header.run s
     let column := r.2.current.column
     let q := (decls n column).run { r.2 with offside := column }
     ((r.1, q.1), { q.2 with offside := r.2.offside })) := rfl

/-- What is read from a file does not depend on where the parser believes to be in front of it. -/
theorem file_heedless {place : Nat} (hfirst : ∀ t ∈ s.rest.head?, t.lineStart = true ∧ place ≤ t.span.start) (n : Nat) :
    ∃ r errors, ∀ prevEnd ≤ place, ∀ offside, ((file (n + 10)).run { s with prevEnd, offside }).1 = r ∧
      ((file (n + 10)).run { s with prevEnd, offside }).2.errors = errors := by
  obtain hnone | ⟨name, s', hname⟩ := header_heedless s
  · by_cases hrest : s.rest = []
    · have hend : s.atEnd = true := by rw [atEnd, hrest]; rfl
      refine ⟨(none, []), s.errors, fun prevEnd hle offside => ?_⟩
      have hdecls : (decls (n + 10) { s with prevEnd, offside : ParserState }.current.column).run
          { s with prevEnd, offside := { s with prevEnd, offside : ParserState }.current.column } = ([], _) :=
        decls_atEnd (s := { s with prevEnd, offside := { s with prevEnd, offside : ParserState }.current.column }) hend _ _
      rw [file_run, hnone]
      dsimp only
      rw [hdecls]
      exact ⟨rfl, rfl⟩
    · obtain ⟨t, ts, hrest⟩ := List.exists_cons_of_ne_nil hrest
      obtain ⟨hline, hplace⟩ := hfirst t (by rw [hrest]; rfl)
      have hcurrent : s.current = t := by rw [current, hrest]; rfl
      obtain ⟨q, hq⟩ | ⟨_, _, hnothing, -⟩ :=
        decls_heedless (n := n) (s := { s with offside := t.column }) hrest hline
      · refine ⟨(none, q.1), q.2.errors, fun prevEnd hle offside => ?_⟩
        have hcolumn : { s with prevEnd, offside : ParserState }.current.column = t.column :=
          congrArg LaidToken.column hcurrent
        rw [file_run, hnone]
        dsimp only
        rw [hcolumn, hq prevEnd (Nat.le_trans hle hplace)]
        exact ⟨rfl, rfl⟩
      · exact hnothing.elim
  · refine ⟨(name, ((decls (n + 10) s'.current.column).run { s' with offside := s'.current.column }).1),
      ((decls (n + 10) s'.current.column).run { s' with offside := s'.current.column }).2.errors,
      fun prevEnd hle offside => ?_⟩
    · rw [file_run, hname]
      exact ⟨rfl, rfl⟩

end Parser

/-- The shift of a text that is indented by `k` spaces. -/
def Shift.indentation (k : Nat) (text : Text) : Shift where
  place := text.indentedOffset k
  column := k
  strict := fun _ _ h => Text.indentedOffset_lt k text h

namespace SyntaxFile

open Text

variable {σ : Shift}

theorem start_indent (k : Nat) (text : Text) (kind : SourceKind) (defines : List String) :
    start (indent k text) kind defines =
      { (Shift.indentation k text).state (start text kind defines) with prevEnd := 0, offside := 0 } := by
  simp only [start, significantTokens_indent, ← indentedOffset_end]
  rfl

/-- The first token of a file starts a line. -/
theorem start_lineStart (text : Text) (kind : SourceKind) (defines : List String) :
    ∀ t ∈ (start text kind defines).rest.head?, t.lineStart = true := by
  simp only [start, significantTokens]
  cases (Layout.activeTokens text defines [] (Token.tokens text)).1 with
  | nil => rintro _ ⟨⟩
  | cons t ts =>
    rintro _ ⟨⟩
    rfl

theorem le_mapSpan (a b : SyntaxError) :
    SyntaxError.le (a.mapSpan σ.span) (b.mapSpan σ.span) = SyntaxError.le a b := by
  have heq : ∀ a b : Nat, (σ.place a == σ.place b) = (a == b) := fun a b =>
    Bool.eq_iff_iff.mpr (by rw [beq_iff_eq, beq_iff_eq]; exact σ.strict.injective.eq_iff)
  simp only [SyntaxError.le, Span.before, SyntaxError.mapSpan, Shift.span, Span.map, σ.strict.lt_iff_lt, heq]

theorem parse_eq (path : Path) (text : Text) (kind : SourceKind) (defines : List String) {n : Nat}
    (hn : depthBound (start text kind defines).rest.length = n) :
    parse path text kind defines =
      (let r := (Parser.file n).run (start text kind defines)
       { path, kind, text, header := r.1.1, decls := r.1.2, errors := r.2.errors.mergeSort SyntaxError.le }) := by
  subst hn
  rfl

theorem errors_unplaced (es : List SyntaxError) :
    ((es.map (·.mapSpan σ.span)).mergeSort SyntaxError.le).map (·.unplaced) =
      (es.mergeSort SyntaxError.le).map (·.unplaced) := by
  have hsort := List.map_mergeSort (r := SyntaxError.le) (s := SyntaxError.le) (f := (·.mapSpan σ.span)) (l := es)
    fun a _ b _ => (le_mapSpan a b).symm
  rw [← hsort, List.map_map]
  rfl

/-- Only the columns of lines relative to each other matter: with `k` spaces in front of every line a file has the same
header, the same declarations and the same errors, at other places. -/
theorem parse_indent (path : Path) (text : Text) (kind : SourceKind) (defines : List String) (k : Nat) :
    let f := parse path text kind defines
    let f' := parse path (indent k text) kind defines
    f'.header.map (·.unplaced) = f.header.map (·.unplaced) ∧ f'.decls.map (·.unplaced) = f.decls.map (·.unplaced) ∧
      f'.errors.map (·.unplaced) = f.errors.map (·.unplaced) := by
  have hcount : (start (indent k text) kind defines).rest.length = (start text kind defines).rest.length := by
    rw [start_indent]
    exact List.length_map ..
  obtain ⟨n, hn⟩ : ∃ n, depthBound (start text kind defines).rest.length = n + 10 :=
    ⟨32 * (start text kind defines).rest.length + 54, by rw [depthBound]; omega⟩
  have hfirst : ∀ t ∈ ((Shift.indentation k text).state (start text kind defines)).rest.head?,
      t.lineStart = true ∧ indentedOffset k text 0 ≤ t.span.start := by
    intro t ht
    rw [Shift.rest_state, List.head?_map] at ht
    obtain ⟨u, hu, rfl⟩ := Option.map_eq_some_iff.mp ht
    exact ⟨start_lineStart text kind defines u hu, (Shift.indentation k text).strict.monotone (Nat.zero_le _)⟩
  -- the parser starts at zero in the indented file as well, where the moved state does not
  obtain ⟨r, errors, hheedless⟩ := Parser.file_heedless hfirst n
  obtain ⟨hresult, herrors⟩ := hheedless 0 (Nat.zero_le _) 0
  obtain ⟨hmoved, hmovedErrors⟩ := hheedless _ (Nat.le_refl _) _
  obtain ⟨⟨hheader, hdecls⟩, hstate⟩ := Parser.file_mirrors (σ := .indentation k text) (n + 10) (start text kind defines)
  rw [parse_eq path text kind defines hn, parse_eq path (indent k text) kind defines (hcount ▸ hn), start_indent]
  dsimp only
  refine ⟨?_, ?_, ?_⟩
  · rw [hresult, ← hmoved]
    refine (congrArg (Option.map _) hheader).trans ?_
    rw [Option.map_map]
    exact congrArg (Option.map · _) (funext fun name => name.mapSpans_mapSpans _ _)
  · rw [hresult, ← hmoved]
    exact hdecls
  · rw [herrors, ← hmovedErrors]
    refine (congrArg (fun s : ParserState => (s.errors.mergeSort SyntaxError.le).map (·.unplaced)) hstate).trans ?_
    exact errors_unplaced _

end SyntaxFile
end ScriptAnalyzer
