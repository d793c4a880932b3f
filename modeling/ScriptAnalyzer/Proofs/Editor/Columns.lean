import ScriptAnalyzer.Editor.Utf16

/-!
Columns in UTF-16 units and columns in characters. A column in characters is found again behind its conversion to
units, and a column in units behind its conversion to characters unless it falls between the two units of a surrogate
pair; then the place behind the pair is found.
-/

namespace ScriptAnalyzer

/-! Surrogate pairs -/

/-- The UTF-16 units of a character. One beyond the first 0x10000 is a surrogate pair. -/
def utf16Units (c : Char) : List Nat :=
  if c.toNat < 0x10000 then [c.toNat]
  else [0xD800 + (c.toNat - 0x10000) / 0x400, 0xDC00 + (c.toNat - 0x10000) % 0x400]

/-- Whether a unit is the second one of a surrogate pair. -/
def closesPair (unit : Nat) : Bool := 0xDC00 ≤ unit && unit < 0xE000

/-- Whether a column falls between the two units of a surrogate pair. -/
def fallsInPair (line : Text) (column : Nat) : Bool := (line.flatMap utf16Units)[column]?.any closesPair

def UnitPosition.fallsInPair (q : UnitPosition) (text : Text) : Bool :=
  (editorLine? text q.line).any (ScriptAnalyzer.fallsInPair · q.column)

variable {c : Char} {cs : Text}

theorem closesPair_eq_false {unit : Nat} (h : unit < 0xDC00 ∨ 0xE000 ≤ unit) : closesPair unit = false := by
  simp [closesPair]
  omega

theorem utf16Units_cases (c : Char) :
    unitCount c = 1 ∧ (∃ unit, utf16Units c = [unit] ∧ closesPair unit = false) ∨
      unitCount c = 2 ∧ ∃ first second, utf16Units c = [first, second] ∧ closesPair first = false ∧
        closesPair second = true := by
  have hvalid : c.toNat < 0xD800 ∨ 0xDFFF < c.toNat ∧ c.toNat < 0x110000 := c.valid
  by_cases hc : c.toNat < 0x10000
  · exact .inl ⟨if_pos hc, _, if_pos hc, closesPair_eq_false (by omega)⟩
  · refine .inr ⟨if_neg hc, _, _, if_neg hc, closesPair_eq_false (.inl ?_), ?_⟩
    · have hlt : (c.toNat - 0x10000) / 0x400 < 0x400 := by
        rw [Nat.div_lt_iff_lt_mul (by decide)]
        omega
      exact Nat.add_lt_add_left hlt 0xD800
    · have hlt : (c.toNat - 0x10000) % 0x400 < 0x400 := Nat.mod_lt _ (by decide)
      rw [closesPair, decide_eq_true (Nat.le_add_right _ _), decide_eq_true (Nat.add_lt_add_left hlt 0xDC00)]
      rfl

theorem unitCount_pos (c : Char) : 0 < unitCount c := by
  obtain ⟨hc, -⟩ | ⟨hc, -⟩ := utf16Units_cases c
  all_goals
    rw [hc]
    decide

theorem fallsInPair_zero (line : Text) : fallsInPair line 0 = false := by
  cases line with
  | nil => rfl
  | cons c cs =>
    rw [fallsInPair, List.flatMap_cons]
    obtain ⟨-, unit, hunits, hunit⟩ | ⟨-, first, second, hunits, hfirst, -⟩ := utf16Units_cases c
    · rw [hunits]
      exact hunit
    · rw [hunits]
      exact hfirst

/-- Behind the first character columns fall into the pairs of the rest of the line. -/
theorem fallsInPair_cons (c : Char) (cs : Text) {units : Nat} (hpos : 0 < units) : fallsInPair (c :: cs) units =
    (decide (units < unitCount c) || fallsInPair cs (units - unitCount c)) := by
  rw [fallsInPair, List.flatMap_cons]
  obtain ⟨hc, unit, hunits, -⟩ | ⟨hc, first, second, hunits, -, hsecond⟩ := utf16Units_cases c
  · obtain ⟨n, rfl⟩ : ∃ n, units = n + 1 := ⟨units - 1, by omega⟩
    rw [hc, hunits, Nat.add_sub_cancel, decide_eq_false (by omega), Bool.false_or]
    rfl
  · by_cases hone : units = 1
    · rw [hone, hc, hunits, decide_eq_true (by decide), Bool.true_or]
      exact hsecond
    · obtain ⟨n, rfl⟩ : ∃ n, units = n + 2 := ⟨units - 2, by omega⟩
      rw [hc, hunits, Nat.add_sub_cancel, decide_eq_false (by omega), Bool.false_or]
      rfl

/-! There and back -/

theorem charsOfUnits_nil (units : Nat) : charsOfUnits [] units = units := by
  cases units <;> rfl

theorem charsOfUnits_cons (c : Char) (cs : Text) {units : Nat} (hpos : 0 < units) :
    charsOfUnits (c :: cs) units = charsOfUnits cs (units - unitCount c) + 1 := by
  cases units with
  | zero => cases hpos
  | succ units => rfl

theorem unitsOfChars_nil (chars : Nat) : unitsOfChars [] chars = chars := by
  cases chars <;> rfl

theorem charsOfUnits_unitsOfChars (line : Text) (chars : Nat) :
    charsOfUnits line (unitsOfChars line chars) = chars := by
  induction line generalizing chars with
  | nil => rw [unitsOfChars_nil, charsOfUnits_nil]
  | cons c cs ih =>
    cases chars with
    | zero => rfl
    | succ chars => rw [unitsOfChars, charsOfUnits_cons c cs (Nat.add_pos_right _ (unitCount_pos c)), Nat.add_sub_cancel, ih]

theorem unitsOfChars_charsOfUnits (line : Text) (units : Nat) :
    unitsOfChars line (charsOfUnits line units) = if fallsInPair line units then units + 1 else units := by
  induction line generalizing units with
  | nil =>
    rw [charsOfUnits_nil, unitsOfChars_nil]
    rfl
  | cons c cs ih =>
    rcases Nat.eq_zero_or_pos units with rfl | hpos
    · rw [fallsInPair_zero]
      rfl
    rw [charsOfUnits_cons c cs hpos, unitsOfChars, ih, fallsInPair_cons c cs hpos]
    by_cases hinside : units < unitCount c
    · -- the column is 1 and the character a pair
      have hc : unitCount c = units + 1 := by
        obtain ⟨hc, -⟩ | ⟨hc, -⟩ := utf16Units_cases c <;> omega
      rw [hc, Nat.sub_eq_zero_of_le (Nat.le_succ units), fallsInPair_zero, decide_eq_true (Nat.lt_succ_self units),
        Bool.true_or, if_neg Bool.false_ne_true, if_pos rfl, Nat.zero_add]
    · rw [decide_eq_false hinside, Bool.false_or]
      split
      all_goals omega

/-! Order -/

theorem charsOfUnits_le (line : Text) {units units' : Nat} (h : units ≤ units') :
    charsOfUnits line units ≤ charsOfUnits line units' := by
  induction line generalizing units units' with
  | nil => rwa [charsOfUnits_nil, charsOfUnits_nil]
  | cons c cs ih =>
    rcases Nat.eq_zero_or_pos units with rfl | hpos
    · exact Nat.zero_le _
    · rw [charsOfUnits_cons c cs hpos, charsOfUnits_cons c cs (Nat.lt_of_lt_of_le hpos h)]
      exact Nat.succ_le_succ (ih (Nat.sub_le_sub_right h _))

theorem unitsOfChars_le (line : Text) {chars chars' : Nat} (h : chars ≤ chars') :
    unitsOfChars line chars ≤ unitsOfChars line chars' := by
  induction line generalizing chars chars' with
  | nil => rwa [unitsOfChars_nil, unitsOfChars_nil]
  | cons c cs ih =>
    cases chars with
    | zero => exact Nat.zero_le _
    | succ chars =>
      cases chars' with
      | zero => exact absurd h (Nat.not_succ_le_zero _)
      | succ chars' => exact Nat.add_le_add_right (ih (Nat.le_of_succ_le_succ h)) _

/-! Positions -/

theorem inText_inUnits (p : Position) (text : Text) : (p.inUnits text).inText text = p := by
  obtain ⟨line, column⟩ := p
  rw [Position.inUnits, UnitPosition.inText]
  cases editorLine? text line with
  | none => rfl
  | some cs => exact congrArg (Position.mk line) (charsOfUnits_unitsOfChars cs column)

theorem inUnits_inText (q : UnitPosition) (text : Text) :
    (q.inText text).inUnits text = if q.fallsInPair text then ⟨q.line, q.column + 1⟩ else q := by
  obtain ⟨line, column⟩ := q
  rw [UnitPosition.inText, Position.inUnits, UnitPosition.fallsInPair]
  cases editorLine? text line with
  | none => rfl
  | some cs =>
    refine (congrArg (UnitPosition.mk line) (unitsOfChars_charsOfUnits cs column)).trans ?_
    exact apply_ite (UnitPosition.mk line) _ _ _

/-- Positions of an editor and of a text convert back and forth, but for those of an editor between the two units of
a pair, and both conversions keep the order of the columns of a line. -/
theorem columns_correspond (text : Text) :
    (∀ p : Position, (p.inUnits text).inText text = p) ∧
      (∀ q : UnitPosition,
        (q.inText text).inUnits text = if q.fallsInPair text then ⟨q.line, q.column + 1⟩ else q) ∧
      (∀ line column column', column ≤ column' →
        (UnitPosition.inText ⟨line, column⟩ text).character ≤ (UnitPosition.inText ⟨line, column'⟩ text).character) ∧
      ∀ line column column', column ≤ column' →
        (Position.inUnits ⟨line, column⟩ text).column ≤ (Position.inUnits ⟨line, column'⟩ text).column := by
  refine ⟨fun p => inText_inUnits p text, fun q => inUnits_inText q text, fun line column column' h => ?_,
    fun line column column' h => ?_⟩
  · rw [UnitPosition.inText, UnitPosition.inText]
    cases editorLine? text line with
    | none => exact h
    | some cs => exact charsOfUnits_le cs h
  · rw [Position.inUnits, Position.inUnits]
    cases editorLine? text line with
    | none => exact h
    | some cs => exact unitsOfChars_le cs h

/-- A line with a surrogate pair in the columns 1 and 2, and a line that is missing. -/
theorem pairedLine_corresponds :
    let text : Text := "a😀b\r\nc".toList
    (Position.inUnits ⟨0, 9⟩ text).inText text = ⟨0, 9⟩ ∧ (Position.inUnits ⟨5, 3⟩ text).inText text = ⟨5, 3⟩ ∧
      UnitPosition.fallsInPair ⟨0, 2⟩ text = true ∧ (UnitPosition.inText ⟨0, 2⟩ text).inUnits text = ⟨0, 3⟩ ∧
      UnitPosition.fallsInPair ⟨0, 3⟩ text = false ∧ (UnitPosition.inText ⟨0, 3⟩ text).inUnits text = ⟨0, 3⟩ ∧
      (UnitPosition.inText ⟨0, 2⟩ text).character ≤ (UnitPosition.inText ⟨0, 7⟩ text).character := by
  intro text
  obtain ⟨hback, hforth, hunits, -⟩ := columns_correspond text
  have hinside : UnitPosition.fallsInPair ⟨0, 2⟩ text = true := by decide
  have houtside : UnitPosition.fallsInPair ⟨0, 3⟩ text = false := by decide
  refine ⟨hback ⟨0, 9⟩, hback ⟨5, 3⟩, hinside, ?_, houtside, ?_, hunits 0 2 7 (by decide)⟩
  · rw [hforth, hinside]
    rfl
  · rw [hforth, houtside]
    rfl

end ScriptAnalyzer
