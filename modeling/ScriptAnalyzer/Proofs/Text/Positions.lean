import ScriptAnalyzer.Proofs.Token.Spelling

/-!
Byte offsets and positions of a text. Positions add up along a text as offsets do, a line break apart; so both
ways between them are followed character by character. Each offset between characters has a position of its own,
and each position of a line its offset; the place behind a carriage return that ends a line belongs to no line.
-/

namespace ScriptAnalyzer

namespace Position

variable {p q q' : Position}

/-- The position of what stands at `q` in a text that begins at `p`. -/
def plus (p q : Position) : Position :=
  if q.line = 0 then ⟨p.line, p.character + q.character⟩ else ⟨p.line + q.line, q.character⟩

theorem next_eq_plus (p : Position) (c : Char) : p.next c = p.plus (next ⟨0, 0⟩ c) := by
  by_cases hc : c = '\n'
  · simp [next, plus, hc]
  · simp [next, plus, hc]

theorem plus_assoc (p q r : Position) : (p.plus q).plus r = p.plus (q.plus r) := by
  by_cases hr : r.line = 0
  · by_cases hq : q.line = 0
    · simp only [plus, hr, hq, if_true, Nat.add_assoc]
    · simp only [plus, hr, hq, if_true, if_false]
  · have hsum : q.line + r.line ≠ 0 := by omega
    by_cases hq : q.line = 0
    · simp only [plus, hr, hq, if_true, if_false, Nat.zero_add]
    · simp only [plus, hr, hq, hsum, if_false, Nat.add_assoc]

theorem le_iff : p.le q = true ↔ p.line < q.line ∨ p.line = q.line ∧ p.character ≤ q.character := by
  simp [le]

theorem start_le (p : Position) : le ⟨0, 0⟩ p = true := by
  rw [le_iff]
  dsimp only
  omega

theorem plus_le_plus (p : Position) (h : q.le q' = true) : (p.plus q).le (p.plus q') = true := by
  rw [le_iff] at h ⊢
  simp only [plus]
  split <;> split <;> dsimp only <;> omega

/-- Behind the first character `c` of a text stands every position but the start and those that the line of a
line break does not have. -/
theorem exists_behind {c : Char} (hstart : p ≠ ⟨0, 0⟩) (hline : p.line = 0 → c ≠ '\n') :
    ∃ q, p = (next ⟨0, 0⟩ c).plus q ∧ (c ≠ '\n' → q.line = p.line) := by
  obtain ⟨line, column⟩ := p
  cases line with
  | zero =>
    cases column with
    | zero => exact absurd rfl hstart
    | succ column => exact ⟨⟨0, column⟩, by simp [next, plus, hline rfl, Nat.add_comm], fun _ => rfl⟩
  | succ line =>
    by_cases hc : c = '\n'
    · refine ⟨⟨line, column⟩, ?_, fun h => absurd hc h⟩
      cases line with
      | zero => simp [next, plus, hc]
      | succ line => simp [next, plus, hc, Nat.add_comm]
    · exact ⟨⟨line + 1, column⟩, by simp [next, plus, hc], fun _ => rfl⟩

end Position

namespace Text

variable {text rest cs : Text} {c : Char} {p : Position} {offset offset' : Nat}

/-! From offsets to positions -/

theorem positionFrom_eq (p : Position) (offset : Nat) (text : Text) :
    positionFrom p offset text = p.plus (positionOf text offset) := by
  induction text generalizing p offset with
  | nil => rfl
  | cons c cs ih =>
    rw [positionOf, positionFrom, positionFrom]
    split
    · rw [ih, ih (Position.next _ c), p.next_eq_plus, Position.plus_assoc]
    · rfl

/-- What stands at an offset behind the first character. -/
theorem positionOf_cons (c : Char) (cs : Text) (offset : Nat) : positionOf (c :: cs) (c.utf8Size + offset) =
    (Position.next ⟨0, 0⟩ c).plus (positionOf cs offset) := by
  rw [positionOf, positionFrom, if_pos (Nat.le_add_right _ _), Nat.add_sub_cancel_left, positionFrom_eq]

theorem positionOf_inside (h : offset < c.utf8Size) : positionOf (c :: cs) offset = ⟨0, 0⟩ := by
  rw [positionOf, positionFrom, if_neg (Nat.not_le.mpr h)]

theorem positionOf_zero (text : Text) : positionOf text 0 = ⟨0, 0⟩ := by
  cases text with
  | nil => rfl
  | cons c cs => exact positionOf_inside c.utf8Size_pos

theorem positionOf_le (text : Text) (h : offset ≤ offset') :
    (text.positionOf offset).le (text.positionOf offset') = true := by
  induction text generalizing offset offset' with
  | nil => rfl
  | cons c cs ih =>
    rcases Nat.lt_or_ge offset c.utf8Size with hinside | hbehind
    · rw [positionOf_inside hinside]
      exact Position.start_le _
    · obtain ⟨n, rfl⟩ := Nat.exists_eq_add_of_le hbehind
      obtain ⟨n', rfl⟩ := Nat.exists_eq_add_of_le (Nat.le_trans hbehind h)
      rw [positionOf_cons, positionOf_cons]
      exact Position.plus_le_plus _ (ih (Nat.le_of_add_le_add_left h))

/-! From positions to offsets -/

/-- Whether a line ends in front of the text. -/
def EndsLine (rest : Text) : Prop := rest = [] ∨ ∃ more, rest = '\n' :: more

theorem firstLine_cons (hline : c ≠ '\n') (hreturn : c = '\r' → ¬EndsLine cs) :
    firstLine (c :: cs) = c :: firstLine cs := by
  refine firstLine.eq_5 c cs (fun hc hcs => hreturn hc (.inl hcs)) (fun more hc hcs => ?_) hline
  exact hreturn hc (.inr ⟨more, hcs⟩)

theorem firstLine_return (h : EndsLine cs) : firstLine ('\r' :: cs) = [] := by
  obtain rfl | ⟨more, rfl⟩ := h <;> rfl

theorem lineFrom?_add (n offset line : Nat) (text : Text) :
    lineFrom? (n + offset) line text = (lineFrom? offset line text).map fun l => (n + l.1, l.2) := by
  induction text generalizing offset line with
  | nil => cases line <;> rfl
  | cons c cs ih =>
    cases line with
    | zero => rfl
    | succ line => rw [lineFrom?, lineFrom?, Nat.add_assoc, ih]

theorem lineFrom?_cons (c : Char) (cs : Text) (p : Position) (h : c = '\n' ∨ p.line ≠ 0) :
    lineFrom? 0 ((Position.next ⟨0, 0⟩ c).plus p).line (c :: cs) =
      (lineFrom? 0 p.line cs).map fun l => (c.utf8Size + l.1, l.2) := by
  have hline : ((Position.next ⟨0, 0⟩ c).plus p).line = (if c = '\n' then p.line else p.line - 1) + 1 := by
    by_cases hp : p.line = 0
    · simp [Position.plus, Position.next, h.resolve_right (not_not_intro hp), hp]
    · by_cases hc : c = '\n'
      · simp [Position.plus, Position.next, hc, hp, Nat.add_comm]
      · simp [Position.plus, Position.next, hc, hp, Nat.sub_add_cancel (Nat.pos_of_ne_zero hp)]
  rw [hline, lineFrom?, Nat.zero_add, ← lineFrom?_add, Nat.add_zero]
  split
  case isTrue => rfl
  case isFalse hc => rw [Nat.sub_add_cancel (Nat.pos_of_ne_zero (h.resolve_left hc))]; rfl

/-- Behind the first character positions and offsets go on as in the rest of the text. -/
theorem offsetOf?_cons (h : c = '\r' → EndsLine cs → p.line ≠ 0) :
    offsetOf? (c :: cs) ((Position.next ⟨0, 0⟩ c).plus p) = (offsetOf? cs p).map (c.utf8Size + ·) := by
  by_cases hline : c = '\n' ∨ p.line ≠ 0
  · have hcolumn : ((Position.next ⟨0, 0⟩ c).plus p).character = p.character := by
      by_cases hp : p.line = 0
      · simp [Position.plus, Position.next, hline.resolve_right (not_not_intro hp), hp]
      · simp [Position.plus, hp]
    rw [offsetOf?, offsetOf?, lineFrom?_cons c cs p hline, hcolumn]
    cases lineFrom? 0 p.line cs with
    | none => rfl
    | some l =>
      dsimp only [Option.map_some]
      split
      · rw [Option.map_some, Nat.add_assoc]
      · rfl
  · obtain ⟨hc, hp⟩ := not_or.mp hline
    have hp := Decidable.not_not.mp hp
    have hplus : (Position.next ⟨0, 0⟩ c).plus p = ⟨0, p.character + 1⟩ := by
      simp [Position.plus, Position.next, hc, hp, Nat.add_comm]
    rw [hplus, offsetOf?, offsetOf?, hp, lineFrom?, lineFrom?]
    dsimp only
    rw [firstLine_cons hc fun hr hends => h hr hends hp, List.length_cons, List.take_succ_cons, byteSize]
    by_cases hle : p.character ≤ (firstLine cs).length
    · rw [if_pos hle, if_pos (Nat.succ_le_succ hle), Option.map_some, Nat.zero_add, Nat.zero_add]
    · rw [if_neg hle, if_neg fun h => hle (Nat.le_of_succ_le_succ h), Option.map_none]

/-- A line break and a carriage return in front of one end the line that they stand in. -/
theorem offsetOf?_ended (h : c = '\n' ∨ c = '\r' ∧ EndsLine cs) (column : Nat) :
    offsetOf? (c :: cs) ⟨0, column + 1⟩ = none := by
  have hempty : firstLine (c :: cs) = [] := by
    obtain rfl | ⟨rfl, hends⟩ := h
    · rfl
    · exact firstLine_return hends
  rw [offsetOf?, lineFrom?]
  dsimp only
  exact if_neg (hempty ▸ Nat.not_succ_le_zero column)

theorem offsetOf?_start (text : Text) : offsetOf? text ⟨0, 0⟩ = some 0 := by
  cases text <;> rfl

theorem offsetOf?_nil (h : p ≠ ⟨0, 0⟩) : offsetOf? [] p = none := by
  obtain ⟨line, column⟩ := p
  cases line with
  | zero =>
    cases column with
    | zero => exact absurd rfl h
    | succ column => rfl
  | succ line => rfl

/-! There and back -/

/-- Whether the offset stands behind a carriage return that ends its line. -/
def BehindReturn (text : Text) (offset : Nat) : Prop :=
  ∃ front rest, text = front ++ '\r' :: rest ∧ offset = byteSize (front ++ ['\r']) ∧ EndsLine rest

theorem not_behindReturn_zero (text : Text) : ¬BehindReturn text 0 := by
  rintro ⟨front, rest, -, hoffset, -⟩
  rw [byteSize_append] at hoffset
  exact absurd hoffset (Nat.ne_of_lt (Nat.lt_of_lt_of_le (by decide) (Nat.le_add_left _ _)))

theorem behindReturn_cons (c : Char) (cs : Text) (offset : Nat) : BehindReturn (c :: cs) (c.utf8Size + offset) ↔
    BehindReturn cs offset ∨ c = '\r' ∧ EndsLine cs ∧ offset = 0 := by
  constructor
  · rintro ⟨front, rest, htext, hoffset, hends⟩
    cases front with
    | nil =>
      obtain ⟨rfl, rfl⟩ := List.cons.inj htext
      exact .inr ⟨rfl, hends, Nat.add_left_cancel hoffset⟩
    | cons d front =>
      obtain ⟨rfl, rfl⟩ := List.cons.inj htext
      exact .inl ⟨front, rest, rfl, Nat.add_left_cancel hoffset, hends⟩
  · rintro (⟨front, rest, rfl, rfl, hends⟩ | ⟨rfl, hends, rfl⟩)
    · exact ⟨c :: front, rest, rfl, rfl, hends⟩
    · exact ⟨[], cs, rfl, rfl, hends⟩

/-- Every place between characters but those behind a line's carriage return is the place of its position. -/
theorem offsetOf?_positionOf (h : text.isBoundary offset = true) :
    (BehindReturn text offset → text.offsetOf? (text.positionOf offset) = none) ∧
      (¬BehindReturn text offset → text.offsetOf? (text.positionOf offset) = some offset) := by
  obtain ⟨rest, hrest⟩ := Option.isSome_iff_exists.mp h
  obtain ⟨before, rfl, rfl⟩ := dropBytes?_eq_some hrest
  clear h hrest
  induction before with
  | nil =>
    rw [byteSize, positionOf_zero, offsetOf?_start]
    exact ⟨fun h => absurd h (not_behindReturn_zero _), fun _ => rfl⟩
  | cons c cs ih =>
    rw [List.cons_append, byteSize, positionOf_cons, behindReturn_cons]
    by_cases hends : c = '\r' ∧ EndsLine (cs ++ rest) ∧ (positionOf (cs ++ rest) (byteSize cs)).line = 0
    · -- the rest is empty or begins a new line, so nothing stands between
      obtain ⟨rfl, hends, hline⟩ := hends
      obtain rfl : cs = [] := by
        cases cs with
        | nil => rfl
        | cons d cs =>
          obtain hnil | ⟨more, hmore⟩ := hends
          · cases hnil
          · obtain ⟨rfl, rfl⟩ := List.cons.inj hmore
            rw [line_positionOf, List.count_cons_self] at hline
            exact absurd hline (Nat.succ_ne_zero _)
      rw [byteSize, positionOf_zero]
      exact ⟨fun _ => offsetOf?_ended (.inr ⟨rfl, hends⟩) 0, fun h => absurd (.inr ⟨rfl, hends, rfl⟩) h⟩
    · rw [offsetOf?_cons fun hc h hline => hends ⟨hc, h, hline⟩]
      refine ⟨fun h => ?_, fun h => ?_⟩
      · obtain hbehind | ⟨hc, hline, hzero⟩ := h
        · rw [ih.1 hbehind, Option.map_none]
        · exact absurd ⟨hc, hline, by rw [hzero, positionOf_zero]⟩ hends
      · rw [ih.2 fun hbehind => h (.inl hbehind), Option.map_some]

theorem positionOf_offsetOf? (h : text.offsetOf? p = some offset) : text.positionOf offset = p := by
  induction text generalizing p offset with
  | nil =>
    by_cases hp : p = ⟨0, 0⟩
    · exact hp.symm
    · rw [offsetOf?_nil hp] at h
      cases h
  | cons c cs ih =>
    by_cases hstart : p = ⟨0, 0⟩
    · rw [hstart, offsetOf?_start] at h
      rw [← Option.some.inj h, positionOf_zero, hstart]
    by_cases hended : p.line = 0 ∧ (c = '\n' ∨ c = '\r' ∧ EndsLine cs)
    · obtain ⟨line, column⟩ := p
      obtain ⟨rfl, hended⟩ := hended
      cases column with
      | zero => exact absurd rfl hstart
      | succ column =>
        rw [offsetOf?_ended hended] at h
        cases h
    · obtain ⟨q, hp, hline⟩ := Position.exists_behind hstart fun hzero hc => hended ⟨hzero, .inl hc⟩
      have hq : c = '\r' → EndsLine cs → q.line ≠ 0 := by
        rintro rfl hends
        rw [hline (by decide)]
        exact fun hzero => hended ⟨hzero, .inr ⟨rfl, hends⟩⟩
      rw [hp, offsetOf?_cons hq] at h
      obtain ⟨n, hn, rfl⟩ := Option.map_eq_some_iff.mp h
      rw [positionOf_cons, ih hn, hp]

/-- Offsets and positions correspond one to one, but for the offsets behind a carriage return that ends a line,
and in order. -/
theorem offsets_correspond (text : Text) :
    (∀ offset, text.isBoundary offset = true →
      (text.BehindReturn offset → text.offsetOf? (text.positionOf offset) = none) ∧
        (¬text.BehindReturn offset → text.offsetOf? (text.positionOf offset) = some offset)) ∧
      (∀ p offset, text.offsetOf? p = some offset → text.positionOf offset = p) ∧
      ∀ offset offset', offset ≤ offset' → (text.positionOf offset).le (text.positionOf offset') = true :=
  ⟨fun _ => offsetOf?_positionOf, fun _ _ => positionOf_offsetOf?, fun _ _ => positionOf_le text⟩

/-- The text has an empty line, characters of several bytes and both ends of lines. -/
theorem mixedLines_correspond :
    let text : Text := "é\r\n\n€x\r".toList
    text.BehindReturn 3 ∧ text.offsetOf? (text.positionOf 3) = none ∧
      text.isBoundary 8 = true ∧ ¬text.BehindReturn 8 ∧ text.offsetOf? (text.positionOf 8) = some 8 ∧
      text.offsetOf? ⟨2, 1⟩ = some 8 ∧ text.positionOf 8 = ⟨2, 1⟩ ∧
      (text.positionOf 6).le (text.positionOf 100) = true := by
  intro text
  obtain ⟨hplaces, hpositions, hordered⟩ := offsets_correspond text
  have hreturn : text.BehindReturn 3 := ⟨['é'], "\n\n€x\r".toList, rfl, rfl, .inr ⟨_, rfl⟩⟩
  have hinside : ¬text.BehindReturn 8 := by
    intro h
    have hnone := (hplaces 8 (by decide)).1 h
    exact absurd hnone (by decide)
  have height : text.isBoundary 8 = true := by decide
  exact ⟨hreturn, (hplaces 3 (by decide)).1 hreturn, height, hinside, (hplaces 8 height).2 hinside, by decide,
    hpositions ⟨2, 1⟩ 8 (by decide), hordered 6 100 (by decide)⟩

end Text
end ScriptAnalyzer
