import ScriptAnalyzer.Proofs.Token.Spelling

/-!
Where a token ends does not depend on what stands behind it, as long as that is a line feed or nothing: each
token is cut off again from its own text. The exception is a block comment that does not end, which takes
all that is there.
-/

namespace ScriptAnalyzer
namespace Token

attribute [grind =] fractionLength exponentLength number stringLength commentLength? quoted symbol? lexeme

variable {p : Char → Bool} {xs cs rest : Text}

/-- No character of the kind stands at the start. -/
def Clear (p : Char → Bool) (rest : Text) : Prop := ∀ c ∈ rest.head?, p c = false

/-- Nothing is there, or a line feed. -/
def Delimits (rest : Text) : Prop := ∀ c ∈ rest.head?, c = '\n'

theorem clear_cons {c : Char} : Clear p (c :: cs) ↔ p c = false := by simp [Clear]

theorem Delimits.clear (h : Delimits rest) (hp : p '\n' = false) : Clear p rest :=
  fun c hc => h c hc ▸ hp

theorem Delimits.cases (h : Delimits rest) : rest = [] ∨ ∃ cs, rest = '\n' :: cs := by
  cases rest with
  | nil => exact .inl rfl
  | cons c cs =>
    obtain rfl := h c rfl
    exact .inr ⟨cs, rfl⟩

theorem takeWhile_clear (hrest : Clear p rest) : rest.takeWhile p = [] := by
  cases rest with
  | nil => rfl
  | cons c cs => rw [List.takeWhile_cons, clear_cons.mp hrest, if_neg Bool.false_ne_true]

theorem takeWhile_append_clear (hxs : ∀ c ∈ xs, p c = true) (hrest : Clear p rest) :
    (xs ++ rest).takeWhile p = xs := by
  rw [List.takeWhile_append_of_pos hxs, takeWhile_clear hrest, List.append_nil]

theorem takeWhile_again (cs : Text) (hrest : Clear p rest) :
    (cs.takeWhile p ++ rest).takeWhile p = cs.takeWhile p :=
  takeWhile_append_clear (fun c hc => List.all_eq_true.mp List.all_takeWhile c hc) hrest

theorem clear_append (hxs : Clear p xs) (hrest : Clear p rest) : Clear p (xs ++ rest) := by
  cases xs with
  | nil => exact hrest
  | cons c cs => exact hxs

/-! Numbers -/

/-- Digits, at least one. -/
structure Digits (ds : Text) : Prop where
  all : ∀ c ∈ ds, isDigit c = true
  length_ne : ds.length ≠ 0

inductive Fraction : Text → Prop
  | point {ds : Text} : Digits ds → Fraction ('.' :: ds)

inductive Exponent : Text → Prop
  | plain {e : Char} {ds : Text} : (e == 'e' || e == 'E') = true → Digits ds → Exponent (e :: ds)
  | signed {e sign : Char} {ds : Text} : (e == 'e' || e == 'E') = true → (sign == '+' || sign == '-') = true →
      Digits ds → Exponent (e :: sign :: ds)

variable {ds fs es : Text}

theorem digits_takeWhile (h : (cs.takeWhile isDigit).length ≠ 0) : Digits (cs.takeWhile isDigit) :=
  ⟨fun c hc => List.all_eq_true.mp List.all_takeWhile c hc, h⟩

theorem Digits.takeWhile_append (h : Digits ds) (rest : Text) :
    ((ds ++ rest).takeWhile isDigit).length = ds.length + (rest.takeWhile isDigit).length := by
  rw [List.takeWhile_append_of_pos h.all, List.length_append]

theorem Fraction.clear (h : Fraction fs) (rest : Text) : Clear isDigit (fs ++ rest) := by
  obtain ⟨-⟩ := h
  exact clear_cons.mpr (by decide)

theorem Exponent.clear (h : Exponent es) (rest : Text) :
    Clear isDigit (es ++ rest) ∧ Clear (· == '.') (es ++ rest) := by
  obtain ⟨hmark, -⟩ | ⟨hmark, -, -⟩ := h
  all_goals
    rcases Bool.or_eq_true_iff.mp hmark with h | h
    all_goals
      rw [eq_of_beq h]
      exact ⟨clear_cons.mpr (by decide), clear_cons.mpr (by decide)⟩

theorem Fraction.length_append (h : Fraction fs) (rest : Text) :
    fractionLength (fs ++ rest) = fs.length + (rest.takeWhile isDigit).length := by
  obtain ⟨hds⟩ := h
  have hlength := hds.takeWhile_append rest
  have hsome := hds.length_ne
  rw [List.cons_append, fractionLength, hlength, List.length_cons, if_neg (by omega)]
  omega

theorem Exponent.length_append (h : Exponent es) (rest : Text) :
    exponentLength (es ++ rest) = es.length + (rest.takeWhile isDigit).length := by
  obtain ⟨hmark, hds⟩ | ⟨hmark, hsign, hds⟩ := h
  case plain e ds =>
    have hlength := hds.takeWhile_append rest
    cases ds with
    | nil => exact absurd rfl hds.length_ne
    | cons d ds =>
      rw [List.cons_append] at hlength
      rw [List.cons_append, List.cons_append, exponentLength, if_pos hmark,
        if_pos (hds.all d List.mem_cons_self), hlength]
      simp only [List.length_cons]
      omega
  case signed e sign ds =>
    have hlength := hds.takeWhile_append rest
    have hsome := hds.length_ne
    have hdigit : ¬isDigit sign = true := by
      rcases Bool.or_eq_true_iff.mp hsign with h | h <;> rw [eq_of_beq h] <;> decide
    rw [List.cons_append, List.cons_append, exponentLength, if_pos hmark, if_neg hdigit, if_pos hsign, hlength]
    dsimp only [List.length_cons]
    rw [if_neg (by omega)]
    omega

theorem fractionLength_clear (hrest : Clear (· == '.') rest) : fractionLength rest = 0 := by
  unfold fractionLength
  split
  · exact absurd (clear_cons.mp hrest) (by decide)
  · rfl

theorem exponentLength_delimits (hrest : Delimits rest) : exponentLength rest = 0 := by
  rcases hrest.cases with rfl | ⟨cs, rfl⟩
  · rfl
  · cases cs <;> rfl

theorem exists_fraction (cs : Text) : ∃ fs behind, (fs = [] ∨ Fraction fs) ∧ cs = fs ++ behind ∧
    fractionLength cs = fs.length := by
  unfold fractionLength
  split
  case h_1 cs =>
    dsimp only
    split
    case isTrue => exact ⟨[], '.' :: cs, .inl rfl, rfl, rfl⟩
    case isFalse hsome =>
      refine ⟨_, cs.dropWhile isDigit, .inr (.point (digits_takeWhile hsome)), ?_, Nat.add_comm _ _⟩
      rw [List.cons_append, List.takeWhile_append_dropWhile]
  case h_2 => exact ⟨[], cs, .inl rfl, rfl, rfl⟩

theorem exists_exponent (cs : Text) : ∃ es behind, (es = [] ∨ Exponent es) ∧ cs = es ++ behind ∧
    exponentLength cs = es.length := by
  unfold exponentLength
  split
  case h_1 e s cs =>
    split
    case isFalse => exact ⟨[], e :: s :: cs, .inl rfl, rfl, rfl⟩
    case isTrue hmark =>
      split
      case isTrue hdigit =>
        have hsome : ((s :: cs).takeWhile isDigit).length ≠ 0 := Nat.ne_of_gt (takeWhile_length_pos hdigit cs)
        refine ⟨_, (s :: cs).dropWhile isDigit, .inr (.plain hmark (digits_takeWhile hsome)), ?_,
          Nat.add_comm _ _⟩
        rw [List.cons_append, List.takeWhile_append_dropWhile]
      case isFalse =>
        split
        case isFalse => exact ⟨[], e :: s :: cs, .inl rfl, rfl, rfl⟩
        case isTrue hsign =>
          dsimp only
          split
          case isTrue => exact ⟨[], e :: s :: cs, .inl rfl, rfl, rfl⟩
          case isFalse hsome =>
            refine ⟨_, cs.dropWhile isDigit, .inr (.signed hmark hsign (digits_takeWhile hsome)), ?_,
              Nat.add_comm 2 _⟩
            rw [List.cons_append, List.cons_append, List.takeWhile_append_dropWhile]
  case h_2 => exact ⟨[], cs, .inl rfl, rfl, rfl⟩

/-- The number that has these digits, this fraction and this exponent. -/
def numeral (ds fs es : Text) : Token :=
  if fs.length + es.length = 0 then int (String.ofList (ds ++ fs ++ es)) else float (String.ofList (ds ++ fs ++ es))

theorem number_of_parts (hds : (ds ++ (fs ++ (es ++ rest))).takeWhile isDigit = ds)
    (hfs : fractionLength (fs ++ (es ++ rest)) = fs.length) (hes : exponentLength (es ++ rest) = es.length) :
    number (ds ++ (fs ++ (es ++ rest))) = (numeral ds fs es, (ds ++ fs ++ es).length) := by
  have hwhole : (ds ++ (fs ++ (es ++ rest))).drop (ds.length + fs.length) = es ++ rest := by
    rw [← List.append_assoc, List.drop_left' List.length_append]
  have htext : (ds ++ (fs ++ (es ++ rest))).take (ds.length + fs.length + es.length) = ds ++ fs ++ es := by
    rw [← List.append_assoc, ← List.append_assoc, List.take_left']
    simp only [List.length_append]
  simp only [number, numeral, hds, List.drop_left, hfs, hwhole, hes, htext, List.length_append]

theorem exists_number (cs : Text) : ∃ fs es, (fs = [] ∨ Fraction fs) ∧ (es = [] ∨ Exponent es) ∧
    number cs = (numeral (cs.takeWhile isDigit) fs es, (cs.takeWhile isDigit ++ fs ++ es).length) ∧
    cs.takeWhile isDigit ++ fs ++ es <+: cs := by
  obtain ⟨fs, behind, hfs, hfraction, hfsLength⟩ := exists_fraction (cs.dropWhile isDigit)
  obtain ⟨es, last, hes, rfl, hesLength⟩ := exists_exponent behind
  have hcs : cs.takeWhile isDigit ++ (fs ++ (es ++ last)) = cs := by
    rw [← hfraction, List.takeWhile_append_dropWhile]
  have hnumber := number_of_parts (by rw [hcs]) (hfraction ▸ hfsLength) hesLength
  rw [hcs] at hnumber
  exact ⟨fs, es, hfs, hes, hnumber, last, by rw [List.append_assoc, List.append_assoc, hcs]⟩

theorem number_length_le (cs : Text) : (number cs).2 ≤ cs.length := by
  obtain ⟨fs, es, -, -, hnumber, hprefix⟩ := exists_number cs
  rw [hnumber]
  exact hprefix.length_le

theorem number_again (cs : Text) (hrest : Delimits rest) :
    number (cs.take (number cs).2 ++ rest) = number cs := by
  obtain ⟨fs, es, hfs, hes, hnumber, hprefix⟩ := exists_number cs
  have hdigits : rest.takeWhile isDigit = [] := takeWhile_clear (hrest.clear (by decide))
  have hexponent : exponentLength (es ++ rest) = es.length ∧ Clear isDigit (es ++ rest) ∧
      Clear (· == '.') (es ++ rest) := by
    rcases hes with rfl | hes
    · exact ⟨exponentLength_delimits hrest, hrest.clear (by decide), hrest.clear (by decide)⟩
    · exact ⟨by rw [hes.length_append, hdigits]; rfl, hes.clear rest⟩
  obtain ⟨hesLength, hdigit, hpoint⟩ := hexponent
  have hfraction : fractionLength (fs ++ (es ++ rest)) = fs.length ∧ Clear isDigit (fs ++ (es ++ rest)) := by
    rcases hfs with rfl | hfs
    · exact ⟨fractionLength_clear hpoint, hdigit⟩
    · exact ⟨by rw [hfs.length_append, takeWhile_clear hdigit]; rfl, hfs.clear _⟩
  rw [hnumber, ← List.prefix_iff_eq_take.mp hprefix, List.append_assoc, List.append_assoc]
  exact number_of_parts (takeWhile_again cs hfraction.2) hfraction.1 hesLength

/-! Names -/

theorem name_again (cs : Text) (hrest : Delimits rest) : name (cs.take (name cs).2 ++ rest) = name cs := by
  have hclear : Clear continuesName rest := hrest.clear (by decide)
  have htake : cs.take (name cs).2 = cs.takeWhile continuesName := take_takeWhile_length _ cs
  rw [htake]
  simp only [name, takeWhile_again cs hclear]

/-! Strings -/

theorem stringLength_escape {c : Char} (hc : c ≠ '\n') (cs : Text) :
    stringLength ('\\' :: c :: cs) = ((stringLength cs).1 + 2, (stringLength cs).2) := by
  rw [stringLength]
  exact hc

theorem stringLength_cons {c : Char} (hquote : c ≠ '"') (hend : c ≠ '\n') (hescape : c ≠ '\\') (cs : Text) :
    stringLength (c :: cs) = ((stringLength cs).1 + 1, (stringLength cs).2) := by
  rw [stringLength]
  · exact hquote
  · exact hend
  · exact fun h => absurd h hescape
  · exact fun _ h => absurd h hescape
  · exact fun _ _ h => absurd h hescape

theorem not_escape {c : Char} (hlast : c = '\\' → cs = [] → False)
    (hescaped : ∀ d ds, c = '\\' → cs = d :: ds → False) : c ≠ '\\' := by
  cases cs with
  | nil => exact fun h => hlast h rfl
  | cons d cs => exact fun h => hescaped d cs h rfl

theorem stringLength_le (cs : Text) : (stringLength cs).1 ≤ cs.length := by
  fun_induction stringLength cs <;> simp_all
  all_goals omega

theorem stringLength_again (cs : Text) (hrest : Delimits rest) :
    stringLength (cs.take (stringLength cs).1 ++ rest) = stringLength cs := by
  have hnone : stringLength rest = (0, false) := by
    rcases hrest.cases with rfl | ⟨cs, rfl⟩ <;> rfl
  fun_induction stringLength cs with
  | case1 => exact hnone
  | case2 => rfl
  | case3 => exact hnone
  | case4 => exact hnone
  | case5 => exact hnone
  | case6 c cs hc r ih =>
    simp only [r, List.take_succ_cons, List.cons_append]
    rw [stringLength_escape hc, ih]
  | case7 c cs hquote hend hlast hline hescaped r ih =>
    simp only [r, List.take_succ_cons, List.cons_append]
    rw [stringLength_cons hquote hend (not_escape hlast hescaped), ih]

/-! Comments -/

/-- The two characters that open a comment are not at the start. -/
structure NoComment (c : Char) (cs : Text) : Prop where
  line : c = '/' → ∀ ds, cs ≠ '/' :: ds
  block : c = '(' → ∀ ds, cs ≠ '*' :: ds

theorem commentLength?_cons {depth : Nat} {c d : Char} (hopen : ¬(c = '(' ∧ d = '*'))
    (hclose : ¬(c = '*' ∧ d = ')')) (cs : Text) :
    commentLength? depth (c :: d :: cs) = (commentLength? depth (d :: cs)).map (· + 1) := by
  rw [commentLength?]
  · rintro _ rfl h
    exact hopen ⟨rfl, (List.cons.inj h).1⟩
  · rintro _ - rfl h
    exact hclose ⟨rfl, (List.cons.inj h).1⟩
  · rintro _ _ - rfl h
    exact hclose ⟨rfl, (List.cons.inj h).1⟩

theorem commentLength?_le {depth n : Nat} (h : commentLength? depth cs = some n) : n ≤ cs.length := by
  fun_induction commentLength? depth cs generalizing n with
  | case2 =>
    obtain rfl := Option.some.inj h
    simp only [List.length_cons]
    omega
  | case5 => cases h
  | case1 _ _ ih | case3 _ _ ih | case4 _ _ _ _ _ _ ih =>
    obtain ⟨m, hm, rfl⟩ := Option.map_eq_some_iff.mp h
    exact Nat.add_le_add_right (ih hm) _

theorem commentLength?_pos {depth n : Nat} (h : commentLength? depth cs = some n) : 0 < n := by
  unfold commentLength? at h
  split at h
  case h_2 =>
    obtain rfl := Option.some.inj h
    exact Nat.two_pos
  case h_5 => cases h
  all_goals
    obtain ⟨m, -, rfl⟩ := Option.map_eq_some_iff.mp h
    exact Nat.succ_pos _

/-- A comment that ends is read again, whatever stands behind it. -/
theorem commentLength?_again {depth n : Nat} (h : commentLength? depth cs = some n) (rest : Text) :
    commentLength? depth (cs.take n ++ rest) = some n := by
  fun_induction commentLength? depth cs generalizing n with
  | case1 depth cs ih =>
    obtain ⟨m, hm, rfl⟩ := Option.map_eq_some_iff.mp h
    simp only [List.take_succ_cons, List.cons_append, commentLength?]
    rw [ih hm, Option.map_some]
  | case2 =>
    obtain rfl := Option.some.inj h
    rfl
  | case3 depth cs ih =>
    obtain ⟨m, hm, rfl⟩ := Option.map_eq_some_iff.mp h
    simp only [List.take_succ_cons, List.cons_append, commentLength?]
    rw [ih hm, Option.map_some]
  | case4 depth c cs hopen hclose hcloses ih =>
    obtain ⟨m, hm, rfl⟩ := Option.map_eq_some_iff.mp h
    have hpos := commentLength?_pos hm
    -- a character that opens or ends nothing is followed by one of the comment
    cases cs with
    | nil => cases hm
    | cons d cs =>
      have hagain := ih hm
      obtain ⟨k, rfl⟩ : ∃ k, m = k + 1 := ⟨m - 1, by omega⟩
      simp only [List.take_succ_cons, List.cons_append] at hagain ⊢
      rw [commentLength?_cons, hagain, Option.map_some]
      · rintro ⟨hc, rfl⟩
        exact hopen cs hc rfl
      · rintro ⟨hc, rfl⟩
        cases depth with
        | zero => exact hclose cs rfl hc rfl
        | succ depth => exact hcloses depth cs rfl hc rfl
  | case5 => cases h

/-! Character literals and type variables -/

theorem quoted_escape {c : Char} (hc : c ≠ '\n') (cs : Text) :
    quoted ('\\' :: c :: '\'' :: cs) = (char (String.ofList ['\'', '\\', c, '\'']), 4) := by
  simp only [quoted, if_neg hc]
  rfl

theorem quoted_plain {c : Char} (hescape : c ≠ '\\') (hquote : c ≠ '\'') (hline : c ≠ '\n') (cs : Text) :
    quoted (c :: '\'' :: cs) = (char (String.ofList ['\'', c, '\'']), 3) := by
  simp [quoted, hescape, hquote, hline]

theorem quoted_typeVar {c : Char} (hname : startsName c = true) (hnext : ∀ ds, cs ≠ '\'' :: ds) :
    quoted (c :: cs) = (typeVar (String.ofList ('\'' :: c :: cs.takeWhile continuesTypeVar)),
      2 + (cs.takeWhile continuesTypeVar).length) := by
  have hescape : c ≠ '\\' := by
    rintro rfl
    exact absurd hname (by decide)
  unfold quoted
  dsimp only
  split
  case h_1 h => exact absurd (List.cons.inj h).1 hescape
  case h_2 h => exact absurd (List.cons.inj h).1 hescape
  case h_3 h => exact absurd (List.cons.inj h).2 (hnext _)
  case h_4 => rw [if_pos hname]

theorem quoted_cases (cs : Text) : quoted cs = (error, 1) ∨
    (∃ c ds, cs = '\\' :: c :: '\'' :: ds ∧ c ≠ '\n') ∨
    (∃ c ds, cs = c :: '\'' :: ds ∧ c ≠ '\\' ∧ c ≠ '\'' ∧ c ≠ '\n') ∨
    ∃ c ds, cs = c :: ds ∧ startsName c = true ∧ ∀ more, ds ≠ '\'' :: more := by
  unfold quoted
  dsimp only
  split
  case h_1 c ds =>
    split
    case isTrue => exact .inl rfl
    case isFalse hline => exact .inr (.inl ⟨c, ds, rfl, hline⟩)
  case h_2 => exact .inl rfl
  case h_3 c ds _ hescape =>
    split
    case isTrue => exact .inl rfl
    case isFalse hplain =>
      simp only [Bool.or_eq_true, decide_eq_true_eq, not_or] at hplain
      exact .inr (.inr (.inl ⟨c, ds, rfl, hescape, hplain.1, hplain.2⟩))
  case h_4 =>
    split
    case h_1 c ds _ _ hplain =>
      split
      case isTrue hname => exact .inr (.inr (.inr ⟨c, ds, rfl, hname, fun more h => hplain c more (h ▸ rfl)⟩))
      case isFalse => exact .inl rfl
    case h_2 => exact .inl rfl

theorem quoted_length_le (cs : Text) : (quoted cs).2 ≤ cs.length + 1 := by
  rcases quoted_cases cs with h | ⟨c, ds, rfl, hc⟩ | ⟨c, ds, rfl, hescape, hquote, hline⟩ | ⟨c, ds, rfl, hname, hnext⟩
  · rw [h]
    exact Nat.succ_pos _
  · rw [quoted_escape hc]
    exact Nat.le_add_left _ _
  · rw [quoted_plain hescape hquote hline]
    exact Nat.le_add_left _ _
  · have hle : (ds.takeWhile continuesTypeVar).length ≤ ds.length := (List.takeWhile_prefix _).length_le
    rw [quoted_typeVar hname hnext, List.length_cons]
    dsimp only
    omega

theorem quoted_delimits (hrest : Delimits rest) : quoted rest = (error, 1) := by
  rcases hrest.cases with rfl | ⟨cs, rfl⟩
  · rfl
  · rcases quoted_cases ('\n' :: cs) with h | ⟨c, ds, h, -⟩ | ⟨c, ds, h, -, -, hline⟩ | ⟨c, ds, h, hname, -⟩
    · exact h
    · cases h
    · cases h
      exact absurd rfl hline
    · cases h
      exact absurd hname (by decide)

theorem quoted_again (cs : Text) (hrest : Delimits rest) :
    quoted (cs.take ((quoted cs).2 - 1) ++ rest) = quoted cs := by
  rcases quoted_cases cs with h | ⟨c, ds, rfl, hc⟩ | ⟨c, ds, rfl, hescape, hquote, hline⟩ | ⟨c, ds, rfl, hname, hnext⟩
  · rw [h]
    exact quoted_delimits hrest
  · rw [quoted_escape hc]
    exact quoted_escape hc rest
  · rw [quoted_plain hescape hquote hline]
    exact quoted_plain hescape hquote hline rest
  · have hclear : Clear continuesTypeVar rest := hrest.clear (by decide)
    have htake : (c :: ds).take (2 + (ds.takeWhile continuesTypeVar).length - 1) =
        c :: ds.takeWhile continuesTypeVar := by
      rw [show 2 + (ds.takeWhile continuesTypeVar).length - 1 = (ds.takeWhile continuesTypeVar).length + 1 by omega,
        List.take_succ_cons, take_takeWhile_length]
    have hquote : ∀ more, ds.takeWhile continuesTypeVar ++ rest ≠ '\'' :: more := by
      intro more h
      have hfirst : Clear (· == '\'') (ds.takeWhile continuesTypeVar ++ rest) := by
        refine clear_append (fun d hd => ?_) (hrest.clear (by decide))
        have hvar := List.all_eq_true.mp List.all_takeWhile d (List.mem_of_mem_head? hd)
        refine Bool.eq_false_iff.mpr fun hquote => ?_
        rw [eq_of_beq hquote] at hvar
        exact absurd hvar (by decide)
      rw [h] at hfirst
      exact absurd (clear_cons.mp hfirst) (by decide)
    rw [quoted_typeVar hname hnext]
    dsimp only
    rw [htake, List.cons_append, quoted_typeVar hname hquote, takeWhile_again ds hclear]

/-! Operators and separators -/

/-- The characters that begin a symbol, a comment or nothing. -/
structure Mark (c : Char) : Prop where
  not_digit : ¬isDigit c = true
  not_name : ¬startsName c = true
  not_string : c ≠ '"'
  not_quote : c ≠ '\''
  not_hash : c ≠ '#'

/-- A symbol has two characters, or it is told by its first one. -/
theorem symbol?_cases (c : Char) (cs : Text) :
    (∃ d ds t, cs = d :: ds ∧ d ≠ '\n' ∧ ∀ rest, symbol? (c :: d :: rest) = some (t, 2)) ∨
      symbol? (c :: cs) = symbol? [c] ∧ ((symbol? [c]).getD (error, 1)).2 = 1 := by
  generalize htext : c :: cs = text
  fun_cases symbol? text
  case case28 =>
    subst htext
    have hnone : symbol? [c] = none := by
      generalize hfirst : [c] = first
      fun_cases symbol? first
      case case28 => rfl
      all_goals cases hfirst
      all_goals solve_by_elim [rfl]
    rw [hnone]
    exact .inr ⟨rfl, rfl⟩
  all_goals obtain ⟨rfl, rfl⟩ := List.cons.inj htext
  all_goals first
    | exact .inl ⟨_, _, _, rfl, by decide, fun _ => rfl⟩
    | exact .inr ⟨rfl, rfl⟩

theorem symbol?_delimits (c : Char) (hrest : Delimits rest) : symbol? (c :: rest) = symbol? [c] := by
  rcases symbol?_cases c rest with ⟨d, ds, t, rfl, hd, -⟩ | ⟨hsymbol, -⟩
  · exact absurd (hrest d rfl) hd
  · exact hsymbol

theorem symbol?_length_le (c : Char) (cs : Text) : ((symbol? (c :: cs)).getD (error, 1)).2 ≤ cs.length + 1 := by
  rcases symbol?_cases c cs with ⟨d, ds, t, rfl, -, hsymbol⟩ | ⟨hsymbol, hlength⟩
  · rw [hsymbol]
    exact Nat.le_add_left _ _
  · rw [hsymbol, hlength]
    exact Nat.succ_pos _

/-! Tokens -/

theorem lexeme_number {c : Char} (h : isDigit c = true) (cs : Text) : lexeme c cs = number (c :: cs) := if_pos h

theorem lexeme_name {c : Char} (hdigit : ¬isDigit c = true) (h : startsName c = true) (cs : Text) :
    lexeme c cs = name (c :: cs) := (if_neg hdigit).trans (if_pos h)

theorem lexeme_string (cs : Text) : lexeme '"' cs =
    (if (stringLength cs).2 then string (String.ofList ('"' :: cs.take (stringLength cs).1))
      else unclosedString (String.ofList ('"' :: cs.take (stringLength cs).1)), 1 + (stringLength cs).1) := rfl

theorem lexeme_quoted (cs : Text) : lexeme '\'' cs = quoted cs := rfl

theorem lexeme_directive (cs : Text) : lexeme '#' cs = if (cs.takeWhile isLetter).isEmpty then (error, 1)
    else (directive (String.ofList ('#' :: cs.takeWhile isLetter)), 1 + (cs.takeWhile isLetter).length) := rfl

theorem lexeme_lineComment (cs : Text) : lexeme '/' ('/' :: cs) =
    (lineComment (String.ofList ('/' :: '/' :: cs.takeWhile (· ≠ '\n'))), 2 + (cs.takeWhile (· ≠ '\n')).length) :=
  rfl

theorem string_again (cs : Text) (hrest : Delimits rest) :
    lexeme '"' (cs.take ((lexeme '"' cs).2 - 1) ++ rest) = lexeme '"' cs := by
  have htake : (cs.take (stringLength cs).1 ++ rest).take (stringLength cs).1 = cs.take (stringLength cs).1 :=
    List.take_left' (List.length_take_of_le (stringLength_le cs))
  rw [lexeme_string cs, Nat.add_sub_cancel_left, lexeme_string, stringLength_again cs hrest, htake]

theorem directive_again (cs : Text) (hrest : Delimits rest) :
    lexeme '#' (cs.take ((lexeme '#' cs).2 - 1) ++ rest) = lexeme '#' cs := by
  have htake : cs.take ((lexeme '#' cs).2 - 1) = cs.takeWhile isLetter := by
    rw [lexeme_directive]
    split
    case isTrue hnone => rw [List.isEmpty_iff.mp hnone, Nat.sub_self, List.take_zero]
    case isFalse => rw [Nat.add_sub_cancel_left, take_takeWhile_length]
  rw [htake, lexeme_directive, takeWhile_again cs (hrest.clear (by decide)), ← lexeme_directive]

theorem take_opened (d : Char) (ds : Text) (n : Nat) : (d :: ds).take (2 + n - 1) = d :: ds.take n := by
  rw [show 2 + n - 1 = n + 1 by omega, List.take_succ_cons]

theorem lineComment_again (cs : Text) (hrest : Delimits rest) :
    lexeme '/' (('/' :: cs).take ((lexeme '/' ('/' :: cs)).2 - 1) ++ rest) = lexeme '/' ('/' :: cs) := by
  have htake : ('/' :: cs).take ((lexeme '/' ('/' :: cs)).2 - 1) = '/' :: cs.takeWhile (· ≠ '\n') := by
    rw [lexeme_lineComment, take_opened, take_takeWhile_length]
  rw [htake, List.cons_append, lexeme_lineComment, takeWhile_again cs (hrest.clear (by decide)),
    ← lexeme_lineComment]

theorem lexeme_comment (cs : Text) :
    lexeme '(' ('*' :: cs) = ((commentLength? 0 cs).elim error fun _ => blockComment,
      2 + (commentLength? 0 cs).getD cs.length) := by
  rw [lexeme, if_neg (by decide), if_neg (by decide), if_neg (by decide), if_neg (by decide), if_neg (by decide)]
  cases commentLength? 0 cs <;> rfl

/-- Nothing stands behind a comment that does not end. -/
theorem blockComment_again (cs : Text)
    (hend : ('*' :: cs).drop ((lexeme '(' ('*' :: cs)).2 - 1) = [] → rest = []) :
    lexeme '(' (('*' :: cs).take ((lexeme '(' ('*' :: cs)).2 - 1) ++ rest) = lexeme '(' ('*' :: cs) := by
  rw [lexeme_comment, take_opened, List.cons_append, lexeme_comment]
  cases hcomment : commentLength? 0 cs with
  | some n => rw [Option.getD_some, commentLength?_again hcomment, Option.getD_some]
  | none =>
    rw [lexeme_comment, hcomment, Option.getD_none] at hend
    have hrest : rest = [] := hend (List.drop_of_length_le (by simp only [List.length_cons]; omega))
    rw [Option.getD_none, List.take_length, hrest, List.append_nil, hcomment, Option.getD_none]

theorem lexeme_symbol {c : Char} (hmark : Mark c) (hplain : NoComment c cs) :
    lexeme c cs = (symbol? (c :: cs)).getD (error, 1) := by
  unfold lexeme
  rw [if_neg hmark.not_digit, if_neg hmark.not_name, if_neg hmark.not_string, if_neg hmark.not_quote,
    if_neg hmark.not_hash]
  split
  case h_1 => exact absurd rfl (hplain.line rfl _)
  case h_2 => exact absurd rfl (hplain.block rfl _)
  case h_3 => rfl

theorem mark_again {c : Char} (hmark : Mark c) (hplain : NoComment c cs) (hrest : Delimits rest) :
    lexeme c (cs.take ((lexeme c cs).2 - 1) ++ rest) = lexeme c cs := by
  rw [lexeme_symbol hmark hplain]
  rcases symbol?_cases c cs with ⟨d, ds, t, rfl, -, hsymbol⟩ | ⟨hsymbol, hlength⟩
  · have hplain' : NoComment c (d :: rest) :=
      ⟨fun hc more h => hplain.line hc ds ((List.cons.inj h).1 ▸ rfl),
        fun hc more h => hplain.block hc ds ((List.cons.inj h).1 ▸ rfl)⟩
    rw [hsymbol]
    exact (lexeme_symbol hmark hplain').trans (by rw [hsymbol])
  · have hplain' : NoComment c rest := by
      constructor
      all_goals
        rintro - ds rfl
        exact absurd (hrest _ rfl) (by decide)
    rw [hsymbol, hlength]
    exact (lexeme_symbol hmark hplain').trans (by rw [symbol?_delimits c hrest])

theorem lexeme_length_le (c : Char) (cs : Text) : (lexeme c cs).2 ≤ cs.length + 1 := by
  unfold lexeme
  split
  · exact number_length_le (c :: cs)
  split
  · exact (List.takeWhile_prefix continuesName).length_le
  split
  · have hle := stringLength_le cs
    dsimp only
    omega
  split
  · exact quoted_length_le cs
  split
  · have hle : (cs.takeWhile isLetter).length ≤ cs.length := (List.takeWhile_prefix _).length_le
    dsimp only
    split
    · exact Nat.succ_pos _
    · dsimp only
      omega
  split
  case h_1 ds _ _ _ _ _ =>
    have hle : (ds.takeWhile (· ≠ '\n')).length ≤ ds.length := (List.takeWhile_prefix _).length_le
    dsimp only [List.length_cons]
    omega
  case h_2 ds _ _ _ _ _ =>
    split
    case h_1 n hcomment =>
      have hle := commentLength?_le hcomment
      dsimp only [List.length_cons]
      omega
    case h_2 =>
      dsimp only [List.length_cons]
      omega
  case h_3 => exact symbol?_length_le c cs

/-- A token is read again in front of a line feed, and at the end of a text if it stood there before. -/
theorem lexeme_again (c : Char) (cs : Text) (hrest : Delimits rest)
    (hend : cs.drop ((lexeme c cs).2 - 1) = [] → rest = []) :
    lexeme c (cs.take ((lexeme c cs).2 - 1) ++ rest) = lexeme c cs := by
  have hcut : c :: (cs.take ((lexeme c cs).2 - 1) ++ rest) = (c :: cs).take (lexeme c cs).2 ++ rest := by
    rw [List.take_cons (lexeme_length_pos c cs), List.cons_append]
  by_cases hdigit : isDigit c = true
  · rw [lexeme_number hdigit, hcut, lexeme_number hdigit]
    exact number_again (c :: cs) hrest
  by_cases hname : startsName c = true
  · rw [lexeme_name hdigit hname, hcut, lexeme_name hdigit hname]
    exact name_again (c :: cs) hrest
  by_cases hstring : c = '"'
  · subst hstring
    exact string_again cs hrest
  by_cases hquote : c = '\''
  · subst hquote
    exact quoted_again cs hrest
  by_cases hhash : c = '#'
  · subst hhash
    exact directive_again cs hrest
  by_cases hline : ∃ ds, c = '/' ∧ cs = '/' :: ds
  · obtain ⟨ds, rfl, rfl⟩ := hline
    exact lineComment_again ds hrest
  by_cases hblock : ∃ ds, c = '(' ∧ cs = '*' :: ds
  · obtain ⟨ds, rfl, rfl⟩ := hblock
    exact blockComment_again ds hend
  have hmark : Mark c := ⟨hdigit, hname, hstring, hquote, hhash⟩
  exact mark_again hmark ⟨fun hc ds h => hline ⟨ds, hc, h⟩, fun hc ds h => hblock ⟨ds, hc, h⟩⟩ hrest

end Token
end ScriptAnalyzer
