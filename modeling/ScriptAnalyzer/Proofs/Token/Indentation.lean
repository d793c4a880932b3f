import ScriptAnalyzer.Proofs.Syntax.Spans
import ScriptAnalyzer.Proofs.Token.Lines
import ScriptAnalyzer.Proofs.Token.LongestMatch
import ScriptAnalyzer.Proofs.Token.Relexing

/-!
The tokens of an indented text: each stands as many columns further right as spaces were put in front of its line.
-/

namespace ScriptAnalyzer
namespace Text

variable {k : Nat} {before piece rest text cs : Text}

/-- Puts `k` spaces behind every line feed. -/
def indentBehind (k : Nat) : Text → Text
  | [] => []
  | c :: cs => if c = '\n' then '\n' :: (List.replicate k ' ' ++ indentBehind k cs) else c :: indentBehind k cs

/-- Puts `k` spaces at the start of every line. -/
def indent (k : Nat) (text : Text) : Text := List.replicate k ' ' ++ indentBehind k text

/-- Where a byte of the text stands in the indented text. -/
def indentedOffset (k : Nat) (text : Text) (offset : Nat) : Nat := offset + k * ((text.positionOf offset).line + 1)

theorem indentBehind_newline (k : Nat) (cs : Text) :
    indentBehind k ('\n' :: cs) = '\n' :: (List.replicate k ' ' ++ indentBehind k cs) :=
  if_pos rfl

theorem indentBehind_cons {c : Char} (hc : c ≠ '\n') (k : Nat) (cs : Text) :
    indentBehind k (c :: cs) = c :: indentBehind k cs :=
  if_neg hc

theorem exists_indentBehind (k : Nat) (c : Char) (cs : Text) : ∃ ds, indentBehind k (c :: cs) = c :: ds := by
  by_cases hc : c = '\n'
  · rw [hc, indentBehind_newline]
    exact ⟨_, rfl⟩
  · rw [indentBehind_cons hc]
    exact ⟨_, rfl⟩

theorem indentBehind_append (k : Nat) (cs ds : Text) :
    indentBehind k (cs ++ ds) = indentBehind k cs ++ indentBehind k ds := by
  induction cs with
  | nil => rfl
  | cons c cs ih =>
    by_cases hc : c = '\n'
    · subst hc
      rw [List.cons_append, indentBehind_newline, indentBehind_newline, ih, List.cons_append, List.append_assoc]
    · rw [List.cons_append, indentBehind_cons hc, indentBehind_cons hc, ih, List.cons_append]

theorem indentBehind_oneLine (hpiece : '\n' ∉ piece) : indentBehind k piece = piece := by
  induction piece with
  | nil => rfl
  | cons c cs ih =>
    obtain ⟨hc, hcs⟩ := not_or.mp (mt List.mem_cons.mpr hpiece)
    rw [indentBehind_cons (Ne.symm hc), ih hcs]

theorem indent_append (k : Nat) (cs ds : Text) : indent k (cs ++ ds) = indent k cs ++ indentBehind k ds := by
  rw [indent, indent, indentBehind_append, List.append_assoc]

theorem byteSize_replicate (k : Nat) : byteSize (List.replicate k ' ') = k := by
  induction k with
  | zero => rfl
  | succ k ih =>
    rw [List.replicate_succ, byteSize, ih]
    exact Nat.add_comm 1 k

theorem byteSize_indentBehind (k : Nat) (cs : Text) : byteSize (indentBehind k cs) = byteSize cs + k * cs.count '\n' := by
  induction cs with
  | nil => rfl
  | cons c cs ih =>
    by_cases hc : c = '\n'
    · subst hc
      rw [indentBehind_newline, byteSize, byteSize_append, byteSize_replicate, ih, byteSize, List.count_cons_self,
        Nat.mul_succ]
      omega
    · rw [indentBehind_cons hc, byteSize, ih, byteSize, List.count_cons_of_ne hc, Nat.add_assoc]

theorem indentedOffset_byteSize (k : Nat) (before rest : Text) :
    indentedOffset k (before ++ rest) (byteSize before) = byteSize (indent k before) := by
  rw [indentedOffset, line_positionOf, indent, byteSize_append, byteSize_replicate, byteSize_indentBehind, Nat.mul_succ]
  omega

theorem indentedOffset_end (k : Nat) (text : Text) : indentedOffset k text (byteSize text) = byteSize (indent k text) := by
  have h := indentedOffset_byteSize k text []
  rwa [List.append_nil] at h

theorem line_le_positionFrom (p : Position) (offset : Nat) (text : Text) :
    p.line ≤ (positionFrom p offset text).line := by
  induction text generalizing p offset with
  | nil => exact Nat.le_refl _
  | cons c cs ih =>
    rw [positionFrom]
    split
    · refine Nat.le_trans ?_ (ih _ _)
      rw [Position.next]
      split
      · exact Nat.le_succ _
      · exact Nat.le_refl _
    · exact Nat.le_refl _

theorem line_positionFrom_mono (p : Position) {offset later : Nat} (h : offset ≤ later) (text : Text) :
    (positionFrom p offset text).line ≤ (positionFrom p later text).line := by
  induction text generalizing p offset later with
  | nil => exact Nat.le_refl _
  | cons c cs ih =>
    by_cases hc : c.utf8Size ≤ offset
    · rw [positionFrom, if_pos hc, positionFrom, if_pos (Nat.le_trans hc h)]
      exact ih _ (Nat.sub_le_sub_right h _)
    · rw [positionFrom, if_neg hc]
      exact line_le_positionFrom p later (c :: cs)

theorem indentedOffset_lt (k : Nat) (text : Text) {offset later : Nat} (h : offset < later) :
    indentedOffset k text offset < indentedOffset k text later :=
  Nat.add_lt_add_of_lt_of_le h
    (Nat.mul_le_mul_left k (Nat.succ_le_succ (line_positionFrom_mono ⟨0, 0⟩ (Nat.le_of_lt h) text)))

theorem positionFrom_replicate (p : Position) (k offset : Nat) (cs : Text) :
    positionFrom p (k + offset) (List.replicate k ' ' ++ cs) = positionFrom ⟨p.line, p.character + k⟩ offset cs := by
  induction k generalizing p with
  | zero => rw [Nat.zero_add]; rfl
  | succ k ih =>
    have hsize : ' '.utf8Size = 1 := rfl
    have hnext : p.next ' ' = ⟨p.line, p.character + 1⟩ := rfl
    rw [List.replicate_succ, List.cons_append, positionFrom, hsize, if_pos (by omega),
      show k + 1 + offset - 1 = k + offset by omega, ih, hnext, Nat.add_assoc, Nat.add_comm 1 k]

/-- A position of the text, as one of the indented text. -/
def indentedPosition (k : Nat) (p : Position) : Position := ⟨p.line, p.character + k⟩

theorem positionFrom_indentBehind (k : Nat) (p : Position) (offset : Nat) (cs : Text) :
    positionFrom (indentedPosition k p) (offset + k * ((positionFrom p offset cs).line - p.line)) (indentBehind k cs) =
      indentedPosition k (positionFrom p offset cs) := by
  induction cs generalizing p offset with
  | nil => rfl
  | cons c cs ih =>
    by_cases hfits : c.utf8Size ≤ offset
    · have hle := line_le_positionFrom (p.next c) (offset - c.utf8Size) cs
      have hnext := ih (p.next c) (offset - c.utf8Size)
      rw [positionFrom, if_pos hfits]
      by_cases hc : c = '\n'
      · subst hc
        have hline : (p.next '\n') = ⟨p.line + 1, 0⟩ := rfl
        rw [hline] at hle hnext ⊢
        generalize positionFrom ⟨p.line + 1, 0⟩ (offset - '\n'.utf8Size) cs = q at hle hnext ⊢
        obtain ⟨more, hmore⟩ : ∃ more, q.line - p.line = more + 1 := ⟨q.line - p.line - 1, by dsimp only at hle; omega⟩
        have hmore' : q.line - (p.line + 1) = more := by omega
        rw [hmore'] at hnext
        rw [indentBehind_newline, positionFrom, hmore, Nat.mul_succ, if_pos (by omega),
          show offset + (k * more + k) - '\n'.utf8Size = k + (offset - '\n'.utf8Size + k * more) by omega,
          positionFrom_replicate, ← hnext]
        rfl
      · have hline : (p.next c) = ⟨p.line, p.character + 1⟩ := if_neg hc
        rw [hline] at hle hnext ⊢
        generalize positionFrom ⟨p.line, p.character + 1⟩ (offset - c.utf8Size) cs = q at hle hnext ⊢
        rw [indentBehind_cons hc, positionFrom, if_pos (by omega), Nat.sub_add_comm hfits, ← hnext]
        congr 1
        simp only [Position.next, if_neg hc, indentedPosition, Nat.add_right_comm]
    · have hstop : positionFrom p offset (c :: cs) = p := if_neg hfits
      obtain ⟨ds, hds⟩ := exists_indentBehind k c cs
      rw [hstop, Nat.sub_self, Nat.mul_zero, Nat.add_zero, hds, positionFrom, if_neg hfits]

theorem positionOf_indent (k : Nat) (text : Text) (offset : Nat) :
    (indent k text).positionOf (indentedOffset k text offset) = indentedPosition k (text.positionOf offset) := by
  have h := positionFrom_indentBehind k ⟨0, 0⟩ offset text
  rw [positionOf, indentedOffset, Nat.mul_succ, show ∀ a b : Nat, offset + (a + b) = b + (offset + a) by omega, indent,
    positionFrom_replicate]
  exact h

end Text

namespace Token

open Text

variable {k : Nat} {c : Char} {cs before piece rest text : Text} {t : Token}

/-! The first line -/

theorem Wins.antisymm {r r' : Token × Nat} (h : Wins r r') (h' : Wins r' r) : r = r' := by
  obtain hlt | ⟨hlength, htoken⟩ := h
  · obtain hlt' | ⟨hlength, -⟩ := h'
    · exact absurd hlt (Nat.lt_asymm hlt')
    · exact absurd hlt (Nat.not_lt.mpr (Nat.le_of_eq hlength))
  · obtain hlt | ⟨-, htoken'⟩ := h'
    · exact absurd hlt (Nat.not_lt.mpr (Nat.le_of_eq hlength))
    · refine Prod.ext ?_ hlength.symm
      rcases htoken with heq | ⟨w, name, hr, hr'⟩
      · exact heq.symm
      · rcases htoken' with heq | ⟨w', name', hr₂, -⟩
        · exact heq
        · rw [hr'] at hr₂
          cases hr₂

theorem prefix_of_oneLine (hpiece : OneLine piece) (hrest : Delimits rest) (h : piece <+: cs ++ rest) : piece <+: cs := by
  rcases List.prefix_or_prefix_of_prefix h (List.prefix_append cs rest) with h | ⟨more, rfl⟩
  · exact h
  · cases more with
    | nil => exact ⟨[], by simp⟩
    | cons d ds =>
      obtain ⟨last, rfl⟩ := (List.prefix_append_right_inj cs).mp h
      obtain rfl := hrest d rfl
      exact absurd (List.mem_append_right _ List.mem_cons_self) hpiece

theorem length_take_lexeme (c : Char) (cs : Text) : ((c :: cs).take (lexeme c cs).2).length = (lexeme c cs).2 :=
  List.length_take_of_le (lexeme_length_le c cs)

/-- A text that begins with no comment is read the same whatever stands behind its first line. -/
theorem lexeme_firstLine (hrest : Delimits rest) (hplain : ∀ ds, c :: (cs ++ rest) ≠ '(' :: '*' :: ds) :
    lexeme c (cs ++ rest) = lexeme c cs := by
  have hplain' : ∀ ds, c :: cs ≠ '(' :: '*' :: ds := fun ds h =>
    hplain (ds ++ rest) (by rw [← List.cons_append, h]; rfl)
  rcases lexeme_longest c (cs ++ rest) with ⟨herror, hnone⟩ | hlong | ⟨ds, hds, -⟩
  · rcases lexeme_longest c cs with ⟨herror', -⟩ | hshort | ⟨ds, hds, -⟩
    · rw [herror, herror']
    · refine absurd ?_ (hnone _ _ ((c :: cs).drop (lexeme c cs).2 ++ rest) hshort.admits)
      rw [← List.append_assoc, List.take_append_drop, List.cons_append]
    · exact absurd hds (hplain' ds)
  · obtain ⟨more, hmore⟩ : (c :: (cs ++ rest)).take (lexeme c (cs ++ rest)).2 <+: c :: cs :=
      prefix_of_oneLine hlong.admits.oneLine hrest (List.take_prefix _ _)
    rcases lexeme_longest c cs with ⟨-, hnone⟩ | hshort | ⟨ds, hds, -⟩
    · exact absurd hmore.symm (hnone _ _ _ hlong.admits)
    · have hcut : c :: (cs ++ rest) =
          (c :: cs).take (lexeme c cs).2 ++ ((c :: cs).drop (lexeme c cs).2 ++ rest) := by
        rw [← List.append_assoc, List.take_append_drop, List.cons_append]
      have hwins := hlong.wins hshort.admits hcut
      have hwins' := hshort.wins hlong.admits hmore.symm
      rw [length_take_lexeme] at hwins hwins'
      exact hwins.antisymm hwins'
    · exact absurd hds (hplain' ds)
  · exact absurd hds (hplain ds)

theorem takeWhile_indentBehind (k : Nat) (cs : Text) :
    (indentBehind k cs).takeWhile (· ≠ '\n') = cs.takeWhile (· ≠ '\n') := by
  induction cs with
  | nil => rfl
  | cons c cs ih =>
    by_cases hc : c = '\n'
    · subst hc
      rw [indentBehind_newline]
      rfl
    · rw [indentBehind_cons hc, List.takeWhile_cons, List.takeWhile_cons, ih]

theorem delimits_dropWhile (cs : Text) : Delimits (cs.dropWhile (· ≠ '\n')) := by
  intro c hc
  have hnot := List.head?_dropWhile_not (fun c => decide (c ≠ '\n')) cs
  rw [Option.mem_def.mp hc] at hnot
  simpa using hnot

theorem lexeme_takeWhile (hplain : ∀ ds, c :: cs ≠ '(' :: '*' :: ds) :
    lexeme c cs = lexeme c (cs.takeWhile (· ≠ '\n')) := by
  have hcs : cs.takeWhile (· ≠ '\n') ++ cs.dropWhile (· ≠ '\n') = cs := List.takeWhile_append_dropWhile
  have hline : lexeme c (cs.takeWhile (· ≠ '\n') ++ cs.dropWhile (· ≠ '\n')) = lexeme c (cs.takeWhile (· ≠ '\n')) :=
    lexeme_firstLine (delimits_dropWhile cs) (by rwa [hcs])
  rwa [hcs] at hline

theorem commentLength?_replicate (depth k : Nat) (cs : Text) :
    commentLength? depth (List.replicate k ' ' ++ cs) = (commentLength? depth cs).map (· + k) := by
  induction k with
  | zero => simp
  | succ k ih =>
    have hblank : commentLength? depth (' ' :: (List.replicate k ' ' ++ cs)) =
        (commentLength? depth (List.replicate k ' ' ++ cs)).map (· + 1) := by
      cases depth <;> rfl
    rw [List.replicate_succ, List.cons_append, hblank, ih, Option.map_map]
    rfl

theorem commentLength?_indentBehind (k depth : Nat) (cs : Text) :
    commentLength? depth (indentBehind k cs) =
      (commentLength? depth cs).map fun n => (indentBehind k (cs.take n)).length := by
  fun_induction commentLength? depth cs with
  | case1 depth cs ih =>
    rw [indentBehind_cons (by decide), indentBehind_cons (by decide), commentLength?, ih, Option.map_map, Option.map_map]
    exact congrArg (Option.map · _) (funext fun n => rfl)
  | case2 => rfl
  | case3 depth cs ih =>
    rw [indentBehind_cons (by decide), indentBehind_cons (by decide), commentLength?, ih, Option.map_map, Option.map_map]
    exact congrArg (Option.map · _) (funext fun n => rfl)
  | case4 depth c cs hopen hclose hcloses ih =>
    by_cases hc : c = '\n'
    · subst hc
      -- the blanks behind a line feed are inside the comment and open or close nothing
      have hline : commentLength? depth ('\n' :: (List.replicate k ' ' ++ indentBehind k cs)) =
          (commentLength? depth (List.replicate k ' ' ++ indentBehind k cs)).map (· + 1) := by
        cases depth <;> rfl
      rw [indentBehind_newline, hline, commentLength?_replicate, ih, Option.map_map, Option.map_map, Option.map_map]
      refine congrArg (Option.map · _) (funext fun n => ?_)
      simp only [Function.comp_apply, List.take_succ_cons, indentBehind_newline, List.length_cons, List.length_append,
        List.length_replicate]
      omega
    · rw [indentBehind_cons hc]
      cases cs with
      | nil =>
        rw [indentBehind, commentLength?]
        · rfl
        · rintro _ _ ⟨⟩
        · rintro _ _ _ ⟨⟩
        · rintro _ _ _ _ ⟨⟩
      | cons d cs =>
        obtain ⟨ds, hds⟩ := exists_indentBehind k d cs
        have hnext : commentLength? depth (c :: d :: ds) = (commentLength? depth (d :: ds)).map (· + 1) := by
          refine commentLength?_cons ?_ ?_ ds
          · rintro ⟨rfl, rfl⟩
            exact hopen cs rfl rfl
          · rintro ⟨rfl, rfl⟩
            cases depth with
            | zero => exact hclose cs rfl rfl rfl
            | succ depth => exact hcloses depth cs rfl rfl rfl
        rw [hds, hnext, ← hds, ih, Option.map_map, Option.map_map]
        refine congrArg (Option.map · _) (funext fun n => ?_)
        simp only [Function.comp_apply, List.take_succ_cons, indentBehind_cons hc, List.length_cons]
  | case5 => rfl

theorem no_comment_indentBehind (hplain : ∀ ds, c :: cs ≠ '(' :: '*' :: ds) (ds : Text) :
    c :: indentBehind k cs ≠ '(' :: '*' :: ds := by
  intro h
  obtain ⟨rfl, htail⟩ := List.cons.inj h
  cases cs with
  | nil => cases htail
  | cons d cs =>
    obtain ⟨more, hmore⟩ := exists_indentBehind k d cs
    rw [hmore] at htail
    exact hplain cs (by rw [(List.cons.inj htail).1])

theorem lexeme_indentBehind (hc : c ≠ '\n') (k : Nat) (cs : Text) : lexeme c (indentBehind k cs) =
    ((lexeme c cs).1, (indentBehind k ((c :: cs).take (lexeme c cs).2)).length) := by
  by_cases hcomment : ∃ ds, c :: cs = '(' :: '*' :: ds
  · obtain ⟨ds, hds⟩ := hcomment
    obtain ⟨rfl, rfl⟩ := List.cons.inj hds
    rw [indentBehind_cons (by decide), lexeme_comment, lexeme_comment, commentLength?_indentBehind]
    cases commentLength? 0 ds with
    | none =>
      have htake : ('(' :: '*' :: ds).take (2 + ds.length) = '(' :: '*' :: ds :=
        List.take_of_length_le (Nat.le_of_eq (Nat.add_comm ds.length 2))
      refine Prod.ext rfl ?_
      rw [Option.getD_none, htake, indentBehind_cons (by decide), indentBehind_cons (by decide)]
      exact Nat.add_comm 2 _
    | some n =>
      refine Prod.ext rfl ?_
      rw [Option.getD_some, Nat.add_comm 2 n, List.take_succ_cons, List.take_succ_cons, indentBehind_cons (by decide),
        indentBehind_cons (by decide)]
      exact Nat.add_comm 2 _
  · have hplain : ∀ ds, c :: cs ≠ '(' :: '*' :: ds := fun ds h => hcomment ⟨ds, h⟩
    have hpiece : OneLine ((c :: cs).take (lexeme c cs).2) := by
      rcases lexeme_admits hplain with herror | hadmits
      · rw [herror]
        exact mt List.mem_singleton.mp (Ne.symm hc)
      · exact hadmits.oneLine
    rw [lexeme_takeWhile (no_comment_indentBehind hplain), takeWhile_indentBehind, ← lexeme_takeWhile hplain, indentBehind_oneLine hpiece,
      length_take_lexeme]

/-- A token with its span in the indented text. -/
def indented (k : Nat) (text : Text) (t : Token × Span) : Token × Span := (t.1, t.2.map (indentedOffset k text))

theorem tokensFrom_replicate (offset k : Nat) (cs : Text) :
    tokensFrom offset (List.replicate k ' ' ++ cs) = tokensFrom (offset + k) cs := by
  induction k generalizing offset with
  | zero => rfl
  | succ k ih =>
    rw [List.replicate_succ, List.cons_append, tokensFrom, if_pos (by rfl), ih, Nat.add_assoc, Nat.add_comm k 1]
    rfl

theorem tokensFrom_indentBehind (k : Nat) (before cs : Text) :
    tokensFrom (byteSize (indent k before)) (indentBehind k cs) =
      (tokensFrom (byteSize before) cs).map (indented k (before ++ cs)) := by
  generalize hoffset : byteSize before = offset
  fun_induction tokensFrom offset cs generalizing before with
  | case1 => rw [indentBehind, tokensFrom, List.map_nil]
  | case2 offset c cs hblank ih =>
    have hnext := ih (before ++ [c]) (by rw [byteSize_append, hoffset]; rfl)
    rw [List.append_assoc, List.singleton_append] at hnext
    rw [← hnext, indent_append, byteSize_append]
    by_cases hc : c = '\n'
    · subst hc
      rw [indentBehind_newline, tokensFrom, if_pos hblank, tokensFrom_replicate, indentBehind_newline, byteSize,
        byteSize_append, byteSize_replicate, Nat.add_assoc]
      rfl
    · rw [indentBehind_cons hc, tokensFrom, if_pos hblank, indentBehind_cons hc]
      rfl
  | case3 offset c cs hblank token length hlexeme rest stop ih =>
    have hc : c ≠ '\n' := by
      rintro rfl
      exact hblank rfl
    have hpiece : (c :: cs).take length ++ rest = c :: cs := by
      have hcut := lexeme_cut c cs
      rwa [hlexeme] at hcut
    have hstop : byteSize (before ++ (c :: cs).take length) = stop := by rw [byteSize_append, hoffset]
    have hnext := ih (before ++ (c :: cs).take length) hstop
    rw [List.append_assoc, hpiece] at hnext
    have hbehind : c :: indentBehind k cs = indentBehind k ((c :: cs).take length) ++ indentBehind k rest := by
      rw [← indentBehind_append, hpiece, indentBehind_cons hc]
    have hindented := lexeme_indentBehind hc k cs
    rw [hlexeme] at hindented
    dsimp only at hindented
    have hcut := lexeme_cut c (indentBehind k cs)
    rw [hindented, hbehind, List.take_left] at hcut
    have hspan : (⟨offset, stop⟩ : Span).map (indentedOffset k (before ++ c :: cs)) =
        ⟨byteSize (indent k before), byteSize (indent k (before ++ (c :: cs).take length))⟩ := by
      have hstart := indentedOffset_byteSize k before (c :: cs)
      have hbehind := indentedOffset_byteSize k (before ++ (c :: cs).take length) rest
      rw [List.append_assoc, hpiece, hstop] at hbehind
      rw [hoffset] at hstart
      rw [Span.map, hstart, hbehind]
    rw [indentBehind_cons hc, tokensFrom, if_neg hblank, hindented, List.map_cons, ← hnext, indented, hspan]
    dsimp only at hcut ⊢
    rw [hbehind, List.take_left, List.append_cancel_left hcut, indent_append, byteSize_append]

theorem tokens_indent (k : Nat) (text : Text) : tokens (indent k text) = (tokens text).map (indented k text) := by
  have h := tokensFrom_indentBehind k [] text
  rw [indent, indentBehind, List.append_nil, byteSize_replicate] at h
  rw [tokens, indent, tokensFrom_replicate, Nat.zero_add]
  exact h

end Token

/-- A region whose opening directive stands in the indented text. -/
def Region.indented (k : Nat) (text : Text) (r : Region) : Region :=
  { r with opener := r.opener.map (text.indentedOffset k) }

/-- A token with its place moved by `f` and its column by `k`. -/
def LaidToken.shift (f : Nat → Nat) (k : Nat) (t : LaidToken) : LaidToken :=
  { t with span := t.span.map f, column := t.column + k }

namespace Layout

open Text Token

variable {k : Nat} {text : Text} {span : Span} {c : Char} {cs : Text}

theorem sameLine_indent (k : Nat) (text : Text) (start offset : Nat) :
    sameLine (indent k text) (indentedOffset k text start) (indentedOffset k text offset) = sameLine text start offset := by
  rw [sameLine, positionOf_indent, positionOf_indent]
  rfl

theorem condition?_indent (k : Nat) (text : Text) (start : Nat) (tokens : List (Token × Span)) :
    condition? (indent k text) (indentedOffset k text start) (tokens.map (indented k text)) =
      condition? text start tokens := by
  cases tokens with
  | nil => rfl
  | cons t ts =>
    obtain ⟨token, span⟩ := t
    cases token with
    | ident name =>
      have hline := sameLine_indent k text start span.start
      simp only [List.map_cons, indented, condition?, Span.map, hline]
    | _ => rfl

theorem apply_indent (k : Nat) (text : Text) (defines : List String) (span : Span) (rest : List (Token × Span))
    (regions : List Region) (conditional : Conditional) :
    conditional.apply (indent k text) defines (span.map (indentedOffset k text)) (rest.map (indented k text))
        (regions.map (·.indented k text)) =
      (((conditional.apply text defines span rest regions).1.map (·.indented k text)),
        (conditional.apply text defines span rest regions).2.map (·.mapSpan (Span.map (indentedOffset k text)))) := by
  cases conditional with
  | ifBranch =>
    have hcondition := condition?_indent k text span.start rest
    simp only [Conditional.apply, Span.map, hcondition]
    cases condition? text span.start rest <;> rfl
  | elseBranch => cases regions <;> rfl
  | endRegion => cases regions <;> rfl

theorem lexicalError_comment (h : span.slice? text = some ('(' :: '*' :: cs)) : lexicalError text span =
    { cause := .unterminatedComment, span := ⟨span.start, span.start + 2⟩, hint := some "close the comment with `*)`" } := by
  rw [lexicalError, h]
  rfl

theorem lexicalError_plain (h : span.slice? text = some (c :: cs)) (hplain : ∀ ds, c :: cs ≠ '(' :: '*' :: ds) :
    lexicalError text span = { cause := .unexpectedChar c, span } := by
  rw [lexicalError, h, Option.getD_some]
  split
  case h_1 ds heq => exact absurd heq (hplain ds)
  case h_2 d ds _ heq => rw [(List.cons.inj heq).1]
  case h_3 heq => cases heq

theorem lexicalError_indent (k : Nat) {t : Token × Span} (ht : t ∈ tokens text) :
    lexicalError (indent k text) (t.2.map (indentedOffset k text)) =
      (lexicalError text t.2).mapSpan (Span.map (indentedOffset k text)) := by
  obtain ⟨before, piece, rest, hstands⟩ := tokens_stand ht
  obtain ⟨c, cs, rfl, hblank⟩ := hstands.opens
  have hc : c ≠ '\n' := by
    rintro rfl
    cases hblank
  have hplace : ∀ piece rest, text = before ++ (piece ++ rest) →
      indentedOffset k text (byteSize (before ++ piece)) = byteSize (indent k (before ++ piece)) := by
    rintro piece rest rfl
    rw [← List.append_assoc]
    exact indentedOffset_byteSize k (before ++ piece) rest
  have hstart := hplace [] (c :: cs ++ rest) hstands.text_eq
  rw [List.append_nil] at hstart
  have hslice : t.2.slice? text = some (c :: cs) := by
    rw [hstands.span_eq, hstands.text_eq]
    exact slice?_byteSize before (c :: cs) rest
  have hindented : (t.2.map (indentedOffset k text)).slice? (indent k text) = some (c :: indentBehind k cs) := by
    rw [hstands.span_eq, Span.map, hstart, hplace _ _ hstands.text_eq, hstands.text_eq, indent_append, indent_append,
      indentBehind_append, indentBehind_cons hc]
    exact slice?_byteSize _ _ _
  by_cases hcomment : ∃ ds, c :: cs = '(' :: '*' :: ds
  · obtain ⟨ds, hds⟩ := hcomment
    obtain ⟨rfl, rfl⟩ := List.cons.inj hds
    -- the mark of the comment is on one line, so its end moves as far as its start
    have hmark : indentedOffset k text (byteSize before + 2) = indentedOffset k text (byteSize before) + 2 := by
      have hstop := hplace ['(', '*'] (ds ++ rest) hstands.text_eq
      rw [indent_append, byteSize_append, byteSize_append, ← hstart] at hstop
      exact hstop
    rw [indentBehind_cons (by decide)] at hindented
    rw [lexicalError_comment hslice, lexicalError_comment hindented, hstands.span_eq]
    simp only [SyntaxError.mapSpan, Span.map, hmark]
  · have hplain : ∀ ds, c :: cs ≠ '(' :: '*' :: ds := fun ds h => hcomment ⟨ds, h⟩
    rw [lexicalError_plain hslice hplain, lexicalError_plain hindented (no_comment_indentBehind hplain)]
    rfl

theorem all_active_indented (k : Nat) (text : Text) (regions : List Region) :
    (regions.map (·.indented k text)).all (·.active) = regions.all (·.active) := by
  rw [List.all_map]
  rfl

theorem activeTokens_indent (k : Nat) (text : Text) (defines : List String) (regions : List Region)
    (ts : List (Token × Span)) (hts : ts ⊆ tokens text) :
    activeTokens (indent k text) defines (regions.map (·.indented k text)) (ts.map (indented k text)) =
      ((activeTokens text defines regions ts).1.map (indented k text),
        (activeTokens text defines regions ts).2.map (·.mapSpan (Span.map (indentedOffset k text)))) := by
  fun_induction activeTokens text defines regions ts with
  | case1 regions =>
    rw [List.map_nil, activeTokens, ← List.map_reverse, List.map_map, List.map_map]
    rfl
  | case2 regions token span rest hcomment ih =>
    rw [List.map_cons, indented, activeTokens, if_pos hcomment]
    exact ih (List.subset_of_cons_subset hts)
  | case3 regions token span rest hcomment conditional hconditional regions' errors happly later tokens errors' hlater ih =>
    -- the directive takes the rest of its line, which is the same line behind the indentation
    have hline : (rest.map (indented k text)).dropWhile
        (fun t => sameLine (indent k text) (indentedOffset k text span.start) t.2.start) = later.map (indented k text) := by
      rw [List.dropWhile_map]
      refine congrArg (List.map _ <| List.dropWhile · rest) (funext fun t => ?_)
      exact sameLine_indent k text span.start t.2.start
    have hregions := apply_indent k text defines span rest regions conditional
    have hbehind := ih fun t ht => hts (List.mem_cons_of_mem _ ((List.dropWhile_sublist _).subset ht))
    rw [happly] at hregions
    rw [hlater] at hbehind
    rw [List.map_cons, indented, activeTokens, if_neg hcomment, hconditional]
    dsimp only
    rw [hregions]
    dsimp only [Span.map]
    rw [hline, hbehind, List.map_append]
  | case4 regions span rest tokens errors hrest hactive hcomment hplain ih =>
    have herror := lexicalError_indent k (hts List.mem_cons_self)
    have hbehind := ih (List.subset_of_cons_subset hts)
    rw [hrest] at hbehind
    rw [List.map_cons, indented, activeTokens, if_neg hcomment, hplain]
    dsimp only
    rw [hbehind, all_active_indented, if_pos hactive, herror, List.map_cons]
  | case5 regions span rest tokens errors hrest hactive raw hcomment hplain ih =>
    have hbehind := ih (List.subset_of_cons_subset hts)
    rw [hrest] at hbehind
    rw [List.map_cons, indented, activeTokens, if_neg hcomment, hplain]
    dsimp only
    rw [hbehind, all_active_indented, if_pos hactive]
    rfl
  | case6 regions token span rest hcomment hplain tokens errors hrest hactive herror hstring ih =>
    have hbehind := ih (List.subset_of_cons_subset hts)
    rw [hrest] at hbehind
    rw [List.map_cons, indented, activeTokens, if_neg hcomment, hplain]
    dsimp only
    rw [hbehind, all_active_indented, if_pos hactive]
    cases token with
    | error => exact absurd rfl herror
    | unclosedString raw => exact absurd rfl (hstring raw)
    | _ => rfl
  | case7 regions token span rest hcomment hplain tokens errors hrest hinactive ih =>
    have hbehind := ih (List.subset_of_cons_subset hts)
    rw [hrest] at hbehind
    rw [List.map_cons, indented, activeTokens, if_neg hcomment, hplain]
    dsimp only
    rw [hbehind, all_active_indented, if_neg hinactive]

theorem place_indent (k : Nat) (text : Text) (line? : Option Nat) (ts : List (Token × Span)) :
    place (indent k text) line? (ts.map (indented k text)) =
      (place text line? ts).map (LaidToken.shift (indentedOffset k text) k) := by
  induction ts generalizing line? with
  | nil => rfl
  | cons t ts ih =>
    obtain ⟨token, span⟩ := t
    have hposition := positionOf_indent k text span.start
    have hlater := ih (some (text.positionOf span.start).line)
    simp only [List.map_cons, indented, place, Span.map, hposition, indentedPosition, LaidToken.shift]
    exact congrArg (_ :: ·) hlater

end Layout

open Text Token

theorem significantTokens_indent (k : Nat) (text : Text) (defines : List String) :
    significantTokens (indent k text) defines =
      ((significantTokens text defines).1.map (LaidToken.shift (indentedOffset k text) k),
        (significantTokens text defines).2.map (SyntaxError.mapSpan (Span.map (indentedOffset k text)))) := by
  have hactive := Layout.activeTokens_indent k text defines [] (tokens text) (List.Subset.refl _)
  rw [List.map_nil] at hactive
  simp only [significantTokens, tokens_indent, hactive, Layout.place_indent]

end ScriptAnalyzer
