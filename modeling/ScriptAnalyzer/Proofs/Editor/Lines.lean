import ScriptAnalyzer.Editor.Document
import ScriptAnalyzer.Editor.Utf16
import ScriptAnalyzer.Proofs.Text.Positions

/-!
The lines of a text in its three readings: by the places where lines start, as the pieces between line feeds, and as
an open document is broken into lines. The first two are the same for every text. A document also ends its lines at
characters that end no line of a text, and agrees with the others up to the first of these.
-/

namespace ScriptAnalyzer

/-- Whether the character ends a line of a document although no line of a text ends there. -/
def IsStrayBreak (c : Char) (rest : Text) : Prop :=
  c ∈ ['\x0B', '\x0C', '\u0085', '\u2028', '\u2029'] ∨ c = '\r' ∧ rest.head? ≠ some '\n'

def HasStrayBreak (text : Text) : Prop := ∃ front c rest, text = front ++ c :: rest ∧ IsStrayBreak c rest

variable {text cs : Text} {c : Char} {n : Nat}

theorem hasStrayBreak_cons : HasStrayBreak (c :: cs) ↔ IsStrayBreak c cs ∨ HasStrayBreak cs := by
  constructor
  · rintro ⟨front, d, rest, htext, hstray⟩
    cases front with
    | nil =>
      obtain ⟨rfl, rfl⟩ := List.cons.inj htext
      exact .inl hstray
    | cons e front =>
      obtain ⟨rfl, rfl⟩ := List.cons.inj htext
      exact .inr ⟨front, d, rest, rfl, hstray⟩
  · rintro (hstray | ⟨front, d, rest, rfl, hstray⟩)
    · exact ⟨[], c, cs, rfl, hstray⟩
    · exact ⟨c :: front, d, rest, rfl, hstray⟩

/-! Pieces between line feeds -/

theorem exists_splitOn (separator : Char) (text : Text) :
    ∃ piece pieces, Text.splitOn separator text = piece :: pieces := by
  cases text with
  | nil => exact ⟨[], [], rfl⟩
  | cons c cs =>
    rw [Text.splitOn]
    split
    · exact ⟨_, _, rfl⟩
    · split <;> exact ⟨_, _, rfl⟩

theorem splitOn_feed (cs : Text) : Text.splitOn '\n' ('\n' :: cs) = [] :: Text.splitOn '\n' cs := if_pos rfl

theorem splitOn_other (hc : c ≠ '\n') {piece : Text} {pieces : List Text}
    (h : Text.splitOn '\n' cs = piece :: pieces) : Text.splitOn '\n' (c :: cs) = (c :: piece) :: pieces := by
  rw [Text.splitOn, if_neg hc, h]

/-- The first piece is empty if and only if the line ends where it begins. -/
theorem endsLine_iff {piece : Text} {pieces : List Text} (h : Text.splitOn '\n' text = piece :: pieces) :
    text.EndsLine ↔ piece = [] := by
  cases text with
  | nil =>
    obtain ⟨rfl, rfl⟩ := List.cons.inj h
    exact iff_of_true (.inl rfl) rfl
  | cons c cs =>
    by_cases hc : c = '\n'
    · subst hc
      rw [splitOn_feed] at h
      obtain ⟨rfl, -⟩ := List.cons.inj h
      exact iff_of_true (.inr ⟨cs, rfl⟩) rfl
    · obtain ⟨first, others, hcs⟩ := exists_splitOn '\n' cs
      rw [splitOn_other hc hcs] at h
      obtain ⟨rfl, -⟩ := List.cons.inj h
      refine iff_of_false ?_ (List.cons_ne_nil c first)
      rintro (hnil | ⟨more, hmore⟩)
      · cases hnil
      · exact hc (List.cons.inj hmore).1

theorem dropLastIf_cons {d : Char} {line : Text} (h : line ≠ [] ∨ c ≠ d) :
    Document.dropLastIf d (c :: line) = c :: Document.dropLastIf d line := by
  cases line with
  | nil =>
    have hc : c ≠ d := h.resolve_left fun hnil => hnil rfl
    simp [Document.dropLastIf, hc]
  | cons e line =>
    simp only [Document.dropLastIf, List.getLast?_cons_cons, List.dropLast_cons_cons]
    split <;> rfl

theorem firstLine_eq {piece : Text} {pieces : List Text} (h : Text.splitOn '\n' text = piece :: pieces) :
    text.firstLine = withoutReturn piece := by
  induction text generalizing piece pieces with
  | nil =>
    obtain ⟨rfl, rfl⟩ := List.cons.inj h
    rfl
  | cons c cs ih =>
    by_cases hc : c = '\n'
    · subst hc
      rw [splitOn_feed] at h
      obtain ⟨rfl, -⟩ := List.cons.inj h
      rfl
    · obtain ⟨first, others, hcs⟩ := exists_splitOn '\n' cs
      rw [splitOn_other hc hcs] at h
      obtain ⟨rfl, -⟩ := List.cons.inj h
      by_cases hreturn : c = '\r' ∧ Text.EndsLine cs
      · obtain ⟨rfl, hends⟩ := hreturn
        obtain rfl := (endsLine_iff hcs).mp hends
        exact Text.firstLine_return hends
      · have hends : c = '\r' → ¬Text.EndsLine cs := fun hc hends => hreturn ⟨hc, hends⟩
        rw [Text.firstLine_cons hc hends, ih hcs]
        refine (dropLastIf_cons ?_).symm
        by_cases hc : c = '\r'
        · exact .inl fun hfirst => hends hc ((endsLine_iff hcs).mpr hfirst)
        · exact .inr hc

/-! Lines by their starts -/

theorem line?_feed (cs : Text) (n : Nat) : Text.line? ('\n' :: cs) (n + 1) = cs.line? n := by
  rw [Text.line?, Text.lineFrom?, if_pos rfl, Nat.add_comm, Text.lineFrom?_add, Option.map_map]
  rfl

theorem line?_other (hc : c ≠ '\n') (n : Nat) : Text.line? (c :: cs) (n + 1) = cs.line? (n + 1) := by
  rw [Text.line?, Text.lineFrom?, if_neg hc, Nat.add_comm 0, Text.lineFrom?_add, Option.map_map]
  rfl

theorem editorLine?_eq (text : Text) (n : Nat) : editorLine? text n = text.line? n := by
  induction text generalizing n with
  | nil =>
    cases n <;> rfl
  | cons c cs ih =>
    cases n with
    | zero =>
      obtain ⟨piece, pieces, h⟩ := exists_splitOn '\n' (c :: cs)
      rw [editorLine?, h]
      exact congrArg some (firstLine_eq h).symm
    | succ n =>
      by_cases hc : c = '\n'
      · subst hc
        rw [line?_feed, ← ih, editorLine?, splitOn_feed, List.getElem?_cons_succ, editorLine?]
      · obtain ⟨piece, pieces, hcs⟩ := exists_splitOn '\n' cs
        rw [line?_other hc, ← ih, editorLine?, editorLine?, splitOn_other hc hcs, hcs, List.getElem?_cons_succ,
          List.getElem?_cons_succ]

/-! Lines of a document -/

theorem isLineBreak_iff : Document.isLineBreak c = true ↔
    c = '\n' ∨ c = '\r' ∨ c ∈ ['\x0B', '\x0C', '\u0085', '\u2028', '\u2029'] := by
  have hsame (d : Char) : c = d ↔ c.toNat = d.toNat :=
    ⟨congrArg Char.toNat, fun h => Char.ext (UInt32.toNat_inj.mp h)⟩
  simp only [Document.isLineBreak, List.mem_cons, List.not_mem_nil, or_false, hsame, Bool.or_eq_true,
    Bool.and_eq_true, decide_eq_true_eq]
  simp only [Char.reduceToNat]
  omega

theorem exists_consFirst (c : Char) (lines : List Text) :
    ∃ line others, Document.consFirst c lines = line :: others := by
  cases lines <;> exact ⟨_, _, rfl⟩

theorem exists_brokenLines (text : Text) : ∃ line lines, Document.brokenLines text = line :: lines := by
  fun_cases Document.brokenLines text with
  | case1 => exact ⟨_, _, rfl⟩
  | case2 cs => exact ⟨_, _, rfl⟩
  | case3 c cs => exact ⟨_, _, rfl⟩
  | case4 c cs => exact exists_consFirst c _

/-- A break that does not end a line of the text is a stray one. -/
theorem stray_or_feed (hbreak : Document.isLineBreak c = true) (hpair : ∀ more, c = '\r' → cs ≠ '\n' :: more) :
    IsStrayBreak c cs ∨ c = '\n' := by
  rcases isLineBreak_iff.mp hbreak with hc | hc | hc
  · exact .inr hc
  · refine .inl (.inr ⟨hc, fun hhead => ?_⟩)
    obtain ⟨more, hmore⟩ := List.head?_eq_some_iff.mp hhead
    exact hpair more hc hmore
  · exact .inl (.inl hc)

/-- Up to the first stray break the lines of a document are the pieces between line feeds. -/
theorem brokenLines_getElem? (h : ∀ front c rest, text = front ++ c :: rest → IsStrayBreak c rest →
    n < front.count '\n') : (Document.brokenLines text)[n]?.map (fun line =>
      Document.dropLastIf '\r' (Document.dropLastIf '\n' line)) =
        (Text.splitOn '\n' text)[n]?.map withoutReturn := by
  fun_induction Document.brokenLines text generalizing n with
  | case1 => cases n <;> rfl
  | case2 cs ih =>
    obtain ⟨piece, pieces, hcs⟩ := exists_splitOn '\n' ('\n' :: cs)
    rw [splitOn_other (by decide) hcs]
    rw [splitOn_feed] at hcs
    obtain ⟨rfl, rfl⟩ := List.cons.inj hcs
    cases n with
    | zero => rfl
    | succ n =>
      rw [List.getElem?_cons_succ, List.getElem?_cons_succ]
      refine ih fun front c rest htext hstray => ?_
      have hlt := h ('\r' :: '\n' :: front) c rest (by rw [htext]; rfl) hstray
      simpa using hlt
  | case3 c cs hpair hbreak ih =>
    -- a stray break here would stand in front of all line feeds
    rcases stray_or_feed hbreak hpair with hstray | rfl
    · exact absurd (h [] c cs rfl hstray) (Nat.not_lt_zero n)
    · rw [splitOn_feed]
      cases n with
      | zero => rfl
      | succ n =>
        rw [List.getElem?_cons_succ, List.getElem?_cons_succ]
        refine ih fun front c rest htext hstray => ?_
        have hlt := h ('\n' :: front) c rest (by rw [htext]; rfl) hstray
        simpa using hlt
  | case4 c cs hpair hbreak ih =>
    have hnot := mt isLineBreak_iff.mpr hbreak
    have hc : c ≠ '\n' := fun hc => hnot (.inl hc)
    have hreturn : c ≠ '\r' := fun hc => hnot (.inr (.inl hc))
    obtain ⟨line, lines, hlines⟩ := exists_brokenLines cs
    obtain ⟨piece, pieces, hpieces⟩ := exists_splitOn '\n' cs
    -- the character is part of the first line on both sides, so the lines behind it correspond
    have hrest : (line :: lines)[n]?.map (fun line =>
        Document.dropLastIf '\r' (Document.dropLastIf '\n' line)) = (piece :: pieces)[n]?.map withoutReturn := by
      rw [← hlines, ← hpieces]
      refine ih fun front d rest htext hstray => ?_
      have hlt := h (c :: front) d rest (by rw [htext]; rfl) hstray
      rwa [List.count_cons_of_ne hc] at hlt
    rw [hlines, splitOn_other hc hpieces, Document.consFirst]
    cases n with
    | zero =>
      have hfirst : Document.dropLastIf '\r' (Document.dropLastIf '\n' line) = withoutReturn piece :=
        Option.some.inj hrest
      have hpiece : withoutReturn (c :: piece) = c :: withoutReturn piece := dropLastIf_cons (.inr hreturn)
      simp only [List.getElem?_cons_zero, Option.map_some]
      rw [dropLastIf_cons (.inr hc), dropLastIf_cons (.inr hreturn), hfirst, hpiece]
    | succ n => exact hrest

/-- A document has no fewer lines than the text, and more if there is a stray break. -/
theorem length_splitOn_le (text : Text) :
    (Text.splitOn '\n' text).length ≤ (Document.brokenLines text).length ∧
      (HasStrayBreak text → (Text.splitOn '\n' text).length < (Document.brokenLines text).length) := by
  fun_induction Document.brokenLines text with
  | case1 =>
    refine ⟨Nat.le_refl 1, ?_⟩
    rintro ⟨front, c, rest, htext, -⟩
    exact absurd htext.symm (List.append_ne_nil_of_right_ne_nil front (List.cons_ne_nil c rest))
  | case2 cs ih =>
    obtain ⟨piece, pieces, hcs⟩ := exists_splitOn '\n' ('\n' :: cs)
    rw [splitOn_other (by decide) hcs]
    rw [splitOn_feed] at hcs
    obtain ⟨rfl, rfl⟩ := List.cons.inj hcs
    refine ⟨Nat.succ_le_succ ih.1, fun hstray => Nat.succ_lt_succ (ih.2 ?_)⟩
    rw [hasStrayBreak_cons, hasStrayBreak_cons] at hstray
    refine (hstray.resolve_left ?_).resolve_left ?_
    · simp [IsStrayBreak]
    · simp [IsStrayBreak]
  | case3 c cs hpair hbreak ih =>
    rcases stray_or_feed hbreak hpair with hstray | rfl
    · have hc : c ≠ '\n' := by
        rintro rfl
        simp [IsStrayBreak] at hstray
      obtain ⟨piece, pieces, hcs⟩ := exists_splitOn '\n' cs
      -- a stray break ends a line of the document, but none of the text
      have hle := ih.1
      rw [splitOn_other hc hcs]
      rw [hcs] at hle
      exact ⟨Nat.le_succ_of_le hle, fun _ => Nat.lt_succ_of_le hle⟩
    · rw [splitOn_feed]
      refine ⟨Nat.succ_le_succ ih.1, fun hstray => Nat.succ_lt_succ (ih.2 ?_)⟩
      rw [hasStrayBreak_cons] at hstray
      refine hstray.resolve_left ?_
      simp [IsStrayBreak]
  | case4 c cs hpair hbreak ih =>
    have hnot := mt isLineBreak_iff.mpr hbreak
    have hc : c ≠ '\n' := fun hc => hnot (.inl hc)
    obtain ⟨line, lines, hlines⟩ := exists_brokenLines cs
    obtain ⟨piece, pieces, hpieces⟩ := exists_splitOn '\n' cs
    rw [hlines, hpieces] at ih
    rw [hlines, splitOn_other hc hpieces, Document.consFirst]
    refine ⟨ih.1, fun hstray => ih.2 ((hasStrayBreak_cons.mp hstray).resolve_left ?_)⟩
    rintro (hother | ⟨hreturn, -⟩)
    · exact hnot (.inr (.inr hother))
    · exact hnot (.inr (.inl hreturn))

namespace Document

theorem length_eq_of_line? {d : Document} (h : ∀ n, d.line? n = d.text.line? n) :
    (brokenLines d.text).length = (Text.splitOn '\n' d.text).length := by
  have hend (n : Nat) : (brokenLines d.text).length ≤ n ↔ (Text.splitOn '\n' d.text).length ≤ n := by
    have hn : d.line? n = none ↔ editorLine? d.text n = none := by rw [h n, editorLine?_eq]
    rwa [line?, editorLine?, Option.map_eq_none_iff, Option.map_eq_none_iff, List.getElem?_eq_none_iff,
      List.getElem?_eq_none_iff] at hn
  apply Nat.le_antisymm
  · exact (hend (Text.splitOn '\n' d.text).length).mpr (Nat.le_refl _)
  · exact (hend (brokenLines d.text).length).mp (Nat.le_refl _)

/-- The readings of a text agree on all of its lines, and the one of a document with them on those in front of which
no stray break stands; on all lines it does so just if there is none. -/
theorem lines_agree (text : Text) :
    (∀ n, editorLine? text n = text.line? n) ∧
      (∀ version n, (∀ front c rest, text = front ++ c :: rest → IsStrayBreak c rest → n < front.count '\n') →
        line? ⟨text, version⟩ n = text.line? n) ∧
      ((∀ version n, line? ⟨text, version⟩ n = text.line? n) ↔ ¬HasStrayBreak text) := by
  have hcalm (version : Int) (n : Nat) (h : ∀ front c rest, text = front ++ c :: rest → IsStrayBreak c rest →
      n < front.count '\n') : line? ⟨text, version⟩ n = text.line? n := by
    rw [← editorLine?_eq]
    exact brokenLines_getElem? h
  refine ⟨editorLine?_eq text, hcalm, fun hagree hstray => ?_, fun hnone version n => ?_⟩
  · have hlength := length_eq_of_line? (d := ⟨text, 0⟩) (hagree 0)
    have hlt := (length_splitOn_le text).2 hstray
    exact absurd hlength (Nat.ne_of_gt hlt)
  · refine hcalm version n fun front c rest htext hstray => ?_
    exact absurd ⟨front, c, rest, htext, hstray⟩ hnone

theorem lines_agree_before_tab :
    (∀ front c rest, ['é', '\r', '\n', '\x0B', 'y'] = front ++ c :: rest → IsStrayBreak c rest →
      0 < front.count '\n') ∧
    line? ⟨['é', '\r', '\n', '\x0B', 'y'], 2⟩ 0 = Text.line? ['é', '\r', '\n', '\x0B', 'y'] 0 := by
  have hfront : ∀ front c rest, ['é', '\r', '\n', '\x0B', 'y'] = front ++ c :: rest → IsStrayBreak c rest →
      0 < front.count '\n' := by
    intro front c rest htext hstray
    rcases front with _ | ⟨d, _ | ⟨e, _ | ⟨f, front⟩⟩⟩
    · obtain ⟨rfl, rfl⟩ := List.cons.inj htext
      simp [IsStrayBreak] at hstray
    · obtain ⟨-, htext⟩ := List.cons.inj htext
      obtain ⟨rfl, rfl⟩ := List.cons.inj htext
      simp [IsStrayBreak] at hstray
    · obtain ⟨-, htext⟩ := List.cons.inj htext
      obtain ⟨-, htext⟩ := List.cons.inj htext
      obtain ⟨rfl, rfl⟩ := List.cons.inj htext
      simp [IsStrayBreak] at hstray
    · obtain ⟨-, htext⟩ := List.cons.inj htext
      obtain ⟨-, htext⟩ := List.cons.inj htext
      obtain ⟨rfl, -⟩ := List.cons.inj htext
      exact List.count_pos_iff.mpr (.tail d (.tail e (.head front)))
  exact ⟨hfront, (lines_agree _).2.1 2 0 hfront⟩

/-- A document ends a line at a vertical tab, and keeps the tab in it. -/
theorem vertical_tab_splits :
    Text.line? ['a', '\x0B', 'b'] 0 = some ['a', '\x0B', 'b'] ∧
      editorLine? ['a', '\x0B', 'b'] 0 = some ['a', '\x0B', 'b'] ∧
      line? ⟨['a', '\x0B', 'b'], 1⟩ 0 = some ['a', '\x0B'] := by
  decide

end Document
end ScriptAnalyzer
