import ScriptAnalyzer.Text.Position

/-!
Byte offsets as the places between two parts of a text.
-/

namespace ScriptAnalyzer
namespace Text

variable {before before' piece rest text : Text}

theorem byteSize_append (cs ds : Text) : byteSize (cs ++ ds) = byteSize cs + byteSize ds := by
  induction cs with
  | nil => simp [byteSize]
  | cons c cs ih => simp only [List.cons_append, byteSize, ih, Nat.add_assoc]

theorem byteSize_eq_zero {cs : Text} : byteSize cs = 0 ↔ cs = [] := by
  cases cs with
  | nil => simp [byteSize]
  | cons c cs =>
    have := c.utf8Size_pos
    simp only [byteSize, reduceCtorEq, iff_false]
    omega

theorem dropBytes?_byteSize (before rest : Text) :
    dropBytes? (byteSize before) (before ++ rest) = some rest := by
  induction before with
  | nil => exact dropBytes?.eq_1 rest
  | cons c cs ih =>
    obtain ⟨n, hn⟩ : ∃ n, c.utf8Size + byteSize cs = n + 1 :=
      ⟨c.utf8Size + byteSize cs - 1, by have := c.utf8Size_pos; omega⟩
    rw [byteSize, hn, List.cons_append, dropBytes?, if_pos (by omega)]
    rwa [show n + 1 - c.utf8Size = byteSize cs by omega]

theorem takeBytes?_byteSize (before rest : Text) :
    takeBytes? (byteSize before) (before ++ rest) = some before := by
  induction before with
  | nil => exact takeBytes?.eq_1 rest
  | cons c cs ih =>
    obtain ⟨n, hn⟩ : ∃ n, c.utf8Size + byteSize cs = n + 1 :=
      ⟨c.utf8Size + byteSize cs - 1, by have := c.utf8Size_pos; omega⟩
    rw [byteSize, hn, List.cons_append, takeBytes?, if_pos (by omega),
      show n + 1 - c.utf8Size = byteSize cs by omega, ih]
    rfl

theorem slice?_byteSize (before piece rest : Text) :
    Span.slice? ⟨byteSize before, byteSize (before ++ piece)⟩ (before ++ (piece ++ rest)) = some piece := by
  rw [Span.slice?, byteSize_append, if_pos (Nat.le_add_right _ _), dropBytes?_byteSize,
    Nat.add_sub_cancel_left]
  exact takeBytes?_byteSize piece rest

theorem positionFrom_byteSize (p : Position) (before rest : Text) :
    positionFrom p (byteSize before) (before ++ rest) = before.foldl Position.next p := by
  induction before generalizing p with
  | nil =>
    cases rest with
    | nil => rfl
    | cons c cs =>
      have := c.utf8Size_pos
      rw [byteSize, List.nil_append, positionFrom, if_neg (by omega)]
      rfl
  | cons c cs ih =>
    rw [byteSize, List.cons_append, positionFrom, if_pos (Nat.le_add_right _ _),
      Nat.add_sub_cancel_left]
    exact ih _

theorem line_foldl_next (p : Position) (cs : Text) :
    (cs.foldl Position.next p).line = p.line + cs.count '\n' := by
  induction cs generalizing p with
  | nil => rfl
  | cons c cs ih =>
    rw [List.foldl_cons, ih, List.count_cons]
    by_cases hc : c = '\n'
    · simp only [Position.next, hc, if_true, beq_self_eq_true]
      omega
    · simp [Position.next, hc]

theorem line_positionOf (before rest : Text) :
    (positionOf (before ++ rest) (byteSize before)).line = before.count '\n' := by
  rw [positionOf, positionFrom_byteSize, line_foldl_next, Nat.zero_add]

/-- Of two beginnings of a text, the one with fewer bytes is the shorter one. -/
theorem prefix_of_byteSize_le (h : before <+: text) (h' : before' <+: text)
    (hle : byteSize before ≤ byteSize before') : before <+: before' := by
  rcases List.prefix_or_prefix_of_prefix h h' with h | ⟨more, rfl⟩
  · exact h
  · rw [byteSize_append] at hle
    obtain rfl : more = [] := byteSize_eq_zero.mp (by omega)
    simp

end Text
end ScriptAnalyzer
