import Mathlib.Data.List.TakeWhile
import ScriptAnalyzer.Typing.Names
import ScriptAnalyzer.Symbol

/-!
Paths of entities, and the segments that they are joined from.
-/

namespace ScriptAnalyzer

section

variable {t : Text}

theorem reverse_undotted (h : '.' ∉ t) : ∀ c ∈ t.reverse, decide (c ≠ '.') = true := by
  intro c hc
  simp only [ne_eq, decide_eq_true_eq]
  rintro rfl
  exact h (List.mem_reverse.mp hc)

theorem lastSegment_append (q : Text) (h : '.' ∉ t) : lastSegment (q ++ '.' :: t) = t := by
  rw [lastSegment, List.reverse_append, List.reverse_cons, List.append_assoc,
    List.takeWhile_append_of_pos (reverse_undotted h)]
  simp

theorem lastSegment_of_undotted (h : '.' ∉ t) : lastSegment t = t := by
  rw [lastSegment, List.takeWhile_eq_self_iff.mpr (reverse_undotted h), List.reverse_reverse]

end

variable {p q x y : String} {segments : List String}

theorem qualify_empty (name : String) : qualify "" name = name := rfl

theorem qualify_of_ne (h : p ≠ "") (name : String) : qualify p name = p ++ "." ++ name := by
  rw [qualify, if_neg]
  rwa [String.isEmpty_iff]

theorem joinPath_singleton (x : String) : joinPath [x] = x := String.intercalate_singleton

theorem joinPath_cons (x : String) (h : segments ≠ []) :
    joinPath (x :: segments) = x ++ "." ++ joinPath segments := String.intercalate_cons_of_ne_nil h

theorem joinPath_concat (h : segments ≠ []) (y : String) :
    joinPath (segments ++ [y]) = joinPath segments ++ "." ++ y := by
  induction segments with
  | nil => exact absurd rfl h
  | cons x segments ih =>
    cases segments with
    | nil => rw [List.singleton_append, joinPath_cons x (by simp), joinPath_singleton, joinPath_singleton]
    | cons z segments =>
      rw [List.cons_append, joinPath_cons x (by simp), ih (by simp), joinPath_cons x (by simp)]
      simp only [String.append_assoc]

theorem joinPath_ne_empty (h : segments ≠ []) (hsegments : ∀ x ∈ segments, x ≠ "") :
    joinPath segments ≠ "" := by
  cases segments with
  | nil => exact absurd rfl h
  | cons x segments =>
    have hx := hsegments x List.mem_cons_self
    cases segments with
    | nil => rwa [joinPath_singleton]
    | cons z segments =>
      rw [joinPath_cons x (by simp)]
      simp [hx]

theorem qualify_ne_empty (hq : q ≠ "") (p : String) : qualify p q ≠ "" := by
  by_cases hp : p = ""
  · rwa [hp, qualify_empty]
  · rw [qualify_of_ne hp]
    simp [hp]

/-- Behind a path the segments may be joined before or after. -/
theorem qualify_joinPath_concat (h : segments ≠ []) (p y : String) :
    qualify p (joinPath (segments ++ [y])) = qualify p (joinPath segments) ++ "." ++ y := by
  by_cases hp : p = ""
  · rw [hp, qualify_empty, qualify_empty, joinPath_concat h]
  · rw [qualify_of_ne hp, qualify_of_ne hp, joinPath_concat h]
    simp only [String.append_assoc]

theorem foldl_qualify (h : segments ≠ []) (hsegments : ∀ x ∈ segments, x ≠ "") (p : String) :
    segments.foldl qualify p = qualify p (joinPath segments) := by
  induction segments generalizing p with
  | nil => exact absurd rfl h
  | cons x segments ih =>
    obtain ⟨hx, hsegments⟩ := List.forall_mem_cons.mp hsegments
    rw [List.foldl_cons]
    by_cases hnil : segments = []
    · rw [hnil, joinPath_singleton, List.foldl_nil]
    · rw [ih hnil hsegments, joinPath_cons x hnil, qualify_of_ne (qualify_ne_empty hx p)]
      by_cases hp : p = ""
      · rw [hp, qualify_empty, qualify_empty]
      · rw [qualify_of_ne hp, qualify_of_ne hp]
        simp only [String.append_assoc]

/-- A path that does not end with a dot. -/
def EndsPlain (path : String) : Prop := path.toList.getLast? ≠ some '.'
deriving Decidable

theorem pathBefore_qualify (hp : EndsPlain p) (written : String) :
    pathBefore (qualify p written) written = p := by
  have hsuffix : written.toList.isSuffixOf (qualify p written).toList = true := by
    rw [List.isSuffixOf_iff_suffix]
    by_cases hempty : p = ""
    · simp [hempty, qualify_empty]
    · rw [qualify_of_ne hempty, String.toList_append]
      exact List.suffix_append _ _
  rw [pathBefore]
  simp only [hsuffix, if_true]
  by_cases hempty : p = ""
  · simp [hempty, qualify_empty]
  · have htaken : (qualify p written).toList.take
        ((qualify p written).toList.length - written.toList.length) = p.toList ++ ['.'] := by
      rw [qualify_of_ne hempty, String.toList_append, String.toList_append, List.length_append,
        Nat.add_sub_cancel, List.take_left']
      · rfl
      · rfl
    have hkept : p.toList.reverse.dropWhile (· == '.') = p.toList.reverse := by
      cases hreverse : p.toList.reverse with
      | nil => rfl
      | cons c cs =>
        refine List.dropWhile_cons_of_neg fun hdot => hp ?_
        rw [← List.head?_reverse, hreverse, List.head?_cons, beq_iff_eq.mp hdot]
    rw [htaken, List.reverse_append, List.reverse_singleton, List.singleton_append,
      List.dropWhile_cons_of_pos (by simp), hkept, List.reverse_reverse, String.ofList_toList]

theorem endsPlain_of_undotted (h : '.' ∉ p.toList) : EndsPlain p := fun hlast =>
  h (List.mem_of_getLast? hlast)

theorem endsPlain_append (hy : y.toList ≠ []) (hdot : '.' ∉ y.toList) (p : String) : EndsPlain (p ++ y) := by
  have hlast : (p ++ y).toList.getLast? = y.toList.getLast? := by
    rw [String.toList_append, List.getLast?_append, Option.or_of_isSome]
    exact List.getLast?_isSome.mpr hy
  rw [EndsPlain, hlast]
  exact endsPlain_of_undotted hdot

/-- A path that ends with a name has no dot behind the name. -/
theorem endsPlain_qualify (h : segments ≠ []) (hsegments : ∀ x ∈ segments, x.toList ≠ [] ∧ '.' ∉ x.toList)
    (p : String) : EndsPlain (qualify p (joinPath segments)) := by
  obtain ⟨before, y, rfl⟩ := (List.eq_nil_or_concat segments).resolve_left h
  obtain ⟨hy, hdot⟩ := hsegments y (by simp)
  by_cases hbefore : before = []
  · rw [hbefore, List.concat_eq_append, List.nil_append, joinPath_singleton]
    by_cases hp : p = ""
    · rw [hp, qualify_empty]
      exact endsPlain_of_undotted hdot
    · rw [qualify_of_ne hp]
      exact endsPlain_append hy hdot _
  · rw [List.concat_eq_append, qualify_joinPath_concat hbefore]
    exact endsPlain_append hy hdot _

/-! The modules around a place -/

theorem enclosingPaths_concat (segments : List String) (y : String) :
    enclosingPaths (segments ++ [y]) = joinPath (segments ++ [y]) :: enclosingPaths segments := by
  unfold enclosingPaths
  rw [List.length_append, List.length_singleton, List.range_succ, List.reverse_append,
    List.reverse_singleton, List.singleton_append, List.map_cons]
  congr 1
  · rw [List.take_of_length_le (by simp)]
  · refine List.map_congr_left fun n hn => ?_
    rw [List.take_append_of_le_length]
    simpa [Nat.succ_le_iff] using hn

theorem splitOn_ne_nil (t : Text) : Text.splitOn '.' t ≠ [] := by
  cases t with
  | nil => simp [Text.splitOn]
  | cons c t =>
    rw [Text.splitOn]
    split
    · simp
    · split <;> simp

theorem splitOn_of_undotted {t : Text} (h : '.' ∉ t) : Text.splitOn '.' t = [t] := by
  induction t with
  | nil => rfl
  | cons c t ih =>
    rw [List.mem_cons, not_or] at h
    rw [Text.splitOn, if_neg (Ne.symm h.1), ih h.2]

theorem splitOn_append (a t : Text) :
    Text.splitOn '.' (a ++ '.' :: t) = Text.splitOn '.' a ++ Text.splitOn '.' t := by
  induction a with
  | nil => simp [Text.splitOn]
  | cons c a ih =>
    rw [List.cons_append, Text.splitOn, Text.splitOn, ih]
    split
    · rfl
    · cases hpieces : Text.splitOn '.' a with
      | nil => exact absurd hpieces (splitOn_ne_nil a)
      | cons piece pieces => rfl

theorem intercalate_splitOn (t : Text) : ['.'].intercalate (Text.splitOn '.' t) = t := by
  induction t with
  | nil => rfl
  | cons c t ih =>
    rw [Text.splitOn]
    cases hpieces : Text.splitOn '.' t with
    | nil => exact absurd hpieces (splitOn_ne_nil t)
    | cons piece pieces =>
      rw [hpieces] at ih
      split
      case isTrue hdot => rw [List.intercalate_cons_cons, ih, hdot]; rfl
      case isFalse =>
        cases pieces with
        | nil => simpa using ih
        | cons piece' pieces =>
          rw [List.intercalate_cons_cons] at ih ⊢
          simpa using ih

theorem joinPath_pathSegments (path : String) : joinPath (pathSegments path) = path := by
  have hpieces : (pathSegments path).map String.toList = Text.splitOn '.' path.toList := by
    rw [pathSegments, List.map_map]
    exact (List.map_congr_left fun t _ => String.toList_ofList).trans (List.map_id _)
  rw [← String.toList_inj, joinPath, String.toList_intercalate, hpieces]
  exact intercalate_splitOn path.toList

theorem pathSegments_of_undotted (h : '.' ∉ p.toList) : pathSegments p = [p] := by
  rw [pathSegments, splitOn_of_undotted h, List.map_singleton, String.ofList_toList]

theorem pathSegments_ne_nil (path : String) : pathSegments path ≠ [] := by
  rw [pathSegments, ne_eq, List.map_eq_nil_iff]
  exact splitOn_ne_nil _

theorem undotted_of_mem_splitOn {t piece : Text} (h : piece ∈ Text.splitOn '.' t) : '.' ∉ piece := by
  induction t generalizing piece with
  | nil =>
    obtain rfl := List.mem_singleton.mp h
    exact List.not_mem_nil
  | cons c t ih =>
    rw [Text.splitOn] at h
    split at h
    case isTrue =>
      rcases List.mem_cons.mp h with rfl | h
      · exact List.not_mem_nil
      · exact ih h
    case isFalse hc =>
      cases hpieces : Text.splitOn '.' t with
      | nil => exact absurd hpieces (splitOn_ne_nil t)
      | cons first pieces =>
        rw [hpieces] at h
        rcases List.mem_cons.mp h with rfl | h
        · rw [List.mem_cons, not_or]
          exact ⟨Ne.symm hc, ih (hpieces ▸ List.mem_cons_self)⟩
        · exact ih (hpieces ▸ List.mem_cons_of_mem _ h)

theorem undotted_of_mem_pathSegments (h : x ∈ pathSegments p) : '.' ∉ x.toList := by
  obtain ⟨piece, hpiece, rfl⟩ := List.mem_map.mp h
  rw [String.toList_ofList]
  exact undotted_of_mem_splitOn hpiece

theorem mem_enclosingPaths (h : x ∈ enclosingPaths segments) : ∃ n, n < segments.length ∧
    x = joinPath (segments.take (n + 1)) := by
  obtain ⟨n, hn, rfl⟩ := List.mem_map.mp h
  exact ⟨n, by simpa using hn, rfl⟩

/-- The paths around a module, and that of the module itself in front of them. -/
theorem enclosingPaths_pathSegments (path : String) :
    enclosingPaths (pathSegments path) = path :: (enclosingPaths (pathSegments path)).tail := by
  obtain ⟨before, y, hsegments⟩ := (List.eq_nil_or_concat _).resolve_left (pathSegments_ne_nil path)
  have hpath := joinPath_pathSegments path
  rw [hsegments, List.concat_eq_append] at hpath ⊢
  rw [enclosingPaths_concat, hpath, List.tail_cons]

theorem pathSegments_join (p y : String) :
    pathSegments (p ++ "." ++ y) = pathSegments p ++ pathSegments y := by
  rw [pathSegments, String.toList_append, String.toList_append, List.append_assoc]
  change (Text.splitOn '.' (p.toList ++ '.' :: y.toList)).map _ = _
  rw [splitOn_append, List.map_append, pathSegments, pathSegments]

theorem pathSegments_append (p : String) (h : '.' ∉ y.toList) :
    pathSegments (p ++ "." ++ y) = pathSegments p ++ [y] := by
  rw [pathSegments_join, pathSegments_of_undotted h]

theorem pathSegments_joinPath (h : segments ≠ []) (hsegments : ∀ x ∈ segments, '.' ∉ x.toList) :
    pathSegments (joinPath segments) = segments := by
  induction segments with
  | nil => exact absurd rfl h
  | cons x segments ih =>
    obtain ⟨hx, hsegments⟩ := List.forall_mem_cons.mp hsegments
    by_cases hnil : segments = []
    · rw [hnil, joinPath_singleton, pathSegments_of_undotted hx]
    · rw [joinPath_cons x hnil, pathSegments_join, pathSegments_of_undotted hx, ih hnil hsegments,
        List.singleton_append]

end ScriptAnalyzer
