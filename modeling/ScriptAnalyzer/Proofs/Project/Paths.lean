import Mathlib.Data.List.Basic
import ScriptAnalyzer.Project.Path

/-!
Paths as keys: two paths with the same components are one key, however they are written.
-/

namespace ScriptAnalyzer
namespace Path

variable {p q r : Path}

theorem beq_iff : (p == q) = true ↔ p.components = q.components := by
  change (p.components == q.components) = true ↔ _
  exact beq_iff_eq

theorem beq_refl (p : Path) : (p == p) = true := beq_iff.mpr rfl

theorem beq_trans (h : (p == q) = true) (h' : (q == r) = true) : (p == r) = true :=
  beq_iff.mpr ((beq_iff.mp h).trans (beq_iff.mp h'))

theorem beq_comm : (p == q) = true ↔ (q == p) = true := by
  rw [beq_iff, beq_iff, eq_comm]

theorem beq_right (h : (q == r) = true) : (p == q) = (p == r) := by
  rw [Bool.eq_iff_iff]
  exact ⟨fun h' => beq_trans h' h, fun h' => beq_trans h' (beq_comm.mp h)⟩

theorem beq_of_apart (hapart : ¬(p == q) = true) (h : (r == q) = true) : (r == p) = false :=
  Bool.eq_false_iff.mpr fun h' => hapart (beq_trans (beq_comm.mp h') h)

section Table

variable {α : Type} (entries : List (Path × α)) (x : α)

theorem find?_replace (p q : Path) :
    ((entries.map fun e => if e.1 == p then (e.1, x) else e).find? (·.1 == q)).map (·.2) =
      (entries.find? (·.1 == q)).map fun e => if e.1 == p then x else e.2 := by
  induction entries with
  | nil => rfl
  | cons e entries ih =>
    rw [List.map_cons, List.find?_cons, List.find?_cons]
    have hfirst : (if e.1 == p then (e.1, x) else e).1 = e.1 := by split <;> rfl
    rw [hfirst]
    cases e.1 == q with
    | false => exact ih
    | true =>
      simp only [Option.map_some]
      split <;> rfl

/-- An entry is replaced, or added behind the others; the other ones stay. -/
theorem find?_put (p q : Path) :
    ((if entries.any (·.1 == p) then entries.map fun e => if e.1 == p then (e.1, x) else e
      else entries ++ [(p, x)]).find? (·.1 == q)).map (·.2) =
      if p == q then some x else (entries.find? (·.1 == q)).map (·.2) := by
  by_cases hsame : (p == q) = true
  · have hkey (e : Path × α) : (e.1 == p) = (e.1 == q) := beq_right hsame
    simp only [hkey, if_pos hsame]
    split
    case isTrue hany =>
      obtain ⟨e, hfound⟩ := Option.isSome_iff_exists.mp (List.find?_isSome.mpr (List.any_eq_true.mp hany))
      have he := List.find?_some hfound
      rw [find?_replace, hfound, Option.map_some, if_pos he]
    case isFalse hnew =>
      have hnone : entries.find? (·.1 == q) = none :=
        List.find?_eq_none.mpr fun e he hq => hnew (List.any_eq_true.mpr ⟨e, he, hq⟩)
      rw [List.find?_append, hnone, Option.none_or, List.find?_cons, hsame]
      rfl
  · rw [if_neg hsame]
    split
    case isTrue =>
      rw [find?_replace]
      cases hfound : entries.find? (·.1 == q) with
      | none => rfl
      | some e =>
        have he := List.find?_some hfound
        rw [Option.map_some, beq_of_apart hsame he]
        rfl
    case isFalse =>
      rw [List.find?_append, List.find?_cons, Bool.eq_false_iff.mpr hsame, List.find?_nil, Option.or_none]

theorem find?_erase (p q : Path) :
    ((entries.filter (!·.1 == p)).find? (·.1 == q)).map (·.2) =
      if p == q then none else (entries.find? (·.1 == q)).map (·.2) := by
  rw [List.find?_filter]
  by_cases hsame : (p == q) = true
  · have hkey (e : Path × α) : (e.1 == p) = (e.1 == q) := beq_right hsame
    simp [hkey, hsame]
  · have hkey (e : Path × α) : (!e.1 == p && e.1 == q) = (e.1 == q) := by
      cases hq : e.1 == q with
      | false => exact Bool.and_false _
      | true =>
        rw [beq_of_apart hsame hq]
        rfl
    simp [hkey, hsame]

end Table
end Path
end ScriptAnalyzer
