import ScriptAnalyzer.Token
import Mathlib.Data.List.Basic

/-!
Brackets in a list of tokens: which of them match, what stands inside, and the argument of a call that the end
of the list lies in. Main statement: a stack of open parentheses that collects commas finds the parenthesis
left open last, and the commas behind it that no pair of parentheses encloses.
-/

namespace ScriptAnalyzer

/-- A kind of bracket, by its two separators. -/
structure Bracket where
  opener : Punct
  closer : Punct

namespace Bracket

def round : Bracket := ⟨.lparen, .rparen⟩
def square : Bracket := ⟨.lbracket, .rbracket⟩
def curly : Bracket := ⟨.lbrace, .rbrace⟩
def all : List Bracket := [round, square, curly]

variable {b : Bracket} {t : Token} {ts before : List Token}

/-- How many brackets are open behind the token, if `n` are in front of it. -/
def next (b : Bracket) (n : Nat) (t : Token) : Nat :=
  if t = .punct b.opener then n + 1 else if t = .punct b.closer then n - 1 else n

/-- The number of opening brackets that no bracket behind them closes. -/
def unclosed (b : Bracket) (ts : List Token) : Nat := ts.foldl b.next 0

/-- The number of closing brackets that no bracket in front of them opens. -/
def unopened (b : Bracket) : List Token → Nat
  | [] => 0
  | t :: ts =>
    if t = .punct b.opener then b.unopened ts - 1
    else if t = .punct b.closer then b.unopened ts + 1
    else b.unopened ts

/-- Whether the token at the index stands inside a pair of brackets. -/
def Encloses (b : Bracket) (ts : List Token) (i : Nat) : Prop :=
  0 < b.unclosed (ts.take i) ∧ 0 < b.unopened (ts.drop (i + 1))

instance (b : Bracket) (ts : List Token) (i : Nat) : Decidable (b.Encloses ts i) :=
  inferInstanceAs (Decidable (_ ∧ _))

/-- Closing brackets close those in front first. -/
theorem foldl_next (b : Bracket) (n : Nat) (ts : List Token) :
    ts.foldl b.next n = (n - b.unopened ts) + b.unclosed ts := by
  induction ts generalizing n with
  | nil => rfl
  | cons t ts ih =>
    rw [unclosed, List.foldl_cons, List.foldl_cons, ih, ih (b.next 0 t), unopened, next, next]
    split
    · omega
    · split <;> omega

theorem unclosed_snoc (b : Bracket) (ts : List Token) (t : Token) :
    b.unclosed (ts ++ [t]) = b.next (b.unclosed ts) t := by
  rw [unclosed, List.foldl_append]
  rfl

end Bracket

namespace Token

open Bracket

variable {t : Token} {ts behind : List Token} {n : Nat} {opened ms ns : List Nat}

/-- The number of commas that stand in no pair of brackets of these kinds. -/
def commasOutside (kinds : List Bracket) (ts : List Token) : Nat :=
  (List.range ts.length).countP fun i => ts[i]? = some (.punct .comma) ∧ ∀ b ∈ kinds, ¬b.Encloses ts i

/-- What stands behind the last parenthesis that is left open. -/
def behindParen? : List Token → Option (List Token)
  | [] => none
  | t :: ts => (behindParen? ts).or (if t = .punct .lparen ∧ round.unopened ts = 0 then some ts else none)

/-- The number of the argument that the end of the tokens lies in: the commas behind the parenthesis left
open, without those in brackets of their own. -/
def argument? (ts : List Token) : Option Nat := (behindParen? ts).map (commasOutside Bracket.all)

/-- The commas behind each open parenthesis, innermost first, once the token is read. -/
def collect : List Nat → Token → List Nat
  | ns, punct .lparen => 0 :: ns
  | ns, punct .rparen => ns.tail
  | n :: ns, punct .comma => (n + 1) :: ns
  | ns, _ => ns

theorem collect_cases (t : Token) : t = .punct .lparen ∨ t = .punct .rparen ∨ t = .punct .comma ∨
    (t ≠ .punct .lparen ∧ t ≠ .punct .rparen ∧ t ≠ .punct .comma ∧ ∀ ns, collect ns t = ns) := by
  by_cases hopen : t = .punct .lparen
  · exact .inl hopen
  by_cases hclose : t = .punct .rparen
  · exact .inr (.inl hclose)
  by_cases hcomma : t = .punct .comma
  · exact .inr (.inr (.inl hcomma))
  refine .inr (.inr (.inr ⟨hopen, hclose, hcomma, fun ns => ?_⟩))
  unfold collect
  split <;> first | rfl | contradiction

/-- The commas behind `depth` open parentheses that lie in none of these. -/
def outerCommas : (depth : Nat) → List Token → Nat
  | _, [] => 0
  | depth, t :: ts =>
    (if t = .punct .comma ∧ ¬(0 < depth ∧ 0 < round.unopened ts) then 1 else 0) +
      outerCommas (round.next depth t) ts

theorem outerCommas_eq (before ts : List Token) : outerCommas (round.unclosed before) ts =
    (List.range ts.length).countP fun i => ts[i]? = some (.punct .comma) ∧
      ¬(0 < round.unclosed (before ++ ts.take i) ∧ 0 < round.unopened (ts.drop (i + 1))) := by
  induction ts generalizing before with
  | nil => rfl
  | cons t ts ih =>
    rw [outerCommas, ← unclosed_snoc, ih, List.length_cons, List.range_succ_eq_map, List.countP_cons,
      List.countP_map, Nat.add_comm]
    simp only [Function.comp_def, List.getElem?_cons_zero, List.getElem?_cons_succ, List.take_succ_cons,
      List.take_zero, List.append_nil, List.drop_succ_cons, List.drop_zero, List.append_assoc,
      List.singleton_append, Option.some.injEq, decide_eq_true_eq, Nat.succ_eq_add_one, Nat.zero_add]
    rfl

theorem commasOutside_round (ts : List Token) : commasOutside [round] ts = outerCommas 0 ts := by
  have heq := outerCommas_eq [] ts
  simpa [commasOutside, Encloses, unclosed] using heq.symm

/-- No parenthesis is left open behind one that has none left open behind it, unless it stays open itself. -/
theorem behindParen?_cons (t : Token) (ts : List Token) : behindParen? (t :: ts) = none ↔
    behindParen? ts = none ∧ (t = .punct .lparen → round.unopened ts ≠ 0) := by
  rw [behindParen?, Option.or_eq_none_iff]
  refine and_congr_right fun _ => ?_
  split <;> simp_all

theorem unopened_open (ts : List Token) :
    round.unopened (.punct .lparen :: ts) = round.unopened ts - 1 := if_pos rfl

theorem unopened_close (ts : List Token) :
    round.unopened (.punct .rparen :: ts) = round.unopened ts + 1 := rfl

theorem unopened_other (hopen : t ≠ .punct .lparen) (hclose : t ≠ .punct .rparen) (ts : List Token) :
    round.unopened (t :: ts) = round.unopened ts := (if_neg hopen).trans (if_neg hclose)

theorem outerCommas_open (depth : Nat) (ts : List Token) :
    outerCommas depth (.punct .lparen :: ts) = outerCommas (depth + 1) ts := Nat.zero_add _

theorem outerCommas_close (depth : Nat) (ts : List Token) :
    outerCommas depth (.punct .rparen :: ts) = outerCommas (depth - 1) ts := Nat.zero_add _

/-- In front of closers as many as are open, a comma is outside if none is. -/
theorem outerCommas_comma {depth : Nat} (hdepth : round.unopened ts = depth) :
    outerCommas depth (.punct .comma :: ts) = (if depth = 0 then 1 else 0) + outerCommas depth ts := by
  simp only [outerCommas, hdepth, and_self, Nat.not_lt, Nat.le_zero, true_and]
  rfl

theorem outerCommas_other (hopen : t ≠ .punct .lparen) (hclose : t ≠ .punct .rparen)
    (hcomma : t ≠ .punct .comma) (depth : Nat) (ts : List Token) :
    outerCommas depth (t :: ts) = outerCommas depth ts := by
  have hnext : round.next depth t = depth := (if_neg hopen).trans (if_neg hclose)
  rw [outerCommas, if_neg fun h => hcomma h.1, Nat.zero_add, hnext]

/-- Where nothing stays open, and the open parentheses `ms` are closed, the one in front of them collects the
commas outside of the others. -/
theorem foldl_collect_closed (hclosed : behindParen? ts = none) (hms : round.unopened ts = ms.length) :
    ts.foldl collect (ms ++ n :: ns) = (n + outerCommas ms.length ts) :: ns := by
  induction ts generalizing ms n with
  | nil =>
    obtain rfl := List.length_eq_zero_iff.mp hms.symm
    rfl
  | cons t ts ih =>
    obtain ⟨hbehind, hopens⟩ := (behindParen?_cons t ts).mp hclosed
    rw [List.foldl_cons]
    rcases collect_cases t with rfl | rfl | rfl | ⟨hopen, hclose, hcomma, hcollect⟩
    · have hinner := hopens rfl
      rw [unopened_open] at hms
      rw [outerCommas_open]
      have hmore : round.unopened ts = (0 :: ms).length := by
        rw [List.length_cons]
        omega
      exact ih hbehind hmore
    · rw [unopened_close] at hms
      rw [outerCommas_close]
      cases ms with
      | nil => cases hms
      | cons m ms => exact ih hbehind (Nat.succ.inj hms)
    · rw [unopened_other (by decide) (by decide)] at hms
      rw [outerCommas_comma hms]
      cases ms with
      | nil => exact (ih hbehind hms).trans (by rw [if_pos List.length_nil, Nat.add_assoc])
      | cons m ms =>
        have hsame : round.unopened ts = ((m + 1) :: ms).length := hms
        exact (ih hbehind hsame).trans (by simp)
    · rw [unopened_other hopen hclose] at hms
      rw [outerCommas_other hopen hclose hcomma, hcollect]
      exact ih hbehind hms

/-- Closers at least as many as are open leave nothing open. -/
theorem foldl_collect_none (hclosed : behindParen? ts = none) (hopened : opened.length ≤ round.unopened ts) :
    ts.foldl collect opened = [] := by
  induction ts generalizing opened with
  | nil => exact List.length_eq_zero_iff.mp (Nat.le_zero.mp hopened)
  | cons t ts ih =>
    obtain ⟨hbehind, hopens⟩ := (behindParen?_cons t ts).mp hclosed
    rw [List.foldl_cons]
    refine ih hbehind ?_
    rcases collect_cases t with rfl | rfl | rfl | ⟨hopen, hclose, -, hcollect⟩
    · have hinner := hopens rfl
      rw [unopened_open] at hopened
      rw [collect, List.length_cons]
      omega
    · rw [unopened_close] at hopened
      rw [collect, List.length_tail]
      omega
    · rw [unopened_other (by decide) (by decide)] at hopened
      cases opened with
      | nil => exact Nat.zero_le _
      | cons n ns => exact hopened
    · rw [unopened_other hopen hclose] at hopened
      rw [hcollect]
      exact hopened

/-- The innermost open parenthesis collects the commas that stand in no pair of parentheses behind it. -/
theorem head?_foldl_collect (opened : List Nat) {behind : List Token} (hbehind : behindParen? ts = some behind) :
    (ts.foldl collect opened).head? = some (commasOutside [round] behind) := by
  induction ts generalizing opened with
  | nil => cases hbehind
  | cons t ts ih =>
    rw [List.foldl_cons]
    cases hlater : behindParen? ts with
    | some later =>
      rw [behindParen?, hlater, Option.some_or] at hbehind
      exact ih _ (hlater.trans hbehind)
    | none =>
      rw [behindParen?, hlater, Option.none_or, Option.ite_none_right_eq_some] at hbehind
      obtain ⟨⟨rfl, hunopened⟩, hbehind⟩ := hbehind
      obtain rfl := Option.some.inj hbehind
      have hnone : round.unopened ts = ([] : List Nat).length := hunopened
      have hcollected : ts.foldl collect (0 :: opened) = _ := foldl_collect_closed hlater hnone
      rw [Nat.zero_add, List.length_nil, ← commasOutside_round] at hcollected
      exact congrArg List.head? hcollected

theorem head?_collect (ts : List Token) :
    (ts.foldl collect []).head? = (behindParen? ts).map (commasOutside [round]) := by
  cases hbehind : behindParen? ts with
  | none => rw [foldl_collect_none hbehind (Nat.zero_le _)]; rfl
  | some behind => exact head?_foldl_collect [] hbehind

/-- Nothing stands behind an open parenthesis if none is open. -/
theorem behindParen?_eq_none_iff (ts : List Token) : behindParen? ts = none ↔ round.unclosed ts = 0 := by
  induction ts with
  | nil => exact iff_of_true rfl rfl
  | cons t ts ih =>
    rw [behindParen?_cons, ih, unclosed.eq_1 _ (t :: ts), List.foldl_cons, foldl_next]
    by_cases hopen : t = .punct .lparen
    · rw [show round.next 0 t = 1 from if_pos hopen]
      simp only [hopen, true_implies]
      omega
    · have hnext : round.next 0 t = 0 := (if_neg hopen).trans (by split <;> rfl)
      rw [hnext, Nat.zero_sub, Nat.zero_add]
      exact and_iff_left fun h => absurd h hopen

theorem countP_eq_iff_of_imp {α : Type} {p q : α → Bool} {l : List α} (h : ∀ x, q x = true → p x = true) :
    l.countP p = l.countP q ↔ ∀ x ∈ l, p x = true → q x = true := by
  constructor
  · intro hcount x hx hp
    rw [List.countP_eq_length_filter, List.countP_eq_length_filter] at hcount
    have heq := (List.monotone_filter_right l h).eq_of_length hcount.symm
    have hmem : x ∈ l.filter q := heq ▸ List.mem_filter.mpr ⟨hx, hp⟩
    exact (List.mem_filter.mp hmem).2
  · exact fun hall => List.countP_congr fun x hx => ⟨hall x hx, h x⟩

/-- Further kinds of brackets leave no comma out if they stand around none that was counted. -/
theorem commasOutside_append_iff (kinds more : List Bracket) (ts : List Token) :
    commasOutside kinds ts = commasOutside (kinds ++ more) ts ↔
      ∀ i < ts.length, ts[i]? = some (.punct .comma) → (∃ b ∈ more, b.Encloses ts i) →
        ∃ b ∈ kinds, b.Encloses ts i := by
  rw [commasOutside, commasOutside, countP_eq_iff_of_imp]
  · refine forall_congr' fun i => ?_
    rw [List.mem_range, decide_eq_true_iff, decide_eq_true_iff]
    refine imp_congr_right fun _ => ?_
    constructor
    · intro houtside hcomma ⟨b, hb, hencloses⟩
      by_contra hnone
      have hkinds : ∀ b ∈ kinds, ¬b.Encloses ts i := fun b hb h => hnone ⟨b, hb, h⟩
      exact (houtside ⟨hcomma, hkinds⟩).2 b (List.mem_append_right _ hb) hencloses
    · rintro hmore ⟨hcomma, hkinds⟩
      refine ⟨hcomma, fun b hb hencloses => ?_⟩
      rcases List.mem_append.mp hb with hb | hb
      · exact hkinds b hb hencloses
      · obtain ⟨b', hb', hencloses'⟩ := hmore hcomma ⟨b, hb, hencloses⟩
        exact hkinds b' hb' hencloses'
  · intro i
    rw [decide_eq_true_iff, decide_eq_true_iff]
    exact fun ⟨hcomma, hall⟩ => ⟨hcomma, fun b hb => hall b (List.mem_append_left _ hb)⟩

end Token
end ScriptAnalyzer
