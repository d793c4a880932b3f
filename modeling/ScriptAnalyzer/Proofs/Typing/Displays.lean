import ScriptAnalyzer.Proofs.Syntax.OneLine
import ScriptAnalyzer.Proofs.Typing.Steps
import ScriptAnalyzer.Proofs.Typing.Termination
import ScriptAnalyzer.Typing.Annotation

/-!
Displayed types as annotations. The display of a type is the text of a type expression, with as few
parentheses as the grammar needs.
-/

namespace ScriptAnalyzer

namespace Ty

/-! Names of variables -/

theorem varName_eq (index : Nat) : ∃ digits : Text,
    varName index = '\'' :: Char.ofNat ('a'.toNat + index % 26) :: digits ∧
      (digits = [] ∧ index < 26 ∨ digits = Nat.toDigits 10 (index / 26) ∧ 26 ≤ index) := by
  refine ⟨_, rfl, ?_⟩
  split
  case isTrue h => exact .inl ⟨rfl, h⟩
  case isFalse h => exact .inr ⟨by simp [toString, Nat.repr], Nat.le_of_not_lt h⟩

theorem startsName_letter : ∀ k < 26, Token.startsName (Char.ofNat ('a'.toNat + k)) = true := by decide

theorem letter_injective : ∀ k < 26, ∀ l < 26,
    Char.ofNat ('a'.toNat + k) = Char.ofNat ('a'.toNat + l) → k = l := by decide

theorem isTypeVariable_varName (index : Nat) : Token.isTypeVariable (String.ofList (varName index)) = true := by
  obtain ⟨digits, hname, hdigits⟩ := varName_eq index
  have hstart := startsName_letter (index % 26) (Nat.mod_lt _ (by decide))
  have hall : ∀ c ∈ digits, Token.continuesTypeVar c = true := by
    rcases hdigits with ⟨rfl, -⟩ | ⟨rfl, -⟩
    · exact nofun
    · intro c hc
      have hdigit := Nat.isDigit_of_mem_toDigits (by decide) (by decide) hc
      have hdigit' : Token.isDigit c = true := by
        simpa [Char.isDigit, Token.isDigit, Char.le_def, UInt32.le_iff_toNat_le] using hdigit
      rw [Token.continuesTypeVar, hdigit', Bool.or_true]
  rw [Token.isTypeVariable, String.toList_ofList, hname]
  exact Bool.and_eq_true_iff.mpr ⟨hstart, List.all_eq_true.mpr hall⟩

/-- Different variables are written differently, beyond the letters of the alphabet, too. -/
theorem varName_injective {i j : Nat} (h : varName i = varName j) : i = j := by
  obtain ⟨digits, hi, hdigits⟩ := varName_eq i
  obtain ⟨digits', hj, hdigits'⟩ := varName_eq j
  rw [hi, hj] at h
  obtain ⟨hletter, rfl⟩ := List.cons.inj (List.cons.inj h).2
  have hmod := letter_injective _ (Nat.mod_lt i (by decide)) _ (Nat.mod_lt j (by decide)) hletter
  have hpos (n : Nat) : Nat.toDigits 10 n ≠ [] :=
    List.ne_nil_of_length_pos Nat.length_toDigits_pos
  have hdiv : i / 26 = j / 26 := by
    rcases hdigits with ⟨rfl, hlt⟩ | ⟨rfl, -⟩
    · rcases hdigits' with ⟨-, hlt'⟩ | ⟨hnil, -⟩
      · omega
      · exact absurd hnil.symm (hpos _)
    · rcases hdigits' with ⟨hnil, -⟩ | ⟨heq, -⟩
      · exact absurd hnil (hpos _)
      · rw [← Nat.ofDigitChars_toDigits (b := 10) (n := i / 26) (by decide) (by decide), heq,
          Nat.ofDigitChars_toDigits (by decide) (by decide)]
  omega

/-! Displays -/

/-- The types that are built from variables and the types with a name of their own. -/
inductive Writable : Ty → Prop
  | var (v : Nat) : Writable (var v)
  | atom {name : String} : name ∈ atomicTypes → Writable (atom name)
  | list {element : Ty} : Writable element → Writable (list element)
  | array {element : Ty} : Writable element → Writable (array element)
  | function {param ret : Ty} : Writable param → Writable ret → Writable (function param ret)
  | tuple {items : List Ty} : 2 ≤ items.length → (∀ t ∈ items, Writable t) → Writable (tuple items)

/-- A single name. -/
def simpleName (name : String) : LongIdent := ⟨⟨name, .empty 0⟩, []⟩

mutual

/-- The type expression that the display shows, its variables named by their places in `names`. -/
def expression (names : List Nat) : Ty → TypeExpr
  | var v => .var (.empty 0) ⟨String.ofList (varName (names.idxOf v)), .empty 0⟩
  | named name [] => .named (.empty 0) (simpleName name)
  | named name [arg] =>
    if name = "array" then .array (.empty 0) (expression names arg)
    else .app (.empty 0) (expression names arg) (simpleName name)
  | named _ (_ :: _ :: _) => .error (.empty 0)
  | function param ret => .function (.empty 0) (expression names param) (expression names ret)
  | tuple items => .tuple (.empty 0) (expressions names items)
  | error => .error (.empty 0)

def expressions (names : List Nat) : List Ty → List TypeExpr
  | [] => []
  | t :: ts => expression names t :: expressions names ts

end

variable {names : List Nat} {t : Ty}

theorem expressions_eq (names : List Nat) (ts : List Ty) : expressions names ts = ts.map (expression names) := by
  induction ts with
  | nil => rfl
  | cons t ts ih => rw [expressions, ih, List.map_cons]

theorem isName_of_atomic : ∀ name ∈ atomicTypes, Token.isName name = true ∧ lastSegment name.toList = name.toList := by
  decide

theorem Writable.built (h : t.Writable) (names : List Nat) : (t.expression names).Built := by
  have hsimple {name : String} (hname : Token.isName name = true) : (simpleName name).Named :=
    List.forall_mem_singleton.mpr hname
  induction h with
  | var v => exact .var (isTypeVariable_varName _)
  | atom hname => exact .named (hsimple (isName_of_atomic _ hname).1)
  | list _ ih => exact .app ih (hsimple rfl)
  | array _ ih => exact .array ih
  | function _ _ hparam hret => exact .function hparam hret
  | tuple hlength _ hitems =>
    rw [expression, expressions_eq]
    exact .tuple (by rwa [List.length_map]) (List.forall_mem_map.mpr hitems)

theorem writeAll_eq (names : List Nat) (place : Place) (separator : Text) (ts : List Ty) :
    writeAll names place separator ts = ts.flatMap fun t => separator ++ write names place t := by
  induction ts with
  | nil => rfl
  | cons t ts ih => rw [writeAll, ih, List.flatMap_cons]

/-- The display of a type at a place is the text of the type expression there. -/
theorem Writable.spells (h : t.Writable) (names : List Nat) (place : Place) :
    Piece.Spells ((t.expression names).shown place) (write names place t) := by
  induction h generalizing place with
  | var v =>
    have hshown : ((Ty.var v).expression names).shown place =
        [.word (.typeVar (String.ofList (varName (names.idxOf v))))] := by cases place <;> rfl
    have hword := Piece.Spells.word (t := .typeVar (String.ofList (varName (names.idxOf v)))) rfl rfl
    rw [Token.text, String.toList_ofList] at hword
    rwa [hshown, write]
  | @atom name hname =>
    have hshown : ((Ty.atom name).expression names).shown place = [.ident name] := by cases place <;> rfl
    have hwrite : write names place (Ty.atom name) = name.toList := (isName_of_atomic name hname).2
    rw [hshown, hwrite]
    exact .word rfl rfl
  | @list element _ ih =>
    have hshown : ((Ty.list element).expression names).shown place =
        (element.expression names).shown .argument ++ [.ident "list"] := by cases place <;> rfl
    rw [hshown]
    exact (ih .argument).suffix "list"
  | @array element _ ih =>
    have hshown : ((Ty.array element).expression names).shown place =
        (element.expression names).shown .argument ++ [.elementBracket, .punct .rbracket] := by
      cases place <;> rfl
    rw [hshown]
    exact (ih .argument).brackets
  | @function param ret _ _ hparam hret =>
    have hbare := (hparam .parameter).joined .arrow (hret .outermost)
    have htext : write names .parameter param ++
        ' ' :: (Operator.arrow.text.toList ++ ' ' :: write names .outermost ret) =
        write names .parameter param ++ [' ', '-', '>', ' '] ++ write names .outermost ret := by simp; rfl
    rw [htext] at hbare
    have hgrouped := hbare.grouped (((Ty.function param ret).expression names).fits place)
    have hneeded : (!((Ty.function param ret).expression names).fits place) = (place != .outermost) := by
      cases place <;> rfl
    rwa [hneeded] at hgrouped
  | @tuple items hlength _ ih =>
    obtain ⟨first, items, rfl⟩ := List.exists_cons_of_ne_nil (List.ne_nil_of_length_pos (by omega : 0 < items.length))
    obtain ⟨hfirst, hitems⟩ := List.forall_mem_cons.mp ih
    have hbare := (hfirst .item).joinedAll .star fun t ht => hitems t ht .item
    have hpieces : ((Ty.tuple (first :: items)).expression names).bare = (first.expression names).shown .item ++
        items.flatMap fun t => .operator .star :: (t.expression names).shown .item := by
      rw [expression, expressions_eq, List.map_cons, TypeExpr.bare_tuple, List.flatMap_map]
    have hwrite : write names place (.tuple (first :: items)) = parenthesize (place == .item || place == .argument)
        (write names .item first ++ items.flatMap fun t =>
          ' ' :: (Operator.star.text.toList ++ ' ' :: write names .item t)) := by
      rw [write, writeAll_eq]
      rfl
    have hneeded : (!((Ty.tuple (first :: items)).expression names).fits place) =
        (place == .item || place == .argument) := by
      cases place <;> rfl
    rw [hwrite, ← hneeded, TypeExpr.shown, hpieces]
    exact hbare.grouped _

/-- A declaration of the displayed type as a line of pieces. -/
theorem Writable.line_text (h : t.Writable) : "type T = ".toList ++ t.text =
    Piece.line (.keyword .typeKw :: .ident "T" :: .operator .eq :: (t.expression t.freeVars).bare) := by
  have hspells : Piece.Spells (t.expression t.freeVars).bare t.text := h.spells t.freeVars .outermost
  obtain ⟨last, -, hbehind⟩ := hspells.behind (.operator .eq) rfl []
  rw [List.append_nil] at hbehind
  simp only [Piece.line, Piece.written, Piece.keyword, Piece.ident, Piece.operator, Piece.token, hbehind,
    List.append_nil]
  rfl

/-! Type variables -/

end Ty

namespace CheckerState

/-- Each name that is written for a type variable stands for a variable of its own, which is not bound. -/
structure Lettered (s : CheckerState) : Prop where
  known : ∀ name t, s.typeVars.lookup name = some t → ∃ v < s.store.size, t = .var v ∧ s.store.binding? v = none
  apart : ∀ name name' t, s.typeVars.lookup name = some t → s.typeVars.lookup name' = some t → name = name'

/-- No error is found, and the type variables that were written keep their meaning. Those of the names
`keys` have one now. -/
structure Learns (keys : List String) (s s' : CheckerState) : Prop where
  lettered : s'.Lettered
  keeps : ∀ name t, s.typeVars.lookup name = some t → s'.typeVars.lookup name = some t
  errors : s'.records.errors = s.records.errors
  knows : ∀ name ∈ keys, ∃ t, s'.typeVars.lookup name = some t

/-- What the name stands for. -/
def meant (s : CheckerState) (name : String) : Ty := (s.typeVars.lookup name).getD .error

variable {s s₁ s' : CheckerState} {keys keys' : List String}

theorem Learns.refl (h : s.Lettered) : s.Learns [] s := ⟨h, fun _ _ => id, rfl, nofun⟩

theorem Learns.trans (h : s.Learns keys s₁) (h' : s₁.Learns keys' s') : s.Learns (keys ++ keys') s' where
  lettered := h'.lettered
  keeps name t hname := h'.keeps name t (h.keeps name t hname)
  errors := h'.errors.trans h.errors
  knows := List.forall_mem_append.mpr
    ⟨fun name hname => (h.knows name hname).imp fun t => h'.keeps name t, h'.knows⟩

theorem Learns.meant (h : s.Learns keys s₁) (h' : s₁.Learns keys' s') {name : String} (hname : name ∈ keys) :
    s'.meant name = s₁.meant name := by
  obtain ⟨t, ht⟩ := h.knows name hname
  rw [CheckerState.meant, CheckerState.meant, ht, h'.keeps name t ht]

/-- A name that is written for the first time gets a variable of its own. -/
theorem Lettered.learns (h : s.Lettered) {name : String} (hnone : s.typeVars.lookup name = none) :
    s.Learns [name] { s with
      store := s.store.fresh.2
      typeVars := (name, .var s.store.size) :: s.typeVars } := by
  have hlookup (name' : String) : ((name, Ty.var s.store.size) :: s.typeVars).lookup name' =
      if name' = name then some (.var s.store.size) else s.typeVars.lookup name' := by
    rw [List.lookup_cons]
    by_cases hname : name' = name
    · rw [if_pos hname, beq_iff_eq.mpr hname]
    · rw [if_neg hname, beq_eq_false_iff_ne.mpr hname]
  have hsize : s.store.fresh.2.size = s.store.size + 1 := Array.size_push _
  have hold {name' : String} {t : Ty} (ht : s.typeVars.lookup name' = some t) : t ≠ .var s.store.size := by
    obtain ⟨v, hv, rfl, -⟩ := h.known name' t ht
    exact fun heq => absurd (Ty.var.inj heq) (Nat.ne_of_lt hv)
  refine ⟨⟨fun name' t ht => ?_, fun name₁ name₂ t h₁ h₂ => ?_⟩, fun name' t ht => ?_, rfl,
    List.forall_mem_singleton.mpr ⟨_, (hlookup name).trans (if_pos rfl)⟩⟩
  · rw [hlookup] at ht
    split at ht
    · refine ⟨s.store.size, Nat.lt_of_lt_of_eq (Nat.lt_succ_self _) hsize.symm, (Option.some.inj ht).symm, ?_⟩
      rw [TypeStore.binding?_fresh]
      exact congrArg Option.join (Array.getElem?_eq_none (Nat.le_refl _))
    · obtain ⟨v, hv, rfl, hfree⟩ := h.known name' t ht
      exact ⟨v, Nat.lt_of_lt_of_eq (Nat.lt_succ_of_lt hv) hsize.symm, rfl,
        (TypeStore.binding?_fresh _ _).trans hfree⟩
  · rw [hlookup] at h₁ h₂
    split at h₁ <;> split at h₂
    case isTrue.isTrue heq₁ heq₂ => rw [heq₁, heq₂]
    case isTrue.isFalse => exact absurd (Option.some.inj h₁).symm (hold h₂)
    case isFalse.isTrue => exact absurd (Option.some.inj h₂).symm (hold h₁)
    case isFalse.isFalse => exact h.apart name₁ name₂ t h₁ h₂
  · rw [hlookup, if_neg, ht]
    rintro rfl
    rw [ht] at hnone
    cases hnone

end CheckerState

namespace Checker

open CheckerState

variable {s : CheckerState} {names : List Nat} {t : Ty} {name : String}

theorem typeVariable_learns (h : s.Lettered) (name : String) :
    (typeVariable name).Yields s fun t s' => s.Learns [name] s' ∧ t = s'.meant name := by
  simp only [typeVariable, yields_bind, yields_get]
  split
  case h_1 t ht =>
    refine ⟨⟨h, fun _ _ => id, rfl, List.forall_mem_singleton.mpr ⟨t, ht⟩⟩, ?_⟩
    exact (congrArg (Option.getD · Ty.error) ht).symm
  case h_2 hnone =>
    simp only [yields_bind, yields_fresh, yields_modify, yields_pure]
    refine ⟨h.learns hnone, ?_⟩
    rw [meant, List.lookup_cons_self]
    rfl

end Checker

/-- The names of variables as they are displayed. -/
def Ty.keys (names vs : List Nat) : List String := vs.map fun v => String.ofList (varName (names.idxOf v))

/-- The type with what its displayed variables stand for. -/
def CheckerState.meaning (s : CheckerState) (names : List Nat) (t : Ty) : Ty :=
  t.subst fun v => s.meant (String.ofList (Ty.varName (names.idxOf v)))

theorem CheckerState.Learns.meaning {s s₁ s' : CheckerState} {names : List Nat} {t : Ty} {keys : List String}
    (h : s.Learns (Ty.keys names t.vars) s₁) (h' : s₁.Learns keys s') : s'.meaning names t = s₁.meaning names t :=
  Ty.subst_congr fun _ hv => h.meant h' (List.mem_map_of_mem hv)

namespace Checker

open CheckerState

/-- Written as its display, the type means itself, up to its variables. -/
def MeansItself (names : List Nat) (t : Ty) : Prop :=
  ∀ (w : TypeExpr) (s : CheckerState), w.unplaced = (t.expression names).unplaced → s.Lettered →
    ( annotation w).Yields s fun r s' => s.Learns (Ty.keys names t.vars) s' ∧ r = s'.meaning names t

variable {names : List Nat}

/-- A single name apart from its places. -/
theorem simpleName_spelled {n : LongIdent} {name : String} (h : n.unplaced = Ty.simpleName name) :
    n.render = name ∧ n.segments = [name] ∧ n.tail.isEmpty = true := by
  obtain ⟨⟨text, span⟩, tail⟩ := n
  obtain ⟨hhead, htail⟩ := LongIdent.mk.inj h
  obtain rfl : tail = [] := List.map_eq_nil_iff.mp htail
  obtain rfl : text = name := (Ident.mk.inj hhead).1
  exact ⟨String.intercalate_singleton, rfl, rfl⟩

theorem var_meansItself (v : Nat) : MeansItself names (.var v) := by
  intro w s hw hs
  cases w with
  | var span n =>
    have htext : n.text = String.ofList (Ty.varName (names.idxOf v)) := (Ident.mk.inj (TypeExpr.var.inj hw).2).1
    rw [ annotation, htext]
    exact typeVariable_learns hs _
  | _ => cases hw

theorem atom_meansItself {name : String} (hname : name ∈ atomicTypes) : MeansItself names (.atom name) := by
  intro w s hw hs
  cases w with
  | named span n =>
    obtain ⟨hrender, -, htail⟩ := simpleName_spelled (TypeExpr.named.inj hw).2
    have hcontains : atomicTypes.contains n.render = true := List.contains_iff_mem.mpr (hrender ▸ hname)
    rw [ annotation, namedType, htail, hcontains, hrender]
    exact ⟨.refl hs, rfl⟩
  | _ => cases hw

theorem list_meansItself {t : Ty} (h : MeansItself names t) : MeansItself names (.list t) := by
  intro w s hw hs
  cases w with
  | app span argument ctor =>
    obtain ⟨-, hargument, hctor⟩ := TypeExpr.app.inj hw
    obtain ⟨-, hsegments, -⟩ := simpleName_spelled hctor
    refine (h argument s hargument hs).bind fun r s₁ ⟨hlearns, hr⟩ => ?_
    rw [constructedType, hsegments]
    refine ⟨?_, congrArg Ty.list hr⟩
    rwa [show (Ty.list t).vars = t.vars from List.append_nil _]
  | _ => cases hw

theorem array_meansItself {t : Ty} (h : MeansItself names t) : MeansItself names (.array t) := by
  intro w s hw hs
  cases w with
  | array span element =>
    obtain ⟨-, helement⟩ := TypeExpr.array.inj hw
    refine (h element s helement hs).bind fun r s₁ ⟨hlearns, hr⟩ => ⟨?_, congrArg Ty.array hr⟩
    rwa [show (Ty.array t).vars = t.vars from List.append_nil _]
  | _ => cases hw

theorem function_meansItself {param ret : Ty} (hparam : MeansItself names param) (hret : MeansItself names ret) :
    MeansItself names (.function param ret) := by
  intro w s hw hs
  cases w with
  | function span domain codomain =>
    obtain ⟨-, hdomain, hcodomain⟩ := TypeExpr.function.inj hw
    refine (hparam domain s hdomain hs).bind fun r s₁ ⟨hlearns, hr⟩ => ?_
    refine (hret codomain s₁ hcodomain hlearns.lettered).bind fun r' s' ⟨hlearns', hr'⟩ => ⟨?_, ?_⟩
    · rw [Ty.vars, Ty.keys, List.map_append]
      exact hlearns.trans hlearns'
    · exact congrArg₂ Ty.function (hr.trans (hlearns.meaning hlearns').symm) hr'
  | _ => cases hw

theorem annotations_mean {items : List Ty} (h : ∀ t ∈ items, MeansItself names t) {ws : List TypeExpr}
    {s : CheckerState} (hws : ws.map (·.unplaced) = items.map fun t => (t.expression names).unplaced)
    (hs : s.Lettered) : (annotations ws).Yields s fun rs s' =>
      s.Learns (Ty.keys names (items.flatMap Ty.vars)) s' ∧ rs = items.map (s'.meaning names) := by
  induction items generalizing ws s with
  | nil =>
    obtain rfl := List.map_eq_nil_iff.mp hws
    exact ⟨.refl hs, rfl⟩
  | cons t items ih =>
    obtain ⟨ht, hitems⟩ := List.forall_mem_cons.mp h
    obtain ⟨w, ws, rfl, hw, hws⟩ := List.map_eq_cons_iff.mp hws
    refine (ht w s hw hs).bind fun r s₁ ⟨hlearns, hr⟩ => ?_
    refine (ih hitems hws hlearns.lettered).bind fun rs s' ⟨hlearns', hrs⟩ => ⟨?_, ?_⟩
    · rw [List.flatMap_cons, Ty.keys, List.map_append]
      exact hlearns.trans hlearns'
    · exact congrArg₂ List.cons (hr.trans (hlearns.meaning hlearns').symm) hrs

theorem tuple_meansItself {items : List Ty} (h : ∀ t ∈ items, MeansItself names t) :
    MeansItself names (.tuple items) := by
  intro w s hw hs
  rw [Ty.expression, Ty.expressions_eq, TypeExpr.unplaced, TypeExpr.unplaced, TypeExpr.mapSpans_tuple] at hw
  cases w with
  | tuple span ws =>
    rw [TypeExpr.mapSpans_tuple] at hw
    obtain ⟨-, hws⟩ := TypeExpr.tuple.inj hw
    rw [List.map_map] at hws
    refine (annotations_mean h hws hs).bind fun rs s' ⟨hlearns, hrs⟩ => ⟨?_, ?_⟩
    · rwa [Ty.vars, Ty.varsOfAll_eq]
    · rw [CheckerState.meaning, Ty.subst, Ty.substAll_eq]
      exact congrArg Ty.tuple hrs
  | _ => cases hw

theorem meansItself {t : Ty} (h : t.Writable) (names : List Nat) : MeansItself names t := by
  induction h with
  | var v => exact var_meansItself v
  | atom hname => exact atom_meansItself hname
  | list _ ih => exact list_meansItself ih
  | array _ ih => exact array_meansItself ih
  | function _ _ hparam hret => exact function_meansItself hparam hret
  | tuple _ _ hitems => exact tuple_meansItself hitems

end Checker

/-! Types up to their variables -/

namespace Ty

/-- The types are equal up to a one-to-one renaming of variables. -/
def Renames (t u : Ty) : Prop :=
  ∃ ρ : Nat → Nat, u = t.subst (fun v => var (ρ v)) ∧ ∀ v ∈ t.vars, ∀ w ∈ t.vars, ρ v = ρ w → v = w

variable {t u r : Ty}

theorem Renames.symm (h : t.Renames u) : u.Renames t := by
  obtain ⟨ρ, rfl, hinj⟩ := h
  let back (w : Nat) : Nat := (t.vars.find? fun v => ρ v == w).getD 0
  have hback : ∀ v ∈ t.vars, back (ρ v) = v := by
    intro v hv
    have hsome : (t.vars.find? fun v' => ρ v' == ρ v).isSome = true :=
      List.find?_isSome.mpr ⟨v, hv, beq_self_eq_true _⟩
    obtain ⟨v', hv'⟩ := Option.isSome_iff_exists.mp hsome
    have heq : ρ v' = ρ v := by simpa using List.find?_some hv'
    rw [show back (ρ v) = v' from congrArg (Option.getD · 0) hv']
    exact hinj v' (List.mem_of_find?_eq_some hv') v hv heq
  have hvars : ∀ w ∈ (t.subst fun v => var (ρ v)).vars, ∃ v ∈ t.vars, w = ρ v := fun w hw => by
    obtain ⟨v, hv, hmem⟩ := exists_of_mem_vars_subst hw
    exact ⟨v, hv, List.mem_singleton.mp hmem⟩
  refine ⟨back, ?_, fun w hw w' hw' heq => ?_⟩
  · rw [subst_subst]
    exact ((subst_congr fun v hv => congrArg var (hback v hv)).trans (subst_var t)).symm
  · obtain ⟨v, hv, rfl⟩ := hvars w hw
    obtain ⟨v', hv', rfl⟩ := hvars w' hw'
    rw [hback v hv, hback v' hv'] at heq
    rw [heq]

theorem Renames.trans (h : t.Renames u) (h' : u.Renames r) : t.Renames r := by
  obtain ⟨ρ, rfl, hinj⟩ := h
  obtain ⟨ρ', rfl, hinj'⟩ := h'
  have hmem : ∀ v ∈ t.vars, ρ v ∈ (t.subst fun v => var (ρ v)).vars := fun v hv =>
    mem_vars_subst hv (List.mem_singleton_self _)
  refine ⟨fun v => ρ' (ρ v), subst_subst _ _ t, fun v hv w hw heq => hinj v hv w hw ?_⟩
  exact hinj' (ρ v) (hmem v hv) (ρ w) (hmem w hw) heq

/-- The number of a type variable. -/
def index : Ty → Nat
  | .var n => n
  | _ => 0

end Ty

/-! Displays read back -/

namespace CheckerState

/-- What a type means is the type up to its variables. -/
theorem Learns.renames {s s' : CheckerState} {t : Ty} (h : s.Learns (Ty.keys t.freeVars t.vars) s') :
    t.Renames (s'.store.zonk (s'.meaning t.freeVars t)) := by
  let key (v : Nat) : String := String.ofList (Ty.varName (t.freeVars.idxOf v))
  let ρ (v : Nat) : Nat := (s'.meant (key v)).index
  have hρ : ∀ v ∈ t.vars, s'.typeVars.lookup (key v) = some (.var (ρ v)) ∧ s'.store.binding? (ρ v) = none := by
    intro v hv
    obtain ⟨u, hu⟩ := h.knows (key v) (List.mem_map_of_mem hv)
    obtain ⟨n, -, rfl, hfree⟩ := h.lettered.known _ _ hu
    have hmeant : s'.meant (key v) = .var n := congrArg (Option.getD · Ty.error) hu
    rw [show ρ v = n from congrArg Ty.index hmeant]
    exact ⟨hu, hfree⟩
  refine ⟨ρ, ?_, fun v hv w hw heq => ?_⟩
  · rw [TypeStore.zonk_eq_subst, CheckerState.meaning, Ty.subst_subst]
    refine Ty.subst_congr fun v hv => ?_
    rw [show s'.meant (key v) = .var (ρ v) from congrArg (Option.getD · Ty.error) (hρ v hv).1, Ty.subst]
    exact TypeStore.image_free (hρ v hv).2
  · have hkeys : key v = key w := h.lettered.apart _ _ _ (hρ v hv).1 (heq ▸ (hρ w hw).1)
    have hindex := Ty.varName_injective (String.ofList_injective hkeys)
    exact (List.idxOf_inj (Ty.mem_freeVars.mpr hv)).mp hindex

end CheckerState

namespace Ty

variable {t u : Ty}

/-- Where no type variable is known, the type expression means the type, up to a one-to-one renaming of variables,
and no error is found in it. -/
def MeantBy (t : Ty) (written : TypeExpr) : Prop :=
  ∀ s : CheckerState, s.typeVars = [] → ( Checker.annotation written).Yields s fun r s' =>
    t.Renames (s'.store.zonk r) ∧ s'.records.errors = s.records.errors

theorem Writable.meantBy (h : t.Writable) {written : TypeExpr}
    (hwritten : written.unplaced = (t.expression t.freeVars).unplaced) : t.MeantBy written := by
  intro s hs
  have hlettered : s.Lettered := by
    constructor <;> rw [hs] <;> exact nofun
  refine (Checker.meansItself h t.freeVars written s hwritten hlettered).mono fun r s' ⟨hlearns, hr⟩ => ?_
  rw [hr]
  exact ⟨hlearns.renames, hlearns.errors⟩

theorem MeantBy.renames {written : TypeExpr} (ht : t.MeantBy written) (hu : u.MeantBy written) : t.Renames u :=
  let s : CheckerState := { entities := { libraries := [] } }
  (ht s rfl).1.trans (hu s rfl).1.symm

/-- A declaration with the display on its right-hand side is parsed without an error. -/
theorem Writable.parse_text (h : t.Writable) (path : Path) (kind : SourceKind) (defines : List String) :
    let f := SyntaxFile.parse path ("type T = ".toList ++ t.text) kind defines
    f.errors = [] ∧ ∃ place name written, f.decls = [.type place name (.abbreviation written)] ∧ name.text = "T" ∧
      t.MeantBy written := by
  rw [h.line_text]
  obtain ⟨herrors, place, name, written, hdecls, hname, hwritten⟩ :=
    SyntaxFile.parse_abbreviation (h.built t.freeVars) (show Token.isName "T" = true from rfl) path kind defines
  exact ⟨herrors, place, name, written, hdecls, hname, h.meantBy hwritten⟩

/-- Written on the right-hand side of a declaration, the display of a type is parsed without an error and means
the type, up to a one-to-one renaming of variables. So types with equal displays are equal up to renaming. -/
theorem Writable.text_means (h : t.Writable) (path : Path) (kind : SourceKind) (defines : List String) :
    (let f := SyntaxFile.parse path ("type T = ".toList ++ t.text) kind defines
    f.errors = [] ∧ ∃ place name written, f.decls = [.type place name (.abbreviation written)] ∧ name.text = "T" ∧
      t.MeantBy written) ∧
    ∀ u : Ty, u.Writable → u.text = t.text → t.Renames u := by
  refine ⟨h.parse_text path kind defines, fun u hu htext => ?_⟩
  obtain ⟨-, _, _, written, hdecls, -, hmeant⟩ := h.parse_text path kind defines
  obtain ⟨-, _, _, written', hdecls', -, hmeant'⟩ := hu.parse_text path kind defines
  rw [htext, hdecls] at hdecls'
  obtain ⟨-, -, hbody⟩ := Decl.type.inj (List.cons.inj hdecls').1
  obtain rfl : written = written' := TypeBody.abbreviation.inj hbody
  exact hmeant.renames hmeant'

/-- A function that takes a list of pairs. -/
theorem pairs_mean :
    let t := function (list (tuple [var 4, atom "int"])) (array (var 7))
    t.Writable ∧ t.text = "('a * int) list -> 'b[]".toList ∧
      (let f := SyntaxFile.parse ⟨"test.glx"⟩ "type T = ('a * int) list -> 'b[]".toList .script []
      f.errors = [] ∧ ∃ place name written, f.decls = [.type place name (.abbreviation written)] ∧ name.text = "T" ∧
        t.MeantBy written) ∧
      t.Renames (function (list (tuple [var 0, atom "int"])) (array (var 1))) := by
  intro t
  have hpairs (v w : Nat) : (function (list (tuple [var v, atom "int"])) (array (var w))).Writable := by
    refine .function (.list (.tuple (Nat.le_refl 2) ?_)) (.array (.var w))
    exact List.forall_mem_cons.mpr ⟨.var v, List.forall_mem_singleton.mpr (.atom (by decide))⟩
  have htext : t.text = "('a * int) list -> 'b[]".toList := by decide
  obtain ⟨hreads, hequal⟩ := Writable.text_means (hpairs 4 7) ⟨"test.glx"⟩ .script []
  refine ⟨hpairs 4 7, htext, ?_, hequal _ (hpairs 0 1) (by decide)⟩
  rw [show "type T = ('a * int) list -> 'b[]".toList = "type T = ".toList ++ t.text from rfl]
  exact hreads

end Ty
end ScriptAnalyzer
