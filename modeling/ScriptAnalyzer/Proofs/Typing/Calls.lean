import ScriptAnalyzer.Proofs.Typing.Callees

namespace ScriptAnalyzer

open TypeStore (Closed Develops)

variable {F : Nat → Prop} {k : Nat}

namespace TypeStore

variable {s s' : TypeStore}

theorem size_pass {param arg : Ty} (h : s.pass param arg = some s') : s'.size = s.size := by
  unfold pass at h
  split at h
  · exact congrArg size (Option.some.inj h).symm
  · split at h
    case h_1 heq =>
      have hsize := size_unify s param arg
      rw [heq] at hsize
      exact Option.some.inj h ▸ hsize
    case h_2 => cases h

theorem passAll_cons {variadic? : Option Ty} {direct : Bool} {params args : List Ty} {arg : Ty}
    (h : passAll variadic? direct params (arg :: args) s = some s') :
    ∃ param params' s₁, s.pass param arg = some s₁ ∧
      passAll variadic? direct params' args s₁ = some s' ∧
      (params = param :: params' ∨
        params' = [] ∧ ∃ array ∈ variadic?, param = array ∨ array.arrayElement? = some param) := by
  cases params with
  | cons param params =>
    obtain ⟨s₁, h₁, h₂⟩ := Option.bind_eq_some_iff.mp h
    exact ⟨param, params, s₁, h₁, h₂, .inl rfl⟩
  | nil =>
    unfold passAll at h
    split at h
    case h_1 => cases h
    case h_2 array =>
      obtain ⟨s₁, h₁, h₂⟩ := Option.bind_eq_some_iff.mp h
      refine ⟨_, [], s₁, h₁, h₂, .inr ⟨rfl, array, rfl, ?_⟩⟩
      split
      · exact .inl rfl
      · cases array.arrayElement? with
        | none => exact .inl rfl
        | some element => exact .inr rfl

theorem size_passAll {variadic? : Option Ty} {direct : Bool} {params args : List Ty}
    (h : passAll variadic? direct params args s = some s') : s'.size = s.size := by
  induction args generalizing params s with
  | nil =>
    rw [passAll] at h
    exact congrArg size (Option.some.inj h).symm
  | cons arg args ih =>
    obtain ⟨param, params', s₁, h₁, h₂, -⟩ := passAll_cons h
    exact (ih h₂).trans (size_pass h₁)

/-- What the store becomes when a call is accepted. -/
structure Grows (F : Nat → Prop) (s s' : TypeStore) : Prop where
  size : s'.size = s.size
  closed : Closed (Ty.Live F s'.size) s'
  develops : Develops F s s'

theorem Grows.trans {s'' : TypeStore} (h : Grows F s s') (h' : Grows F s' s'') : Grows F s s'' :=
  ⟨h'.size.trans h.size, h'.closed, h.develops.trans h'.develops⟩

theorem Grows.refl (hs : Closed (Ty.Live F s.size) s) : Grows F s s := ⟨rfl, hs, .refl F s⟩

theorem pass_grows {param arg : Ty} (hs : Closed (Ty.Live F s.size) s) (hparam : param.Live F s.size)
    (harg : arg.Live F s.size) (h : s.pass param arg = some s') : Grows F s s' := by
  unfold pass at h
  split at h
  · exact Option.some.inj h ▸ .refl hs
  · have hgrows : Grows F s (s.unify param arg).2 :=
      ⟨size_unify s param arg, closed_unify hs hparam harg, develops_unify hs hparam harg⟩
    split at h
    case h_1 heq =>
      rw [heq] at hgrows
      exact Option.some.inj h ▸ hgrows
    case h_2 => cases h

theorem passAll_grows {variadic? : Option Ty} {direct : Bool} {params args : List Ty}
    (hs : Closed (Ty.Live F s.size) s) (hvariadic : ∀ t ∈ variadic?, t.Live F s.size)
    (hparams : ∀ t ∈ params, t.Live F s.size) (hargs : ∀ t ∈ args, t.Live F s.size)
    (h : passAll variadic? direct params args s = some s') : Grows F s s' := by
  induction args generalizing params s with
  | nil =>
    rw [passAll] at h
    exact Option.some.inj h ▸ .refl hs
  | cons arg args ih =>
    obtain ⟨param, params', s₁, h₁, h₂, hparam⟩ := passAll_cons h
    obtain ⟨harg, hargs⟩ := List.forall_mem_cons.mp hargs
    have hlive : param.Live F s.size ∧ ∀ t ∈ params', t.Live F s.size := by
      rcases hparam with rfl | ⟨rfl, array, harray, rfl | helement⟩
      · exact List.forall_mem_cons.mp hparams
      · exact ⟨hvariadic _ harray, nofun⟩
      · refine ⟨?_, nofun⟩
        have hlive := hvariadic _ harray
        unfold Ty.arrayElement? at helement
        split at helement
        case h_1 element =>
          obtain rfl := Option.some.inj helement
          simpa using hlive
        case h_2 => cases helement
    have hgrows := pass_grows hs hlive.1 harg h₁
    refine hgrows.trans (ih hgrows.closed ?_ ?_ ?_ h₂)
    · exact hgrows.size ▸ hvariadic
    · exact hgrows.size ▸ hlive.2
    · exact hgrows.size ▸ hargs

end TypeStore

namespace Overload

open TypeStore (Grows)

variable {s s' : TypeStore} {args : List Ty}

theorem size_select {overloads : List Overload} {t : Ty} (h : select args s overloads = some (t, s')) :
    s'.size = s.size := by
  induction overloads with
  | nil => cases h
  | cons o overloads ih =>
    unfold select at h
    split at h
    case h_1 store haccepts =>
      obtain ⟨-, rfl⟩ := Prod.mk.inj (Option.some.inj h)
      unfold accepts at haccepts
      split at haccepts
      · exact TypeStore.size_passAll haccepts
      · cases haccepts
    case h_2 => exact ih h

theorem select_grows {overloads : List Overload} {t : Ty} (hs : Closed (Ty.Live F s.size) s)
    (hargs : ∀ t ∈ args, t.Live F s.size) (hoverloads : ∀ o ∈ overloads, o.Live F s.size)
    (h : select args s overloads = some (t, s')) : Grows F s s' ∧ t.Live F s.size := by
  induction overloads with
  | nil => cases h
  | cons o overloads ih =>
    obtain ⟨ho, hoverloads⟩ := List.forall_mem_cons.mp hoverloads
    unfold select at h
    split at h
    case h_1 store haccepts =>
      obtain ⟨rfl, rfl⟩ := Prod.mk.inj (Option.some.inj h)
      unfold accepts at haccepts
      split at haccepts
      · refine ⟨TypeStore.passAll_grows hs (fun t ht => ?_) (fun t ht => ?_) hargs haccepts,
          ho.returnType⟩
        · obtain ⟨p, hp, rfl⟩ := Option.map_eq_some_iff.mp ht
          exact ho.params p (List.mem_of_getLast? (Option.filter_eq_some_iff.mp hp).1)
        · obtain ⟨p, hp, rfl⟩ := List.mem_map.mp ht
          exact ho.params p (List.takeWhile_subset _ hp)
      · cases haccepts
    case h_2 => exact ih hoverloads h

end Overload

namespace Checker

open CheckerState

variable {s : CheckerState}

variable (F) in
theorem callMethod_step (name : String) (overloads : List Overload) (args : List Ty) (span : Span)
    (s : CheckerState) :
    (callMethod name overloads args span).Yields s fun t s' =>
      Step F [] s s'
        ((∀ o ∈ overloads, o.Live F s.store.size) ∧ ∀ t ∈ args, t.Live F s.store.size)
        (t.Live F s'.store.size) fun _ => True := by
  simp only [callMethod, yields_bind, yields_modify, yields_get]
  split
  case h_1 t store hselect =>
    have hsize := Overload.size_select hselect
    refine step_of_store (Nat.le_of_eq hsize.symm) fun ⟨hoverloads, hargs⟩ hs => ?_
    obtain ⟨hgrows, ht⟩ := Overload.select_grows hs.closed hargs hoverloads hselect
    exact ⟨hgrows.closed, hgrows.develops, hsize ▸ ht, fun _ _ => trivial⟩
  case h_2 =>
    refine (report_step F _ span _ rfl).bind fun _ s₁ h₁ => ?_
    refine (demand_step F .variable _ s).next (fun _ => trivial) (h₁.imp (fun _ => trivial) ?_ ?_)
    · exact fun _ => False.elim
    · exact fun _ => False.elim

/-! Format functions -/

end Checker

namespace Format

theorem Conversion.typed_live {c : Char} {t : Ty} (h : ofChar? c = some (.typed t)) : t.Live F k := by
  unfold ofChar? at h
  split at h
  any_goals cases h
  all_goals simp

theorem typed_live {offset : Nat} {opener? : Option Nat} {format : Text} {cs : List Conversion} {t : Ty}
    (h : conversions offset opener? format = .ok cs) (ht : .typed t ∈ cs) : t.Live F k := by
  induction format generalizing offset opener? cs with
  | nil =>
    cases opener? with
    | none =>
      obtain rfl := Except.ok.inj h
      cases ht
    | some start => cases h
  | cons c format ih =>
    cases opener? with
    | none => exact ih h ht
    | some start =>
      unfold conversions at h
      split at h
      · exact ih h ht
      · split at h
        case h_1 => cases h
        case h_2 conversion hc =>
          cases hrest : conversions (offset + c.utf8Size) none format with
          | error bad =>
            rw [hrest] at h
            cases h
          | ok rest =>
            rw [hrest] at h
            obtain rfl := Except.ok.inj h
            rcases List.mem_cons.mp ht with rfl | ht
            · exact Conversion.typed_live hc
            · exact ih hrest ht

theorem arguments_live {format : Text} {cs : List Conversion} {t : Ty}
    (h : arguments format = .ok cs) (ht : .typed t ∈ cs) : t.Live F k := by
  unfold arguments at h
  cases hconversions : conversions 0 none format with
  | error bad =>
    rw [hconversions] at h
    cases h
  | ok all =>
    rw [hconversions] at h
    obtain rfl := Except.ok.inj h
    exact typed_live hconversions (List.mem_filter.mp ht).1

end Format

namespace Checker

open CheckerState

variable (F) in
theorem placeholders_step (placeholders : List Format.Conversion) (s : CheckerState) :
    (placeholders.mapM fun
      | .typed t => pure t
      | _ => fresh : Checker (List Ty)).Yields s fun ts s' =>
        Step F [] s s' (∀ t, .typed t ∈ placeholders → t.Live F s.store.size)
          (∀ t ∈ ts, t.Live F s'.store.size) fun _ => True := by
  induction placeholders generalizing s with
  | nil => exact .done (fun _ => nofun) fun _ _ => trivial
  | cons placeholder placeholders ih =>
    simp only [List.mapM_cons]
    refine Yields.bind (Q := fun t s₁ => Step F [] s s₁
      (∀ t, .typed t ∈ placeholder :: placeholders → t.Live F s.store.size)
      (t.Live F s₁.store.size) fun _ => True) ?_ fun t s₁ h₁ => ?_
    · cases placeholder with
      | typed t => exact .done (fun h => h t (by simp)) fun _ _ => trivial
      | percent | any =>
        exact (fresh_step F s).mono fun _ _ h =>
          h.imp (fun _ => trivial) (fun _ => id) fun _ _ _ _ => trivial
    · refine (ih s₁).bind fun ts s₂ h₂ => ?_
      refine h₁.next id (h₂.imp (fun h t ht => ?_) (fun h hts => ?_) fun _ _ _ _ _ => trivial)
      · exact (h.1 t (by simp [ht])).mono h₁.frame.size
      · exact List.forall_mem_cons.mpr ⟨h₂.frame.live h.2, hts⟩

variable (F) in
theorem formatType_step (function : String) (placeholders : List Format.Conversion)
    (s : CheckerState) :
    (formatType function placeholders).Yields s fun t s' =>
      Step F [] s s' (∀ t, .typed t ∈ placeholders → t.Live F s.store.size) (t.Live F s'.store.size)
        fun _ => True := by
  refine (placeholders_step F placeholders s).bind fun args s₁ h₁ => ?_
  have hresult {ret : Ty} {s₂ : CheckerState}
      (h₂ : Step F [] s₁ s₂ True (ret.Live F s₂.store.size) fun _ => True) :
      Step F [] s s₂ (∀ t, .typed t ∈ placeholders → t.Live F s.store.size)
        ((Ty.curried args ret).Live F s₂.store.size) fun _ => True := by
    refine h₁.next id (h₂.imp (fun _ => trivial) (fun h hret => ?_) fun _ _ _ _ _ => trivial)
    exact Ty.live_curried.mpr ⟨fun t ht => h₂.frame.live (h.2 t ht), hret⟩
  split
  case h_1 => exact hresult (.done (fun _ => Ty.live_string) fun _ _ => trivial)
  case h_2 => exact (fresh_step F s₁).bind fun ret s₂ h₂ => hresult h₂
  case h_3 => exact hresult (.done (fun _ => Ty.live_unit) fun _ _ => trivial)

variable (F) in
theorem formatApplication_step (function arg : Expr) (s : CheckerState) :
    (formatApplication? function arg).Yields s fun t? s' =>
      Step F [] s s' (s.Lucid F) (∀ t ∈ t?, t.Live F s'.store.size) fun _ => True := by
  unfold formatApplication?
  split
  case h_2 => exact .done (fun _ => nofun) fun _ _ => trivial
  case h_1 name span format =>
    split
    case isTrue => exact .done (fun _ => nofun) fun _ _ => trivial
    case isFalse =>
      rw [yields_bind, yields_readScope]
      refine step_of_readScope ?_
      generalize s.readScope = s
      simp only [yields_bind, yields_get]
      split
      case h_2 => exact .done (fun _ => nofun) fun _ _ => trivial
      case h_1 owner m hmeaning =>
        have hm (hs : s.Lucid F) : m.kind.Live F s.store.size := by
          unfold meaning? at hmeaning
          split at hmeaning
          case h_1 => cases hmeaning
          case h_2 =>
            split at hmeaning
            case h_1 owner' m' hfound =>
              obtain ⟨rfl, rfl⟩ := Meaning.member.inj (Option.some.inj hmeaning)
              exact hs.memberOf? hfound
            case h_2 =>
              obtain ⟨path, -, hpath⟩ := Option.map_eq_some_iff.mp hmeaning
              cases hpath
        refine (mention_step F name.span (.fixed (m.symbol owner)) s).bind fun _ s₁ h₁ => ?_
        have hsymbol (hs : s.Lucid F) : (m.symbol owner).ErrorFree := .member owner (hm hs).errorFree
        split
        case h_1 placeholders hplaceholders =>
          refine (formatType_step F name.text placeholders s₁).bind fun t s₂ h₂ => ?_
          refine h₁.next hsymbol (h₂.imp (fun _ t ht => ?_) (fun _ ht u hu => ?_) fun _ _ _ h _ => h)
          · exact Format.arguments_live hplaceholders ht
          · exact Option.some.inj hu ▸ ht
        case h_2 bad _ =>
          refine (report_step F _ (placeholderSpan span bad.offset) s₁ ?_).bind fun _ s₂ h₂ => ?_
          · cases bad.conversion <;> rfl
          · exact h₁.next hsymbol (h₂.imp (fun _ => trivial) (fun _ => False.elim) fun _ _ _ h _ => h)

/-! Arguments and records -/

variable (F) in
theorem methodArgs_step (arg : Expr) {type : Checker Ty} {pre : Prop} {s : CheckerState}
    (h : type.Yields s fun t s' => Step F [] s s' pre (t.Live F s'.store.size) fun _ => True) :
    (methodArgs arg type).Yields s fun ts s' =>
      Step F [] s s' pre (∀ t ∈ ts, t.Live F s'.store.size) fun _ => True := by
  simp only [methodArgs]
  split
  case h_1 => exact .done (fun _ => nofun) fun _ _ => trivial
  case h_2 =>
    refine h.bind fun t s₁ h₁ => ?_
    split
    case h_1 ts => exact h₁.imp id (fun _ h => Ty.live_tuple.mp h) fun _ _ _ h => h
    case h_2 => exact h₁.imp id (fun _ h => List.forall_mem_singleton.mpr h) fun _ _ _ h => h
  case h_3 =>
    refine h.bind fun t s₁ h₁ => ?_
    exact h₁.imp id (fun _ h => List.forall_mem_singleton.mpr h) fun _ _ _ h => h

variable (F) in
theorem fieldType_step (record : Option Entity) (name : Ident) (s : CheckerState) :
    (fieldType? record name).Yields s fun t? s' =>
      Step F [] s s' (∀ e ∈ record, ∀ m ∈ e.members, m.kind.Live F s.store.size)
        (∀ t ∈ t?, t.Live F s'.store.size) fun _ => True := by
  simp only [fieldType?]
  split
  case h_1 => exact .done (fun _ => nofun) fun _ _ => trivial
  case h_2 record =>
    split
    case h_1 m t hfield =>
      obtain ⟨m', hm', hkind⟩ := Option.bind_eq_some_iff.mp hfield
      have hlive (h : ∀ e ∈ some record, ∀ m ∈ e.members, m.kind.Live F s.store.size) :=
        h record rfl m' (List.mem_of_find?_eq_some hm')
      split at hkind
      case h_1 t' heq =>
        obtain ⟨rfl, rfl⟩ := Prod.mk.inj (Option.some.inj hkind)
        refine (mention_step F name.span (.fixed (m'.symbol record.path)) s).bind fun _ s₁ h₁ => ?_
        refine h₁.imp (fun h => .member record.path (hlive h).errorFree) (fun h _ u hu => ?_)
          fun _ _ _ h => h
        have ht := hlive h
        rw [heq] at ht
        exact Option.some.inj hu ▸ h₁.frame.live ht
      case h_2 => cases hkind
    case h_2 =>
      refine (report_step F _ name.span s rfl).bind fun _ s₁ h₁ => ?_
      exact h₁.imp (fun _ => trivial) (fun _ => False.elim) fun _ _ _ h => h

variable (F) in
theorem recordOf_step (span : Span) (fields : List (Ident × Expr)) (s : CheckerState) :
    (recordOf? span fields).Yields s fun record s' =>
      Step F [] s s' True (∃ e ∈ s.entities.all, record = some e) fun _ => True := by
  unfold recordOf?
  split
  case h_1 =>
    refine (report_step F _ span s rfl).bind fun _ s₁ h₁ => ?_
    exact h₁.imp id (fun _ => False.elim) fun _ _ _ h => h
  case h_2 name _ _ =>
    simp only [yields_bind, yields_get]
    split
    case h_1 record hrecord =>
      refine .done (fun _ => ⟨record, ?_, rfl⟩) fun _ _ => trivial
      exact List.mem_append_left _ (List.mem_of_find?_eq_some hrecord)
    case h_2 =>
      refine (report_step F _ name.span s rfl).bind fun _ s₁ h₁ => ?_
      exact h₁.imp id (fun _ => False.elim) fun _ _ _ h => h

variable (F) in
theorem entityOf_step (e : Expr) (s : CheckerState) :
    (entityOf? e).Yields s fun _ s' => Step F [] s s' True True fun _ => True := by
  unfold entityOf?
  split
  case h_1 => exact .done id fun _ _ => trivial
  case h_2 name _ =>
    have hread := readScope_step F s
    simp only [yields_bind, yields_readScope, yields_get]
    split
    case isTrue => exact hread
    case isFalse =>
      split
      case h_1 => exact hread
      case h_2 path _ =>
        refine (mentionEntity_step F name path s.readScope).bind fun _ s₁ h₁ => ?_
        exact hread.next id (h₁.imp (fun _ => trivial) (fun _ => id) fun _ _ _ _ _ => trivial)

end Checker

end ScriptAnalyzer
