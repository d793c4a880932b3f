import ScriptAnalyzer.Proofs.Typing.Bindings
import ScriptAnalyzer.Proofs.Typing.Calls
import ScriptAnalyzer.Proofs.Typing.SafeNames

/-!
Calls are safe: what stands in front of the arguments refers to what there is, and so does what is
expected of them. Bindings are safe, and so are the parts of expressions in which no other expression is checked.
-/

namespace ScriptAnalyzer

open Referring

variable {n : Nat} {k k' : Extent} {s : CheckerState} {span : Span} {t : Ty}

theorem Ty.Live.within {F : Nat → Prop} (h : t.Live F k.vars) : Within k t := fun v hv => (h.vars v hv).1

namespace Overload

theorem exists_of_select {args : List Ty} {store store' : TypeStore} {overloads : List Overload}
    (h : select args store overloads = some (t, store')) : ∃ o ∈ overloads, o.returnType = t := by
  induction overloads with
  | nil => cases h
  | cons o overloads ih =>
    unfold select at h
    split at h
    case h_1 => exact ⟨o, List.mem_cons_self, (Prod.mk.inj (Option.some.inj h)).1⟩
    case h_2 =>
      obtain ⟨o', ho', hreturn⟩ := ih h
      exact ⟨o', List.mem_cons_of_mem o ho', hreturn⟩

theorem within_commonReturn {overloads : List Overload} (h : Within k overloads) :
    Within k ((commonReturn? overloads).getD .error) := by
  cases overloads with
  | nil => exact Ty.within_error
  | cons o os =>
    rw [commonReturn?]
    split
    · exact (within_cons.mp h).1.2
    · exact Ty.within_error

end Overload

theorem within_placeholderSpan (h : Within k span) (offset : Nat) :
    Within k (Checker.placeholderSpan span offset) := by
  have hstart : (Checker.placeholderSpan span offset).start ≤ span.stop := Nat.min_le_right _ _
  refine ⟨Nat.le_min.mpr ⟨Nat.le_add_right _ 2, hstart⟩, (Nat.min_le_right _ _).trans h.inside⟩

namespace Checker

theorem calleeType_safe {c : Callee} (hc : Within k c) (h : Within k span) :
    Safe n k (calleeType span c) := by
  unfold calleeType
  split
  case h_1 => exact .pure hc
  case h_2 name o => exact .pure (Overload.within_functionType (within_singleton.mp hc))
  case h_3 => exact (report_safe _ h).next (.pure Ty.within_error)

theorem callMethod_safe (name : String) {overloads : List Overload} {args : List Ty}
    (hoverloads : Within k overloads) (hargs : Within k args) (h : Within k span) :
    Safe n k (callMethod name overloads args span) := by
  intro s hs hk
  have hoverloads' : Within (s.extent n) overloads := mono hk hoverloads
  have hargs' : ∀ t ∈ args, s.store.Allocated t := mono hk hargs
  have hparams : ∀ o ∈ overloads, ∀ p ∈ o.params, s.store.Allocated p.type :=
    fun o ho => (hoverloads' o ho).1
  have hinside := Overload.selectInside_of_wellBound hs.store hparams hargs'
  simp only [callMethod, yields_bind, yields_modify, yields_get]
  have hs₁ : (s.demand .variable (Overload.selectInside args s.store overloads)).Sound n :=
    hs.demand hinside
  generalize hdemanded : s.demand .variable (Overload.selectInside args s.store overloads) = s₁ at hs₁ ⊢
  have hextent : s₁.extent n = s.extent n := by rw [← hdemanded]; rfl
  have hstore : s₁.store = s.store := by rw [← hdemanded]; rfl
  split
  case h_1 t store hselect =>
    obtain ⟨o, ho, rfl⟩ := Overload.exists_of_select hselect
    rw [hstore] at hselect
    have hresolve : s.store.resolve args overloads = store := by
      rw [TypeStore.resolve, hselect]
      rfl
    have hsize := Nat.le_of_eq (Overload.size_select hselect).symm
    have hwell := ((TypeStore.Operates.resolve hargs' hparams).continues hs.store).wellBound
    rw [hresolve] at hwell
    have hle : s.extent n ≤ CheckerState.extent n { s₁ with store } :=
      ⟨hsize, hextent ▸ Nat.le_refl _, Nat.le_refl _⟩
    exact ⟨hs₁.of_store (hstore ▸ hsize) hwell hs₁.faultless, hle, mono hle (hoverloads' o ho).2⟩
  case h_2 =>
    rw [← hextent]
    refine (report_safe _ h).next (.pure ?_) s₁ hs₁ (hextent ▸ hk)
    exact Overload.within_commonReturn hoverloads

theorem notAFunction_safe (h : Within k span) : Safe n k (notAFunction span) :=
  (report_safe _ h).next (.pure Ty.within_error)

theorem applyType_safe {function arg : Ty} {functionSpan argSpan : Span} (hfunction : Within k function)
    (harg : Within k arg) (hspan : Within k functionSpan) (hargSpan : Within k argSpan) :
    Safe n k (applyType function arg functionSpan argSpan) := by
  refine (shallow_safe hfunction).bind fun head k₁ hk hhead => ?_
  split
  case h_1 param ret =>
    obtain ⟨hparam, hret⟩ := Ty.within_function.mp hhead
    exact (expect_safe hparam (mono hk harg) (mono hk hargSpan)).next (.pure hret)
  case h_2 => exact .pure Ty.within_error
  case h_3 =>
    refine fresh_safe.bind fun ret k₂ hk₂ hret => ?_
    have hk := hk.trans hk₂
    exact (expect_safe (mono hk hfunction) (Ty.within_function.mpr ⟨mono hk harg, hret⟩)
      (mono hk hspan)).next (.pure hret)
  case h_4 => exact notAFunction_safe (mono hk hspan)

theorem apply_safe {function : Ty} {functionSpan argSpan : Span} {arg : Option Ty → Checker Ty}
    {expected : Option Ty} (hfunction : Within k function) (hspan : Within k functionSpan)
    (hargSpan : Within k argSpan) (hexpected : Within k expected)
    (harg : ∀ k', k ≤ k' → ∀ expected, Within k' expected → Safe n k' (arg expected)) :
    Safe n k (apply function functionSpan arg argSpan expected) := by
  refine (shallow_safe hfunction).bind fun head k₁ hk hhead => ?_
  split
  case h_1 param ret =>
    obtain ⟨hparam, hret⟩ := Ty.within_function.mp hhead
    have hrest : Safe n k₁ (do let _ ← arg (some param); return ret) :=
      (harg k₁ hk (some param) (within_some.mpr hparam)).bind fun _ _ hk₂ _ => .pure (mono hk₂ hret)
    split
    case h_1 t =>
      have ht := mono hk (within_some.mp hexpected)
      refine (unifies_safe ht hret).bind fun ok k₂ hk₂ _ => ?_
      cases ok with
      | true => exact ((unify_safe ht hret).next hrest).mono hk₂
      | false => exact hrest.mono hk₂
    case h_2 => exact hrest
  case h_2 => exact (harg k₁ hk none within_none).next (.pure Ty.within_error)
  case h_3 =>
    refine (harg k₁ hk none within_none).bind fun t k₂ hk₂ ht => ?_
    have hk := hk.trans hk₂
    exact applyType_safe (mono hk hfunction) ht (mono hk hspan) (mono hk hargSpan)
  case h_4 => exact (harg k₁ hk none within_none).next (notAFunction_safe (mono hk hspan))

/-! Names in front of arguments -/

theorem memberCallee_safe (owner : String) {m : Member} (h : Within k m) :
    Safe n k (memberCallee owner m) := by
  have hkind : Within k m.kind := h.1
  unfold memberCallee
  split
  case h_1 scheme params heq =>
    rw [heq] at hkind
    have hinstance : Safe n k (instantiate scheme) := instantiate_safe hkind
    exact hinstance.bind fun t _ _ ht => .pure ht
  case h_2 isStatic t heq =>
    rw [heq] at hkind
    exact .pure hkind
  case h_3 t heq =>
    rw [heq] at hkind
    exact .pure hkind
  case h_4 isStatic overloads heq =>
    rw [heq] at hkind
    exact .pure hkind

theorem entityCallee_safe (path : String) {name : Ident} (h : Within k name) :
    Safe n k (entityCallee path name) := by
  refine .getBind fun s hs hk => ?_
  split
  case h_1 => exact .pure Ty.within_error
  case h_2 e he =>
    have hentity := hs.entity he
    refine (mention_safe (mono (α := Ident) hk h) hentity.2.2).next ?_
    split
    · exact (report_safe _ (mono (α := Ident) hk h)).next (.pure Ty.within_error)
    · exact .pure hentity.2.1

theorem binderCallee_safe {index : Nat} (hindex : Within k index) (h : Within k span) :
    Safe n k (binderCallee index span) := by
  have hused : Safe n k (modify fun s =>
      { s with binders := s.binders.modify index fun b => { b with used := true } }) :=
    .modify fun s hs _ => hs.modifyBinder fun b hb => hb
  have hmention : Safe n k (mention span (.binder index)) := mention_safe h hindex
  refine hused.next (hmention.next ((binderAt_safe hindex).bind fun b? k₁ _ hb => ?_))
  split
  case h_1 => exact .pure Ty.within_error
  case h_2 b =>
    refine zonkBind_safe (fun t => ?_) _
    exact (instantiate_safe (within_some.mp hb).1).bind fun t _ _ ht => .pure ht

theorem nameCallee_safe {name : Ident} (h : Within k name) : Safe n k (nameCallee name) := by
  refine readScope_safe.next (.getBind fun s hs hk => ?_)
  have hname : Within (s.extent n) name.span := mono (α := Ident) hk h
  split
  case h_1 index hmeaning => exact binderCallee_safe (hs.meaning hmeaning) hname
  case h_2 owner m hmeaning =>
    have hm : Within (s.extent n) m := hs.meaning hmeaning
    exact (mention_safe hname (Member.within_symbol hm owner)).next (memberCallee_safe owner hm)
  case h_3 path _ => exact entityCallee_safe path hname
  case h_4 => exact (report_safe _ hname).next (.pure Ty.within_error)

theorem entityMember_safe {dot : Span} {name? : Option Ident} (h : Within k span) (hdot : Within k dot)
    (hname : Within k name?) (path : String) : Safe n k (entityMember span dot path name?) := by
  have hsite : Within k (name?.map (·.span)) := by
    rintro _ hmem
    obtain ⟨name, hn, rfl⟩ := Option.map_eq_some_iff.mp hmem
    exact hname name hn
  refine (recordMember_safe ⟨hdot, hsite, h⟩).next ?_
  split
  case h_1 => exact .pure Ty.within_error
  case h_2 name =>
    have hname := within_some.mp hname
    refine .getBind fun s hs hk => ?_
    dsimp only
    split
    · exact entityCallee_safe _ (mono hk hname)
    · split
      case h_1 m hm =>
        have hm := hs.staticMember hm
        exact (mention_safe (mono (α := Ident) hk hname) (Member.within_symbol hm path)).next
          (memberCallee_safe path hm)
      case h_2 => exact (report_safe _ (mono (α := Ident) hk hname)).next (.pure Ty.within_error)

theorem valueMember_safe {dot : Span} {receiver : Ty} {name? : Option Ident} (h : Within k span)
    (hdot : Within k dot) (hreceiver : Within k receiver) (hname : Within k name?) :
    Safe n k (valueMember span dot receiver name?) := by
  have hsite : Within k (name?.map (·.span)) := by
    rintro _ hmem
    obtain ⟨name, hn, rfl⟩ := Option.map_eq_some_iff.mp hmem
    exact hname name hn
  refine (shallow_safe hreceiver).bind fun receiver k₁ hk hreceiver => ?_
  refine (recordMember_safe (mono (α := MemberSite) hk ⟨hdot, hsite, h⟩)).next ?_
  split
  case h_1 => exact .pure Ty.within_error
  case h_2 => exact .pure Ty.within_error
  case h_3 => exact (report_safe _ (mono hk h)).next (.pure Ty.within_error)
  case h_4 name t _ _ =>
    have hname := mono hk (within_some.mp hname)
    refine .getBind fun s hs hk₁ => ?_
    split
    case h_1 owner m hm =>
      have hm := hs.memberOfType hm
      exact (mention_safe (mono (α := Ident) hk₁ hname) (Member.within_symbol hm owner)).next
        (memberCallee_safe owner hm)
    case h_2 =>
      refine zonkBind_safe (fun t => ?_) _
      exact (report_safe _ (mono (α := Ident) hk₁ hname)).next (.pure Ty.within_error)

/-! Format functions -/

theorem placeholders_safe {placeholders : List Format.Conversion}
    (h : ∀ t, .typed t ∈ placeholders → Within k t) :
    Safe n k (placeholders.mapM fun
      | .typed t => pure t
      | _ => fresh : Checker (List Ty)) := by
  induction placeholders generalizing k with
  | nil => exact .pure within_nil
  | cons placeholder placeholders ih =>
    rw [List.mapM_cons]
    refine Safe.bind (α := Ty) ?_ fun t k₁ hk ht => ?_
    · cases placeholder with
      | typed t => exact .pure (h t List.mem_cons_self)
      | percent | any => exact fresh_safe
    · refine (ih fun u hu => mono hk (h u (List.mem_cons_of_mem _ hu))).bind fun ts _ hk₁ hts => ?_
      exact .pure (within_cons.mpr ⟨mono hk₁ ht, hts⟩)

theorem formatType_safe (function : String) {placeholders : List Format.Conversion}
    (h : ∀ t, .typed t ∈ placeholders → Within k t) : Safe n k (formatType function placeholders) := by
  refine (placeholders_safe h).bind fun args k₁ _ hargs => ?_
  have hresult {ret : Ty} {k₂ : Extent} (hk : k₁ ≤ k₂) (hret : Within k₂ ret) :
      Within k₂ (Ty.curried args ret) :=
    Ty.within_curried.mpr ⟨mono hk hargs, hret⟩
  split
  case h_1 => exact .pure (hresult (le_refl _) (Ty.within_atom _))
  case h_2 => exact fresh_safe.bind fun ret _ hk hret => .pure (hresult hk hret)
  case h_3 => exact .pure (hresult (le_refl _) (Ty.within_atom _))

theorem formatApplication_safe {function arg : Expr} (hfunction : Within k function.span)
    (harg : Within k arg.span) : Safe n k (formatApplication? function arg) := by
  unfold formatApplication?
  split
  case h_2 => exact .pure within_none
  case h_1 name span format =>
    split
    case isTrue => exact .pure within_none
    case isFalse =>
      refine readScope_safe.next (.getBind fun s hs hk => ?_)
      split
      case h_2 => exact .pure within_none
      case h_1 owner m hmeaning =>
        have hm : Within (s.extent n) m := hs.meaning hmeaning
        refine (mention_safe (mono hk hfunction) (Member.within_symbol hm owner)).next ?_
        split
        case h_1 placeholders hplaceholders =>
          have htyped : ∀ t, .typed t ∈ placeholders → Within (s.extent n) t := fun t ht =>
            Ty.Live.within (F := fun _ => False) (Format.arguments_live hplaceholders ht)
          exact (formatType_safe _ htyped).bind fun t _ _ ht => .pure (within_some.mpr ht)
        case h_2 bad _ =>
          exact (report_safe _ (within_placeholderSpan (mono hk harg) bad.offset)).next
            (.pure (within_some.mpr Ty.within_error))

end Checker

/-! Bindings -/

theorem Literal.within_type (l : Literal) : Within k l.type := by
  cases l <;> exact Ty.within_atom _

theorem LetHead.within_iff {head : LetHead} : Within k head ↔
    Within k head.span ∧ Within k head.pattern ∧ Within k head.params ∧ Within k head.returnType := by
  have hreturn : Within k ((head.returnType.map TypeExpr.spans).getD []) ↔ Within k head.returnType := by
    cases head.returnType with
    | none => exact ⟨fun _ => within_none (α := TypeExpr), fun _ => within_nil (α := Span)⟩
    | some written => exact (within_some (α := TypeExpr)).symm
  refine within_cons.trans (and_congr_right fun _ => ?_)
  rw [within_append, within_append, Pattern.within_spansOfAll, hreturn, and_assoc]
  rfl

theorem Pattern.within_name {p : Pattern} (h : Within k p) {name : Ident} (hname : p.name? = some name) :
    Within k name := by
  unfold Pattern.name? at hname
  split at hname
  case h_1 =>
    obtain rfl := Option.some.inj hname
    exact h _ (by simp [Pattern.spans])
  case h_2 =>
    obtain rfl := Option.some.inj hname
    exact h _ (by simp [Pattern.spans])
  case h_3 => cases hname

namespace Expr

theorem within_iff {e : Expr} :
    Within k e ↔ Within k e.ownSpans ∧ e.EndsScope ∧ Within k e.children := by
  change (Within k e.spans ∧ e.EndsScopes) ↔ _
  rw [spans, preorder_eq, List.flatMap_cons, List.flatMap_assoc, within_append, endsScopes_iff]
  refine ⟨fun ⟨⟨hown, hspans⟩, hends, hchildren⟩ => ⟨hown, hends, fun c hc => ⟨?_, hchildren c hc⟩⟩,
    fun ⟨hown, hends, hchildren⟩ => ⟨⟨hown, fun span hspan => ?_⟩, hends, fun c hc => (hchildren c hc).2⟩⟩
  · exact fun span hspan => hspans span (List.mem_flatMap.mpr ⟨c, hc, hspan⟩)
  · obtain ⟨c, hc, hspan⟩ := List.mem_flatMap.mp hspan
    exact (hchildren c hc).1 span hspan

variable {e : Expr}

theorem within_span (h : Within k e) : Within k e.span := (within_iff.mp h).1 _ e.span_mem_ownSpans

theorem within_bare (h : Within k e) : Within k e.bare.span := by
  fun_induction bare e with
  | case1 span inner ih => exact ih ((within_iff.mp h).2.2 inner List.mem_cons_self)
  | case2 => exact within_span h

theorem within_longName (h : Within k e) {name : LongIdent} (hname : e.longName? = some name) :
    Within k name.parts := by
  fun_induction longName? e generalizing name with
  | case1 part =>
    obtain rfl := Option.some.inj hname
    exact within_singleton.mpr (within_span h)
  | case2 span target dot part ih =>
    obtain ⟨outer, houter, rfl⟩ := Option.map_eq_some_iff.mp hname
    obtain ⟨hown, -, hchildren⟩ := within_iff.mp h
    have hparts := ih (hchildren target List.mem_cons_self) houter
    rw [LongIdent.parts, ← List.cons_append]
    exact within_append.mpr ⟨hparts, within_singleton.mpr (hown part.span (by simp [ownSpans]))⟩
  | case3 => cases hname

end Expr

namespace Checker

theorem valueOf_safe {e : Expr} {callee : Checker Callee} (he : Within k e) (hc : Safe n k callee) :
    Safe n k (valueOf e callee) :=
  hc.bind fun _ _ hk hc => calleeType_safe hc (mono hk (Expr.within_bare he))

theorem settle_safe {expected : Option Ty} {callee : Checker Callee} (h : Within k span)
    (hexpected : Within k expected) (hc : Safe n k callee) : Safe n k (settle span expected callee) := by
  unfold settle
  split
  case h_1 => exact hc
  case h_2 t =>
    have ht := within_some.mp hexpected
    refine hc.bind fun c k₁ hk hc => (calleeType_safe hc (mono hk h)).bind fun found k₂ hk₂ hfound => ?_
    have hk := hk.trans hk₂
    exact (expect_safe (mono hk ht) hfound (mono hk h)).next (.pure (mono hk ht))

theorem warnIgnored_safe (ht : Within k t) (h : Within k span) : Safe n k (warnIgnored t span) := by
  refine (shallow_safe ht).bind fun head k₁ hk hhead => ?_
  split
  case h_1 => exact (unify_safe (Ty.within_atom _) hhead).next (.pure trivial)
  case h_2 => exact .pure trivial
  case h_3 =>
    split
    · exact .pure trivial
    · exact zonkBind_safe (fun _ => report_safe _ (mono hk h)) _

theorem warnUnused_safe {bound : List Nat} (h : Within k bound) : Safe n k (warnUnused bound) := by
  refine .getBind fun s hs hk => ?_
  split
  case isFalse => exact .pure trivial
  case isTrue =>
    refine .forM fun i hi => (binderAt_safe (mono (α := Nat) hk (h i hi))).bind fun b? k₁ _ hb => ?_
    split
    case h_1 => exact .pure trivial
    case h_2 b =>
      split
      · exact .pure trivial
      · exact report_safe _ (within_some.mp hb).2

theorem arithmetic_safe (op : BinaryOp) (ht : Within k t) (h : Within k span) :
    Safe n k (arithmetic op t span) := by
  refine (shallow_safe ht).bind fun head k₁ hk hhead => ?_
  split
  case h_1 => exact (unify_safe (mono hk ht) (Ty.within_atom _)).next (.pure (Ty.within_atom _))
  case h_2 => exact .pure Ty.within_error
  case h_3 =>
    split
    · exact .pure hhead
    · exact zonkBind_safe (fun _ => (report_safe _ (mono hk h)).next (.pure Ty.within_error)) _

theorem methodArgs_safe (arg : Expr) {type : Checker Ty} (h : Safe n k type) :
    Safe n k (methodArgs arg type) := by
  simp only [methodArgs]
  split
  case h_1 => exact .pure within_nil
  case h_2 =>
    refine h.bind fun t k₁ _ ht => ?_
    split
    · exact .pure (Ty.within_tuple.mp ht)
    · exact .pure (within_singleton.mpr ht)
  case h_3 => exact h.bind fun t k₁ _ ht => .pure (within_singleton.mpr ht)

theorem fieldType_safe {record : Option Entity} {name : Ident} (hrecord : Within k record)
    (h : Within k name) : Safe n k (fieldType? record name) := by
  simp only [fieldType?]
  split
  case h_1 => exact .pure within_none
  case h_2 record =>
    split
    case h_1 m t hfield =>
      obtain ⟨m', hm', hkind⟩ := Option.bind_eq_some_iff.mp hfield
      have hm := (within_some.mp hrecord).1 m' (List.mem_of_find?_eq_some hm')
      split at hkind
      case h_1 t' heq =>
        obtain ⟨rfl, rfl⟩ := Prod.mk.inj (Option.some.inj hkind)
        have ht : Within k m'.kind := hm.1
        rw [heq] at ht
        exact (mention_safe h (Member.within_symbol hm record.path)).next (.pure (within_some.mpr ht))
      case h_2 => cases hkind
    case h_2 => exact (report_safe _ h).next (.pure within_none)

theorem recordOf_safe {fields : List (Ident × Expr)} (h : Within k span)
    (hfields : Within k (fields.map (·.1.span))) : Safe n k (recordOf? span fields) := by
  unfold recordOf?
  split
  case h_1 => exact (report_safe _ h).next (.pure within_none)
  case h_2 name _ _ =>
    refine .getBind fun s hs hk => ?_
    split
    case h_1 record hrecord =>
      refine .pure (within_some.mpr (hs.entities record (List.mem_append_left _ ?_)))
      exact List.mem_of_find?_eq_some hrecord
    case h_2 => exact (report_safe _ (mono hk (within_cons.mp hfields).1)).next (.pure within_none)

/-! Bindings -/

section Bindings

variable {head : LetHead} {body : Expr} {value : Option Ty → Checker Ty} {stop : Nat}

/-- The checker of a right-hand side is safe, whatever type is expected. -/
def SafeValue (n : Nat) (k : Extent) (value : Option Ty → Checker Ty) : Prop :=
  ∀ k', k ≤ k' → ∀ expected, Within k' expected → Safe n k' (value expected)

theorem SafeValue.mono (h : SafeValue n k value) (hk : k ≤ k') : SafeValue n k' value :=
  fun _ hk' => h _ (hk.trans hk')

theorem ownBinder_safe {own : Ty} (hhead : Within k head) (hown : Within k own)
    (hscope : Within k (Span.mk head.span.start stop)) (ofModule : Bool) :
    Safe n k (ownBinder head own stop ofModule) := by
  unfold ownBinder
  split
  case h_1 name _ hname =>
    have hname : Within k name := Pattern.within_name (LetHead.within_iff.mp hhead).2.1 hname
    exact (bind_safe hname (Scheme.within_mono hown) hscope _ ofModule).map fun i _ _ hi =>
      within_some.mpr hi
  case h_2 => exact .pure within_none

theorem resultType_safe (h : Within k head) : Safe n k (resultType head) := by
  unfold resultType
  split
  case h_1 written heq =>
    have hwritten := (LetHead.within_iff.mp h).2.2.2
    rw [heq] at hwritten
    exact annotation_safe written (within_some.mp hwritten)
  case h_2 => exact fresh_safe

theorem functionParts_safe (hhead : Within k head) (hbody : Within k body.span)
    (hvalue : SafeValue n k value) : Safe n k (functionParts head body value) := by
  have hparams := (LetHead.within_iff.mp hhead).2.2.1
  refine (bindParams_safe hbody hparams within_none).bind fun r k₁ hk hr => ?_
  refine (resultType_safe (mono hk hhead)).bind fun ret k₂ hk₂ hret => ?_
  refine (hvalue k₂ (hk.trans hk₂) (some ret) (within_some.mpr hret)).bind fun _ k₃ hk₃ _ => ?_
  exact .pure ⟨mono (hk₂.trans hk₃) hr.1, mono hk₃ hret⟩

theorem schemeOf_safe (ofModule : Bool) (ht : Within k t) : Safe n k (schemeOf ofModule t) := by
  cases ofModule with
  | true => exact .getBind fun s hs hk => .pure (Scheme.within_poly _)
  | false => exact .pure (Scheme.within_mono ht)

theorem within_nameSpan (h : Within k head) : Within k ((head.name?.map (·.span)).getD head.span) := by
  cases hname : head.name? with
  | none => exact (LetHead.within_iff.mp h).1
  | some name => exact Pattern.within_name (LetHead.within_iff.mp h).2.1 hname

theorem functionScheme_safe (hhead : Within k head) (hbody : Within k body.span)
    (hscope : Within k (Span.mk head.span.start stop)) (hvalue : SafeValue n k value) (ofModule : Bool) :
    Safe n k (functionScheme head body value stop ofModule) := by
  refine fresh_safe.bind fun own k₁ hk hown => ?_
  refine (ownBinder_safe (mono hk hhead) hown (mono hk hscope) ofModule).bind fun recursive k₂ hk₂ hr => ?_
  have hk := hk.trans hk₂
  refine (Safe.withScope (functionParts_safe (mono hk hhead) (mono hk hbody) (hvalue.mono hk))).bind
    fun r k₃ hk₃ hparts => ?_
  have hk := hk.trans hk₃
  have ht := Ty.within_curried.mpr hparts
  refine (expect_safe ht (mono (hk₂.trans hk₃) hown) (mono hk (within_nameSpan hhead))).next ?_
  exact (schemeOf_safe ofModule ht).bind fun scheme _ hk₄ hscheme => .pure ⟨mono (hk₃.trans hk₄) hr, hscheme⟩

theorem rebind_safe {index : Nat} {scheme : Scheme} (hindex : Within k index)
    (hscheme : Within k scheme) : Safe n k (rebind index scheme) := by
  refine .modify fun s hs hk => ?_
  have hlt : index < s.binders.size := mono hk hindex
  have hs₁ : (s.demand .binder (index < s.binders.size)).Sound n := hs.demand (decide_eq_true hlt)
  exact hs₁.modifyBinder fun b hb => ⟨mono hk hscheme, hb.2⟩

theorem bindFunction_safe {scheme : Scheme} {recursive : Option Nat} (hhead : Within k head)
    (hscheme : Within k scheme) (hrecursive : Within k recursive)
    (hscope : Within k (Span.mk head.span.stop stop)) (ofModule : Bool) :
    Safe n k (bindFunction head scheme recursive stop ofModule) := by
  unfold bindFunction
  split
  case h_1 index =>
    have hindex := within_some.mp hrecursive
    exact (rebind_safe hindex hscheme).next (.pure (within_singleton.mpr hindex))
  case h_2 name hname =>
    have hname : Within k name := Pattern.within_name (LetHead.within_iff.mp hhead).2.1 hname
    exact (bind_safe hname hscheme hscope _ ofModule).bind fun i _ _ hi => .pure (within_singleton.mpr hi)
  case h_3 => exact .pure within_nil

theorem valueType_safe (hhead : Within k head) (hvalue : SafeValue n k value) :
    Safe n k (valueType head value) := by
  unfold valueType
  split
  case h_1 written heq =>
    have hwritten := (LetHead.within_iff.mp hhead).2.2.2
    rw [heq] at hwritten
    refine (annotation_safe written (within_some.mp hwritten)).bind fun t k₁ hk ht => ?_
    exact (hvalue k₁ hk (some t) (within_some.mpr ht)).bind fun _ _ hk₂ _ => .pure (mono hk₂ ht)
  case h_2 => exact hvalue k (le_refl _) none within_none

theorem bindValue_safe (hhead : Within k head) (ht : Within k t)
    (hscope : Within k (Span.mk head.span.stop stop)) (body : Expr) (ofModule : Bool) :
    Safe n k (bindValue head body t stop ofModule) := by
  have hpattern := (LetHead.within_iff.mp hhead).2.1
  unfold bindValue
  split
  case h_1 name heq =>
    have hname : Within k name := Pattern.within_name hpattern (by rw [heq]; rfl)
    refine (schemeOf_safe _ ht).bind fun scheme k₁ hk hscheme => ?_
    exact (bind_safe (mono hk hname) hscheme (mono hk hscope) [] ofModule).bind fun i _ _ hi =>
      .pure (within_singleton.mpr hi)
  case h_2 => exact bindPattern_safe hscope ofModule head.pattern hpattern ht

theorem checkBinding_safe (hhead : Within k head) (hbody : Within k body.span)
    (hscope : Within k (Span.mk head.span.stop stop)) (hvalue : SafeValue n k value) (ofModule : Bool) :
    Safe n k (checkBinding head body value stop ofModule) := by
  cases hfunction : head.isFunction with
  | true =>
    rw [checkBinding_function hfunction]
    have hown : Within k (Span.mk head.span.start stop) :=
      ⟨(LetHead.within_iff.mp hhead).1.ordered.trans hscope.ordered, hscope.inside⟩
    refine (functionScheme_safe hhead hbody hown hvalue ofModule).bind fun r k₁ hk hr => ?_
    exact bindFunction_safe (mono hk hhead) hr.2 hr.1 (mono hk hscope) ofModule
  | false =>
    rw [checkBinding_value hfunction]
    refine (valueType_safe hhead hvalue).bind fun t k₁ hk ht => ?_
    exact bindValue_safe (mono hk hhead) ht (mono hk hscope) body ofModule

end Bindings

end Checker

end ScriptAnalyzer
