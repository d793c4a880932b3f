import ScriptAnalyzer.Proofs.Typing.Dues

/-!
What looking up names, reading types and binding patterns puts on record.
-/

namespace ScriptAnalyzer

/-- The name starts at another place. -/
def Ident.Away (n : Ident) (x : Span) : Prop := n.span.start ≠ x.start

theorem Ident.Away.span_ne {n : Ident} {x : Span} (h : n.Away x) : n.span ≠ x :=
  fun heq => h (congrArg Span.start heq)

theorem LongIdent.span_ne_of_away {name : LongIdent} {x : Span} (h : ∀ n ∈ name.parts, n.Away x) :
    name.span ≠ x := by
  intro heq
  have hstart : min name.head.span.start name.last.span.start = x.start := congrArg Span.start heq
  have hhead : name.head.span.start ≠ x.start := h _ List.mem_cons_self
  have hlast : name.last.span.start ≠ x.start := h _ name.last_mem
  omega

/-- The name stands for a value or is bound, or it starts at another place. -/
def Landmark.Spares (x : Span) : Landmark → Prop
  | label n | member n => n.Away x
  | binding _ | use _ | dot _ => True

namespace Checker

open CheckerState

variable {x : Span} {s : CheckerState}

/-! Names -/

theorem report_pays (cause : TypeError.Cause) {span : Span} (hspan : span ≠ x) :
    (report cause span).Pays x [] := by
  intro s
  have hmisses : missesAt { s with records.errors := ⟨cause, span⟩ :: s.records.errors } x =
      s.missesAt x := by
    simp only [missesAt, List.filter_cons]
    split <;> simp [hspan]
  refine ⟨{ Discharges.refl x s with misses := ?_, accounts := ?_ }, ⟨rfl, rfl, rfl⟩⟩
  · exact Nat.le_of_eq hmisses
  · exact fun _ => Nat.le_of_eq (congrArg (s.usesAt x + ·) hmisses.symm)

/-- A warning about a name that is not used counts for nothing. -/
theorem report_unused_pays (name : String) (span : Span) : (report (.unused name) span).Pays x [] :=
  fun s => ⟨{ Discharges.refl x s with }, ⟨rfl, rfl, rfl⟩⟩

theorem mention_pays (symbol : Symbol) {n : Ident} (hn : n.Away x) :
    (mention n.span (.fixed symbol)).Pays x [] := fun s =>
  ⟨(Discharges.note x n symbol s).elsewhere hn.span_ne, ⟨rfl, rfl, rfl⟩⟩

theorem recordMember_pays (site : MemberSite) : (recordMember site).Pays x [] := fun s =>
  ⟨{ Discharges.refl x s with }, ⟨rfl, rfl, rfl⟩⟩

theorem lt_size_of_binder? {name : String} {i : Nat} (h : s.binder? name = some i) : i < s.binders.size := by
  have hnamed := List.find?_some h
  by_contra hsize
  rw [Array.getElem?_eq_none (Nat.le_of_not_lt hsize)] at hnamed
  cases hnamed

theorem silent_binderUse (index : Nat) : Silent (binderUse index) := by
  refine (silent_binderAt index).bind fun _ => ?_
  split
  · exact silent_pure _
  · exact (silent_zonk _).bind fun _ => (silent_instantiate _).bind fun _ => silent_pure _

theorem binderCallee_pays {n : Ident} {i : Nat} (hi : i < s.binders.size) :
    (binderCallee i n.span).Yields s fun _ s' => s.Discharges x [.use n] s' ∧ s.Stays s' := by
  refine Yields.bind (Q := fun _ s' => s' = { s with binders := _ }) rfl ?_
  rintro _ _ rfl
  refine Yields.bind (Q := fun _ s' => s' = s.useBinder i n.span) rfl ?_
  rintro _ _ rfl
  exact (silent_binderUse i).keepsDues ⟨.use x n hi, ⟨rfl, rfl, rfl⟩⟩

/-- The name of an entity that is there is looked up, and perhaps it cannot stand for a value. -/
theorem entityCallee_pays {n : Ident} {path : String} (h : (s.entities.find? path).isSome) :
    (entityCallee path n).Yields s fun _ s' => s.Discharges x [.use n] s' ∧ s.Stays s' := by
  simp only [entityCallee, yields_bind, yields_get]
  split
  case h_1 hnone =>
    rw [hnone] at h
    cases h
  case h_2 e he =>
    rw [yields_bind, yields_mention]
    split
    · exact ⟨(Discharges.note x n e.symbol s).report rfl _, ⟨rfl, rfl, rfl⟩⟩
    · exact ⟨.note x n e.symbol s, ⟨rfl, rfl, rfl⟩⟩

theorem nameCallee_pays (n : Ident) : (nameCallee n).Pays x [.use n] := by
  refine silent_readScope.before fun _ s => ?_
  simp only [yields_bind, yields_get]
  cases hmeaning : s.meaning? n.text with
  | none => exact ⟨.miss x n rfl s, ⟨rfl, rfl, rfl⟩⟩
  | some meaning =>
    obtain ⟨i, rfl, hi⟩ | ⟨owner, m, rfl, -, -⟩ | ⟨path, rfl, -, hpath⟩ := meaning_cases hmeaning
    · exact binderCallee_pays (lt_size_of_binder? hi)
    · dsimp only
      rw [yields_bind, yields_mention]
      exact (silent_memberCallee owner m).keepsDues ⟨.note x n _ s, ⟨rfl, rfl, rfl⟩⟩
    · exact entityCallee_pays (show s.entities.contains path = true from List.find?_some hpath)

theorem mentionSegments_pays (before : String) {parts : List Ident} (h : ∀ n ∈ parts, n.Away x) :
    (mentionSegments before parts).Pays x [] := by
  induction parts generalizing before with
  | nil => exact (silent_pure _).pays
  | cons part parts ih =>
    obtain ⟨hpart, hparts⟩ := List.forall_mem_cons.mp h
    refine Pays.getBind fun s => ?_
    dsimp only
    split
    · exact (mention_pays _ hpart).bind fun _ => ih _ hparts
    · exact ih _ hparts

/-- If an expression names an entity then its first segment is looked up, else nothing happens. -/
theorem entityOf_pays {target : Expr} (h : ∀ name ∈ target.longName?, ∀ n ∈ name.tail, n.Away x)
    (s : CheckerState) : (entityOf? target).Yields s fun path? s' => (path? = none → s'.ledger = s.ledger) ∧
      ∀ path ∈ path?, ∃ name ∈ target.longName?, s.Discharges x [.use name.head] s' ∧ s.Stays s' := by
  unfold entityOf?
  split
  case h_1 => exact ⟨fun _ => rfl, by simp⟩
  case h_2 name hname =>
    have hread : s.Discharges x [] s.readScope ∧ s.Stays s.readScope := silent_readScope.pays s
    simp only [yields_bind, yields_readScope, yields_get]
    split
    case isTrue => exact ⟨fun _ => rfl, by simp⟩
    case isFalse =>
      split
      case h_1 => exact ⟨fun _ => rfl, by simp⟩
      case h_2 path hpath =>
        simp only [mentionEntity, LongIdent.parts, mentionSegments, yields_bind, yields_get]
        -- the first segment, and then the others
        have hhead (s₁ : CheckerState) (hdischarges : s.Discharges x [.use name.head] s₁)
            (hstays : s.Stays s₁) (before : String) :=
          (mentionSegments_pays before (h name hname) s₁).mono fun _ _ h' =>
            And.intro (hdischarges.trans hstays.rooted h'.1) (hstays.trans h'.2)
        have hrest {s₁ : CheckerState} {before : String}
            (hyields : (mentionSegments before name.tail).Yields s₁ fun _ s' =>
              s.Discharges x [.use name.head] s' ∧ s.Stays s') :
            Yields (do
              mentionSegments before name.tail
              return some path) s₁ fun path? s' => (path? = none → s'.ledger = s.ledger) ∧
                ∀ path ∈ path?, ∃ name ∈ target.longName?, s.Discharges x [.use name.head] s' ∧
                  s.Stays s' :=
          Yields.bind hyields fun _ _ h' => ⟨by simp, fun _ _ => ⟨name, hname, h'⟩⟩
        split
        case h_1 e he =>
          exact hrest (hhead _ (hread.1.trans hread.2.rooted (.note x name.head e.symbol _))
            ⟨rfl, rfl, rfl⟩ _)
        case h_2 hnone =>
          refine hrest (hhead _ (hread.1.trans hread.2.rooted (.unrooted x name.head fun hs => ?_)) hread.2 _)
          obtain ⟨e, he⟩ := hs.head_found hpath
          exact hnone e he

/-! Members -/

theorem entityCallee_away {n : Ident} (path : String) (hn : n.Away x) : (entityCallee path n).Pays x [] := by
  intro s
  cases h : s.entities.find? path with
  | none =>
    simp only [entityCallee, yields_bind, yields_get, h]
    exact ⟨.refl x s, .refl s⟩
  | some e =>
    exact (entityCallee_pays (h ▸ rfl)).mono fun _ _ h' => ⟨h'.1.elsewhere hn.span_ne, h'.2⟩

theorem entityMember_pays (span dot : Span) (path : String) {name? : Option Ident}
    (hname : ∀ n ∈ name?, n.Away x) : (entityMember span dot path name?).Pays x [] := by
  refine (recordMember_pays _).bind fun _ => ?_
  cases name? with
  | none => exact (silent_pure _).pays
  | some name =>
    have hname := hname name rfl
    refine Pays.getBind fun s => ?_
    dsimp only
    split
    · exact entityCallee_away _ hname
    · split
      · exact (mention_pays _ hname).andThen fun _ => silent_memberCallee _ _
      · exact (report_pays _ hname.span_ne).andThen fun _ => silent_pure _

theorem valueMember_pays (span dot : Span) (receiver : Ty) {name? : Option Ident}
    (hname : ∀ n ∈ name?, n.Away x) : (valueMember span dot receiver name?).Pays x [] := by
  refine (silent_shallow receiver).before fun t => (recordMember_pays _).bind fun _ => ?_
  split
  case h_1 => exact (silent_pure _).pays
  case h_2 => exact (silent_pure _).pays
  case h_3 => exact ((silent_report span rfl).bind fun _ => silent_pure _).pays
  case h_4 t name _ _ =>
    have hname := hname name rfl
    refine Pays.getBind fun s => ?_
    split
    · exact (mention_pays _ hname).andThen fun _ => silent_memberCallee _ _
    · exact (silent_zonk _).before fun _ =>
        (report_pays _ hname.span_ne).andThen fun _ => silent_pure _

/-! Annotations -/

theorem entityType_pays {name : LongIdent} (h : ∀ n ∈ name.parts, n.Away x) :
    (entityType name).Pays x [] := by
  refine Pays.getBind fun s => ?_
  dsimp only
  split
  · exact (mentionSegments_pays _ h).andThen fun _ => silent_pure _
  · exact (report_pays _ (LongIdent.span_ne_of_away h)).andThen fun _ => silent_pure _

theorem namedType_pays {name : LongIdent} (h : ∀ n ∈ name.parts, n.Away x) :
    (namedType name).Pays x [] := by
  unfold namedType
  dsimp only
  split
  · exact (silent_pure _).pays
  · split
    · exact (silent_fresh.bind fun _ => silent_pure _).pays
    · have hlookup : Silent (abbreviation? name.render) := Silent.getBind fun _ => silent_pure _
      refine hlookup.before fun found => ?_
      split
      · exact (silent_pure _).pays
      · exact entityType_pays h

theorem constructedType_pays (argument : Ty) {ctor : LongIdent} (h : ∀ n ∈ ctor.parts, n.Away x) :
    (constructedType argument ctor).Pays x [] := by
  unfold constructedType
  split
  · exact (silent_pure _).pays
  · exact (silent_pure _).pays
  · exact (report_pays _ (LongIdent.span_ne_of_away h)).andThen fun _ => silent_pure _

mutual

theorem annotation_pays (t : TypeExpr) (h : ∀ n ∈ t.names, n.Away x) : Pays ( annotation t) x [] := by
  match t with
  | .named _ name => exact namedType_pays h
  | .var _ name => exact (silent_typeVariable _).pays
  | .app _ argument ctor =>
    obtain ⟨hargument, hctor⟩ := List.forall_mem_append.mp h
    exact (annotation_pays argument hargument).bind fun _ => constructedType_pays _ hctor
  | .array _ element => exact (annotation_pays element h).andThen fun _ => silent_pure _
  | .function _ domain codomain =>
    obtain ⟨hdomain, hcodomain⟩ := List.forall_mem_append.mp h
    refine (annotation_pays domain hdomain).bind fun _ => ?_
    exact (annotation_pays codomain hcodomain).andThen fun _ => silent_pure _
  | .tuple _ items => exact (annotations_pay items h).andThen fun _ => silent_pure _
  | .error _ => exact (silent_pure _).pays

theorem annotations_pay (ts : List TypeExpr) (h : ∀ n ∈ TypeExpr.namesOfAll ts, n.Away x) :
    (annotations ts).Pays x [] := by
  match ts with
  | [] => exact (silent_pure _).pays
  | t :: ts =>
    obtain ⟨ht, hts⟩ := List.forall_mem_append.mp h
    exact (annotation_pays t ht).bind fun _ => (annotations_pay ts hts).andThen fun _ => silent_pure _

end

/-! Patterns -/

theorem away_of_spares {t : TypeExpr} (h : ∀ m ∈ t.landmarks, m.Spares x) : ∀ n ∈ t.names, n.Away x :=
  fun _ hn => h _ (List.mem_map_of_mem hn)

variable {visible : Span} {ofModule : Bool}

theorem bind_pays (name : Ident) (scheme : Scheme) (params : List String) :
    (bind name scheme params visible ofModule).Pays x [.bound name] := fun s =>
  let b : Binder :=
    { name := if ofModule then s.qualified name.text else name.text
      simpleName := name.text, scheme, params, span := name.span }
  ⟨.enter x (b := b) rfl visible s, ⟨rfl, rfl, rfl⟩⟩

theorem freshAll_length (ps : List Pattern) (s : CheckerState) :
    (freshAll ps).Yields s fun ts _ => ts.length = ps.length := by
  induction ps generalizing s with
  | nil => exact rfl
  | cons p ps ih =>
    simp only [freshAll, yields_bind, yields_fresh, yields_pure]
    exact (ih _).mono fun ts _ h => congrArg (· + 1) h

mutual

theorem bindPattern_pays (p : Pattern) (h : ∀ m ∈ p.landmarks, m.Spares x) (t : Ty) :
    (bindPattern visible ofModule p t).Pays x (p.boundNames.map .bound) := by
  match p with
  | .named _ name => exact (bind_pays name (.mono t) []).andThen fun _ => silent_pure _
  | .wildcard _ | .error _ => exact (silent_pure _).pays
  | .unit span => exact ((silent_expect _ _ _).bind fun _ => silent_pure _).pays
  | .tuple span items =>
    intro s
    refine ((silent_freshAll items s).and (freshAll_length items s)).bind fun parts s₁ h₁ => ?_
    refine (silent_expect _ _ _ s₁).bind fun _ s₂ h₂ => ?_
    have hstays : s.Stays s₂ := .of_ledger (h₂.trans h₁.1)
    refine (bindPatterns_pay items h parts h₁.2 s₂).mono fun _ s' h' => ?_
    exact ⟨((Discharges.refl x s).of_ledger (h₂.trans h₁.1)).trans hstays.rooted h'.1, hstays.trans h'.2⟩
  | .typed span inner written =>
    obtain ⟨hinner, hwritten⟩ := List.forall_mem_append.mp h
    refine (annotation_pays written (away_of_spares hwritten)).bind fun annotated => ?_
    exact (silent_expect _ _ _).before fun _ => bindPattern_pays inner hinner annotated

theorem bindPatterns_pay (ps : List Pattern) (h : ∀ m ∈ Pattern.landmarksOfAll ps, m.Spares x)
    (ts : List Ty) (hlength : ts.length = ps.length) :
    (bindPatterns visible ofModule ps ts).Pays x ((Pattern.boundNamesOfAll ps).map .bound) := by
  match ps, ts with
  | [], _ => exact (silent_pure _).pays
  | p :: ps, [] => cases hlength
  | p :: ps, t :: ts =>
    obtain ⟨hp, hps⟩ := List.forall_mem_append.mp h
    rw [Pattern.boundNamesOfAll, List.map_append]
    refine (bindPattern_pays p hp t).bind fun is => ?_
    exact (bindPatterns_pay ps hps ts (Nat.succ.inj hlength)).andThen fun _ => silent_pure _

end

theorem bindParams_pay {ps : List Pattern} (h : ∀ m ∈ Pattern.landmarksOfAll ps, m.Spares x)
    (expected : Option Ty) :
    (bindParams visible ps expected).Pays x ((Pattern.boundNamesOfAll ps).map .bound) := by
  induction ps generalizing expected with
  | nil => exact (silent_pure _).pays
  | cons p ps ih =>
    obtain ⟨hp, hps⟩ := List.forall_mem_append.mp h
    have hrest (t : Ty) (result? : Option Ty) : Pays (bindParamsFrom visible p ps t result?) x
        ((Pattern.boundNamesOfAll (p :: ps)).map .bound) := by
      rw [Pattern.boundNamesOfAll, List.map_append]
      exact (bindPattern_pays p hp t).bind fun _ => (ih hps result?).andThen fun _ => silent_pure _
    unfold bindParams
    split
    · exact (silent_shallow _).before fun ret => hrest _ _
    · exact silent_fresh.before fun t => hrest t none

/-! Bindings -/

section

variable {head : LetHead} {body : Expr} {value : Option Ty → Checker Ty} {stop : Nat} {dues : List Due}

theorem silent_schemeOf (ofModule : Bool) (t : Ty) : Silent (schemeOf ofModule t) := by
  unfold schemeOf
  split
  · exact Silent.getBind fun _ => silent_pure _
  · exact silent_pure _

theorem rebind_pays (index : Nat) (scheme : Scheme) : (rebind index scheme).Pays x [] := by
  intro s
  rw [rebind, yields_modify]
  refine ⟨{ Discharges.refl x s with size := ?_, grounded := fun h m hm i hi => ?_ }, ⟨rfl, rfl, rfl⟩⟩
  · exact Nat.le_of_eq Array.size_modify.symm
  · exact Nat.lt_of_lt_of_eq (h m hm i hi) Array.size_modify.symm

theorem resultType_pays (h : ∀ m ∈ head.landmarks, m.Spares x) : (resultType head).Pays x [] := by
  unfold resultType
  split
  case h_1 written hwritten =>
    have hlabels := (List.forall_mem_append.mp h).2
    rw [hwritten] at hlabels
    exact annotation_pays written (away_of_spares hlabels)
  case h_2 => exact silent_fresh.pays

theorem functionParts_pay (h : ∀ m ∈ head.landmarks, m.Spares x)
    (hvalue : ∀ expected, (value expected).Pays x dues) :
    (functionParts head body value).Pays x
      ((Pattern.boundNamesOfAll head.params).map .bound ++ dues) := by
  have hparams := (List.forall_mem_append.mp (List.forall_mem_append.mp h).1).2
  refine (bindParams_pay hparams none).bind fun r => ?_
  exact (resultType_pays h).bind fun ret => (hvalue (some ret)).andThen fun _ => silent_pure _

theorem bindFunction_pays (scheme : Scheme) :
    (bindFunction head scheme none stop ofModule).Pays x (head.name?.toList.map .bound) := by
  unfold bindFunction
  split
  case h_1 => contradiction
  case h_2 name _ hname =>
    rw [hname]
    exact (bind_pays name scheme _).andThen fun _ => silent_pure _
  case h_3 hname =>
    rw [hname]
    exact (silent_pure _).pays

/-- A recursive function is bound in front of its parameters, any other behind its right-hand side. -/
theorem checkFunction_pays (hhead : head.isFunction = true) (h : ∀ m ∈ head.landmarks, m.Spares x)
    (hvalue : ∀ expected, (value expected).Pays x dues) :
    (checkBinding head body value stop ofModule).Pays x
      ((head.boundNames ++ Pattern.boundNamesOfAll head.params).map .bound ++ dues) := by
  have hbehind (own : Ty) {recursive : Option Nat} {late : List Due}
      (hlate : ∀ scheme, (bindFunction head scheme recursive stop ofModule).Pays x late) : Pays (do
      let r ← withScope (functionParts head body value)
      expect (.curried r.1 r.2) own ((head.name?.map (·.span)).getD head.span)
      let scheme ← schemeOf ofModule (.curried r.1 r.2)
      bindFunction head scheme recursive stop ofModule) x
        (((Pattern.boundNamesOfAll head.params).map .bound ++ dues) ++ late) := by
    refine (functionParts_pay h hvalue).withScope.bind fun r => ?_
    exact (silent_expect _ _ _).before fun _ => (silent_schemeOf _ _).before hlate
  rw [checkBinding_function hhead, functionScheme, LetHead.boundNames, if_pos hhead, List.map_append,
    List.append_assoc]
  simp only [bind_assoc, pure_bind]
  refine silent_fresh.before fun own => ?_
  unfold ownBinder
  split
  case h_1 name _ hname =>
    simp only [map_eq_pure_bind, bind_assoc, pure_bind]
    have hrebind (index : Nat) (scheme : Scheme) :
        (bindFunction head scheme (some index) stop ofModule).Pays x [] :=
      (rebind_pays index scheme).andThen fun _ => silent_pure _
    refine ((bind_pays name _ _).bind fun index => hbehind own (hrebind index)).perm ?_
    simp [hname]
  case h_2 =>
    rw [pure_bind]
    exact (hbehind own bindFunction_pays).perm List.perm_append_comm

theorem valueType_pays (h : ∀ m ∈ head.landmarks, m.Spares x)
    (hvalue : ∀ expected, (value expected).Pays x dues) : (valueType head value).Pays x dues := by
  unfold valueType
  split
  case h_1 written hwritten =>
    have hlabels := (List.forall_mem_append.mp h).2
    rw [hwritten] at hlabels
    refine (annotation_pays written (away_of_spares hlabels)).bind fun t => ?_
    exact (hvalue (some t)).andThen fun _ => silent_pure _
  case h_2 => exact hvalue none

theorem bindValue_pays (h : ∀ m ∈ head.landmarks, m.Spares x) (body : Expr) (stop : Nat) (ofModule : Bool)
    (t : Ty) : (bindValue head body t stop ofModule).Pays x (head.pattern.boundNames.map .bound) := by
  unfold bindValue
  split
  case h_1 span name hpattern =>
    rw [hpattern]
    refine (silent_schemeOf _ _).before fun scheme => ?_
    exact (bind_pays name scheme _).andThen fun _ => silent_pure _
  case h_2 =>
    exact bindPattern_pays head.pattern (List.forall_mem_append.mp (List.forall_mem_append.mp h).1).1 t

theorem checkBinding_pays (h : ∀ m ∈ head.landmarks, m.Spares x)
    (hvalue : ∀ expected, (value expected).Pays x dues) :
    (checkBinding head body value stop ofModule).Pays x
      ((head.boundNames ++ Pattern.boundNamesOfAll head.params).map .bound ++ dues) := by
  cases hhead : head.isFunction with
  | true => exact checkFunction_pays hhead h hvalue
  | false =>
    have hparams : head.params = [] := by simpa [LetHead.isFunction] using hhead
    rw [checkBinding_value hhead, LetHead.boundNames, hhead, hparams]
    refine ((valueType_pays h hvalue).bind (bindValue_pays h body stop ofModule)).perm ?_
    simpa [Pattern.boundNamesOfAll] using List.perm_append_comm

end

end Checker
end ScriptAnalyzer
