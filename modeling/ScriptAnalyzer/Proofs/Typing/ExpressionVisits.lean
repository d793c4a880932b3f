import ScriptAnalyzer.Proofs.Typing.Bindings
import ScriptAnalyzer.Proofs.Typing.Visits

/-!
Checking an expression is a way through it.
-/

namespace ScriptAnalyzer

/-- A name with one more segment. -/
def LongIdent.snoc (name : LongIdent) (last : Ident) : LongIdent :=
  { name with tail := name.tail ++ [last] }

namespace LongIdent

theorem parts_snoc (name : LongIdent) (last : Ident) :
    (name.snoc last).parts = name.parts ++ [last] := by
  simp [snoc, parts]

theorem last_snoc (name : LongIdent) (last : Ident) : (name.snoc last).last = last := by
  simp [snoc, LongIdent.last]

/-- The name with the segments `ns` and `n` behind them. -/
def ofSegments : List Ident → Ident → LongIdent
  | [], n => ⟨n, []⟩
  | m :: ms, n => ⟨m, ms ++ [n]⟩

theorem parts_ofSegments (ns : List Ident) (n : Ident) : (ofSegments ns n).parts = ns ++ [n] := by
  cases ns <;> rfl

theorem last_ofSegments (ns : List Ident) (n : Ident) : (ofSegments ns n).last = n := by
  cases ns <;> simp [ofSegments, LongIdent.last]

theorem head_of_prefix {name whole : LongIdent} (h : name.parts <+: whole.parts) :
    name.head = whole.head := by
  obtain ⟨rest, hrest⟩ := h
  exact (List.cons.inj hrest).1

end LongIdent

/-- Names looked up at the start of an expression, before any part of it is left behind. -/
def Looks (L : Landmark → Prop) (e : Expr) (o o' : CheckerState) : Prop :=
  ∀ rest o'', Visits L (e :: rest) o' o'' → Visits L (e :: rest) o o''

namespace Looks

variable {L : Landmark → Prop} {e : Expr} {o o₁ o' : CheckerState}

theorem refl (L : Landmark → Prop) (e : Expr) (o : CheckerState) : Looks L e o o := fun _ _ h => h

theorem trans (h : Looks L e o o₁) (h' : Looks L e o₁ o') : Looks L e o o' :=
  fun rest o'' hrest => h rest o'' (h' rest o'' hrest)

theorem leads (h : Looks L e o o₁) (h' : Leads L [e] o₁ o') : Leads L [e] o o' :=
  fun rest o'' hrest => h rest o'' (h' rest o'' hrest)

theorem done (h : Looks L e o o') : Leads L [e] o o' := h.leads ((Leads.refl L o').skip [e])

theorem find {written : LongIdent} (name : LongIdent) {symbol : Symbol}
    (hwritten : e.dotted? = some written) (hstarts : name.parts <+: written.parts)
    (hfree : o.binder? name.head.text = none) (hfinds : o.Finds name symbol) :
    Looks L e o (o.note name.last.span symbol) :=
  fun _ _ hrest => .find hwritten hstarts hfree hfinds hrest

end Looks

namespace Checker

open CheckerState

variable {α β : Type} {L : Landmark → Prop} {s : CheckerState}

/-! Names -/

theorem meaning_cases {s : CheckerState} {name : String} {meaning : Meaning}
    (h : s.meaning? name = some meaning) :
    (∃ i, meaning = .binder i ∧ s.binder? name = some i) ∨
    (∃ owner m, meaning = .member owner m ∧ s.binder? name = none ∧
      s.memberOf? name s.containers = some (owner, m)) ∨
    ∃ path, meaning = .entity path ∧ s.binder? name = none ∧ s.entity? [name] = some path := by
  unfold meaning? at h
  split at h
  case h_1 i hi => exact .inl ⟨i, (Option.some.inj h).symm, hi⟩
  case h_2 hfree =>
    split at h
    case h_1 owner m hm => exact .inr (.inl ⟨owner, m, (Option.some.inj h).symm, hfree, hm⟩)
    case h_2 =>
      obtain ⟨path, hpath, rfl⟩ := Option.map_eq_some_iff.mp h
      exact .inr (.inr ⟨path, rfl, hfree, hpath⟩)

theorem binderCallee_leads {n : Ident} {i : Nat} (hn : L (.use n)) (h : s.binder? n.text = some i) :
    (binderCallee i n.span).Yields s fun _ s' => Leads L [.ident n] s.outline s'.outline := by
  have huse : Leads L [.ident n] s.outline (s.useBinder i n.span).outline :=
    fun rest o'' hrest => .use hn h hrest
  refine Yields.bind (Q := fun _ s' => s' = { s with binders := _ }) rfl ?_
  rintro _ _ rfl
  refine Yields.bind (Q := fun _ s' => s' = s.useBinder i n.span) rfl ?_
  rintro _ _ rfl
  refine Quiet.keeps ((quiet_binderAt i).bind fun _ => ?_) huse
  split
  · exact quiet_pure _
  · exact (quiet_zonk _).bind fun _ => (quiet_instantiate _).bind fun _ => quiet_pure _

/-- The symbol of an entity in the place of a value is looked up, if the entity is there. -/
theorem entityCallee_outline (path : String) (name : Ident) (s : CheckerState) :
    (entityCallee path name).Yields s fun _ s' => s'.outline = s.outline ∨
      ∃ e, s.entities.find? path = some e ∧ s'.outline = s.outline.note name.span e.symbol := by
  simp only [entityCallee, yields_bind, yields_get]
  split
  case h_1 => exact .inl rfl
  case h_2 e he =>
    rw [yields_bind, yields_mention]
    refine Yields.mono (Quiet.keeps (R := fun o => o = s.outline.note name.span e.symbol) ?_ rfl)
      fun _ s' h' => .inr ⟨e, he, h'⟩
    split
    · exact (quiet_report _ _).bind fun _ => quiet_pure _
    · exact quiet_pure _

theorem nameCallee_leads {n : Ident} (hn : L (.use n)) (s : CheckerState) :
    (nameCallee n).Yields s fun _ s' => Leads L [.ident n] s.outline s'.outline := by
  rw [nameCallee, yields_bind, yields_readScope]
  -- what is read is in no outline
  change Yields _ _ fun _ s' => Leads L [.ident n] s.readScope.outline s'.outline
  generalize s.readScope = s
  simp only [yields_bind, yields_get]
  cases hmeaning : s.meaning? n.text with
  | none =>
    refine Quiet.keeps ?_ ((Leads.refl L s.outline).skip [.ident n])
    exact (quiet_report _ _).bind fun _ => quiet_pure _
  | some meaning =>
    obtain ⟨i, rfl, hi⟩ | ⟨owner, m, rfl, hfree, hm⟩ | ⟨path, rfl, hfree, hpath⟩ :=
      meaning_cases hmeaning
    · exact binderCallee_leads hn hi
    · have hlook : Looks L (.ident n) s.outline (s.note n.span (m.symbol owner)).outline :=
        .find ⟨n, []⟩ rfl List.prefix_rfl hfree (.open hm rfl)
      dsimp only
      rw [yields_bind, yields_mention]
      exact Quiet.keeps (quiet_memberCallee owner m) hlook.done
    · refine (entityCallee_outline path n s).mono fun _ s' h' => ?_
      obtain h' | ⟨e, he, h'⟩ := h'
      · exact h' ▸ (Leads.refl L _).skip _
      · have hlook : Looks L (.ident n) s.outline (s.outline.note n.span e.symbol) :=
          .find ⟨n, []⟩ rfl List.prefix_rfl hfree (.whole hpath he)
        exact h' ▸ hlook.done

/-- Inside a dotted name of an entity every leading part that is an entity is looked up. -/
theorem mentionSegments_looks {e : Expr} {written whole : LongIdent} {path : String}
    (hwritten : e.dotted? = some written) (hstarts : whole.parts <+: written.parts)
    (hfree : s.binder? whole.head.text = none) (hpath : s.entity? whole.segments = some path)
    (done : List Ident) {parts : List Ident} (hparts : done ++ parts = whole.parts) :
    (mentionSegments ((done.map (·.text)).foldl qualify (pathBefore path whole.render)) parts).Yields s
      fun _ s' => Looks L e s.outline s'.outline ∧
        s'.entities = s.entities ∧ s'.scope = s.scope ∧ s'.binders = s.binders := by
  induction parts generalizing done s with
  | nil => exact ⟨.refl _ _ _, rfl, rfl, rfl⟩
  | cons part parts ih =>
    have hmore : (done ++ [part]) ++ parts = whole.parts := by simpa using hparts
    have hname : (LongIdent.ofSegments done part).parts = done ++ [part] :=
      LongIdent.parts_ofSegments done part
    have hpart : (LongIdent.ofSegments done part).parts <+: whole.parts :=
      ⟨parts, hname.symm ▸ hmore⟩
    have hbefore : ((done ++ [part]).map (·.text)).foldl qualify (pathBefore path whole.render) =
        qualify ((done.map (·.text)).foldl qualify (pathBefore path whole.render)) part.text := by
      simp
    simp only [mentionSegments, yields_bind, yields_get]
    rw [← hbefore]
    split
    case h_1 entity hentity =>
      have hlook : Looks L e s.outline (s.note part.span entity.symbol).outline := by
        have h := Looks.find (L := L) (o := s.outline) _ hwritten (hpart.trans hstarts)
          (by rw [LongIdent.head_of_prefix hpart]; exact hfree)
          (.part hpath hpart (by rw [LongIdent.segments, hname]; exact hentity))
        rwa [LongIdent.last_ofSegments] at h
      rw [yields_bind, yields_mention]
      refine (ih (s := s.note part.span entity.symbol) hfree hpath (done ++ [part]) hmore).mono
        fun _ s' h' => ?_
      exact ⟨hlook.trans h'.1, h'.2⟩
    case h_2 => exact ih hfree hpath (done ++ [part]) hmore

/-- Whether an expression names an entity. The names are looked up at the expression `e` that it
starts. -/
theorem entityOf_looks {e target : Expr}
    (htarget : ∀ outer ∈ target.longName?, ∃ written, e.dotted? = some written ∧
      outer.parts <+: written.parts) (s : CheckerState) :
    (entityOf? target).Yields s fun path? s' => Looks L e s.outline s'.outline ∧
      (path? = none → s'.outline = s.outline) ∧ ∀ path ∈ path?, ∃ outer ∈ target.longName?,
        s'.binder? outer.head.text = none ∧ s'.entity? outer.segments = some path := by
  unfold entityOf?
  split
  case h_1 => exact ⟨.refl _ _ _, fun _ => rfl, by simp⟩
  case h_2 outer houter =>
    obtain ⟨written, hwritten, hstarts⟩ := htarget outer houter
    rw [yields_bind, yields_readScope]
    change Yields _ _ fun path? s' => Looks L e s.readScope.outline s'.outline ∧
      (path? = none → s'.outline = s.readScope.outline) ∧ _
    generalize s.readScope = s
    simp only [yields_bind, yields_get]
    split
    case isTrue => exact ⟨.refl _ _ _, fun _ => rfl, by simp⟩
    case isFalse hfree =>
      have hfree : s.binder? outer.head.text = none := by simpa using hfree
      split
      case h_1 => exact ⟨.refl _ _ _, fun _ => rfl, by simp⟩
      case h_2 path hpath =>
        simp only [yields_bind, yields_pure]
        have hlooks := mentionSegments_looks (L := L) hwritten hstarts hfree hpath [] rfl
        refine hlooks.mono fun _ s' h' => ?_
        obtain ⟨hlook, hentities, hscope, hbinders⟩ := h'
        refine ⟨hlook, by simp, fun p hp => ⟨outer, houter, ?_, ?_⟩⟩
        · simp only [binder?, hbinders, hscope]
          exact hfree
        · simp only [entity?, searchPaths, hentities, hscope]
          exact hpath.trans hp

/-! Members -/

theorem entityMember_leads {span dot : Span} {target : Expr} {outer : LongIdent} {path : String}
    (name? : Option Ident) (houter : target.longName? = some outer)
    (hfree : s.binder? outer.head.text = none) (hpath : s.entity? outer.segments = some path) :
    (entityMember span dot path name?).Yields s fun _ s' =>
      Leads L [.member span target dot name?] s.outline s'.outline := by
  unfold entityMember
  rw [yields_bind, yields_recordMember]
  have haccess (o : CheckerState) : Leads L [.member span target dot name?] o
      (o.access ⟨dot, name?.map (·.span), span, .entity path⟩) :=
    fun rest o'' hrest => .access hrest
  cases name? with
  | none => exact haccess s.outline
  | some name =>
    have hfound {symbol : Symbol} (h : s.outline.Finds (outer.snoc name) symbol) :
        Leads L [.member span target dot (some name)] s.outline
          ((s.outline.note name.span symbol).access ⟨dot, some name.span, span, .entity path⟩) := by
      have hwritten : (Expr.member span target dot (some name)).dotted? = some (outer.snoc name) := by
        rw [Expr.dotted?, Expr.longName?, houter]
        · rfl
        · exact nofun
      have hlook := Looks.find (L := L) (o := s.outline) _ hwritten List.prefix_rfl hfree h
      rw [LongIdent.last_snoc] at hlook
      exact hlook.leads (haccess _)
    simp only [yields_bind, yields_get]
    split
    case isTrue =>
      refine (entityCallee_outline _ _ _).mono fun _ s' h' => ?_
      obtain h' | ⟨e, he, h'⟩ := h'
      · exact h' ▸ haccess s.outline
      · exact h' ▸ hfound (.inner hpath (LongIdent.parts_snoc outer name) he)
    case isFalse =>
      split
      case h_1 m hm =>
        obtain ⟨e, he, hm⟩ := Option.bind_eq_some_iff.mp hm
        rw [yields_bind, yields_mention]
        exact Quiet.keeps (quiet_memberCallee path m)
          (hfound (.member hpath (LongIdent.parts_snoc outer name) he hm))
      case h_2 =>
        refine Quiet.keeps ?_ (haccess s.outline)
        exact (quiet_report _ _).bind fun _ => quiet_pure _

theorem knows_of_membersOfType {es : Entities} {t : Ty} {owner : String} {m : Member}
    (h : (owner, m) ∈ es.membersOfType t) : es.Knows (m.symbol owner) := by
  obtain ⟨e, hfound, hm⟩ | ⟨rfl, hcommon⟩ := Entities.mem_membersOfType h
  · obtain ⟨he, rfl⟩ := Entities.mem_of_find? hfound
    exact .member he hm
  · exact .common hcommon

theorem valueMember_leads {span dot : Span} {target : Expr} {receiver : Ty} (name? : Option Ident)
    {o : CheckerState} (h : Leads L [target] o s.outline) :
    (valueMember span dot receiver name?).Yields s fun _ s' =>
      Leads L [.member span target dot name?] o s'.outline := by
  rw [valueMember, yields_bind, yields_shallow, yields_bind, yields_recordMember]
  generalize s.store.shallow receiver = t
  have haccess : Leads L [.member span target dot name?] o
      (s.outline.access ⟨dot, name?.map (·.span), span, .value t⟩) :=
    fun rest o'' hrest => .accessValue h.visits hrest
  split
  case h_1 => exact haccess
  case h_2 => exact haccess
  case h_3 =>
    refine Quiet.keeps ?_ haccess
    exact (quiet_report _ _).bind fun _ => quiet_pure _
  case h_4 t name _ _ =>
    simp only [yields_bind, yields_get]
    split
    case h_1 owner m hm =>
      rw [yields_bind, yields_mention]
      refine Quiet.keeps (quiet_memberCallee owner m) ?_
      have hknows := knows_of_membersOfType (List.mem_of_find?_eq_some hm)
      exact fun rest o'' hrest => .accessMember h.visits hknows hrest
    case h_2 =>
      refine Quiet.keeps ?_ haccess
      exact (quiet_zonk _).bind fun _ => (quiet_report _ _).bind fun _ => quiet_pure _

/-! Applications -/

variable {es : List Expr}

theorem valueOf_leads {e : Expr} {p : Checker Callee} (hp : Moves p (Leads L es)) :
    Moves (valueOf e p) (Leads L es) :=
  leads_then hp fun _ => quiet_calleeType _ _

theorem settle_leads {p : Checker Callee} (span : Span) (expected : Option Ty)
    (hp : Moves p (Leads L es)) : Moves (settle span expected p) (Leads L es) := by
  unfold settle
  split
  · exact hp
  · refine leads_then hp fun c => (quiet_calleeType _ c).bind fun t => ?_
    exact (quiet_expect _ _ _).bind fun _ => quiet_pure _

/-- A quiet part in front of the way through expressions. -/
theorem Quiet.leads_bind {p : Checker α} {f : α → Checker β} (hp : Quiet p)
    (hf : ∀ a, Moves (f a) (Leads L es)) : Moves (p >>= f) (Leads L es) := fun _ =>
  hp.first fun a s₁ h₁ => h₁ ▸ hf a s₁

theorem apply_leads {arg : Option Ty → Checker Ty} (harg : ∀ expected, Moves (arg expected) (Leads L es))
    (function : Ty) (functionSpan argSpan : Span) (expected : Option Ty) :
    Moves (apply function functionSpan arg argSpan expected) (Leads L es) := by
  refine (quiet_shallow function).leads_bind fun head => ?_
  split
  case h_1 param ret =>
    have hrest : Moves (do let _ ← arg (some param); return ret) (Leads L es) :=
      leads_then (harg _) fun _ => quiet_pure _
    split
    · refine (quiet_unifies _ _).leads_bind fun ok => ?_
      split
      · exact (quiet_unify _ _).leads_bind fun _ => hrest
      · exact hrest
    · exact hrest
  case h_2 => exact leads_then (harg _) fun _ => quiet_pure _
  case h_3 => exact leads_then (harg _) fun _ => quiet_applyType _ _ _ _
  case h_4 => exact leads_then (harg _) fun _ => quiet_notAFunction _

theorem methodArgs_leads {arg : Expr} {type : Checker Ty} (htype : Moves type (Leads L [arg])) :
    Moves (methodArgs arg type) (Leads L [arg]) := by
  unfold methodArgs
  dsimp only
  split
  · exact fun s => (Leads.refl L s.outline).skip [arg]
  · refine leads_then htype fun t => ?_
    split
    · exact quiet_pure _
    · exact quiet_pure _
  · exact leads_then htype fun _ => quiet_pure _

theorem formatApplication_leads (function arg : Expr) (s : CheckerState) :
    (formatApplication? function arg).Yields s fun t? s' =>
      t?.elim (s'.outline = s.outline) fun _ => Leads L [function, arg] s.outline s'.outline := by
  unfold formatApplication?
  split
  case h_2 => exact rfl
  case h_1 name span format =>
    split
    case isTrue => exact rfl
    case isFalse =>
      rw [yields_bind, yields_readScope]
      change Yields _ _ fun (t? : Option Ty) s' => t?.elim (s'.outline = s.readScope.outline) fun _ =>
        Leads L [.ident name, .literal span (.string format)] s.readScope.outline s'.outline
      generalize s.readScope = s
      simp only [yields_bind, yields_get]
      split
      case h_2 => exact rfl
      case h_1 owner m hmeaning =>
        obtain ⟨i, heq, -⟩ | ⟨owner', m', heq, hfree, hm⟩ | ⟨path, heq, -⟩ := meaning_cases hmeaning
        · cases heq
        · cases heq
          have hlook : Looks L (.ident name) s.outline (s.note name.span (m.symbol owner)).outline :=
            .find ⟨name, []⟩ rfl List.prefix_rfl hfree (.open hm rfl)
          have hleads := hlook.done.trans ((Leads.refl L _).skip [.literal span (.string format)])
          rw [yields_bind, yields_mention]
          cases Format.arguments format.toList with
          | ok placeholders => exact Quiet.keeps (quiet_formatType name.text placeholders) hleads
          | error bad => exact hleads
        · cases heq

/-! Bindings -/

section

variable {head : LetHead} {body : Expr} {value : Option Ty → Checker Ty} {stop : Nat} {ofModule : Bool}

theorem quiet_schemeOf (ofModule : Bool) (t : Ty) : Quiet (schemeOf ofModule t) := by
  unfold schemeOf
  split
  · exact Quiet.getBind fun _ => quiet_pure _
  · exact quiet_pure _

theorem landmark_of_name {name : Ident} (h : ∀ m ∈ head.landmarks, L m) (hname : head.name? = some name) :
    L (.binding name) := by
  refine h _ (List.mem_append_left _ (List.mem_append_left _ ?_))
  unfold LetHead.name? Pattern.name? at hname
  split at hname
  · obtain rfl := Option.some.inj hname
    simp [*, Pattern.landmarks]
  · obtain rfl := Option.some.inj hname
    simp [*, Pattern.landmarks]
  · cases hname

theorem ownBinder_enters (hhead : head.isFunction = true) (h : ∀ m ∈ head.landmarks, L m) (own : Ty)
    (s : CheckerState) :
    (ownBinder head own stop ofModule).Yields s fun r s' =>
      Enters L ⟨head.span.start, stop⟩ ofModule head.early r.toList s.outline s'.outline ∧
        head.late = if r.isSome then [] else head.name?.toList := by
  unfold ownBinder
  split
  case h_1 name hrec hname =>
    rw [yields_map]
    refine (bind_enters (landmark_of_name h hname) _ _ s).mono fun i s₁ h₁ =>
      ⟨?_, by simp [LetHead.late, hhead, hrec]⟩
    simpa [LetHead.early, hhead, hrec, hname] using h₁
  case h_2 hnone =>
    have hearly : head.early = [] ∧ head.late = head.name?.toList := by
      unfold LetHead.early LetHead.late
      cases hrec : head.isRec with
      | false => simp [hhead]
      | true =>
        cases hname : head.name? with
        | none => simp [hhead]
        | some name => exact absurd hname (hnone name hrec)
    rw [yields_pure, hearly.1]
    exact ⟨.nil _, by simp [hearly.2]⟩

theorem resultType_notes (h : ∀ m ∈ head.landmarks, L m) : Moves (resultType head) (Notes L) := by
  unfold resultType
  split
  case h_1 written hwritten =>
    have hlabels := (List.forall_mem_append.mp h).2
    rw [hwritten] at hlabels
    exact annotation_notes written (labels_of_landmarks hlabels)
  case h_2 => exact quiet_fresh.notes

theorem functionParts_visits (h : ∀ m ∈ head.landmarks, L m)
    (hvalue : ∀ expected, Moves (value expected) (Leads L [body])) (s : CheckerState) :
    (functionParts head body value).Yields s fun _ s' => ∃ own o,
      Enters L body.span false (Pattern.boundNamesOfAll head.params) own s.outline o ∧
        Visits L [body] o s'.outline := by
  have hparams := (List.forall_mem_append.mp (List.forall_mem_append.mp h).1).2
  refine (bindParams_enters hparams none s).bind fun r s₁ h₁ => ?_
  obtain ⟨own, h₁⟩ := h₁
  refine (resultType_notes h s₁).bind fun ret s₂ h₂ => ?_
  refine (hvalue (some ret) s₂).bind fun _ s₃ h₃ => ⟨own, _, ?_, h₃.visits⟩
  simpa using h₁.append h₂.enters

theorem checkFunction_visited (hhead : head.isFunction = true) (h : ∀ m ∈ head.landmarks, L m)
    (hvalue : ∀ expected, Moves (value expected) (Leads L [body])) (s : CheckerState) :
    (checkBinding head body value stop ofModule).Yields s fun is s' =>
      head.Visited L body stop ofModule is s.outline s'.outline := by
  rw [checkBinding_function hhead, yields_bind, functionScheme]
  refine quiet_fresh.first fun own s₁ h₁ => ?_
  refine (ownBinder_enters hhead h own s₁).bind fun recursive s₂ h₂ => ?_
  obtain ⟨hearly, hlate⟩ := h₂
  simp only [withScope, yields_bind, yields_get, yields_modify, yields_pure]
  refine (functionParts_visits h hvalue s₂).mono fun r s₃ h₃ => ?_
  obtain ⟨own, o, hown, hbody⟩ := h₃
  refine (quiet_expect _ _ _ _).mono fun _ s₄ h₄ => ?_
  refine (quiet_schemeOf _ _ s₄).mono fun scheme s₅ h₅ => ?_
  rw [h₁] at hearly
  have hbehind : s₅.outline = { s₃.outline with scope := s₂.outline.scope } := h₅.trans h₄
  -- the name of a recursive function is bound already, and gets its scheme
  have hvisited (late : List Nat) {s' : CheckerState} (h : Enters L ⟨head.span.stop, stop⟩ ofModule
      head.late late (s₅.outline.settle recursive.toList scheme) s'.outline) :
      head.Visited L body stop ofModule (recursive.toList ++ late) s.outline s'.outline :=
    .intro hearly hown hbody (hbehind ▸ h)
  unfold bindFunction
  split
  case h_1 index =>
    have hnone : head.late = [] := by simpa using hlate
    refine hvisited [] ?_
    rw [hnone]
    exact .nil _
  case h_2 name hname =>
    have hsome : head.late = [name] := by simpa [hname] using hlate
    simp only [yields_bind, yields_pure]
    refine (bind_enters (landmark_of_name h hname) scheme _ s₅).mono fun i s₆ h₆ => hvisited [i] ?_
    rw [hsome]
    exact h₆
  case h_3 hname =>
    have hnone : head.late = [] := by simpa [hname] using hlate
    refine hvisited [] ?_
    rw [hnone]
    exact .nil _

theorem checkBinding_visited (h : ∀ m ∈ head.landmarks, L m)
    (hvalue : ∀ expected, Moves (value expected) (Leads L [body])) (s : CheckerState) :
    (checkBinding head body value stop ofModule).Yields s fun is s' =>
      head.Visited L body stop ofModule is s.outline s'.outline := by
  cases hhead : head.isFunction with
  | true => exact checkFunction_visited hhead h hvalue s
  | false =>
    have hparams : Pattern.boundNamesOfAll head.params = [] := by
      have : head.params = [] := by simpa [LetHead.isFunction] using hhead
      rw [this]
      rfl
    have hearly : head.early = [] := by simp [LetHead.early, hhead]
    have hlate : head.late = head.pattern.boundNames := by simp [LetHead.late, hhead]
    have hpattern := (List.forall_mem_append.mp (List.forall_mem_append.mp h).1).1
    rw [checkBinding_value hhead, yields_bind]
    -- the annotation of the value is read in front of it
    have htype : (valueType head value).Yields s fun _ s' => ∃ o,
        Notes L s.outline o ∧ Visits L [body] o s'.outline := by
      unfold valueType
      split
      case h_1 written hwritten =>
        have hlabels := (List.forall_mem_append.mp h).2
        rw [hwritten] at hlabels
        refine (annotation_notes written (labels_of_landmarks hlabels) s).bind fun t s₁ h₁ => ?_
        exact (hvalue (some t) s₁).bind fun _ s₂ h₂ => ⟨_, h₁, h₂.visits⟩
      case h_2 => exact (hvalue none s).mono fun _ s₁ h₁ => ⟨_, .refl _, h₁.visits⟩
    refine htype.mono fun t s₁ h₁ => ?_
    obtain ⟨o, hnotes, hbody⟩ := h₁
    have hbind : (bindValue head body t stop ofModule).Yields s₁ fun is s' =>
        Enters L ⟨head.span.stop, stop⟩ ofModule head.late is s₁.outline s'.outline := by
      rw [hlate]
      unfold bindValue
      split
      case h_1 span name heq =>
        rw [heq]
        refine (quiet_schemeOf _ _).first fun scheme s₂ h₂ => ?_
        have hname : L (.binding name) := hpattern _ (by simp [heq, Pattern.landmarks])
        exact (bind_enters hname scheme [] s₂).bind fun i s₃ h₃ => h₂ ▸ h₃
      case h_2 => exact bindPattern_enters head.pattern hpattern t s₁
    refine hbind.mono fun is s₂ h₂ => ?_
    have hscope : s₁.scope = s.scope := hbody.scope.trans hnotes.scope
    have hsame : ({ s₁.outline with scope := s.outline.scope } : CheckerState) = s₁.outline := by
      change ({ s₁.outline with scope := s.scope } : CheckerState) = s₁.outline
      rw [← hscope]
      rfl
    have h₀ : Enters L ⟨head.span.start, stop⟩ ofModule head.early [] s.outline s.outline :=
      hearly ▸ .nil _
    have h₁ : Enters L body.span false (Pattern.boundNamesOfAll head.params) [] s.outline o :=
      hparams ▸ hnotes.enters
    have h₃ : Enters L ⟨head.span.stop, stop⟩ ofModule head.late is
        (({ s₁.outline with scope := s.outline.scope } : CheckerState).settle [] (.mono .unit))
        s₂.outline := by
      rw [hsame]
      exact h₂
    exact .intro h₀ h₁ hbody h₃

end

/-! Records -/

theorem fieldType_notes {record : Option Entity} {name : Ident} (hname : L (.label name))
    (hrecord : ∀ e ∈ record, e ∈ s.entities.all) :
    (fieldType? record name).Yields s fun _ s' => Notes L s.outline s'.outline := by
  unfold fieldType?
  split
  case h_1 => exact .refl _
  case h_2 record =>
    dsimp only
    split
    case h_1 m t hfield =>
      obtain ⟨m', hm', hkind⟩ := Option.bind_eq_some_iff.mp hfield
      have hm : m ∈ record.members := by
        have hmem := List.mem_of_find?_eq_some hm'
        split at hkind
        · obtain ⟨rfl, -⟩ := Prod.mk.inj (Option.some.inj hkind)
          exact hmem
        · cases hkind
      rw [yields_bind, yields_mention]
      exact .note hname (.member (hrecord record rfl) hm) (.refl _)
    case h_2 => exact .refl _

theorem recordOf_known (span : Span) (fields : List (Ident × Expr)) (s : CheckerState) :
    (recordOf? span fields).Yields s fun record _ => ∀ e ∈ record, e ∈ s.entities.all := by
  unfold recordOf?
  split
  · rintro _ ⟨⟩
  · simp only [yields_bind, yields_get]
    split
    case h_1 record hrecord =>
      intro e he
      obtain rfl := Option.some.inj he
      exact List.mem_append_left _ (List.mem_of_find?_eq_some hrecord)
    case h_2 => rintro _ ⟨⟩

theorem exprFields_leads {record : Option Entity} {fields : List (Ident × Expr)}
    (hlabels : ∀ f ∈ fields, L (.label f.1))
    (hvalues : ∀ f ∈ fields, ∀ expected, Moves (expr f.2 expected) (Leads L [f.2])) :
    ∀ s : CheckerState, (∀ e ∈ record, e ∈ s.entities.all) →
      (exprFields record fields).Yields s fun _ s' =>
        Leads L (fields.map (·.2)) s.outline s'.outline := by
  induction fields with
  | nil => exact fun s _ => .refl L _
  | cons f fields ih =>
    intro s hrecord
    obtain ⟨name, value⟩ := f
    obtain ⟨hlabel, hlabels⟩ := List.forall_mem_cons.mp hlabels
    obtain ⟨hvalue, hvalues⟩ := List.forall_mem_cons.mp hvalues
    refine (fieldType_notes hlabel hrecord).bind fun expected s₁ h₁ => ?_
    refine (valueOf_leads (hvalue expected) s₁).bind fun _ s₂ h₂ => ?_
    have hentities : s₂.entities = s.entities := h₂.visits.entities.trans h₁.entities
    refine (ih hlabels hvalues s₂ fun e he => hentities ▸ hrecord e he).mono fun _ s₃ h₃ => ?_
    exact (h₁.leads.trans h₂).trans h₃

/-! Expressions -/

/-- Whatever is expected of the expression, checking it is a way through it. -/
def Walks (L : Landmark → Prop) (e : Expr) : Prop := ∀ expected, Moves (expr e expected) (Leads L [e])

def WalksAll (L : Landmark → Prop) (es : List Expr) : Prop := ∀ expected, Moves (exprs es expected) (Leads L es)

variable {e x y : Expr}

theorem Walks.value (h : Walks L e) (expected : Option Ty) :
    Moves (valueOf e (expr e expected)) (Leads L [e]) :=
  valueOf_leads (h expected)

theorem plain_leads {p : Checker α} (hplain : e.isPlain = true) (h : Moves p (Leads L e.children)) :
    Moves p (Leads L [e]) :=
  fun s => (h s).mono fun _ _ h' => h'.plain hplain

theorem walks_member {span dot : Span} {target : Expr} (name : Option Ident) (h : Walks L target) :
    Walks L (.member span target dot name) := by
  intro expected
  refine settle_leads span expected fun s => ?_
  have htarget : ∀ outer ∈ target.longName?, ∃ written,
      (Expr.member span target dot name).dotted? = some written ∧ outer.parts <+: written.parts := by
    intro outer houter
    cases name with
    | none => exact ⟨outer, houter, List.prefix_rfl⟩
    | some name =>
      refine ⟨outer.snoc name, ?_, ⟨[name], (LongIdent.parts_snoc outer name).symm⟩⟩
      rw [Expr.dotted?, Expr.longName?, Option.mem_def.mp houter]
      · rfl
      · exact nofun
  refine (entityOf_looks (L := L) htarget s).bind fun path? s₁ h₁ => ?_
  obtain ⟨hlook, hnone, hsome⟩ := h₁
  cases path? with
  | some path =>
    obtain ⟨outer, houter, hfree, hpath⟩ := hsome path rfl
    exact (entityMember_leads name houter hfree hpath).mono fun _ _ h₂ => hlook.leads h₂
  | none =>
    rw [← hnone rfl]
    refine (h.value none s₁).bind fun receiver s₂ h₂ => ?_
    exact valueMember_leads name h₂

theorem walks_call {span parens : Span} {callee : Expr} {args : List Expr} (hcallee : Walks L callee)
    (hargs : WalksAll L args) : Walks L (.call span callee args parens) := by
  intro expected
  refine settle_leads span expected (plain_leads rfl ?_)
  refine leads_bind (hcallee none) fun target => ?_
  dsimp only
  refine (quiet_recordCall _).leads_bind fun _ => ?_
  split
  case h_1 name overloads =>
    exact leads_then (hargs none) fun ts => (quiet_callMethod _ _ _ _).bind fun _ => quiet_pure _
  case h_2 t _ =>
    split
    case h_1 hnone =>
      obtain rfl : args = [] := List.head?_eq_none_iff.mp hnone
      exact ((quiet_applyType _ _ _ _).bind fun _ => quiet_pure _).leads
    case h_2 arg _ _ =>
      refine leads_then (apply_leads (fun e => ?_) _ _ _ _) fun _ => quiet_pure _
      exact leads_then (hargs e) fun _ => quiet_pure _
    case h_3 =>
      exact leads_then (hargs none) fun ts => (quiet_applyType _ _ _ _).bind fun _ => quiet_pure _

theorem walks_app {span : Span} {function arg : Expr} (hfunction : Walks L function)
    (harg : Walks L arg) : Walks L (.app span function arg) := by
  intro expected
  refine settle_leads span expected (plain_leads rfl fun s => ?_)
  refine (formatApplication_leads (L := L) function arg s).bind fun t? s₁ h₁ => ?_
  cases t? with
  | some t => exact h₁
  | none =>
    have h₁ : s₁.outline = s.outline := h₁
    refine (hfunction none s₁).bind fun target s₂ h₂ => ?_
    rw [h₁] at h₂
    cases target with
    | method name overloads =>
      refine (methodArgs_leads (harg.value none) s₂).bind fun ts s₃ h₃ => ?_
      refine Quiet.keeps ?_ (h₂.trans h₃)
      exact (quiet_callMethod _ _ _ _).bind fun _ => quiet_pure _
    | value t _ =>
      refine (apply_leads (fun e => harg.value e) t function.span arg.span expected s₂).bind
        fun _ s₃ h₃ => ?_
      exact h₂.trans h₃

theorem walks_binary {span opSpan : Span} (op : BinaryOp) {lhs rhs : Expr} (hlhs : Walks L lhs)
    (hrhs : Walks L rhs) : Walks L (.binary span op opSpan lhs rhs) := by
  intro expected
  refine settle_leads span expected (plain_leads rfl ?_)
  have hboth (t : Ty) {q : Checker Callee} (hq : Quiet q) : Moves (do
      let _ ← expr lhs (some t)
      let _ ← expr rhs (some t)
      q) (Leads L [lhs, rhs]) :=
    leads_bind (hlhs _) fun _ => leads_then (hrhs _) fun _ => hq
  split
  case h_1 =>
    refine leads_bind (hlhs.value none) fun arg => ?_
    split
    · refine leads_then (hrhs none) fun target => ?_
      split
      · exact (quiet_callMethod _ _ _ _).bind fun _ => quiet_pure _
      · exact (quiet_applyType _ _ _ _).bind fun _ => quiet_pure _
    · refine quiet_fresh.leads_bind fun ret => ?_
      exact leads_then (hrhs _) fun _ => quiet_pure _
  case h_2 => exact hboth .bool (quiet_pure _)
  case h_3 => exact hboth .bool (quiet_pure _)
  case h_4 => exact hboth .string (quiet_pure _)
  case h_5 =>
    refine leads_bind (hlhs.value none) fun t => leads_then (hrhs _) fun _ => ?_
    split
    · exact quiet_pure _
    · exact (quiet_arithmetic _ _ _).bind fun _ => quiet_pure _

theorem walks_conditional {span : Span} {condition thenBranch : Expr} {elseBranch : Option Expr}
    (hcondition : Walks L condition) (hthen : Walks L thenBranch)
    (helse : ∀ e ∈ elseBranch, Walks L e) :
    Walks L (.conditional span condition thenBranch elseBranch) := by
  intro expected
  cases elseBranch with
  | none =>
    refine settle_leads span expected (plain_leads rfl ?_)
    exact leads_bind (hcondition _) fun _ => leads_then (hthen _) fun _ => quiet_pure _
  | some elseBranch =>
    have hbranches (t : Ty) : Moves (do
        let _ ← expr thenBranch (some t)
        let _ ← expr elseBranch (some t)
        return .value t : Checker Callee) (Leads L [thenBranch, elseBranch]) :=
      leads_bind (hthen _) fun _ => leads_then (helse _ rfl _) fun _ => quiet_pure _
    refine settle_leads span expected (plain_leads rfl ?_)
    refine leads_bind (hcondition _) fun _ => ?_
    cases expected with
    | some t => exact hbranches t
    | none => exact quiet_fresh.leads_bind hbranches

theorem walks_lambda {span : Span} {params : List Pattern} {body : Expr}
    (hparams : ∀ m ∈ Pattern.landmarksOfAll params, L m) (hbody : Walks L body) :
    Walks L (.lambda span params body) := by
  intro expected
  refine settle_leads span expected fun s => ?_
  rw [withScope, yields_bind, yields_get]
  have hrest (expected : Option Ty) (s₁ : CheckerState) (h₁ : s₁.outline = s.outline) :
      (lambdaFrom body.span params (expr body) expected).Yields s₁ fun _ s' =>
        Leads L [.lambda span params body] s.outline { s' with scope := s.scope }.outline := by
    refine (bindParams_enters hparams expected s₁).bind fun r s₂ h₂ => ?_
    obtain ⟨ts, result?⟩ := r
    obtain ⟨is, h₂⟩ := h₂
    rw [h₁] at h₂
    have hret (ret : Ty) (s₃ : CheckerState) (h₃ : s₃.outline = s₂.outline) :
        Yields (do
          let _ ← expr body (some ret)
          return .value (.curried ts ret) : Checker Callee) s₃ fun _ s' =>
            Leads L [.lambda span params body] s.outline { s' with scope := s.scope }.outline := by
      refine (hbody (some ret) s₃).bind fun _ s₄ h₄ => ?_
      rw [h₃] at h₄
      exact fun rest o'' hrest => .lambda h₂ h₄.visits hrest
    cases result? with
    | some t => exact hret t s₂ rfl
    | none => exact quiet_fresh.first fun ret s₃ h₃ => hret ret s₃ h₃
  simp only [yields_bind, yields_modify, yields_pure]
  cases expected with
  | some t => exact (quiet_shallow t).first fun t s₁ h₁ => hrest (some t) s₁ h₁
  | none => exact hrest none s rfl

theorem walks_letIn {span : Span} {head : LetHead} {value body : Expr}
    (hhead : ∀ m ∈ head.landmarks, L m) (hvalue : Walks L value) (hbody : Walks L body) :
    Walks L (.letIn span head value body) := by
  intro expected
  refine settle_leads span expected fun s => ?_
  simp only [withScope, yields_bind, yields_get, yields_modify, yields_pure]
  refine (checkBinding_visited hhead (fun e => hvalue.value e) s).mono fun bound s₁ h₁ => ?_
  refine (hbody.value expected s₁).mono fun t s₂ h₂ => ?_
  refine (quiet_warnUnused bound s₂).mono fun _ s₃ h₃ => ?_
  obtain ⟨hearly, hown, hright, hlate⟩ := h₁
  intro rest o'' hrest
  refine .letIn hearly hown hright hlate h₂.visits ?_
  have hsame : ({ s₂.outline with scope := s.outline.scope } : CheckerState) =
      { s₃.outline with scope := s.scope } := by
    rw [h₃]
    rfl
  rw [hsame]
  exact hrest

mutual

theorem expr_walks (e : Expr) (h : ∀ m ∈ e.landmarks, L m) : Walks L e := by
  match e with
  | .literal span l =>
    exact fun expected => settle_leads span expected (plain_leads rfl (quiet_pure _).leads)
  | .ident name => exact fun expected => settle_leads name.span expected (nameCallee_leads (h _ List.mem_cons_self))
  | .member span target dot name => exact walks_member name (expr_walks target (List.forall_mem_append.mp h).1)
  | .call span callee args parens =>
    obtain ⟨hcallee, hargs⟩ := List.forall_mem_append.mp h
    exact walks_call (expr_walks callee hcallee) (exprs_walk args hargs)
  | .app span function arg =>
    obtain ⟨hfunction, harg⟩ := List.forall_mem_append.mp h
    exact walks_app (expr_walks function hfunction) (expr_walks arg harg)
  | .neg span inner =>
    intro expected
    refine settle_leads span expected (plain_leads rfl ?_)
    exact leads_then ((expr_walks inner h).value none) fun t =>
      (quiet_arithmetic _ _ _).bind fun _ => quiet_pure _
  | .paren span inner => exact fun expected => plain_leads rfl (expr_walks inner h expected)
  | .binary span op opSpan lhs rhs =>
    obtain ⟨hlhs, hrhs⟩ := List.forall_mem_append.mp h
    exact walks_binary op (expr_walks lhs hlhs) (expr_walks rhs hrhs)
  | .sequential span first second =>
    obtain ⟨hfirst, hsecond⟩ := List.forall_mem_append.mp h
    refine fun expected => plain_leads rfl (leads_bind ((expr_walks first hfirst).value none) fun t => ?_)
    refine (quiet_warnIgnored _ _).leads_bind fun _ => ?_
    exact leads_then ((expr_walks second hsecond).value expected) fun _ => quiet_pure _
  | .conditional span condition thenBranch none =>
    obtain ⟨hcondition, hbranch⟩ := List.forall_mem_append.mp h
    obtain ⟨hthen, -⟩ := List.forall_mem_append.mp hbranch
    exact walks_conditional (expr_walks condition hcondition) (expr_walks thenBranch hthen) nofun
  | .conditional span condition thenBranch (some elseBranch) =>
    obtain ⟨hcondition, hbranches⟩ := List.forall_mem_append.mp h
    obtain ⟨hthen, helse⟩ := List.forall_mem_append.mp hbranches
    refine walks_conditional (expr_walks condition hcondition) (expr_walks thenBranch hthen) ?_
    intro e he
    exact Option.some.inj he ▸ expr_walks elseBranch helse
  | .lambda span params body =>
    obtain ⟨hparams, hbody⟩ := List.forall_mem_append.mp h
    exact walks_lambda hparams (expr_walks body hbody)
  | .letIn span head value body =>
    obtain ⟨hhead, hparts⟩ := List.forall_mem_append.mp h
    obtain ⟨hvalue, hbody⟩ := List.forall_mem_append.mp hparts
    exact walks_letIn hhead (expr_walks value hvalue) (expr_walks body hbody)
  | .tuple span items =>
    intro expected
    refine settle_leads span expected (plain_leads rfl ?_)
    exact leads_then (exprs_walk items h none) fun _ => quiet_pure _
  | .list span items =>
    intro expected
    refine settle_leads span expected (plain_leads rfl (quiet_fresh.leads_bind fun element => ?_))
    exact leads_then (exprs_walk items h (some element)) fun _ => quiet_pure _
  | .record span fields =>
    intro expected
    refine settle_leads span expected (plain_leads rfl fun s => ?_)
    refine ((quiet_recordOf span fields s).and (recordOf_known span fields s)).bind fun record s₁ h₁ => ?_
    obtain ⟨h₁, hrecord⟩ := h₁
    have hentities : s₁.entities = s.entities := congrArg (·.entities) h₁
    obtain ⟨hlabels, hvalues⟩ := fields_walk fields h
    refine (exprFields_leads hlabels hvalues s₁ fun e he => hentities ▸ hrecord e he).bind
      fun _ s₂ h₂ => ?_
    exact h₁ ▸ h₂
  | .typed span inner written =>
    obtain ⟨hinner, hwritten⟩ := List.forall_mem_append.mp h
    intro expected
    refine settle_leads span expected (plain_leads rfl fun s => ?_)
    refine (annotation_notes written (labels_of_landmarks hwritten) s).bind fun t s₁ h₁ => ?_
    exact (expr_walks inner hinner (some t) s₁).bind fun _ s₂ h₂ => h₁.leads.trans h₂
  | .error span =>
    exact fun expected => settle_leads span expected (plain_leads rfl (quiet_pure _).leads)

theorem exprs_walk (es : List Expr) (h : ∀ m ∈ Expr.landmarksOfAll es, L m) : WalksAll L es := by
  match es with
  | [] => exact fun _ => (quiet_pure _).leads
  | e :: es =>
    obtain ⟨he, hes⟩ := List.forall_mem_append.mp h
    refine fun expected => leads_bind ((expr_walks e he).value expected) fun t => ?_
    exact leads_then (exprs_walk es hes expected) fun _ => quiet_pure _

theorem fields_walk (fields : List (Ident × Expr)) (h : ∀ m ∈ Expr.landmarksOfFields fields, L m) :
    (∀ f ∈ fields, L (.label f.1)) ∧ ∀ f ∈ fields, Walks L f.2 := by
  match fields with
  | [] => exact ⟨nofun, nofun⟩
  | (name, value) :: fields =>
    obtain ⟨hname, hrest⟩ := List.forall_mem_cons.mp h
    obtain ⟨hvalue, hfields⟩ := List.forall_mem_append.mp hrest
    obtain ⟨hlabels, hvalues⟩ := fields_walk fields hfields
    exact ⟨List.forall_mem_cons.mpr ⟨hname, hlabels⟩,
      List.forall_mem_cons.mpr ⟨expr_walks value hvalue, hvalues⟩⟩

end

end Checker
end ScriptAnalyzer
