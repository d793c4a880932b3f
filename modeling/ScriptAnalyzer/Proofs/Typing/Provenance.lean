import ScriptAnalyzer.Proofs.Typing.Declared

/-!
Where symbols come from. A symbol with a place in the file stands for a type, a module or a field that
is declared there, or for a binder of a module, and shows the scheme that the binder has at the end of its
binding.
-/

namespace ScriptAnalyzer

theorem Member.symbol_span (m : Member) (owner : String) : (m.symbol owner).span = m.span := by
  unfold symbol
  dsimp only
  split
  · split <;> rfl
  · rfl
  · rfl
  · rfl

theorem Member.symbol_signature {m : Member} {scheme : Scheme} {params : List String}
    (h : m.kind = .value scheme params) (owner : String) :
    (m.symbol owner).signature = scheme.type.render := by
  unfold symbol
  rw [h]
  dsimp only
  split <;> rfl

theorem CheckerState.Finds.knows {o : CheckerState} {name : LongIdent} {symbol : Symbol}
    (h : o.Finds name symbol) : o.entities.Knows symbol := by
  cases h with
  | whole _ he | part _ _ he | inner _ _ he => exact .entity (Entities.mem_of_find? he).1
  | member _ _ he hm =>
    obtain ⟨hmem, rfl⟩ := Entities.mem_of_find? he
    exact .member hmem (Entity.mem_of_staticMember? hm).1
  | «open» hm _ =>
    obtain ⟨owner, -, hfound⟩ := List.exists_of_findSome?_eq_some hm
    obtain ⟨m, hmember, heq⟩ := Option.map_eq_some_iff.mp hfound
    obtain ⟨rfl, rfl⟩ := Prod.mk.inj heq
    obtain ⟨e, he, hstatic⟩ := Option.bind_eq_some_iff.mp hmember
    obtain ⟨hmem, rfl⟩ := Entities.mem_of_find? he
    exact .member hmem (Entity.mem_of_staticMember? hstatic).1

namespace CheckerState

/-- From `o` to `o'` the entities stay as they are, and the names that are looked up mean them and their
members. -/
structure Mentions (o o' : CheckerState) : Prop where
  entities : o'.entities = o.entities
  fixed : ∀ m ∈ o'.records.mentions, ∀ symbol, m.target = .fixed symbol →
    m ∈ o.records.mentions ∨ o.entities.Knows symbol

namespace Mentions

variable {o o₁ o' : CheckerState}

theorem of_eq (hentities : o'.entities = o.entities) (hmentions : o'.records.mentions = o.records.mentions) :
    Mentions o o' :=
  ⟨hentities, fun _ hm _ _ => .inl (hmentions ▸ hm)⟩

theorem refl (o : CheckerState) : Mentions o o := .of_eq rfl rfl

theorem trans (h : Mentions o o₁) (h' : Mentions o₁ o') : Mentions o o' where
  entities := h'.entities.trans h.entities
  fixed m hm symbol htarget :=
    (h'.fixed m hm symbol htarget).elim (h.fixed m · symbol htarget) fun hknows =>
      .inr (h.entities ▸ hknows)

theorem note {span : Span} {symbol : Symbol} (h : o.entities.Knows symbol) :
    Mentions o (o.note span symbol) where
  entities := rfl
  fixed m hm s hs := by
    rcases List.mem_cons.mp hm with rfl | hm
    · exact .inr (Target.fixed.inj hs ▸ h)
    · exact .inl hm

theorem mention {span : Span} {i : Nat} {isDefinition : Bool} (hentities : o'.entities = o.entities)
    (hmentions : o'.records.mentions = ⟨span, .binder i, isDefinition⟩ :: o.records.mentions) :
    Mentions o o' where
  entities := hentities
  fixed m hm s hs := by
    rw [hmentions] at hm
    rcases List.mem_cons.mp hm with rfl | hm
    · cases hs
    · exact .inl hm

theorem access (o : CheckerState) (site : MemberSite) : Mentions o (o.access site) := .of_eq rfl rfl

theorem scope (o : CheckerState) (scope : CheckerScope) : Mentions o { o with scope } := .of_eq rfl rfl

theorem use (o : CheckerState) (i : Nat) (span : Span) : Mentions o (o.useBinder i span) :=
  .mention rfl rfl

theorem enter (o : CheckerState) (b : Binder) (visible : Span) : Mentions o (o.enter b visible) :=
  .mention rfl rfl

theorem settle (o : CheckerState) (indices : List Nat) (scheme : Scheme) :
    Mentions o (o.settle indices scheme) := by
  unfold CheckerState.settle
  induction indices generalizing o with
  | nil => exact .refl o
  | cons i is ih =>
    have hstep : Mentions o { o with binders := o.binders.modify i fun b => { b with scheme } } :=
      .of_eq rfl rfl
    exact hstep.trans (ih _)

end Mentions
end CheckerState

open CheckerState

variable {L : Landmark → Prop} {o o' : CheckerState}

theorem Notes.mentions (h : Notes L o o') : Mentions o o' := by
  induction h with
  | refl o => exact .refl o
  | note _ hknows _ ih => exact (Mentions.note hknows).trans ih

theorem Enters.mentions {visible : Span} {ofModule : Bool} {names : List Ident} {is : List Nat}
    (h : Enters L visible ofModule names is o o') : Mentions o o' := by
  induction h with
  | nil o => exact .refl o
  | note _ hknows _ ih => exact (Mentions.note hknows).trans ih
  | skip _ ih => exact ih
  | bind _ _ _ _ _ _ ih => exact (Mentions.enter _ _ _).trans ih

theorem binding_mentions {visible visible' visible'' : Span} {ofModule ofModule' ofModule'' : Bool}
    {early own late : List Nat} {names names' names'' : List Ident} {scheme : Scheme}
    {o₁ o₂ o₃ : CheckerState} (hearly : Enters L visible ofModule names early o o₁)
    (hown : Enters L visible' ofModule' names' own o₁ o₂) (hvalue : Mentions o₂ o₃)
    (hlate : Enters L visible'' ofModule'' names'' late
      (({ o₃ with scope := o₁.scope } : CheckerState).settle early scheme) o') : Mentions o o' := by
  have hvalue := hearly.mentions.trans (hown.mentions.trans (hvalue.trans (.scope _ o₁.scope)))
  exact hvalue.trans ((Mentions.settle _ early scheme).trans hlate.mentions)

theorem Visits.mentions {es : List Expr} (h : Visits L es o o') : Mentions o o' := by
  induction h with
  | nil o => exact .refl o
  | skip _ ih | plain _ _ ih => exact ih
  | note _ hknows _ ih => exact (Mentions.note hknows).trans ih
  | find _ _ _ hfinds _ ih => exact (Mentions.note hfinds.knows).trans ih
  | use _ _ _ ih => exact (Mentions.use _ _ _).trans ih
  | access _ ih => exact (Mentions.access _ _).trans ih
  | accessValue _ _ ih₁ ih₂ => exact ih₁.trans ((Mentions.access _ _).trans ih₂)
  | accessMember _ hknows _ ih₁ ih₂ =>
    exact ih₁.trans ((Mentions.access _ _).trans (Mentions.trans (.note hknows) ih₂))
  | lambda henters _ _ ih₁ ih₂ =>
    exact henters.mentions.trans (ih₁.trans ((Mentions.scope _ _).trans ih₂))
  | letIn hearly hown _ hlate _ _ ih₁ ih₂ ih₃ =>
    exact (binding_mentions hearly hown ih₁ hlate).trans (ih₂.trans ((Mentions.scope _ _).trans ih₃))

/-- The member of a module that a binder is published as. -/
def Member.ofBinder (b : Binder) : Member :=
  { name := b.simpleName, kind := .value b.scheme b.params, span := some b.span }

namespace CheckerState

/-- Publishing a binder makes no other symbol known. -/
theorem knows_publish {b : Binder} {symbol : Symbol} (h : (o.publish b).entities.Knows symbol) :
    o.entities.Knows symbol ∨ ∃ owner, symbol = (Member.ofBinder b).symbol owner := by
  cases h with
  | @entity e he =>
    rcases List.mem_append.mp he with he | he
    · rcases Entities.mem_modifyFirst he with hold | ⟨e, hold, rfl⟩
      · exact .inl (.entity (List.mem_append_left _ hold))
      · exact .inl (show o.entities.Knows e.symbol from .entity (List.mem_append_left _ hold))
    · exact .inl (.entity (List.mem_append_right _ he))
  | member he hm =>
    rcases List.mem_append.mp he with he | he
    · rcases Entities.mem_modifyFirst he with hold | ⟨e, hold, rfl⟩
      · exact .inl (.member (List.mem_append_left _ hold) hm)
      · rcases List.mem_append.mp hm with hm | hm
        · exact .inl (.member (e := e) (List.mem_append_left _ hold) (List.mem_filter.mp hm).1)
        · obtain rfl := List.mem_singleton.mp hm
          exact .inr ⟨e.path, rfl⟩
    · exact .inl (.member (List.mem_append_right _ he) hm)
  | common hm => exact .inl (.common hm)

/-- A symbol with a place of the file has one of `K`, or it has one of `M` and shows the scheme of a binder
declared there. -/
def Traces (K M : Span → Prop) (cores : List Binder) (symbol : Symbol) : Prop :=
  ∀ span, symbol.span = some span →
    K span ∨ M span ∧ ∃ b ∈ cores, b.span = span ∧ symbol.signature = b.scheme.type.render

/-- Every symbol that is known or was looked up can be traced back to its declaration. -/
structure Traced (K M : Span → Prop) (o : CheckerState) : Prop where
  known : ∀ symbol, o.entities.Knows symbol → Traces K M o.cores symbol
  fixed : ∀ m ∈ o.records.mentions, ∀ symbol, m.target = .fixed symbol → Traces K M o.cores symbol

variable {K M : Span → Prop}

theorem Traces.mono {cores cores' : List Binder} {symbol : Symbol} (h : Traces K M cores symbol)
    (hcores : cores <+: cores') : Traces K M cores' symbol :=
  fun span hspan => (h span hspan).imp_right fun ⟨hM, b, hb, hshows⟩ => ⟨hM, b, hcores.subset hb, hshows⟩

theorem Traces.of_place {cores : List Binder} {symbol : Symbol} {place : Option Span}
    (hspan : symbol.span = place) (hplace : ∀ span ∈ place, K span) : Traces K M cores symbol :=
  fun span h => .inl (hplace span (hspan.symm.trans h))

namespace Traced

theorem of_mentions (h : o.Traced K M) (hmentions : Mentions o o') (hcores : o.cores <+: o'.cores) :
    o'.Traced K M where
  known symbol hknows := (h.known symbol (hmentions.entities ▸ hknows)).mono hcores
  fixed m hm symbol htarget :=
    ((hmentions.fixed m hm symbol htarget).elim (h.fixed m · symbol htarget) (h.known symbol)).mono hcores

theorem with_entities {es : Entities} (h : o.Traced K M)
    (hknows : ∀ symbol, es.Knows symbol → o.entities.Knows symbol ∨ Traces K M o.cores symbol) :
    Traced K M { o with entities := es } where
  known symbol hsymbol := (hknows symbol hsymbol).elim (h.known symbol) id
  fixed := h.fixed

/-- A new entity at a place of `K` or at none, with members that can be traced. -/
theorem declare {e : Entity} (h : o.Traced K M) (hspan : ∀ span ∈ e.span, K span)
    (hmembers : ∀ m ∈ e.members, ∀ span ∈ m.span, K span) : (o.declare e).Traced K M := by
  refine h.with_entities fun symbol hknows => ?_
  cases hknows with
  | entity he =>
    rcases List.mem_cons.mp he with rfl | he
    · exact .inr (.of_place rfl hspan)
    · exact .inl (.entity he)
  | member he hm =>
    rcases List.mem_cons.mp he with rfl | he
    · exact .inr (.of_place (Member.symbol_span _ _) (hmembers _ hm))
    · exact .inl (.member he hm)
  | common hm => exact .inl (.common hm)

theorem declareAt {span : Span} {symbol : Symbol} (h : o.Traced K M) (hspan : symbol.span = some span)
    (hK : K span) : (o.declareAt span (.fixed symbol)).Traced K M where
  known := h.known
  fixed m hm s hs := by
    rcases List.mem_cons.mp hm with rfl | hm
    · obtain rfl := Target.fixed.inj hs
      exact .of_place hspan fun _ hplace => Option.some.inj hplace ▸ hK
    · exact h.fixed m hm s hs

theorem publish {b : Binder} {i : Nat} (h : o.Traced K M) (hb : o.binders[i]? = some b) (hM : M b.span) :
    (o.publish b).Traced K M := by
  have hcore : { b with used := false } ∈ o.cores :=
    List.mem_map_of_mem (Array.mem_toList_iff.mpr (Array.mem_of_getElem? hb))
  refine h.with_entities fun symbol hknows => (knows_publish hknows).imp_right ?_
  rintro ⟨owner, rfl⟩ span hspan
  rw [Member.symbol_span] at hspan
  obtain rfl := Option.some.inj hspan
  exact .inr ⟨hM, _, hcore, rfl, Member.symbol_signature rfl _⟩

theorem publishAll (h : o.Traced K M) {indices : List Nat}
    (hM : ∀ i ∈ indices, ∀ span, o.places[i]? = some span → M span) : (o.publishAll indices).Traced K M := by
  refine (publishAll_keeps (R := fun s => s.Traced K M ∧ s.places = o.places) ?_ ⟨h, rfl⟩).1
  rintro s i hi b hb ⟨hs, hplaces⟩
  have hplace : s.places[i]? = some b.span := by
    rw [places, List.getElem?_map, Array.getElem?_toList, hb]
    rfl
  exact ⟨hs.publish hb (hM i hi _ (hplaces ▸ hplace)), hplaces⟩

theorem withNamespaces (h : o.Traced K M) (path before : String) (segments : List String) :
    Traced K M { o with entities := o.entities.withNamespaces path before segments } :=
  Entities.withNamespaces_keeps (R := fun es => Traced K M { o with entities := es })
    (fun _ _ hes => hes.declare (by simp) (by simp)) h path before segments

theorem enterModule {path : String} {name : Option Span} {region : Span} (h : o.Traced K M)
    (hname : ∀ span ∈ name, K span) : (o.enterModule path name region).Traced K M := by
  have hspaces := h.withNamespaces path "" (pathSegments path)
  have hmodule (s : CheckerState) (hs : s.Traced K M) : (s.inModule path name region).Traced K M :=
    have hdeclared := hs.declare (e := { path, kind := .module, span := name }) hname nofun
    ⟨hdeclared.known, hdeclared.fixed⟩
  cases name with
  | none => exact hmodule _ hspaces
  | some span => exact hmodule _ (hspaces.declareAt rfl (hname span rfl))

end Traced
end CheckerState

theorem Fields.traced {K M : Span → Prop} {path : String} {fields : List (Ident × TypeExpr)} {ms : List Member}
    (h : Fields L path fields ms o o') (htraced : o.Traced K M)
    (hK : ∀ d ∈ o'.records.declarations, ∀ symbol, d.2 = .fixed symbol → K d.1) :
    o'.Traced K M ∧ ∀ m ∈ ms, ∀ span ∈ m.span, K span := by
  induction h with
  | nil => exact ⟨htraced, nofun⟩
  | @cons name _ _ _ t _ o₁ o' hnotes hrest ih =>
    have hname : K name.span := by
      refine hK (name.span, .fixed ((Member.ofField name t).symbol path)) ?_ _ rfl
      exact hrest.declares.declarations.subset List.mem_cons_self
    have h₁ := htraced.of_mentions hnotes.mentions hnotes.declares.cores
    obtain ⟨h', hms⟩ := ih (h₁.declareAt (Member.symbol_span _ _) hname) hK
    refine ⟨h', List.forall_mem_cons.mpr ⟨fun span hspan => ?_, hms⟩⟩
    exact Option.some.inj hspan ▸ hname

namespace Decl

mutual

/-- The names that the bindings of modules bind. -/
def moduleNames : Decl → List Ident
  | binding _ b => b.toLetHead.boundNames
  | module _ _ ds => moduleNamesOfAll ds
  | «open» _ _ | type _ _ _ | expr _ _ | directive _ _ | error _ => []

def moduleNamesOfAll : List Decl → List Ident
  | [] => []
  | d :: ds => moduleNames d ++ moduleNamesOfAll ds

end

end Decl

theorem DeclsVisit.traced {K M : Span → Prop} {stop : Nat} {ds : List Decl} (h : DeclsVisit L stop ds o o')
    (htraced : o.Traced K M)
    (hK : ∀ d ∈ o'.records.declarations, ∀ symbol, d.2 = .fixed symbol → K d.1)
    (hM : ∀ n ∈ Decl.moduleNamesOfAll ds, M n.span) : o'.Traced K M := by
  induction h with
  | nil => exact htraced
  | skip _ ih => exact ih htraced hK (List.forall_mem_append.mp hM).2
  | expr he _ ih => exact ih (htraced.of_mentions he.mentions he.declares.cores) hK hM
  | binding hvisited _ ih =>
    obtain ⟨hnames, hrest⟩ := List.forall_mem_append.mp hM
    have hpublished := hvisited.places
    obtain ⟨hearly, hown, hvalue, hlate⟩ := hvisited
    have hcores := (binding_declares hearly hown hvalue.declares hlate).cores
    have hmentions := binding_mentions hearly hown hvalue.mentions hlate
    refine ih ((htraced.of_mentions hmentions hcores).publishAll fun i hi span hspan => ?_) hK hrest
    obtain ⟨n, hn, hplace⟩ := hpublished i hi
    exact Option.some.inj (hspan.symm.trans hplace) ▸ hnames n hn
  | opening _ hnotes _ ih =>
    have h₁ := htraced.of_mentions hnotes.mentions hnotes.declares.cores
    exact ih ⟨h₁.known, h₁.fixed⟩ hK hM
  | @module stop span name members ds o o₁ o' hinner hrest ih₁ ih₂ =>
    obtain ⟨hmembers, hds⟩ := List.forall_mem_append.mp hM
    have hK₁ : ∀ d ∈ o₁.records.declarations, ∀ symbol, d.2 = .fixed symbol → K d.1 :=
      fun d hd => hK d (hrest.declares.declarations.subset hd)
    have hname : K name.span := by
      let e : Entity := { path := o.qualified name.text, kind := .module, span := some name.span }
      refine hK₁ (name.span, .fixed e.symbol) ?_ _ rfl
      exact hinner.declares.declarations.subset List.mem_cons_self
    have h₁ := ih₁ (htraced.enterModule fun _ hspan => Option.some.inj hspan ▸ hname) hK₁ hmembers
    exact ih₂ ⟨h₁.known, h₁.fixed⟩ hK hds
  | @record stop span name fields path ms ds o o₁ o' _ hfields hrest ih =>
    have hK₁ : ∀ d ∈ o₁.records.declarations, ∀ symbol, d.2 = .fixed symbol → K d.1 :=
      fun d hd => hK d (hrest.declares.declarations.subset (List.mem_cons_of_mem _ hd))
    have hname : K name.span := by
      refine hK (name.span, .fixed (Entity.ofType path name.span ms).symbol) ?_ _ rfl
      exact hrest.declares.declarations.subset List.mem_cons_self
    have hplace : ∀ span ∈ some name.span, K span := fun _ hspan => Option.some.inj hspan ▸ hname
    obtain ⟨h₁, hms⟩ := hfields.traced (htraced.declare (e := .ofType path name.span []) hplace nofun) hK₁
    have hfull : (o.declare (.ofType path name.span ms)).Traced K M := htraced.declare hplace hms
    have h₂ : Traced K M { o₁ with entities := o.entities.declare (.ofType path name.span ms) } :=
      ⟨fun symbol hknows => (hfull.known symbol hknows).mono hfields.declares.cores, h₁.fixed⟩
    exact ih (h₂.declareAt rfl hname) hK hM
  | abbreviation hspan hnotes hrest ih =>
    have h₁ := htraced.of_mentions hnotes.mentions hnotes.declares.cores
    refine ih (h₁.declareAt hspan (hK _ (hrest.declares.declarations.subset List.mem_cons_self) _ rfl)) hK hM

/-! Whole files -/

/-- The entity and its members have no place in the file. -/
def Entity.isForeign (e : Entity) : Bool := e.span.isNone && e.members.all (·.span.isNone)

namespace Catalog

theorem libraries_foreign : libraries.all (fun l => l.2.all (·.isForeign)) = true := by decide +kernel

theorem foreign_of_entitiesOf {names : List String} {e : Entity} (h : e ∈ entitiesOf names) :
    e.span = none ∧ ∀ m ∈ e.members, m.span = none := by
  obtain ⟨l, hl, he⟩ := List.mem_flatMap.mp h
  have hlibrary := List.all_eq_true.mp libraries_foreign l (List.mem_filter.mp hl).1
  have hforeign := List.all_eq_true.mp hlibrary e he
  simpa [Entity.isForeign] using hforeign

theorem object_foreign : ∀ m ∈ object.members, m.span = none := by decide +kernel

end Catalog

theorem CheckerState.traced_initial (K M : Span → Prop) (names : List String) :
    (CheckerState.initial names).Traced K M := by
  have hnone {symbol : Symbol} {cores : List Binder} {place : Option Span} (hspan : symbol.span = place)
      (hplace : place = none) : Traces K M cores symbol :=
    .of_place (hspan.trans hplace) nofun
  refine ⟨fun symbol hknows => ?_, nofun⟩
  cases hknows with
  | entity he => exact hnone rfl (Catalog.foreign_of_entitiesOf he).1
  | member he hm => exact hnone (Member.symbol_span _ _) ((Catalog.foreign_of_entitiesOf he).2 _ hm)
  | common hm => exact hnone (Member.symbol_span _ _) (Catalog.object_foreign _ hm)

namespace SyntaxFile

/-- What is declared besides binders. -/
def DeclaresAt (f : SyntaxFile) (context : Context) (span : Span) : Prop :=
  ∃ symbol, (span, .fixed symbol) ∈ (f.endState context).records.declarations

/-- The places of the names that the bindings of modules bind. -/
def BindsAt (f : SyntaxFile) (span : Span) : Prop := ∃ n ∈ Decl.moduleNamesOfAll f.decls, n.span = span

theorem endState_traced (f : SyntaxFile) (context : Context) :
    (f.endState context).outline.Traced (f.DeclaresAt context) f.BindsAt := by
  have hvisit := f.endState_visited (L := fun _ => True) context fun _ _ => trivial
  refine hvisit.traced ?_ (fun d hd symbol hsymbol => ⟨symbol, hsymbol ▸ hd⟩) fun n hn => ⟨n, hn, rfl⟩
  have hinitial := CheckerState.traced_initial (f.DeclaresAt context) f.BindsAt context.libraryNames
  have hdeclarations := hvisit.declares.declarations
  cases hname : f.moduleName? with
  | none =>
    rw [startOutline, hname]
    exact hinitial
  | some path =>
    rw [startOutline, hname] at hdeclarations ⊢
    refine hinitial.enterModule fun span hspan => ?_
    let e : Entity := { path, kind := .module, span := some span }
    refine ⟨e.symbol, hdeclarations.subset ?_⟩
    rw [Option.elim_some, CheckerState.enterModule, Option.mem_def.mp hspan]
    exact List.mem_cons_self

end SyntaxFile
end ScriptAnalyzer
