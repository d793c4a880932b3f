import Mathlib.Data.List.Nodup
import Mathlib.Data.List.Pairwise
import Mathlib.Data.List.Perm.Subperm
import ScriptAnalyzer.Proofs.Syntax.LetPlaces
import ScriptAnalyzer.Proofs.Syntax.Places
import ScriptAnalyzer.Proofs.Syntax.DeclarationPlaces

/-!
The names and dots of a file stand at different places, each name where the text spells it. No two of the
dotted names that expressions spell end with the same name of the text.
-/

namespace ScriptAnalyzer
namespace LongIdent

theorem parts_eq (name : LongIdent) : ∃ before, name.parts = before ++ [name.last] := by
  obtain ⟨head, tail⟩ := name
  rcases List.eq_nil_or_concat tail with rfl | ⟨before, n, rfl⟩
  · exact ⟨[], rfl⟩
  · exact ⟨head :: before, by simp [parts, last]⟩

theorem last_mem (name : LongIdent) : name.last ∈ name.parts := by
  obtain ⟨before, hparts⟩ := name.parts_eq
  rw [hparts]
  exact List.mem_append_right _ (List.mem_singleton_self _)

end LongIdent

theorem Span.Ascend.nodup {place : Nat} {spans : List Span} (h : Ascend place spans) : spans.Nodup := by
  refine h.pairwise.imp_of_mem fun hs _ hle => ?_
  rintro rfl
  exact absurd (h.of_mem hs).2 (Nat.not_lt.mpr hle)

/-- The name is written where it stands, with a letter or an underscore in front and without dots. -/
structure Ident.Spelled (n : Ident) (text : Text) : Prop where
  written : n.span.text text = n.text
  nonempty : n.text.toList ≠ []
  undotted : '.' ∉ n.text.toList

theorem Token.spelled_of_mem {text : Text} {n : Ident} (h : n.source ∈ Token.tokens text) :
    n.Spelled text := by
  obtain ⟨before, piece, rest, hstands⟩ := Token.tokens_stand h
  obtain ⟨hpiece, hname⟩ := hstands.spells
  have hspan : n.span = ⟨Text.byteSize before, Text.byteSize (before ++ piece)⟩ := hstands.span_eq
  have htext := hstands.text_eq
  refine ⟨?_, ?_, fun hdot => ?_⟩
  · rw [Span.text, hspan, htext, Text.slice?_byteSize, hpiece]
    exact String.ofList_toList
  · obtain ⟨c, cs, hcons, -⟩ := hstands.opens
    rw [← hpiece, hcons]
    exact List.cons_ne_nil c cs
  · rw [← hpiece] at hdot
    exact absurd (hname '.' hdot) (by decide)

namespace SyntaxFile

variable (path : Path) (text : Text) (kind : SourceKind) (defines : List String)

theorem landmarks_ascend :
    Span.Ascend 0 ((parse path text kind defines).landmarks.map fun m => m.source.2) := by
  have hsub := (landmarks_sublist path text kind defines).map (·.2)
  rw [List.map_map] at hsub
  exact (Token.tokensFrom_ascend 0 text).sublist hsub

theorem landmark_spelled {m : Landmark} (hm : m ∈ (parse path text kind defines).landmarks)
    {n : Ident} (hn : m.source = n.source) : n.Spelled text := by
  have hmem := (landmarks_sublist path text kind defines).subset (List.mem_map_of_mem hm)
  exact Token.spelled_of_mem (hn ▸ hmem)

end SyntaxFile

/-- The places that are chosen among the landmarks, each that of its landmark. -/
theorem Landmark.filterMap_sublist {f : Landmark → Option Span}
    (hf : ∀ m, ∀ span ∈ f m, span = m.source.2) (ms : List Landmark) :
    (ms.filterMap f).Sublist (ms.map fun m => m.source.2) := by
  induction ms with
  | nil => exact .slnil
  | cons m ms ih =>
    rw [List.filterMap_cons, List.map_cons]
    split
    case h_1 => exact ih.cons _
    case h_2 span hspan => exact hf m span hspan ▸ ih.cons_cons span

/-! Bound names -/

/-- The place of a name that a pattern, a field or another declaration brings in. -/
def Landmark.boundAt : Landmark → Option Span
  | binding n => some n.span
  | use _ | dot _ | member _ | label _ => none

theorem Landmark.boundAt_sublist (ms : List Landmark) :
    (ms.filterMap boundAt).Sublist (ms.map fun m => m.source.2) := by
  refine filterMap_sublist (fun m span hspan => ?_) ms
  cases m with
  | binding n => exact (Option.some.inj hspan).symm
  | use n | dot span | member n | label n => cases hspan

namespace Pattern

mutual

theorem boundAt_landmarks : (p : Pattern) →
    p.landmarks.filterMap Landmark.boundAt = p.boundNames.map (·.span)
  | named _ _ => by simp [landmarks, boundNames, Landmark.boundAt]
  | wildcard _ | unit _ | error _ => by simp [landmarks, boundNames]
  | tuple _ items => by rw [landmarks, boundNames, boundAt_landmarksOfAll items]
  | typed _ inner t => by
    rw [landmarks, boundNames, List.filterMap_append, boundAt_landmarks inner,
      t.filterMap_landmarks fun _ => rfl, List.append_nil]

theorem boundAt_landmarksOfAll : (ps : List Pattern) →
    (landmarksOfAll ps).filterMap Landmark.boundAt = (boundNamesOfAll ps).map (·.span)
  | [] => by simp [landmarksOfAll, boundNamesOfAll]
  | p :: ps => by
    rw [landmarksOfAll, boundNamesOfAll, List.filterMap_append, List.map_append, boundAt_landmarks p,
      boundAt_landmarksOfAll ps]

end

end Pattern

theorem LetHead.boundAt_landmarks (head : LetHead) : head.landmarks.filterMap Landmark.boundAt =
    head.pattern.boundNames.map (·.span) ++ (Pattern.boundNamesOfAll head.params).map (·.span) := by
  rw [landmarks, List.filterMap_append, List.filterMap_append, head.pattern.boundAt_landmarks,
    Pattern.boundAt_landmarksOfAll]
  cases head.returnType with
  | none => exact List.append_nil _
  | some t =>
    rw [Option.map_some, Option.getD_some, t.filterMap_landmarks fun _ => rfl, List.append_nil]

/-! Dotted names -/

namespace LongIdent

theorem eq_of_parts {name name' : LongIdent} (h : name.parts = name'.parts) : name = name' := by
  obtain ⟨head, tail⟩ := name
  obtain ⟨head', tail'⟩ := name'
  obtain ⟨rfl, rfl⟩ := List.cons.inj h
  rfl

end LongIdent

namespace Expr

theorem sizeOf_child {e c : Expr} (h : c ∈ e.children) : sizeOf c < sizeOf e := by
  cases e with
  | literal _ _ | ident _ | error _ => cases h
  | member _ _ _ _ | neg _ _ | paren _ _ | typed _ _ _ | lambda _ _ _ =>
    obtain rfl := List.mem_singleton.mp h
    simp only [member.sizeOf_spec, neg.sizeOf_spec, paren.sizeOf_spec, typed.sizeOf_spec,
      lambda.sizeOf_spec]
    omega
  | call _ callee args _ =>
    rw [call.sizeOf_spec]
    rcases List.mem_cons.mp h with rfl | h
    · omega
    · have hlt : sizeOf c < sizeOf args := List.sizeOf_lt_of_mem h
      omega
  | app _ _ _ | binary _ _ _ _ _ | letIn _ _ _ _ | sequential _ _ _ =>
    simp only [children, List.mem_cons, List.not_mem_nil, or_false] at h
    simp only [app.sizeOf_spec, binary.sizeOf_spec, letIn.sizeOf_spec, sequential.sizeOf_spec]
    rcases h with rfl | rfl <;> omega
  | conditional _ condition thenBranch elseBranch =>
    simp only [children, List.mem_cons, Option.mem_toList] at h
    rw [conditional.sizeOf_spec]
    rcases h with rfl | rfl | rfl
    · omega
    · omega
    · rw [Option.some.sizeOf_spec]
      omega
  | tuple _ items | list _ items =>
    have hlt : sizeOf c < sizeOf items := List.sizeOf_lt_of_mem h
    simp only [tuple.sizeOf_spec, list.sizeOf_spec]
    omega
  | record _ fields =>
    obtain ⟨⟨name, value⟩, hf, rfl⟩ := List.mem_map.mp h
    have hlt := List.sizeOf_lt_of_mem hf
    rw [Prod.mk.sizeOf_spec] at hlt
    rw [record.sizeOf_spec]
    dsimp only
    omega

theorem children_induction {P : Expr → Prop} (step : ∀ e, (∀ c ∈ e.children, P c) → P e) (e : Expr) : P e :=
  step e fun c hc =>
    have := sizeOf_child hc
    children_induction step c
termination_by sizeOf e

/-- The name that an expression adds to those of its children. -/
def ownName? : Expr → Option Ident
  | ident n => some n
  | member _ _ _ name => name
  | _ => none

theorem names_eq (e : Expr) : e.names = e.children.flatMap names ++ e.ownName?.toList := by
  cases hplain : e.isPlain with
  | true =>
    rw [names_of_isPlain hplain]
    cases e with
    | ident _ | member _ _ _ _ | lambda _ _ _ | letIn _ _ _ _ => cases hplain
    | _ => exact (List.append_nil _).symm
  | false =>
    cases e with
    | ident n => rfl
    | member span target dot name => simp [names_member, children, ownName?]
    | lambda span params body => simp [names_lambda, children, ownName?]
    | letIn span head value body => simp [names_letIn, children, ownName?]
    | _ => cases hplain

/-- The last name of the dotted name that the expression spells. -/
def lastName? (e : Expr) : Option Ident := e.longName?.map (·.last)

theorem lastName?_sublist (e : Expr) : e.lastName?.toList.Sublist e.ownName?.toList := by
  cases e with
  | ident n => exact List.Sublist.refl _
  | member span target dot name =>
    cases name with
    | none => exact List.Sublist.refl _
    | some n =>
      rw [lastName?, longName?, Option.map_map]
      cases target.longName? with
      | none => exact List.nil_sublist _
      | some name => simp [ownName?, LongIdent.last]
  | _ => exact List.nil_sublist _

theorem filterMap_lastName_subperm (e : Expr) : (e.preorder.filterMap lastName?).Subperm e.names := by
  induction e using children_induction with
  | step e ih =>
    have hchildren : ((e.children.flatMap preorder).filterMap lastName?).Subperm
        (e.children.flatMap names) := by
      generalize e.children = cs at ih
      induction cs with
      | nil => exact List.Subperm.refl _
      | cons c cs ihcs =>
        obtain ⟨hc, hcs⟩ := List.forall_mem_cons.mp ih
        rw [List.flatMap_cons, List.flatMap_cons, List.filterMap_append]
        exact hc.append (ihcs hcs)
    have hown : (e :: e.children.flatMap preorder).filterMap lastName? =
        e.lastName?.toList ++ (e.children.flatMap preorder).filterMap lastName? := by
      rw [List.filterMap_cons]
      cases e.lastName? <;> rfl
    rw [preorder_eq, hown, names_eq]
    exact (List.perm_append_comm.subperm).trans (hchildren.append e.lastName?_sublist.subperm)

/-- What an expression collects from its children it collects from everything inside of it. -/
theorem subset_of_mem_preorder {β : Type} {f : Expr → List β} (hchild : ∀ e, ∀ c ∈ e.children, f c ⊆ f e)
    {e d : Expr} (h : d ∈ e.preorder) : f d ⊆ f e := by
  induction e using children_induction with
  | step e ih =>
    rw [preorder_eq] at h
    rcases List.mem_cons.mp h with rfl | h
    · exact List.Subset.refl _
    · obtain ⟨c, hc, hd⟩ := List.mem_flatMap.mp h
      exact List.Subset.trans (ih c hc hd) (hchild e c hc)

theorem names_of_child {e c : Expr} (h : c ∈ e.children) : c.names ⊆ e.names := fun n hn => by
  rw [names_eq]
  exact List.mem_append_left _ (List.mem_flatMap.mpr ⟨c, h, hn⟩)

theorem names_of_mem_preorder {e d : Expr} (h : d ∈ e.preorder) : d.names ⊆ e.names :=
  subset_of_mem_preorder (fun _ _ => names_of_child) h

theorem self_mem_preorder (e : Expr) : e ∈ e.preorder := by
  rw [preorder_eq]
  exact List.mem_cons_self

theorem preorder_of_child {e c : Expr} (h : c ∈ e.children) : c.preorder ⊆ e.preorder := fun d hd => by
  rw [preorder_eq]
  exact List.mem_cons_of_mem _ (List.mem_flatMap.mpr ⟨c, h, hd⟩)

theorem parts_of_longName {e : Expr} {name : LongIdent} (h : e.longName? = some name) :
    ∀ n ∈ name.parts, n ∈ e.names := by
  fun_induction longName? e generalizing name with
  | case1 n =>
    obtain rfl := Option.some.inj h
    exact fun n hn => hn
  | case2 span target dot last ih =>
    obtain ⟨before, hbefore, rfl⟩ := Option.map_eq_some_iff.mp h
    intro n hn
    rw [names_member]
    have hparts : n ∈ before.parts ++ [last] := by simpa [LongIdent.parts] using hn
    rcases List.mem_append.mp hparts with hn | hn
    · exact List.mem_append_left _ (ih hbefore n hn)
    · exact List.mem_append_right _ hn
  | case3 => cases h

/-- Each leading part of a dotted name is spelled by a part of the expression. -/
theorem exists_of_prefix {e : Expr} {written name : LongIdent} (h : e.longName? = some written)
    (hleading : name.parts <+: written.parts) : ∃ d ∈ e.preorder, d.longName? = some name := by
  fun_induction longName? e generalizing written with
  | case1 n =>
    obtain rfl := Option.some.inj h
    refine ⟨_, self_mem_preorder _, congrArg some (LongIdent.eq_of_parts ?_).symm⟩
    exact hleading.eq_of_length_le (by simp [LongIdent.parts])
  | case2 span target dot last ih =>
    obtain ⟨before, hbefore, rfl⟩ := Option.map_eq_some_iff.mp h
    have hparts : name.parts <+: before.parts ++ [last] := by simpa [LongIdent.parts] using hleading
    rcases List.prefix_concat_iff.mp hparts with hwhole | hleading
    · refine ⟨_, self_mem_preorder _, h.trans (congrArg some (LongIdent.eq_of_parts ?_).symm)⟩
      simpa [LongIdent.parts] using hwhole
    · obtain ⟨d, hd, hname⟩ := ih hbefore hleading
      exact ⟨d, preorder_of_child List.mem_cons_self hd, hname⟩
  | case3 => cases h

end Expr

namespace Decl

/-- The names in the declarations that stand for values. -/
def namesOfAll (ds : List Decl) : List Ident := (landmarksOfAll ds).filterMap Landmark.named

mutual

theorem lastNames_subperm (d : Decl) :
    (d.exprs.filterMap Expr.lastName?).Subperm (d.landmarks.filterMap Landmark.named) := by
  match d with
  | .binding _ b =>
    refine (Expr.filterMap_lastName_subperm b.body).trans (List.Sublist.subperm ?_)
    rw [landmarks, Binding.landmarks, List.filterMap_append]
    exact List.sublist_append_right _ _
  | .module _ name ds => exact lastNamesOfAll_subperm ds
  | .expr _ e => exact Expr.filterMap_lastName_subperm e
  | .open _ _ | .type _ _ _ | .directive _ _ | .error _ => exact (List.nil_sublist _).subperm

theorem lastNamesOfAll_subperm (ds : List Decl) :
    ((exprsOfAll ds).filterMap Expr.lastName?).Subperm (namesOfAll ds) := by
  match ds with
  | [] => exact List.Subperm.refl _
  | d :: ds =>
    rw [exprsOfAll, namesOfAll, landmarksOfAll, List.filterMap_append, List.filterMap_append]
    exact (lastNames_subperm d).append (lastNamesOfAll_subperm ds)

end

end Decl

namespace SyntaxFile

variable (path : Path) (text : Text) (kind : SourceKind) (defines : List String)

theorem landmark_unique {m m' : Landmark} (hm : m ∈ (parse path text kind defines).landmarks)
    (hm' : m' ∈ (parse path text kind defines).landmarks) (hspan : m.source.2 = m'.source.2) : m = m' :=
  List.inj_on_of_nodup_map (landmarks_ascend path text kind defines).nodup hm hm' hspan

/-- The last names of the dotted names stand at different places. -/
theorem lastNames_nodup :
    ((Decl.exprsOfAll (parse path text kind defines).decls).filterMap fun e =>
      e.lastName?.map (·.span)).Nodup := by
  let f := parse path text kind defines
  have hnames : ((Decl.namesOfAll f.decls).map (·.span)).Nodup := by
    refine List.Nodup.sublist ?_ (landmarks_ascend path text kind defines).nodup
    rw [Decl.namesOfAll, List.map_filterMap]
    refine (Landmark.filterMap_sublist (fun m span hspan => ?_) _).trans
      ((List.sublist_append_right _ _).map _)
    obtain ⟨n, hn, rfl⟩ := Option.map_eq_some_iff.mp hspan
    exact congrArg Prod.snd (Landmark.source_of_named hn).symm
  obtain ⟨last, hperm, hsub⟩ := Decl.lastNamesOfAll_subperm f.decls
  have hlast := (hperm.map (·.span)).nodup_iff.mp (hnames.sublist (hsub.map _))
  rwa [List.map_filterMap] at hlast

/-- No two dotted names of a file end at the same place. -/
theorem longName_unique {d d' : Expr} {name name' : LongIdent}
    (hd : d ∈ Decl.exprsOfAll (parse path text kind defines).decls)
    (hd' : d' ∈ Decl.exprsOfAll (parse path text kind defines).decls) (hname : d.longName? = some name)
    (hname' : d'.longName? = some name') (hspan : name.last.span = name'.last.span) : name = name' := by
  let Agree (e e' : Expr) : Prop := ∀ span, e.lastName?.map (·.span) = some span →
    e'.lastName?.map (·.span) = some span → e.longName? = e'.longName?
  have hpairwise := List.pairwise_filterMap.mp (lastNames_nodup path text kind defines)
  have hagree : ∀ e ∈ Decl.exprsOfAll (parse path text kind defines).decls,
      ∀ e' ∈ Decl.exprsOfAll (parse path text kind defines).decls, Agree e e' := by
    have : Std.Symm Agree := ⟨fun e e' h span he he' => (h span he' he).symm⟩
    refine fun e he e' he' => List.Pairwise.forall_of_forall (R := Agree) (fun e _ _ _ _ => rfl)
      (hpairwise.imp fun h span hspan hspan' => ?_) he he'
    exact absurd rfl (h span hspan span hspan')
  have hlongNames := hagree d hd d' hd' name.last.span (by rw [Expr.lastName?, hname]; rfl)
    (by rw [Expr.lastName?, hname', hspan]; rfl)
  exact Option.some.inj (hname.symm.trans (hlongNames.trans hname'))

end SyntaxFile

end ScriptAnalyzer
