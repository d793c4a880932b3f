import ScriptAnalyzer.Proofs.Typing.Displays
import ScriptAnalyzer.Typing.Signature

/-!
Signatures are cut out of displays. Parentheses stand around every arrow inside of a parameter, so the arrows outside
of parentheses are those of the function itself, and what is cut out is the display of a parameter on its own.
-/

namespace ScriptAnalyzer

/-- A text whose parentheses match. Unless `arrows` is set, no arrow stands outside of them. -/
inductive Matched : (arrows : Bool) → Text → Prop
  | nil {arrows : Bool} : Matched arrows []
  | plain {arrows : Bool} {c : Char} {cs : Text} : c ≠ '(' → c ≠ ')' → c ≠ ' ' → Matched arrows cs →
      Matched arrows (c :: cs)
  | blank {arrows : Bool} {c : Char} {cs : Text} : arrows = true ∨ c ≠ '-' → Matched arrows (c :: cs) →
      Matched arrows (' ' :: c :: cs)
  | group {arrows : Bool} {inside cs : Text} : Matched true inside → Matched arrows cs →
      Matched arrows ('(' :: (inside ++ ')' :: cs))

variable {arrows : Bool} {c : Char} {cs text rest part : Text} {parts : List Text} {depth : Nat}

theorem Matched.append (h : Matched arrows cs) (hrest : Matched arrows rest) : Matched arrows (cs ++ rest) := by
  induction h with
  | nil => exact hrest
  | plain hopen hclose hblank _ ih => exact .plain hopen hclose hblank (ih hrest)
  | blank hnext _ ih => exact .blank hnext (ih hrest)
  | group hinside _ _ ih =>
    rw [List.cons_append, List.append_assoc, List.cons_append]
    exact .group hinside (ih hrest)

theorem Matched.of_forall (h : ∀ c ∈ cs, c ≠ '(' ∧ c ≠ ')' ∧ c ≠ ' ') : Matched arrows cs := by
  induction cs with
  | nil => exact .nil
  | cons c cs ih =>
    obtain ⟨⟨hopen, hclose, hblank⟩, hcs⟩ := List.forall_mem_cons.mp h
    exact .plain hopen hclose hblank (ih hcs)

/-- The text is not empty, and no arrow begins with it. -/
def Opens (text : Text) : Prop := ∃ c cs, text = c :: cs ∧ c ≠ '-'

theorem Opens.append (h : Opens cs) (rest : Text) : Opens (cs ++ rest) := by
  obtain ⟨c, ds, rfl, hc⟩ := h
  exact ⟨c, ds ++ rest, rfl, hc⟩

theorem Opens.ne_nil (h : Opens cs) : cs ≠ [] := by
  obtain ⟨c, ds, rfl, -⟩ := h
  exact List.cons_ne_nil c ds

theorem Matched.blank_append (h : Matched arrows cs) (hopens : Opens cs) : Matched arrows (' ' :: cs) := by
  obtain ⟨c, ds, rfl, hc⟩ := hopens
  exact .blank (.inr hc) h

/-! Cutting at arrows -/

theorem splitArrows_plain (hopen : c ≠ '(') (hclose : c ≠ ')') (hblank : c ≠ ' ') (depth : Nat) (cs : Text) :
    splitArrows depth (c :: cs) = consFirst c (splitArrows depth cs) :=
  splitArrows.eq_5 depth c cs hopen hclose fun _ _ h => absurd h hblank

theorem splitArrows_blank (h : depth ≠ 0 ∨ c ≠ '-') (cs : Text) :
    splitArrows depth (' ' :: c :: cs) = consFirst ' ' (splitArrows depth (c :: cs)) := by
  refine splitArrows.eq_5 depth ' ' (c :: cs) (by decide) (by decide) fun _ hzero _ hcs => ?_
  rcases h with h | h
  · exact h hzero
  · exact h (List.cons.inj hcs).1

/-- What matches is not cut: in front of the arrows of the rest all of it stands in the first part. -/
theorem Matched.splitArrows_append (h : Matched arrows text) (hdepth : arrows = true → depth ≠ 0)
    (hrest : splitArrows depth rest = part :: parts) :
    splitArrows depth (text ++ rest) = (text ++ part) :: parts := by
  induction h generalizing depth part parts rest with
  | nil => exact hrest
  | plain hopen hclose hblank _ ih =>
    rw [List.cons_append, splitArrows_plain hopen hclose hblank, ih hdepth hrest]
    rfl
  | blank hnext _ ih =>
    have hcs := ih hdepth hrest
    rw [List.cons_append] at hcs
    rw [List.cons_append, List.cons_append, splitArrows_blank (hnext.imp_left hdepth), hcs]
    rfl
  | @group arrows inside cs _ _ hinside ih =>
    have hclosed : splitArrows (depth + 1) (')' :: (cs ++ rest)) = (')' :: (cs ++ part)) :: parts := by
      rw [splitArrows, Nat.add_sub_cancel, ih hdepth hrest]
      rfl
    rw [List.cons_append, List.append_assoc, List.cons_append, splitArrows,
      hinside (fun _ => Nat.succ_ne_zero depth) hclosed]
    simp only [consFirst, List.cons_append, List.append_assoc]

/-! Parentheses around a text -/

theorem Matched.isBalancedInside_append (h : Matched arrows text) (depth : Nat) (rest : Text) :
    isBalancedInside depth (text ++ rest) = isBalancedInside depth rest := by
  induction h generalizing depth rest with
  | nil => rfl
  | @plain _ c cs hopen hclose _ _ ih =>
    rw [List.cons_append, isBalancedInside.eq_5 depth c (cs ++ rest) hopen (fun _ => hclose) fun _ _ => hclose, ih]
  | @blank _ c cs _ _ ih =>
    have hblank : isBalancedInside depth (' ' :: (c :: cs ++ rest)) = isBalancedInside depth (c :: cs ++ rest) :=
      isBalancedInside.eq_5 depth ' ' (c :: cs ++ rest) (by decide) (fun _ => by decide) fun _ _ => by decide
    rw [List.cons_append, hblank, ih]
  | group _ _ hinside ih =>
    rw [List.cons_append, List.append_assoc, List.cons_append, isBalancedInside, hinside, isBalancedInside, ih]

/-- Parentheses around a text that matches are removed. -/
theorem Matched.stripParens_group (h : Matched arrows text) : stripParens ('(' :: text ++ [')']) = text := by
  have hbalanced : isBalancedInside 0 text = true := by
    have hnil := h.isBalancedInside_append 0 []
    rwa [List.append_nil] at hnil
  rw [List.cons_append, stripParens, List.getLast?_concat, List.dropLast_concat, hbalanced]
  rfl

/-- Parentheses in front of another part of a text are not removed. -/
theorem Matched.stripParens_append (h : Matched arrows text) (htext : text ≠ []) (hrest : rest ≠ []) :
    stripParens (text ++ rest) = text ++ rest := by
  cases h with
  | nil => exact absurd rfl htext
  | @plain _ c cs hopen => exact stripParens.eq_2 _ fun ds hds => hopen (List.cons.inj hds).1
  | blank => rfl
  | @group _ inside cs hinside =>
    have hmore : cs ++ rest ≠ [] := List.append_ne_nil_of_right_ne_nil cs hrest
    have hinner : (inside ++ ')' :: (cs ++ rest)).dropLast = inside ++ ')' :: (cs ++ rest).dropLast := by
      rw [List.dropLast_append_of_ne_nil (List.cons_ne_nil _ _), List.dropLast_cons_of_ne_nil hmore]
    rw [List.cons_append, List.append_assoc, List.cons_append, stripParens, hinner, hinside.isBalancedInside_append,
      isBalancedInside, Bool.and_false]
    rfl

namespace Ty

/-- An identifier of the language, or a keyword. -/
def isIdentifier (name : Text) : Bool := name.head?.any Token.startsName && name.all Token.continuesName

/-- The types built from variables, the type in error, functions, tuples, and named types with at most one argument.
What is displayed of a name, the last segment of its path, is an identifier. -/
inductive Simple : Ty → Prop
  | var (v : Nat) : Simple (var v)
  | error : Simple error
  | atom {name : String} : isIdentifier (lastSegment name.toList) = true → Simple (atom name)
  | applied {name : String} {arg : Ty} : isIdentifier (lastSegment name.toList) = true → Simple arg →
      Simple (named name [arg])
  | function {param ret : Ty} : Simple param → Simple ret → Simple (function param ret)
  | tuple {items : List Ty} : 2 ≤ items.length → (∀ t ∈ items, Simple t) → Simple (tuple items)

variable {names : List Nat} {t ret : Ty}

theorem not_paren_of_continuesName (h : Token.continuesName c = true) : c ≠ '(' ∧ c ≠ ')' ∧ c ≠ ' ' := by
  refine ⟨?_, ?_, ?_⟩
  all_goals
    rintro rfl
    exact absurd h (by decide)

theorem continuesName_of_isIdentifier (h : isIdentifier cs = true) : ∀ c ∈ cs, Token.continuesName c = true :=
  List.all_eq_true.mp (Bool.and_eq_true_iff.mp h).2

theorem matched_identifier (h : isIdentifier cs = true) : Matched arrows cs :=
  .of_forall fun c hc => not_paren_of_continuesName (continuesName_of_isIdentifier h c hc)

theorem opens_identifier (h : isIdentifier cs = true) : Opens cs := by
  cases cs with
  | nil => cases h
  | cons c cs =>
    refine ⟨c, cs, rfl, ?_⟩
    rintro rfl
    cases h

theorem matched_varName (index : Nat) : Matched arrows (varName index) := by
  obtain ⟨c, cs, hname, hstart, hcs⟩ := Token.isTypeVariable_spelled (isTypeVariable_varName index)
  rw [String.toList_ofList] at hname
  rw [hname]
  refine .plain (by decide) (by decide) (by decide) (.of_forall (List.forall_mem_cons.mpr ⟨?_, fun d hd => ?_⟩))
  · exact not_paren_of_continuesName (Token.continues_of_starts hstart)
  · exact not_paren_of_continuesName (by rw [Token.continuesName, hcs d hd, Bool.true_or])

theorem Simple.opens (h : t.Simple) (names : List Nat) (place : Place) : Opens (write names place t) := by
  induction h generalizing place with
  | var => exact ⟨_, _, rfl, by decide⟩
  | error => exact ⟨_, _, rfl, by decide⟩
  | atom hname => exact opens_identifier hname
  | applied _ _ ih =>
    rw [write]
    split
    all_goals exact (ih .argument).append _
  | function _ _ hparam _ =>
    rw [write, parenthesize]
    split
    · exact ⟨_, _, rfl, by decide⟩
    · exact ((hparam .parameter).append _).append _
  | @tuple items hlength _ ih =>
    obtain ⟨first, items, rfl⟩ := List.exists_cons_of_ne_nil (List.ne_nil_of_length_pos (by omega : 0 < items.length))
    rw [write, parenthesize]
    split
    · exact ⟨_, _, rfl, by decide⟩
    · exact (ih first List.mem_cons_self .item).append _

theorem matched_arrow (hparam : Matched true cs) (hret : Matched true rest) (hopens : Opens rest) :
    Matched true (cs ++ [' ', '-', '>', ' '] ++ rest) := by
  rw [List.append_assoc]
  refine hparam.append (.blank (.inl rfl) ?_)
  exact .plain (by decide) (by decide) (by decide) (.plain (by decide) (by decide) (by decide) (hret.blank_append hopens))

theorem matched_items {items : List Ty} (h : ∀ t ∈ items, Matched arrows (write names .item t))
    (hopens : ∀ t ∈ items, Opens (write names .item t)) :
    Matched arrows (writeAll names .item [' ', '*', ' '] items) := by
  induction items with
  | nil => exact .nil
  | cons t ts ih =>
    obtain ⟨ht, hts⟩ := List.forall_mem_cons.mp h
    obtain ⟨htOpens, htsOpens⟩ := List.forall_mem_cons.mp hopens
    rw [writeAll]
    refine .append (.blank (.inr (by decide)) ?_) (ih hts htsOpens)
    exact .plain (by decide) (by decide) (by decide) (ht.blank_append htOpens)

/-- Only a function that is written without parentheses shows an arrow outside of them. -/
theorem Simple.matched (h : t.Simple) (names : List Nat) {place : Place}
    (hplace : arrows = true ∨ place ≠ .outermost ∨ t.curriedParams = []) : Matched arrows (write names place t) := by
  -- a parameter, an item and an argument stand at places of their own, so only the result of a function needs `arrows`
  induction h generalizing arrows place with
  | var => exact matched_varName _
  | error => exact .plain (by decide) (by decide) (by decide) .nil
  | atom hname => exact matched_identifier hname
  | applied hname harg ih =>
    have hinner : Matched arrows (write names .argument _) := ih (.inr (.inl (by decide)))
    rw [write]
    split
    · refine hinner.append (.plain (by decide) (by decide) (by decide) ?_)
      exact .plain (by decide) (by decide) (by decide) .nil
    · exact hinner.append ((matched_identifier hname).blank_append (opens_identifier hname))
  | @function param ret _ hret ihparam ihret =>
    have hparam : Matched true (write names .parameter param) := ihparam (.inl rfl)
    have hinner := matched_arrow hparam (ihret (.inl rfl)) (hret.opens names .outermost)
    rw [write]
    by_cases hout : place = .outermost
    · rw [hout]
      obtain rfl | hplace | hplace := hplace
      · exact hinner
      · exact absurd hout hplace
      · cases hplace
    · rw [parenthesize, if_pos (bne_iff_ne.mpr hout)]
      exact .group hinner .nil
  | @tuple items hlength hitems ih =>
    obtain ⟨first, items, rfl⟩ := List.exists_cons_of_ne_nil (List.ne_nil_of_length_pos (by omega : 0 < items.length))
    have hbare (arrows : Bool) : Matched arrows
        (write names .item first ++ writeAll names .item [' ', '*', ' '] items) := by
      have hall : ∀ t ∈ first :: items, Matched arrows (write names .item t) := fun t ht =>
        ih t ht (.inr (.inl (by decide)))
      obtain ⟨hfirst, hrest⟩ := List.forall_mem_cons.mp hall
      exact hfirst.append (matched_items hrest fun t ht => (hitems t (List.mem_cons_of_mem _ ht)).opens names .item)
    rw [write, parenthesize]
    split
    · exact .group (hbare true) .nil
    · exact hbare arrows

/-! Cutting displays -/

/-- At the place of a parameter only functions have parentheses of their own. -/
theorem Simple.stripParens_write (h : t.Simple) (names : List Nat) :
    stripParens (write names .parameter t) = write names .outermost t := by
  cases h with
  | var | error => rfl
  | @atom name hname =>
    refine stripParens.eq_2 _ fun ds hds => ?_
    have hname : isIdentifier ('(' :: ds) = true := hds ▸ hname
    cases hname
  | @applied name arg _ harg =>
    have hinner : Matched true (write names .argument arg) := harg.matched names (.inl rfl)
    have hne := (harg.opens names .argument).ne_nil
    rw [write, write]
    split
    all_goals exact hinner.stripParens_append hne (List.cons_ne_nil _ _)
  | @function param ret hparam hret =>
    have hcs : Matched true (write names .parameter param) := hparam.matched names (.inl rfl)
    have hinner := matched_arrow hcs (hret.matched names (.inl rfl)) (hret.opens names .outermost)
    exact hinner.stripParens_group
  | @tuple items hlength hitems =>
    obtain ⟨first, items, rfl⟩ := List.exists_cons_of_ne_nil (List.ne_nil_of_length_pos (by omega : 0 < items.length))
    obtain ⟨second, items, rfl⟩ := List.exists_cons_of_ne_nil (List.ne_nil_of_length_pos (Nat.lt_of_succ_lt_succ hlength))
    have hfirst := hitems first List.mem_cons_self
    have hinner : Matched true (write names .item first) := hfirst.matched names (.inl rfl)
    exact hinner.stripParens_append (hfirst.opens names .item).ne_nil (List.cons_ne_nil _ _)

/-- The parts of a displayed function are its parameters at their places, and its result. -/
theorem splitArrows_write {params : List Ty} (hparams : ∀ t ∈ params, t.Simple) (hret : ret.Simple)
    (hlast : ret.curriedParams = []) (names : List Nat) : splitArrows 0 (write names .outermost (curried params ret)) =
      params.map (write names .parameter) ++ [write names .outermost ret] := by
  induction params with
  | nil =>
    have hwhole : Matched false (write names .outermost ret) := hret.matched names (.inr (.inr hlast))
    have hsplit := hwhole.splitArrows_append (by decide) (splitArrows.eq_1 0)
    rwa [List.append_nil] at hsplit
  | cons t ts ih =>
    obtain ⟨ht, hts⟩ := List.forall_mem_cons.mp hparams
    have hparam : Matched false (write names .parameter t) := ht.matched names (.inr (.inl (by decide)))
    have hsplit := hparam.splitArrows_append (by decide)
      (splitArrows.eq_2 (write names .outermost (curried ts ret)))
    rw [ih hts, List.append_nil] at hsplit
    have hwrite : write names .outermost (curried (t :: ts) ret) =
        write names .parameter t ++ ' ' :: '-' :: '>' :: ' ' :: write names .outermost (curried ts ret) := by
      rw [curried, List.foldr_cons, write, List.append_assoc]
      rfl
    rw [hwrite, hsplit, List.map_cons, List.cons_append]

theorem nameParameters_map {α : Type} (f : α → Text) (names : List String) (index : Nat) (l : List α) :
    nameParameters names index (l.map f) = l.mapIdx fun i a =>
      { name := names[i]?.getD ("arg" ++ toString (index + i + 1)), type := String.ofList (stripParens (f a)) } := by
  induction l generalizing names index with
  | nil => rfl
  | cons a l ih =>
    rw [List.map_cons, nameParameters, ih, List.mapIdx_cons, List.headD_eq_head?_getD, List.head?_eq_getElem?]
    simp only [List.getElem?_tail, Nat.add_zero, Nat.add_right_comm, Nat.add_assoc]

theorem curriedParams_curried {params : List Ty} (hparams : params ≠ []) (ret : Ty) :
    (curried params ret).curriedParams ≠ [] := by
  cases params with
  | nil => exact absurd rfl hparams
  | cons t ts => exact List.cons_ne_nil _ _

/-- The signature of a curried function has its parameters in their order, with the names that are given for them or
numbers, and its result. Each part is displayed on its own, but the variables have their names in the whole. -/
theorem signature?_curried {params : List Ty} (hsome : params ≠ []) (hparams : ∀ t ∈ params, t.Simple)
    (hret : ret.Simple) (hlast : ret.curriedParams = []) (paramNames : List String) :
    let t := curried params ret
    t.signature? paramNames = some
      { parameters := params.mapIdx fun i p =>
          { name := paramNames[i]?.getD ("arg" ++ toString (i + 1))
            type := String.ofList (write t.freeVars .outermost p) }
        returnType := String.ofList (write t.freeVars .outermost ret) } := by
  intro t
  have hcurried : t.curriedParams.isEmpty = false := List.isEmpty_eq_false_iff.mpr (curriedParams_curried hsome ret)
  have hparts : splitArrows 0 t.text =
      params.map (write t.freeVars .parameter) ++ [write t.freeVars .outermost ret] :=
    splitArrows_write hparams hret hlast t.freeVars
  have hnames : nameParameters paramNames 0 (params.map (write t.freeVars .parameter)) =
      params.mapIdx fun i p =>
        { name := paramNames[i]?.getD ("arg" ++ toString (i + 1))
          type := String.ofList (write t.freeVars .outermost p) } := by
    rw [nameParameters_map, List.mapIdx_eq_mapIdx_iff]
    intro i hi
    rw [Nat.zero_add, (hparams _ (List.getElem_mem hi)).stripParens_write]
  rw [signature?, hcurried, hparts, if_neg Bool.false_ne_true]
  dsimp only
  rw [List.dropLast_concat, List.getLast?_concat, hnames]
  rfl

/-- Functions stand in a parameter and inside of another one, and one of the two has a name. -/
theorem mapping_signature? :
    let params := [function (var 7) (var 3), list (tuple [var 7, function int error])]
    let ret := tuple [array (atom "Geometry.Point"), var 3]
    (params ≠ [] ∧ (∀ t ∈ params, t.Simple) ∧ ret.Simple ∧ ret.curriedParams = []) ∧
      (curried params ret).signature? ["mapping"] = some
        { parameters := [{ name := "mapping", type := "'a -> 'b" }, { name := "arg2", type := "('a * (int -> ?)) list" }]
          returnType := "Point[] * 'b" } := by
  intro params ret
  have hsome : params ≠ [] := List.cons_ne_nil _ _
  have hpair : (list (tuple [var 7, function int error])).Simple := by
    refine .applied (by decide) (.tuple (Nat.le_refl 2) (List.forall_mem_cons.mpr ⟨.var 7, ?_⟩))
    exact List.forall_mem_singleton.mpr (.function (.atom (by decide)) .error)
  have hparams : ∀ t ∈ params, t.Simple :=
    List.forall_mem_cons.mpr ⟨.function (.var 7) (.var 3), List.forall_mem_singleton.mpr hpair⟩
  have hret : ret.Simple := by
    refine .tuple (Nat.le_refl 2) (List.forall_mem_cons.mpr ⟨.applied (by decide) (.atom (by decide)), ?_⟩)
    exact List.forall_mem_singleton.mpr (.var 3)
  refine ⟨⟨hsome, hparams, hret, rfl⟩, (signature?_curried hsome hparams hret rfl ["mapping"]).trans ?_⟩
  decide

end Ty
end ScriptAnalyzer
