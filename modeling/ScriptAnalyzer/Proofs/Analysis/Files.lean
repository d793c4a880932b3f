import ScriptAnalyzer.Analysis.Coordinator
import ScriptAnalyzer.Proofs.Analysis.Answers
import ScriptAnalyzer.Proofs.Project.Paths

/-!
Whatever is asked of the files, and in whatever order the analyses get further, at most one analysis of a
file goes on.
-/

namespace ScriptAnalyzer

variable {ρ : Type}

namespace FileChecks

theorem Exclusive.step {e : FrontEnd ρ} {s s' : FileChecks ρ} (hs : Exclusive s) (hstep : Step e s s') :
    Exclusive s' := by
  cases hstep with
  | request text => exact hs.request text
  | turn c hc hready => exact hs.turn c
  | poll text => exact hs.poll text
  | markDirty => exact hs.markDirty
  | close => exact hs.close
  | work t ht => exact hs.work ht

end FileChecks

namespace Coordinator

variable {c c' : Coordinator ρ} {path : Path}

theorem file_setFile (s : FileChecks ρ) (path' : Path) :
    (c.setFile path s).file path' = if path == path' then s else c.file path' := by
  have hfiles : (c.setFile path s).files = if c.files.any (·.1 == path) then
      c.files.map fun f => if f.1 == path then (f.1, s) else f else c.files ++ [(path, s)] := by
    unfold setFile
    split <;> rfl
  rw [file, hfiles, Path.find?_put]
  split <;> rfl

theorem file_setFile_of_eq {path' : Path} (s : FileChecks ρ) (h : (path == path') = true) :
    (c.setFile path s).file path' = s := by
  rw [file_setFile, if_pos h]

theorem file_setFile_of_ne {path' : Path} (s : FileChecks ρ) (h : ¬(path == path') = true) :
    (c.setFile path s).file path' = c.file path' := by
  rw [file_setFile, if_neg h]

/-- A step of the analyses of one of the files. -/
inductive Step : Coordinator ρ → Coordinator ρ → Prop
  | file (c : Coordinator ρ) (path : Path) {s : FileChecks ρ}
    (hstep : FileChecks.Step (c.frontEnd path) (c.file path) s) : Step c (c.setFile path s)

theorem Step.exclusive (hstep : Step c c') (hc : ∀ path, (c.file path).Exclusive) (path : Path) :
    (c'.file path).Exclusive := by
  cases hstep with
  | file path' hstep =>
    by_cases h : (path' == path) = true
    · rw [file_setFile_of_eq _ h]
      exact (hc path').step hstep
    · rw [file_setFile_of_ne _ h]
      exact hc path

theorem exclusive_of_run (hc : c.files = []) (hrun : Relation.ReflTransGen Step c c') (path : Path) :
    (c'.file path).Exclusive := by
  induction hrun generalizing path with
  | refl =>
    rw [file, hc]
    exact FileChecks.exclusive_empty
  | tail _ hstep ih => exact hstep.exclusive ih path

/-- What a file can come to, it can come to among other files. -/
theorem exists_run {s : FileChecks ρ}
    (hrun : Relation.ReflTransGen (FileChecks.Step (c.frontEnd path)) (c.file path) s) :
    ∃ c', Relation.ReflTransGen Step c c' ∧ c'.frontEnd = c.frontEnd ∧ c'.file path = s := by
  induction hrun with
  | refl => exact ⟨c, .refl, rfl, rfl⟩
  | tail _ hstep ih =>
    obtain ⟨c', hrun, hfrontEnd, rfl⟩ := ih
    refine ⟨_, hrun.tail (.file c' path (hfrontEnd ▸ hstep)), ?_, file_setFile_of_eq _ path.beq_refl⟩
    rw [← hfrontEnd, setFile]
    split <;> rfl

/-- At most one analysis of a file goes on, and it is the one that the slot of the file holds. -/
theorem one_analysis_goes_on (hc : c.files = []) (hrun : Relation.ReflTransGen Step c c') (path : Path) :
    (c'.file path).tasks.Pairwise (fun t t' => ¬(t.GoesOn ∧ t'.GoesOn)) ∧
      ∀ t ∈ (c'.file path).tasks, t.GoesOn → (c'.file path).flight? = some t.flight := by
  have hfile := exclusive_of_run hc hrun path
  refine ⟨?_, fun t ht hgoes => FileChecks.flight?_eq_some_iff.mpr (hfile.owned t ht hgoes)⟩
  refine (List.pairwise_map.mp hfile.taskIds).imp_of_mem fun {t t'} ht ht' hid hgoes => ?_
  exact hid (hfile.goesOn_unique ht' hgoes.2 ht hgoes.1)

/-- A file that is closed and opened again while its text is analysed: the analysis of the new text begins
where that of the old one has settled. -/
theorem reopened_file_has_one_analysis :
    ∃ c : Coordinator Text, Relation.ReflTransGen Step ⟨fun _ => .echo, []⟩ c ∧
      (c.file ⟨"a.glx"⟩).tasks.map (·.flight) = [⟨0, 1, ['a']⟩, ⟨1, 2, ['b']⟩] ∧
      (c.file ⟨"a.glx"⟩).tasks.Pairwise (fun t t' => ¬(t.GoesOn ∧ t'.GoesOn)) := by
  let s₁ : FileChecks Text := (({} : FileChecks Text).poll ['a']).2
  let s₂ := (s₁.close.poll ['b']).2
  let s₃ := s₂.work .echo ⟨⟨0, 1, ['a']⟩, .parsing⟩
  let s₄ := s₃.work .echo ⟨⟨0, 1, ['a']⟩, .checking⟩
  have hrun : Relation.ReflTransGen (FileChecks.Step FrontEnd.echo) {} s₄ := by
    have hcalls : Relation.ReflTransGen (FileChecks.Step FrontEnd.echo) {} s₂ :=
      ((Relation.ReflTransGen.single (.poll {} ['a'])).tail (.close s₁)).tail (.poll _ ['b'])
    exact (hcalls.tail (.work s₂ _ (.head _))).tail (.work s₃ _ (.head _))
  let start : Coordinator Text := ⟨fun _ => .echo, []⟩
  obtain ⟨c, hrun, -, hfile⟩ := @exists_run _ start ⟨"a.glx"⟩ _ hrun
  have hone := one_analysis_goes_on rfl hrun ⟨"a.glx"⟩
  refine ⟨c, hrun, ?_, hone.1⟩
  rw [hfile]
  rfl

end Coordinator
end ScriptAnalyzer
