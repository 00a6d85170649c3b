/-
  KernelPrep.Proofs.Session — what a session does, pass by pass.

  A pass edits the document and may yield a binding table, which is written at once.  The first
  pass that fails, or whose table cannot be written, ends the run.  So a run is told by its
  first pass and by what the others make of the document that this one leaves.

  Main statements:
    * `Session.runPass_edit_error`, `Session.runPass_no_table`, `Session.runPass_table` — a pass;
    * `Session.runPasses_cons_eq` — several of them;
    * `process_load_error`, `process_loaded` — a file.
-/
import KernelPrep.Pipeline
import KernelPrep.Proofs.Step

namespace KernelPrep

variable {σ : Type} {disk : Disk (StateM σ)} {s s' : σ} {doc doc' : Document}

namespace Session

variable {pass : Pass} {passes : List Pass} {error : PassError}

/-! ## §1. Passes -/

theorem runPass_edit_error (h : pass.run doc = .error error doc') :
    runPass disk pass doc s = ((.error error, doc'), s) := by
  unfold runPass
  rw [h]
  rfl

theorem runPass_no_table (h : pass.run doc = .ok none doc') :
    runPass disk pass doc s = ((.ok (), doc'), s) := by
  unfold runPass
  rw [h]
  rfl

/-- A pass that yields a table succeeds as the writing of the table does. -/
theorem runPass_table {file : TableFile} (h : pass.run doc = .ok (some file) doc') :
    runPass disk pass doc s
      = (((disk.write file.path file.content s).1.mapError
            fun cause => ⟨0, .tableNotWritten file.path cause⟩, doc'),
          (disk.write file.path file.content s).2) := by
  unfold runPass
  rw [h]
  show ((_, _), _) = _
  cases (disk.write file.path file.content s).1 <;> rfl

/-- A pass that goes through has gone through with its edit. -/
theorem runPass_ok (h : runPass disk pass doc s = ((.ok (), doc'), s')) :
    ∃ table?, pass.run doc = .ok table? doc' := by
  cases hrun : pass.run doc with
  | error error other =>
    rw [runPass_edit_error hrun] at h
    have hresult : Except.error error = Except.ok () := congrArg (·.1.1) h
    simp at hresult
  | ok table? other =>
    have hdoc : other = doc' := by
      cases table? with
      | none =>
        rw [runPass_no_table hrun] at h
        exact congrArg (·.1.2) h
      | some file =>
        rw [runPass_table hrun] at h
        exact congrArg (·.1.2) h
    exact ⟨table?, by rw [hdoc]⟩

/-- The first of several passes, and the others behind it. -/
theorem runPasses_cons_eq :
    runPasses disk (pass :: passes) doc s
      = match runPass disk pass doc s with
        | ((.error error, doc'), s') => ((.error (.pass pass.name error), doc'), s')
        | ((.ok (), doc'), s') => runPasses disk passes doc' s' := by
  conv => lhs; unfold runPasses
  rcases hpass : runPass disk pass doc s with ⟨⟨result, doc'⟩, s'⟩
  rw [Step.bind_state hpass]
  cases result <;> rfl

/-- When passes go through, so does the first, and the others go on from there. -/
theorem runPasses_cons (h : runPasses disk (pass :: passes) doc s = ((.ok (), doc'), s')) :
    ∃ table? mid t, pass.run doc = .ok table? mid
      ∧ runPasses disk passes mid t = ((.ok (), doc'), s') := by
  rw [runPasses_cons_eq] at h
  rcases hpass : runPass disk pass doc s with ⟨⟨result, mid⟩, t⟩
  rw [hpass] at h
  cases result with
  | error error =>
    have hresult : Except.error (ProcessError.pass pass.name error) = Except.ok () :=
      congrArg (·.1.1) h
    simp at hresult
  | ok u =>
    obtain ⟨table?, hrun⟩ := runPass_ok hpass
    exact ⟨table?, mid, t, hrun, h⟩

/-- Applying a session runs its passes, made from the registry at the first time. -/
theorem apply_run (disk : Disk (StateM σ)) (registry : Registry) (session : Session) (s : σ) :
    apply disk registry session s
      = (((runPasses disk (session.passes?.getD
            (registry.instantiate session.document.config)) session.document s).1.1,
          { document := (runPasses disk (session.passes?.getD
              (registry.instantiate session.document.config)) session.document s).1.2,
            passes? := some (session.passes?.getD
              (registry.instantiate session.document.config)) }),
        (runPasses disk (session.passes?.getD
          (registry.instantiate session.document.config)) session.document s).2) := rfl

end Session

/-! ## §2. A file -/

/-- A file that cannot be loaded touches no disk; the passes start from the loaded one. -/
theorem process_load_error [ContentHash] {config : Config} {source : String} {error : ProcessError}
    (h : Document.load config source = .error error) :
    process disk config source s = (.error error, s) := by
  unfold process Session.load
  rw [h]
  rfl

/-- Of a source that can be loaded the result is the text behind the passes, or their error. -/
theorem process_loaded [ContentHash] {config : Config} {source : String}
    (h : Document.load config source = .ok doc) :
    process disk config source s
      = match Session.runPasses disk (Registry.builtin.instantiate doc.config) doc s with
        | ((.error error, _), t) => (.error error, t)
        | ((.ok (), doc'), t) => (.ok doc'.text, t) := by
  have hsession : Session.load config source = .ok { document := doc } := by
    unfold Session.load
    rw [h]
    rfl
  rcases hrun : Session.runPasses disk (Registry.builtin.instantiate doc.config) doc s
    with ⟨⟨result, doc'⟩, t⟩
  have happly : Session.apply disk Registry.builtin { document := doc } s
      = ((result, ⟨doc', some (Registry.builtin.instantiate doc.config)⟩), t) := by
    unfold Session.apply
    exact Step.bind_state hrun
  unfold process
  rw [hsession]
  dsimp only
  rw [Step.bind_state happly]
  cases result <;> rfl

end KernelPrep
