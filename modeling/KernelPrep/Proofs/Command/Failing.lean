/-
  KernelPrep.Proofs.Command.Failing — a run that fails changes no file.

  A source may have no tokens or no outline, and each pass may fail, by its edit or because its
  binding table cannot be written.  The table is written from among the passes, before the
  output.  That a failing run still leaves all files as they were rests on the order of the
  passes: one that yields a table has none behind it, so that when the table is written nothing
  is left that could fail.

  The disk is any that reads without a change and on which a write that fails changes nothing.

  Main definitions:
    * `Disk.Steady`   — such a disk;
    * `Pass.Fails`    — what makes a pass fail;
    * `Command.Fails` — what makes a run fail before there is an output.

  Main statements:
    * `Session.runPasses_error_iff`, `Command.produce_error_iff` — when passes, and a run, fail;
    * `Session.runPasses_keeps` — passes that fail change no file;
    * `Command.run_of_fails`    — neither does a run.
-/
import KernelPrep.Command.Run
import KernelPrep.Proofs.Session

namespace KernelPrep

variable {σ : Type} {disk : Disk (StateM σ)} {s : σ} {doc : Document}

/-! ## §1. Disks -/

/-- Reading changes nothing, and neither does a write that fails. -/
structure Disk.Steady (disk : Disk (StateM σ)) : Prop where
  read : ∀ path s, (disk.read path s).2 = s
  write : ∀ path content s cause, (disk.write path content s).1 = .error cause →
    (disk.write path content s).2 = s

/-- A disk that is a store of files is steady. -/
theorem FileStore.disk_steady : FileStore.disk.Steady where
  read _ _ := rfl
  write path content store cause h := by
    unfold FileStore.disk at h ⊢
    dsimp only at h ⊢
    cases hwrite : store.write path content with
    | ok store' => simp [hwrite] at h
    | error error => rfl

/-! ## §2. Passes -/

/-- The edit of a pass fails, or the binding table that it yields cannot be written. -/
def Pass.Fails (disk : Disk (StateM σ)) (pass : Pass) (doc : Document) (s : σ)
    (error : PassError) : Prop :=
  (∃ doc', pass.run doc = .error error doc')
    ∨ ∃ file doc' cause, pass.run doc = .ok (some file) doc'
      ∧ (disk.write file.path file.content s).1 = .error cause
      ∧ error = ⟨0, .tableNotWritten file.path cause⟩

/-- A pass that yields no binding table, whatever the document. -/
def Pass.Quiet (pass : Pass) : Prop := ∀ doc file doc', pass.run doc ≠ .ok (some file) doc'

namespace Session

variable {pass : Pass} {passes : List Pass} {doc' : Document} {error : PassError}

/-- **A pass fails** with an error if its edit does, or if the table it yields cannot be
    written. -/
theorem runPass_error_iff :
    (runPass disk pass doc s).1.1 = .error error ↔ pass.Fails disk doc s error := by
  unfold Pass.Fails
  cases hrun : pass.run doc with
  | error error' doc' =>
    rw [runPass_edit_error hrun]
    simp
  | ok table? doc' =>
    cases table? with
    | none =>
      rw [runPass_no_table hrun]
      simp
    | some file =>
      rw [runPass_table hrun, Step.mapError_error]
      simp [eq_comm]

/-- **A pass that fails** changes no file. -/
theorem runPass_keeps (hdisk : disk.Steady) (h : pass.Fails disk doc s error) :
    (runPass disk pass doc s).2 = s := by
  rcases h with ⟨doc', hrun⟩ | ⟨file, doc', cause, hrun, hwrite, -⟩
  · rw [runPass_edit_error hrun]
  · rw [runPass_table hrun]
    exact hdisk.write _ _ _ _ hwrite

/-- A pass that yields no table changes no file. -/
theorem runPass_quiet (h : pass.Quiet) : (runPass disk pass doc s).2 = s := by
  cases hrun : pass.run doc with
  | error error doc' => rw [runPass_edit_error hrun]
  | ok table? doc' =>
    cases table? with
    | none => rw [runPass_no_table hrun]
    | some file => exact absurd hrun (h doc file doc')

/-- The first pass fails, or it goes through and one of the others fails on what it leaves. -/
inductive Fails (disk : Disk (StateM σ)) : List Pass → Document → σ → ProcessError → Prop
  | here {pass : Pass} {rest : List Pass} {doc : Document} {s : σ} {error : PassError}
      (h : pass.Fails disk doc s error) : Fails disk (pass :: rest) doc s (.pass pass.name error)
  | later {pass : Pass} {rest : List Pass} {doc mid : Document} {s t : σ} {error : ProcessError}
      (h : runPass disk pass doc s = ((.ok (), mid), t)) (hrest : Fails disk rest mid t error) :
      Fails disk (pass :: rest) doc s error

/-- **Passes fail** with the error of the first one that does. -/
theorem runPasses_error_iff {error : ProcessError} :
    (runPasses disk passes doc s).1.1 = .error error ↔ Fails disk passes doc s error := by
  induction passes generalizing doc s with
  | nil =>
    constructor
    · intro h
      have hresult : (.ok () : Except ProcessError Unit) = .error error := h
      simp at hresult
    · intro h
      cases h
  | cons pass rest ih =>
    rw [runPasses_cons_eq]
    rcases hpass : runPass disk pass doc s with ⟨⟨result, mid⟩, t⟩
    have hfails {error : PassError} : pass.Fails disk doc s error ↔ result = .error error := by
      rw [← runPass_error_iff, hpass]
    cases result with
    -- a pass that fails keeps the others from running, so that no later one can be to blame
    | error error' =>
      constructor
      · intro h
        obtain rfl := Except.error.inj h
        exact .here (hfails.mpr rfl)
      · intro h
        cases h with
        | here h => rw [Except.error.inj (hfails.mp h)]
        | later h =>
          have hresult : Except.error error' = Except.ok () :=
            congrArg (·.1.1) (hpass.symm.trans h)
          simp at hresult
    -- the later passes run from where this one left the document and the disk
    | ok u =>
      refine ih.trans ⟨fun h => .later hpass h, fun h => ?_⟩
      cases h with
      | here h => simpa using hfails.mp h
      | later h hrest =>
        have hmid := congrArg (·.1.2) (hpass.symm.trans h)
        have ht := congrArg (·.2) (hpass.symm.trans h)
        dsimp only at hmid ht
        rwa [hmid, ht]

/-- **Passes that fail** change no file, if none but the last yields a table. -/
theorem runPasses_keeps (hdisk : disk.Steady) {error : ProcessError}
    (h : Fails disk passes doc s error) (hquiet : ∀ pass ∈ passes.dropLast, pass.Quiet) :
    (runPasses disk passes doc s).2 = s := by
  induction h with
  | @here pass rest doc s error h =>
    have herror := runPass_error_iff.mpr h
    have hkeeps := runPass_keeps hdisk h
    rw [runPasses_cons_eq]
    rcases hpass : runPass disk pass doc s with ⟨⟨result, mid⟩, t⟩
    rw [hpass] at herror hkeeps
    obtain rfl : result = .error error := herror
    exact hkeeps
  | @later pass rest doc mid s t error h hrest ih =>
    -- a pass behind this one fails, so this one is not the last and leaves the files alone
    have hrest_ne : rest ≠ [] := by
      rintro rfl
      cases hrest
    rw [List.dropLast_cons_of_ne_nil hrest_ne] at hquiet
    obtain ⟨hfirst, hothers⟩ := List.forall_mem_cons.mp hquiet
    have hkeeps : (runPass disk pass doc s).2 = s := runPass_quiet hfirst
    rw [h] at hkeeps
    rw [runPasses_cons_eq, h]
    exact (ih hothers).trans hkeeps

end Session

/-- The pass that includes the header yields no table. -/
theorem Prologue.pass_quiet (config : Config) : (Prologue.pass config).Quiet := by
  intro doc file doc' h
  obtain ⟨u, mid, -, hnone⟩ := Step.bind_ok.mp h
  simpa using (Step.pure_ok.mp hnone).1

/-- Of the passes that every file goes through only the last one yields a table. -/
theorem Registry.builtin_quiet [ContentHash] (config : Config) :
    ∀ pass ∈ (Registry.builtin.instantiate config).dropLast, pass.Quiet := by
  intro pass hpass
  obtain rfl : pass = Prologue.pass config := List.mem_singleton.mp hpass
  exact Prologue.pass_quiet config

/-! ## §3. Files -/

/-- A source is not loaded if it has no tokens, or if these have no outline. -/
theorem Document.load_error_iff {config : Config} {source : String} {error : ProcessError} :
    Document.load config source = .error error
      ↔ (∃ fault, TokenList.lex source = .error fault ∧ .lex fault = error)
        ∨ ∃ tokens fault, TokenList.lex source = .ok tokens ∧ tokens.parse = .error fault
          ∧ .parse fault = error := by
  unfold Document.load
  rw [Step.except_bind_error, Step.mapError_error]
  refine or_congr Iff.rfl (exists_congr fun tokens => ?_)
  rw [Step.mapError_ok, Step.except_bind_error, Step.mapError_error]
  simp [pure, Except.pure]

namespace Command

variable {args : Arguments} {source : String} {error : ProcessError}

/-- Why a run comes to no output: the source has no tokens; it has no outline, where more than
    the tokens is asked for; or one of the passes fails, where no listing is asked for. -/
inductive Fails [ContentHash] (disk : Disk (StateM σ)) (args : Arguments) (source : String)
    (s : σ) : ProcessError → Prop
  | lexing {error : LexError} (h : TokenList.lex source = .error error) :
      Fails disk args source s (.lex error)
  | parsing {tokens : TokenList} {error : ParseError} (hmode : args.dumpTokens = false)
      (hlex : TokenList.lex source = .ok tokens) (h : tokens.parse = .error error) :
      Fails disk args source s (.parse error)
  | passing {doc : Document} {error : ProcessError} (htokens : args.dumpTokens = false)
      (htree : args.dumpTree = false) (hload : Document.load args.config source = .ok doc)
      (h : Session.Fails disk (Registry.builtin.instantiate doc.config) doc s error) :
      Fails disk args source s error

/-- The tokens of a source are listed unless it has none. -/
theorem listTokens_error_iff :
    (listTokens source).mapError .lex = .error error
      ↔ ∃ fault, TokenList.lex source = .error fault ∧ .lex fault = error := by
  unfold listTokens
  rw [Step.mapError_error]
  simp [Step.except_bind_error, pure, Except.pure]

/-- The outline of a source is listed unless it is not loaded. -/
theorem listTree_error_iff {config : Config} :
    listTree config source = .error error ↔ Document.load config source = .error error := by
  unfold listTree
  simp [Step.except_bind_error, pure, Except.pure]

/-- What comes out when the tokens are asked for. -/
theorem produce_tokens [ContentHash] (h : args.dumpTokens = true) :
    produce disk args source s = ((listTokens source).mapError .lex, s) := by
  unfold produce
  rw [if_pos h]
  rfl

theorem produce_tree [ContentHash] (htokens : args.dumpTokens = false)
    (htree : args.dumpTree = true) :
    produce disk args source s = (listTree args.config source, s) := by
  unfold produce
  rw [if_neg (by simp [htokens]), if_pos htree]
  rfl

theorem produce_text [ContentHash] (htokens : args.dumpTokens = false)
    (htree : args.dumpTree = false) :
    produce disk args source s = process disk args.config source s := by
  unfold produce
  rw [if_neg (by simp [htokens]), if_neg (by simp [htree])]

/-- Where more than the tokens is asked for, the file cannot be loaded, or a pass fails on it. -/
theorem fails_iff [ContentHash] (htokens : args.dumpTokens = false) :
    Fails disk args source s error
      ↔ Document.load args.config source = .error error
        ∨ args.dumpTree = false ∧ ∃ doc, Document.load args.config source = .ok doc
          ∧ Session.Fails disk (Registry.builtin.instantiate doc.config) doc s error := by
  rw [Document.load_error_iff]
  constructor
  · intro h
    cases h with
    | lexing hlex => exact Or.inl (Or.inl ⟨_, hlex, rfl⟩)
    | parsing _ hlex hparse => exact Or.inl (Or.inr ⟨_, _, hlex, hparse, rfl⟩)
    | passing _ htree hload h => exact Or.inr ⟨htree, _, hload, h⟩
  · rintro ((⟨fault, hlex, rfl⟩ | ⟨tokens, fault, hlex, hparse, rfl⟩) | ⟨htree, doc, hload, h⟩)
    · exact .lexing hlex
    · exact .parsing htokens hlex hparse
    · exact .passing htokens htree hload h

/-- **When a run comes to no output.** -/
theorem produce_error_iff [ContentHash] :
    (produce disk args source s).1 = .error error ↔ Fails disk args source s error := by
  cases htokens : args.dumpTokens with
  -- tokens are listed before anything is parsed
  | true =>
    rw [produce_tokens htokens, listTokens_error_iff]
    constructor
    · rintro ⟨fault, hlex, rfl⟩
      exact .lexing hlex
    · intro h
      cases h with
      | lexing hlex => exact ⟨_, hlex, rfl⟩
      | parsing hmode => simp [htokens] at hmode
      | passing hmode => simp [htokens] at hmode
  | false =>
    -- in the other modes the file is loaded first, and only output needs the passes
    rw [fails_iff htokens]
    cases htree : args.dumpTree with
    | true =>
      rw [produce_tree htokens htree, listTree_error_iff]
      simp
    | false =>
      rw [produce_text htokens htree]
      cases hload : Document.load args.config source with
      | error error' =>
        rw [process_load_error hload]
        simp
      | ok doc =>
        have hpasses : (Session.runPasses disk (Registry.builtin.instantiate doc.config)
              doc s).1.1 = .error error
            ↔ Session.Fails disk (Registry.builtin.instantiate doc.config) doc s error :=
          Session.runPasses_error_iff
        rw [process_loaded hload]
        rcases hrun : Session.runPasses disk (Registry.builtin.instantiate doc.config) doc s
          with ⟨⟨result, doc'⟩, t⟩
        rw [hrun] at hpasses
        cases result with
        | error error' => simpa using hpasses
        | ok u => simpa using hpasses

/-- **Before there is an output**, a run that fails changes no file. -/
theorem produce_keeps [ContentHash] (hdisk : disk.Steady) (h : Fails disk args source s error) :
    (produce disk args source s).2 = s := by
  cases htokens : args.dumpTokens with
  | true => rw [produce_tokens htokens]
  | false =>
    cases htree : args.dumpTree with
    | true => rw [produce_tree htokens htree]
    | false =>
      rw [produce_text htokens htree]
      rcases (fails_iff htokens).mp h with hload | ⟨-, doc, hload, hpasses⟩
      · rw [process_load_error hload]
      · have hkeeps := Session.runPasses_keeps hdisk hpasses (Registry.builtin_quiet _)
        rw [process_loaded hload]
        rcases hrun : Session.runPasses disk (Registry.builtin.instantiate doc.config) doc s
          with ⟨⟨result, doc'⟩, t⟩
        rw [hrun] at hkeeps
        cases result <;> exact hkeeps

/-- **A run that fails** at reading the source, at its outline or in a pass changes no file,
    prints nothing on standard output, and reports the error with a status of failure. -/
theorem run_of_fails [ContentHash] (hdisk : disk.Steady) {bytes : ByteArray}
    (hread : (disk.read args.input s).1 = .ok bytes)
    (hsource : String.fromUTF8? bytes = some source) (h : Fails disk args source s error)
    (terminal : Bool) :
    ∃ outcome, run disk args terminal s = (outcome, s)
      ∧ outcome.status = 1 ∧ outcome.stdout = ""
      ∧ outcome = report args terminal (error.toDiagnostic args.input) := by
  have hinput : disk.read args.input s = (.ok bytes, s) := Prod.ext hread (hdisk.read _ _)
  have hproduce : produce disk args source s = (.error error, s) :=
    Prod.ext (produce_error_iff.mpr h) (produce_keeps hdisk h)
  refine ⟨_, ?_, rfl, rfl, rfl⟩
  unfold run
  rw [Step.bind_state hinput]
  dsimp only
  rw [hsource]
  exact Step.bind_state hproduce

/-- A kernel with a texture parameter. -/
def textured : String := "kernel void k(Texture2Du<float> a) \x7b \x7d"

/-- A store with no directory in it, and a file with the kernel. -/
def texturedStore : FileStore := { files := [(["k.kpp"], textured.toUTF8)] }

/-- The table is asked for in a directory that the store has not got. -/
def strayTable : Arguments :=
  { input := "k.kpp", output? := some "out.cu", table? := some "no/k.tex" }

/-- The kernel is lowered, but its table cannot be written: the run fails in the last pass. -/
theorem run_of_fails_strayTable :
    FileStore.disk.Steady
      ∧ (FileStore.disk.read strayTable.input texturedStore).1 = .ok textured.toUTF8
      ∧ String.fromUTF8? textured.toUTF8 = some textured
      ∧ ∃ error, Fails FileStore.disk strayTable textured texturedStore error
        ∧ ∃ outcome, run FileStore.disk strayTable false texturedStore = (outcome, texturedStore)
          ∧ outcome.status = 1 ∧ outcome.stdout = ""
          ∧ outcome = report strayTable false (error.toDiagnostic strayTable.input) := by
  have hread : (FileStore.disk.read strayTable.input texturedStore).1 = .ok textured.toUTF8 := rfl
  have hsource : String.fromUTF8? textured.toUTF8 = some textured := rfl
  have hstops : (produce FileStore.disk strayTable textured texturedStore).1.toOption = none := by
    decide +kernel
  cases hresult : (produce FileStore.disk strayTable textured texturedStore).1 with
  | ok text => simp [hresult, Except.toOption] at hstops
  | error error =>
    have hfails := produce_error_iff.mp hresult
    exact ⟨FileStore.disk_steady, hread, hsource, error, hfails,
      run_of_fails FileStore.disk_steady hread hsource hfails false⟩

end Command

end KernelPrep
