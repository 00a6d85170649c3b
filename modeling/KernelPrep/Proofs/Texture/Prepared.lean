/-
  KernelPrep.Proofs.Texture.Prepared — the text of a prepared file.

  Preparing a file runs two passes over it: the header is included before its first
  construct, and the textures are lowered in what came of that.  The line put first moves no
  use of a texture, so both passes together weave into the loaded file what is read off the
  loaded file alone.

  Main statements:
    * `Prologue.insert_ok` — the header;
    * `Lowering.run_stage` — lowering behind the header;
    * `process_text`       — the text of the prepared file.
-/
import KernelPrep.Proofs.Session
import KernelPrep.Proofs.Texture.Lowered
import KernelPrep.Proofs.Texture.Preface
import KernelPrep.Token.FxHash

namespace KernelPrep

open NodeTree (Below Forest root)
open Weave (Declared)

/-! ## §1. Before any edit -/

/-- A loaded document is the fabric of its tokens, with nothing woven in. -/
theorem Fabric.start {doc : Document} (h : Loaded doc) :
    Fabric doc doc (fun _ => Weft.bare) [] [] := by
  refine ⟨Strand.whole, Woven.start h, ⟨?_, ?_, ?_⟩, Labelled.start doc⟩
  · intro function body id _ _ _
    rfl
  · intro function node hlookup
    simp at hlookup
  · intro id _ x hx
    simp [Strand.whole] at hx

/-- What stands at a token when nothing is lowered yet. -/
theorem Weave.weft_start (doc : Document) (head : TokenId → Spelling) (id : TokenId) :
    Weave.weft doc head [] [] id = { Weft.bare with lead := head id } := by
  unfold Weave.weft
  rw [Weave.kernelLines_nil, Weave.kernelLines_nil]
  simp [Weave.typeLines, Weave.core?, Weft.bare]

/-! ## §2. The header -/

namespace Prologue

/-- The pieces of the line that includes a header. -/
def pieces (header : String) : List Piece :=
  [.punct .hash, .symbol "include", .space, .string header, .eol]

/-- The lines that are there before the textures are lowered. -/
def lines (doc : Document) : List Spelling :=
  match doc.tree.firstChild? root with
  | some _ => [Weave.spelled doc (pieces doc.config.prologue)]
  | none => []

/-- A run that is added changes the token list only. -/
theorem addRun_inv {doc doc' : Document} {line : Nat} {pieces : List Piece}
    {run? : Option TokenRange} (h : Edit.addRun line pieces doc = .ok run? doc') :
    doc.tokens.addRun line doc.newline pieces = .ok (run?, doc'.tokens)
      ∧ doc'.tree = doc.tree := by
  unfold Edit.addRun at h
  split at h
  · rename_i tokens hadd
    obtain ⟨rfl, rfl⟩ := EStateM.Result.ok.inj h
    exact ⟨hadd, rfl⟩
  · simp at h

/-- A run put before the first construct is put before the first significant token. -/
theorem prefaced_of_insertBefore {doc doc₁ doc' : Document} {construct node : NodeId}
    {range run : TokenRange} {pieces : List Piece} {line : Nat} (h₀ : Loaded doc)
    (hfirst : doc.tree.firstChild? root = some construct)
    (hrange : doc.tree.tokens? construct = some range)
    (hsignificant : doc.tokens.ids.find? doc.tokens.isSignificant = some range.first)
    (hne : pieces.flatMap (·.spell doc.newline) ≠ [])
    (hadd : Edit.addRun line pieces doc = .ok (some run) doc₁)
    (hinsert : Edit.insertBefore construct run doc₁ = .ok node doc') :
    ∃ before new after, Prefaced doc doc' before new range.first after := by
  obtain ⟨hrun, htree⟩ := addRun_inv hadd
  obtain ⟨run', ids, he, hnew⟩ := TokenList.addRun_ok h₀.threaded h₀.unedited.loose hrun hne
  obtain rfl := Option.some.inj he
  have hlaid := (Laid.start h₀.unedited).newRun h₀.unedited (Strand.lay_whole _).symm hnew
  have hparent : doc₁.tree.parent? construct = some root := by
    rw [htree, h₀.forest.parent_iff]
    refine List.mem_of_head? ?_
    rw [← h₀.forest.first]
    exact hfirst
  obtain ⟨range', splice, hrange', hlink, -, -, -, hsprouted⟩ :=
    Edit.insertBefore_sprouted (htree ▸ h₀.forest) hparent hinsert
  rw [htree, hrange] at hrange'
  obtain rfl := Option.some.inj hrange'
  have hid : range.first ∈ doc.tokens.ids := List.mem_of_find?_eq_some hsignificant
  obtain ⟨new, -, hlaid', hface⟩ := hlaid.insertBefore h₀.unedited hid rfl hlink
  obtain ⟨before, after, hsplit⟩ := List.append_of_mem hid
  have hthread := hlaid'.threaded
  have hnodup := h₀.threaded.nodup
  rw [hsplit] at hnodup
  rw [hsplit, Strand.lay_update hnodup, Strand.lay_whole, Strand.lay_whole] at hthread
  refine ⟨before, new, after, hsplit, by simpa [Strand.ids, Strand.whole] using hthread, ?_, ?_,
    List.find?_some hsignificant, run, ?_⟩
  · intro x hx
    rw [hface, hnew.face x (h₀.unedited.mem_ids_iff.mp hx)]
  · intro x hx
    -- the first significant token stands behind the others
    obtain ⟨-, a, b, hab, hall⟩ := List.find?_eq_some_iff_append.mp hsignificant
    rw [hsplit] at hab
    obtain ⟨rfl, -⟩ := append_cons_unique hnodup hab
    simpa using hall x hx
  · rw [htree] at hsprouted
    refine hsprouted.mono fun x hx => ?_
    by_contra hxroot
    exact h₀.forest.not_below_root hxroot hx

/-- **Including the header** goes through, puts its line before the first significant token and
    leaves the uses of textures as they were. -/
theorem insert_ok [ContentHash] {doc : Document} (h₀ : Loaded doc) :
    ∃ doc', insert doc.config.prologue doc = .ok () doc'
      ∧ Fabric doc doc' (Weave.weft doc (Weave.includeLine doc) [] []) [] (lines doc)
      ∧ Occurrence.discover doc' = Occurrence.discover doc := by
  unfold insert lines
  rw [Step.bind_get]
  cases hfirst : doc.tree.firstChild? root with
  -- in a file without constructs nothing is put in
  | none =>
    refine ⟨doc, rfl, (Fabric.start h₀).congr (fun id => ?_) rfl, rfl⟩
    rw [Weave.weft_start, Weave.includeLine, h₀.no_construct hfirst]
    rfl
  | some construct =>
    obtain ⟨hscope, range, hrange, hsignificant⟩ := h₀.first_construct hfirst
    have hstarts : doc.Starts construct range.first := ⟨range, hrange, rfl⟩
    have hne : (pieces doc.config.prologue).flatMap (·.spell doc.newline) ≠ [] := by
      simp [pieces, Piece.spell]
    obtain ⟨run, doc₁, hadd, hfabric₁, hready⟩ := (Fabric.start h₀).newRun h₀
      (((doc.tree.tokens? construct).map (doc.tokens.lineOf ·.first)).getD 1) _ hne
    -- making the run leaves the tree alone
    have hnow : doc₁.Starts construct range.first := by
      unfold Document.Starts
      rw [(addRun_inv hadd).2]
      exact hstarts
    obtain ⟨doc₂, hinsert, hfabric₂⟩ := hfabric₁.insertBefore h₀ hscope hstarts hnow rfl hready
    obtain ⟨before, new, after, hprefaced⟩ :=
      prefaced_of_insertBefore h₀ hfirst hrange hsignificant hne hadd hinsert
    refine ⟨doc₂, ?_, hfabric₂.congr (fun id => ?_) rfl, hprefaced.discover_eq h₀⟩
    · dsimp only
      rw [show [Piece.punct .hash, .symbol "include", .space, .string doc.config.prologue, .eol]
        = pieces doc.config.prologue from rfl, Step.bind_of_ok hadd]
      dsimp only
      rw [Step.bind_of_ok hinsert]
      rfl
    · rw [Weave.weft_start]
      unfold Weave.includeLine
      rw [hsignificant]
      by_cases hid : id = range.first
      · rw [hid, if_pos rfl, Function.update_self]
        rfl
      · rw [if_neg (by simpa using Ne.symm hid), Function.update_of_ne hid]
        rfl

end Prologue

/-! ## §3. Both passes -/

namespace Lowering

theorem Stage.start {doc₀ doc : Document} {head : TokenId → Spelling} {pre : List Spelling}
    (h : Fabric doc₀ doc (Weave.weft doc₀ head [] []) [] pre) :
    Stage doc₀ head pre [] [] { document := doc } where
  fabric := h.congr (fun _ => rfl) (by simp [Weave.labels])
  titles := rfl
  texels := rfl
  declarations := rfl

/-- **Lowering behind the header**, if it goes through: no use begins inside of one before it,
    and all of them are done. -/
theorem run_stage [ContentHash] {doc₀ doc : Document} {head : TokenId → Spelling}
    {pre : List Spelling}
    {state : Lowering} (h₀ : Loaded doc₀)
    (h : Fabric doc₀ doc (Weave.weft doc₀ head [] []) [] pre)
    (hdiscover : Occurrence.discover doc = Occurrence.discover doc₀)
    (hrun : run doc = (.ok (), state)) :
    ∃ groups, Occurrence.discover doc₀ = .ok groups
      ∧ (Weave.declareAll doc₀ groups).map (·.refs) = groups
      ∧ Apart doc₀ (Weave.uses (Weave.declareAll doc₀ groups))
      ∧ Stage doc₀ head pre (Weave.declareAll doc₀ groups)
        (Weave.uses (Weave.declareAll doc₀ groups)) state := by
  unfold run at hrun
  -- a run that succeeds found its uses, and got past each of them
  cases hgroups : Occurrence.discover doc₀ with
  | error e =>
    have hfail : lowerAll { document := doc } = .error e { document := doc } := by
      unfold lowerAll
      rw [Step.bind_get]
      dsimp only
      rw [hdiscover, hgroups]
      rfl
    rw [hfail] at hrun
    simp at hrun
  | ok groups =>
    obtain ⟨hrefs, hcases⟩ :=
      lowerAll_cases h₀ (Stage.start h) (hdiscover.trans hgroups) hgroups rfl
    refine ⟨groups, rfl, hrefs, ?_⟩
    rcases hcases with ⟨hapart, state', hok, hstage⟩ | ⟨inner, -, state', herror⟩
    · rw [hok] at hrun
      obtain ⟨-, rfl⟩ := Prod.mk.inj hrun
      exact ⟨hapart, hstage⟩
    · rw [herror] at hrun
      simp at hrun

/-- What comes of lowering behind the header, if it goes through. -/
theorem run_text [ContentHash] {doc₀ doc : Document} {head : TokenId → Spelling}
    {pre : List Spelling}
    {state : Lowering} (h₀ : Loaded doc₀)
    (h : Fabric doc₀ doc (Weave.weft doc₀ head [] []) [] pre)
    (hdiscover : Occurrence.discover doc = Occurrence.discover doc₀)
    (hrun : run doc = (.ok (), state)) :
    ∃ groups, Occurrence.discover doc₀ = .ok groups
      ∧ (Weave.declareAll doc₀ groups).map (·.refs) = groups
      ∧ Stage doc₀ head pre (Weave.declareAll doc₀ groups)
        (Weave.uses (Weave.declareAll doc₀ groups)) state := by
  obtain ⟨groups, hgroups, hrefs, -, hstage⟩ := run_stage h₀ h hdiscover hrun
  exact ⟨groups, hgroups, hrefs, hstage⟩

end Lowering

theorem Prologue.pass_run {doc doc' : Document} {header : String}
    (h : Prologue.insert header doc = .ok () doc') {config : Config}
    (hheader : config.prologue = header) :
    (Prologue.pass config).run doc = .ok none doc' := by
  unfold Prologue.pass
  rw [hheader]
  exact Step.bind_of_ok h

/-- A texture pass that succeeds is a run that does. -/
theorem Texture.pass_run [ContentHash] {config : Config} {doc doc' : Document}
    {table? : Option TableFile}
    (h : (Texture.pass config).run doc = .ok table? doc') :
    ∃ state, Lowering.run doc = (.ok (), state) ∧ state.document = doc' := by
  unfold Texture.pass at h
  dsimp only at h
  split at h
  · rename_i state hrun
    exact ⟨state, hrun, (EStateM.Result.ok.inj h).2⟩
  · simp at h

section Process

variable {σ : Type} {disk : Disk (StateM σ)} {s s' : σ}

/-- **Preparing a file that goes through** lowers the textures of the loaded file behind the
    header, and yields the text of what comes of that. -/
theorem process_lowers [ContentHash] {config : Config} {source text : String}
    (h : (process disk config source).run s = (.ok text, s')) :
    ∃ doc doc₁ state, Document.load config source = .ok doc
      ∧ Fabric doc doc₁ (Weave.weft doc (Weave.includeLine doc) [] []) [] (Prologue.lines doc)
      ∧ Occurrence.discover doc₁ = Occurrence.discover doc
      ∧ Lowering.run doc₁ = (.ok (), state) ∧ text = state.document.text := by
  cases hload : Document.load config source with
  | error error =>
    have hresult : Except.error error = Except.ok text :=
      congrArg (·.1) ((process_load_error hload).symm.trans h)
    simp at hresult
  | ok doc =>
    have h₀ := Document.load_loaded hload
    -- the two passes, one after the other
    obtain ⟨doc', t, hpasses, htext⟩ : ∃ doc' t,
        Session.runPasses disk [Prologue.pass doc.config, Texture.pass doc.config] doc s
          = ((.ok (), doc'), t) ∧ text = doc'.text := by
      have hprocess := (process_loaded hload).symm.trans h
      rcases hrun : Session.runPasses disk (Registry.builtin.instantiate doc.config) doc s
        with ⟨⟨result, doc'⟩, t⟩
      rw [hrun] at hprocess
      cases result with
      | error error =>
        have hresult : Except.error error = Except.ok text := congrArg (·.1) hprocess
        simp at hresult
      | ok u =>
        have hresult : Except.ok doc'.text = Except.ok text := congrArg (·.1) hprocess
        exact ⟨doc', t, hrun, (Except.ok.inj hresult).symm⟩
    obtain ⟨header?, doc₁, t₁, hfirst, hpasses⟩ := Session.runPasses_cons hpasses
    obtain ⟨table?, doc₂, t₂, hsecond, hpasses⟩ := Session.runPasses_cons hpasses
    obtain rfl : doc₂ = doc' := congrArg (·.1.2) hpasses
    obtain ⟨doc₁', hinsert, hfabric, hdiscover⟩ := Prologue.insert_ok h₀
    rw [Prologue.pass_run hinsert rfl] at hfirst
    obtain ⟨-, rfl⟩ := EStateM.Result.ok.inj hfirst
    obtain ⟨state, hrun, rfl⟩ := Texture.pass_run hsecond
    exact ⟨doc, doc₁', state, rfl, hfabric, hdiscover, hrun, htext⟩

/-- **The text of a prepared file** is that of the loaded one, token by token, with what stands
    before, in place of and behind each of them. -/
theorem process_text [ContentHash] {config : Config} {source text : String}
    (h : (process disk config source).run s = (.ok text, s')) :
    ∃ doc groups, Document.load config source = .ok doc
      ∧ Occurrence.discover doc = .ok groups ∧ text = Weave.text doc groups := by
  obtain ⟨doc, doc₁, state, hload, hfabric, hdiscover, hrun, htext⟩ := process_lowers h
  obtain ⟨groups, hgroups, -, hstage⟩ :=
    Lowering.run_text (Document.load_loaded hload) hfabric hdiscover hrun
  obtain ⟨strand, hwoven, -⟩ := hstage.fabric
  refine ⟨doc, groups, hload, hgroups, ?_⟩
  rw [htext]
  unfold Weave.text
  rw [Weave.spelling_eq, ← hwoven.spells_eq, TokenList.text_spells]
  rfl

end Process

/-- A kernel with one texture: a line for the header, one for the type and one for the variable
    come before it, its parameter becomes a word of the platform, and the binding follows the
    brace. -/
theorem process_text_kernel :
    ∃ doc groups, Document.load {} "kernel void k(Texture2Du<float> a) \x7b\x7d" = .ok doc
      ∧ Occurrence.discover doc = .ok groups
      ∧ "#include \"kpp/prologue_cuda.h\"\n" ++
          "typedef __kpp_cuda_texture_type(float, 2, cudaReadModeElementType) " ++
          "__TextureTypeName_0__;\n" ++
          "__kpp_cuda_texture_global(__TextureTypeName_0__, __TextureVar_k_a__);\n" ++
          "kernel void k(__kpp_cuda_kernel_texture_raw(2, a)) \x7b\n" ++
          "    __kpp_cuda_texture_bind(__TextureTypeName_0__, a, __TextureVar_k_a__);\x7d"
        = Weave.text doc groups := by
  let disk : Disk (StateM Unit) :=
    ⟨fun _ => pure (.error .notFound), fun _ _ => pure (.ok ())⟩
  have heval : ((process disk {} "kernel void k(Texture2Du<float> a) \x7b\x7d").run ()).1.toOption
      = some ("#include \"kpp/prologue_cuda.h\"\n" ++
          "typedef __kpp_cuda_texture_type(float, 2, cudaReadModeElementType) " ++
          "__TextureTypeName_0__;\n" ++
          "__kpp_cuda_texture_global(__TextureTypeName_0__, __TextureVar_k_a__);\n" ++
          "kernel void k(__kpp_cuda_kernel_texture_raw(2, a)) \x7b\n" ++
          "    __kpp_cuda_texture_bind(__TextureTypeName_0__, a, __TextureVar_k_a__);\x7d") := by
    decide +kernel
  cases hrun : (process disk {} "kernel void k(Texture2Du<float> a) \x7b\x7d").run () with
  | mk result t =>
    rw [hrun] at heval
    cases result with
    | error error => simp [Except.toOption] at heval
    | ok text =>
      rw [← Option.some.inj heval]
      exact process_text hrun

end KernelPrep
