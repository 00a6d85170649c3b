/-
  KernelPrep.Proofs.Texture.Platforms — one source, lowered for two platforms.

  What is found in a source does not depend on the platform, and neither does how the lowering
  of it ends: no edit looks at the words it puts in.  The runs differ in the words of the types
  and of kernel parameters, and in the lines of variables and bindings.  Without those lines,
  and with those words translated, the tokens of one run are those of the other.

  Main definitions:
    * `KernelTextures.unbound` — a kernel without what its parameters are bound to;
    * `Lowering.Alike`         — what is the same in two runs.

  Main statements:
    * `Lowering.run_withConfig`         — both runs fail with one error, or both go through;
    * `Lowering.Sewn.translated_kept`   — the tokens kept, in the words of another platform;
    * `Texture.pass_alike`              — a source, lowered for two platforms.
-/
import KernelPrep.Proofs.Texture.Ledger
import KernelPrep.Proofs.Texture.Translation

namespace KernelPrep

open Weave (Declared)

/-! ## §1. What does not depend on the platform -/

/-- **A source is loaded** for all platforms if it is for one. -/
theorem Document.load_withConfig {config : Config} {source : String} {doc : Document}
    (h : Document.load config source = .ok doc) (config' : Config) :
    Document.load config' source = .ok (doc.withConfig config') := by
  obtain ⟨hlex, hparse, -, hnewline⟩ := Document.load_ok h
  refine Step.except_bind_ok.mpr ⟨doc.tokens, Step.mapError_ok.mpr hlex,
    Step.except_bind_ok.mpr ⟨doc.tree, Step.mapError_ok.mpr hparse, ?_⟩⟩
  rw [← hnewline]
  rfl

/-- What is wrong with a source is wrong on all platforms. -/
theorem Document.load_error {config : Config} {source : String} {error : ProcessError}
    (h : Document.load config source = .error error) (config' : Config) :
    Document.load config' source = .error error := by
  unfold Document.load at h ⊢
  rcases Step.except_bind_error.mp h with hlex | ⟨tokens, hlex, h⟩
  · exact Step.except_bind_error.mpr (Or.inl hlex)
  · rcases Step.except_bind_error.mp h with hparse | ⟨tree, -, h⟩
    · exact Step.except_bind_error.mpr (Or.inr ⟨tokens, hlex,
        Step.except_bind_error.mpr (Or.inl hparse)⟩)
    · exact Except.noConfusion rfl rfl (heq_of_eq h)

/-- What is found does not depend on the configuration. -/
theorem Occurrence.findAll_withConfig (doc : Document) (config : Config) :
    findAll (doc.withConfig config) = findAll doc := by
  have hcontext : ∀ node, paramContext (doc.withConfig config) node = paramContext doc node :=
    fun _ => rfl
  have hscan : scan (doc.withConfig config) = scan doc :=
    funext fun node => scanFrom_congr (hcontext node) _ _ _
  unfold findAll
  rw [hscan]
  rfl

theorem Weave.declareAll_withConfig (doc : Document) (config : Config)
    (groups : List (List Occurrence)) :
    declareAll (doc.withConfig config) groups = declareAll doc groups := rfl

/-! ## §2. How both runs end -/

namespace Lowering

variable {doc : Document} {found : List Occurrence} {types : List Declared}
  {config : Config} {source : String}

/-- **How the lowering of the uses found ends**, said without the platform. -/
theorem run_ends [ContentHash] (hload : Document.load config source = .ok doc)
    (hfound : Occurrence.findAll doc = .ok found)
    (htypes : types = Weave.declareAll doc (Occurrence.groupAll doc.tokens found)) :
    (Apart doc (Weave.uses types) ∧ ∃ state, Finished doc found types state)
      ∨ ∃ inner, Stops doc (Weave.uses types) inner
        ∧ ∃ state, run doc = (.error (.ofSplice (.missing inner.2.keyword)), state) := by
  have h₀ := Document.load_loaded hload
  have hdiscover : Occurrence.discover doc = .ok (Occurrence.groupAll doc.tokens found) := by
    rw [Occurrence.discover_eq, hfound]
    rfl
  have hstart : Stage doc (fun _ => []) [] [] [] { document := doc } :=
    Stage.start ((Fabric.start h₀).congr (Weave.weft_start doc _) rfl)
  obtain ⟨hrefs, hcases⟩ := lowerAll_cases h₀ hstart hdiscover hdiscover htypes
  rcases hcases with ⟨hapart, state, hok, hstage⟩ | ⟨inner, hstops, state, herror⟩
  · refine Or.inl ⟨hapart, state, ?_, ⟨⟨config, source, hload⟩, hfound, htypes, hrefs⟩, hstage⟩
    unfold run
    rw [hok]
  · refine Or.inr ⟨inner, hstops, state, ?_⟩
    unfold run
    rw [herror]

/-- **Both runs** fail with one error, or both go through with the same types. -/
theorem run_withConfig [ContentHash] (hload : Document.load config source = .ok doc)
    (config' : Config) :
    (∃ error state state', run doc = (.error error, state)
        ∧ run (doc.withConfig config') = (.error error, state'))
      ∨ ∃ found types state state', Finished doc found types state
        ∧ Finished (doc.withConfig config') found types state' := by
  have hload' := Document.load_withConfig hload config'
  have hfind := Occurrence.findAll_withConfig doc config'
  cases hfound : Occurrence.findAll doc with
  | error error =>
    rw [hfound] at hfind
    exact Or.inl ⟨error, _, _, run_error hfound, run_error hfind⟩
  | ok found =>
    rw [hfound] at hfind
    have hends := run_ends hload hfound rfl
    have hends' := run_ends hload' hfind (Weave.declareAll_withConfig doc config' _).symm
    -- where the uses lie is the same in both documents
    rcases hends with ⟨hapart, state, hfinished⟩ | ⟨inner, hstops, state, herror⟩
    · rcases hends' with ⟨-, state', hfinished'⟩ | ⟨inner', hstops', -⟩
      · exact Or.inr ⟨found, _, state, state', hfinished, hfinished'⟩
      · exact absurd hapart hstops'.not_apart
    · rcases hends' with ⟨hapart', -⟩ | ⟨inner', hstops', state', herror'⟩
      · exact absurd hapart' hstops.not_apart
      · obtain rfl := hstops.unique hstops'
        exact Or.inl ⟨_, state, state', herror, herror'⟩

end Lowering

/-! ## §3. Types and kernels -/

/-- A kernel without what its parameters are bound to. -/
def KernelTextures.unbound (kernel : KernelTextures) : KernelTextures :=
  { kernel with params := kernel.params.map fun param => { param with binding := "" } }

namespace Lowering

/-- The kernels without what their parameters are bound to. -/
def unbound (kernels : List (NodeId × KernelTextures)) : List (NodeId × KernelTextures) :=
  kernels.map fun kernel => (kernel.1, kernel.2.unbound)

/-- Without bindings a parameter is entered as it is with them. -/
theorem unbound_addParam (function : NodeId) (name : String) (param : BoundParam)
    (kernels : List (NodeId × KernelTextures)) :
    unbound (addParam function name param kernels)
      = addParam function name { param with binding := "" } (unbound kernels) := by
  induction kernels with
  | nil => rfl
  | cons kernel rest ih =>
    obtain ⟨id, entry⟩ := kernel
    unfold addParam
    by_cases hid : id = function
    · simp [hid, unbound, KernelTextures.unbound]
    · simp only [if_neg hid, unbound, List.map_cons]
      exact congrArg _ ih

/-- What is entered for a use, the binding apart, does not depend on the platform. -/
theorem unbound_enter (p p' : Platform) (signature : Signature) (use : Occurrence)
    {kernels kernels' : List (NodeId × KernelTextures)} (h : unbound kernels = unbound kernels') :
    unbound (enter p signature use kernels) = unbound (enter p' signature use kernels') := by
  unfold enter
  cases Weave.kernel? use with
  | none => exact h
  | some kernel =>
    dsimp only
    rw [unbound_addParam, unbound_addParam, h]
    rfl

variable {doc : Document} {found : List Occurrence} {types : List Declared}
  {state state' : Lowering} {config : Config}

/-- **The kernels** of both runs, their bindings apart. -/
theorem Finished.unbound_kernels [ContentHash] (h : Finished doc found types state)
    (h' : Finished (doc.withConfig config) found types state') :
    unbound state.kernels = unbound state'.kernels := by
  have hfold : ∀ (p p' : Platform) (uses : List (Declared × Occurrence))
      (kernels kernels' : List (NodeId × KernelTextures)), unbound kernels = unbound kernels' →
      unbound (uses.foldl (fun kernels u => enter p u.1.signature u.2 kernels) kernels)
        = unbound (uses.foldl (fun kernels u => enter p' u.1.signature u.2 kernels) kernels') := by
    intro p p' uses
    induction uses with
    | nil => exact fun _ _ h => h
    | cons u rest ih => exact fun _ _ h => ih _ _ (unbound_enter p p' u.1.signature u.2 h)
  rw [run_kernels h.run h.stage.titles, run_kernels h'.run h'.stage.titles]
  exact hfold _ _ _ _ _ rfl

/-- The signatures, texel types and names of the types recorded are those declared. -/
theorem Finished.type_titles [ContentHash] (h : Finished doc found types state) :
    state.types.map (fun type => (type.signature, type.texel, type.name))
      = types.map fun type => (type.signature, type.texel, type.name) := by
  have hzip : ∀ {α : Type} (items : List α) (title : α → Signature × String × List Occurrence)
      (texel : α → String),
      items.map (fun item => ((title item).1, texel item, (title item).2.1))
        = ((items.map title).zip (items.map texel)).map fun pair =>
          (pair.1.1, pair.2, pair.1.2.1) := by
    intro α items title texel
    rw [List.zip_map', List.map_map]
    rfl
  have htitles := h.stage.titles
  have htexels := h.stage.texels
  calc state.types.map (fun type => (type.signature, type.texel, type.name))
      = ((state.types.map fun type => (type.signature, type.name, type.refs)).zip
          (state.types.map (·.texel))).map fun pair => (pair.1.1, pair.2, pair.1.2.1) :=
        hzip state.types (fun type => (type.signature, type.name, type.refs)) (·.texel)
    _ = _ := by
      rw [htitles, htexels]
      exact (hzip types (fun type => (type.signature, type.name, type.refs)) (·.texel)).symm

/-! ## §4. Tokens -/

namespace Sewn

variable {strand : TokenId → Strand} {run : Nat → List TokenId} {front back : TokenId → List Nat}
  {platform : Platform} {k : Nat} {t x : TokenId}

theorem types_le (doc : Document) (types : List Declared) :
    types.length ≤ (Weave.labels doc [] types (Weave.uses types)).length := by
  unfold Weave.labels
  simp

/-- A token of a run was put in. -/
theorem run_new [ContentHash] (h : Sewn doc found types state strand run front back)
    (hk : k < (Weave.labels doc [] types (Weave.uses types)).length) (hx : x ∈ run k) :
    x ∉ doc.tokens.ids := by
  obtain ⟨t, ht, -, hin⟩ := h.seams.exists_mem hk hx
  have hge := h.woven.laid.added t ht x hin
  rw [h.finished.grouped.loaded.unedited.mem_ids_iff]
  omega

/-- **The tokens that define types** are those of the first runs. -/
theorem isDefining_iff [ContentHash] (h : Sewn doc found types state strand run front back) :
    state.isDefining x = true ↔ ∃ k < types.length, x ∈ run k := by
  have hdeclared : state.types.map (·.declaration)
      = (List.range types.length).map fun i => ⟨doc.tree.nodes.size + i⟩ :=
    h.finished.stage.declarations
  have hany : state.isDefining x = (state.types.map (·.declaration)).any fun node =>
      (state.document.nodeTokens node).contains x := by
    rw [List.any_map]
    rfl
  rw [hany, hdeclared, List.any_map, List.any_eq_true]
  have hrun : ∀ k < types.length,
      state.document.nodeTokens ⟨doc.tree.nodes.size + k⟩ = run k := fun k hk =>
    h.seams.nodeTokens_eq h.woven.laid (Nat.lt_of_lt_of_le hk (types_le doc types))
  constructor
  · rintro ⟨k, hk, hin⟩
    have hlt := List.mem_range.mp hk
    exact ⟨k, hlt, by simpa [hrun k hlt] using hin⟩
  · rintro ⟨k, hk, hin⟩
    exact ⟨k, List.mem_range.mpr hk, by simpa [hrun k hk] using hin⟩

theorem platform_eq [ContentHash] (h : Sewn doc found types state strand run front back) :
    state.document.config.platform = doc.config.platform :=
  congrArg Config.platform h.woven.config

/-- The line ending of a file is no word. -/
theorem newline_notMem [ContentHash] (h : Sewn doc found types state strand run front back)
    (platform : Platform) : doc.newline ∉ platform.vocabulary.words := by
  have hnewline := h.finished.grouped.known.newline
  have hlf : Lexeme.lf ∈ Text.bytes doc.newline := by
    generalize Text.bytes doc.newline = bytes at hnewline
    cases hnewline with
    | lineFeed | carriageReturn => simp
  exact Platform.not_word_of_mem hlf (by decide)

/-- **The definition of a type**, in the words of another platform. -/
theorem translated_definition [ContentHash] (h : Sewn doc found types state strand run front back)
    (config : Config) (hk : k < types.length) {type : Declared}
    (hlabel : label doc types k = Weave.typeLine doc type) :
    translated doc state config.platform (run k) = Weave.typeLine (doc.withConfig config) type := by
  have hk' := Nat.lt_of_lt_of_le hk (types_le doc types)
  obtain ⟨before, after, hfile⟩ := h.seams.run_infix hk'
  rw [translated_run h.woven.laid.threaded hfile.symm (fun x hx => h.run_new hk' hx)
    (fun x hx => h.isDefining_iff.mpr ⟨k, hk, hx⟩), h.spells_run hk', hlabel, h.platform_eq]
  exact Weave.typeLine_translate (h.newline_notMem _) type config _

/-- The definitions before a token, in the words of another platform. -/
theorem translated_front [ContentHash] (h : Sewn doc found types state strand run front back)
    (config : Config) (ht : t ∈ doc.tokens.ids) :
    translated doc state config.platform (((front t).filter (· < types.length)).flatMap run)
      = (Weave.typesAt doc types t).flatMap (Weave.typeLine (doc.withConfig config)) := by
  -- the line of a type determines what it is translated to
  let line : Spelling → Spelling :=
    Spelling.translate doc.config.platform config.platform true none
  have hline : ∀ type, line (Weave.typeLine doc type)
      = Weave.typeLine (doc.withConfig config) type :=
    fun type => Weave.typeLine_translate (h.newline_notMem _) type config none
  have hrun : ∀ k ∈ (front t).filter (· < types.length),
      translated doc state config.platform (run k) = line (label doc types k) := by
    intro k hk
    obtain ⟨hin, hlt⟩ := List.mem_filter.mp hk
    have hlt := of_decide_eq_true hlt
    rcases label_cases ((h.bound ht).1 k hin) with ⟨-, type, -, hlabel⟩ | ⟨hge, -⟩
    · rw [h.translated_definition config hlt hlabel, hlabel, hline]
    · omega
  unfold translated at hrun ⊢
  rw [List.filterMap_flatMap, List.flatMap_congr hrun]
  calc ((front t).filter (· < types.length)).flatMap (fun k => line (label doc types k))
      = ((((front t).filter (· < types.length)).map (label doc types)).map line).flatten := by
        rw [List.map_map]
        rfl
    _ = (Weave.typesAt doc types t).flatMap (Weave.typeLine (doc.withConfig config)) := by
        rw [h.front_types ht, List.map_map]
        exact List.flatMap_congr fun type _ => hline type

/-- What was put in place of a token is no part of the file that was there, and is translated as
    a run of its own. -/
theorem translated_replaced [ContentHash] (h : Sewn doc found types state strand run front back)
    (config : Config) (ht : t ∈ doc.tokens.ids) (hgone : t ∉ (strand t).core) :
    ∃ next?, translated doc state config.platform (strand t).core
      = Spelling.translate doc.config.platform config.platform false next?
        (state.document.tokens.spells (strand t).core) := by
  have hpart : (strand t).core <:+: (strand t).ids := ⟨(strand t).lead, (strand t).trail, rfl⟩
  obtain ⟨before, after, hfile⟩ := hpart.trans (Strand.infix_lay ht)
  have hnew : ∀ x ∈ (strand t).core, x ∉ doc.tokens.ids := by
    intro x hx
    rcases h.woven.laid.core t ht with hself | hnew
    · exact absurd (hself ▸ List.mem_singleton_self t) hgone
    · have hge := hnew x hx
      rw [h.finished.grouped.loaded.unedited.mem_ids_iff]
      omega
  -- the lines of the types stand elsewhere
  have hdefining : ∀ x ∈ (strand t).core, state.isDefining x = false := by
    intro x hx
    rw [Bool.eq_false_iff, ne_eq, h.isDefining_iff]
    rintro ⟨k, hk, hin⟩
    exact h.seams.core_outside h.woven.laid ht hx
      (Nat.lt_of_lt_of_le hk (types_le doc types)) hin
  rw [← h.platform_eq]
  exact ⟨_, translated_run h.woven.laid.threaded hfile.symm hnew hdefining⟩

/-- **What stands in place of a token**, in the words of another platform. -/
theorem translated_core [ContentHash] (h : Sewn doc found types state strand run front back)
    (config : Config) (ht : t ∈ doc.tokens.ids) :
    translated doc state config.platform (strand t).core
      = Weave.body (doc.withConfig config) types t := by
  have hreads := h.woven.reads t ht
  have hcore? : (Weave.weft doc (fun _ => []) types (Weave.uses types) t).core?
      = Weave.core? doc (Weave.uses types) t := rfl
  unfold Weave.body
  cases hfind : (Weave.uses types).find? (·.2.keyword == t) with
  -- the keyword of a use stands for its replacement, the tokens behind it for nothing
  | some u =>
    have hhere : ∀ doc, Weave.core? doc (Weave.uses types) t
        = some (Weave.replacement doc u.1 u.2) := by
      intro doc
      unfold Weave.core?
      rw [hfind]
    rw [hhere] at hcore?
    obtain ⟨hgone, hspells⟩ := hreads.other _ hcore?
    obtain ⟨next?, htranslated⟩ := h.translated_replaced config ht hgone
    obtain ⟨n, hname⟩ := h.finished.grouped.known.made u.1
      (Lowering.mem_uses.mp (List.mem_of_find?_eq_some hfind)).1
    rw [hhere, htranslated, hspells, Option.getD_some]
    refine Weave.replacement_translate ?_ u.2 config next?
    rw [hname]
    exact Platform.typeName_notMem _ _
  | none =>
    have hhere : ∀ doc, Weave.core? doc (Weave.uses types) t
        = if (Weave.uses types).any fun u =>
            (doc.tokens.range (Weave.cut u.2)).contains t then some [] else none := by
      intro doc
      unfold Weave.core?
      rw [hfind]
    have hsame : Weave.core? (doc.withConfig config) (Weave.uses types) t
        = Weave.core? doc (Weave.uses types) t := (hhere _).trans (hhere doc).symm
    rw [hsame]
    rw [hhere] at hcore? ⊢
    split at hcore?
    · rename_i hcut
      obtain ⟨hgone, hspells⟩ := hreads.other _ hcore?
      obtain ⟨next?, htranslated⟩ := h.translated_replaced config ht hgone
      rw [if_pos hcut, htranslated, hspells]
      rfl
    -- a token that stands for itself is there on both platforms
    · rename_i hstands
      have hself := hreads.self hcore?
      rw [if_neg hstands, Option.getD_none, hself,
        translated_own fun x hx => (List.mem_singleton.mp hx).symm ▸ ht]
      refine TokenList.spells_congr fun x hx => ?_
      rw [List.mem_singleton.mp hx]
      exact h.woven.laid.face t ht hself

/-- **The tokens kept**, in the words of another platform. -/
theorem translated_kept [ContentHash] (h : Sewn doc found types state strand run front back)
    (config : Config) :
    translated doc state config.platform state.kept
      = doc.tokens.ids.flatMap fun t =>
        (Weave.typesAt doc types t).flatMap (Weave.typeLine (doc.withConfig config))
          ++ Weave.body (doc.withConfig config) types t := by
  rw [h.kept_eq]
  unfold translated
  rw [List.filterMap_flatMap]
  refine List.flatMap_congr fun t ht => ?_
  rw [List.filterMap_append]
  exact congrArg₂ (· ++ ·) (h.translated_front config ht) (h.translated_core config ht)

end Sewn

/-- **Where no variables are needed**, the lowered file is made of the definitions and of what
    stands in place of the tokens. -/
theorem Finished.spells_plain [ContentHash] (h : Finished doc found types state)
    (hplain : doc.config.platform.bindsGlobals = false) :
    state.document.tokens.spells state.document.tokens.ids
      = doc.tokens.ids.flatMap fun t =>
        (Weave.typesAt doc types t).flatMap (Weave.typeLine doc) ++ Weave.body doc types t := by
  obtain ⟨strand, hwoven, -⟩ := h.stage.fabric
  have hlines : ∀ mark line t, Weave.kernelLines doc mark line (Weave.uses types) t = [] := by
    intro mark line t
    unfold Weave.kernelLines
    rw [hplain]
    rfl
  rw [hwoven.spells_eq]
  refine List.flatMap_congr fun t _ => ?_
  unfold Weave.weft Weft.spelling
  rw [hlines, hlines]
  simp only [List.nil_append, List.append_nil]
  rfl

/-! ## §5. One source for two platforms -/

/-- What is the same when the document was lowered for one platform and for another one that
    needs no variables: the types, the kernels but for their bindings, and the tokens, where
    the lines for kernels are taken out and the words of the platform are translated. -/
structure Alike (doc : Document) (state state' : Lowering) : Prop where
  types : state.types.map (fun type => (type.signature, type.texel, type.name))
    = state'.types.map fun type => (type.signature, type.texel, type.name)
  kernels : unbound state.kernels = unbound state'.kernels
  tokens : translated doc state state'.document.config.platform state.kept
    = state'.document.tokens.spells state'.document.tokens.ids

/-- Two finished runs over one document, for two platforms, are alike. -/
theorem Finished.alike [ContentHash] (h : Finished doc found types state)
    (h' : Finished (doc.withConfig config) found types state')
    (hplain : config.platform.bindsGlobals = false) : Alike doc state state' := by
  obtain ⟨strand, run, front, back, hsewn⟩ := h.exists_sewn
  have hplatform : state'.document.config.platform = config.platform :=
    congrArg Config.platform h'.stage.fabric.config
  refine ⟨h.type_titles.trans h'.type_titles.symm, h.unbound_kernels h', ?_⟩
  rw [hplatform, hsewn.translated_kept config]
  exact (h'.spells_plain hplain).symm

end Lowering

/-- **A source, lowered for CUDA and for OpenCL**: it cannot be loaded for either, both runs fail
    with one error, or both go through and their results are alike. -/
theorem Texture.pass_alike [ContentHash] {config config' : Config}
    (hplatform : config.platform = .cuda)
    (hplatform' : config'.platform = .openCl) (htable : config.tablePath? = none)
    (htable' : config'.tablePath? = none) (source : String) :
    (∃ error, Document.load config source = .error error
        ∧ Document.load config' source = .error error)
      ∨ ∃ doc doc', Document.load config source = .ok doc ∧ Document.load config' source = .ok doc'
        ∧ ((∃ error left left', (Texture.pass config).run doc = .error error left
              ∧ (Texture.pass config').run doc' = .error error left')
          ∨ ∃ cuda openCl, Lowering.run doc = (.ok (), cuda)
            ∧ Lowering.run doc' = (.ok (), openCl)
            ∧ cuda.document.config.platform = .cuda ∧ openCl.document.config.platform = .openCl
            ∧ (Texture.pass config).run doc = .ok none cuda.document
            ∧ (Texture.pass config').run doc' = .ok none openCl.document
            ∧ Lowering.Alike doc cuda openCl) := by
  have hplain : config'.platform.bindsGlobals = false := by
    rw [hplatform']
    rfl
  cases hload : Document.load config source with
  | error error => exact Or.inl ⟨error, rfl, Document.load_error hload config'⟩
  | ok doc =>
    refine Or.inr ⟨doc, doc.withConfig config', rfl, Document.load_withConfig hload config', ?_⟩
    unfold Texture.pass
    rw [htable, htable']
    dsimp only
    rcases Lowering.run_withConfig hload config' with
      ⟨error, state, state', hrun, hrun'⟩ | ⟨found, types, cuda, openCl, hcuda, hopenCl⟩
    · rw [hrun, hrun']
      exact Or.inl ⟨error, _, _, rfl, rfl⟩
    · have hkept : cuda.document.config.platform = config.platform :=
        congrArg Config.platform (hcuda.stage.fabric.config.trans (Document.load_ok hload).2.2.1)
      have hkept' : openCl.document.config.platform = config'.platform :=
        congrArg Config.platform hopenCl.stage.fabric.config
      rw [hcuda.run, hopenCl.run]
      exact Or.inr ⟨cuda, openCl, rfl, rfl, hkept.trans hplatform, hkept'.trans hplatform', rfl,
        rfl, hcuda.alike hopenCl hplain⟩

/-- A texel type with the name of a read mode: it is left as it is, and the read mode behind it
    is translated. -/
theorem Texture.pass_alike_readModeTexel :
    ∃ doc cuda openCl, Document.load {}
        "kernel void k(Texture2Du<cudaReadModeElementType> a) \x7b \x7d" = .ok doc
      ∧ Lowering.run doc = (.ok (), cuda)
      ∧ Lowering.run (doc.withConfig { platform := .openCl }) = (.ok (), openCl)
      ∧ (cuda.kept.length, cuda.document.tokens.ids.length) = (34, 56)
      ∧ ((Lowering.translated doc cuda .openCl cuda.kept).filter (·.1 == .symbol)).map (·.2)
        = ["__kpp_cl_texture_type", "cudaReadModeElementType", "__kpp_cl_read_raw",
          "__TextureTypeName_0__", "kernel", "void", "k", "__kpp_cl_kernel_texture_raw", "a"]
      ∧ Lowering.Alike doc cuda openCl := by
  -- only the run for CUDA is evaluated: the theorem gives the other one
  obtain ⟨doc, state, hload, hrun, hvalue⟩ := Lowering.run_of_eval {}
    "kernel void k(Texture2Du<cudaReadModeElementType> a) \x7b \x7d"
    (fun doc state => ((state.kept.length, state.document.tokens.ids.length),
      ((Lowering.translated doc state .openCl state.kept).filter (·.1 == .symbol)).map (·.2)))
    ((34, 56), ["__kpp_cl_texture_type", "cudaReadModeElementType", "__kpp_cl_read_raw",
      "__TextureTypeName_0__", "kernel", "void", "k", "__kpp_cl_kernel_texture_raw", "a"])
    (by decide +kernel)
  obtain ⟨hkept, hwords⟩ := Prod.mk.inj hvalue
  have hcuda : ({} : Config).platform = .cuda := rfl
  have hopenCl : ({ platform := .openCl } : Config).platform = .openCl := rfl
  rcases Texture.pass_alike hcuda hopenCl rfl rfl
      "kernel void k(Texture2Du<cudaReadModeElementType> a) \x7b \x7d" with
    ⟨error, herror, -⟩ | ⟨doc₁, doc', hdoc, hdoc', hruns⟩
  · rw [hload] at herror
    simp at herror
  rw [hload] at hdoc
  obtain rfl := Except.ok.inj hdoc
  rw [Document.load_withConfig hload] at hdoc'
  obtain rfl := Except.ok.inj hdoc'
  rcases hruns with
    ⟨error, left, left', herror, -⟩ | ⟨cuda, openCl, hcuda, hopenCl, -, -, -, -, halike⟩
  · unfold Texture.pass at herror
    dsimp only at herror
    rw [hrun] at herror
    simp at herror
  · rw [hrun] at hcuda
    obtain ⟨-, rfl⟩ := Prod.mk.inj hcuda
    exact ⟨doc, state, openCl, hload, hrun, hopenCl, hkept, hwords, halike⟩

end KernelPrep
