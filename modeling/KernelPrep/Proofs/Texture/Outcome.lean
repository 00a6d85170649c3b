/-
  KernelPrep.Proofs.Texture.Outcome — how the lowering of textures ends.

  All uses are found before anything is changed.  Finding them fails only for what is written
  in a use: that a kernel has a name is never missed, since its first word would do.  Once
  they are found every type can be declared, and a use takes its form unless its keyword went
  with another use before it.  That happens when one use begins inside of another, as in the
  parameters of a kernel when a comma is missing between two of them.

  Main definitions:
    * `PassFault.isMalformed`  — what is wrong with a use as it is written;
    * `Occurrence.Overlapping` — one use begins inside of another;
    * `Lowering.runByType`     — lowering that can be evaluated.

  Main statements:
    * `Loaded.exists_functionName`  — every kernel has a name;
    * `Occurrence.findAll_error`    — why uses are not found;
    * `Texture.pass_outcome`        — how the pass ends.
-/
import KernelPrep.Proofs.Texture.Prepared
import KernelPrep.Proofs.Token.Lexing

namespace KernelPrep

open NodeTree (Below root)
open Step (except_bind_error mapError_error)

/-! ## §1. The names of kernels -/

namespace Loaded

variable {doc : Document} {function : NodeId}

/-- The first word of a kernel is a symbol. -/
theorem kernel_starts (h : Loaded doc)
    (hreads : (doc.tokens.spells doc.tokens.ids).Reads [])
    (hkernel : Outline.isKernel doc.tokens doc.tree function = true) :
    doc.Plain function ∧ doc.tree.kind? function ≠ some .statement
      ∧ ∃ range, doc.tree.tokens? function = some range
        ∧ doc.tokens.kind? range.first = some .symbol := by
  obtain ⟨kind, range, hkind, hfunction, hrange, hword⟩ := isKernel_inv hkernel
  obtain ⟨hplain, hstatement⟩ := h.plain_of_isFunction hkind hfunction
  refine ⟨hplain, hstatement, range, hrange, ?_⟩
  have hfirst := (h.starts hplain.below hplain.ne_root ⟨range, hrange, rfl⟩).1
  have hsymbol : ∀ word ∈ ["kernel", "__kernel", "__global__", "extern"],
      Lexeme.isIdentStart ((Text.bytes word).headD 0) = true
        ∧ (TokenKind.keyword? word).getD .symbol = .symbol := by decide
  obtain ⟨hstart, hkeyword⟩ := hsymbol _ hword
  rw [TokenList.kind?_of_start hreads hfirst hstart, hkeyword]

/-- Looking back for a symbol ends at one that is known. -/
theorem exists_symbolBefore (h : Loaded doc) {start token : TokenId} {fuel : Nat}
    (hstart : start ∈ doc.tokens.ids) (hsig : doc.tokens.isSignificant start = true)
    (hsymbol : doc.tokens.kind? start = some .symbol) (hmem : token ∈ doc.tokens.ids)
    (hle : start.index ≤ token.index) (hfuel : token.index < fuel) :
    ∃ name, Outline.symbolBefore? doc.tokens start fuel (some token) = some name := by
  induction fuel generalizing token with
  | zero => omega
  | succ fuel ih =>
    rw [Outline.symbolBefore?]
    by_cases hkind : doc.tokens.kind? token = some .symbol
    · exact ⟨token, if_pos hkind⟩
    · have hne : token ≠ start := by
        rintro rfl
        exact hkind hsymbol
      have hlt : start.index < token.index := by
        rcases Nat.lt_or_eq_of_le hle with hlt | heq
        · exact hlt
        · exact absurd (TokenId.ext_index heq.symm) hne
      obtain ⟨u, hu, humem, -, hlow, hhigh⟩ := h.prevSignificant?_between hmem hstart hsig hlt
      rw [if_neg hkind, if_neg hne, hu]
      exact ih humem hlow (by omega)

/-- **Every kernel has a name**: its first word, if nothing else stands before the parameters. -/
theorem exists_functionName (h : Loaded doc)
    (hreads : (doc.tokens.spells doc.tokens.ids).Reads []) {params : NodeId}
    (hparent : doc.tree.parent? params = some function)
    (hkind : doc.tree.kind? params = some .functionParams)
    (hkernel : Outline.isKernel doc.tokens doc.tree function = true) :
    ∃ name, Outline.functionName? doc.tokens doc.tree function = some name := by
  obtain ⟨hplain, hstatement, outer, houter, hsymbol⟩ := h.kernel_starts hreads hkernel
  obtain ⟨hout, houtsig, houter₁⟩ := h.starts hplain.below hplain.ne_root ⟨outer, houter, rfl⟩
  -- the parameter list that the name is looked for before
  obtain ⟨list, hlist⟩ : ∃ list, Outline.functionParams? doc.tree function = some list :=
    Option.isSome_iff_exists.mp (List.find?_isSome.mpr
      ⟨params, (h.forest.parent_iff _ _).mp hparent, by simp [hkind]⟩)
  have hchild : list ∈ doc.tree.children function := List.mem_of_find?_eq_some hlist
  have hbelow := hplain.below.tail hchild
  obtain ⟨inner, hinner, ⟨hin, -, hinner₁⟩, -⟩ := h.range hbelow (h.forest.child_ne_root hchild)
  have hlt : outer.first.index < inner.first.index := by
    rw [houter₁, hinner₁]
    exact (h.sheltered hplain.below hplain.ne_root).lead hstatement list hchild
  obtain ⟨u, hu, humem, -, hlow, -⟩ := h.prevSignificant?_between hin hout houtsig hlt
  have hsize := h.unedited.mem_ids_iff.mp humem
  unfold Outline.functionName?
  simp only [Option.bind_eq_bind, hlist, hinner, houter, Option.bind_some, hu]
  exact h.exists_symbolBefore hout houtsig hsymbol humem hlow (Nat.lt_succ_of_lt hsize)

/-- Every parameter list has a context: a kernel has a name. -/
theorem exists_paramContext (h : Loaded doc)
    (hreads : (doc.tokens.spells doc.tokens.ids).Reads []) {params : NodeId}
    (hkind : doc.tree.kind? params = some .functionParams) :
    ∃ context, Occurrence.paramContext doc params = .ok context := by
  unfold Occurrence.paramContext
  split
  · exact ⟨_, rfl⟩
  · rename_i function hparent
    split
    · rename_i hkernel
      obtain ⟨name, hname⟩ := h.exists_functionName hreads hparent hkind hkernel
      rw [hname]
      exact ⟨_, rfl⟩
    · exact ⟨_, rfl⟩

end Loaded

/-! ## §2. Uses that are not found -/

/-- What is wrong with a use as it is written. -/
def PassFault.isMalformed : PassFault → Bool
  | .missingOpenAngle _ | .missingTexelType _ | .missingCloseAngle _ | .badSignedness _
  | .missingParamName _ => true
  | _ => false

namespace Occurrence

variable {doc : Document} {node : NodeId} {isParams : Bool}

/-- A type that is not closed is a malformed use. -/
theorem closeAngle_error {keyword : String} {texel : List TokenId}
    {tokens : List (TokenId × Token)} {fault : PassFault}
    (h : closeAngle keyword texel tokens = .error fault) : fault.isMalformed = true := by
  unfold closeAngle at h
  split at h
  · split at h
    · simp at h
    · exact Except.error.inj h ▸ rfl
  · exact Except.error.inj h ▸ rfl

/-- What is wrong with a texel type is a malformed use. -/
theorem texelType_error {keyword : String} {tokens : List (TokenId × Token)}
    {fault : PassFault} (h : texelType keyword tokens = .error fault) :
    fault.isMalformed = true := by
  unfold texelType at h
  split at h
  · exact Except.error.inj h ▸ rfl
  split at h
  · exact Except.error.inj h ▸ rfl
  split at h
  · exact Except.error.inj h ▸ rfl
  split at h
  · exact Except.error.inj h ▸ rfl
  split at h
  · -- a word for the sign
    split at h
    · exact Except.error.inj h ▸ rfl
    split at h
    · exact Except.error.inj h ▸ rfl
    split at h
    · exact Except.error.inj h ▸ rfl
    · exact closeAngle_error h
  · exact closeAngle_error h

/-- A parameter without a name is a malformed use. -/
theorem paramName_error {keyword : String} {tokens : List (TokenId × Token)}
    {fault : PassFault} (h : paramName keyword tokens = .error fault) :
    fault.isMalformed = true := by
  unfold paramName at h
  split at h
  · exact Except.error.inj h ▸ rfl
  · split at h
    · simp at h
    · exact Except.error.inj h ▸ rfl

/-- A use that is not read is malformed, if the function it may belong to is known. -/
theorem read_error {kind : TextureKind} {id : TokenId} {keyword : Token}
    {rest : List (TokenId × Token)} {error : PassError}
    (hcontext : isParams = true → ∃ context, paramContext doc node = .ok context)
    (h : read doc node isParams kind id keyword rest = .error error) :
    error.fault.isMalformed = true := by
  unfold read at h
  extract_lets onward at h
  -- behind the type, only the name of the parameter can be missing
  have honward : ∀ tail, onward tail = .error error → error.fault.isMalformed = true := by
    intro tail htail
    simp only [onward] at htail
    split at htail
    · rename_i hparams
      rcases except_bind_error.mp htail with hname | ⟨param, -, hmore⟩
      · obtain ⟨fault, hfault, rfl⟩ := mapError_error.mp hname
        exact paramName_error hfault
      · obtain ⟨context, hok⟩ := hcontext hparams
        rw [hok] at hmore
        exact Except.noConfusion rfl rfl (heq_of_eq hmore)
    · exact Except.noConfusion rfl rfl (heq_of_eq htail)
  cases kind with
  | texture =>
    rcases except_bind_error.mp h with htexel | ⟨tail, -, hmore⟩
    · obtain ⟨fault, hfault, rfl⟩ := mapError_error.mp htexel
      exact texelType_error hfault
    · exact honward tail hmore
  | surface => exact honward _ h

/-- A scan fails at a malformed use only. -/
theorem scanFrom_error {entries : List (TokenId × Token)} {skip : Nat} {error : PassError}
    (hcontext : isParams = true → ∃ context, paramContext doc node = .ok context)
    (h : scanFrom doc node isParams skip entries = .error error) :
    error.fault.isMalformed = true := by
  induction entries generalizing skip with
  | nil => cases skip <;> simp [scanFrom] at h
  | cons entry rest ih =>
    cases skip with
    | succ skip => exact ih h
    | zero =>
      unfold scanFrom at h
      split at h
      · exact ih h
      · rcases except_bind_error.mp h with hread | ⟨found, -, hmore⟩
        · exact read_error hcontext hread
        · rcases except_bind_error.mp hmore with hscan | ⟨others, -, hdone⟩
          · exact ih hscan
          · exact Except.noConfusion rfl rfl (heq_of_eq hdone)

/-- **Uses are not found** only when one of them is malformed. -/
theorem findAll_error {error : PassError} (h₀ : Loaded doc)
    (hreads : (doc.tokens.spells doc.tokens.ids).Reads [])
    (h : findAll doc = .error error) : error.fault.isMalformed = true := by
  unfold findAll at h
  rcases except_bind_error.mp h with hscan | ⟨found, -, hdone⟩
  · obtain ⟨node, -, herror⟩ := Step.mapM_error hscan
    refine scanFrom_error (fun hparams => ?_) herror
    exact h₀.exists_paramContext hreads (by simpa using hparams)
  · exact Except.noConfusion rfl rfl (heq_of_eq hdone)

/-- The use `inner` begins inside of the use `outer`. -/
def Inside (doc : Document) (inner outer : Occurrence) : Prop :=
  inner ≠ outer ∧ inner.keyword ∈ doc.tokens.range (Weave.cut outer)

/-- One of the uses begins inside of another. -/
def Overlapping (doc : Document) (found : List Occurrence) : Prop :=
  ∃ outer ∈ found, ∃ inner ∈ found, Inside doc inner outer

instance (doc : Document) (inner outer : Occurrence) : Decidable (Inside doc inner outer) :=
  inferInstanceAs (Decidable (_ ∧ _))

instance (doc : Document) (found : List Occurrence) : Decidable (Overlapping doc found) :=
  inferInstanceAs (Decidable (∃ outer ∈ found, _))

end Occurrence

/-! ## §3. The pass -/

namespace Lowering

variable {doc : Document} {found : List Occurrence}

/-- The uses of all types are those found, in another order. -/
theorem uses_perm [ContentHash] {types : List Weave.Declared}
    (htypes : types.map (·.refs) = Occurrence.groupAll doc.tokens found) :
    ((Weave.uses types).map (·.2)).Perm found := by
  unfold Weave.uses
  refine ((List.mergeSort_perm _ _).map _).trans ?_
  rw [List.map_flatMap]
  simp only [List.map_map, Function.comp_def, List.map_id']
  rw [List.flatMap_def, htypes]
  exact Occurrence.groupAll_perm doc.tokens found

/-- A use that begins inside of one before it begins inside of another. -/
theorem inside_of_sublist {uses : List (Weave.Declared × Occurrence)} (h₀ : Loaded doc)
    (hfound : Occurrence.findAll doc = .ok found) (hperm : (uses.map (·.2)).Perm found)
    {u v : Weave.Declared × Occurrence} (hsub : [u, v].Sublist uses)
    (hin : v.2.keyword ∈ doc.tokens.range (Weave.cut u.2)) :
    u.2 ∈ found ∧ v.2 ∈ found ∧ Occurrence.Inside doc v.2 u.2 := by
  have hpair : [u.2, v.2].Sublist (uses.map (·.2)) := hsub.map Prod.snd
  have hdistinct : [u.2, v.2].Nodup :=
    (hperm.nodup_iff.mpr (List.Nodup.of_map _ (h₀.keywords_nodup hfound))).sublist hpair
  refine ⟨hperm.subset (hpair.subset (by simp)), hperm.subset (hpair.subset (by simp)), ?_, hin⟩
  intro he
  simp [he] at hdistinct

/-- **No use begins inside of one before it** exactly when none begins inside of another. -/
theorem apart_iff {uses : List (Weave.Declared × Occurrence)} (h₀ : Loaded doc)
    (hfound : Occurrence.findAll doc = .ok found) (hperm : (uses.map (·.2)).Perm found)
    (hsorted : uses.Pairwise fun u v => u.2.keyword.index ≤ v.2.keyword.index) :
    Apart doc uses ↔ ¬ Occurrence.Overlapping doc found := by
  constructor
  · rintro hapart ⟨outer, houter, inner, hinner, hne, hin⟩
    have hlt : outer.keyword.index < inner.keyword.index := by
      rw [Weave.mem_cut_iff h₀ ((Occurrence.findAll_ok hfound).1 outer houter)] at hin
      refine Nat.lt_of_le_of_ne hin.1 fun heq => hne ?_
      exact (List.inj_on_of_nodup_map (h₀.keywords_nodup hfound) houter hinner
        (TokenId.ext_index heq)).symm
    obtain ⟨u, hu, rfl⟩ := List.mem_map.mp (hperm.mem_iff.mpr houter)
    obtain ⟨v, hv, rfl⟩ := List.mem_map.mp (hperm.mem_iff.mpr hinner)
    -- the one that begins later is lowered later
    obtain ⟨before, behind, rfl⟩ := List.append_of_mem hu
    rcases List.mem_append.mp hv with hv | hv
    · have := (List.pairwise_append.mp hsorted).2.2 v hv u List.mem_cons_self
      omega
    · rcases List.mem_cons.mp hv with rfl | hv
      · exact hne rfl
      · exact (List.pairwise_cons.mp (List.pairwise_append.mp hapart).2.1).1 v hv hin
  · intro hnone
    refine List.pairwise_iff_forall_sublist.mpr fun {u v} hsub hin => hnone ?_
    obtain ⟨hu, hv, hinside⟩ := inside_of_sublist h₀ hfound hperm hsub hin
    exact ⟨u.2, hu, v.2, hv, hinside⟩

/-- A document whose uses are not found is left as it is. -/
theorem run_error [ContentHash] {error : PassError} (h : Occurrence.findAll doc = .error error) :
    run doc = (.error error, { document := doc }) := by
  have hfail : lowerAll { document := doc } = .error error { document := doc } := by
    unfold lowerAll
    rw [Step.bind_get]
    dsimp only
    rw [Occurrence.discover_eq, h]
    rfl
  unfold run
  rw [hfail]

/-- The uses of the types, type by type. -/
def byType (types : List TextureType) : List (Nat × Occurrence) :=
  types.zipIdx.flatMap fun (type, index) => type.refs.map (index, ·)

/-- Lowering without putting the uses into source order, where they are in that order already. -/
def runByType [ContentHash] (document : Document) : Option Lowering := do
  let groups ← (Occurrence.discover document).toOption
  match groups.forM declareType { document } with
  | .error .. => none
  | .ok () state =>
    if (byType state.types).Pairwise fun a b => a.2.keyword.index ≤ b.2.keyword.index then
      match (byType state.types).forM (fun x => lowerOne x.1 x.2) state with
      | .error .. => none
      | .ok () state => some state
    else none

/-- What goes through without sorting goes through with it. -/
theorem run_of_runByType [ContentHash] {state : Lowering} (h : runByType doc = some state) :
    run doc = (.ok (), state) := by
  unfold runByType at h
  obtain ⟨groups, hgroups, h⟩ := Option.bind_eq_some_iff.mp h
  have hdiscover : Occurrence.discover doc = .ok groups := by
    cases hall : Occurrence.discover doc with
    | error error => simp [hall, Except.toOption] at hgroups
    | ok all =>
      rw [hall] at hgroups
      exact congrArg _ (Option.some.inj hgroups)
  split at h
  · simp at h
  rename_i declared hdeclare
  split at h
  · rename_i hsorted
    split at h
    · simp at h
    rename_i lowered hlower
    obtain rfl := Option.some.inj h
    -- uses that are in source order already are left so by the sort
    have horder : inSourceOrder declared.types = byType declared.types :=
      List.mergeSort_of_pairwise (hsorted.imp fun hle => by simpa using hle)
    have hall : lowerAll { document := doc } = .ok () lowered := by
      unfold lowerAll
      rw [Step.bind_get]
      dsimp only
      rw [hdiscover]
      dsimp only
      rw [Step.bind_of_ok hdeclare, Step.bind_get, horder]
      exact hlower
    unfold run
    rw [hall]
  · simp at h

/-- What evaluation shows of a source on which lowering goes through. -/
theorem run_of_eval [ContentHash] {α : Type} (config : Config) (source : String)
    (f : Document → Lowering → α) (a : α)
    (h : ((Document.load config source).toOption.bind fun doc =>
      (runByType doc).map (f doc)) = some a) :
    ∃ doc state, Document.load config source = .ok doc ∧ run doc = (.ok (), state)
      ∧ f doc state = a := by
  cases hload : Document.load config source with
  | error error => simp [hload, Except.toOption] at h
  | ok doc =>
    rw [hload] at h
    obtain ⟨state, hstate, hvalue⟩ := Option.map_eq_some_iff.mp h
    exact ⟨doc, state, rfl, run_of_runByType hstate, hvalue⟩

/-- **Lowering the uses found** goes through, or stops at a use that begins inside of another. -/
theorem run_found [ContentHash] (h₀ : Loaded doc) (h : Occurrence.findAll doc = .ok found) :
    (¬ Occurrence.Overlapping doc found ∧ ∃ state, run doc = (.ok (), state))
      ∨ ∃ outer ∈ found, ∃ inner ∈ found, Occurrence.Inside doc inner outer
        ∧ ∃ state, run doc = (.error (.ofSplice (.missing inner.keyword)), state) := by
  have hdiscover : Occurrence.discover doc = .ok (Occurrence.groupAll doc.tokens found) := by
    rw [Occurrence.discover_eq, h]
    rfl
  have hstart : Stage doc (fun _ => []) [] [] [] { document := doc } :=
    Stage.start ((Fabric.start h₀).congr (fun id => Weave.weft_start doc _ id) rfl)
  obtain ⟨hrefs, hcases⟩ := lowerAll_cases h₀ hstart hdiscover hdiscover rfl
  have hperm := uses_perm hrefs
  have hapart := apart_iff h₀ h hperm (uses_sorted _)
  unfold run
  rcases hcases with ⟨hout, state, hok, -⟩ | ⟨inner, hstops, state, herror⟩
  · rw [hok]
    exact Or.inl ⟨hapart.mp hout, state, rfl⟩
  · rw [herror]
    obtain ⟨outer, hsub, hin⟩ := hstops.exists_outer
    obtain ⟨houter, hinner, hinside⟩ := inside_of_sublist h₀ h hperm hsub hin
    exact Or.inr ⟨outer.2, houter, inner.2, hinner, hinside, state, rfl⟩

end Lowering

/-- **How the lowering of textures ends**: with an error that says how a use is malformed and
    the document as it was, with success, or, when one use begins inside of another, with a
    token that is missing. -/
theorem Texture.pass_outcome [ContentHash] {config : Config} {source : String} {doc : Document}
    (hload : Document.load config source = .ok doc) :
    (∀ error, Occurrence.findAll doc = .error error → error.fault.isMalformed = true
      ∧ (Texture.pass config).run doc = .error error doc)
    ∧ ∀ found, Occurrence.findAll doc = .ok found →
      (¬ Occurrence.Overlapping doc found
        ∧ ∃ table? doc', (Texture.pass config).run doc = .ok table? doc')
      ∨ ∃ outer ∈ found, ∃ inner ∈ found, Occurrence.Inside doc inner outer
        ∧ ∃ doc', (Texture.pass config).run doc
          = .error (.ofSplice (.missing inner.keyword)) doc' := by
  have h₀ := Document.load_loaded hload
  have hreads := (TokenList.lex_reads (Document.load_ok hload).1).1
  unfold Texture.pass
  dsimp only
  refine ⟨fun error herror => ⟨Occurrence.findAll_error h₀ hreads herror, ?_⟩,
    fun found hfound => ?_⟩
  · rw [Lowering.run_error herror]
  · rcases Lowering.run_found h₀ hfound with
      ⟨hnone, state, hok⟩ | ⟨outer, houter, inner, hinner, hinside, state, herror⟩
    · rw [hok]
      exact Or.inl ⟨hnone, _, _, rfl⟩
    · rw [herror]
      exact Or.inr ⟨outer, houter, inner, hinner, hinside, _, rfl⟩

/-- Without a comma between them, the second parameter begins inside of the first and goes with
    it.  Its keyword is then missing, which no use that is malformed explains. -/
theorem Texture.pass_outcome_missingComma :
    ∃ doc, Document.load {} "kernel void k(Texture2Du<float> a Texture2Du<float> b) \x7b \x7d"
        = .ok doc
      ∧ ∃ error doc', (Texture.pass {}).run doc = .error error doc'
        ∧ (∃ token, error = .ofSplice (.missing token)) ∧ error.fault.isMalformed = false := by
  have heval : ((Document.load {}
      "kernel void k(Texture2Du<float> a Texture2Du<float> b) \x7b \x7d").toOption.bind
        fun doc => (Occurrence.findAll doc).toOption.map
          fun found => decide (Occurrence.Overlapping doc found)) = some true := by
    decide +kernel
  cases hload : Document.load {}
      "kernel void k(Texture2Du<float> a Texture2Du<float> b) \x7b \x7d" with
  | error error => simp [hload, Except.toOption] at heval
  | ok doc =>
    rw [hload] at heval
    obtain ⟨found, hfound, hoverlap⟩ := Option.map_eq_some_iff.mp heval
    have hfound : Occurrence.findAll doc = .ok found := by
      cases hall : Occurrence.findAll doc with
      | error error => simp [hall, Except.toOption] at hfound
      | ok all =>
        rw [hall] at hfound
        exact congrArg _ (Option.some.inj hfound)
    refine ⟨doc, rfl, ?_⟩
    rcases (Texture.pass_outcome hload).2 found hfound with
      ⟨hnone, -⟩ | ⟨outer, -, inner, -, -, doc', hrun⟩
    · exact absurd (of_decide_eq_true hoverlap) hnone
    · exact ⟨_, doc', hrun, ⟨inner.keyword, rfl⟩, rfl⟩

end KernelPrep
