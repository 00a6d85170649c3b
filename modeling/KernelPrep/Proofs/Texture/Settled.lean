/-
  KernelPrep.Proofs.Texture.Settled — lowering textures once is enough.

  A second run looks for textures among the own tokens of the same nodes, whose ends have
  moved.  What stands there are tokens that were left alone, none of which is a keyword, since
  the first run missed none, and what was made of the uses: names that were made, words of the
  platform, numbers, and names of kernel parameters.  A parameter that had a keyword for its
  name would be a use itself, begun inside of another.  The texel types that are repeated in
  the lines that define types are in nodes that are not searched.

  Main definitions: none; see `Lowering.Unbroken`.

  Main statements:
    * `Lowering.Unbroken.replacement_plain` — what is made of a use has no keyword in it;
    * `Lowering.Unbroken.entries_plain`     — nor have the own tokens of a node;
    * `Texture.pass_settles`                — a second run finds nothing and changes nothing.
-/
import KernelPrep.Proofs.Texture.Standing

namespace KernelPrep

/-! ## §1. Words that are no keywords -/

namespace Signature

/-- The keywords of textures. -/
def keywords : List String :=
  ["Texture1Du", "Texture2Du", "Texture3Du", "Texture1Dn", "Texture2Dn", "Texture3Dn",
    "Surface1D", "Surface2D", "Surface3D"]

/-- Every word that is read as a keyword is one of the list. -/
theorem mem_keywords {word : String} {signature : Signature}
    (h : ofKeyword? word = some signature) : word ∈ keywords := by
  have hback : ∀ {chars}, word.toList = chars → word = String.ofList chars := by
    rintro chars rfl
    exact String.ofList_toList.symm
  unfold ofKeyword? at h
  split at h
  · rename_i dims mode hword
    obtain ⟨d, hdims, h⟩ := Option.bind_eq_some_iff.mp h
    obtain ⟨m, hmode, -⟩ := Option.bind_eq_some_iff.mp h
    rw [hback hword]
    unfold dims? at hdims
    unfold mode? at hmode
    split at hdims <;> split at hmode <;>
      first | (simp at hdims; done) | (simp at hmode; done) | decide
  · rename_i dims hword
    obtain ⟨d, hdims, -⟩ := Option.bind_eq_some_iff.mp h
    rw [hback hword]
    unfold dims? at hdims
    split at hdims <;> first | (simp at hdims; done) | decide
  · simp at h

/-- A keyword is a name, and begins with the letter of its kind. -/
theorem keyword_isName {word : String} {signature : Signature}
    (h : ofKeyword? word = some signature) :
    Text.IsName word ∧ (word.toList.head? = some 'T' ∨ word.toList.head? = some 'S') := by
  have hall : ∀ word ∈ keywords, Text.IsName word
      ∧ (word.toList.head? = some 'T' ∨ word.toList.head? = some 'S') := by decide
  exact hall word (mem_keywords h)

end Signature

namespace Occurrence

/-- The symbol that a parameter takes for its name is not behind the parameter. -/
theorem paramFrom_between {all tokens : List (TokenId × Token)} {depth : Nat} {param : Param}
    (hpair : (param.last :: tokens.map (·.1)).Pairwise fun a b => a.index < b.index)
    (hsub : tokens ⊆ all)
    (hname : ∃ entry ∈ all, entry.2.kind = .symbol ∧ entry.2.text = param.text
      ∧ entry.1.index ≤ param.last.index) :
    ∃ entry ∈ all, entry.2.kind = .symbol
      ∧ entry.2.text = (paramFrom depth param tokens).text
      ∧ entry.1.index ≤ (paramFrom depth param tokens).last.index := by
  induction tokens generalizing depth param with
  | nil => exact hname
  | cons entry rest ih =>
    obtain ⟨id, token⟩ := entry
    rw [List.map_cons] at hpair
    obtain ⟨hlater, hrest⟩ := List.pairwise_cons.mp hpair
    have hlt : param.last.index < id.index := hlater id List.mem_cons_self
    have hin : (id, token) ∈ all := hsub List.mem_cons_self
    have hsub' : rest ⊆ all := fun x hx => hsub (List.mem_cons_of_mem _ hx)
    -- the parameter goes on with the token, which is behind the name
    have honward : ∀ {depth}, ∃ entry ∈ all, entry.2.kind = .symbol
        ∧ entry.2.text = (paramFrom depth { param with last := id } rest).text
        ∧ entry.1.index ≤ (paramFrom depth { param with last := id } rest).last.index := by
      intro depth
      obtain ⟨named, hnamed, hkind, htext, hle⟩ := hname
      exact ih hrest hsub' ⟨named, hnamed, hkind, htext, by
        show named.1.index ≤ id.index
        omega⟩
    unfold paramFrom
    dsimp only
    split
    · exact honward
    · exact honward
    · split
      · exact hname
      · exact honward
    · split
      · exact hname
      · exact honward
    · split
      · exact hname
      · exact honward
    · rename_i hsymbol
      split
      · exact ih hrest hsub' ⟨(id, token), hin, hsymbol, rfl, Nat.le_refl _⟩
      · exact honward
    · exact honward

/-- A parameter is named by a symbol, which is not behind its last token. -/
theorem paramName_between {keyword : String} {tokens : List (TokenId × Token)} {param : Param}
    (hpair : (tokens.map (·.1)).Pairwise fun a b => a.index < b.index)
    (h : paramName keyword tokens = .ok param) :
    ∃ entry ∈ tokens, entry.2.kind = .symbol ∧ entry.2.text = param.text
      ∧ entry.1.index ≤ param.last.index := by
  cases tokens with
  | nil => simp [paramName] at h
  | cons entry rest =>
    obtain ⟨id, token⟩ := entry
    simp only [paramName] at h
    split at h
    · rename_i hsymbol
      obtain rfl := Except.ok.inj h
      exact paramFrom_between hpair (List.subset_cons_of_subset _ fun _ h => h)
        ⟨(id, token), List.mem_cons_self, hsymbol, rfl, Nat.le_refl _⟩
    · simp at h

/-- **The name of a kernel parameter** is no keyword, where no use begins inside of another. -/
theorem param_plain {doc : Document} {found : List Occurrence} (h₀ : Loaded doc)
    (hfound : findAll doc = .ok found) (hout : ¬ Overlapping doc found) {o : Occurrence}
    (ho : o ∈ found) (hunnamed : o.isNamed = false) {param : Param}
    (hparam : o.param? = some param) :
    Signature.ofKeyword? param.text = none := by
  by_contra hsome
  obtain ⟨huses, -, hall⟩ := findAll_ok hfound
  have huse := huses o ho
  obtain ⟨before, token, type, rest, hlaid⟩ := findAll_laidOut hfound ho
  obtain ⟨hkind, param', hparam', hname⟩ := hlaid.param hunnamed
  rw [hparam] at hparam'
  obtain rfl := Option.some.inj hparam'
  have hlast : (Weave.cut o).last = param.last := by
    rcases hlaid.cut_last with ⟨hnamed, -⟩ | ⟨-, other, hother, hlast⟩
    · rw [hunnamed] at hnamed
      exact Bool.noConfusion hnamed
    · rw [hname] at hother
      rw [hlast, Except.ok.inj hother]
  have hpair := (List.pairwise_append.mp (hlaid.pairwise h₀ huse)).2.1
  obtain ⟨-, hrest, hbehind⟩ := List.pairwise_append.mp hpair
  obtain ⟨entry, hentry, hsymbol, htext, hle⟩ := paramName_between hrest hname
  have hlow : o.keyword.index < entry.1.index :=
    hbehind _ List.mem_cons_self _ (List.mem_map_of_mem hentry)
  -- the name would be among the words of a use
  have hmem : entry ∈ entries doc o.node := by
    rw [hlaid.entries]
    simp [hentry]
  have hsig : (signature? entry.2).isSome = true := by
    unfold signature?
    rw [if_pos hsymbol, htext]
    exact Option.isSome_iff_ne_none.mpr hsome
  obtain ⟨v, hv, hword⟩ := List.mem_flatMap.mp (hall o.node (h₀.mem_candidates.mpr huse.searched)
    entry hmem hsig)
  have hreach := huses v hv
  obtain ⟨_, _, _, _, hlaid'⟩ := findAll_laidOut hfound hv
  obtain ⟨-, hfrom, hthrough⟩ := hlaid'.words_between h₀ hreach hword
  by_cases hsame : v = o
  · -- the words of the use itself are before its parameter
    subst hsame
    have hlt : entry.1.index < entry.1.index :=
      hbehind _ (hlaid.words_between h₀ huse hword).1 _ (List.mem_map_of_mem hentry)
    exact Nat.lt_irrefl _ hlt
  · refine hout ?_
    rcases Nat.le_total o.keyword.index v.keyword.index with hle' | hle'
    · refine ⟨o, ho, v, hv, hsame, ?_⟩
      rw [Weave.mem_cut_iff h₀ huse, hlast]
      omega
    · refine ⟨v, hv, o, ho, Ne.symm hsame, ?_⟩
      rw [Weave.mem_cut_iff h₀ hreach]
      omega

end Occurrence

/-! ## §2. What is left in the nodes -/

namespace Lowering

theorem not_overlapping [ContentHash] {doc : Document} {found : List Occurrence} {state : Lowering}
    (h₀ : Loaded doc) (hfound : Occurrence.findAll doc = .ok found)
    (hrun : run doc = (.ok (), state)) : ¬ Occurrence.Overlapping doc found := by
  rcases run_found h₀ hfound with ⟨hout, -⟩ | ⟨_, _, _, _, _, _, herror⟩
  · exact hout
  · rw [hrun] at herror
    simp at herror

namespace Unbroken

variable {doc : Document} {found : List Occurrence} {types : List Weave.Declared}
  {state : Lowering} {strand : TokenId → Strand} {branches parts : List Branch} {n : NodeId}
  {kind : NodeKind} {s x : TokenId}

/-- **What is made of a use** has no keyword in it. -/
theorem replacement_plain [ContentHash] (h : Unbroken doc found types state strand branches)
    {u : Weave.Declared × Occurrence} (hu : u ∈ Weave.uses types) {entry : TokenKind × String}
    (hentry : entry ∈ Weave.replacement doc u.1 u.2) : Signature.ofKeyword? entry.2 = none := by
  have hgrouped := h.finished.grouped
  have hknown := hgrouped.known
  by_contra hsome
  obtain ⟨signature, hsignature⟩ := Option.ne_none_iff_exists'.mp hsome
  obtain ⟨hname, hhead⟩ := Signature.keyword_isName hsignature
  unfold Weave.replacement at hentry
  split at hentry
  · rename_i param hcontext hparam
    have hmem := Weave.mem_spelled hknown.newline hentry hname
    -- a parameter has the macro call, whose words are the platform's, the count and the name
    have hunnamed : u.2.isNamed = false := by
      unfold Occurrence.isNamed
      rw [hcontext]
    have hplain := Occurrence.param_plain h.loaded hgrouped.found_eq
      (not_overlapping h.loaded hgrouped.found_eq h.finished.run) (h.found_of_mem hu).1 hunnamed
      hparam
    have hnumeral := Text.isNumeral_toString u.1.signature.dims.toNat
    simp only [List.flatMap_cons, List.flatMap_nil, Piece.words, List.mem_append, List.mem_cons,
      List.not_mem_nil, or_false, Text.words_of_isWord (Or.inr hnumeral),
      Text.words_of_isWord (Or.inl (hknown.param u hu param hparam))] at hmem
    rcases hmem with he | he | he
    · -- the words of a platform begin with two underscores
      have hword : ∀ (platform : Platform) (kind : TextureKind) (mode : ReadMode),
          (platform.vocabulary.paramWord kind mode).toList.head? = some '_' := by
        intro platform kind mode
        cases platform <;> cases kind <;> cases mode <;> decide
      rw [he, show doc.config.vocabulary = doc.config.platform.vocabulary from rfl, hword] at hhead
      simp at hhead
    · exact hname.not_numeral (he ▸ hnumeral)
    · rw [he] at hsignature
      simp [hplain] at hsignature
  -- any other use is replaced by the name of its type, which begins with an underscore
  · obtain ⟨m, hmade⟩ := hknown.made u.1 (mem_uses.mp hu).1
    rw [List.mem_singleton.mp hentry, hmade] at hhead
    simp [Weave.typeName] at hhead

/-- **A token that was left alone** is no keyword, if it was an own token of a node. -/
theorem own_plain [ContentHash] (h : Unbroken doc found types state strand branches)
    (hsearched : (doc.tree.kind? n).any Occurrence.isSearched = true) {entry : TokenId × Token}
    (hentry : entry ∈ Occurrence.entries doc n)
    (hself : Weave.core? doc (Weave.uses types) entry.1 = none) :
    Occurrence.signature? entry.2 = none := by
  have h₀ := h.loaded
  have hgrouped := h.finished.grouped
  by_contra hsome
  obtain ⟨huses, -, hall⟩ := Occurrence.findAll_ok hgrouped.found_eq
  obtain ⟨o, ho, hword⟩ := List.mem_flatMap.mp (hall n (h₀.mem_candidates.mpr hsearched) entry
    hentry (Option.isSome_iff_ne_none.mpr hsome))
  obtain ⟨_, _, _, _, hlaid⟩ := Occurrence.findAll_laidOut hgrouped.found_eq ho
  obtain ⟨-, hlow, hhigh⟩ := hlaid.words_between h₀ (huses o ho) hword
  -- the use took the token out
  obtain ⟨u, hu, rfl⟩ := List.mem_map.mp ((uses_perm hgrouped.refs).mem_iff.mpr ho)
  exact (Weave.core?_none h₀ (fun u hu => (h.found_of_mem hu).2) entry.1).mp hself u hu
    ⟨hlow, hhigh⟩

/-- **The own tokens of a node** that is searched have no keyword among them any more. -/
theorem entries_plain [ContentHash] (h : Unbroken doc found types state strand branches)
    (hnode : doc.HasNode branches n kind parts) (hsearched : Occurrence.isSearched kind = true)
    {entry : TokenId × Token} (hentry : entry ∈ Occurrence.entries state.document n) :
    Occurrence.signature? entry.2 = none := by
  have h₀ := h.loaded
  have hany : (doc.tree.kind? n).any Occurrence.isSearched = true := by
    rw [hnode.kind?]
    exact hsearched
  obtain ⟨hown, htoken⟩ := Occurrence.mem_entries.mp hentry
  obtain ⟨s, hs, hcore, hplace, hout⟩ := h.exists_own hnode hsearched hown
  rcases h.core_cases hs with ⟨hnone, hself⟩ | ⟨u, hu, -, hspells⟩ | ⟨hnil, -⟩
  · -- a token that was left alone was an own token before
    rw [hself, List.mem_singleton] at hcore
    subst hcore
    obtain ⟨hplain, -⟩ := h₀.plain_of_searched hany
    have hface := h.woven.laid.face entry.1 hs hself
    have hsig : doc.tokens.isSignificant entry.1 = true := by
      have hsig := Document.HasNode.significant_of_own hown
      unfold TokenList.isSignificant at hsig ⊢
      rwa [TokenList.kind?_congr hface] at hsig
    obtain ⟨x, hx, hxs⟩ := (TokenList.mem_leaves_iff h₀.threaded).mpr ⟨hs, hsig⟩
    have hown₀ : entry.1 ∈ doc.ownTokens n := by
      rw [hnode.owns_iff hplain]
      rw [← hxs] at hplace hout
      rcases Branch.mem_leavesAll_cases ((hnode.mem_iff hx).mpr hplace) with hleaf | hinside
      · exact ⟨x, hleaf, hxs⟩
      · obtain ⟨_, inside, hpart, hin⟩ := hinside
        obtain ⟨c, hc, hchild⟩ := hnode.child hpart
        have hbetween := hchild.between hin
        have haway := hout c hc
        omega
    -- and it says what it said
    obtain ⟨token, htoken₀, -⟩ := h₀.threaded.get?_of_mem hs
    unfold TokenList.face? at hface
    rw [htoken, htoken₀] at hface
    simp only [Option.map_some, Option.some.injEq, Prod.mk.injEq] at hface
    have hentry₀ : (entry.1, token) ∈ Occurrence.entries doc n :=
      Occurrence.mem_entries.mpr ⟨hown₀, htoken₀⟩
    have hplain₀ := h.own_plain hany hentry₀ hnone
    unfold Occurrence.signature? at hplain₀ ⊢
    rw [hface.1, hface.2.1]
    exact hplain₀
  · have hin : (entry.2.kind, entry.2.text) ∈ Weave.replacement doc u.1 u.2 := by
      rw [← hspells]
      exact List.mem_filterMap.mpr ⟨entry.1, hcore, by rw [htoken]; rfl⟩
    unfold Occurrence.signature?
    rw [h.replacement_plain hu hin]
    exact ite_self _
  · rw [hnil] at hcore
    simp at hcore

end Unbroken

end Lowering

/-! ## §3. A second run -/

namespace Occurrence

/-- Where no token is a keyword, there is no use. -/
theorem scanFrom_plain {doc : Document} {node : NodeId} {isParams : Bool}
    {entries : List (TokenId × Token)} (h : ∀ entry ∈ entries, signature? entry.2 = none) :
    scanFrom doc node isParams 0 entries = .ok [] := by
  induction entries with
  | nil => rfl
  | cons entry rest ih =>
    obtain ⟨id, token⟩ := entry
    obtain ⟨hfirst, hrest⟩ := List.forall_mem_cons.mp h
    unfold scanFrom
    rw [hfirst]
    exact ih hrest

/-- Nothing is found where no node has a use. -/
theorem findAll_nil {doc : Document} (h : ∀ node ∈ candidates doc, scan doc node = .ok []) :
    findAll doc = .ok [] := by
  unfold findAll
  cases hscan : (candidates doc).mapM (scan doc) with
  | error error =>
    obtain ⟨node, hnode, herror⟩ := Step.mapM_error hscan
    rw [h node hnode] at herror
    simp at herror
  | ok lists =>
    have hnil : lists.flatten = [] := by
      refine List.flatten_eq_nil_iff.mpr fun list hlist => ?_
      obtain ⟨node, hnode, hlist⟩ := Step.mapM_ok hscan hlist
      rw [h node hnode] at hlist
      exact (Except.ok.inj hlist).symm
    show Except.ok lists.flatten = _
    rw [hnil]

end Occurrence

/-- A document without uses is left as it is. -/
theorem Lowering.run_nil [ContentHash] {doc : Document} (h : Occurrence.findAll doc = .ok []) :
    Lowering.run doc = (.ok (), { document := doc }) := by
  -- there is no type, and so no use to lower
  have hloop : ∀ body : Nat × Occurrence → Lower Unit,
      (do (inSourceOrder (← get).types).forM body : Lower Unit) { document := doc }
        = .ok () { document := doc } := by
    intro body
    rw [Step.bind_get]
    dsimp only
    rw [show inSourceOrder [] = [] from List.mergeSort_nil]
    rfl
  have hdone : lowerAll { document := doc } = .ok () { document := doc } := by
    unfold lowerAll
    rw [Step.bind_get]
    dsimp only
    rw [Occurrence.discover_eq, h]
    exact hloop _
  unfold Lowering.run
  rw [hdone]

/-- **Nothing is found in the result.** -/
theorem Lowering.Unbroken.findAll_eq [ContentHash] {doc : Document} {found : List Occurrence}
    {types : List Weave.Declared} {state : Lowering} {strand : TokenId → Strand}
    {branches : List Branch} (h : Unbroken doc found types state strand branches) :
    Occurrence.findAll state.document = .ok [] := by
  have hgrown := h.woven.grown
  refine Occurrence.findAll_nil fun n hn => ?_
  obtain ⟨kind, hkind, hsearched⟩ := (Option.any_eq_true _ _).mp (List.mem_filter.mp hn).2
  -- the nodes that were put in are not searched
  have hlt : n.index < doc.tree.nodes.size := by
    by_contra hge
    rw [hgrown.added n kind (by omega) hkind] at hsearched
    exact Bool.noConfusion hsearched
  rw [hgrown.kind n hlt] at hkind
  have hany : (doc.tree.kind? n).any Occurrence.isSearched = true := by
    rw [hkind]
    exact hsearched
  obtain ⟨hplain, -⟩ := h.loaded.plain_of_searched hany
  obtain ⟨parts, hnode⟩ := Document.HasNode.of_kind? h.loaded h.branched hkind hplain.ne_root
  exact Occurrence.scanFrom_plain fun entry hentry => h.entries_plain hnode hsearched hentry

/-- **Lowering textures once is enough**: a second run goes through, finds no use, changes
    nothing and yields no type and no kernel. -/
theorem Texture.pass_settles [ContentHash] {config : Config} {source : String} {doc doc' : Document}
    {groups : List (List Occurrence)} {table? : Option TableFile}
    (hload : Document.load config source = .ok doc)
    (hdiscover : Occurrence.discover doc = .ok groups)
    (hunbroken : ∀ use ∈ groups.flatten, use.IsUnbroken doc)
    (happly : (Texture.pass config).run doc = .ok table? doc') :
    Occurrence.discover doc' = .ok []
      ∧ Lowering.run doc' = (.ok (), { document := doc' })
      ∧ (Texture.pass config).run doc'
        = .ok (config.tablePath?.map ({ path := ·, kernels := [] })) doc' := by
  -- the pass went through because lowering did
  obtain ⟨state, hrun, rfl⟩ : ∃ state, Lowering.run doc = (.ok (), state)
      ∧ doc' = state.document := by
    unfold Texture.pass at happly
    dsimp only at happly
    split at happly
    · rename_i state hrun
      exact ⟨state, hrun, (EStateM.Result.ok.inj happly).2.symm⟩
    · simp at happly
  obtain ⟨found, types, hfinished⟩ := Lowering.run_finished hload hrun
  obtain ⟨strand, hwoven, -⟩ := hfinished.stage.fabric
  obtain ⟨branches, hbranched⟩ : ∃ branches,
      Outline.Branched doc.tokens doc.tree doc.tree.children branches := by
    obtain ⟨hlex, hparse, -, -⟩ := Document.load_ok hload
    obtain ⟨kids, branches, hbranched⟩ := Outline.branched_of_parse hlex hparse
    have hkids : doc.tree.children = kids := funext hbranched.forest.children_eq
    exact ⟨branches, hkids ▸ hbranched⟩
  -- the groups hold the uses that were found, in another order
  have hfound : ∀ o ∈ found, o.IsUnbroken doc := by
    intro o ho
    refine hunbroken o ?_
    obtain ⟨other, hother, rfl⟩ := Occurrence.discover_ok hdiscover
    rw [hfinished.grouped.found_eq] at hother
    obtain rfl := Except.ok.inj hother
    exact (Occurrence.groupAll_perm doc.tokens found).mem_iff.mpr ho
  have hsettled : Lowering.Unbroken doc found types state strand branches :=
    ⟨hfinished, hwoven, hbranched, hfound⟩
  -- no use is found in the lowered document, so lowering it does nothing
  have hnone := hsettled.findAll_eq
  have hagain := Lowering.run_nil hnone
  refine ⟨by rw [Occurrence.discover_eq, hnone]; rfl, hagain, ?_⟩
  unfold Texture.pass
  dsimp only
  rw [hagain]
  rfl

/-- A type definition with a keyword for its texel type, and a kernel.  The keyword is repeated
    in the line that defines the type, where a second run does not look for it. -/
theorem Texture.pass_settles_keywordTexel :
    ∃ doc state, Document.load {}
        "typedef Texture2Du<Surface1D> T;\nkernel void k(Surface2D s) \x7b T x; \x7d" = .ok doc
      ∧ Lowering.run doc = (.ok (), state)
      ∧ state.document.tokens.ids.any (state.document.tokens.textOf · == "Surface1D") = true
      ∧ Occurrence.discover state.document = .ok []
      ∧ Lowering.run state.document = (.ok (), { document := state.document })
      ∧ (Texture.pass {}).run state.document = .ok none state.document := by
  obtain ⟨doc, state, hload, hrun, heval⟩ := Lowering.run_of_eval {}
    "typedef Texture2Du<Surface1D> T;\nkernel void k(Surface2D s) \x7b T x; \x7d"
    (fun (doc : Document) (state : Lowering) =>
      (state.document.tokens.ids.any (state.document.tokens.textOf · == "Surface1D"),
        (Occurrence.discover doc).toOption.map fun groups : List (List Occurrence) =>
          (groups.flatten.length, decide (∀ use ∈ groups.flatten, use.IsUnbroken doc))))
    (true, some (2, true)) (by decide +kernel)
  obtain ⟨hany, hgroups⟩ := Prod.mk.inj heval
  cases hdiscover : Occurrence.discover doc with
  | error error => simp [hdiscover, Except.toOption] at hgroups
  | ok groups =>
    rw [hdiscover] at hgroups
    -- both uses are unbroken, as the theorem asks
    obtain ⟨-, hunbroken⟩ := Prod.mk.inj (Option.some.inj hgroups)
    have hpass : (Texture.pass {}).run doc = .ok none state.document := by
      unfold Texture.pass
      dsimp only
      rw [hrun]
      rfl
    obtain ⟨hnone, hagain, hsame⟩ :=
      Texture.pass_settles hload hdiscover (of_decide_eq_true hunbroken) hpass
    exact ⟨doc, state, hload, hrun, hany, hnone, hagain, hsame⟩

end KernelPrep
