/-
  KernelPrep.Proofs.Texture.Outlined — a prepared file can be read again.

  Lines are put before constructs at file scope, and no such construct goes with a use.  The
  words before the braces of an aggregate stay if no texture has its type there.  So what
  becomes of the leaves of the loaded file has an outline, and the text of a prepared file is
  read by the scanner and by the parser, if the uses leave the file tidy.

  Two of the three things asked for concern tokens that a use takes without looking at what is
  around them.  A name may run into the word behind it, and a kernel parameter, which counts
  parentheses and brackets but not braces, may end at a comma between braces and leave the
  brace that closes.

  Main statements:
    * `Weave.Relexed.allScoped` — lines stand at file scope only;
    * `Weave.Relexed.prepared`  — the changes respect the loaded file;
    * `process_outlined`        — the text of a prepared file can be read again.
-/
import KernelPrep.Proofs.Outline.Acceptance
import KernelPrep.Proofs.Texture.Prepared
import KernelPrep.Proofs.Texture.Reparsed

namespace KernelPrep

open NodeTree (root)
open Branch (leavesAll nodesAll)
open Outline (Reads isAggregate)
open Weave (Declared)

/-! ## §1. Aggregates -/

namespace Weave

variable {doc : Document} {found : List Occurrence} {types : List Declared}
  {branches parts more top : List Branch} {n : NodeId} {kind : NodeKind} {x : Leaf}
  {u : Declared × Occurrence}

/-- The word for an aggregate, as a token. -/
theorem isAggregateWord_of_leaf {word : Leaf} (hword : word ∈ doc.tokens.leaves)
    (h : isAggregate word = true) : Occurrence.isAggregateWord doc word.id = true := by
  obtain ⟨-, hkind, htext⟩ := TokenList.leaf_token hword
  unfold isAggregate at h
  unfold Occurrence.isAggregateWord
  rw [hkind, htext]
  simpa using h

/-- No keyword of a texture is a word for an aggregate. -/
theorem Ground.keyword_not_aggregate [ContentHash] (g : Ground doc found types branches)
    (hx : x ∈ doc.tokens.leaves) (hu : u ∈ uses types) (hkey : u.2.keyword = x.id) :
    isAggregate x = false := by
  unfold isAggregate
  rw [g.keyword_kind hx hu hkey, Bool.or_eq_false_iff]
  refine ⟨rfl, Bool.eq_false_iff.mpr fun hin => ?_⟩
  have hword : x.text ∈ Outline.aggregateWords := List.contains_iff_mem.mp hin
  exact g.keyword_text hx hu hkey (List.mem_cons_of_mem _ (List.mem_append_right _ hword)) rfl

/-- **A use in the heading** of an aggregate: its keyword is behind the word for the aggregate
    and before the braces. -/
theorem Ground.inHeading [ContentHash] (g : Ground doc found types branches) (hu : u ∈ uses types)
    (h : doc.HasNode branches u.2.node kind parts) (hscope : doc.AtScope u.2.node)
    (hne : u.2.keyword ≠ u.2.stop) {heading : List Leaf}
    (hsplit : parts = heading.map .leaf ++ more) {block : NodeKind} {inside : List Branch}
    (hblock : .node block inside ∈ more) {word k : Leaf} (hword : word ∈ heading)
    (haggregate : isAggregate word = true) (hk : k ∈ heading) (hkey : k.id = u.2.keyword)
    (hlt : word.id.index < k.id.index) : u.2.inHeading doc = true := by
  obtain ⟨hplain, -⟩ := h.loaded.plain_of_searched (g.done.found u hu).searched
  have hown : ∀ y ∈ heading, .leaf y ∈ parts := fun y hy => by
    rw [hsplit]
    exact List.mem_append_left _ (List.mem_map_of_mem hy)
  have hwordLeaf := h.stretch.subset (Branch.mem_leavesAll_of_leaf (hown word hword))
  unfold Occurrence.inHeading
  simp only [Bool.and_eq_true]
  -- the node is at file scope, has a word for an aggregate, and has its children behind the use
  refine ⟨⟨⟨⟨by simpa using hne, ?_⟩, ?_⟩, ?_⟩, ?_⟩
  · rw [Loaded.container_self hscope]
    simp
  · refine List.any_eq_true.mpr ⟨word.id, (h.owns_iff hplain).mpr ⟨word, hown word hword, rfl⟩, ?_⟩
    rw [Bool.and_eq_true, ← hkey]
    exact ⟨decide_eq_true hlt, isAggregateWord_of_leaf hwordLeaf haggregate⟩
  · obtain ⟨c, hc, -⟩ := h.child (show .node block inside ∈ parts by rw [hsplit]; simp [hblock])
    simpa using List.ne_nil_of_mem hc
  · rw [List.all_eq_true]
    intro c hc
    obtain ⟨kind', inside', hpart, hchild⟩ := h.part hc
    obtain ⟨range, hrange, ⟨-, -, hstart⟩, -⟩ := h.loaded.range hchild.below hchild.ne_root
    obtain ⟨first, behind, hfirst⟩ := List.exists_cons_of_ne_nil hchild.ne_nil
    have hmore : .node kind' inside' ∈ more := by
      rw [hsplit] at hpart
      simpa using hpart
    have hbefore : k.id.index < first.id.index := by
      refine h.ordered _ _ hsplit (by simpa using hk) ?_
      exact (Branch.leaves_stretch_of_mem hmore).subset (by simp [hfirst])
    have hbegin : doc.start c = first.id.index := hchild.start_eq (by rw [hfirst]; rfl)
    rw [hrange, Option.all_some, decide_eq_true_eq, hstart, ← hkey, hbegin]
    exact hbefore

/-- Before the word for an aggregate stands a `typedef` at most. -/
theorem heading_split {heading : List Leaf} {word : Leaf}
    (hplace : kind = .statement ∧ heading.head? = some word
      ∨ kind = .typedef ∧ heading[1]? = some word)
    (hfirst : kind = .typedef → ∀ x, heading.head? = some x → x.kind = .typedef) :
    ∃ init rest, heading = init ++ word :: rest ∧ ∀ y ∈ init, y.kind = .typedef := by
  rcases hplace with ⟨-, hhead⟩ | ⟨htypedef, hsecond⟩
  · obtain ⟨rest, rfl⟩ := List.head?_eq_some_iff.mp hhead
    exact ⟨[], rest, rfl, by simp⟩
  · cases heading with
    | nil => simp at hsecond
    | cons first rest =>
      obtain ⟨rest, rfl⟩ := List.head?_eq_some_iff.mp
        ((List.head?_eq_getElem? (l := rest)).trans (by simpa using hsecond))
      exact ⟨[first], rest, rfl, by simpa using hfirst htypedef first rfl⟩

/-- A use that takes one of the parts of an aggregate up to its braces has its keyword in the
    heading. -/
theorem Ground.inHeading_of_taken [ContentHash] (g : Ground doc found types branches)
    (hu : u ∈ uses types)
    (h : doc.HasNode branches u.2.node kind parts) (hscope : doc.AtScope u.2.node)
    (hparams : kind ≠ .functionParams) {heading init rest : List Leaf} {block : NodeKind}
    {inside : List Branch} {word : Leaf} (hform : heading = init ++ word :: rest)
    (hinit : ∀ y ∈ init, y.kind = .typedef) (haggregate : isAggregate word = true)
    (hsplit : parts = heading.map .leaf ++ .node block inside :: more) {part : Branch}
    (hpart : part ∈ heading.map .leaf ++ [.node block inside]) (hx : x ∈ part.leaves)
    (hlow : u.2.keyword.index < x.id.index) (hhigh : x.id.index ≤ (cut u.2).last.index) :
    u.2.inHeading doc = true := by
  obtain ⟨⟨k, hk, hkey⟩, -⟩ := g.ends_own hu h
  obtain ⟨before, after, hsame⟩ := List.append_of_mem hpart
  have hbefore := h.mem_before_of_lt before (after ++ more)
    (by simpa [hsplit] using congrArg (· ++ more) hsame) hk hx (by rw [hkey]; exact hlow)
  have hheading : k ∈ heading := by
    have hmem : Branch.leaf k ∈ heading.map .leaf ++ [.node block inside] := by
      rw [hsame]
      exact List.mem_append_left _ hbefore
    simpa using hmem
  have hkleaf := h.stretch.subset (Branch.mem_leavesAll_of_leaf hk)
  -- a keyword is neither a `typedef` nor the word for an aggregate
  have hbehind : k ∈ rest := by
    rw [hform] at hheading
    rcases List.mem_append.mp hheading with hin | hin
    · have hword := g.keyword_kind hkleaf hu hkey.symm
      rw [hinit k hin] at hword
      exact TokenKind.noConfusion hword
    · refine (List.mem_cons.mp hin).resolve_left ?_
      rintro rfl
      rw [g.keyword_not_aggregate hkleaf hu hkey.symm] at haggregate
      exact Bool.noConfusion haggregate
  have hlt : word.id.index < k.id.index := by
    refine h.ordered ((init ++ [word]).map .leaf) (rest.map .leaf ++ .node block inside :: more) ?_
      (by simp) (by simp [hbehind])
    rw [hsplit, hform]
    simp
  obtain ⟨_, token, type, later, hlaid⟩ := g.laidOut hu
  have hnamed := g.named_of_kind hu (by rw [h.kind?]; simpa using hparams)
  have hne : u.2.keyword ≠ u.2.stop := by
    intro he
    have hlast := (hlaid.cut_last.resolve_right fun hunnamed => by
      rw [hnamed] at hunnamed
      exact Bool.noConfusion hunnamed.1).2
    rw [hlast, ← he] at hhigh
    omega
  exact g.inHeading hu h hscope hne hsplit List.mem_cons_self (show word ∈ heading by simp [hform])
    haggregate hheading hkey hlt

namespace Relexed

variable {new : TokenList} (r : Relexed doc types new)

/-- **The parts of an aggregate** up to its braces stay, if no use is in its heading. -/
theorem whole [ContentHash] (g : Ground doc found types branches)
    (hheading : ∀ use ∈ found, use.inHeading doc = false)
    (h : doc.HasNode branches n kind parts) (hscope : doc.AtScope n)
    (hfree : ¬ Covered doc types n)
    (hfirst : kind = .typedef → ∀ x, parts.head? = some (.leaf x) → x.kind = .typedef)
    (hparts : top <+: parts) (htop : Branch.HeadsAggregate kind top) : r.recast.Firm top := by
  obtain ⟨heading, block, inside, word, htop, haggregate, hplace⟩ := htop
  obtain ⟨more, hmore⟩ := hparts
  have hsplit : parts = heading.map .leaf ++ .node block inside :: more := by simp [← hmore, htop]
  have hkinds : kind ≠ .functionParams ∧ kind ≠ .statementBlock := by
    rcases hplace with ⟨rfl, -⟩ | ⟨rfl, -⟩ <;> simp
  obtain ⟨init, rest, hform, hinit⟩ := heading_split hplace fun htypedef x hx =>
    hfirst htypedef x (by rw [hsplit, List.head?_append, List.head?_map, hx]; rfl)
  have hin : ∀ part ∈ top, part ∈ parts := fun part hpart => by
    rw [← hmore]
    exact List.mem_append_left _ hpart
  -- no use has its keyword in the heading, so none takes one of the parts
  have hnone : ∀ u ∈ uses types, u.2.node = n → ∀ part ∈ top, ∀ x ∈ part.leaves,
      u.2.keyword.index < x.id.index → x.id.index ≤ (cut u.2).last.index → False := by
    rintro u hu rfl part hpart x hx hlow hhigh
    have htaken := g.inHeading_of_taken hu h hscope hkinds.1 hform hinit haggregate hsplit
      (htop ▸ hpart) hx hlow hhigh
    rw [hheading u.2 (g.mem hu)] at htaken
    exact Bool.noConfusion htaken
  refine ⟨fun x hx => ?_, fun kind' inside' hpart => ?_⟩
  · have hown := hin _ hx
    refine r.keeps_own g h hown hkinds.1 (fun hwithin => ?_) (not_starts h hown hkinds.2)
    obtain ⟨u, hu, hnode, hlow, hhigh⟩ := g.node_of_within h hfree hown hwithin
    exact hnone u hu hnode _ hx x (by simp) hlow hhigh
  · obtain ⟨c, hc, hchild⟩ := h.child (hin _ hpart)
    refine (r.stays_iff g hchild).mpr fun hcovered => ?_
    obtain ⟨u, hu, hnode, hlow, hhigh⟩ := g.node_of_covered h hfree hc hcovered
    obtain ⟨y, hy⟩ := List.exists_mem_of_ne_nil _ hchild.ne_nil
    have hplace := hchild.between hy
    exact hnone u hu hnode _ hpart y (by simpa using hy) (by omega) (by omega)

end Relexed

/-! ## §2. File scope -/

/-- **A construct at file scope** goes with no use. -/
theorem Ground.scope_free [ContentHash] (g : Ground doc found types branches)
    (h : doc.HasNode branches n kind parts) (hscope : doc.AtScope n) : ¬ Covered doc types n := by
  rintro ⟨u, hu, hlow, hhigh⟩
  obtain ⟨range, hrange, ⟨-, -, hstart⟩, -⟩ := h.loaded.range h.below h.ne_root
  have horder := h.loaded.start_le_stop h.below h.ne_root
  exact Lowering.scope_uncut h.loaded (g.done.found u hu) hscope ⟨range, hrange, rfl⟩ (by omega)
    (by omega)

/-- The nodes in a linkage block stand at file scope. -/
theorem atScope_child (h : doc.HasNode branches n .linkageBlock parts) {kind' : NodeKind}
    {inside : List Branch} (hpart : .node kind' inside ∈ parts) :
    ∃ c, doc.AtScope c ∧ doc.HasNode branches c kind' inside := by
  obtain ⟨c, hc, hchild⟩ := h.child hpart
  exact ⟨c, ⟨n, (h.loaded.forest.parent_iff _ _).mpr hc, .inr h.kind?⟩, hchild⟩

/-- So do those at the top of the file. -/
theorem atScope_top (hload : Loaded doc)
    (hbranched : Outline.Branched doc.tokens doc.tree doc.tree.children branches)
    (hpart : .node kind parts ∈ branches) :
    ∃ c, doc.AtScope c ∧ doc.HasNode branches c kind parts := by
  obtain ⟨c, hc, hnode⟩ := Document.HasNode.of_top hload hbranched hpart
  exact ⟨c, ⟨root, (hload.forest.parent_iff _ _).mpr hc, .inl rfl⟩, hnode⟩

namespace Relexed

variable {new : TokenList} (r : Relexed doc types new)

/-- Lines are put before no own leaf of a node but the first. -/
theorem lead_own [ContentHash] (g : Ground doc found types branches)
    (h : doc.HasNode branches n kind parts)
    (hx : .leaf x ∈ parts) (hbehind : doc.start n < x.id.index) : r.recast.lead x = [] := by
  have hleaf := h.stretch.subset (Branch.mem_leavesAll_of_leaf hx)
  refine (r.lead_nil g.done hleaf fun construct hscope hstarts => ?_).2
  obtain ⟨hbelow, hne⟩ := h.loaded.below_of_atScope hscope
  obtain ⟨-, -, hindex⟩ := h.loaded.starts hbelow hne hstarts
  have hplace := h.between (Branch.mem_leavesAll_of_leaf hx)
  have horder := h.loaded.start_le_stop hbelow hne
  rcases h.loaded.placed.laminar h.below hbelow with hin | hin | hlt | hlt
  · rcases Relation.ReflTransGen.cases_head hin with rfl | ⟨c, hc, hcb⟩
    · omega
    · have hnest : doc.start c ≤ doc.start construct ∧ doc.stop construct ≤ doc.stop c :=
        h.loaded.placed.nested_below (h.below.tail hc) hcb
      have haway := h.outside hx hc
      omega
  · have hnest : doc.start construct ≤ doc.start n ∧ doc.stop n ≤ doc.stop construct :=
      h.loaded.placed.nested_below hbelow hin
    omega
  · omega
  · omega

/-- Constructs are nodes, and a type definition begins with its word. -/
theorem construct_node {branch : Branch} {rest : List Leaf}
    (h : Reads .construct [branch] rest) : ∃ kind parts, branch = .node kind parts
      ∧ kind ≠ .linkageBlock
      ∧ (kind = .typedef → ∀ x, parts.head? = some (.leaf x) → x.kind = .typedef) := by
  cases h with
  | typedef hk =>
    refine ⟨_, _, rfl, by simp, ?_⟩
    rintro - x hx
    obtain rfl : _ = x := by simpa using hx
    exact hk
  | typedefStruct hk =>
    refine ⟨_, _, rfl, by simp, ?_⟩
    rintro - x hx
    obtain rfl : _ = x := by simpa using hx
    exact hk
  | _ => exact ⟨_, _, rfl, by simp, by simp⟩

/-- **Lines stand at file scope only**, and the words before the braces of aggregates stay. -/
theorem allScoped [ContentHash] (g : Ground doc found types branches)
    (hheading : ∀ use ∈ found, use.inHeading doc = false) {part : Outline.Part}
    {items : List Branch} {rest : List Leaf} (h : Reads part items rest)
    (hpart : part = .item ∨ part = .items)
    (hscope : ∀ kind parts, .node kind parts ∈ items →
      ∃ c, doc.AtScope c ∧ doc.HasNode branches c kind parts) :
    ∀ branch ∈ items, r.recast.Scoped branch := by
  induction h with
  -- lines are put before the first word of a block only, where it starts
  | @linkage first name opener closer parts rest _ _ _ _ _ ih =>
    obtain ⟨c, -, hnode⟩ := hscope _ _ List.mem_cons_self
    have hstart : doc.start c = first.id.index := hnode.start_eq (by simp)
    have hlead : ∀ x, .leaf x ∈ .leaf name :: .leaf opener :: (parts ++ [.leaf closer]) →
        r.recast.lead x = [] := by
      intro x hx
      refine r.lead_own g hnode (List.mem_cons_of_mem _ hx) ?_
      rw [hstart]
      exact hnode.ordered [.leaf first] _ rfl (by simp) (Branch.mem_leavesAll_of_leaf hx)
    refine List.forall_mem_singleton.mpr (.linkage (hlead name (by simp)) (hlead opener (by simp))
      (hlead closer (by simp)) (ih (.inr rfl) fun kind' inside hin => ?_))
    exact atScope_child hnode (by simp [hin])
  | @construct branch rest _ hreads _ =>
    obtain ⟨kind, parts, rfl, hkind, hfirst⟩ := construct_node hreads
    obtain ⟨c, hc, hnode⟩ := hscope kind parts List.mem_cons_self
    exact List.forall_mem_singleton.mpr (.construct hkind
      (fun x hx => (r.lead_behind g hnode hkind hx).2) fun top hparts htop =>
        r.whole g hheading hnode hc (g.scope_free hnode hc) hfirst hparts htop)
  | itemsEnd => simp
  | itemsCons _ _ ih ih' =>
    refine List.forall_mem_cons.mpr ⟨?_, ih' (.inr rfl) fun kind parts hin =>
      hscope kind parts (List.mem_cons_of_mem _ hin)⟩
    exact List.forall_mem_singleton.mp (ih (.inl rfl) fun kind parts hin =>
      hscope kind parts (by simpa using .inl (List.mem_singleton.mp hin)))
  | _ => rcases hpart with hpart | hpart <;> simp at hpart

end Relexed

end Weave

/-! ## §3. A prepared file -/

/-- The words that the readers know are spelled by words in a file that was read. -/
theorem TokenList.spelled {list : TokenList} (h : (list.spells list.ids).Reads []) :
    Outline.Spelled list.leaves where
  linkage x hx htext := by
    rw [kind_of_start h hx (by rw [htext]; decide), htext]
    rfl
  aggregate x hx haggregate := by
    unfold isAggregate at haggregate
    rcases Bool.or_eq_true_iff.mp haggregate with hkind | htext
    · rw [beq_iff_eq.mp hkind]
      rfl
    · have hwords : ∀ word ∈ Outline.aggregateWords,
          Lexeme.isIdentStart ((Text.bytes word).headD 0) = true
            ∧ ((TokenKind.keyword? word).getD .symbol).isDelimiter = false := by decide
      obtain ⟨hstart, hplain⟩ := hwords x.text (List.contains_iff_mem.mp htext)
      rw [kind_of_start h hx hstart, hplain]

/-- Leaves of a file that was read, as the parser expects them. -/
theorem TokenList.lexed {list : TokenList} (hlist : list.Threaded list.ids)
    (h : (list.spells list.ids).Reads []) : Outline.Lexed list.leaves where
  nodup := leaves_nodup hlist
  worded x hx htext := by
    rw [(spelled h).linkage x hx htext]
    rfl

namespace Weave.Relexed

variable {doc : Document} {found : List Occurrence} {types : List Declared}
  {branches : List Branch} {new : TokenList} (r : Relexed doc types new)

/-- **The changes respect the loaded file**, if its uses leave it tidy. -/
theorem prepared [ContentHash] (g : Ground doc found types branches) (htidy : doc.Tidy found)
    (hreads : (new.spells new.ids).Reads []) : r.recast.Prepared branches := by
  have hload := g.done.loaded
  have hscoped := r.allScoped g htidy.outside g.branched.reads (.inr rfl)
    fun kind parts hpart => atScope_top hload g.branched hpart
  refine ⟨r.fits g htidy.nested, fun branch hbranch => ?_, hscoped, ?_, ?_⟩
  · cases hscoped branch hbranch with
    | construct | linkage =>
      obtain ⟨c, hc, hnode⟩ := atScope_top hload g.branched hbranch
      exact (r.stays_iff g hnode).mpr (g.scope_free hnode hc)
  · rw [g.branched.leaves]
    exact r.led g.done hreads
  · rw [g.branched.leaves]
    exact TokenList.spelled g.done.reads

end Weave.Relexed

/-- **A prepared file can be read again.**  Behind the built-in header the text of a prepared file
    is split into tokens that have an outline, if the uses leave the loaded file tidy. -/
theorem process_outlined [ContentHash] {σ : Type} {disk : Disk (StateM σ)} {s s' : σ}
    {config : Config}
    {source text : String} (hheader : config.prologue? = none)
    (h : (process disk config source).run s = (.ok text, s')) :
    ∃ doc found, Document.load config source = .ok doc ∧ Occurrence.findAll doc = .ok found
      ∧ (doc.Tidy found →
        ∃ list tree, TokenList.lex text = .ok list ∧ list.parse = .ok tree) := by
  obtain ⟨doc, doc₁, state, hload, hfabric, hdiscover, hrun, rfl⟩ := process_lowers h
  obtain ⟨found, types, hfound, htypes, hrefs, hperm, hdone, hspells⟩ :=
    Lowering.run_done hload hheader hfabric hdiscover hrun
  refine ⟨doc, found, hload, hfound, fun htidy => ?_⟩
  -- the text is split into the tokens that it was written from
  have hreads : (state.document.tokens.spells state.document.tokens.ids).Reads [] := by
    rw [hspells, hdone.reads_iff]
    exact fun u hu => htidy.apart u.2 (hperm.subset (List.mem_map_of_mem hu))
  obtain ⟨list, hlex, hsame⟩ := (Document.readsBack_iff _).mpr hreads
  rw [← hsame] at hreads
  obtain ⟨r⟩ := Weave.exists_relexed hdone.loaded.threaded.nodup (hsame.trans hspells)
  -- and the leaves of the loaded file, which has an outline, are changed as the outline allows
  obtain ⟨hlexDoc, hparse, -⟩ := Document.load_ok hload
  obtain ⟨kids, branches, hbranched⟩ := Outline.branched_of_parse hlexDoc hparse
  obtain rfl : kids = doc.tree.children := (funext hbranched.forest.children_eq).symm
  have g : Weave.Ground doc found types branches :=
    ⟨hdone, ⟨⟨config, source, hload⟩, hfound, htypes, hrefs⟩, hperm, hbranched⟩
  obtain ⟨branches', hleaves, hitems⟩ :=
    hbranched.reads.recast (r.prepared g htidy hreads)
  rw [hbranched.leaves, ← r.leaves_eq hdone] at hleaves
  have hlexed := TokenList.lexed (TokenList.lex_unedited hlex).wellFormed.threaded hreads
  exact ⟨list, list.outline, hlex,
    TokenList.parse_of_none ((Outline.parse_iff hlexed).mpr ⟨branches', hleaves, hitems⟩)⟩

/-- A kernel parameter goes as a whole and leaves a file that can be read again.  One with a comma
    between braces ends there, and leaves a brace that closes nothing. -/
theorem process_outlined_braces :
    ∃ disk : Disk (StateM Unit),
      (∃ text list tree,
        (process disk {} "kernel void k(Texture2Du<float> a) \x7b \x7d").run () = (.ok text, ())
          ∧ TokenList.lex text = .ok list ∧ list.parse = .ok tree)
      ∧ ∃ doc found,
        Document.load {} "kernel void k(Texture2Du<float> a = \x7b1, 2\x7d) \x7b \x7d" = .ok doc
          ∧ Occurrence.findAll doc = .ok found ∧ ¬ doc.Tidy found := by
  let disk : Disk (StateM Unit) :=
    ⟨fun _ => pure (.error .notFound), fun _ _ => pure (.ok ())⟩
  -- a source with the uses in it, and whether they leave it tidy
  have hcase : ∀ (source : String) (tidy : Bool),
      ((Document.load {} source).toOption.bind fun doc =>
        (Occurrence.findAll doc).toOption.map fun found => decide (doc.Tidy found)) = some tidy →
      ∃ doc found, Document.load {} source = .ok doc ∧ Occurrence.findAll doc = .ok found
        ∧ decide (doc.Tidy found) = tidy := by
    intro source tidy heval
    cases hload : Document.load {} source with
    | error error => simp [hload, Except.toOption] at heval
    | ok doc =>
      rw [hload] at heval
      obtain ⟨found, hfound, htidy⟩ := Option.map_eq_some_iff.mp heval
      cases hall : Occurrence.findAll doc with
      | error error => simp [hall, Except.toOption] at hfound
      | ok all =>
        rw [hall] at hfound
        obtain rfl : all = found := Option.some.inj hfound
        exact ⟨doc, all, rfl, hall, htidy⟩
  refine ⟨disk, ?_, ?_⟩
  · obtain ⟨doc, found, hload, hfound, htidy⟩ :=
      hcase "kernel void k(Texture2Du<float> a) \x7b \x7d" true (by decide +kernel)
    have hok : ((process disk {} "kernel void k(Texture2Du<float> a) \x7b \x7d").run ()).1.isOk
        = true := by decide +kernel
    cases hrun : (process disk {} "kernel void k(Texture2Du<float> a) \x7b \x7d").run () with
    | mk result t =>
      rw [hrun] at hok
      cases result with
      | error error => simp [Except.isOk, Except.toBool] at hok
      | ok text =>
        obtain ⟨doc', found', hload', hfound', houtline⟩ := process_outlined rfl hrun
        obtain rfl : doc = doc' := Except.ok.inj (hload.symm.trans hload')
        obtain rfl : found = found' := Except.ok.inj (hfound.symm.trans hfound')
        obtain ⟨list, tree, hlex, hparse⟩ := houtline (of_decide_eq_true htidy)
        exact ⟨text, list, tree, rfl, hlex, hparse⟩
  · obtain ⟨doc, found, hload, hfound, htidy⟩ :=
      hcase "kernel void k(Texture2Du<float> a = \x7b1, 2\x7d) \x7b \x7d" false (by decide +kernel)
    exact ⟨doc, found, hload, hfound, of_decide_eq_false htidy⟩

end KernelPrep
