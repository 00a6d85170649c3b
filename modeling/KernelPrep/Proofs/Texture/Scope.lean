/-
  KernelPrep.Proofs.Texture.Scope — constructs at file scope, and what lies in them.

  Textures are looked for in statements, type definitions and parameter lists, and what
  comes of them is put before constructs at file scope and into the bodies of functions.
  None of the latter places lies inside one of the former constructs, except that both may
  begin with the same token.

  Main definitions:
    * `Loaded`           — what is known of a document that was just loaded;
    * `Document.Plain`   — a node other than the root and linkage blocks;
    * `Document.AtScope` — a child of the root or of a linkage block;
    * `Document.IsBody`  — the body of a function definition.

  Main statements:
    * `Document.load_loaded`    — loading a source;
    * `Loaded.scope_start`      — a construct at file scope begins with the token of a use or
      outside of it;
    * `Loaded.function_outside`, `Loaded.body_outside` — functions and their bodies neither
      begin nor end in a construct that is searched.
-/
import KernelPrep.Outline.Function
import KernelPrep.Proofs.Document.Coherence

namespace KernelPrep

open NodeTree (Below Forest root)

/-! ## §1. Loaded documents -/

/-- The outline of the document is that of its tokens, all of which were just read. -/
structure Loaded (doc : Document) : Prop where
  unedited : doc.tokens.Unedited
  outlined : ∃ items, Outlined doc.tokens doc.tree doc.tree.children items
    ∧ Outline.Tiles items doc.tokens.leaves

/-- What was loaded is as loaded. -/
theorem Document.load_loaded {config : Config} {source : String} {doc : Document}
    (h : Document.load config source = .ok doc) : Loaded doc := by
  obtain ⟨hlex, hparse, -, -⟩ := Document.load_ok h
  have hfresh := TokenList.lex_unedited hlex
  have hlist := hfresh.wellFormed.threaded
  obtain ⟨htree, hnone⟩ := TokenList.parse_eq_ok hparse
  obtain ⟨kids, hout⟩ := TokenList.outline_outlined hlist
  obtain ⟨read, rest, hleaves, htiles, hdone⟩ := Outline.parse_ok (TokenList.leaves_nodup hlist)
  obtain ⟨rfl, -⟩ := hdone hnone
  rw [List.append_nil] at hleaves
  rw [← htree] at hout
  have hkids : doc.tree.children = kids := funext hout.forest.children_eq
  exact ⟨hfresh, _, hkids ▸ hout, hleaves ▸ htiles⟩

/-- The place where a node begins. -/
abbrev Document.start (doc : Document) (id : NodeId) : Nat := firstPlace doc.tokens doc.tree id

/-- The place where a node ends. -/
abbrev Document.stop (doc : Document) (id : NodeId) : Nat := lastPlace doc.tokens doc.tree id

/-- A node of the tree other than the root and linkage blocks. -/
structure Document.Plain (doc : Document) (id : NodeId) : Prop where
  below : Below doc.tree.children root id
  ne_root : id ≠ root
  not_linkage : doc.tree.kind? id ≠ some .linkageBlock

/-- The node stands at file scope. -/
def Document.AtScope (doc : Document) (id : NodeId) : Prop :=
  ∃ parent, doc.tree.parent? id = some parent
    ∧ (parent = root ∨ doc.tree.kind? parent = some .linkageBlock)

/-- The node starts with the token. -/
def Document.Starts (doc : Document) (node : NodeId) (id : TokenId) : Prop :=
  ∃ range, doc.tree.tokens? node = some range ∧ range.first = id

/-- The node is the body of the function definition. -/
structure Document.IsBody (doc : Document) (function body : NodeId) : Prop where
  definition : doc.tree.kind? function = some .functionDefn
  body : Outline.functionBody? doc.tree function = some body

namespace Loaded

variable {doc : Document} {id top : NodeId}

/-- The links go through the tokens of the file. -/
theorem threaded (h : Loaded doc) : doc.tokens.Threaded doc.tokens.ids :=
  h.unedited.wellFormed.threaded

/-- The links of the tree spell lists of children. -/
theorem forest (h : Loaded doc) : doc.tree.Forest doc.tree.children := by
  obtain ⟨items, hout, -⟩ := h.outlined
  exact hout.forest

/-- Every node stands at its place in the file. -/
theorem placed (h : Loaded doc) :
    Placed doc.tree.tokens? doc.tokens.ids doc.tree.children doc.start doc.stop := by
  obtain ⟨items, hout, -⟩ := h.outlined
  exact hout.placed h.threaded

/-- Every node begins and ends with tokens that count. -/
theorem sheltered (h : Loaded doc) (hid : Below doc.tree.children root id) (hne : id ≠ root) :
    Sheltered doc.tokens doc.tree doc.tree.children id := by
  obtain ⟨items, hout, -⟩ := h.outlined
  exact hout.sheltered h.threaded hid hne

/-- Every node that was made is a node of the tree. -/
theorem below_root (h : Loaded doc) (hlt : id.index < doc.tree.nodes.size) :
    Below doc.tree.children root id := by
  obtain ⟨items, hout, -⟩ := h.outlined
  exact NodeTree.ofSkeletons_below hout.kids_root hout.planted (hout.size ▸ hlt)

/-- Every node of the tree stands in the array. -/
theorem index_lt (h : Loaded doc) (hid : Below doc.tree.children root id) :
    id.index < doc.tree.nodes.size := by
  obtain ⟨node, hnode⟩ := h.forest.live_of_attached (h.forest.attached_iff.mpr hid)
  exact NodeTree.index_lt_of_get? hnode

/-- What is of a kind hangs from the root. -/
theorem below_root_of_kind? (h : Loaded doc) {kind : NodeKind}
    (hkind : doc.tree.kind? id = some kind) : Below doc.tree.children root id := by
  obtain ⟨node, hnode⟩ := NodeTree.live_of_kind? hkind
  exact h.below_root (NodeTree.index_lt_of_get? hnode)

/-- No node of a loaded document was put in by a pass. -/
theorem kind_ne (h : Loaded doc) : doc.tree.kind? id ≠ some .userTokens := by
  intro hkind
  have hb := h.below_root_of_kind? hkind
  obtain ⟨items, hout, -⟩ := h.outlined
  by_cases hne : id = root
  · rw [hne, hout.kind_root] at hkind
    simp at hkind
  · obtain ⟨s, own, hstands⟩ := hout.standsOn h.threaded hb hne
    rw [hstands.kind?] at hkind
    exact hstands.covers.kind_ne (Option.some.inj hkind)

/-- The ends of a node below the root are significant tokens of the file, at the places where
    the node begins and ends. -/
theorem range (h : Loaded doc) (hid : Below doc.tree.children root id) (hne : id ≠ root) :
    ∃ range, doc.tree.tokens? id = some range
      ∧ (range.first ∈ doc.tokens.ids ∧ doc.tokens.isSignificant range.first = true
        ∧ range.first.index = doc.start id)
      ∧ (range.last ∈ doc.tokens.ids ∧ range.last.index = doc.stop id) := by
  obtain ⟨items, hout, -⟩ := h.outlined
  obtain ⟨s, own, hstands⟩ := hout.standsOn h.threaded hid hne
  obtain ⟨⟨hfirst, hsig⟩, hlast, -⟩ := hout.ends h.threaded hid hne hstands.tokens?
  refine ⟨s.range, hstands.tokens?, ⟨hfirst, hsig, ?_⟩, hlast, ?_⟩
  · rw [← h.unedited.place_eq hfirst]
    exact hstands.places.1.symm
  · rw [← h.unedited.place_eq hlast]
    exact hstands.places.2.symm

/-- A node starts with a token of the file that counts, and there its place is. -/
theorem starts (h : Loaded doc) (hid : Below doc.tree.children root id) (hne : id ≠ root)
    {token : TokenId} (hs : doc.Starts id token) :
    token ∈ doc.tokens.ids ∧ doc.tokens.isSignificant token = true
      ∧ token.index = doc.start id := by
  obtain ⟨range, hrange, rfl⟩ := hs
  obtain ⟨range', hrange', hfirst, -⟩ := h.range hid hne
  rw [hrange] at hrange'
  obtain rfl := Option.some.inj hrange'
  exact hfirst

/-- No node ends before it begins. -/
theorem start_le_stop (h : Loaded doc) (hid : Below doc.tree.children root id) (hne : id ≠ root) :
    doc.start id ≤ doc.stop id := by
  obtain ⟨items, hout, -⟩ := h.outlined
  obtain ⟨s, own, hstands⟩ := hout.standsOn h.threaded hid hne
  exact hstands.order h.threaded

/-! ## §2. Scope -/

/-- Nothing below a plain node is of a kind that stands at file scope only. -/
theorem unscoped_below (h : Loaded doc) (htop : doc.Plain top)
    (hb : Below doc.tree.children top id) (hne : id ≠ top) {kind : NodeKind}
    (hkind : doc.tree.kind? id = some kind) : kind.isScoped = false := by
  induction hb generalizing kind with
  | refl => exact absurd rfl hne
  | @tail parent child hparent hstep ih =>
    have hroot : parent ≠ root := by
      rintro rfl
      exact h.forest.not_below_root htop.ne_root hparent
    refine (h.sheltered (htop.below.trans hparent) hroot).fileScope ?_ child hstep kind hkind
    intro hlink
    by_cases he : parent = top
    · exact htop.not_linkage (he ▸ hlink)
    · exact absurd (ih he hlink) (by simp [NodeKind.isScoped])

/-- Nothing strictly below a plain node stands at file scope. -/
theorem not_atScope_below (h : Loaded doc) (htop : doc.Plain top)
    (hb : Below doc.tree.children top id) (hne : id ≠ top) : ¬ doc.AtScope id := by
  rintro ⟨parent, hparent, hscope⟩
  have hstep := (h.forest.parent_iff parent id).mp hparent
  have hb' := (h.forest.below_cases hb hstep).resolve_left hne
  rcases hscope with rfl | hlink
  · exact h.forest.not_below_root htop.ne_root hb'
  · by_cases he : parent = top
    · exact htop.not_linkage (he ▸ hlink)
    · exact absurd (h.unscoped_below htop hb' he hlink) (by simp [NodeKind.isScoped])

/-- No plain node is above the places at file scope. -/
theorem not_above_scope (h : Loaded doc) (htop : doc.Plain top) {parent : NodeId}
    (hscope : parent = root ∨ doc.tree.kind? parent = some .linkageBlock) :
    ¬ Below doc.tree.children top parent := by
  intro hb
  rcases hscope with rfl | hlink
  · exact h.forest.not_below_root htop.ne_root hb
  · have hne : parent ≠ top := fun he => htop.not_linkage (he ▸ hlink)
    exact absurd (h.unscoped_below htop hb hne hlink) (by simp [NodeKind.isScoped])

/-- What is of a kind that stands at file scope only stands there. -/
theorem atScope_of_isScoped (h : Loaded doc) (hid : Below doc.tree.children root id)
    (hne : id ≠ root) {kind : NodeKind} (hkind : doc.tree.kind? id = some kind)
    (hscoped : kind.isScoped = true) : doc.AtScope id := by
  rcases Relation.ReflTransGen.cases_tail hid with he | ⟨parent, hparent, hstep⟩
  · exact absurd he hne
  · refine ⟨parent, (h.forest.parent_iff parent id).mpr hstep, ?_⟩
    by_cases hroot : parent = root
    · exact Or.inl hroot
    · refine Or.inr ?_
      by_contra hlink
      have hfalse := (h.sheltered hparent hroot).fileScope hlink id hstep kind hkind
      rw [hscoped] at hfalse
      exact Bool.noConfusion hfalse

/-- A construct at file scope hangs from the root. -/
theorem below_of_atScope (h : Loaded doc) (hscope : doc.AtScope id) :
    Below doc.tree.children root id ∧ id ≠ root := by
  obtain ⟨parent, hparent, -⟩ := hscope
  have hchild := (h.forest.parent_iff parent id).mp hparent
  obtain ⟨n, hn⟩ := h.forest.live_child hchild
  exact ⟨h.below_root (NodeTree.index_lt_of_get? hn), h.forest.child_ne_root hchild⟩

/-- **A construct at file scope** begins with the first token of a stretch of a plain node, or
    outside of the stretch. -/
theorem scope_start (h : Loaded doc) {construct node : NodeId} (hscope : doc.AtScope construct)
    (hnode : doc.Plain node) {p q : Nat} (hp : doc.start node ≤ p) (hq : q ≤ doc.stop node)
    (hlow : p ≤ doc.start construct) (hhigh : doc.start construct ≤ q) :
    doc.start construct = p := by
  obtain ⟨hc, hne⟩ := h.below_of_atScope hscope
  have horder := h.start_le_stop hc hne
  rcases h.placed.laminar hnode.below hc with hb | hb | hlt | hlt
  · by_cases he : construct = node
    · rw [he] at hlow ⊢
      omega
    · exact absurd hscope (h.not_atScope_below hnode hb he)
  · have hnest := h.placed.nested_below hc hb
    omega
  · omega
  · omega

/-! ## §3. Functions and their bodies -/

/-- A node that is neither the root nor a linkage block, by its kind. -/
theorem plain_of_kind? (h : Loaded doc) {kind : NodeKind} (hkind : doc.tree.kind? id = some kind)
    (hroot : kind ≠ .root) (hlink : kind ≠ .linkageBlock) : doc.Plain id := by
  refine ⟨h.below_root_of_kind? hkind, ?_, ?_⟩
  · rintro rfl
    obtain ⟨items, hout, -⟩ := h.outlined
    rw [hout.kind_root] at hkind
    exact hroot (Option.some.inj hkind).symm
  · rw [hkind]
    exact fun he => hlink (Option.some.inj he)

/-- Functions are plain nodes, and no statements. -/
theorem plain_of_isFunction (h : Loaded doc) {kind : NodeKind}
    (hkind : doc.tree.kind? id = some kind) (hfunction : kind.isFunction = true) :
    doc.Plain id ∧ doc.tree.kind? id ≠ some .statement := by
  have hother : ∀ other : NodeKind, other.isFunction = false → kind ≠ other := by
    rintro other hfalse rfl
    rw [hfunction] at hfalse
    exact Bool.noConfusion hfalse
  refine ⟨h.plain_of_kind? hkind (hother _ rfl) (hother _ rfl), ?_⟩
  rw [hkind]
  simpa using hother .statement rfl

/-- A kernel is a function whose first word says so. -/
theorem isKernel_inv {list : TokenList} {tree : NodeTree} {function : NodeId}
    (h : Outline.isKernel list tree function = true) :
    ∃ kind range, tree.kind? function = some kind ∧ kind.isFunction = true
      ∧ tree.tokens? function = some range
      ∧ list.textOf range.first ∈ ["kernel", "__kernel", "__global__", "extern"] := by
  unfold Outline.isKernel at h
  split at h
  · simp at h
  rename_i node hnode
  split at h
  · simp at h
  rename_i range htokens
  have hfunction : node.kind.isFunction = true := by
    by_contra hnot
    simp [hnot] at h
  rw [hfunction, Bool.not_true, if_neg Bool.false_ne_true] at h
  refine ⟨node.kind, range, ?_, hfunction, ?_, ?_⟩
  · unfold NodeTree.kind?
    rw [hnode]
    rfl
  · unfold NodeTree.tokens?
    rw [hnode]
    exact htokens
  · split at h <;> simp_all

section Body

variable {function body node : NodeId}

/-- The body of a function is a block among its children. -/
theorem mem_of_functionBody? (hbody : Outline.functionBody? doc.tree function = some body) :
    body ∈ doc.tree.children function ∧ doc.tree.kind? body = some .statementBlock := by
  unfold Outline.functionBody? Outline.childOfKind? at hbody
  have hkind := List.find?_some hbody
  exact ⟨List.mem_of_find?_eq_some hbody, by simpa using hkind⟩

/-- Functions stand at file scope. -/
theorem atScope_definition (h : Loaded doc)
    (hdef : doc.tree.kind? function = some .functionDefn) : doc.AtScope function := by
  have hplain := h.plain_of_kind? hdef (by simp) (by simp)
  exact h.atScope_of_isScoped hplain.below hplain.ne_root hdef rfl

/-- The kinds of the nodes that are searched lie neither around a definition nor are they its
    body. -/
theorem not_above_definition (h : Loaded doc)
    (hdef : doc.tree.kind? function = some .functionDefn) (hnode : doc.Plain node)
    (hkind : doc.tree.kind? node ≠ some .functionDefn) :
    ¬ Below doc.tree.children node function := by
  intro hb
  by_cases he : function = node
  · exact hkind (he ▸ hdef)
  · exact h.not_atScope_below hnode hb he (h.atScope_definition hdef)

/-- **A function definition** begins outside of the nodes that are searched. -/
theorem function_outside (h : Loaded doc)
    (hdef : doc.tree.kind? function = some .functionDefn) (hnode : doc.Plain node)
    (hkind : doc.tree.kind? node ≠ some .functionDefn) :
    doc.start function < doc.start node ∨ doc.stop node < doc.start function := by
  have hplain := h.plain_of_kind? hdef (by simp) (by simp)
  have horder := h.start_le_stop hplain.below hplain.ne_root
  rcases h.placed.laminar hplain.below hnode.below with hb | hb | hlt | hlt
  · rcases Relation.ReflTransGen.cases_head hb with he | ⟨c, hc, hcb⟩
    · exact absurd (he ▸ hdef) hkind
    · have hlead := (h.sheltered hplain.below hplain.ne_root).lead (by rw [hdef]; simp) c hc
      have hnest := h.placed.nested_below (hplain.below.tail hc) hcb
      exact Or.inl (Nat.lt_of_lt_of_le hlead hnest.1)
  · exact absurd hb (h.not_above_definition hdef hnode hkind)
  · left
    omega
  · exact Or.inr hlt

/-- The body of a function is an ordinary node. -/
theorem plain_body (h : Loaded doc) (hbody : doc.IsBody function body) : doc.Plain body :=
  h.plain_of_kind? (mem_of_functionBody? hbody.body).2 (by simp) (by simp)

/-- **The body of a function** begins and ends outside of the nodes that are searched. -/
theorem body_outside (h : Loaded doc) (hbody : doc.IsBody function body)
    (hnode : doc.Plain node) (hkind : doc.tree.kind? node ≠ some .functionDefn)
    (hblock : doc.tree.kind? node ≠ some .statementBlock) :
    (doc.start body < doc.start node ∨ doc.stop node < doc.start body)
      ∧ (doc.stop body < doc.start node ∨ doc.stop node < doc.stop body) := by
  obtain ⟨hmem, hbkind⟩ := mem_of_functionBody? hbody.body
  have hplain := h.plain_body hbody
  have horder := h.start_le_stop hplain.below hplain.ne_root
  rcases h.placed.laminar hplain.below hnode.below with hb | hb | hlt | hlt
  · rcases Relation.ReflTransGen.cases_head hb with he | ⟨c, hc, hcb⟩
    · exact absurd (he ▸ hbkind) hblock
    · have hsh := h.sheltered hplain.below hplain.ne_root
      -- a block begins and ends with braces of its own, outside of what it holds
      have hlead := hsh.lead (by rw [hbkind]; simp) c hc
      have htrail := hsh.trail hbkind c hc
      have hnest := h.placed.nested_below (hplain.below.tail hc) hcb
      exact ⟨Or.inl (Nat.lt_of_lt_of_le hlead hnest.1), Or.inr (Nat.lt_of_le_of_lt hnest.2 htrail)⟩
  · -- a node above the body is the body or above the function
    by_cases he : body = node
    · exact absurd (he ▸ hbkind) hblock
    · have hup := (h.forest.below_cases hb hmem).resolve_left he
      exact absurd hup (h.not_above_definition hbody.definition hnode hkind)
  · exact ⟨Or.inl (by omega), Or.inl hlt⟩
  · exact ⟨Or.inr hlt, Or.inr (by omega)⟩

/-- No body of a function begins in the body of another. -/
theorem function_eq_of_body (h : Loaded doc) {function' body' : NodeId}
    (hbody : doc.IsBody function body) (hbody' : doc.IsBody function' body')
    (hlow : doc.start body ≤ doc.start body') (hhigh : doc.start body' ≤ doc.stop body) :
    function = function' := by
  -- a body strictly below another would have its function below the other, too
  have hnot : ∀ {f b f' b'}, doc.IsBody f b → doc.IsBody f' b' →
      Below doc.tree.children b b' → b' = b := by
    intro f b f' b' hb hb' hbelow
    by_contra hne
    obtain ⟨hmem, -⟩ := mem_of_functionBody? hb'.body
    have hup := (h.forest.below_cases hbelow hmem).resolve_left hne
    have hkind : doc.tree.kind? b ≠ some .functionDefn := by
      rw [(mem_of_functionBody? hb.body).2]
      simp
    exact h.not_above_definition hb'.definition (h.plain_body hb) hkind hup
  have hplain := h.plain_body hbody
  have hplain' := h.plain_body hbody'
  have horder' := h.start_le_stop hplain'.below hplain'.ne_root
  have heq : body = body' := by
    rcases h.placed.laminar hplain.below hplain'.below with hb | hb | hlt | hlt
    · exact (hnot hbody hbody' hb).symm
    · exact hnot hbody' hbody hb
    · omega
    · omega
  have hp := (h.forest.parent_iff _ _).mpr (mem_of_functionBody? hbody.body).1
  have hp' := (h.forest.parent_iff _ _).mpr (mem_of_functionBody? hbody'.body).1
  rw [heq, hp'] at hp
  exact (Option.some.inj hp).symm

/-- Every function definition has a body. -/
theorem exists_body (h : Loaded doc) (hdef : doc.tree.kind? function = some .functionDefn) :
    ∃ body, doc.IsBody function body := by
  have hplain := h.plain_of_kind? hdef (by simp) (by simp)
  have hparts := (h.sheltered hplain.below hplain.ne_root).parts hdef
  have hblock : some NodeKind.statementBlock ∈ (doc.tree.children function).map doc.tree.kind? := by
    rw [hparts]
    simp
  obtain ⟨child, hchild, hkind⟩ := List.mem_map.mp hblock
  have hfound : (Outline.functionBody? doc.tree function).isSome = true :=
    List.find?_isSome.mpr ⟨child, hchild, by rw [hkind]; rfl⟩
  obtain ⟨body, hbody⟩ := Option.isSome_iff_exists.mp hfound
  exact ⟨body, hdef, hbody⟩

/-- The children of plain nodes are plain. -/
theorem plain_child (h : Loaded doc) (htop : doc.Plain top)
    (hmem : node ∈ doc.tree.children top) : doc.Plain node := by
  refine ⟨htop.below.tail hmem, h.forest.child_ne_root hmem, ?_⟩
  intro hlink
  have hb : Below doc.tree.children top node := Relation.ReflTransGen.single hmem
  have hne : node ≠ top := by
    rintro rfl
    exact h.forest.notMem_self node hmem
  exact absurd (h.unscoped_below htop hb hne hlink) (by simp [NodeKind.isScoped])

/-- What stands in the body of a function is an ordinary node. -/
theorem plain_in_body (h : Loaded doc) (hbody : doc.IsBody function body)
    (hmem : node ∈ doc.tree.children body) : doc.Plain node :=
  h.plain_child (h.plain_body hbody) hmem

/-- The token before one behind the first of a body is in the body, too. -/
theorem before_in_body (h : Loaded doc) (hbody : doc.IsBody function body) {x : TokenId}
    (hx : x ∈ doc.tokens.ids) (hlt : doc.start body < x.index) :
    ∃ a u b, doc.tokens.ids = (a ++ [u]) ++ x :: b ∧ doc.start body ≤ u.index
      ∧ u.index < x.index := by
  have hplain := h.plain_body hbody
  obtain ⟨range, -, ⟨hfirst, -, hindex⟩, -⟩ := h.range hplain.below hplain.ne_root
  have hpair := h.unedited.pairwise_index
  obtain ⟨before, b, hfile⟩ := List.append_of_mem hx
  rw [hfile] at hpair hfirst
  obtain ⟨hbefore, hbehind, hcross⟩ := List.pairwise_append.mp hpair
  -- the body's first token has the lower number, and numbers go with the order
  have hin : range.first ∈ before := by
    rcases List.mem_append.mp hfirst with hin | hin
    · exact hin
    · rcases List.mem_cons.mp hin with he | hin
      · rw [← hindex, he] at hlt
        exact absurd hlt (Nat.lt_irrefl _)
      · have hlater := (List.pairwise_cons.mp hbehind).1 _ hin
        rw [hindex] at hlater
        exact absurd hlt (Nat.lt_asymm hlater)
  obtain ⟨a, u, rfl⟩ := (List.eq_nil_or_concat' before).resolve_left
    (List.ne_nil_of_mem hin)
  refine ⟨a, u, b, hfile, ?_, hcross u (by simp) x List.mem_cons_self⟩
  rw [← hindex]
  rcases List.mem_append.mp hin with hin | hin
  · exact Nat.le_of_lt ((List.pairwise_append.mp hbefore).2.2 _ hin u (by simp))
  · rw [List.mem_singleton.mp hin]

/-- The parameter list of a definition ends before its body begins. -/
theorem params_before_body (h : Loaded doc) (hbody : doc.IsBody function body) {params : NodeId}
    (hparent : doc.tree.parent? params = some function)
    (hkind : doc.tree.kind? params = some .functionParams) :
    doc.stop params < doc.start body := by
  have hplain := h.plain_of_kind? hbody.definition (by simp) (by simp)
  have hsh := h.sheltered hplain.below hplain.ne_root
  have hparts := hsh.parts hbody.definition
  have hapart := hsh.apart
  have hmem := (h.forest.parent_iff _ _).mp hparent
  obtain ⟨hbmem, hbkind⟩ := mem_of_functionBody? hbody.body
  -- a definition has exactly two parts, its parameters and its body
  obtain ⟨x, rest, hx⟩ := List.exists_cons_of_ne_nil (List.ne_nil_of_mem hmem)
  rw [hx, List.map_cons, List.cons.injEq] at hparts
  obtain ⟨hxkind, hrest⟩ := hparts
  obtain ⟨y, hy, hykind⟩ := List.map_eq_singleton_iff.mp hrest
  rw [hx, hy] at hmem hbmem hapart
  simp only [List.mem_cons, List.not_mem_nil, or_false] at hmem hbmem
  have hpx : params = x := by
    rcases hmem with he | he
    · exact he
    · rw [he, hykind] at hkind
      simp at hkind
  have hby : body = y := by
    rcases hbmem with he | he
    · rw [he, hxkind] at hbkind
      simp at hbkind
    · exact he
  rw [hpx, hby]
  exact (List.pairwise_cons.mp hapart).1 y (by simp)

end Body

/-! ## §4. Containers -/

/-- What is found on the way up to a linkage block or the root stands at file scope. -/
theorem below?_container (h : Loaded doc) {construct : NodeId} {fuel : Nat} (hid : doc.Plain id)
    (hc : doc.tree.below? (fun parent =>
      parent == root || doc.tree.kind? parent == some .linkageBlock) fuel id = some construct) :
    doc.Plain construct ∧ doc.AtScope construct := by
  induction fuel generalizing id with
  | zero => simp [NodeTree.below?] at hc
  | succ fuel ih =>
    unfold NodeTree.below? at hc
    cases hp : doc.tree.parent? id with
    | none => simp [hp] at hc
    | some parent =>
      rw [hp] at hc
      dsimp only at hc
      split at hc
      · rename_i hstop
        obtain rfl := Option.some.inj hc
        exact ⟨hid, parent, hp, by simpa using hstop⟩
      · rename_i hstop
        have hstep := (h.forest.parent_iff parent id).mp hp
        obtain ⟨n, hn⟩ := h.forest.live_parent hstep
        have hboth : parent ≠ root ∧ doc.tree.kind? parent ≠ some .linkageBlock := by
          simpa using hstop
        -- a parent that does not stop the search is itself neither the root nor a linkage block
        exact ih ⟨h.below_root (NodeTree.index_lt_of_get? hn), hboth.1, hboth.2⟩ hc

/-- **The construct that holds a node** is a plain one at file scope. -/
theorem container (h : Loaded doc) {construct : NodeId} (hid : doc.Plain id)
    (hc : doc.tree.container? id = some construct) :
    doc.Plain construct ∧ doc.AtScope construct := h.below?_container hid hc

/-- **Every plain node** is in some construct at file scope. -/
theorem exists_container (h : Loaded doc) (hid : doc.Plain id) :
    ∃ construct, doc.tree.container? id = some construct := by
  have hlive := h.forest.live_of_attached (h.forest.attached_iff.mpr hid.below)
  have hlineage := h.forest.lineage id
  have hfuel : (doc.tree.ancestors id).length < doc.tree.walkBound := by
    unfold NodeTree.walkBound
    exact Nat.lt_succ_of_lt (h.forest.length_ancestors_lt hlive)
  -- a child of the root is on the way up
  rcases Relation.ReflTransGen.cases_head hid.below with he | ⟨top, htop, hb⟩
  · exact absurd he.symm hid.ne_root
  have hmem : top ∈ id :: doc.tree.ancestors id :=
    (NodeTree.Lineage.mem_iff h.forest (NodeTree.Lineage.up hlineage)).mpr ⟨id, rfl, hb⟩
  unfold NodeTree.container?
  rw [hlineage.below?_eq hfuel]
  refine Option.isSome_iff_exists.mp (List.find?_isSome.mpr ⟨top, hmem, ?_⟩)
  rw [(h.forest.parent_iff root top).mpr htop]
  simp

/-- What stands at file scope is its own container. -/
theorem container_self (h : doc.AtScope id) : doc.tree.container? id = some id := by
  obtain ⟨parent, hp, hor⟩ := h
  unfold NodeTree.container? NodeTree.walkBound NodeTree.below?
  rw [hp]
  dsimp only
  rw [if_pos]
  simpa using hor

/-- The leaves begin with the first significant token. -/
theorem head_leaves (h : Loaded doc) :
    doc.tokens.leaves.head?.map (·.id) = doc.tokens.ids.find? doc.tokens.isSignificant := by
  rw [← List.head?_map, TokenList.leaves_ids h.threaded, List.head?_filter]

/-- The first construct starts with the first significant token. -/
theorem first_construct (h : Loaded doc) {construct : NodeId}
    (hfirst : doc.tree.firstChild? root = some construct) :
    doc.AtScope construct ∧ ∃ range, doc.tree.tokens? construct = some range
      ∧ doc.tokens.ids.find? doc.tokens.isSignificant = some range.first := by
  obtain ⟨items, hout, htiles⟩ := h.outlined
  rw [hout.forest.first] at hfirst
  have hparent := (hout.forest.parent_iff root construct).mpr (List.mem_of_head? hfirst)
  refine ⟨⟨root, hparent, Or.inl rfl⟩, ?_⟩
  rw [hout.kids_root] at hfirst
  have hplanted := hout.planted
  rw [← h.head_leaves]
  -- the items tile the leaves, so the first of them has the first leaf
  generalize doc.tokens.leaves = leaves at htiles
  cases htiles with
  | nil => simp [Skeleton.tops] at hfirst
  | @cons s ss own rest hs hrest =>
    obtain rfl : (⟨1⟩ : NodeId) = construct := Option.some.inj hfirst
    unfold Skeleton.PlantedAllAt at hplanted
    obtain ⟨leaf, hleaf, hid⟩ := Option.map_eq_some_iff.mp hs.bounds.1
    refine ⟨s.range, ?_, ?_⟩
    · have hp := hplanted.1
      cases s
      unfold Skeleton.PlantedAt at hp
      exact hp.2.1
    · rw [List.head?_append, hleaf, Option.some_or, Option.map_some, hid]

/-- A file without constructs has no significant token. -/
theorem no_construct (h : Loaded doc) (hfirst : doc.tree.firstChild? root = none) :
    doc.tokens.ids.find? doc.tokens.isSignificant = none := by
  obtain ⟨items, hout, htiles⟩ := h.outlined
  rw [hout.forest.first, hout.kids_root] at hfirst
  rw [← h.head_leaves]
  generalize doc.tokens.leaves = leaves at htiles
  cases htiles with
  | nil => rfl
  | cons hs hrest => simp [Skeleton.tops] at hfirst

end Loaded

end KernelPrep
