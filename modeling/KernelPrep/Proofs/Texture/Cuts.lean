/-
  KernelPrep.Proofs.Texture.Cuts — what a use takes out of the nodes of a file.

  The tokens of a use run from a keyword through another token of the same node.  A node that
  begins behind the keyword of a use, and not behind the use, is below the node of the use and
  goes with it as a whole.  Parameter lists have no nodes in them.  In statements and type
  definitions, where a use takes angle brackets and words only, what goes with it is in braces:
  other nodes are set off by a comma or a closing delimiter from the words before them.

  Main definitions:
    * `Occurrence.LaidOut`    — a use among the own tokens of its node;
    * `Occurrence.Covers`     — a node among the tokens of a use;
    * `Occurrence.IsUnbroken` — there is no opening brace between a keyword and the end of its type.

  Main statements:
    * `Occurrence.findAll_laidOut`  — how the uses of a document are laid out;
    * `Document.HasNode.cut_cases`  — a use and a node;
    * `Document.HasNode.braced_of_covers` — what goes with a use is in braces;
    * `Document.HasNode.uncovered`  — no node goes with a use that is unbroken.
-/
import KernelPrep.Proofs.Outline.SetOff
import KernelPrep.Proofs.Texture.Owned
import KernelPrep.Proofs.Texture.ReadBack

namespace KernelPrep

open NodeTree (Below)

/-! ## §1. Uses among own tokens -/

namespace Occurrence

/-- A use among the own tokens of its node: its keyword, the tokens of its type, and for a
    kernel parameter the parameter behind them. -/
structure LaidOut (doc : Document) (o : Occurrence) (before : List (TokenId × Token))
    (token : Token) (type rest : List (TokenId × Token)) : Prop where
  entries : entries doc o.node = before ++ (o.keyword, token) :: (type ++ rest)
  word : token.kind = .symbol
  stop : (((o.keyword, token) :: type).map (·.1)).getLast? = some o.stop
  kinds : ∀ entry ∈ type, entry.2.kind ∈ [.less, .symbol, .greater]
  texel : ∀ id ∈ o.texel, id ∈ type.map (·.1)
  param : o.isNamed = false → doc.tree.kind? o.node = some .functionParams
    ∧ ∃ param, o.param? = some param ∧ paramName token.text rest = .ok param

/-- The tokens of a type behind its keyword. -/
theorem texelType_split {keyword : String} {tokens : List (TokenId × Token)} {tail : TypeTail}
    (h : texelType keyword tokens = .ok tail) :
    ∃ type, tokens = type ++ tokens.drop tail.length
      ∧ (∀ entry ∈ type, entry.2.kind ∈ [.less, .symbol, .greater])
      ∧ (∀ id ∈ tail.texel, id ∈ type.map (·.1))
      ∧ (type.map (·.1)).getLast? = some tail.stop := by
  obtain ⟨angle, words, close, rest, rfl, hless, -, hwords, hgreater, rfl⟩ := texelType_ok h
  have hsplit : angle :: (words ++ close :: rest) = (angle :: words ++ [close]) ++ rest := by
    simp
  have hlength : (angle :: words ++ [close]).length = words.length + 2 := by simp
  refine ⟨angle :: words ++ [close], ?_, ?_, ?_, ?_⟩
  · rw [hsplit, ← hlength, List.drop_left]
  · intro entry hentry
    rcases List.mem_append.mp hentry with hin | hin
    · rcases List.mem_cons.mp hin with rfl | hin
      · simp [hless]
      · simp [hwords entry hin]
    · rw [List.mem_singleton.mp hin]
      simp [hgreater]
  · intro id hid
    rw [List.map_append, List.map_cons]
    exact List.mem_append_left _ (List.mem_cons_of_mem _ hid)
  · rw [List.map_append, List.map_singleton, List.getLast?_concat]

/-- **A use that is read** is laid out behind its keyword. -/
theorem read_laidOut {doc : Document} {node : NodeId} {kind : TextureKind} {id : TokenId}
    {token : Token} {before rest : List (TokenId × Token)} {o : Occurrence} {n : Nat}
    (hentries : Occurrence.entries doc node = before ++ (id, token) :: rest)
    (hword : token.kind = .symbol)
    (h : read doc node (doc.tree.kind? node == some .functionParams) kind id token rest
      = .ok (o, n)) :
    ∃ type more, LaidOut doc o before token type more := by
  obtain ⟨tail, -, htail, hplace⟩ := read_inv h
  obtain ⟨type, hsplit, hkinds, hwords, hstop⟩ : ∃ type, rest = type ++ rest.drop tail.length
      ∧ (∀ entry ∈ type, entry.2.kind ∈ [.less, .symbol, .greater])
      ∧ (∀ id ∈ tail.texel, id ∈ type.map (·.1))
      ∧ (((id, token) :: type).map (·.1)).getLast? = some tail.stop := by
    rcases htail with ⟨-, htexel⟩ | ⟨-, rfl⟩
    · obtain ⟨type, hsplit, hkinds, hwords, hstop⟩ := texelType_split htexel
      refine ⟨type, hsplit, hkinds, hwords, ?_⟩
      rw [List.map_cons, List.getLast?_cons, hstop]
      rfl
    · exact ⟨[], rfl, by simp, by simp, rfl⟩
  refine ⟨type, rest.drop tail.length, ?_⟩
  rcases hplace with rfl | ⟨hparams, param, context, hparam, -, rfl⟩
  · exact ⟨by rw [hentries, ← hsplit], hword, hstop, hkinds, hwords,
      fun hnamed => Bool.noConfusion hnamed⟩
  · exact ⟨by rw [hentries, ← hsplit], hword, hstop, hkinds, hwords,
      fun _ => ⟨by simpa using hparams, param, rfl, hparam⟩⟩

/-- **The uses of a document** are laid out among the own tokens of their nodes. -/
theorem findAll_laidOut {doc : Document} {found : List Occurrence} (h : findAll doc = .ok found)
    {o : Occurrence} (ho : o ∈ found) :
    ∃ before token type rest, LaidOut doc o before token type rest := by
  obtain ⟨rfl, hscan⟩ := findAll_eq h
  obtain ⟨node, hnode, ho⟩ := List.mem_flatMap.mp ho
  obtain ⟨id, token, rest, signature, n, ⟨before, hentries⟩, hsignature, hread⟩ :=
    scanFrom_read (hscan node hnode) ho
  have hword : token.kind = .symbol := by
    by_contra hne
    simp [signature?, hne] at hsignature
  obtain ⟨type, more, hlaid⟩ := read_laidOut hentries.symm hword hread
  exact ⟨before, token, type, more, hlaid⟩

/-- A use that becomes a name ends with its type, a kernel parameter with the parameter. -/
theorem LaidOut.cut_last {doc : Document} {o : Occurrence}
    {before type rest : List (TokenId × Token)}
    {token : Token} (h : LaidOut doc o before token type rest) :
    o.isNamed = true ∧ (Weave.cut o).last = o.stop
      ∨ o.isNamed = false
        ∧ ∃ param, paramName token.text rest = .ok param ∧ (Weave.cut o).last = param.last := by
  -- a cut goes to the end of the type, or of the parameter where the platform names that
  cases hnamed : o.isNamed with
  | true =>
    refine .inl ⟨rfl, ?_⟩
    unfold Weave.cut
    unfold isNamed at hnamed
    split
    · rename_i hcontext _
      simp [hcontext] at hnamed
    · rfl
  | false =>
    obtain ⟨-, param, hparam, hname⟩ := h.param hnamed
    refine .inr ⟨rfl, param, hname, ?_⟩
    unfold Weave.cut
    unfold isNamed at hnamed
    split at hnamed
    · rename_i hcontext
      rw [hcontext, hparam]
    · simp at hnamed

end Occurrence

/-! ## §2. Uses and nodes -/

/-- The node lies between the keyword of the use and its last token. -/
def Occurrence.Covers (doc : Document) (o : Occurrence) (n : NodeId) : Prop :=
  o.keyword.index < doc.start n ∧ doc.stop n < (Weave.cut o).last.index

/-- There is no opening brace between the keyword of the use and the end of its type. -/
def Occurrence.IsUnbroken (doc : Document) (o : Occurrence) : Prop :=
  ∀ id ∈ doc.tokens.range ⟨o.keyword, o.stop⟩, doc.tokens.kind? id ≠ some .lbrace

instance (doc : Document) (o : Occurrence) : Decidable (o.IsUnbroken doc) :=
  inferInstanceAs (Decidable (∀ id ∈ doc.tokens.range ⟨o.keyword, o.stop⟩, _))

/-- A parameter list is leaves that nest between parentheses. -/
theorem Outline.Made.params_inv {parts : List Branch} (h : Made (.node .functionParams parts)) :
    ∃ (opener : Leaf) (inner : List Leaf) (closer : Leaf),
      parts = (opener :: (inner ++ [closer])).map .leaf ∧ opener.kind = .lparen
        ∧ closer.kind = .rparen ∧ Nested inner := by
  cases h with
  | other _ _ hne => exact absurd rfl hne
  | params ho hc hinner => exact ⟨_, _, _, rfl, ho, hc, hinner⟩
  | function _ _ hfunction => exact Bool.noConfusion hfunction

/-- A directive is leaves on one line. -/
theorem Outline.Made.directive_inv {parts : List Branch} (h : Made (.node .directive parts)) :
    ∃ (hash : Leaf) (body : List Leaf), parts = (hash :: body).map .leaf
      ∧ ∀ leaf ∈ body, leaf.startsLine = false := by
  cases h with
  | other _ _ _ hne => exact absurd rfl hne
  | directive _ hbody => exact ⟨_, _, rfl, hbody⟩
  | function _ _ hfunction => exact Bool.noConfusion hfunction

/-- The node of a use has its keyword and its last token for itself. -/
theorem Occurrence.Found.hasNode {doc : Document} {branches : List Branch} {o : Occurrence}
    (ho : Found doc o) (hload : Loaded doc)
    (hbranched : Outline.Branched doc.tokens doc.tree doc.tree.children branches) :
    ∃ kind parts, doc.HasNode branches o.node kind parts ∧ isSearched kind = true
      ∧ (∃ x, .leaf x ∈ parts ∧ x.id = o.keyword)
      ∧ ∃ x, .leaf x ∈ parts ∧ x.id = (Weave.cut o).last := by
  obtain ⟨hplain, -⟩ := hload.plain_of_searched ho.searched
  obtain ⟨kind, hkind, hsearched⟩ := (Option.any_eq_true _ _).mp ho.searched
  obtain ⟨parts, hnode⟩ := Document.HasNode.of_kind? hload hbranched hkind hplain.ne_root
  exact ⟨kind, parts, hnode, hsearched, (hnode.owns_iff hplain).mp ho.keyword_mem,
    (hnode.owns_iff hplain).mp (Weave.cut_last_own ho)⟩

namespace Occurrence.LaidOut

variable {doc : Document} {branches parts : List Branch} {kind : NodeKind} {o : Occurrence}
  {before type rest : List (TokenId × Token)} {token : Token} {x : Leaf}

/-- The tokens of a use come in order. -/
theorem pairwise (h : LaidOut doc o before token type rest) (hload : Loaded doc)
    (ho : Found doc o) :
    (before.map (·.1) ++ ((o.keyword :: type.map (·.1)) ++ rest.map (·.1))).Pairwise
      fun a b => a.index < b.index := by
  obtain ⟨hplain, -⟩ := hload.plain_of_searched ho.searched
  have hpair := (hload.ownTokens_pairwise hplain).sublist (entries_sublist doc o.node)
  rw [h.entries] at hpair
  simpa using hpair

/-- The words of a use are among the tokens that it takes. -/
theorem words_between (h : LaidOut doc o before token type rest) (hload : Loaded doc)
    (ho : Found doc o) {id : TokenId} (hid : id ∈ words o) :
    id ∈ o.keyword :: type.map (·.1)
      ∧ o.keyword.index ≤ id.index ∧ id.index ≤ (Weave.cut o).last.index := by
  have hmem : id ∈ o.keyword :: type.map (·.1) := by
    rcases List.mem_cons.mp hid with rfl | hid
    · exact List.mem_cons_self
    · exact List.mem_cons_of_mem _ (h.texel id hid)
  have hpair := (List.pairwise_append.mp (h.pairwise hload ho)).2.1
  obtain ⟨htype, -, hrest⟩ := List.pairwise_append.mp hpair
  -- the type ends with its last token, and what is behind it comes later
  have hstop : id.index ≤ o.stop.index := by
    obtain ⟨front, hfront⟩ := List.getLast?_eq_some_iff.mp h.stop
    rw [List.map_cons] at hfront
    rw [hfront] at hmem htype
    rcases List.mem_append.mp hmem with hin | hin
    · exact Nat.le_of_lt ((List.pairwise_append.mp htype).2.2 id hin _ List.mem_cons_self)
    · rw [List.mem_singleton.mp hin]
  have hlast : o.stop.index ≤ (Weave.cut o).last.index := by
    rcases h.cut_last with ⟨-, hlast⟩ | ⟨-, param, hname, hlast⟩
    · rw [hlast]
    · rw [hlast]
      have hin := List.mem_of_getLast? h.stop
      rw [List.map_cons] at hin
      exact Nat.le_of_lt (hrest _ hin _ (paramName_ok hname).1)
  refine ⟨hmem, ?_, Nat.le_trans hstop hlast⟩
  rcases List.mem_cons.mp hmem with rfl | hin
  · exact Nat.le_refl _
  · exact Nat.le_of_lt ((List.pairwise_cons.mp htype).1 id hin)

/-- The own leaves of the node of a use are those that were laid out. -/
theorem mem_of_leaf (h : LaidOut doc o before token type rest)
    (ho : Found doc o) (hnode : doc.HasNode branches o.node kind parts) (hx : .leaf x ∈ parts) :
    ∃ entry : Token, entry.kind = x.kind
      ∧ (x.id, entry) ∈ before ++ (o.keyword, token) :: (type ++ rest) := by
  have hload := hnode.loaded
  obtain ⟨hplain, -⟩ := hload.plain_of_searched ho.searched
  have hown := (hnode.owns_iff hplain).mpr ⟨x, hx, rfl⟩
  obtain ⟨entry, hentry, -⟩ := hload.threaded.get?_of_mem (hload.mem_ownTokens hplain hown).1
  refine ⟨entry, ?_, ?_⟩
  · have hleaf := hnode.stretch.subset (Branch.mem_leavesAll_of_leaf hx)
    have hkind := (TokenList.leaf_token hleaf).2.1
    rw [TokenList.kind?_of_get? hentry] at hkind
    exact Option.some.inj hkind
  · rw [← h.entries]
    exact mem_entries.mpr ⟨hown, hentry⟩

/-- **What a use that becomes a name takes of its node**: the angle brackets of its type and the
    words between them. -/
theorem kind_of_cut (h : LaidOut doc o before token type rest) (hnamed : o.isNamed = true)
    (ho : Found doc o) (hnode : doc.HasNode branches o.node kind parts)
    (hx : .leaf x ∈ parts) (hlow : o.keyword.index < x.id.index)
    (hhigh : x.id.index ≤ (Weave.cut o).last.index) : x.kind ∈ [.less, .symbol, .greater] := by
  obtain ⟨entry, hkind, hmem⟩ := h.mem_of_leaf ho hnode hx
  obtain ⟨-, hbehind, hbefore⟩ := List.pairwise_append.mp (h.pairwise hnode.loaded ho)
  obtain ⟨-, -, hrest⟩ := List.pairwise_append.mp hbehind
  rcases List.mem_append.mp hmem with hin | hin
  · have hlt : x.id.index < o.keyword.index :=
      hbefore x.id (List.mem_map_of_mem hin) o.keyword (by simp)
    omega
  rcases List.mem_cons.mp hin with he | hin
  · rw [(Prod.mk.inj he).1] at hlow
    exact absurd hlow (Nat.lt_irrefl _)
  rcases List.mem_append.mp hin with hin | hin
  · rw [← hkind]
    exact h.kinds _ hin
  · -- what is behind the type is not taken
    have hstop : (Weave.cut o).last = o.stop := by
      rcases h.cut_last with ⟨-, hlast⟩ | ⟨hunnamed, -⟩
      · exact hlast
      · rw [hnamed] at hunnamed
        exact Bool.noConfusion hunnamed
    have hlast := List.mem_of_getLast? h.stop
    rw [List.map_cons] at hlast
    have hlt : o.stop.index < x.id.index := hrest o.stop hlast x.id (List.mem_map_of_mem hin)
    rw [hstop] at hhigh
    omega

end Occurrence.LaidOut

namespace Document.HasNode

variable {doc : Document} {branches parts : List Branch} {n : NodeId} {kind : NodeKind}
  {o : Occurrence} {x : Leaf}

/-- **A use and a node**: the use is in the node, or takes all of it, or is before or behind. -/
theorem cut_cases (h : doc.HasNode branches n kind parts) (ho : Occurrence.Found doc o) :
    Below doc.tree.children n o.node ∨ (Below doc.tree.children o.node n ∧ o.Covers doc n)
      ∨ (Weave.cut o).last.index < doc.start n ∨ doc.stop n < o.keyword.index := by
  obtain ⟨kind', parts', hnode, -, ⟨key, hkey, hkeyword⟩, last, hlast, hend⟩ :=
    ho.hasNode h.loaded h.branched
  have hforward := Weave.cut_forward h.loaded ho
  have hfirst := hnode.between (Branch.mem_leavesAll_of_leaf hkey)
  have hstop := hnode.between (Branch.mem_leavesAll_of_leaf hlast)
  rw [hkeyword] at hfirst
  rw [hend] at hstop
  rcases h.loaded.placed.laminar h.below hnode.below with hin | hin | hlt | hlt
  · exact .inl hin
  · -- below a child of the node of the use, which its tokens pass as a whole
    rcases Relation.ReflTransGen.cases_head hin with rfl | ⟨c, hc, hcn⟩
    · exact .inl .refl
    have hnest : doc.start c ≤ doc.start n ∧ doc.stop n ≤ doc.stop c :=
      h.loaded.placed.nested_below (hnode.below.tail hc) hcn
    have hbefore := hnode.outside hkey hc
    have hbehind := hnode.outside hlast hc
    rw [hkeyword] at hbefore
    rw [hend] at hbehind
    unfold Occurrence.Covers
    simp only [hin, true_and]
    omega
  · right; right; right; omega
  · right; right; left; omega

/-- A leaf of its own that is before a child of a node is among the parts before it. -/
theorem mem_before {before inside behind : List Branch} {kind' : NodeKind} {c : NodeId}
    (h : doc.HasNode branches n kind (before ++ .node kind' inside :: behind))
    (hchild : doc.HasNode branches c kind' inside)
    (hx : .leaf x ∈ before ++ .node kind' inside :: behind) (hlt : x.id.index < doc.start c) :
    .leaf x ∈ before := by
  obtain ⟨y, hy⟩ := List.exists_mem_of_ne_nil _ hchild.ne_nil
  have hplace := hchild.between hy
  exact h.mem_before_of_lt _ _ rfl hx (by simpa using hy) (by omega)

/-- A leaf among the parts before a child of a node is before the child. -/
theorem lt_of_before {before inside behind : List Branch} {kind' : NodeKind} {c : NodeId}
    (h : doc.HasNode branches n kind (before ++ .node kind' inside :: behind))
    (hchild : doc.HasNode branches c kind' inside) (hx : .leaf x ∈ before) :
    x.id.index < doc.start c := by
  obtain ⟨first, more, hfirst⟩ := List.exists_cons_of_ne_nil hchild.ne_nil
  rw [hchild.start_eq (by rw [hfirst]; rfl)]
  exact h.ordered _ _ rfl (Branch.mem_leavesAll_of_leaf hx) (by simp [hfirst])

/-- With a node a child of the node of the use goes with the use. -/
theorem exists_covered (h : doc.HasNode branches n kind parts) (ho : Occurrence.Found doc o)
    (hcovers : o.Covers doc n) : ∃ c ∈ doc.tree.children o.node, o.Covers doc c := by
  obtain ⟨kind', parts', hnode, -, ⟨key, hkey, hkeyword⟩, -⟩ := ho.hasNode h.loaded h.branched
  have hkeyplace := hnode.between (Branch.mem_leavesAll_of_leaf hkey)
  rw [hkeyword] at hkeyplace
  obtain ⟨hstart, hstop⟩ := hcovers
  have horder := h.loaded.start_le_stop h.below h.ne_root
  -- of a node and a cut one is inside of the other, or they are apart
  rcases h.cut_cases ho with hin | ⟨hin, -⟩ | hlt | hlt
  · have hnest : doc.start n ≤ doc.start o.node ∧ doc.stop o.node ≤ doc.stop n :=
      h.loaded.placed.nested_below h.below hin
    omega
  · rcases Relation.ReflTransGen.cases_head hin with rfl | ⟨c, hc, hcn⟩
    · omega
    -- the child of the occurrence's node that the covered node is in
    obtain ⟨_, _, -, hchild⟩ := hnode.part hc
    have hnest : doc.start c ≤ doc.start n ∧ doc.stop n ≤ doc.stop c :=
      h.loaded.placed.nested_below hchild.below hcn
    have haway := hnode.outside hkey hc
    rw [hkeyword] at haway
    rcases hchild.cut_cases ho with hin' | ⟨-, hcovers⟩ | hlt | hlt
    · have hnest' : doc.start c ≤ doc.start o.node ∧ doc.stop o.node ≤ doc.stop c :=
        h.loaded.placed.nested_below hchild.below hin'
      omega
    · exact ⟨c, hc, hcovers⟩
    · omega
    · omega
  · omega
  · omega

section Children

variable {found : List Occurrence} {c : NodeId} (hload : Loaded doc)
  (hbranched : Outline.Branched doc.tokens doc.tree doc.tree.children branches)
  (hfound : Occurrence.findAll doc = .ok found) (ho : o ∈ found)
  (hc : c ∈ doc.tree.children o.node)

include hload hbranched hfound ho hc

/-- A node with children is no parameter list, so that its uses end with their types. -/
theorem named_of_child : o.isNamed = true ∧ Weave.cut o = ⟨o.keyword, o.stop⟩ := by
  have huse := (Occurrence.findAll_ok hfound).1 o ho
  obtain ⟨_, token, type, rest, hlaid⟩ := Occurrence.findAll_laidOut hfound ho
  obtain ⟨kind', parts', hnode, -⟩ := huse.hasNode hload hbranched
  obtain ⟨_, inside, hpart, -⟩ := hnode.part hc
  rcases hlaid.cut_last with ⟨hnamed, hlast⟩ | ⟨hunnamed, -⟩
  · exact ⟨hnamed, by rw [← hlast, ← Weave.cut_first o]⟩
  · obtain ⟨hparams, -⟩ := hlaid.param hunnamed
    rw [hnode.kind?] at hparams
    obtain rfl := Option.some.inj hparams
    obtain ⟨opener, inner, closer, rfl, -⟩ := (hbranched.reads.made _ hnode.mem).params_inv
    simp at hpart

/-- **A child that goes with a use** is in braces. -/
theorem braced_of_covers (hcovers : o.Covers doc c) :
    ∃ brace ∈ doc.tokens.leaves, brace.kind = .lbrace
      ∧ doc.start c ≤ brace.id.index ∧ brace.id.index ≤ doc.stop c := by
  have huse := (Occurrence.findAll_ok hfound).1 o ho
  obtain ⟨hnamed, -⟩ := named_of_child hload hbranched hfound ho hc
  obtain ⟨_, token, type, rest, hlaid⟩ := Occurrence.findAll_laidOut hfound ho
  obtain ⟨kind', parts', hnode, hsearched, ⟨key, hkey, hkeyword⟩, -⟩ :=
    huse.hasNode hload hbranched
  obtain ⟨hlow, hhigh⟩ := hcovers
  obtain ⟨_, inside, hpart, hchild⟩ := hnode.part hc
  have horder := hload.start_le_stop hchild.below hchild.ne_root
  -- the keyword is a word, so it is no mark that sets off the child
  have hword : key.kind = .symbol := by
    have hentry : (o.keyword, token) ∈ Occurrence.entries doc o.node := by
      rw [hlaid.entries]
      simp
    have hkind := (TokenList.leaf_token (hnode.stretch.subset
      (Branch.mem_leavesAll_of_leaf hkey))).2.1
    rw [hkeyword, TokenList.kind?_of_get? (Occurrence.mem_entries.mp hentry).2] at hkind
    rw [← Option.some.inj hkind]
    exact hlaid.word
  obtain ⟨before, behind, rfl⟩ := List.append_of_mem hpart
  rcases hbranched.reads.parted _ hnode.mem hsearched before _ inside behind rfl with
    ⟨brace, hbrace, hkind⟩ | hended
  · exact ⟨brace, hchild.stretch.subset hbrace, hkind, hchild.between hbrace⟩
  · -- a comma or a closing delimiter would go with the use
    have hbefore := hnode.mem_before hchild hkey (by rw [hkeyword]; exact hlow)
    obtain ⟨first, later, rfl⟩ := List.append_of_mem hbefore
    obtain ⟨mark, hmark, hends⟩ := hended first key later rfl hword
    have hplace := hnode.lt_of_before hchild (x := mark) (by simp [hmark])
    have hbehind : key.id.index < mark.id.index := by
      have hpair := hbranched.ascends.stretch hnode.stretch
      rw [List.append_assoc, List.cons_append, Branch.leavesAll_append, Branch.leavesAll_cons,
        Branch.leaves_leaf, List.singleton_append] at hpair
      refine (List.pairwise_cons.mp (List.pairwise_append.mp hpair).2.1).1 mark ?_
      exact Branch.mem_leavesAll_of_leaf (List.mem_append_left _ hmark)
    rw [hkeyword] at hbehind
    have hkind := hlaid.kind_of_cut hnamed huse hnode (x := mark) (by simp [hmark]) hbehind
      (by omega)
    simp only [List.mem_cons, List.not_mem_nil, or_false] at hkind
    rcases hkind with hkind | hkind | hkind <;> rw [hkind] at hends <;>
      exact absurd hends (by decide)

end Children

/-- **No node goes with a use** that is unbroken. -/
theorem uncovered (h : doc.HasNode branches n kind parts) {found : List Occurrence}
    (hfound : Occurrence.findAll doc = .ok found) (ho : o ∈ found)
    (hunbroken : o.IsUnbroken doc) : ¬ o.Covers doc n := by
  intro hcovers
  have huse := (Occurrence.findAll_ok hfound).1 o ho
  obtain ⟨c, hc, hlow, hhigh⟩ := h.exists_covered huse hcovers
  obtain ⟨-, hcut⟩ := named_of_child h.loaded h.branched hfound ho hc
  obtain ⟨brace, hbrace, hkind, hplace⟩ :=
    braced_of_covers h.loaded h.branched hfound ho hc ⟨hlow, hhigh⟩
  -- the brace would be in the type
  refine hunbroken brace.id ?_ ?_
  · rw [← hcut, Weave.mem_cut_iff h.loaded huse]
    omega
  · rw [← hkind]
    exact (TokenList.leaf_token hbrace).2.1

/-- **Every node begins** at the keyword of a use that is unbroken, before it, or behind the
    use. -/
theorem start_outside (h : doc.HasNode branches n kind parts) {found : List Occurrence}
    (hfound : Occurrence.findAll doc = .ok found) (ho : o ∈ found)
    (hunbroken : o.IsUnbroken doc) :
    doc.start n ≤ o.keyword.index ∨ (Weave.cut o).last.index < doc.start n := by
  have huse := (Occurrence.findAll_ok hfound).1 o ho
  have horder := h.loaded.start_le_stop h.below h.ne_root
  rcases h.cut_cases huse with hin | ⟨-, hcovers⟩ | hlt | hlt
  · have hnest : doc.start n ≤ doc.start o.node ∧ doc.stop o.node ≤ doc.stop n :=
      h.loaded.placed.nested_below h.below hin
    have hkey := (Weave.cut_between h.loaded huse).1.2
    omega
  · exact absurd hcovers (h.uncovered hfound ho hunbroken)
  · exact .inr hlt
  · omega

end Document.HasNode

end KernelPrep
