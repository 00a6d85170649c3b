/-
  KernelPrep.Proofs.Outline.Matching — delimiters in a file that has an outline.

  Groups and blocks are read with an eye on the kinds of delimiters.  The head of a
  function is not: its parameter list is found by looking ahead, where all delimiters count
  alike, and the leaves before it are passed over.  So the delimiters of a file that has an
  outline are level in any case, and nested exactly when those in the heads of its functions
  are.

  Main definitions:
    * `TokenList.looseLeaves` — the significant tokens outside of directives;
    * `TokenList.headLeaves`  — those of a function before its parameter list;
    * `Outline.Even` — level branches, nested up to the heads of functions.

  Main statements:
    * `Outline.Reads.even` — all that is read is even;
    * `TokenList.parse_delimiters` — so is every file that has an outline.
-/
import KernelPrep.Outline.Function
import KernelPrep.Proofs.Outline.Branching
import KernelPrep.Proofs.Token.Lexing

namespace KernelPrep

/-! ## §1. Significant tokens of a file -/

namespace TokenList

/-- The token is in a directive. -/
def inDirective (list : TokenList) (tree : NodeTree) (id : TokenId) : Bool :=
  (List.range tree.nodes.size).any fun n => tree.kind? ⟨n⟩ == some .directive
    && (tree.tokens? ⟨n⟩).any fun range => (list.range range).contains id

/-- The significant tokens outside of directives. -/
def looseLeaves (list : TokenList) (tree : NodeTree) : List Leaf :=
  list.leaves.filter fun leaf => !list.inDirective tree leaf.id

/-- The significant tokens of a function before its parameter list. -/
def headLeaves (list : TokenList) (tree : NodeTree) (function : NodeId) : List Leaf :=
  match tree.tokens? function, (Outline.functionParams? tree function).bind tree.tokens? with
  | some range, some params =>
    list.leaves.filter fun leaf =>
      (list.range ⟨range.first, params.first⟩).contains leaf.id && leaf.id != params.first
  | _, _ => []

end TokenList

/-! ## §2. Branches -/

namespace Branch

/-- The node is a function. -/
def isFunction (branch : Branch) : Bool := branch.kind?.any NodeKind.isFunction

/-- The leaves before the first node. -/
def heading : List Branch → List Leaf
  | .leaf x :: rest => x :: heading rest
  | _ => []

/-- The leaves before the first node are those in front of it. -/
theorem heading_append (name : List Leaf) (kind : NodeKind) (parts rest : List Branch) :
    heading (name.map .leaf ++ .node kind parts :: rest) = name := by
  induction name with
  | nil => rfl
  | cons leaf name ih =>
    rw [List.map_cons, List.cons_append]
    unfold heading
    rw [ih]

end Branch

namespace Outline

open Branch (leavesAll nodesAll looseAll)

/-- The delimiters outside of directives are level, and nested if and only if they are in the
    head of each function. -/
structure Even (branches : List Branch) : Prop where
  level : Worded (leavesAll branches) → Level (looseAll branches)
  nested : Worded (leavesAll branches) → (Nested (looseAll branches)
    ↔ ∀ node ∈ nodesAll branches, node.isFunction = true → Nested (Branch.heading node.parts))

namespace Even

variable {branches more : List Branch} {kind : NodeKind} {word opener closer : Leaf}
  {leaves : List Leaf}

/-- No branches. -/
theorem nil : Even [] := ⟨fun _ => .nil, fun _ => by simp [show Nested [] from .nil]⟩

/-- Branches behind branches. -/
theorem append (h : Even branches) (h' : Even more) : Even (branches ++ more) := by
  have hsplit : Worded (leavesAll (branches ++ more)) →
      Worded (leavesAll branches) ∧ Worded (leavesAll more) := by
    rw [Branch.leavesAll_append]
    exact List.forall_mem_append.mp
  refine ⟨fun hworded => ?_, fun hworded => ?_⟩
  · rw [Branch.looseAll_append]
    exact (h.level (hsplit hworded).1).append (h'.level (hsplit hworded).2)
  · rw [Branch.looseAll_append, Branch.nodesAll_append, List.forall_mem_append,
      ← h.nested (hsplit hworded).1, ← h'.nested (hsplit hworded).2]
    exact (h.level (hsplit hworded).1).paired_append_iff

/-- Nested leaves without a node. -/
theorem ofLeaves (h : Nested leaves) : Even (leaves.map .leaf) :=
  ⟨fun _ => by simpa using h.level, fun _ => by simp [h]⟩

/-- A leaf that is no delimiter. -/
theorem leaf (h : word.kind.isDelimiter = false) : Even [.leaf word] :=
  @ofLeaves [word] (.plain h .nil)

/-- The word that opens a linkage block. -/
theorem linkageWord (h : word.text = "extern") : Even [.leaf word] := by
  have hplain : Worded (leavesAll [.leaf word]) → word.kind.isDelimiter = false :=
    fun hworded => hworded word (by simp) h
  exact ⟨fun hworded => (leaf (hplain hworded)).level hworded,
    fun hworded => (leaf (hplain hworded)).nested hworded⟩

/-- A node that is neither a directive nor a function. -/
theorem node (h : Even branches) (hkind : kind ≠ .directive) (hfunction : kind.isFunction = false) :
    Even [.node kind branches] := by
  have hloose : looseAll [.node kind branches] = looseAll branches := by simp [hkind]
  have hleaves : leavesAll [.node kind branches] = leavesAll branches := by simp
  refine ⟨fun hworded => ?_, fun hworded => ?_⟩
  · rw [hloose]
    exact h.level (hleaves ▸ hworded)
  · rw [hloose, h.nested (hleaves ▸ hworded)]
    simp [Branch.isFunction, Branch.kind?, hfunction]

/-- A directive has no loose leaves. -/
theorem directive : Even [.node .directive (leaves.map .leaf)] := by
  have hloose : looseAll [.node .directive (leaves.map .leaf)] = [] := by simp
  refine ⟨fun _ => by rw [hloose]; exact .nil, fun _ => ?_⟩
  rw [hloose]
  simp [show Nested [] from .nil, Branch.isFunction, Branch.kind?, NodeKind.isFunction]

/-- Branches in braces. -/
theorem enclose (h : Even branches) (hcloser : opener.kind.closer? = some closer.kind) :
    Even (.leaf opener :: (branches ++ [.leaf closer])) := by
  have hkinds := closer?_isCloser hcloser
  have hloose : looseAll (.leaf opener :: (branches ++ [.leaf closer]))
      = opener :: (looseAll branches ++ [closer]) := by simp
  have hinner : Worded (leavesAll (.leaf opener :: (branches ++ [.leaf closer]))) →
      Worded (leavesAll branches) := fun hworded leaf hleaf => hworded leaf (by simp [hleaf])
  refine ⟨fun hworded => ?_, fun hworded => ?_⟩
  · rw [hloose]
    exact Paired.enclose hkinds.1 hkinds.2 trivial (h.level (hinner hworded))
  · have henclosed : Nested (opener :: (looseAll branches ++ [closer]))
        ↔ opener.kind.closer? = some closer.kind ∧ Nested (looseAll branches) :=
      (h.level (hinner hworded)).paired_enclosed_iff hkinds.1 hkinds.2
    rw [hloose, henclosed, h.nested (hinner hworded)]
    simp [hcloser]

/-- **A function**: nested if what comes before its parameter list is. -/
theorem function {name params : List Leaf} (hkind : kind.isFunction = true) (hname : Level name)
    (hparams : Nested params) (h : Even more) :
    Even [.node kind (name.map .leaf ++ .node .functionParams (params.map .leaf) :: more)] := by
  have hdirective : kind ≠ .directive := by
    rintro rfl
    simp [NodeKind.isFunction] at hkind
  have hloose : looseAll
      [.node kind (name.map .leaf ++ .node .functionParams (params.map .leaf) :: more)]
        = name ++ (params ++ looseAll more) := by simp [hdirective]
  have hmore : Worded (leavesAll
        [.node kind (name.map .leaf ++ .node .functionParams (params.map .leaf) :: more)]) →
      Worded (leavesAll more) := fun hworded leaf hleaf => hworded leaf (by simp [hleaf])
  have hsplit : Nested (name ++ (params ++ looseAll more))
      ↔ Nested name ∧ Nested (looseAll more) :=
    hname.paired_append_iff.trans
      (and_congr_right fun _ => hparams.level.paired_append_iff.trans (and_iff_right hparams))
  have hself : (Branch.node kind
      (name.map .leaf ++ .node .functionParams (params.map .leaf) :: more)).isFunction = true :=
    hkind
  have hlist : (Branch.node .functionParams (params.map .leaf)).isFunction = false := rfl
  refine ⟨fun hworded => ?_, fun hworded => ?_⟩
  · rw [hloose]
    exact hname.append (hparams.level.append (h.level (hmore hworded)))
  · rw [hloose, hsplit, h.nested (hmore hworded)]
    simp [hself, hlist, Branch.parts, Branch.heading_append]

end Even

/-! ## §3. What is read -/

/-- What leads to a parameter list is level. -/
theorem Leads.level {before? last? : Option Leaf} {name : List Leaf}
    (h : Leads before? name last?) : Level name := by
  induction h with
  | nil => exact .nil
  | word hplain _ ih => exact .plain (TokenKind.isDelimiter_of_plain hplain) ih
  | group hopener hinner hc _ ih =>
    refine .group ?_ hc trivial hinner ih
    rcases hopener with ⟨hk, -⟩ | hk
    · rw [hk]
      rfl
    · rw [hk]
      rfl

/-- What stands behind a parameter list comes in pairs. -/
theorem Quals.paired {fits : TokenKind → TokenKind → Prop} {quals : List Leaf}
    (h : Quals fits quals) : Paired fits quals := by
  induction h with
  | nil => exact .nil
  | word hk _ ih => exact .plain (by rw [hk]; rfl) ih
  | group hopener hc hfits hinner _ ih =>
    refine .group ?_ hc hfits hinner ih
    rcases hopener with hk | hk
    · rw [hk]
      rfl
    · rw [hk]
      rfl

/-- Declarators are nested. -/
theorem Declarators.even {initialiser : Bool} {branches : List Branch}
    (h : Declarators initialiser branches) : Even branches := by
  induction h with
  | finish hk => exact .leaf (by rw [hk]; rfl)
  | group hgroup _ ih => exact (Even.ofLeaves hgroup.nested).append ih
  | name hk _ ih => exact ((Even.leaf (by rw [hk]; rfl)).node (by simp) rfl).append ih
  | word hk _ ih => exact (Even.leaf (by rw [hk]; rfl)).append ih
  | assign hk _ ih => exact (Even.leaf (by rw [hk]; rfl)).append ih
  | comma hk _ ih => exact (Even.leaf (by rw [hk]; rfl)).append ih
  | other hplain _ _ _ ih =>
    exact (Even.leaf (TokenKind.isDelimiter_of_plain hplain)).append ih

/-- **All that is read is even.** -/
theorem Reads.even {part : Part} {branches : List Branch} {rest : List Leaf}
    (h : Reads part branches rest) : Even branches := by
  induction h with
  | block ho hc _ ih => exact (ih.enclose (by rw [ho, hc]; rfl)).node (by simp) rfl
  -- every other rule puts together parts that are even, and leaves that are no delimiters
  | bodyEnd => exact .nil
  | bodyDirective _ _ ih => exact Even.directive.append ih
  | bodyBlock _ _ ih ih' => exact ih.append ih'
  | bodyLone hk _ ih => exact ((Even.leaf (by rw [hk]; rfl)).node (by simp) rfl).append ih
  | bodyStatement _ _ _ _ ih ih' => exact (ih.node (by simp) rfl).append ih'
  | tailEnd => exact .nil
  | tailSemicolon hk => exact .leaf (by rw [hk]; rfl)
  | tailBlock _ ih => exact ih
  | tailBlockOn _ _ ih ih' => exact ih.append ih'
  | tailGroup hgroup _ _ _ ih => exact (Even.ofLeaves hgroup.nested).append ih
  | tailAssign hk _ ih => exact (Even.leaf (by rw [hk]; rfl)).append ih
  | tailWord hplain _ ih =>
    exact (Even.leaf (TokenKind.isDelimiter_of_plain hplain)).append ih
  | struct hk _ ih => exact (Even.leaf (by rw [hk]; rfl)).append ih
  | structTagged hk htag _ ih =>
    exact (Even.leaf (by rw [hk]; rfl)).append
      (((Even.leaf (by rw [htag]; rfl)).node (by simp) rfl).append ih)
  | directive => exact .directive
  | lone hk => exact (Even.leaf (by rw [hk]; rfl)).node (by simp) rfl
  | typedef hk _ _ ih => exact ((Even.leaf (by rw [hk]; rfl)).append ih).node (by simp) rfl
  | typedefStruct hk _ hnames ih =>
    exact ((Even.leaf (by rw [hk]; rfl)).append
      ((ih.node (by simp) rfl).append hnames.even)).node (by simp) rfl
  | structDecl hk htag hlast =>
    exact ((Even.leaf (by rw [hk]; rfl)).append
      (((Even.leaf (by rw [htag]; rfl)).node (by simp) rfl).append
        (Even.leaf (by rw [hlast]; rfl)))).node (by simp) rfl
  | structDefn _ hnames ih => exact (ih.append hnames.even).node (by simp) rfl
  -- in the head of a function the parameter list is paired, but only level before it
  | definition _ hproto _ ih =>
    obtain ⟨before?, hleads, -⟩ := hproto.leads
    refine .function rfl hleads.level ?_ ((Even.ofLeaves hproto.behind.paired).append ih)
    exact hproto.between.enclose (by rw [hproto.paren]; rfl) hproto.closes hproto.pair
  | prototype _ hproto hk =>
    obtain ⟨before?, hleads, -⟩ := hproto.leads
    refine .function rfl hleads.level ?_
      ((Even.ofLeaves hproto.behind.paired).append (Even.leaf (by rw [hk]; rfl)))
    exact hproto.between.enclose (by rw [hproto.paren]; rfl) hproto.closes hproto.pair
  | statement _ _ _ _ ih => exact ih.node (by simp) rfl
  | linkage hfirst hname ho hc _ ih =>
    exact ((Even.linkageWord hfirst).append ((Even.leaf (by rw [hname]; rfl)).append
      (ih.enclose (by rw [ho, hc]; rfl)))).node (by simp) rfl
  | construct _ _ ih => exact ih
  | itemsEnd => exact .nil
  | itemsCons _ _ ih ih' => exact ih.append ih'

/-! ## §4. Files -/

namespace Branched

variable {list : TokenList} {tree : NodeTree} {kids : NodeId → List NodeId}
  {branches : List Branch}

/-- Directives of the tree and of the branches hold the same leaves. -/
theorem inDirective_eq (h : Branched list tree kids branches) {leaf : Leaf}
    (hleaf : leaf ∈ list.leaves) :
    list.inDirective tree leaf.id = Branch.inDirective (nodesAll branches) leaf := by
  rw [Bool.eq_iff_iff]
  unfold TokenList.inDirective Branch.inDirective
  simp only [List.any_eq_true, List.mem_range, Bool.and_eq_true, beq_iff_eq,
    List.contains_iff_mem, Option.any_eq_true]
  constructor
  -- the root is no directive, and every other node is one of the branches
  · rintro ⟨n, hn, hkind, range, hrange, hin⟩
    have hroot : (⟨n⟩ : NodeId) ≠ NodeTree.root := by
      intro he
      rw [he, h.kind_root] at hkind
      simp at hkind
    obtain ⟨node, hnode, hat⟩ := h.exists_node hn hroot
    refine ⟨node, hnode, ?_, ?_⟩
    · unfold Branch.isDirective
      rw [← hat.kind?, hkind]
      rfl
    · obtain rfl := Option.some.inj (hat.tokens?.symm.trans hrange)
      exact (h.mem_range_iff (h.stretch hnode) (h.reads.made node hnode).ne_nil hleaf).mp hin
  · rintro ⟨node, hnode, hdirective, hin⟩
    obtain ⟨id, hid, hat⟩ := h.exists_id hnode
    refine ⟨id.index, hid, ?_, _, hat.tokens?, ?_⟩
    · rw [hat.kind?]
      unfold Branch.isDirective at hdirective
      exact beq_iff_eq.mp hdirective
    · exact (h.mem_range_iff (h.stretch hnode) (h.reads.made node hnode).ne_nil hleaf).mpr hin

/-- The tokens outside of directives are the leaves outside of them. -/
theorem looseLeaves_eq (h : Branched list tree kids branches) :
    list.looseLeaves tree = looseAll branches := by
  rw [Branch.looseAll_eq branches (h.leaves ▸ h.ascends.nodup), h.leaves]
  refine List.filter_congr fun leaf hleaf => ?_
  rw [h.inDirective_eq hleaf]

/-- The parameter list of a function is its first child, right behind it. -/
theorem params_of_isAt (h : Branched list tree kids branches) {id : NodeId} {kind : NodeKind}
    {name : List Leaf} {opener : Leaf} {inner : List Leaf} {more : List Branch}
    (hat : Branch.IsAt tree kids id (.node kind
      (name.map .leaf ++ .node .functionParams ((opener :: inner).map .leaf) :: more))) :
    Outline.functionParams? tree id = some ⟨id.index + 1⟩
      ∧ tree.tokens? ⟨id.index + 1⟩ = some (.ofLeaves (opener :: inner)) := by
  obtain ⟨kind', parts', heq, -, -, hkids, hplanted⟩ := hat.inv
  obtain ⟨-, rfl⟩ := Branch.node.inj heq
  simp only [Branch.skeletonsAll_append, Branch.skeletonsAll_map_leaf, List.nil_append,
    Branch.skeletonsAll_cons, Branch.skeletons_node, Branch.leavesAll_map_leaf,
    List.cons_append] at hkids hplanted
  unfold Skeleton.PlantedAllAt Skeleton.PlantedAt at hplanted
  refine ⟨?_, hplanted.1.2.1⟩
  unfold Outline.functionParams? Outline.childOfKind?
  rw [h.forest.children_eq, hkids]
  unfold Skeleton.tops
  rw [List.find?_cons, hplanted.1.1]
  rfl

/-- Of the tokens from a leaf on up to another, without that, leaves are those between. -/
theorem mem_range_before_iff (h : Branched list tree kids branches) {name : List Leaf}
    {opener : Leaf} (hpart : name ++ [opener] <:+: list.leaves) {leaf : Leaf}
    (hleaf : leaf ∈ list.leaves) :
    leaf.id ∈ list.range (.ofLeaves (name ++ [opener])) ∧ leaf.id ≠ opener.id ↔ leaf ∈ name := by
  rw [h.mem_range_iff hpart (by simp) hleaf, List.mem_append, List.mem_singleton]
  constructor
  · rintro ⟨hin | rfl, hne⟩
    · exact hin
    · exact absurd rfl hne
  · intro hin
    refine ⟨.inl hin, fun he => ?_⟩
    have hopener : opener ∈ list.leaves := hpart.subset (by simp)
    rw [h.ascends.eq_of_id hleaf hopener he] at hin
    have hnodup := (h.ascends.stretch hpart).nodup
    exact (List.nodup_append.mp hnodup).2.2 opener hin opener (by simp) rfl

/-- **The head of a function** in the tree and in the branches. -/
theorem headLeaves_eq (h : Branched list tree kids branches) {id : NodeId} {node : Branch}
    (hnode : node ∈ nodesAll branches) (hat : Branch.IsAt tree kids id node)
    (hfunction : node.isFunction = true) :
    list.headLeaves tree id = Branch.heading node.parts := by
  have hstretch := h.stretch hnode
  cases h.reads.made node hnode with
  | @other kind parts hne hkind _ _ =>
    have hkind' : kind.isFunction = true := hfunction
    rw [hkind'] at hkind
    simp at hkind
  | directive => exact Bool.noConfusion hfunction
  | params => exact Bool.noConfusion hfunction
  | @function kind name params more hname hparams hkind =>
    rw [Branch.parts, Branch.heading_append]
    obtain ⟨opener, inner, rfl⟩ := List.exists_cons_of_ne_nil hparams
    obtain ⟨hparams?, hrange?⟩ := h.params_of_isAt hat
    obtain ⟨before, after, hleaves⟩ := hstretch
    have hhead : name <:+: list.leaves :=
      ⟨before, opener :: inner ++ leavesAll more ++ after, by rw [← hleaves]; simp⟩
    have hpart : name ++ [opener] <:+: list.leaves :=
      ⟨before, inner ++ leavesAll more ++ after, by rw [← hleaves]; simp⟩
    -- the head is looked for from the first leaf of the function up to that of the list
    have hrange : (⟨(TokenRange.ofLeaves (Branch.node kind (name.map .leaf
          ++ .node .functionParams ((opener :: inner).map .leaf) :: more)).leaves).first,
        (TokenRange.ofLeaves (opener :: inner)).first⟩ : TokenRange)
          = .ofLeaves (name ++ [opener]) := by
      rw [TokenRange.mk.injEq]
      obtain ⟨first, rest, rfl⟩ := List.exists_cons_of_ne_nil hname
      constructor
      · simp [TokenRange.ofLeaves]
      · rw [TokenRange.ofLeaves, TokenRange.ofLeaves, List.getLast?_concat]
        rfl
    unfold TokenList.headLeaves
    rw [hat.tokens?, hparams?, Option.bind_some, hrange?]
    dsimp only
    rw [hrange]
    have hid : (TokenRange.ofLeaves (opener :: inner)).first = opener.id := rfl
    have hmem : ∀ leaf ∈ list.leaves,
        ((list.range (.ofLeaves (name ++ [opener]))).contains leaf.id && leaf.id != opener.id)
          = decide (leaf ∈ name) := by
      intro leaf hleaf
      rw [Bool.eq_iff_iff]
      simp only [Bool.and_eq_true, List.contains_iff_mem, bne_iff_ne, decide_eq_true_eq]
      exact h.mem_range_before_iff hpart hleaf
    rw [hid, List.filter_congr hmem, h.ascends.filter_mem hhead]

end Branched

end Outline

/-- **The delimiters of a file that has an outline** are level, and they are nested if and only
    if those in the heads of its functions are. -/
theorem TokenList.parse_delimiters {source : String} {list : TokenList} {tree : NodeTree}
    (hlex : TokenList.lex source = .ok list) (hparse : list.parse = .ok tree) :
    Outline.Level (list.looseLeaves tree)
      ∧ (Outline.Nested (list.looseLeaves tree)
        ↔ ∀ function, (tree.kind? function).any NodeKind.isFunction = true →
          Outline.Nested (list.headLeaves tree function)) := by
  obtain ⟨kids, branches, h⟩ := Outline.branched_of_parse hlex hparse
  -- a word that the readers know is no delimiter, as the lexer sorts it
  have hworded : Outline.Worded (Branch.leavesAll branches) := by
    rw [h.leaves]
    intro leaf hleaf htext
    rw [TokenList.kind_of_start (TokenList.lex_reads hlex).1 hleaf (by rw [htext]; decide),
      htext]
    decide
  have heven := h.reads.even
  rw [h.looseLeaves_eq]
  refine ⟨heven.level hworded, (heven.nested hworded).trans ⟨?_, ?_⟩⟩
  · intro hheads function hfunction
    obtain ⟨kind, hkind, hisFunction⟩ := by simpa only [Option.any_eq_true] using hfunction
    obtain ⟨live, hlive⟩ := NodeTree.live_of_kind? hkind
    have hroot : function ≠ NodeTree.root := by
      rintro rfl
      rw [h.kind_root] at hkind
      obtain rfl := Option.some.inj hkind
      simp [NodeKind.isFunction] at hisFunction
    obtain ⟨node, hnode, hat⟩ := h.exists_node (NodeTree.index_lt_of_get? hlive) hroot
    have hnodeFunction : node.isFunction = true := by
      unfold Branch.isFunction
      rw [← hat.kind?, hfunction]
    rw [h.headLeaves_eq hnode hat hnodeFunction]
    exact hheads node hnode hnodeFunction
  · intro hheads node hnode hfunction
    obtain ⟨id, -, hat⟩ := h.exists_id hnode
    rw [← h.headLeaves_eq hnode hat hfunction]
    refine hheads id ?_
    rw [hat.kind?]
    exact hfunction

/-- A bracket that a parenthesis closes, in the head of a function. -/
theorem TokenList.parse_delimiters_bracket :
    ∃ list tree, TokenList.lex "int a[) f(x);" = .ok list ∧ list.parse = .ok tree
      ∧ Outline.Level (list.looseLeaves tree) ∧ ¬ Outline.Nested (list.looseLeaves tree) := by
  have heval : (TokenList.lex "int a[) f(x);").toOption.map
      (fun list => list.parse.toOption.map fun tree =>
        ((tree.kind? ⟨1⟩).any NodeKind.isFunction,
          (Outline.nestAll [] (list.headLeaves tree ⟨1⟩)).toOption))
      = some (some (true, none)) := by decide +kernel
  cases hlex : TokenList.lex "int a[) f(x);" with
  | error error =>
    rw [hlex] at heval
    simp [Except.toOption] at heval
  | ok list =>
    rw [hlex] at heval
    cases hparse : list.parse with
    | error error => simp [Except.toOption, hparse] at heval
    | ok tree =>
      simp only [Except.toOption, hparse, Option.map_some, Option.some.injEq, Prod.mk.injEq]
        at heval
      obtain ⟨hlevel, hnested⟩ := TokenList.parse_delimiters hlex hparse
      refine ⟨list, tree, rfl, hparse, hlevel, fun hall => ?_⟩
      -- were all matched, so were the head of the function, where `[` meets `)`
      have hhead := (hnested.mp hall ⟨1⟩ heval.1).nestAll []
      rw [hhead] at heval
      simp at heval

end KernelPrep
