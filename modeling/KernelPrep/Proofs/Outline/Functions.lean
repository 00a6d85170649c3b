/-
  KernelPrep.Proofs.Outline.Functions — functions in the tree of a file.

  Passes ask the tree for the parameter list of a function, for its body and for its name, and
  find these again by the kinds of its children and by the tokens before the parameter list.
  The outline has read them from a declaration that it knew to be a function by looking ahead;
  what passes find is what was read.

  Main statements:
    * `Outline.Reads.function_inv` — the parts of a function;
    * `Outline.Leads.last?_eq`     — the leaf before a parameter list;
    * `TokenList.parse_function`   — where a function stands, its parts and its name.
-/
import KernelPrep.Outline.Function
import KernelPrep.Proofs.Outline.Siting

namespace KernelPrep

namespace Outline

/-! ## §1. The leaves of a function -/

/-- **The leaf before a parameter list** that looking ahead goes by is the last one before it. -/
theorem Leads.last?_eq {before? last? : Option Leaf} {name : List Leaf}
    (h : Leads before? name last?) : last? = name.getLast?.or before? := by
  induction h with
  | nil => rfl
  | word _ _ ih => rw [ih, getLast?_cons_or]
  | group _ _ _ _ ih =>
    rw [ih]
    simp [List.getLast?_append, List.getLast?_cons]

/-- The leaf before a parameter list is a word, and not one of an attribute. -/
theorem Prototype.word {fits : TokenKind → TokenKind → Prop} {name inner quals : List Leaf}
    {opener closer : Leaf} (h : Prototype fits name opener inner closer quals) :
    ∃ lead word, name = lead ++ [word] ∧ word.kind = .symbol ∧ word.text ∉ attributeWords := by
  obtain ⟨last?, hleads, hopens⟩ := h.leads
  rw [hleads.last?_eq, Option.or_none] at hopens
  cases hlast : name.getLast? with
  | none =>
    rw [hlast] at hopens
    exact Bool.noConfusion hopens
  | some word =>
    obtain ⟨lead, hname⟩ := List.getLast?_eq_some_iff.mp hlast
    rw [hlast] at hopens
    unfold opensParams at hopens
    simp only [Bool.and_eq_true, beq_iff_eq, Bool.not_eq_true', List.contains_eq_mem,
      decide_eq_false_iff_not] at hopens
    exact ⟨lead, word, hname, hopens.1.1, hopens.1.2⟩

/-- The branch of a function: what comes before the parameter list, the parameter list, what
    comes behind it, and a body or a `;`. -/
def functionBranch (kind : NodeKind) (name : List Leaf) (opener : Leaf) (inner : List Leaf)
    (closer : Leaf) (quals : List Leaf) (ending : Branch) : Branch :=
  .node kind (name.map .leaf ++ .node .functionParams ((opener :: (inner ++ [closer])).map .leaf)
    :: (quals.map .leaf ++ [ending]))

theorem leaves_functionBranch (kind : NodeKind) (name inner quals : List Leaf)
    (opener closer : Leaf) (ending : Branch) :
    (functionBranch kind name opener inner closer quals ending).leaves
      = name ++ opener :: (inner ++ closer :: (quals ++ ending.leaves)) := by
  simp [functionBranch]

/-- **A function that is read** has the parts of one. -/
theorem Reads.function_inv {kind : NodeKind} {parts : List Branch} {rest : List Leaf}
    (h : Reads .construct [.node kind parts] rest) (hkind : kind.isFunction = true) :
    ∃ name opener inner closer quals ending,
      .node kind parts = functionBranch kind name opener inner closer quals ending
      ∧ Prototype (fun opener closer => opener.closer? = some closer) name opener inner closer
        quals
      ∧ (kind = .functionDefn ∧ Reads .block [ending] rest
        ∨ kind = .functionDecl ∧ ∃ semicolon, ending = .leaf semicolon
          ∧ semicolon.kind = .semicolon) := by
  cases h with
  | definition _ hproto hblock =>
    exact ⟨_, _, _, _, _, _, rfl, hproto, .inl ⟨rfl, hblock⟩⟩
  | prototype _ hproto hk =>
    exact ⟨_, _, _, _, _, _, rfl, hproto, .inr ⟨rfl, _, rfl, hk⟩⟩
  | _ => exact Bool.noConfusion hkind

end Outline

/-! ## §2. The nodes of a function -/

namespace Outline.Branched

open Branch (skeletonsAll)

variable {list : TokenList} {tree : NodeTree} {kids : NodeId → List NodeId}
  {branches : List Branch} {function : NodeId} {kind : NodeKind}
  {name inner quals before after : List Leaf} {opener closer : Leaf} {ending : Branch}

/-- **Each function of a file** has the parts of one. -/
theorem exists_functionBranch (h : Branched list tree kids branches)
    (hkind : tree.kind? function = some kind) (hfunction : kind.isFunction = true) :
    ∃ name opener inner closer quals ending before after,
      Branch.IsAt tree kids function
          (functionBranch kind name opener inner closer quals ending)
      ∧ list.leaves
        = before ++ ((functionBranch kind name opener inner closer quals ending).leaves ++ after)
      ∧ Prototype (fun opener closer => opener.closer? = some closer) name opener inner closer
        quals
      ∧ (kind = .functionDefn ∧ Reads .block [ending] after
        ∨ kind = .functionDecl ∧ ∃ semicolon, ending = .leaf semicolon
          ∧ semicolon.kind = .semicolon) := by
  have hroot : kind ≠ .root := by
    rintro rfl
    exact Bool.noConfusion hfunction
  obtain ⟨parts, before, after, hat, hleaves, hsited⟩ := h.site hkind hroot
  obtain ⟨name, opener, inner, closer, quals, ending, hbranch, hproto, hending⟩ :=
    (hsited.function hfunction).function_inv hfunction
  rw [hbranch] at hat hleaves
  exact ⟨name, opener, inner, closer, quals, ending, before, after, hat, hleaves, hproto, hending⟩

/-- The children of a function: its parameter list, and its body if it has one. -/
theorem function_kids (h : Branched list tree kids branches)
    (hat : Branch.IsAt tree kids function
      (functionBranch kind name opener inner closer quals ending)) :
    tree.children function = ⟨function.index + 1⟩
        :: Skeleton.tops (function.index + 2) ending.skeletons
      ∧ tree.kind? ⟨function.index + 1⟩ = some .functionParams
      ∧ tree.tokens? ⟨function.index + 1⟩ = some ⟨opener.id, closer.id⟩
      ∧ Skeleton.PlantedAllAt tree kids (function.index + 2) ending.skeletons := by
  obtain ⟨kind', parts, heq, -, -, hkids, hplanted⟩ := hat.inv
  unfold functionBranch at heq
  obtain ⟨-, rfl⟩ := Branch.node.inj heq
  have hparts : skeletonsAll (name.map .leaf
      ++ .node .functionParams ((opener :: (inner ++ [closer])).map .leaf)
      :: (quals.map .leaf ++ [ending]))
      = .node .functionParams ⟨opener.id, closer.id⟩ [] :: ending.skeletons := by
    simp [TokenRange.ofLeaves, List.getLast?_cons]
  rw [hparts] at hkids hplanted
  unfold Skeleton.tops at hkids
  unfold Skeleton.PlantedAllAt Skeleton.PlantedAt at hplanted
  rw [size_node, sizeAll_nil] at hkids hplanted
  refine ⟨?_, hplanted.1.1, hplanted.1.2.1, hplanted.2⟩
  rw [h.forest.children_eq, hkids]

theorem functionParams?_eq (h : Branched list tree kids branches)
    (hat : Branch.IsAt tree kids function
      (functionBranch kind name opener inner closer quals ending)) :
    functionParams? tree function = some ⟨function.index + 1⟩ := by
  obtain ⟨hkids, hkind, -⟩ := h.function_kids hat
  unfold functionParams? childOfKind?
  rw [hkids, List.find?_cons, hkind]
  rfl

/-- **The parameter list** holds the leaves from one parenthesis to the other. -/
theorem function_params (h : Branched list tree kids branches)
    (hleaves : list.leaves
      = before ++ ((functionBranch kind name opener inner closer quals ending).leaves ++ after)) :
    list.leavesIn ⟨opener.id, closer.id⟩ = opener :: (inner ++ [closer]) := by
  have hrange : TokenRange.ofLeaves (opener :: (inner ++ [closer])) = ⟨opener.id, closer.id⟩ := by
    simp [TokenRange.ofLeaves, List.getLast?_cons]
  rw [← hrange]
  apply h.leavesIn_eq _ (List.cons_ne_nil _ _)
  refine ⟨before ++ name, quals ++ (ending.leaves ++ after), ?_⟩
  rw [hleaves, leaves_functionBranch]
  simp

/-- **The name of a function** is the word before its parameter list. -/
theorem function_name (h : Branched list tree kids branches)
    (hat : Branch.IsAt tree kids function
      (functionBranch kind name opener inner closer quals ending))
    (hleaves : list.leaves
      = before ++ ((functionBranch kind name opener inner closer quals ending).leaves ++ after))
    {lead : List Leaf} {word : Leaf} (hname : name = lead ++ [word]) (hword : word.kind = .symbol) :
    list.prevSignificant? opener.id = some word.id
      ∧ functionName? list tree function = some word.id
      ∧ list.kind? word.id = some .symbol ∧ list.textOf word.id = word.text
      ∧ ∀ range, tree.tokens? function = some range → word.id ∈ list.range range := by
  have hthreaded := h.unedited.wellFormed.threaded
  have hown : word ∈ (functionBranch kind name opener inner closer quals ending).leaves := by
    rw [leaves_functionBranch, hname]
    simp
  have hin : word ∈ list.leaves := by
    rw [hleaves]
    exact List.mem_append_right _ (List.mem_append_left _ hown)
  obtain ⟨-, hkind, htext⟩ := TokenList.leaf_token hin
  rw [hword] at hkind
  -- the significant token before the parenthesis
  have hprev : list.prevSignificant? opener.id = some word.id := by
    have hsplit : list.leaves = (before ++ name)
        ++ opener :: (inner ++ closer :: (quals ++ (ending.leaves ++ after))) := by
      rw [hleaves, leaves_functionBranch]
      simp
    obtain ⟨front, back, hfile, hfront, -⟩ := TokenList.file_of_leaves hthreaded hsplit
    rw [hthreaded.prevSignificant?_eq hfile, ← List.head?_filter, List.filter_reverse,
      List.head?_reverse, hfront, hname]
    simp
  refine ⟨hprev, ?_, hkind, htext, ?_⟩
  · obtain ⟨-, -, hparams, -⟩ := h.function_kids hat
    unfold functionName?
    rw [h.functionParams?_eq hat, hat.tokens?]
    show (tree.tokens? _).bind _ = _
    rw [hparams]
    show symbolBefore? list _ (list.slots.size + 1) (list.prevSignificant? opener.id) = _
    rw [hprev]
    -- the search ends where it begins
    unfold symbolBefore?
    rw [if_pos hkind]
  · intro range hrange
    obtain rfl := Option.some.inj (hat.tokens?.symm.trans hrange)
    exact (h.mem_range_iff ⟨before, after, by rw [hleaves, List.append_assoc]⟩
      (List.ne_nil_of_mem hown) hin).mpr hown

/-- **The body of a function** is its second child and ends where the function ends. -/
theorem function_body (h : Branched list tree kids branches)
    (hat : Branch.IsAt tree kids function
      (functionBranch kind name opener inner closer quals ending))
    (hleaves : list.leaves
      = before ++ ((functionBranch kind name opener inner closer quals ending).leaves ++ after))
    (hblock : Reads .block [ending] after) {range : TokenRange}
    (hrange : tree.tokens? function = some range) :
    ∃ body brace, tree.children function = [⟨function.index + 1⟩, body]
      ∧ functionBody? tree function = some body
      ∧ tree.kind? body = some .statementBlock
      ∧ tree.tokens? body = some ⟨brace, range.last⟩
      ∧ list.kind? range.last = some .rbrace := by
  obtain ⟨brace, parts, last, hending, -, hlast, -⟩ := hblock.block_inv
  obtain ⟨rfl, -⟩ := List.cons.inj hending
  obtain ⟨hkids, hkind, -, hplanted⟩ := h.function_kids hat
  rw [Branch.skeletons_node] at hkids hplanted
  unfold Skeleton.tops Skeleton.tops at hkids
  unfold Skeleton.PlantedAllAt Skeleton.PlantedAt at hplanted
  obtain rfl := Option.some.inj (hat.tokens?.symm.trans hrange)
  have hend : (TokenRange.ofLeaves (functionBranch kind name opener inner closer quals
      (.node .statementBlock (.leaf brace :: (parts ++ [.leaf last])))).leaves).last = last.id := by
    rw [leaves_functionBranch]
    simp [TokenRange.ofLeaves, List.getLast?_append, List.getLast?_cons]
  refine ⟨⟨function.index + 2⟩, brace.id, hkids, ?_, hplanted.1.1, ?_, ?_⟩
  · unfold functionBody? childOfKind?
    rw [hkids, List.find?_cons, hkind]
    show List.find? _ [_] = _
    rw [List.find?_cons, hplanted.1.1]
    rfl
  · rw [hplanted.1.2.1, hend]
    simp [TokenRange.ofLeaves, List.getLast?_append, List.getLast?_cons]
  · rw [hend, ← hlast]
    refine (TokenList.leaf_token ?_).2.1
    rw [hleaves, leaves_functionBranch]
    simp

/-- **A prototype** has its parameter list as its only child and ends with a `;`. -/
theorem function_semicolon (h : Branched list tree kids branches) {semicolon : Leaf}
    (hat : Branch.IsAt tree kids function
      (functionBranch kind name opener inner closer quals (.leaf semicolon)))
    (hleaves : list.leaves = before
      ++ ((functionBranch kind name opener inner closer quals (.leaf semicolon)).leaves ++ after))
    (hsemicolon : semicolon.kind = .semicolon) {range : TokenRange}
    (hrange : tree.tokens? function = some range) :
    tree.children function = [⟨function.index + 1⟩] ∧ functionBody? tree function = none
      ∧ list.kind? range.last = some .semicolon := by
  obtain ⟨hkids, hkind, -, -⟩ := h.function_kids hat
  rw [Branch.skeletons_leaf] at hkids
  unfold Skeleton.tops at hkids
  obtain rfl := Option.some.inj (hat.tokens?.symm.trans hrange)
  refine ⟨hkids, ?_, ?_⟩
  · unfold functionBody? childOfKind?
    rw [hkids, List.find?_cons, hkind]
    rfl
  · have hend : (TokenRange.ofLeaves (functionBranch kind name opener inner closer quals
        (.leaf semicolon)).leaves).last = semicolon.id := by
      rw [leaves_functionBranch]
      simp [TokenRange.ofLeaves, List.getLast?_append, List.getLast?_cons]
    rw [hend, ← hsemicolon]
    refine (TokenList.leaf_token ?_).2.1
    rw [hleaves, leaves_functionBranch]
    simp

end Outline.Branched

/-! ## §3. The functions of a file -/

open Outline in
/-- A function of a file stands at file scope. -/
theorem TokenList.function_parent {source : String} {list : TokenList} {tree : NodeTree}
    (hlex : TokenList.lex source = .ok list) (hparse : list.parse = .ok tree)
    {function : NodeId} {kind : NodeKind} (hkind : tree.kind? function = some kind)
    (hfunction : kind.isFunction = true) :
    ∃ parent, function ∈ tree.children parent
      ∧ (parent = NodeTree.root ∨ tree.kind? parent = some .linkageBlock) := by
  have hlist := (TokenList.lex_unedited hlex).wellFormed.threaded
  obtain ⟨rfl, -⟩ := TokenList.parse_eq_ok hparse
  obtain ⟨kids, hout⟩ := TokenList.outline_outlined hlist
  obtain ⟨live, hlive⟩ := NodeTree.live_of_kind? hkind
  have hbelow : NodeTree.Below kids NodeTree.root function :=
    NodeTree.ofSkeletons_below hout.kids_root hout.planted
      (hout.size ▸ NodeTree.index_lt_of_get? hlive)
  have hscoped : kind.isScoped = true := by
    cases kind <;> first | rfl | exact Bool.noConfusion hfunction
  rcases Relation.ReflTransGen.cases_tail hbelow with heq | ⟨parent, hparent, hchild⟩
  · rw [heq, hout.kind_root] at hkind
    rw [← Option.some.inj hkind] at hfunction
    exact Bool.noConfusion hfunction
  · refine ⟨parent, by rw [hout.forest.children_eq]; exact hchild, ?_⟩
    -- below any other node there is no construct of file scope
    by_contra hno
    rw [not_or] at hno
    have hshelter := hout.sheltered hlist hparent hno.1
    have hnot := hshelter.fileScope hno.2 function hchild kind hkind
    rw [hscoped] at hnot
    exact Bool.noConfusion hnot

open Outline in
/-- **The functions of a file.**  A function stands in the file itself or in a linkage block.  Its
    children are its parameter list, from a `(` through the `)` that matches it, and, if it has
    one, its body, which ends with the `}` that the function ends with; without a body it ends
    with a `;`.  Its name is the word before the `(`, a token of the function and not one of the
    words that take an argument of their own. -/
theorem TokenList.parse_function {source : String} {list : TokenList} {tree : NodeTree}
    (hlex : TokenList.lex source = .ok list) (hparse : list.parse = .ok tree)
    {function : NodeId} {kind : NodeKind} (hkind : tree.kind? function = some kind)
    (hfunction : kind.isFunction = true) :
    ∃ parent range params opener inner closer name,
      (function ∈ tree.children parent
        ∧ (parent = NodeTree.root ∨ tree.kind? parent = some .linkageBlock))
      ∧ tree.tokens? function = some range
      ∧ (functionParams? tree function = some params
        ∧ tree.kind? params = some .functionParams
        ∧ tree.tokens? params = some ⟨opener.id, closer.id⟩)
      ∧ (list.leavesIn ⟨opener.id, closer.id⟩ = opener :: (inner ++ [closer])
        ∧ opener.kind = .lparen ∧ closer.kind = .rparen ∧ Nested inner)
      ∧ (kind = .functionDefn ∧ (∃ body brace, tree.children function = [params, body]
            ∧ functionBody? tree function = some body
            ∧ tree.kind? body = some .statementBlock
            ∧ tree.tokens? body = some ⟨brace, range.last⟩
            ∧ list.kind? range.last = some .rbrace)
        ∨ kind = .functionDecl ∧ tree.children function = [params]
            ∧ functionBody? tree function = none
            ∧ list.kind? range.last = some .semicolon)
      ∧ (functionName? list tree function = some name
        ∧ list.prevSignificant? opener.id = some name
        ∧ list.kind? name = some .symbol ∧ name ∈ list.range range
        ∧ list.textOf name ∉ attributeWords) := by
  obtain ⟨parent, hparent⟩ := TokenList.function_parent hlex hparse hkind hfunction
  obtain ⟨kids, branches, h⟩ := branched_of_parse hlex hparse
  obtain ⟨name, opener, inner, closer, quals, ending, before, after, hat, hleaves, hproto,
    hending⟩ := h.exists_functionBranch hkind hfunction
  obtain ⟨lead, word, hname, hword, htext⟩ := hproto.word
  obtain ⟨-, hparamsKind, hparamsTokens, -⟩ := h.function_kids hat
  obtain ⟨hprev, hnamed, hwordKind, hwordText, hwordIn⟩ := h.function_name hat hleaves hname hword
  -- the closer of the parameter list is the counterpart of its opener
  have hcloser : closer.kind = .rparen := by
    have hpair := hproto.pair
    rw [hproto.paren] at hpair
    exact (Option.some.inj hpair).symm
  refine ⟨parent, _, ⟨function.index + 1⟩, opener, inner, closer, word.id, hparent, hat.tokens?,
    ⟨h.functionParams?_eq hat, hparamsKind, hparamsTokens⟩,
    ⟨h.function_params hleaves, hproto.paren, hcloser, hproto.between⟩, ?_,
    hnamed, hprev, hwordKind, hwordIn _ hat.tokens?, hwordText ▸ htext⟩
  -- a definition ends with its block, a declaration with its semicolon
  rcases hending with ⟨hdefn, hblock⟩ | ⟨hdecl, semicolon, rfl, hsemicolon⟩
  · exact .inl ⟨hdefn, h.function_body hat hleaves hblock hat.tokens?⟩
  · exact .inr ⟨hdecl, h.function_semicolon hat hleaves hsemicolon hat.tokens?⟩

open Outline in
/-- A function with an attribute before its name and one behind its parameter list. -/
theorem TokenList.parse_function_attribute :
    ∃ list tree params body name,
      TokenList.lex "__align__(8) int f(int a) __attribute__((cold)) \x7b\x7d" = .ok list
      ∧ list.parse = .ok tree ∧ tree.kind? ⟨1⟩ = some .functionDefn
      ∧ tree.children ⟨1⟩ = [params, body] ∧ functionName? list tree ⟨1⟩ = some name
      ∧ list.textOf name ∉ attributeWords := by
  have heval : (TokenList.lex
        "__align__(8) int f(int a) __attribute__((cold)) \x7b\x7d").toOption.map
      (fun list => list.parse.toOption.map (·.kind? ⟨1⟩)) = some (some (some .functionDefn)) := by
    decide +kernel
  obtain ⟨list, hlex, hlist⟩ := Step.toOption_map_eq_some.mp heval
  obtain ⟨tree, hparse, hkind⟩ := Step.toOption_map_eq_some.mp hlist
  obtain ⟨parent, range, params, opener, inner, closer, name, -, -, -, -, hparts, hname, -, -, -,
    htext⟩ := TokenList.parse_function hlex hparse hkind rfl
  rcases hparts with ⟨-, body, brace, hkids, -⟩ | ⟨hdecl, -⟩
  · exact ⟨list, tree, params, body, name, hlex, hparse, hkind, hkids, hname, htext⟩
  · exact NodeKind.noConfusion hdecl

end KernelPrep
