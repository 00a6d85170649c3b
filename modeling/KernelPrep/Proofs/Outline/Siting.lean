/-
  KernelPrep.Proofs.Outline.Siting — nodes with the leaves behind them.

  The grammar tells which branches the leaves of a construct make by what stands behind these:
  a directive goes on until a leaf starts a line, and a function is one by the leaves of its
  whole declaration.  So a node that is read at some place of a file keeps what the grammar
  says of it there, whatever it stands in.

  Main definitions:
    * `Outline.Sited`       — a node as it is read before given leaves;
    * `Outline.AllSited`    — so are all nodes of some branches;
    * `TokenList.leavesIn`  — the leaves of a file in a range.

  Main statements:
    * `Outline.Reads.sited` — so are all nodes that are read;
    * `Outline.Branched.site` — each node of the tree, with the leaves of the file around it;
    * `Outline.Branched.leavesIn_eq` — the leaves in the range of a node are its own.
-/
import KernelPrep.Proofs.Outline.Branching

namespace KernelPrep

namespace Outline

open Branch (leavesAll nodesAll)

/-! ## §1. Nodes of branches -/

/-- A node as it is read where the leaves `after` stand behind it. -/
structure Sited (node : Branch) (after : List Leaf) : Prop where
  directive : node.kind? = some .directive → Directive node.leaves after
  function : node.kind?.any NodeKind.isFunction = true → Reads .construct [node] after

/-- All nodes of the branches are as they are read, where the leaves `rest` stand behind the
    branches. -/
def AllSited (branches : List Branch) (rest : List Leaf) : Prop :=
  ∀ node ∈ nodesAll branches, ∃ before after,
    leavesAll branches ++ rest = before ++ (node.leaves ++ after) ∧ Sited node after

section Sited

variable {branches more parts : List Branch} {kind : NodeKind} {leaves rest : List Leaf}

/-- A node that is neither a directive nor a function is sited anywhere. -/
theorem sited_other (hdirective : kind ≠ .directive) (hfunction : kind.isFunction = false) :
    Sited (.node kind parts) rest where
  directive := by
    intro h
    exact absurd (Option.some.inj h) hdirective
  function := by
    intro h
    have h : kind.isFunction = true := h
    rw [hfunction] at h
    exact Bool.noConfusion h

/-- A directive of the grammar is sited. -/
theorem sited_directive (h : Directive leaves rest) :
    Sited (.node .directive (leaves.map .leaf)) rest where
  directive := by
    intro _
    simpa using h
  function := by
    intro h
    exact Bool.noConfusion h

/-- A function of the grammar is sited. -/
theorem sited_function (hkind : kind.isFunction = true)
    (h : Reads .construct [.node kind parts] rest) : Sited (.node kind parts) rest where
  directive := by
    intro he
    rw [Option.some.inj he] at hkind
    exact Bool.noConfusion hkind
  function := fun _ => h

theorem allSited_leaves (leaves rest : List Leaf) : AllSited (leaves.map .leaf) rest := by
  intro node hnode
  simp at hnode

/-- Branches behind branches. -/
theorem AllSited.append (h : AllSited branches (leavesAll more ++ rest))
    (h' : AllSited more rest) : AllSited (branches ++ more) rest := by
  intro node hnode
  rw [Branch.nodesAll_append, List.mem_append] at hnode
  rw [Branch.leavesAll_append, List.append_assoc]
  rcases hnode with hnode | hnode
  · exact h node hnode
  · obtain ⟨before, after, hsplit, hsited⟩ := h' node hnode
    exact ⟨leavesAll branches ++ before, after, by rw [hsplit, List.append_assoc], hsited⟩

/-- Leaves before branches. -/
theorem AllSited.behind (h : AllSited more rest) (leaves : List Leaf) :
    AllSited (leaves.map .leaf ++ more) rest := (allSited_leaves leaves _).append h

/-- A node of branches. -/
theorem AllSited.node (h : AllSited parts rest) (hself : Sited (.node kind parts) rest) :
    AllSited [.node kind parts] rest := by
  intro node hnode
  rw [Branch.nodesAll_cons, Branch.nodes_node, Branch.nodesAll_nil, List.append_nil] at hnode
  rw [Branch.leavesAll_cons, Branch.leaves_node, Branch.leavesAll_nil, List.append_nil]
  rcases List.mem_cons.mp hnode with rfl | hnode
  · exact ⟨[], rest, by rw [Branch.leaves_node, List.nil_append], hself⟩
  · exact h node hnode

/-- A node that is neither a directive nor a function. -/
theorem AllSited.other (h : AllSited parts rest) (hdirective : kind ≠ .directive)
    (hfunction : kind.isFunction = false) : AllSited [.node kind parts] rest :=
  h.node (sited_other hdirective hfunction)

/-- Branches in braces. -/
theorem AllSited.enclose {opener closer : Leaf} (h : AllSited parts (closer :: rest)) :
    AllSited (.leaf opener :: (parts ++ [.leaf closer])) rest := by
  have hinner : AllSited (parts ++ [.leaf closer]) rest :=
    AllSited.append (by simpa using h) (allSited_leaves [closer] rest)
  exact hinner.behind [opener]

/-- Declarators are sited anywhere. -/
theorem Declarators.sited {initialiser : Bool} (h : Declarators initialiser branches)
    (rest : List Leaf) : AllSited branches rest := by
  induction h with
  | finish => exact allSited_leaves [_] rest
  | group _ _ ih => exact ih.behind _
  | name _ _ ih => exact ((allSited_leaves [_] _).other (by simp) rfl).append ih
  | word _ _ ih => exact ih.behind [_]
  | assign _ _ ih => exact ih.behind [_]
  | comma _ _ ih => exact ih.behind [_]
  | other _ _ _ _ ih => exact ih.behind [_]

/-- **All nodes that are read** are as they are read at their place. -/
theorem Reads.sited {part : Part} (h : Reads part branches rest) : AllSited branches rest := by
  induction h with
  | block _ _ _ ih => exact ih.enclose.other (by simp) rfl
  | bodyEnd => exact allSited_leaves [] _
  | bodyDirective hdir _ ih =>
    exact ((allSited_leaves _ _).node (sited_directive hdir)).append ih
  | bodyBlock _ _ ih ih' => exact ih.append ih'
  | bodyLone _ _ ih => exact ((allSited_leaves [_] _).other (by simp) rfl).append ih
  | bodyStatement _ _ _ _ ih ih' => exact (ih.other (by simp) rfl).append ih'
  | tailEnd => exact allSited_leaves [] _
  | tailSemicolon => exact allSited_leaves [_] _
  | tailBlock _ ih => exact ih
  | tailBlockOn _ _ ih ih' => exact ih.append ih'
  | tailGroup _ _ _ _ ih => exact ih.behind _
  | tailAssign _ _ ih => exact ih.behind [_]
  | tailWord _ _ ih => exact ih.behind [_]
  | struct _ _ ih => exact ih.behind [_]
  | structTagged _ _ _ ih =>
    exact (((allSited_leaves [_] _).other (by simp) rfl).append ih).behind [_]
  | directive hdir => exact (allSited_leaves _ _).node (sited_directive hdir)
  | lone => exact (allSited_leaves [_] _).other (by simp) rfl
  | typedef _ _ _ ih => exact (ih.behind [_]).other (by simp) rfl
  | typedefStruct _ _ hnames ih =>
    exact (((ih.other (by simp) rfl).append (hnames.sited _)).behind [_]).other (by simp) rfl
  | structDecl =>
    exact ((((allSited_leaves [_] _).other (by simp) rfl).append
      (allSited_leaves [_] _)).behind [_]).other (by simp) rfl
  | structDefn _ hnames ih => exact (ih.append (hnames.sited _)).other (by simp) rfl
  | definition hdeclares hproto hblock ih =>
    -- a function is known by its whole declaration, which is kept for it
    refine AllSited.node ?_ (sited_function rfl (.definition hdeclares hproto hblock))
    exact (((allSited_leaves _ _).other (by simp) rfl).append (ih.behind _)).behind _
  | prototype hdeclares hproto hk =>
    refine AllSited.node ?_ (sited_function rfl (.prototype hdeclares hproto hk))
    exact (((allSited_leaves _ _).other (by simp) rfl).append
      ((allSited_leaves [_] _).behind _)).behind _
  | statement _ _ _ _ ih => exact ih.other (by simp) rfl
  | linkage _ _ _ _ _ ih => exact (ih.enclose.behind [_, _]).other (by simp) rfl
  | construct _ _ ih => exact ih
  | itemsEnd => exact allSited_leaves [] _
  | itemsCons _ _ ih ih' => exact ih.append ih'

end Sited

end Outline

/-! ## §2. Nodes of a file -/

/-- The leaves of a file in a range. -/
def TokenList.leavesIn (list : TokenList) (range : TokenRange) : List Leaf :=
  list.leaves.filter fun leaf => (list.range range).contains leaf.id

/-- The tokens before and behind a leaf, and the leaves that are among them. -/
theorem TokenList.file_of_leaves {list : TokenList} {file : List TokenId}
    (h : list.Threaded file) {before after : List Leaf} {leaf : Leaf}
    (hleaves : list.leaves = before ++ leaf :: after) :
    ∃ front back, file = front ++ leaf.id :: back
      ∧ front.filter list.isSignificant = before.map (·.id)
      ∧ back.filter list.isSignificant = after.map (·.id) := by
  obtain ⟨hfile, hsig⟩ := (TokenList.mem_leaves_iff h).mp ⟨leaf, by simp [hleaves], rfl⟩
  obtain ⟨front, back, hsplit⟩ := List.append_of_mem hfile
  have hnodup := h.nodup
  rw [hsplit] at hnodup
  have hids := TokenList.leaves_ids h
  rw [hleaves, hsplit, List.filter_append, List.filter_cons_of_pos hsig, List.map_append,
    List.map_cons] at hids
  -- no handle occurs twice, so that both splits are at the same place
  have hout : leaf.id ∉ front.filter list.isSignificant := by
    intro hin
    exact (List.nodup_append.mp hnodup).2.2 _ (List.mem_filter.mp hin).1 _ List.mem_cons_self rfl
  have hout' : leaf.id ∉ back.filter list.isSignificant := by
    intro hin
    exact (List.nodup_cons.mp (List.nodup_append.mp hnodup).2.1).1 (List.mem_filter.mp hin).1
  obtain ⟨hfront, -, hback⟩ := (List.append_cons_inj_of_notMem hout hout').mp hids.symm
  exact ⟨front, back, hsplit, hfront, hback⟩

namespace Outline.Branched

variable {list : TokenList} {tree : NodeTree} {kids : NodeId → List NodeId}
  {branches : List Branch}

/-- **The leaves in a range** that runs over leaves side by side are these. -/
theorem leavesIn_eq (h : Branched list tree kids branches) {part : List Leaf}
    (hpart : part <:+: list.leaves) (hne : part ≠ []) :
    list.leavesIn (.ofLeaves part) = part := by
  have hmem : ∀ leaf ∈ list.leaves,
      (list.range (.ofLeaves part)).contains leaf.id = decide (leaf ∈ part) := by
    intro leaf hleaf
    rw [Bool.eq_iff_iff, List.contains_iff_mem, decide_eq_true_eq]
    exact h.mem_range_iff hpart hne hleaf
  unfold TokenList.leavesIn
  rw [List.filter_congr hmem]
  exact h.ascends.filter_mem hpart

/-- **Each node of the tree** but the root is read before the leaves that stand behind it in the
    file. -/
theorem site (h : Branched list tree kids branches) {id : NodeId} {kind : NodeKind}
    (hkind : tree.kind? id = some kind) (hroot : kind ≠ .root) :
    ∃ parts before after, Branch.IsAt tree kids id (.node kind parts)
      ∧ list.leaves = before ++ ((Branch.node kind parts).leaves ++ after)
      ∧ Sited (.node kind parts) after := by
  obtain ⟨live, hlive⟩ := NodeTree.live_of_kind? hkind
  have hne : id ≠ NodeTree.root := by
    rintro rfl
    rw [h.kind_root] at hkind
    exact hroot (Option.some.inj hkind).symm
  obtain ⟨node, hnode, hat⟩ := h.exists_node (NodeTree.index_lt_of_get? hlive) hne
  obtain ⟨kind', parts, rfl, hkind', -⟩ := hat.inv
  obtain rfl := Option.some.inj (hkind'.symm.trans hkind)
  obtain ⟨before, after, hsplit, hsited⟩ := h.reads.sited _ hnode
  rw [List.append_nil, h.leaves] at hsplit
  exact ⟨parts, before, after, hat, hsplit, hsited⟩

end Outline.Branched

end KernelPrep
