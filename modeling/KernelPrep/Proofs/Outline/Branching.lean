/-
  KernelPrep.Proofs.Outline.Branching — branches as the nodes of a tree.

  The skeletons of a file are planted as the nodes of its tree, so each node of the tree is
  a node among the branches of the file, and its range runs over the leaves of that branch.
  Which leaves a node has can therefore be read off the tree or off the branches.

  Main definitions:
    * `Branch.nodes`, `Branch.nodesAll` — the nodes of a branch;
    * `Branch.loose`, `Branch.looseAll` — the leaves outside of directives;
    * `Ascends` — leaves in the order of their handles;
    * `Outline.Formed`, `Outline.Made` — a node of the grammar, and what follows of any of them;
    * `Outline.Branched` — the branches of a file.

  Main statements:
    * `Branch.nodesAll_planted`, `Branch.planted_nodesAll` — nodes of branches and of the tree;
    * `Branch.looseAll_eq` — the leaves outside of directives are those in no directive;
    * `Outline.Reads.formed` — the nodes that are read are nodes of the grammar;
    * `Outline.branched_of_parse` — a file that has an outline is made of branches;
    * `Outline.Branched.mem_range_iff` — a node holds the leaves between its ends.
-/
import KernelPrep.Proofs.Outline.Derivation
import KernelPrep.Proofs.Outline.Soundness

namespace KernelPrep

namespace Branch

/-! ## §1. Nodes -/

mutual

/-- The nodes of a branch, each before those below it. -/
def nodes : Branch → List Branch
  | .leaf _ => []
  | .node kind parts => .node kind parts :: nodesAll parts

/-- The nodes of several branches. -/
def nodesAll : List Branch → List Branch
  | [] => []
  | branch :: rest => nodes branch ++ nodesAll rest

end

/-- The kind of a node. -/
def kind? : Branch → Option NodeKind
  | .leaf _ => none
  | .node kind _ => some kind

/-- What a node consists of. -/
def parts : Branch → List Branch
  | .leaf _ => []
  | .node _ parts => parts

@[simp] theorem nodes_leaf (leaf : Leaf) : (Branch.leaf leaf).nodes = [] := by
  unfold nodes
  rfl

@[simp] theorem nodes_node (kind : NodeKind) (parts : List Branch) :
    (Branch.node kind parts).nodes = .node kind parts :: nodesAll parts := by
  conv_lhs => unfold nodes

@[simp] theorem nodesAll_nil : nodesAll [] = [] := by
  unfold nodesAll
  rfl

@[simp] theorem nodesAll_cons (branch : Branch) (rest : List Branch) :
    nodesAll (branch :: rest) = branch.nodes ++ nodesAll rest := by
  conv_lhs => unfold nodesAll

@[simp] theorem nodesAll_append (branches rest : List Branch) :
    nodesAll (branches ++ rest) = nodesAll branches ++ nodesAll rest := by
  induction branches with
  | nil => simp
  | cons branch branches ih => simp [ih]

@[simp] theorem nodesAll_map_leaf (leaves : List Leaf) : nodesAll (leaves.map .leaf) = [] := by
  induction leaves with
  | nil => simp
  | cons leaf leaves ih => simp [ih]

/-- The nodes of one branch are among those of all. -/
theorem mem_nodesAll {branch node : Branch} {branches : List Branch} (hbranch : branch ∈ branches)
    (h : node ∈ branch.nodes) : node ∈ nodesAll branches := by
  induction branches with
  | nil => simp at hbranch
  | cons first rest ih =>
    rw [nodesAll_cons, List.mem_append]
    rcases List.mem_cons.mp hbranch with rfl | hrest
    · exact .inl h
    · exact .inr (ih hrest)

/-- The leaves of one branch stand side by side among those of all. -/
theorem leaves_stretch_of_mem {branch : Branch} {branches : List Branch} (h : branch ∈ branches) :
    branch.leaves <:+: leavesAll branches := by
  obtain ⟨before, after, rfl⟩ := List.append_of_mem h
  exact ⟨leavesAll before, leavesAll after, by simp⟩

mutual

/-- The leaves of a node stand side by side. -/
theorem leaves_stretch {node : Branch} : (branch : Branch) → node ∈ branch.nodes →
    node.leaves <:+: branch.leaves
  | .leaf _, h => by simp at h
  | .node kind parts, h => by
    rw [nodes_node] at h
    rcases List.mem_cons.mp h with rfl | h
    · exact List.infix_rfl
    · rw [leaves_node]
      exact leavesAll_stretch parts h

/-- The leaves of a node stand side by side among those of all branches. -/
theorem leavesAll_stretch {node : Branch} : (branches : List Branch) → node ∈ nodesAll branches →
    node.leaves <:+: leavesAll branches
  | [], h => by simp at h
  | branch :: rest, h => by
    rw [nodesAll_cons, List.mem_append] at h
    rw [leavesAll_cons]
    rcases h with h | h
    · exact (leaves_stretch branch h).trans (List.infix_append [] _ _)
    · exact (leavesAll_stretch rest h).trans (List.suffix_append _ _).isInfix

end

/-! ## §2. Nodes of the tree -/

section Planted

open Skeleton (PlantedAt PlantedAllAt sizeAll)

variable {tree : NodeTree} {kids : NodeId → List NodeId}

/-- Rows are planted one behind the other. -/
theorem plantedAllAt_append {n : Nat} (ss ss' : List Skeleton) :
    PlantedAllAt tree kids n (ss ++ ss')
      ↔ PlantedAllAt tree kids n ss ∧ PlantedAllAt tree kids (n + sizeAll ss) ss' := by
  induction ss generalizing n with
  | nil =>
    rw [List.nil_append, Outline.sizeAll_nil]
    unfold PlantedAllAt
    simp
  | cons s ss ih =>
    rw [List.cons_append, Outline.sizeAll_cons, ← Nat.add_assoc]
    conv_lhs => unfold PlantedAllAt
    conv_rhs => lhs; unfold PlantedAllAt
    rw [ih, and_assoc]

/-- The node of the tree is that of the branch. -/
def IsAt (tree : NodeTree) (kids : NodeId → List NodeId) (id : NodeId) (branch : Branch) : Prop :=
  ∃ s, branch.skeletons = [s] ∧ s.PlantedAt tree kids id.index

mutual

/-- **The nodes of a branch** are nodes of the tree. -/
theorem nodes_planted {n : Nat} {node : Branch} : (branch : Branch) →
    PlantedAllAt tree kids n branch.skeletons → node ∈ branch.nodes →
    ∃ id, n ≤ id.index ∧ IsAt tree kids id node
  | .leaf _, _, h => by simp at h
  | .node kind parts, hplanted, h => by
    rw [nodes_node] at h
    rw [skeletons_node] at hplanted
    unfold PlantedAllAt at hplanted
    rcases List.mem_cons.mp h with rfl | h
    · exact ⟨⟨n⟩, Nat.le_refl _, _, skeletons_node kind parts, hplanted.1⟩
    · have hparts := hplanted.1
      unfold PlantedAt at hparts
      obtain ⟨id, hle, hat⟩ := nodesAll_planted parts hparts.2.2.2 h
      exact ⟨id, by omega, hat⟩

/-- The nodes of several branches are nodes of the tree. -/
theorem nodesAll_planted {n : Nat} {node : Branch} : (branches : List Branch) →
    PlantedAllAt tree kids n (skeletonsAll branches) → node ∈ nodesAll branches →
    ∃ id, n ≤ id.index ∧ IsAt tree kids id node
  | [], _, h => by simp at h
  | branch :: rest, hplanted, h => by
    rw [nodesAll_cons, List.mem_append] at h
    rw [skeletonsAll_cons, plantedAllAt_append] at hplanted
    rcases h with h | h
    · exact nodes_planted branch hplanted.1 h
    · obtain ⟨id, hle, hat⟩ := nodesAll_planted rest hplanted.2 h
      exact ⟨id, by omega, hat⟩

end

mutual

/-- **The nodes of the tree** are nodes of the branches. -/
theorem planted_nodes {n : Nat} {id : NodeId} : (branch : Branch) →
    PlantedAllAt tree kids n branch.skeletons → n ≤ id.index →
    id.index < n + sizeAll branch.skeletons →
    ∃ node ∈ branch.nodes, IsAt tree kids id node
  | .leaf _, _, hlow, hhigh => by
    rw [skeletons_leaf, Outline.sizeAll_nil] at hhigh
    omega
  | .node kind parts, hplanted, hlow, hhigh => by
    rw [skeletons_node] at hplanted hhigh
    rw [Outline.sizeAll_cons, Outline.size_node, Outline.sizeAll_nil] at hhigh
    unfold PlantedAllAt at hplanted
    rw [nodes_node]
    rcases Nat.eq_or_lt_of_le hlow with he | hlt
    · refine ⟨_, List.mem_cons_self, _, skeletons_node kind parts, ?_⟩
      rw [← he]
      exact hplanted.1
    · have hparts := hplanted.1
      unfold PlantedAt at hparts
      obtain ⟨node, hnode, hat⟩ := planted_nodesAll parts hparts.2.2.2 hlt (by omega)
      exact ⟨node, List.mem_cons_of_mem _ hnode, hat⟩

/-- The nodes of the tree that several branches take up are nodes of these. -/
theorem planted_nodesAll {n : Nat} {id : NodeId} : (branches : List Branch) →
    PlantedAllAt tree kids n (skeletonsAll branches) → n ≤ id.index →
    id.index < n + sizeAll (skeletonsAll branches) →
    ∃ node ∈ nodesAll branches, IsAt tree kids id node
  | [], _, hlow, hhigh => by
    rw [skeletonsAll_nil, Outline.sizeAll_nil] at hhigh
    omega
  | branch :: rest, hplanted, hlow, hhigh => by
    rw [skeletonsAll_cons, plantedAllAt_append] at hplanted
    rw [skeletonsAll_cons, Outline.sizeAll_append] at hhigh
    rw [nodesAll_cons]
    rcases Nat.lt_or_ge id.index (n + sizeAll branch.skeletons) with hlt | hge
    · obtain ⟨node, hnode, hat⟩ := planted_nodes branch hplanted.1 hlow hlt
      exact ⟨node, List.mem_append_left _ hnode, hat⟩
    · obtain ⟨node, hnode, hat⟩ := planted_nodesAll rest hplanted.2 hge (by omega)
      exact ⟨node, List.mem_append_right _ hnode, hat⟩

end

/-- What the tree says of the node of a branch. -/
theorem IsAt.inv {id : NodeId} {branch : Branch} (h : IsAt tree kids id branch) :
    ∃ kind parts, branch = .node kind parts ∧ tree.kind? id = some kind
      ∧ tree.tokens? id = some (.ofLeaves (leavesAll parts))
      ∧ kids id = Skeleton.tops (id.index + 1) (skeletonsAll parts)
      ∧ PlantedAllAt tree kids (id.index + 1) (skeletonsAll parts) := by
  obtain ⟨s, hs, hplanted⟩ := h
  cases branch with
  | leaf leaf => simp at hs
  | node kind parts =>
    rw [skeletons_node] at hs
    obtain ⟨rfl, -⟩ := List.cons.inj hs
    unfold PlantedAt at hplanted
    exact ⟨kind, parts, rfl, hplanted⟩

/-- The range of a node runs over the leaves of its branch. -/
theorem IsAt.tokens? {id : NodeId} {branch : Branch} (h : IsAt tree kids id branch) :
    tree.tokens? id = some (.ofLeaves branch.leaves) := by
  obtain ⟨kind, parts, rfl, -, htokens, -⟩ := h.inv
  rw [htokens, leaves_node]

/-- A node is of the kind of its branch. -/
theorem IsAt.kind? {id : NodeId} {branch : Branch} (h : IsAt tree kids id branch) :
    tree.kind? id = branch.kind? := by
  obtain ⟨kind, parts, rfl, hkind, -⟩ := h.inv
  exact hkind

end Planted

end Branch

/-! ## §3. Leaves between the ends of a node -/

/-- Leaves in the order of their handles. -/
def Ascends (leaves : List Leaf) : Prop := leaves.Pairwise fun a b => a.id.index < b.id.index

/-- Part of the leaves is in order too. -/
theorem Ascends.stretch {leaves part : List Leaf} (h : Ascends leaves) (hpart : part <:+: leaves) :
    Ascends part := h.sublist hpart.sublist

/-- No leaf occurs twice. -/
theorem Ascends.nodup {leaves : List Leaf} (h : Ascends leaves) : leaves.Nodup :=
  h.imp fun hlt he => by
    rw [he] at hlt
    exact Nat.lt_irrefl _ hlt

/-- Leaves are told apart by their handles. -/
theorem Ascends.eq_of_id {leaves : List Leaf} (h : Ascends leaves) {a b : Leaf} (ha : a ∈ leaves)
    (hb : b ∈ leaves) (hid : a.id = b.id) : a = b := by
  obtain ⟨i, hi, rfl⟩ := List.getElem_of_mem ha
  obtain ⟨j, hj, rfl⟩ := List.getElem_of_mem hb
  have hpair := List.pairwise_iff_getElem.mp h
  rcases Nat.lt_trichotomy i j with hlt | rfl | hgt
  · have := hpair i j hi hj hlt
    rw [hid] at this
    exact absurd this (Nat.lt_irrefl _)
  · rfl
  · have := hpair j i hj hi hgt
    rw [hid] at this
    exact absurd this (Nat.lt_irrefl _)

/-- A stretch of leaves, taken out of all of them. -/
theorem Ascends.filter_mem {leaves part : List Leaf} (h : Ascends leaves)
    (hpart : part <:+: leaves) : leaves.filter (· ∈ part) = part := by
  obtain ⟨before, after, rfl⟩ := hpart
  obtain ⟨hfirst, -, hafter⟩ := List.nodup_append.mp h.nodup
  obtain ⟨-, -, hbefore⟩ := List.nodup_append.mp hfirst
  have hout : before.filter (· ∈ part) = [] :=
    List.filter_eq_nil_iff.mpr fun leaf hleaf hin =>
      hbefore leaf hleaf leaf (of_decide_eq_true hin) rfl
  have hout' : after.filter (· ∈ part) = [] :=
    List.filter_eq_nil_iff.mpr fun leaf hleaf hin =>
      hafter leaf (List.mem_append_right _ (of_decide_eq_true hin)) leaf hleaf rfl
  have hin : part.filter (· ∈ part) = part :=
    List.filter_eq_self.mpr fun leaf hleaf => decide_eq_true hleaf
  rw [List.filter_append, List.filter_append, hout, hout', hin, List.nil_append, List.append_nil]

/-- **A stretch of leaves** holds those between its ends. -/
theorem Ascends.mem_iff {leaves part : List Leaf} (h : Ascends leaves) (hpart : part <:+: leaves)
    (hne : part ≠ []) {leaf : Leaf} (hleaf : leaf ∈ leaves) :
    leaf ∈ part ↔ (TokenRange.ofLeaves part).first.index ≤ leaf.id.index
      ∧ leaf.id.index ≤ (TokenRange.ofLeaves part).last.index := by
  obtain ⟨before, after, rfl⟩ := hpart
  obtain ⟨first, hfirst⟩ : ∃ first, part.head? = some first := ⟨_, List.head?_eq_some_head hne⟩
  obtain ⟨last, hlast⟩ : ∃ last, part.getLast? = some last := ⟨_, List.getLast?_eq_some_getLast hne⟩
  -- the indices of leaves grow along the file, so the ends bound those between
  have hends : (TokenRange.ofLeaves part).first = first.id
      ∧ (TokenRange.ofLeaves part).last = last.id := by
    unfold TokenRange.ofLeaves
    rw [hfirst, hlast]
    exact ⟨rfl, rfl⟩
  rw [hends.1, hends.2]
  unfold Ascends at h
  rw [List.pairwise_append, List.pairwise_append] at h
  obtain ⟨⟨-, hin, hbefore⟩, -, hafter⟩ := h
  obtain ⟨more, rfl⟩ := List.head?_eq_some_iff.mp hfirst
  obtain ⟨init, hinit⟩ := List.getLast?_eq_some_iff.mp hlast
  constructor
  · intro hmem
    constructor
    · rcases List.mem_cons.mp hmem with rfl | hmore
      · exact Nat.le_refl _
      · exact Nat.le_of_lt ((List.pairwise_cons.mp hin).1 leaf hmore)
    · rw [hinit] at hmem hin
      rcases List.mem_append.mp hmem with hmore | hone
      · exact Nat.le_of_lt ((List.pairwise_append.mp hin).2.2 leaf hmore last (by simp))
      · rw [List.mem_singleton.mp hone]
  · rintro ⟨hlow, hhigh⟩
    rcases List.mem_append.mp hleaf with hmem | hmem
    · rcases List.mem_append.mp hmem with hmem | hmem
      · have := hbefore leaf hmem first List.mem_cons_self
        omega
      · exact hmem
    · have := hafter last (List.mem_append_right _ (List.mem_of_getLast? hlast)) leaf hmem
      omega

namespace Branch

/-! ## §4. Leaves outside of directives -/

/-- The node is a directive. -/
def isDirective (branch : Branch) : Bool := branch.kind? == some .directive

mutual

/-- The leaves outside of directives. -/
def loose : Branch → List Leaf
  | .leaf x => [x]
  | .node kind parts => if kind = .directive then [] else looseAll parts

/-- The leaves of several branches outside of directives. -/
def looseAll : List Branch → List Leaf
  | [] => []
  | branch :: rest => loose branch ++ looseAll rest

end

@[simp] theorem loose_leaf (leaf : Leaf) : (Branch.leaf leaf).loose = [leaf] := by
  unfold loose
  rfl

@[simp] theorem loose_node (kind : NodeKind) (parts : List Branch) :
    (Branch.node kind parts).loose = if kind = .directive then [] else looseAll parts := by
  conv_lhs => unfold loose

@[simp] theorem looseAll_nil : looseAll [] = [] := by
  unfold looseAll
  rfl

@[simp] theorem looseAll_cons (branch : Branch) (rest : List Branch) :
    looseAll (branch :: rest) = branch.loose ++ looseAll rest := by
  conv_lhs => unfold looseAll

@[simp] theorem looseAll_append (branches rest : List Branch) :
    looseAll (branches ++ rest) = looseAll branches ++ looseAll rest := by
  induction branches with
  | nil => simp
  | cons branch branches ih => simp [ih]

@[simp] theorem looseAll_map_leaf (leaves : List Leaf) : looseAll (leaves.map .leaf) = leaves := by
  induction leaves with
  | nil => simp
  | cons leaf leaves ih => simp [ih]

/-- The leaf is in a directive among the nodes. -/
def inDirective (nodes : List Branch) (leaf : Leaf) : Bool :=
  nodes.any fun node => node.isDirective && node.leaves.contains leaf

/-- A leaf is in a directive of the one nodes or of the others. -/
theorem inDirective_append (nodes nodes' : List Branch) (leaf : Leaf) :
    inDirective (nodes ++ nodes') leaf = (inDirective nodes leaf || inDirective nodes' leaf) :=
  List.any_append

/-- A leaf of other branches is in no directive of these. -/
theorem inDirective_of_not_mem {branches : List Branch} {leaf : Leaf}
    (h : leaf ∉ leavesAll branches) : inDirective (nodesAll branches) leaf = false := by
  unfold inDirective
  rw [List.any_eq_false]
  intro node hnode hin
  simp only [Bool.and_eq_true, List.contains_iff_mem] at hin
  exact h ((leavesAll_stretch branches hnode).subset hin.2)

mutual

/-- The leaves of a branch outside of directives are those in no directive of it. -/
theorem loose_eq : (branch : Branch) → branch.leaves.Nodup →
    branch.loose = branch.leaves.filter fun leaf => !inDirective branch.nodes leaf
  | .leaf _, _ => by simp [inDirective]
  | .node kind parts, hnodup => by
    rw [leaves_node] at hnodup ⊢
    rw [loose_node, nodes_node]
    by_cases hkind : kind = .directive
    · rw [if_pos hkind, eq_comm, List.filter_eq_nil_iff]
      intro leaf hleaf
      simp [inDirective, isDirective, Branch.kind?, hkind, hleaf]
    · rw [if_neg hkind, looseAll_eq parts hnodup]
      refine List.filter_congr fun leaf _ => ?_
      simp [inDirective, isDirective, Branch.kind?, hkind]

/-- **The leaves outside of directives** are those in no directive. -/
theorem looseAll_eq : (branches : List Branch) → (leavesAll branches).Nodup →
    looseAll branches
      = (leavesAll branches).filter fun leaf => !inDirective (nodesAll branches) leaf
  | [], _ => by simp
  | branch :: rest, hnodup => by
    rw [leavesAll_cons] at hnodup ⊢
    obtain ⟨hfirst, hrest, hapart⟩ := List.nodup_append.mp hnodup
    rw [looseAll_cons, loose_eq branch hfirst, looseAll_eq rest hrest, List.filter_append]
    congr 1
    · refine List.filter_congr fun leaf hleaf => ?_
      have hout : leaf ∉ leavesAll rest := fun hin => hapart leaf hleaf leaf hin rfl
      rw [nodesAll_cons, inDirective_append, inDirective_of_not_mem hout, Bool.or_false]
    · refine List.filter_congr fun leaf hleaf => ?_
      have hout : leaf ∉ leavesAll [branch] := by
        rw [leavesAll_cons, leavesAll_nil, List.append_nil]
        exact fun hin => hapart leaf hin leaf hleaf rfl
      have hnone := inDirective_of_not_mem hout
      rw [nodesAll_cons, nodesAll_nil, List.append_nil] at hnone
      rw [nodesAll_cons, inDirective_append, hnone, Bool.false_or]

end

end Branch

/-! ## §5. Nodes that are read -/

namespace Outline

open Branch (nodesAll leavesAll skeletonsAll)

/-- A node as the grammar makes it: it has leaves, a function has its name before its parameter
    list, the parameter list nests between its parentheses, and a directive is one line. -/
inductive Made : Branch → Prop where
  | other {kind : NodeKind} {parts : List Branch} : leavesAll parts ≠ [] →
      kind.isFunction = false → kind ≠ .functionParams → kind ≠ .directive →
      Made (.node kind parts)
  | directive {hash : Leaf} {body : List Leaf} : hash.kind = .hash →
      (∀ leaf ∈ body, leaf.startsLine = false) →
      Made (.node .directive ((hash :: body).map .leaf))
  | params {opener closer : Leaf} {inner : List Leaf} : opener.kind = .lparen →
      closer.kind = .rparen → Nested inner →
      Made (.node .functionParams ((opener :: (inner ++ [closer])).map .leaf))
  | function {kind : NodeKind} {name params : List Leaf} {more : List Branch} : name ≠ [] →
      params ≠ [] → kind.isFunction = true →
      Made (.node kind (name.map .leaf ++ .node .functionParams (params.map .leaf) :: more))

/-- A node has leaves. -/
theorem Made.ne_nil {node : Branch} (h : Made node) : node.leaves ≠ [] := by
  cases h with
  | other hne => simpa using hne
  | directive => simp
  | params => simp
  | function hname _ _ => simp [hname]

/-- An aggregate has leaves. -/
theorem Reads.aggregate_ne_nil {branches : List Branch} {rest : List Leaf}
    (h : Reads .aggregate branches rest) : leavesAll branches ≠ [] := by
  cases h <;> simp

/-- **A node of the grammar**, with what the rule that makes it says of its parts. -/
inductive Formed : Branch → Prop where
  | block {opener closer : Leaf} {parts : List Branch} :
      Formed (.node .statementBlock (.leaf opener :: (parts ++ [.leaf closer])))
  | directive {leaves rest : List Leaf} : Directive leaves rest →
      Formed (.node .directive (leaves.map .leaf))
  | single {kind : NodeKind} {leaf : Leaf} : kind ∈ [.token, .structTag, .structName] →
      Formed (.node kind [.leaf leaf])
  | statement {goesOn : Bool} {first : Leaf} {parts : List Branch} {rest : List Leaf} :
      (leavesAll parts).head? = some first → Reads (.tail goesOn) parts rest →
      Formed (.node .statement parts)
  | typedef {first : Leaf} {parts : List Branch} {rest : List Leaf} : first.kind = .typedef →
      Reads (.tail true) parts rest → Formed (.node .typedef (.leaf first :: parts))
  | typedefStruct {first : Leaf} {parts names : List Branch} {rest : List Leaf} :
      first.kind = .typedef → Reads .aggregate parts rest → Declarators false names →
      Formed (.node .typedef (.leaf first :: .node .structDefn parts :: names))
  | structDecl {first tag last : Leaf} :
      Formed (.node .structDecl [.leaf first, .node .structTag [.leaf tag], .leaf last])
  | structDefn {parts names : List Branch} {rest : List Leaf} : Reads .aggregate parts rest →
      Formed (.node .structDefn (parts ++ names))
  | params {name inner quals : List Leaf} {opener closer : Leaf} :
      Prototype (fun opener closer => opener.closer? = some closer) name opener inner closer
        quals →
      Formed (.node .functionParams ((opener :: (inner ++ [closer])).map .leaf))
  | function {kind : NodeKind} {name params : List Leaf} {more : List Branch} :
      kind.isFunction = true → name ≠ [] → params ≠ [] →
      Formed (.node kind (name.map .leaf ++ .node .functionParams (params.map .leaf) :: more))
  | linkage {first : Leaf} {parts : List Branch} :
      Formed (.node .linkageBlock (.leaf first :: parts))

/-- What holds of all nodes holds of the first, of those below it and of the others. -/
theorem forall_nodesAll_cons {p : Branch → Prop} {kind : NodeKind} {parts more : List Branch} :
    (∀ node ∈ nodesAll (.node kind parts :: more), p node)
      ↔ (p (.node kind parts) ∧ ∀ node ∈ nodesAll parts, p node)
        ∧ ∀ node ∈ nodesAll more, p node := by
  rw [Branch.nodesAll_cons, Branch.nodes_node, List.forall_mem_append, List.forall_mem_cons]

/-- The only nodes of the declarators are the names. -/
theorem Declarators.formed {initialiser : Bool} {branches : List Branch}
    (h : Declarators initialiser branches) : ∀ node ∈ nodesAll branches, Formed node := by
  induction h with
  | finish => simp
  | group _ _ ih => simpa using ih
  | name _ _ ih => exact forall_nodesAll_cons.mpr ⟨⟨.single (by simp), by simp⟩, ih⟩
  | word _ _ ih => simpa using ih
  | assign _ _ ih => simpa using ih
  | comma _ _ ih => simpa using ih
  | other _ _ _ _ ih => simpa using ih

/-- **The nodes that are read** are nodes of the grammar. -/
theorem Reads.formed {part : Part} {branches : List Branch} {rest : List Leaf}
    (h : Reads part branches rest) : ∀ node ∈ nodesAll branches, Formed node := by
  -- along the rules: the node that a rule makes, and by induction those in its parts
  induction h with
  | block _ _ _ ih => exact forall_nodesAll_cons.mpr ⟨⟨.block, by simpa using ih⟩, by simp⟩
  | bodyEnd => simp
  | bodyDirective hdir _ ih => exact forall_nodesAll_cons.mpr ⟨⟨.directive hdir, by simp⟩, ih⟩
  | bodyBlock _ _ ih ih' =>
    rw [Branch.nodesAll_cons, List.forall_mem_append]
    exact ⟨by simpa using ih, ih'⟩
  | bodyLone _ _ ih => exact forall_nodesAll_cons.mpr ⟨⟨.single (by simp), by simp⟩, ih⟩
  | bodyStatement hfirst _ htail _ ih ih' =>
    exact forall_nodesAll_cons.mpr ⟨⟨.statement hfirst htail, ih⟩, ih'⟩
  | tailEnd => simp
  | tailSemicolon => simp
  | tailBlock _ ih => exact ih
  | tailBlockOn _ _ ih ih' =>
    rw [Branch.nodesAll_cons, List.forall_mem_append]
    exact ⟨by simpa using ih, ih'⟩
  | tailGroup _ _ _ _ ih => simpa using ih
  | tailAssign _ _ ih => simpa using ih
  | tailWord _ _ ih => simpa using ih
  | struct _ _ ih => simpa using ih
  | structTagged _ _ _ ih =>
    rw [Branch.nodesAll_cons, Branch.nodes_leaf, List.nil_append]
    exact forall_nodesAll_cons.mpr ⟨⟨.single (by simp), by simp⟩, ih⟩
  | directive hdir => exact forall_nodesAll_cons.mpr ⟨⟨.directive hdir, by simp⟩, by simp⟩
  | lone => exact forall_nodesAll_cons.mpr ⟨⟨.single (by simp), by simp⟩, by simp⟩
  | typedef hfirst _ htail ih =>
    exact forall_nodesAll_cons.mpr ⟨⟨.typedef hfirst htail, by simpa using ih⟩, by simp⟩
  | typedefStruct hfirst hstruct hnames ih =>
    refine forall_nodesAll_cons.mpr ⟨⟨.typedefStruct hfirst hstruct hnames, ?_⟩, by simp⟩
    rw [Branch.nodesAll_cons, Branch.nodes_leaf, List.nil_append]
    refine forall_nodesAll_cons.mpr ⟨⟨?_, ih⟩, hnames.formed⟩
    simpa using @Formed.structDefn _ [] _ hstruct
  | structDecl =>
    refine forall_nodesAll_cons.mpr ⟨⟨.structDecl, ?_⟩, by simp⟩
    rw [Branch.nodesAll_cons, Branch.nodes_leaf, List.nil_append]
    exact forall_nodesAll_cons.mpr ⟨⟨.single (by simp), by simp⟩, by simp⟩
  | structDefn hstruct hnames ih =>
    refine forall_nodesAll_cons.mpr ⟨⟨.structDefn hstruct, ?_⟩, by simp⟩
    rw [Branch.nodesAll_append, List.forall_mem_append]
    exact ⟨ih, hnames.formed⟩
  | definition _ hproto _ ih =>
    refine forall_nodesAll_cons.mpr ⟨⟨.function rfl hproto.name_ne_nil (by simp), ?_⟩, by simp⟩
    rw [Branch.nodesAll_append, Branch.nodesAll_map_leaf, List.nil_append]
    exact forall_nodesAll_cons.mpr ⟨⟨.params hproto, by simp⟩, by simpa using ih⟩
  | prototype _ hproto _ =>
    refine forall_nodesAll_cons.mpr ⟨⟨.function rfl hproto.name_ne_nil (by simp), ?_⟩, by simp⟩
    rw [Branch.nodesAll_append, Branch.nodesAll_map_leaf, List.nil_append]
    exact forall_nodesAll_cons.mpr ⟨⟨.params hproto, by simp⟩, by simp⟩
  | statement hfirst _ _ htail ih =>
    exact forall_nodesAll_cons.mpr ⟨⟨.statement hfirst htail, ih⟩, by simp⟩
  | linkage _ _ _ _ _ ih =>
    exact forall_nodesAll_cons.mpr ⟨⟨.linkage, by simpa using ih⟩, by simp⟩
  | construct _ _ ih => exact ih
  | itemsEnd => simp
  | itemsCons _ _ ih ih' =>
    rw [Branch.nodesAll_cons, List.forall_mem_append]
    exact ⟨by simpa using ih, ih'⟩

/-- Nodes of the grammar are as the grammar makes them. -/
theorem Formed.made {node : Branch} (h : Formed node) : Made node := by
  cases h with
  | block => exact .other (by simp) rfl (by simp) (by simp)
  | directive hdir =>
    obtain ⟨hash, body, rfl, hk, hbody, -⟩ := hdir
    exact .directive hk hbody
  | single hkind =>
    simp only [List.mem_cons, List.not_mem_nil, or_false] at hkind
    rcases hkind with rfl | rfl | rfl <;> exact .other (by simp) rfl (by simp) (by simp)
  | statement hfirst =>
    obtain ⟨more, hleaves⟩ := List.head?_eq_some_iff.mp hfirst
    exact .other (by simp [hleaves]) rfl (by simp) (by simp)
  | typedef => exact .other (by simp) rfl (by simp) (by simp)
  | typedefStruct => exact .other (by simp) rfl (by simp) (by simp)
  | structDecl => exact .other (by simp) rfl (by simp) (by simp)
  | structDefn hstruct =>
    exact .other (by simp [hstruct.aggregate_ne_nil]) rfl (by simp) (by simp)
  | params hproto =>
    have hpair := hproto.pair
    rw [hproto.paren] at hpair
    exact .params hproto.paren (Option.some.inj hpair).symm hproto.between
  | function hkind hname hparams => exact .function hname hparams hkind
  | linkage => exact .other (by simp) rfl (by simp) (by simp)

/-- The nodes that are read are as the grammar makes them. -/
theorem Reads.made {part : Part} {branches : List Branch} {rest : List Leaf}
    (h : Reads part branches rest) : ∀ node ∈ nodesAll branches, Made node :=
  fun node hnode => (h.formed node hnode).made

/-! ## §6. The branches of a file -/

/-- The branches of a file that has an outline, with their nodes in its tree. -/
structure Branched (list : TokenList) (tree : NodeTree) (kids : NodeId → List NodeId)
    (branches : List Branch) : Prop where
  unedited : list.Unedited
  leaves : leavesAll branches = list.leaves
  reads : Reads .items branches []
  forest : tree.Forest kids
  kind_root : tree.kind? NodeTree.root = some .root
  kids_root : kids NodeTree.root = Skeleton.tops 1 (skeletonsAll branches)
  planted : Skeleton.PlantedAllAt tree kids 1 (skeletonsAll branches)
  size : tree.nodes.size = 1 + Skeleton.sizeAll (skeletonsAll branches)

/-- **A file that has an outline** is made of branches. -/
theorem branched_of_parse {source : String} {list : TokenList} {tree : NodeTree}
    (hlex : TokenList.lex source = .ok list) (hparse : list.parse = .ok tree) :
    ∃ kids branches, Branched list tree kids branches := by
  have hfresh := TokenList.lex_unedited hlex
  have hlist := hfresh.wellFormed.threaded
  obtain ⟨rfl, hnone⟩ := TokenList.parse_eq_ok hparse
  obtain ⟨kids, hout⟩ := TokenList.outline_outlined hlist
  obtain ⟨branches, hleaves, hitems, hreads⟩ := parse_reads (TokenList.leaves_nodup hlist) hnone
  rw [← hitems] at hout
  exact ⟨kids, branches, hfresh, hleaves, hreads, hout.forest, hout.kind_root, hout.kids_root,
    hout.planted, hout.size⟩

namespace Branched

variable {list : TokenList} {tree : NodeTree} {kids : NodeId → List NodeId}
  {branches : List Branch} {id : NodeId} {node : Branch}

/-- A file that no pass has edited has its leaves in order. -/
theorem ascends (h : Branched list tree kids branches) : Ascends list.leaves := by
  have hids := TokenList.leaves_ids h.unedited.wellFormed.threaded
  have hpair : (list.leaves.map (·.id)).Pairwise fun a b => a.index < b.index := by
    rw [hids]
    exact h.unedited.pairwise_index.sublist List.filter_sublist
  rw [List.pairwise_map] at hpair
  exact hpair

/-- The leaves of a node stand side by side in the file. -/
theorem stretch (h : Branched list tree kids branches) (hnode : node ∈ nodesAll branches) :
    node.leaves <:+: list.leaves := h.leaves ▸ Branch.leavesAll_stretch branches hnode

/-- **Each node of the tree** but the root is one of the branches. -/
theorem exists_node (h : Branched list tree kids branches) (hid : id.index < tree.nodes.size)
    (hroot : id ≠ NodeTree.root) : ∃ node ∈ nodesAll branches, Branch.IsAt tree kids id node := by
  have hpos : 1 ≤ id.index := by
    rcases Nat.eq_zero_or_pos id.index with hzero | hpos
    · exact absurd (show id = NodeTree.root by cases id; cases hzero; rfl) hroot
    · exact hpos
  exact Branch.planted_nodesAll branches h.planted hpos (h.size ▸ hid)

/-- **Each node of the branches** is one of the tree. -/
theorem exists_id (h : Branched list tree kids branches) (hnode : node ∈ nodesAll branches) :
    ∃ id, id.index < tree.nodes.size ∧ Branch.IsAt tree kids id node := by
  obtain ⟨id, -, hat⟩ := Branch.nodesAll_planted branches h.planted hnode
  obtain ⟨kind, parts, -, hkind, -⟩ := hat.inv
  obtain ⟨live, hlive⟩ := NodeTree.live_of_kind? hkind
  exact ⟨id, NodeTree.index_lt_of_get? hlive, hat⟩

/-- **A node holds the leaves between its ends.** -/
theorem mem_range_iff (h : Branched list tree kids branches) {part : List Leaf}
    (hpart : part <:+: list.leaves) (hne : part ≠ []) {leaf : Leaf} (hleaf : leaf ∈ list.leaves) :
    leaf.id ∈ list.range (.ofLeaves part) ↔ leaf ∈ part := by
  have hlist := h.unedited.wellFormed.threaded
  have hends : ∃ last ∈ part, (TokenRange.ofLeaves part).last = last.id
      ∧ (TokenRange.ofLeaves part).first.index ≤ last.id.index := by
    have hlast : part.getLast? = some (part.getLast hne) := List.getLast?_eq_some_getLast hne
    have hmem : part.getLast hne ∈ part := List.getLast_mem hne
    refine ⟨_, hmem, ?_, ((h.ascends.mem_iff hpart hne (hpart.subset hmem)).mp hmem).1⟩
    unfold TokenRange.ofLeaves
    rw [hlast]
    rfl
  obtain ⟨last, hmem, hlast, hle⟩ := hends
  have hin : last.id ∈ list.ids :=
    ((TokenList.mem_leaves_iff hlist).mp ⟨last, hpart.subset hmem, rfl⟩).1
  obtain ⟨-, -, -, -, hrange⟩ := h.unedited.range_eq (by rw [hlast]; exact hin)
    (by rw [hlast]; exact hle)
  rw [hrange, h.ascends.mem_iff hpart hne hleaf]

end Branched

end Outline

end KernelPrep
