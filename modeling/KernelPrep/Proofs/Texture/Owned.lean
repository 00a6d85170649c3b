/-
  KernelPrep.Proofs.Texture.Owned — leaves that a node has for itself.

  The leaves of a node are its own or those of its children.  The own tokens among which
  textures are looked for are the own leaves of the node, and a leaf is the own one of a single
  node.

  Main definitions:
    * `Document.HasNode` — a node of the tree with its parts;
    * `Document.Owns`    — a leaf that a node has for itself.

  Main statements:
    * `Document.HasNode.mem_iff` — a node has the leaves between its ends;
    * `Document.HasNode.owns_iff` — own tokens are own leaves;
    * `Document.Owns.unique`     — a leaf is the own one of a single node.
-/
import KernelPrep.Proofs.Outline.Branching
import KernelPrep.Proofs.Texture.SourceOrder

namespace KernelPrep

open NodeTree (Below root)
open Branch (leavesAll nodesAll skeletonsAll)
open Outline (Branched)

/-! ## §1. Parts and children -/

namespace Branch

variable {tree : NodeTree} {kids : NodeId → List NodeId} {n : Nat} {parts : List Branch}

/-- The nodes among the parts are planted side by side. -/
theorem exists_top (h : Skeleton.PlantedAllAt tree kids n (skeletonsAll parts)) {kind : NodeKind}
    {inside : List Branch} (hpart : .node kind inside ∈ parts) :
    ∃ id ∈ Skeleton.tops n (skeletonsAll parts), IsAt tree kids id (.node kind inside) := by
  induction parts generalizing n with
  | nil => simp at hpart
  | cons part parts ih =>
    rw [skeletonsAll_cons] at h ⊢
    cases part with
    | leaf x =>
      rw [skeletons_leaf, List.nil_append] at h ⊢
      exact ih h (by simpa using hpart)
    | node kind' inside' =>
      rw [skeletons_node, List.singleton_append] at h ⊢
      unfold Skeleton.PlantedAllAt at h
      unfold Skeleton.tops
      rcases List.mem_cons.mp hpart with he | hpart
      · refine ⟨⟨n⟩, List.mem_cons_self, _, skeletons_node _ _, ?_⟩
        obtain ⟨rfl, rfl⟩ := Branch.node.inj he
        exact h.1
      · obtain ⟨id, hid, hat⟩ := ih h.2 hpart
        exact ⟨id, List.mem_cons_of_mem _ hid, hat⟩

/-- What is planted is the nodes among the parts. -/
theorem exists_part (h : Skeleton.PlantedAllAt tree kids n (skeletonsAll parts)) {id : NodeId}
    (hid : id ∈ Skeleton.tops n (skeletonsAll parts)) :
    ∃ kind inside, .node kind inside ∈ parts ∧ IsAt tree kids id (.node kind inside) := by
  induction parts generalizing n with
  | nil => simp [Skeleton.tops] at hid
  | cons part parts ih =>
    rw [skeletonsAll_cons] at h hid
    have hmore : ∀ {n}, Skeleton.PlantedAllAt tree kids n (skeletonsAll parts) →
        id ∈ Skeleton.tops n (skeletonsAll parts) →
        ∃ kind inside, .node kind inside ∈ part :: parts
          ∧ IsAt tree kids id (.node kind inside) := by
      intro n h hid
      obtain ⟨kind, inside, hmem, hat⟩ := ih h hid
      exact ⟨kind, inside, List.mem_cons_of_mem _ hmem, hat⟩
    cases part with
    | leaf x =>
      rw [skeletons_leaf, List.nil_append] at h hid
      exact hmore h hid
    | node kind inside =>
      rw [skeletons_node, List.singleton_append] at h hid
      unfold Skeleton.PlantedAllAt at h
      unfold Skeleton.tops at hid
      rcases List.mem_cons.mp hid with rfl | hid
      · exact ⟨kind, inside, List.mem_cons_self, _, skeletons_node _ _, h.1⟩
      · exact hmore h.2 hid

mutual

/-- The nodes of a node are nodes of the whole. -/
theorem nodes_trans {kind : NodeKind} {node : Branch} : (branch : Branch) →
    .node kind parts ∈ branch.nodes → node ∈ nodesAll parts → node ∈ branch.nodes
  | .leaf _, h, _ => by simp at h
  | .node kind' parts', h, hnode => by
    rw [nodes_node] at h ⊢
    rcases List.mem_cons.mp h with he | h
    · obtain ⟨rfl, rfl⟩ := Branch.node.inj he
      exact List.mem_cons_of_mem _ hnode
    · exact List.mem_cons_of_mem _ (nodesAll_trans parts' h hnode)

/-- A node among the parts of a node. -/
theorem nodesAll_trans {kind : NodeKind} {node : Branch} : (branches : List Branch) →
    .node kind parts ∈ nodesAll branches → node ∈ nodesAll parts → node ∈ nodesAll branches
  | [], h, _ => by simp at h
  | branch :: rest, h, hnode => by
    rw [nodesAll_cons, List.mem_append] at h ⊢
    rcases h with h | h
    · exact .inl (nodes_trans branch h hnode)
    · exact .inr (nodesAll_trans rest h hnode)

end

/-- A leaf that is a part is among the leaves. -/
theorem mem_leavesAll_of_leaf {x : Leaf} (h : .leaf x ∈ parts) : x ∈ leavesAll parts := by
  obtain ⟨before, after, rfl⟩ := List.append_of_mem h
  simp

/-- Every leaf is one of the parts or in a node among them. -/
theorem mem_leavesAll_cases {x : Leaf} (h : x ∈ leavesAll parts) :
    .leaf x ∈ parts ∨ ∃ kind inside, .node kind inside ∈ parts ∧ x ∈ leavesAll inside := by
  induction parts with
  | nil => simp at h
  | cons part parts ih =>
    rw [leavesAll_cons, List.mem_append] at h
    rcases h with h | h
    · cases part with
      | leaf y =>
        obtain rfl : x = y := by simpa using h
        exact .inl List.mem_cons_self
      | node kind inside => exact .inr ⟨kind, inside, List.mem_cons_self, by simpa using h⟩
    · rcases ih h with hleaf | ⟨kind, inside, hnode, hin⟩
      · exact .inl (List.mem_cons_of_mem _ hleaf)
      · exact .inr ⟨kind, inside, List.mem_cons_of_mem _ hnode, hin⟩

/-- A leaf among the parts is in none of the nodes among them. -/
theorem not_mem_of_leaf (hnodup : (leavesAll parts).Nodup) {x : Leaf} (hx : .leaf x ∈ parts)
    {kind : NodeKind} {inside : List Branch} (hnode : .node kind inside ∈ parts) :
    x ∉ leavesAll inside := by
  obtain ⟨before, after, rfl⟩ := List.append_of_mem hnode
  rw [leavesAll_append, leavesAll_cons, leaves_node, List.nodup_append] at hnodup
  obtain ⟨-, hinside, hbefore⟩ := hnodup
  have hafter := (List.nodup_append.mp hinside).2.2
  intro hin
  rcases List.mem_append.mp hx with hx | hx
  · exact hbefore x (mem_leavesAll_of_leaf hx) x (by simp [hin]) rfl
  · have hx : .leaf x ∈ after := by simpa using hx
    exact hafter x hin x (mem_leavesAll_of_leaf hx) rfl

end Branch

/-! ## §2. Nodes with their parts -/

/-- The node of the tree has the kind and the parts. -/
structure Document.HasNode (doc : Document) (branches : List Branch) (n : NodeId)
    (kind : NodeKind) (parts : List Branch) : Prop where
  loaded : Loaded doc
  branched : Branched doc.tokens doc.tree doc.tree.children branches
  mem : .node kind parts ∈ nodesAll branches
  isAt : Branch.IsAt doc.tree doc.tree.children n (.node kind parts)
  ne_root : n ≠ root

namespace Document.HasNode

variable {doc : Document} {branches parts : List Branch} {n m : NodeId} {kind : NodeKind}

/-- The tree has the kind of the node. -/
theorem kind? (h : doc.HasNode branches n kind parts) : doc.tree.kind? n = some kind := h.isAt.kind?

/-- The node hangs from the root. -/
theorem below (h : doc.HasNode branches n kind parts) : Below doc.tree.children root n :=
  h.loaded.below_root_of_kind? h.kind?

/-- **Each node among the branches** is a node of the tree. -/
theorem of_mem (hload : Loaded doc)
    (hbranched : Branched doc.tokens doc.tree doc.tree.children branches)
    (hmem : .node kind parts ∈ nodesAll branches) : ∃ n, doc.HasNode branches n kind parts := by
  obtain ⟨n, hle, hat⟩ := Branch.nodesAll_planted branches hbranched.planted hmem
  refine ⟨n, hload, hbranched, hmem, hat, ?_⟩
  rintro rfl
  exact absurd hle (by decide)

/-- **Each node of the tree** but the root is a node among the branches. -/
theorem of_kind? (hload : Loaded doc)
    (hbranched : Branched doc.tokens doc.tree doc.tree.children branches)
    (hkind : doc.tree.kind? n = some kind) (hne : n ≠ root) :
    ∃ parts, doc.HasNode branches n kind parts := by
  obtain ⟨node, hmem, hat⟩ :=
    hbranched.exists_node (hload.index_lt (hload.below_root_of_kind? hkind)) hne
  obtain ⟨kind', parts, rfl, hkind', -⟩ := hat.inv
  rw [hkind] at hkind'
  obtain rfl := Option.some.inj hkind'
  exact ⟨parts, hload, hbranched, hmem, hat, hne⟩

/-- The nodes among the parts are children. -/
theorem child (h : doc.HasNode branches n kind parts) {kind' : NodeKind} {inside : List Branch}
    (hpart : .node kind' inside ∈ parts) :
    ∃ c ∈ doc.tree.children n, doc.HasNode branches c kind' inside := by
  obtain ⟨_, _, hsame, -, -, hkids, hplanted⟩ := h.isAt.inv
  obtain ⟨rfl, rfl⟩ := Branch.node.inj hsame
  obtain ⟨c, hc, hat⟩ := Branch.exists_top hplanted hpart
  rw [← hkids] at hc
  exact ⟨c, hc, h.loaded, h.branched,
    Branch.nodesAll_trans branches h.mem (Branch.mem_nodesAll hpart (by simp)), hat,
    h.loaded.forest.child_ne_root hc⟩

/-- The children are nodes among the parts. -/
theorem part (h : doc.HasNode branches n kind parts) {c : NodeId}
    (hc : c ∈ doc.tree.children n) :
    ∃ kind' inside, .node kind' inside ∈ parts ∧ doc.HasNode branches c kind' inside := by
  obtain ⟨_, _, hsame, -, -, hkids, hplanted⟩ := h.isAt.inv
  obtain ⟨rfl, rfl⟩ := Branch.node.inj hsame
  rw [hkids] at hc
  obtain ⟨kind', inside, hpart, hat⟩ := Branch.exists_part hplanted hc
  rw [← hkids] at hc
  exact ⟨kind', inside, hpart, h.loaded, h.branched,
    Branch.nodesAll_trans branches h.mem (Branch.mem_nodesAll hpart (by simp)), hat,
    h.loaded.forest.child_ne_root hc⟩

/-- The node at the top of a branch. -/
theorem of_top (hload : Loaded doc)
    (hbranched : Branched doc.tokens doc.tree doc.tree.children branches)
    (hpart : .node kind parts ∈ branches) :
    ∃ c ∈ doc.tree.children root, doc.HasNode branches c kind parts := by
  obtain ⟨c, hc, hat⟩ := Branch.exists_top hbranched.planted hpart
  rw [← hbranched.kids_root] at hc
  exact ⟨c, hc, hload, hbranched, Branch.mem_nodesAll hpart (by simp), hat,
    hload.forest.child_ne_root hc⟩

/-- The leaves of the node stand side by side. -/
theorem stretch (h : doc.HasNode branches n kind parts) :
    leavesAll parts <:+: doc.tokens.leaves := by
  have hstretch := h.branched.stretch h.mem
  rwa [Branch.leaves_node] at hstretch

/-- The node has leaves. -/
theorem ne_nil (h : doc.HasNode branches n kind parts) : leavesAll parts ≠ [] := by
  have hne := (h.branched.reads.made _ h.mem).ne_nil
  rwa [Branch.leaves_node] at hne

/-- Each part of the node has leaves. -/
theorem part_ne_nil (h : doc.HasNode branches n kind parts) {part : Branch}
    (hpart : part ∈ parts) : part.leaves ≠ [] := by
  cases part with
  | leaf x => simp
  | node kind' inside =>
    obtain ⟨c, -, hchild⟩ := h.child hpart
    simpa using hchild.ne_nil

/-- No leaf of the node occurs twice. -/
theorem nodup (h : doc.HasNode branches n kind parts) : (leavesAll parts).Nodup :=
  (h.branched.ascends.stretch h.stretch).nodup

/-- The leaves of earlier parts come before those of later ones. -/
theorem ordered (h : doc.HasNode branches n kind parts) (before after : List Branch)
    (hsplit : parts = before ++ after) {x y : Leaf} (hx : x ∈ leavesAll before)
    (hy : y ∈ leavesAll after) : x.id.index < y.id.index := by
  have hpair := h.branched.ascends.stretch h.stretch
  rw [hsplit, Branch.leavesAll_append] at hpair
  exact (List.pairwise_append.mp hpair).2.2 x hx y hy

/-- A leaf that comes before those of one part is among the parts before it. -/
theorem mem_before_of_lt (h : doc.HasNode branches n kind parts) (before after : List Branch)
    {part : Branch} (hsplit : parts = before ++ part :: after) {x y : Leaf}
    (hx : .leaf x ∈ parts) (hy : y ∈ part.leaves) (hlt : x.id.index < y.id.index) :
    .leaf x ∈ before := by
  rw [hsplit] at hx
  refine (List.mem_append.mp hx).resolve_right fun hin => ?_
  rcases List.mem_cons.mp hin with rfl | hin
  · rw [Branch.leaves_leaf, List.mem_singleton] at hy
    rw [hy] at hlt
    exact Nat.lt_irrefl _ hlt
  · have hlater := h.ordered (before ++ [part]) after (by simp [hsplit]) (x := y) (y := x)
      (by simp [hy]) (Branch.mem_leavesAll_of_leaf hin)
    omega

/-- The ends of a node are those of its leaves. -/
theorem ends (h : doc.HasNode branches n kind parts) :
    (TokenRange.ofLeaves (leavesAll parts)).first.index = doc.start n
      ∧ (TokenRange.ofLeaves (leavesAll parts)).last.index = doc.stop n := by
  obtain ⟨range, hrange, ⟨-, -, hfirst⟩, -, hlast⟩ := h.loaded.range h.below h.ne_root
  rw [h.isAt.tokens?, Branch.leaves_node] at hrange
  obtain rfl := Option.some.inj hrange
  exact ⟨hfirst, hlast⟩

/-- **A node has the leaves between its ends.** -/
theorem mem_iff (h : doc.HasNode branches n kind parts) {x : Leaf} (hx : x ∈ doc.tokens.leaves) :
    x ∈ leavesAll parts ↔ doc.start n ≤ x.id.index ∧ x.id.index ≤ doc.stop n := by
  rw [← h.ends.1, ← h.ends.2]
  exact h.branched.ascends.mem_iff h.stretch h.ne_nil hx

/-- The leaves of the node stand between its ends. -/
theorem between (h : doc.HasNode branches n kind parts) {x : Leaf} (hx : x ∈ leavesAll parts) :
    doc.start n ≤ x.id.index ∧ x.id.index ≤ doc.stop n :=
  (h.mem_iff (h.stretch.subset hx)).mp hx

/-- The first leaf is where the node begins. -/
theorem start_eq (h : doc.HasNode branches n kind parts) {first : Leaf}
    (hfirst : (leavesAll parts).head? = some first) : doc.start n = first.id.index := by
  rw [← h.ends.1]
  unfold TokenRange.ofLeaves
  rw [hfirst]
  rfl

/-- The node ends where its last leaf stands. -/
theorem stop_eq (h : doc.HasNode branches n kind parts) {last : Leaf}
    (hlast : (leavesAll parts).getLast? = some last) : doc.stop n = last.id.index := by
  rw [← h.ends.2]
  unfold TokenRange.ofLeaves
  rw [hlast]
  rfl

/-- A leaf among the parts is outside of every child. -/
theorem outside (h : doc.HasNode branches n kind parts) {x : Leaf} (hx : .leaf x ∈ parts)
    {c : NodeId} (hc : c ∈ doc.tree.children n) :
    x.id.index < doc.start c ∨ doc.stop c < x.id.index := by
  obtain ⟨kind', inside, hpart, hnode⟩ := h.part hc
  have hmem := h.stretch.subset (Branch.mem_leavesAll_of_leaf hx)
  have hnot := mt (hnode.mem_iff hmem).mpr (Branch.not_mem_of_leaf h.nodup hx hpart)
  omega

end Document.HasNode

/-! ## §3. Own leaves -/

/-- The leaf is one of the node's parts. -/
def Document.Owns (doc : Document) (branches : List Branch) (n : NodeId) (x : Leaf) : Prop :=
  ∃ kind parts, doc.HasNode branches n kind parts ∧ .leaf x ∈ parts

/-- **A leaf is the own one of a single node.** -/
theorem Document.Owns.unique {doc : Document} {branches : List Branch} {n m : NodeId} {x : Leaf}
    (hn : doc.Owns branches n x) (hm : doc.Owns branches m x) : n = m := by
  -- a leaf of the lower node is inside of a child of the upper one
  have hbelow : ∀ {n m}, doc.Owns branches n x → doc.Owns branches m x →
      Below doc.tree.children n m → n = m := by
    rintro n m ⟨kind, parts, hn, hx⟩ ⟨kind', parts', hm, hx'⟩ hbelow
    rcases Relation.ReflTransGen.cases_head hbelow with he | ⟨c, hc, hcm⟩
    · exact he
    have hnest : doc.start c ≤ doc.start m ∧ doc.stop m ≤ doc.stop c :=
      hn.loaded.placed.nested_below (hn.below.tail hc) hcm
    have hplace := hm.between (Branch.mem_leavesAll_of_leaf hx')
    rcases hn.outside hx hc with hlt | hlt
    · omega
    · omega
  obtain ⟨kind, parts, hn', hx⟩ := id hn
  obtain ⟨kind', parts', hm', hx'⟩ := id hm
  have hplace := hn'.between (Branch.mem_leavesAll_of_leaf hx)
  have hplace' := hm'.between (Branch.mem_leavesAll_of_leaf hx')
  rcases hn'.loaded.placed.laminar hn'.below hm'.below with hnm | hmn | hlt | hlt
  · exact hbelow hn hm hnm
  · exact (hbelow hm hn hmn).symm
  · omega
  · omega

namespace Document.HasNode

variable {doc : Document} {branches parts : List Branch} {n : NodeId} {kind : NodeKind}

/-- Own tokens count. -/
theorem significant_of_own {doc : Document} {n : NodeId} {x : TokenId}
    (h : x ∈ doc.ownTokens n) : doc.tokens.isSignificant x = true := by
  unfold Document.ownTokens at h
  split at h
  · simp at h
  · exact Document.ownFrom_significant h

/-- **The own tokens of a node** are the leaves among its parts. -/
theorem owns_iff (h : doc.HasNode branches n kind parts) (hplain : doc.Plain n) {id : TokenId} :
    id ∈ doc.ownTokens n ↔ ∃ x, .leaf x ∈ parts ∧ x.id = id := by
  have hlist := h.loaded.threaded
  rw [h.loaded.mem_ownTokens_iff hplain]
  constructor
  · rintro ⟨⟨hlow, hhigh⟩, hsig, hout⟩
    obtain ⟨range, -, hsub, hmem⟩ := h.loaded.stretch hplain
    have hin := hsub.subset ((hmem id).mpr ⟨hlow, hhigh⟩)
    obtain ⟨x, hx, rfl⟩ := (TokenList.mem_leaves_iff hlist).mpr ⟨hin, hsig⟩
    -- a leaf in one of the parts is in a child
    rcases Branch.mem_leavesAll_cases ((h.mem_iff hx).mpr ⟨hlow, hhigh⟩) with hleaf | hnode
    · exact ⟨x, hleaf, rfl⟩
    · obtain ⟨kind', inside, hpart, hin⟩ := hnode
      obtain ⟨c, hc, hchild⟩ := h.child hpart
      have hplace := hchild.between hin
      rcases hout c hc with hlt | hlt
      · omega
      · omega
  · rintro ⟨x, hx, rfl⟩
    have hleaf := Branch.mem_leavesAll_of_leaf hx
    obtain ⟨-, hsig⟩ :=
      (TokenList.mem_leaves_iff hlist).mp ⟨x, h.stretch.subset hleaf, rfl⟩
    exact ⟨h.between hleaf, hsig, fun c hc => h.outside hx hc⟩

/-- A leaf that is a part is owned. -/
theorem owns (h : doc.HasNode branches n kind parts) {x : Leaf} (hx : .leaf x ∈ parts) :
    doc.Owns branches n x := ⟨kind, parts, h, hx⟩

end Document.HasNode

end KernelPrep
