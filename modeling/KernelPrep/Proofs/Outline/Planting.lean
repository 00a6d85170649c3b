/-
  KernelPrep.Proofs.Outline.Planting — skeletons as the nodes of a tree.

  Grafting gives handles in pre-order, so a skeleton of `n` nodes takes the next `n`
  handles: its top node the first of them, and its children stretches of the others, one
  behind the other.

  Main definitions:
    * `Skeleton.tops`      — the handles of skeletons planted side by side;
    * `Skeleton.PlantedAt` — the nodes from a handle on are those of the skeleton;
    * `NodeTree.Grown`     — what grafting leaves as it was.

  Main statements:
    * `NodeTree.graftAll_planted`    — grafting plants skeletons;
    * `NodeTree.ofSkeletons_planted` — the tree of a file holds exactly its items;
    * `Skeleton.PlantedAt.below`     — each of the handles taken is below the first;
    * `Skeleton.PlantedAt.listing`   — a walk meets them in the order of the handles.
-/
import KernelPrep.Outline.Skeleton
import KernelPrep.Proofs.Node.Walk

namespace KernelPrep

namespace Skeleton

/-! ## §1. Skeletons in a tree -/

/-- The handles of the top nodes of skeletons planted side by side from handle `n` on. -/
def tops (n : Nat) : List Skeleton → List NodeId
  | [] => []
  | s :: rest => ⟨n⟩ :: tops (n + s.size) rest

mutual

/-- The nodes from handle `n` on are those of the skeleton. -/
def PlantedAt (tree : NodeTree) (kids : NodeId → List NodeId) : Nat → Skeleton → Prop
  | n, .node kind range children =>
    tree.kind? ⟨n⟩ = some kind ∧ tree.tokens? ⟨n⟩ = some range
      ∧ kids ⟨n⟩ = tops (n + 1) children ∧ PlantedAllAt tree kids (n + 1) children

/-- The nodes from handle `n` on are those of the skeletons, in order. -/
def PlantedAllAt (tree : NodeTree) (kids : NodeId → List NodeId) : Nat → List Skeleton → Prop
  | _, [] => True
  | n, s :: rest => PlantedAt tree kids n s ∧ PlantedAllAt tree kids (n + s.size) rest

end

variable {tree tree' : NodeTree} {kids kids' : NodeId → List NodeId}

theorem PlantedAt.kind?_eq {n : Nat} {s : Skeleton} (h : s.PlantedAt tree kids n) :
    tree.kind? ⟨n⟩ = some s.kind := by
  cases s
  unfold PlantedAt at h
  exact h.1

/-- The tops are of the kinds of their skeletons. -/
theorem PlantedAllAt.kinds {n : Nat} (ss : List Skeleton) (h : PlantedAllAt tree kids n ss) :
    (tops n ss).map tree.kind? = ss.map (some ∘ Skeleton.kind) := by
  induction ss generalizing n with
  | nil => rfl
  | cons s rest ih =>
    unfold PlantedAllAt at h
    unfold tops
    rw [List.map_cons, List.map_cons, h.1.kind?_eq, ih h.2]
    rfl

mutual

/-- Skeletons stay planted while their nodes stay as they are. -/
theorem PlantedAt.congr {n : Nat} : (s : Skeleton) → s.PlantedAt tree kids n →
    (∀ x : NodeId, n ≤ x.index → x.index < n + s.size →
      tree'.kind? x = tree.kind? x ∧ tree'.tokens? x = tree.tokens? x ∧ kids' x = kids x) →
    s.PlantedAt tree' kids' n
  | .node kind range children, h, hsame => by
    unfold PlantedAt at h ⊢
    unfold size at hsame
    obtain ⟨hkind, htokens, hkids, hall⟩ := h
    have htop := hsame ⟨n⟩ (Nat.le_refl n) (by dsimp only; omega)
    rw [htop.1, htop.2.1, htop.2.2]
    refine ⟨hkind, htokens, hkids, PlantedAllAt.congr children hall ?_⟩
    intro x hlow hhigh
    exact hsame x (by omega) (by omega)

/-- What is planted stays planted while its nodes stay. -/
theorem PlantedAllAt.congr {n : Nat} : (ss : List Skeleton) → PlantedAllAt tree kids n ss →
    (∀ x : NodeId, n ≤ x.index → x.index < n + sizeAll ss →
      tree'.kind? x = tree.kind? x ∧ tree'.tokens? x = tree.tokens? x ∧ kids' x = kids x) →
    PlantedAllAt tree' kids' n ss
  | [], _, _ => by
    unfold PlantedAllAt
    trivial
  | s :: rest, h, hsame => by
    unfold PlantedAllAt at h ⊢
    unfold sizeAll at hsame
    refine ⟨PlantedAt.congr s h.1 fun x hlow hhigh => hsame x hlow (by omega), ?_⟩
    exact PlantedAllAt.congr rest h.2 fun x hlow hhigh => hsame x (by omega) (by omega)

end

mutual

/-- Each of the handles taken is below the first. -/
theorem PlantedAt.below {n : Nat} : (s : Skeleton) → s.PlantedAt tree kids n → {i : Nat} →
    n ≤ i → i < n + s.size → NodeTree.Below kids ⟨n⟩ ⟨i⟩
  | .node kind range children, h, i, hlow, hhigh => by
    unfold PlantedAt at h
    unfold size at hhigh
    rcases Nat.eq_or_lt_of_le hlow with rfl | hlt
    · exact Relation.ReflTransGen.refl
    · obtain ⟨top, htop, hbelow⟩ :=
        PlantedAllAt.below children h.2.2.2 (i := i) (by omega) (by omega)
      rw [← h.2.2.1] at htop
      exact Relation.ReflTransGen.head htop hbelow

/-- Every node of the stretch is below one of the tops. -/
theorem PlantedAllAt.below {n : Nat} : (ss : List Skeleton) → PlantedAllAt tree kids n ss →
    {i : Nat} → n ≤ i → i < n + sizeAll ss → ∃ top ∈ tops n ss, NodeTree.Below kids top ⟨i⟩
  | [], _, i, hlow, hhigh => by
    unfold sizeAll at hhigh
    omega
  | s :: rest, h, i, hlow, hhigh => by
    unfold PlantedAllAt at h
    unfold sizeAll at hhigh
    unfold tops
    rcases Nat.lt_or_ge i (n + s.size) with hlt | hge
    · exact ⟨⟨n⟩, List.mem_cons_self, PlantedAt.below s h.1 hlow hlt⟩
    · obtain ⟨top, htop, hbelow⟩ :=
        PlantedAllAt.below rest h.2 (i := i) hge (by omega)
      exact ⟨top, List.mem_cons_of_mem _ htop, hbelow⟩

end

mutual

/-- A walk meets the nodes in the order of their handles. -/
theorem PlantedAt.listing {n depth : Nat} : (s : Skeleton) → s.PlantedAt tree kids n →
    s.size ≤ depth →
    NodeTree.listing kids depth ⟨n⟩ = (List.range' n s.size).map NodeId.mk
  | .node kind range children, h, hdepth => by
    unfold PlantedAt at h
    unfold size at hdepth ⊢
    obtain ⟨depth, rfl⟩ : ∃ d, depth = d + 1 := ⟨depth - 1, by omega⟩
    unfold NodeTree.listing
    rw [h.2.2.1, PlantedAllAt.listing children h.2.2.2 (by omega), List.range'_succ,
      List.map_cons]

/-- Listed from their tops on, planted skeletons are a stretch of slots. -/
theorem PlantedAllAt.listing {n depth : Nat} : (ss : List Skeleton) →
    PlantedAllAt tree kids n ss → sizeAll ss ≤ depth →
    (tops n ss).flatMap (NodeTree.listing kids depth)
      = (List.range' n (sizeAll ss)).map NodeId.mk
  | [], _, _ => rfl
  | s :: rest, h, hdepth => by
    unfold PlantedAllAt at h
    unfold sizeAll at hdepth ⊢
    unfold tops
    rw [List.flatMap_cons, PlantedAt.listing s h.1 (by omega),
      PlantedAllAt.listing rest h.2 (by omega), ← List.map_append, ← List.range'_append_1]

end

end Skeleton

namespace NodeTree

open Skeleton

/-! ## §2. Grafting -/

/-- Nodes were added below `parent`, `count` of them, and nothing else has changed. -/
structure Grown (tree tree' : NodeTree) (kids kids' : NodeId → List NodeId) (parent : NodeId)
    (count : Nat) : Prop where
  forest : tree'.Forest kids'
  size : tree'.nodes.size = tree.nodes.size + count
  kind : ∀ x : NodeId, x.index < tree.nodes.size → tree'.kind? x = tree.kind? x
  tokens : ∀ x : NodeId, x.index < tree.nodes.size → tree'.tokens? x = tree.tokens? x
  kids : ∀ x : NodeId, x.index < tree.nodes.size → x ≠ parent → kids' x = kids x

/-- One new node as the last child of `parent`. -/
theorem Forest.allocChild {tree : NodeTree} {kids : NodeId → List NodeId} (h : tree.Forest kids)
    {parent : NodeId} (hp : ∃ node, tree.get? parent = some node) (kind : NodeKind)
    (range : TokenRange) :
    Grown tree ((tree.alloc kind (some range)).2.appendChild parent tree.nextId) kids
        (Function.update kids parent (kids parent ++ [tree.nextId])) parent 1
      ∧ ((tree.alloc kind (some range)).2.appendChild parent tree.nextId).kind? tree.nextId
        = some kind
      ∧ ((tree.alloc kind (some range)).2.appendChild parent tree.nextId).tokens? tree.nextId
        = some range := by
  obtain ⟨pnode, hpnode⟩ := hp
  have hnew : tree.get? tree.nextId = none := get?_nextId tree
  -- the new node is none of those there were, so nothing links to it yet
  have hfresh : ∀ {x : NodeId}, x.index < tree.nodes.size → x ≠ tree.nextId := by
    rintro x hx rfl
    exact Nat.lt_irrefl _ hx
  have hne : parent ≠ tree.nextId := hfresh (index_lt_of_get? hpnode)
  have hnode : ∃ node, (tree.alloc kind (some range)).2.get? tree.nextId = some node :=
    ⟨_, by rw [get?_alloc, if_pos rfl]⟩
  have hfree : (tree.alloc kind (some range)).2.parent? tree.nextId = none := by
    unfold parent?
    rw [get?_alloc, if_pos rfl]
    rfl
  have hroot : tree.nextId ≠ root := by
    obtain ⟨r, hr⟩ := h.root_live
    exact (hfresh (index_lt_of_get? hr)).symm
  have hout : ¬ Below kids tree.nextId parent := by
    intro hb
    rcases Relation.ReflTransGen.cases_head hb with heq | ⟨c, hc, -⟩
    · exact hne heq.symm
    · rw [h.kids_eq_nil hnew] at hc
      simp at hc
  have hp' : ∃ node, (tree.alloc kind (some range)).2.get? parent = some node :=
    ⟨pnode, by rw [get?_alloc, if_neg hne]; exact hpnode⟩
  -- put in as the last child
  have hins := (h.alloc kind (some range)).appendChild hnode hfree hroot hout hp'
  refine ⟨⟨hins.forest, ?_, ?_, ?_, ?_⟩, ?_, ?_⟩
  · rw [hins.size]
    exact Array.size_push _
  · intro x hx
    rw [hins.kind, kind?_alloc, if_neg (hfresh hx)]
  · intro x hx
    rw [hins.tokens, tokens?_alloc, if_neg (hfresh hx)]
  · intro x _ hx
    exact Function.update_of_ne hx _ _
  · rw [hins.kind, kind?_alloc, if_pos rfl]
  · rw [hins.tokens, tokens?_alloc, if_pos rfl]

variable {tree tree₁ tree₂ : NodeTree} {kids kids₁ kids₂ : NodeId → List NodeId}
  {parent : NodeId} {count count' : Nat}

/-- Growing twice below one parent is growing by both counts. -/
theorem Grown.trans (h : Grown tree tree₁ kids kids₁ parent count)
    (h' : Grown tree₁ tree₂ kids₁ kids₂ parent count') :
    Grown tree tree₂ kids kids₂ parent (count + count') where
  forest := h'.forest
  size := by rw [h'.size, h.size, Nat.add_assoc]
  kind := fun x hx => by
    rw [h'.kind x (by rw [h.size]; omega), h.kind x hx]
  tokens := fun x hx => by
    rw [h'.tokens x (by rw [h.size]; omega), h.tokens x hx]
  kids := fun x hx hne => by
    rw [h'.kids x (by rw [h.size]; omega) hne, h.kids x hx hne]

theorem graft_node (tree : NodeTree) (parent : NodeId) (kind : NodeKind) (range : TokenRange)
    (children : List Skeleton) :
    tree.graft parent (.node kind range children)
      = ((tree.alloc kind (some range)).2.appendChild parent tree.nextId).graftAll tree.nextId
          children := by
  unfold graft
  rfl

mutual

/-- **Grafting plants a skeleton** at the next handle, as the last child. -/
theorem graft_planted {tree : NodeTree} {kids : NodeId → List NodeId} {parent : NodeId} :
    (s : Skeleton) → tree.Forest kids → (∃ node, tree.get? parent = some node) →
    ∃ kids', Grown tree (tree.graft parent s) kids kids' parent s.size
      ∧ kids' parent = kids parent ++ [tree.nextId]
      ∧ s.PlantedAt (tree.graft parent s) kids' tree.nodes.size
  | .node kind range children, h, hp => by
    obtain ⟨hgrown, hkind, htokens⟩ := h.allocChild hp kind range
    obtain ⟨pnode, hpnode⟩ := hp
    have hplt := index_lt_of_get? hpnode
    have hne : parent ≠ tree.nextId := by
      rintro rfl
      exact Nat.lt_irrefl _ hplt
    -- the node comes first, then its children below it
    obtain ⟨kids', hgrown', htops, hplanted⟩ :=
      graftAll_planted children hgrown.forest (live_of_kind? hkind)
    have hkidsNew : Function.update kids parent (kids parent ++ [tree.nextId]) tree.nextId
        = [] := by
      rw [Function.update_of_ne hne.symm]
      exact h.kids_eq_nil (get?_nextId tree)
    have hlt : tree.nextId.index < tree.nodes.size + 1 := Nat.lt_succ_self _
    rw [graft_node]
    refine ⟨kids', ⟨hgrown'.forest, ?_, ?_, ?_, ?_⟩, ?_, ?_⟩
    · rw [hgrown'.size, hgrown.size]
      unfold Skeleton.size
      omega
    · intro x hx
      rw [hgrown'.kind x (by rw [hgrown.size]; omega), hgrown.kind x hx]
    · intro x hx
      rw [hgrown'.tokens x (by rw [hgrown.size]; omega), hgrown.tokens x hx]
    · intro x hx hxp
      have hxn : x ≠ tree.nextId := by
        rintro rfl
        exact Nat.lt_irrefl _ hx
      rw [hgrown'.kids x (by rw [hgrown.size]; omega) hxn, hgrown.kids x hx hxp]
    · rw [hgrown'.kids parent (by rw [hgrown.size]; omega) hne, Function.update_self]
    · unfold PlantedAt
      rw [hkidsNew, hgrown.size] at htops
      rw [hgrown.size] at hplanted
      refine ⟨?_, ?_, ?_, hplanted⟩
      · exact (hgrown'.kind tree.nextId (by rw [hgrown.size]; exact hlt)).trans hkind
      · exact (hgrown'.tokens tree.nextId (by rw [hgrown.size]; exact hlt)).trans htokens
      · exact htops

/-- **Grafting plants skeletons** side by side, behind the children that are there. -/
theorem graftAll_planted {tree : NodeTree} {kids : NodeId → List NodeId} {parent : NodeId} :
    (ss : List Skeleton) → tree.Forest kids → (∃ node, tree.get? parent = some node) →
    ∃ kids', Grown tree (tree.graftAll parent ss) kids kids' parent (sizeAll ss)
      ∧ kids' parent = kids parent ++ tops tree.nodes.size ss
      ∧ PlantedAllAt (tree.graftAll parent ss) kids' tree.nodes.size ss
  | [], h, _ => by
    refine ⟨kids, ⟨h, rfl, fun _ _ => rfl, fun _ _ => rfl, fun _ _ _ => rfl⟩, ?_, ?_⟩
    · unfold tops
      rw [List.append_nil]
    · unfold PlantedAllAt
      trivial
  | s :: rest, h, hp => by
    obtain ⟨kids₁, hgrown, hkids, hplanted⟩ := graft_planted s h hp
    obtain ⟨pnode, hpnode⟩ := hp
    have hplt := index_lt_of_get? hpnode
    have hp₁ : ∃ node, (tree.graft parent s).get? parent = some node := by
      have hkind : (tree.graft parent s).kind? parent = some pnode.kind := by
        rw [hgrown.kind parent hplt]
        unfold kind?
        rw [hpnode]
        rfl
      exact live_of_kind? hkind
    obtain ⟨kids₂, hgrown', hkids', hplanted'⟩ := graftAll_planted rest hgrown.forest hp₁
    unfold graftAll
    refine ⟨kids₂, ?_, ?_, ?_⟩
    · unfold sizeAll
      exact hgrown.trans hgrown'
    · rw [hkids', hkids, hgrown.size, List.append_assoc]
      rfl
    · unfold PlantedAllAt
      -- the later ones are planted behind the first, whose nodes stay
      refine ⟨PlantedAt.congr s hplanted ?_, by rw [← hgrown.size]; exact hplanted'⟩
      intro x hlow hhigh
      have hx : x.index < (tree.graft parent s).nodes.size := by
        rw [hgrown.size]
        exact hhigh
      have hxp : x ≠ parent := by
        rintro rfl
        omega
      exact ⟨hgrown'.kind x hx, hgrown'.tokens x hx, hgrown'.kids x hx hxp⟩

end

/-! ## §3. The tree of a file -/

/-- **The tree of a file** holds exactly the nodes of its items, below the root. -/
theorem ofSkeletons_planted (whole? : Option TokenRange) (items : List Skeleton) :
    ∃ kids, (ofSkeletons whole? items).Forest kids
      ∧ kids root = tops 1 items
      ∧ PlantedAllAt (ofSkeletons whole? items) kids 1 items
      ∧ (ofSkeletons whole? items).nodes.size = 1 + sizeAll items
      ∧ (ofSkeletons whole? items).tokens? root = whole?
      ∧ (ofSkeletons whole? items).kind? root = some .root := by
  obtain ⟨kids, hgrown, hkids, hplanted⟩ :=
    graftAll_planted items (forest_ofRoot whole?) (forest_ofRoot whole?).root_live
  refine ⟨kids, hgrown.forest, hkids, hplanted, hgrown.size, ?_, ?_⟩
  · exact hgrown.tokens root (Nat.lt_succ_self 0)
  · exact hgrown.kind root (Nat.lt_succ_self 0)

/-- Every node of the tree of a file is below the root. -/
theorem ofSkeletons_below {tree : NodeTree} {kids : NodeId → List NodeId} {items : List Skeleton}
    (hkids : kids root = tops 1 items) (hplanted : PlantedAllAt tree kids 1 items) {i : Nat}
    (hi : i < 1 + sizeAll items) : Below kids root ⟨i⟩ := by
  rcases Nat.eq_zero_or_pos i with rfl | hpos
  · exact Relation.ReflTransGen.refl
  · obtain ⟨top, htop, hbelow⟩ := PlantedAllAt.below items hplanted hpos hi
    rw [← hkids] at htop
    exact Relation.ReflTransGen.head htop hbelow

/-- A walk over the tree of a file meets every node, in the order of the handles. -/
theorem ofSkeletons_listing {tree : NodeTree} {kids : NodeId → List NodeId}
    {items : List Skeleton} (hkids : kids root = tops 1 items)
    (hplanted : PlantedAllAt tree kids 1 items) {depth : Nat} (hdepth : sizeAll items < depth) :
    listing kids depth root = (List.range (1 + sizeAll items)).map NodeId.mk := by
  obtain ⟨depth, rfl⟩ : ∃ d, depth = d + 1 := ⟨depth - 1, by omega⟩
  unfold listing
  rw [hkids, PlantedAllAt.listing items hplanted (by omega), List.range_eq_range', Nat.add_comm 1,
    List.range'_succ, List.map_cons]
  rfl

end NodeTree

end KernelPrep
