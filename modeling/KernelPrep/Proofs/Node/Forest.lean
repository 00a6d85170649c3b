/-
  KernelPrep.Proofs.Node.Forest — the links of a tree as lists of children.

  A linked tree is described by the list of children of each node.  `Forest tree kids`
  says that the links of `tree` spell exactly the lists `kids`: first and last child,
  next siblings, parents, and that no node is below itself.  Nodes outside the tree that
  hangs from the root may exist; they form trees of their own.

  Main definitions:
    * `NodeTree.Forest`, `NodeTree.WellFormed` — the links spell lists of children;
    * `NodeTree.Below`    — a node or one of its descendants;
    * `NodeTree.Attached` — the nodes of the tree proper.

  Main statements:
    * `NodeTree.Forest.children_eq` — the walk along siblings meets the children;
    * `NodeTree.Forest.attach`      — putting a loose node among the children of another;
    * `NodeTree.Forest.inserted_of_links` — which links change then;
    * `NodeTree.Forest.appendChild`, `NodeTree.Forest.insertBefore`,
      `NodeTree.Forest.insertAfter`, `NodeTree.Forest.prependChild` — the operations.
-/
import Mathlib.Data.List.Nodup
import Mathlib.Logic.Function.Basic
import Mathlib.Logic.Relation
import KernelPrep.Node.Tree

namespace KernelPrep

/-- Handles are told apart by their indices. -/
theorem NodeId.ext_index {a b : NodeId} (h : a.index = b.index) : a = b := by
  cases a
  cases b
  exact congrArg NodeId.mk h

namespace NodeTree

/-! ## §1. One slot changed -/

/-- **One slot changed**: no other node is. -/
theorem get?_modify (tree : NodeTree) (id x : NodeId) (f : Node → Node) :
    (tree.modify id f).get? x = if x = id then (tree.get? x).map f else tree.get? x := by
  unfold get? modify
  rw [Array.getElem?_modify]
  by_cases h : x = id
  · subst h
    rw [if_pos rfl, if_pos rfl]
    cases tree.nodes[x.index]? <;> rfl
  · rw [if_neg h, if_neg (fun he => h (NodeId.ext_index he.symm))]

@[simp] theorem size_modify (tree : NodeTree) (id : NodeId) (f : Node → Node) :
    (tree.modify id f).nodes.size = tree.nodes.size := by
  unfold modify
  exact Array.size_modify

/-- The next handle. -/
def nextId (tree : NodeTree) : NodeId := ⟨tree.nodes.size⟩

/-- **A slot added**: its handle is the next one. -/
theorem get?_alloc (tree : NodeTree) (kind : NodeKind) (tokens? : Option TokenRange)
    (x : NodeId) :
    (tree.alloc kind tokens?).2.get? x
      = if x = tree.nextId then some { kind, tokens? } else tree.get? x := by
  unfold get? alloc nextId
  show (tree.nodes.push _)[x.index]?.join = _
  rw [Array.getElem?_push]
  by_cases h : x = ⟨tree.nodes.size⟩
  · subst h
    simp
  · rw [if_neg h, if_neg (fun he => h (NodeId.ext_index he))]

/-- A new node is of its kind, and the others stay what they are. -/
theorem kind?_alloc (tree : NodeTree) (kind : NodeKind) (range? : Option TokenRange)
    (x : NodeId) :
    (tree.alloc kind range?).2.kind? x = if x = tree.nextId then some kind else tree.kind? x := by
  unfold kind?
  rw [get?_alloc]
  split <;> rfl

/-- A new node has its range, and the others keep theirs. -/
theorem tokens?_alloc (tree : NodeTree) (kind : NodeKind) (range? : Option TokenRange)
    (x : NodeId) :
    (tree.alloc kind range?).2.tokens? x = if x = tree.nextId then range? else tree.tokens? x := by
  unfold tokens?
  rw [get?_alloc]
  split <;> rfl

/-- What is of a kind is a node. -/
theorem live_of_kind? {tree : NodeTree} {id : NodeId} {kind : NodeKind}
    (h : tree.kind? id = some kind) : ∃ node, tree.get? id = some node := by
  obtain ⟨node, hnode, -⟩ := Option.map_eq_some_iff.mp h
  exact ⟨node, hnode⟩

/-- A handle that names a node stands in the array. -/
theorem index_lt_of_get? {tree : NodeTree} {id : NodeId} {node : Node}
    (h : tree.get? id = some node) : id.index < tree.nodes.size := by
  by_contra hge
  unfold get? at h
  rw [Array.getElem?_eq_none (by omega)] at h
  simp at h

/-- The next handle names no node yet. -/
theorem get?_nextId (tree : NodeTree) : tree.get? tree.nextId = none := by
  unfold get? nextId
  rw [Array.getElem?_eq_none (Nat.le_refl _)]
  rfl

/-- A node is not the next one. -/
theorem ne_nextId {tree : NodeTree} {id : NodeId} (h : ∃ n, tree.get? id = some n) :
    id ≠ tree.nextId := by
  rintro rfl
  obtain ⟨n, hn⟩ := h
  rw [tree.get?_nextId] at hn
  simp at hn

/-! ## §2. Lists of children -/

/-- Each node links to the next one of the list, and the last one to none. -/
def Siblings (tree : NodeTree) : List NodeId → Prop
  | [] => True
  | id :: rest => tree.nextSibling? id = rest.head? ∧ Siblings tree rest

/-- A row of siblings stays one as long as their links do. -/
theorem Siblings.congr {tree tree' : NodeTree} {ids : List NodeId} (h : tree.Siblings ids)
    (hlinks : ∀ x ∈ ids, tree'.nextSibling? x = tree.nextSibling? x) : tree'.Siblings ids := by
  induction ids with
  | nil => trivial
  | cons id rest ih =>
    exact ⟨(hlinks id List.mem_cons_self).trans h.1,
      ih h.2 fun x hx => hlinks x (List.mem_cons_of_mem _ hx)⟩

/-- A row of siblings, taken apart. -/
theorem siblings_append {tree : NodeTree} {xs ys : List NodeId} :
    tree.Siblings (xs ++ ys) ↔
      (∀ before id after, xs = before ++ id :: after →
        tree.nextSibling? id = (after ++ ys).head?) ∧ tree.Siblings ys := by
  induction xs with
  | nil => simp
  | cons x rest ih =>
    show tree.nextSibling? x = (rest ++ ys).head? ∧ tree.Siblings (rest ++ ys) ↔ _
    rw [ih]
    constructor
    · rintro ⟨hx, hrest, hys⟩
      refine ⟨?_, hys⟩
      intro before id after hsplit
      cases before with
      | nil =>
        obtain ⟨rfl, rfl⟩ := List.cons.inj hsplit
        exact hx
      | cons y before =>
        exact hrest before id after (List.cons.inj hsplit).2
    · rintro ⟨hall, hys⟩
      refine ⟨hall [] x rest rfl, ?_, hys⟩
      intro before id after hsplit
      exact hall (x :: before) id after (by rw [hsplit]; rfl)

/-- The links of the tree spell the lists `kids`. -/
structure Forest (tree : NodeTree) (kids : NodeId → List NodeId) : Prop where
  first : ∀ id, tree.firstChild? id = (kids id).head?
  last : ∀ id, tree.lastChild? id = (kids id).getLast?
  siblings : ∀ id, tree.Siblings (kids id)
  nodup : ∀ id, (kids id).Nodup
  parent_iff : ∀ parent child, tree.parent? child = some parent ↔ child ∈ kids parent
  height : ∃ height : NodeId → Nat, ∀ parent child, child ∈ kids parent →
    height child < height parent
  root_live : ∃ node, tree.get? root = some node
  root_top : tree.parent? root = none

namespace Forest

variable {tree : NodeTree} {kids : NodeId → List NodeId}

/-- Children are nodes. -/
theorem live_child (h : tree.Forest kids) {parent child : NodeId} (hc : child ∈ kids parent) :
    ∃ node, tree.get? child = some node := by
  have hp := (h.parent_iff parent child).mpr hc
  unfold parent? at hp
  obtain ⟨node, hnode, -⟩ := Option.bind_eq_some_iff.mp hp
  exact ⟨node, hnode⟩

/-- A new node is nobody's child. -/
theorem nextId_not_mem (h : tree.Forest kids) (parent : NodeId) : tree.nextId ∉ kids parent :=
  fun hc => ne_nextId (h.live_child hc) rfl

/-- Who has children is a node. -/
theorem live_parent (h : tree.Forest kids) {parent child : NodeId} (hc : child ∈ kids parent) :
    ∃ node, tree.get? parent = some node := by
  have hf := h.first parent
  unfold firstChild? at hf
  cases hget : tree.get? parent with
  | none =>
    rw [hget] at hf
    cases hk : kids parent with
    | nil => simp [hk] at hc
    | cons y rest => simp [hk] at hf
  | some node => exact ⟨node, rfl⟩

/-- What is no node has no children. -/
theorem kids_eq_nil (h : tree.Forest kids) {id : NodeId} (hdead : tree.get? id = none) :
    kids id = [] := by
  by_contra hne
  obtain ⟨c, hc⟩ := List.exists_mem_of_ne_nil _ hne
  obtain ⟨node, hnode⟩ := h.live_parent hc
  rw [hdead] at hnode
  simp at hnode

/-- The root is nobody's child. -/
theorem child_ne_root (h : tree.Forest kids) {parent child : NodeId} (hc : child ∈ kids parent) :
    child ≠ root := by
  rintro rfl
  have hparent := (h.parent_iff parent root).mpr hc
  rw [h.root_top] at hparent
  simp at hparent

/-- No node is its own child. -/
theorem notMem_self (h : tree.Forest kids) (id : NodeId) : id ∉ kids id := by
  obtain ⟨height, hheight⟩ := h.height
  intro hmem
  exact Nat.lt_irrefl _ (hheight id id hmem)

/-- The two child links of a node, as its slot holds them. -/
theorem links_of_get? (h : tree.Forest kids) {id : NodeId} {node : Node}
    (hget : tree.get? id = some node) :
    node.firstChild? = (kids id).head? ∧ node.lastChild? = (kids id).getLast? := by
  have hfirst := h.first id
  have hlast := h.last id
  unfold firstChild? at hfirst
  unfold lastChild? at hlast
  rw [hget] at hfirst hlast
  exact ⟨hfirst, hlast⟩

/-- Handles of existing nodes, each listed once, are no more than there are slots. -/
theorem length_le_size {ids : List NodeId} (hnodup : ids.Nodup)
    (hlive : ∀ id ∈ ids, ∃ node, tree.get? id = some node) : ids.length ≤ tree.nodes.size := by
  have hmap : (ids.map NodeId.index).Nodup := hnodup.map fun _ _ h => NodeId.ext_index h
  have hsub : ids.map NodeId.index ⊆ List.range tree.nodes.size := by
    intro i hi
    obtain ⟨id, hid, rfl⟩ := List.mem_map.mp hi
    obtain ⟨node, hnode⟩ := hlive id hid
    exact List.mem_range.mpr (index_lt_of_get? hnode)
  have hle := hmap.length_le_of_subset hsub
  rwa [List.length_map, List.length_range] at hle

end Forest

/-- Following the links from the first of a row goes through the row. -/
theorem follow_siblings {tree : NodeTree} {ids : List NodeId} (h : tree.Siblings ids)
    {fuel : Nat} (hfuel : ids.length < fuel) :
    follow tree.nextSibling? fuel ids.head? = ids := by
  induction ids generalizing fuel with
  | nil =>
    cases fuel <;> rfl
  | cons id rest ih =>
    cases fuel with
    | zero => simp at hfuel
    | succ fuel =>
      rw [List.head?_cons, follow, h.1]
      rw [ih h.2 (by simp only [List.length_cons] at hfuel; omega)]

/-- The walk along siblings meets the children of a node. -/
theorem Forest.children_eq {tree : NodeTree} {kids : NodeId → List NodeId}
    (h : tree.Forest kids) (id : NodeId) : tree.children id = kids id := by
  unfold children
  rw [h.first]
  refine follow_siblings (h.siblings id) ?_
  have hle := Forest.length_le_size (h.nodup id) fun c hc => h.live_child hc
  unfold walkBound
  omega

/-- The links of the tree spell lists of children. -/
def WellFormed (tree : NodeTree) : Prop := tree.Forest tree.children

/-- A tree whose links spell lists of children is well-formed. -/
theorem Forest.wellFormed {tree : NodeTree} {kids : NodeId → List NodeId}
    (h : tree.Forest kids) : tree.WellFormed := by
  have hkids : tree.children = kids := funext h.children_eq
  unfold WellFormed
  rwa [hkids]

/-! ## §3. Descendants -/

/-- `id` is `top` or one of its descendants. -/
def Below (kids : NodeId → List NodeId) (top id : NodeId) : Prop :=
  Relation.ReflTransGen (fun parent child => child ∈ kids parent) top id

/-- A measure that grows from child to parent grows from a node to all above it. -/
theorem Below.height_le {kids : NodeId → List NodeId} {height : NodeId → Nat}
    (hheight : ∀ parent child, child ∈ kids parent → height child < height parent)
    {top id : NodeId} (h : Below kids top id) : height id ≤ height top := by
  induction h with
  | refl => exact Nat.le_refl _
  | tail _ hstep ih =>
    have := hheight _ _ hstep
    omega

/-- A node below another one is that node or has its parent below it. -/
theorem Forest.below_cases {tree : NodeTree} {kids : NodeId → List NodeId}
    (h : tree.Forest kids) {top id parent : NodeId} (hb : Below kids top id)
    (hp : id ∈ kids parent) : id = top ∨ Below kids top parent := by
  rcases Relation.ReflTransGen.cases_tail hb with heq | ⟨mid, hmid, hstep⟩
  · exact Or.inl heq
  · have h1 := (h.parent_iff parent id).mpr hp
    have h2 := (h.parent_iff mid id).mpr hstep
    rw [h1] at h2
    rw [Option.some.inj h2]
    exact Or.inr hmid

/-- The nodes of the tree proper: the root and what hangs from it. -/
inductive Attached (tree : NodeTree) : NodeId → Prop where
  | root : Attached tree NodeTree.root
  | child {parent child : NodeId} : Attached tree parent → tree.parent? child = some parent →
      Attached tree child

/-- What is attached is what is below the root. -/
theorem Forest.attached_iff {tree : NodeTree} {kids : NodeId → List NodeId}
    (h : tree.Forest kids) {id : NodeId} : tree.Attached id ↔ Below kids NodeTree.root id := by
  constructor
  · intro ha
    induction ha with
    | root => exact Relation.ReflTransGen.refl
    | child _ hp ih => exact ih.tail ((h.parent_iff _ _).mp hp)
  · intro hb
    induction hb with
    | refl => exact Attached.root
    | tail _ hstep ih => exact Attached.child ih ((h.parent_iff _ _).mpr hstep)

/-- What is attached is a node. -/
theorem Forest.live_of_attached {tree : NodeTree} {kids : NodeId → List NodeId}
    (h : tree.Forest kids) {id : NodeId} (ha : tree.Attached id) :
    ∃ node, tree.get? id = some node := by
  cases ha with
  | root => exact h.root_live
  | child _ hp => exact h.live_child ((h.parent_iff _ _).mp hp)

/-! ## §4. Putting a node among the children of another -/

/-- The links of a forest are all that it depends on. -/
theorem Forest.congr {tree tree' : NodeTree} {kids : NodeId → List NodeId}
    (h : tree.Forest kids)
    (hlinks : ∀ x, (tree'.get? x).map (fun n => (n.parent?, n.firstChild?, n.lastChild?,
      n.nextSibling?)) = (tree.get? x).map (fun n => (n.parent?, n.firstChild?, n.lastChild?,
      n.nextSibling?))) : tree'.Forest kids := by
  -- whatever is read off the links of a node is the same in both trees
  have hfield : ∀ (x : NodeId) (g : Option NodeId × Option NodeId × Option NodeId ×
      Option NodeId → Option NodeId),
      (tree'.get? x).bind (fun n => g (n.parent?, n.firstChild?, n.lastChild?, n.nextSibling?))
        = (tree.get? x).bind
          (fun n => g (n.parent?, n.firstChild?, n.lastChild?, n.nextSibling?)) := by
    intro x g
    have hx := congrArg (fun o => Option.bind o g) (hlinks x)
    rw [Option.bind_map, Option.bind_map] at hx
    exact hx
  have hparent : ∀ x, tree'.parent? x = tree.parent? x := fun x => hfield x (·.1)
  have hfirst : ∀ x, tree'.firstChild? x = tree.firstChild? x := fun x => hfield x (·.2.1)
  have hlast : ∀ x, tree'.lastChild? x = tree.lastChild? x := fun x => hfield x (·.2.2.1)
  have hnext : ∀ x, tree'.nextSibling? x = tree.nextSibling? x := fun x => hfield x (·.2.2.2)
  refine ⟨fun id => (hfirst id).trans (h.first id), fun id => (hlast id).trans (h.last id),
    fun id => (h.siblings id).congr fun x _ => hnext x, h.nodup, ?_, h.height, ?_, ?_⟩
  · intro parent child
    rw [hparent]
    exact h.parent_iff parent child
  · obtain ⟨node, hnode⟩ := h.root_live
    have hroot := hlinks NodeTree.root
    rw [hnode] at hroot
    obtain ⟨node', hnode', -⟩ := Option.map_eq_some_iff.mp hroot
    exact ⟨node', hnode'⟩
  · rw [hparent]
    exact h.root_top

/-- In a list without repetition, an element that another one follows is not the last. -/
theorem getLast?_ne_of_nodup {before after : List NodeId} {x y : NodeId}
    (h : (before ++ x :: y :: after).Nodup) :
    (before ++ x :: y :: after).getLast? ≠ some x := by
  rw [show before ++ x :: y :: after = (before ++ [x]) ++ (y :: after) by simp] at h ⊢
  intro he
  rw [List.getLast?_append_of_ne_nil _ (List.cons_ne_nil y after)] at he
  exact (List.nodup_append.mp h).2.2 x (by simp) x (List.mem_of_getLast? he) rfl

section Attach

variable {tree tree' : NodeTree} {kids : NodeId → List NodeId} {parent node : NodeId}
  {left right : List NodeId}

/-- The height of a node after `node` was put below one that is not below it: everything that
    is not below `node` is lifted above it. -/
theorem Forest.attach_height (h : tree.Forest kids) (hfree : tree.parent? node = none)
    (hout : ¬ Below kids node parent) :
    ∃ height : NodeId → Nat,
      (∀ p c, c ∈ kids p → height c < height p) ∧ height node < height parent := by
  classical
  obtain ⟨height, hheight⟩ := h.height
  -- what is not below the node is lifted above it
  refine ⟨fun x => if Below kids node x then height x else height x + height node + 1, ?_, ?_⟩
  · intro p c hc
    have hlt := hheight p c hc
    have hp := (h.parent_iff p c).mpr hc
    by_cases hbp : Below kids node p
    · have hbc : Below kids node c := hbp.tail hc
      simp only [if_pos hbp, if_pos hbc]
      exact hlt
    · have hbc : ¬ Below kids node c := by
        intro hb
        rcases h.below_cases hb hc with rfl | hb
        · rw [hfree] at hp
          simp at hp
        · exact hbp hb
      simp only [if_neg hbp, if_neg hbc]
      omega
  · have hself : Below kids node node := Relation.ReflTransGen.refl
    simp only [if_pos hself, if_neg hout]
    omega

/-- A node without a parent is no child. -/
theorem Forest.not_mem_of_loose (h : tree.Forest kids) (hfree : tree.parent? node = none)
    (p : NodeId) : node ∉ kids p := by
  intro hp
  rw [← h.parent_iff, hfree] at hp
  simp at hp

/-- A row put before another one: the link of its last node leads to the new head. -/
theorem Siblings.relinked {ys zs : List NodeId} (h : tree.Siblings (left ++ ys))
    (hnodup : left.Nodup)
    (hnext : ∀ x ∈ left, tree'.nextSibling? x
      = if left.getLast? = some x then zs.head? else tree.nextSibling? x)
    (hzs : tree'.Siblings zs) : tree'.Siblings (left ++ zs) := by
  refine siblings_append.mpr ⟨?_, hzs⟩
  intro before x after hsplit
  rw [hnext x (by simp [hsplit])]
  cases after with
  | nil =>
    rw [if_pos (by simp [hsplit])]
    rfl
  | cons y after =>
    have hne : left.getLast? ≠ some x := by
      rw [hsplit] at hnodup ⊢
      exact getLast?_ne_of_nodup hnodup
    rw [if_neg hne, (siblings_append.mp h).1 before x (y :: after) hsplit]
    rfl

/-- The last of some children of one node is no child of another one. -/
theorem Forest.getLast?_ne_of_child (h : tree.Forest kids) (hsub : left ⊆ kids parent)
    {id x : NodeId} (hne : id ≠ parent) (hx : x ∈ kids id) : left.getLast? ≠ some x := by
  intro he
  have hparent := (h.parent_iff parent x).mpr (hsub (List.mem_of_getLast? he))
  rw [(h.parent_iff id x).mpr hx] at hparent
  exact hne (Option.some.inj hparent)

/-- The children are linked in a row with the new one among them. -/
theorem Forest.siblings_attach (h : tree.Forest kids) (hkids : kids parent = left ++ right)
    (hfree : tree.parent? node = none)
    (hnext : ∀ x, tree'.nextSibling? x = if x = node then right.head?
      else if left.getLast? = some x then some node else tree.nextSibling? x) (id : NodeId) :
    tree'.Siblings (Function.update kids parent (left ++ node :: right) id) := by
  have hloose := h.not_mem_of_loose hfree
  have hnot : node ∉ left ++ right := hkids ▸ hloose parent
  by_cases hid : id = parent
  · rw [hid, Function.update_self]
    have hnodup := h.nodup parent
    have hsib := h.siblings parent
    rw [hkids] at hnodup hsib
    obtain ⟨hleft, -, hapart⟩ := List.nodup_append.mp hnodup
    -- among the new siblings, only the last one before the node changes its link
    refine hsib.relinked hleft (fun x hx => ?_) ⟨?_, ?_⟩
    · rw [hnext, if_neg (fun he => hnot (by rw [← he]; simp [hx]))]
      rfl
    · rw [hnext, if_pos rfl]
    · refine (siblings_append.mp hsib).2.congr fun x hx => ?_
      rw [hnext, if_neg (fun he => hnot (by rw [← he]; simp [hx])), if_neg]
      intro he
      exact hapart x (List.mem_of_getLast? he) x hx rfl
  · -- no other node has a child among those whose links change
    rw [Function.update_of_ne hid]
    refine (h.siblings id).congr fun x hx => ?_
    have hne : x ≠ node := by
      rintro rfl
      exact hloose id hx
    have hsub : left ⊆ kids parent := hkids ▸ List.subset_append_left left right
    have hlast := h.getLast?_ne_of_child hsub hid hx
    rw [hnext, if_neg hne, if_neg hlast]

/-- **A loose node becomes a child.**  It is enough to know the four links of each handle
    afterwards. -/
theorem Forest.attach (h : tree.Forest kids) (hkids : kids parent = left ++ right)
    (hfree : tree.parent? node = none) (hroot : node ≠ NodeTree.root)
    (hout : ¬ Below kids node parent)
    (hparent : ∀ x, tree'.parent? x = if x = node then some parent else tree.parent? x)
    (hnext : ∀ x, tree'.nextSibling? x = if x = node then right.head?
      else if left.getLast? = some x then some node else tree.nextSibling? x)
    (hfirst : ∀ x, tree'.firstChild? x
      = if x = parent then (left ++ node :: right).head? else tree.firstChild? x)
    (hlast : ∀ x, tree'.lastChild? x
      = if x = parent then (left ++ node :: right).getLast? else tree.lastChild? x)
    (hlive : ∃ n, tree'.get? NodeTree.root = some n) :
    tree'.Forest (Function.update kids parent (left ++ node :: right)) := by
  have hloose := h.not_mem_of_loose hfree
  have hnodup := h.nodup parent
  rw [hkids] at hnodup
  have hnot : node ∉ left ++ right := hkids ▸ hloose parent
  constructor
  case siblings => exact h.siblings_attach hkids hfree hnext
  case root_live => exact hlive
  case root_top =>
    rw [hparent, if_neg (fun he => hroot he.symm)]
    exact h.root_top
  -- only the parent has another first or last child
  case first =>
    intro id
    rw [hfirst]
    by_cases hid : id = parent
    · rw [if_pos hid, hid, Function.update_self]
    · rw [if_neg hid, Function.update_of_ne hid]
      exact h.first id
  case last =>
    intro id
    rw [hlast]
    by_cases hid : id = parent
    · rw [if_pos hid, hid, Function.update_self]
    · rw [if_neg hid, Function.update_of_ne hid]
      exact h.last id
  case nodup =>
    intro id
    by_cases hid : id = parent
    · rw [hid, Function.update_self, List.nodup_middle]
      exact List.nodup_cons.mpr ⟨hnot, hnodup⟩
    · rw [Function.update_of_ne hid]
      exact h.nodup id
  -- the new node has the parent and no other, and all others keep theirs
  case parent_iff =>
    intro p c
    rw [hparent]
    by_cases hc : c = node
    · rw [if_pos hc, hc]
      by_cases hp : p = parent
      · rw [hp, Function.update_self]
        simp
      · rw [Function.update_of_ne hp]
        constructor
        · exact fun he => absurd (Option.some.inj he).symm hp
        · exact fun he => absurd he (hloose p)
    · rw [if_neg hc]
      by_cases hp : p = parent
      · rw [hp, Function.update_self, h.parent_iff, hkids]
        simp [hc]
      · rw [Function.update_of_ne hp]
        exact h.parent_iff p c
  -- the node is not above its parent, so some measure puts it below
  case height =>
    obtain ⟨height, hheight, hnode⟩ := h.attach_height hfree hout
    refine ⟨height, fun p c hc => ?_⟩
    by_cases hp : p = parent
    · subst hp
      rw [Function.update_self] at hc
      by_cases hcn : c = node
      · exact hcn ▸ hnode
      · exact hheight p c (by rw [hkids]; simpa [hcn] using hc)
    · rw [Function.update_of_ne hp] at hc
      exact hheight p c hc

/-- `tree'` is `tree` with the loose `node` between the children `left` and `right` of
    `parent`. -/
structure Inserted (tree tree' : NodeTree) (kids : NodeId → List NodeId) (parent : NodeId)
    (left : List NodeId) (node : NodeId) (right : List NodeId) : Prop where
  forest : tree'.Forest (Function.update kids parent (left ++ node :: right))
  parent : ∀ x, tree'.parent? x = if x = node then some parent else tree.parent? x
  kind : ∀ x, tree'.kind? x = tree.kind? x
  tokens : ∀ x, tree'.tokens? x = tree.tokens? x
  size : tree'.nodes.size = tree.nodes.size

/-- What stands before an entry that occurs once. -/
theorem takeWhile_ne {left right : List NodeId} {id : NodeId} (h : id ∉ left) :
    (left ++ id :: right).takeWhile (· != id) = left := by
  rw [List.takeWhile_append_of_pos]
  · simp
  · intro x hx
    have hne : x ≠ id := by
      rintro rfl
      exact h hx
    simp [hne]

/-- The sibling before a child is the child before it. -/
theorem Forest.prevSibling?_eq {id : NodeId} (h : tree.Forest kids)
    (hkids : kids parent = left ++ id :: right) : tree.prevSibling? id = left.getLast? := by
  have hp : tree.parent? id = some parent := (h.parent_iff parent id).mpr (by simp [hkids])
  have hnot : id ∉ left := by
    have hnodup := h.nodup parent
    rw [hkids] at hnodup
    exact fun hx => (List.nodup_append.mp hnodup).2.2 id hx id List.mem_cons_self rfl
  unfold prevSibling?
  rw [hp, Option.bind_some, h.children_eq, hkids, takeWhile_ne hnot]

/-- The sibling behind a child is the child behind it. -/
theorem Forest.nextSibling?_eq {id : NodeId} (h : tree.Forest kids)
    (hkids : kids parent = left ++ id :: right) : tree.nextSibling? id = right.head? := by
  have hsib := h.siblings parent
  rw [hkids, siblings_append] at hsib
  exact hsib.2.1

/-- The node of handle `x` once `node` has been put between the children `left` and `right` of
    `parent`. -/
def seated (parent : NodeId) (left : List NodeId) (node : NodeId) (right : List NodeId)
    (x : NodeId) (n : Node) : Node :=
  { n with
    parent? := if x = node then some parent else n.parent?
    nextSibling? := if x = node then right.head?
      else if left.getLast? = some x then some node else n.nextSibling?
    firstChild? := if x = parent then (left ++ node :: right).head? else n.firstChild?
    lastChild? := if x = parent then (left ++ node :: right).getLast? else n.lastChild? }

/-- The ends of a list that takes in one more entry. -/
theorem head?_insert (left right : List NodeId) (node : NodeId) :
    (left ++ node :: right).head? = if left = [] then some node else (left ++ right).head? := by
  cases left <;> rfl

/-- The last of a row into which an entry was put. -/
theorem getLast?_insert (left right : List NodeId) (node : NodeId) :
    (left ++ node :: right).getLast?
      = if right = [] then some node else (left ++ right).getLast? := by
  cases right with
  | nil => simp
  | cons next rest => simp [List.getLast?_append]

/-- Only the neighbours of the new child, or the parent in place of one that is missing, link to
    it. -/
theorem seated_eq {x : NodeId} {n : Node} (hnot : left.getLast? ≠ some node)
    (hends : x = parent → n.firstChild? = (left ++ right).head?
      ∧ n.lastChild? = (left ++ right).getLast?) :
    seated parent left node right x n = { n with
      parent? := if x = node then some parent else n.parent?
      nextSibling? := if left.getLast? = some x then some node
        else if x = node then right.head? else n.nextSibling?
      firstChild? := if x = parent ∧ left = [] then some node else n.firstChild?
      lastChild? := if x = parent ∧ right = [] then some node else n.lastChild? } := by
  have hnext : (if x = node then right.head?
        else if left.getLast? = some x then some node else n.nextSibling?)
      = if left.getLast? = some x then some node
        else if x = node then right.head? else n.nextSibling? := by
    by_cases hx : x = node
    · rw [hx, if_pos rfl, if_neg hnot, if_pos rfl]
    · rw [if_neg hx, if_neg hx]
  unfold seated
  rw [hnext, head?_insert, getLast?_insert]
  by_cases hx : x = parent
  · rw [← (hends hx).1, ← (hends hx).2]
    simp only [hx, true_and, if_true]
  · simp only [hx, false_and, if_false]

/-- What leads to the place behind `left` is linked anew: the last of them, or the parent where
    there is none. -/
theorem get?_linkLeft (tree : NodeTree) (parent : NodeId) (left : List NodeId)
    (target? : Option NodeId) (x : NodeId) :
    (match left.getLast? with
      | some prev => tree.modify prev fun n => { n with nextSibling? := target? }
      | none => tree.modify parent fun n => { n with firstChild? := target? }).get? x
      = (tree.get? x).map fun n => { n with
          nextSibling? := if left.getLast? = some x then target? else n.nextSibling?
          firstChild? := if x = parent ∧ left = [] then target? else n.firstChild? } := by
  cases hleft : left.getLast? with
  | none =>
    obtain rfl := List.getLast?_eq_none_iff.mp hleft
    dsimp only
    rw [get?_modify]
    by_cases hx : x = parent
    · simp [hx]
    · simp [hx]
  | some prev =>
    have hne : left ≠ [] := by
      rintro rfl
      simp at hleft
    dsimp only
    rw [get?_modify]
    by_cases hx : x = prev
    · simp [hx, hne]
    · simp [hx, Ne.symm hx, hne]

/-- The last child is linked anew where nothing is behind the place. -/
theorem get?_linkRight (tree : NodeTree) (parent : NodeId) (right : List NodeId)
    (target? : Option NodeId) (x : NodeId) :
    (if right.head?.isNone then tree.modify parent fun n => { n with lastChild? := target? }
      else tree).get? x
      = (tree.get? x).map fun n => { n with
          lastChild? := if x = parent ∧ right = [] then target? else n.lastChild? } := by
  cases right with
  | nil =>
    rw [List.head?_nil, Option.isNone_none, if_pos rfl, get?_modify]
    by_cases hx : x = parent
    · simp [hx]
    · simp [hx]
  | cons next rest => simp

/-- The new child is linked to its parent and to the child behind it. -/
theorem get?_linkSelf (tree : NodeTree) (parent node : NodeId) (target? : Option NodeId)
    (x : NodeId) :
    (tree.modify node fun n => { n with parent? := some parent, nextSibling? := target? }).get? x
      = (tree.get? x).map fun n => { n with
          parent? := if x = node then some parent else n.parent?
          nextSibling? := if x = node then target? else n.nextSibling? } := by
  rw [get?_modify]
  by_cases hx : x = node
  · simp [hx]
  · simp [hx]

/-- A field that is set under a condition that the slot is live under, and left alone
    otherwise. -/
theorem bind_map_ite {slot : Option Node} {f : Node → Node} {g : Node → Option NodeId} {c : Prop}
    [Decidable c] {v : Option NodeId} (h : ∀ n, g (f n) = if c then v else g n)
    (hlive : c → ∃ n, slot = some n) :
    (slot.map f).bind g = if c then v else slot.bind g := by
  by_cases hc : c
  · obtain ⟨n, rfl⟩ := hlive hc
    rw [if_pos hc]
    exact (h n).trans (if_pos hc)
  · rw [if_neg hc]
    cases slot with
    | none => rfl
    | some n => exact (h n).trans (if_neg hc)

variable (h : tree.Forest kids) (hlive : ∃ n, tree.get? node = some n)
  (hfree : tree.parent? node = none) (hroot : node ≠ NodeTree.root)
  (hout : ¬ Below kids node parent)

include h hlive hfree hroot hout

/-- A tree is as said once a node has been put in if each of its slots is. -/
theorem Forest.inserted (hkids : kids parent = left ++ right)
    (hp : ∃ n, tree.get? parent = some n)
    (hget : ∀ x, tree'.get? x = (tree.get? x).map (seated parent left node right x))
    (hsize : tree'.nodes.size = tree.nodes.size) :
    Inserted tree tree' kids parent left node right := by
  have hparent : ∀ x, tree'.parent? x = if x = node then some parent else tree.parent? x := by
    intro x
    unfold parent?
    rw [hget]
    exact bind_map_ite (fun _ => rfl) fun hx => hx ▸ hlive
  constructor
  case forest =>
    refine h.attach hkids hfree hroot hout hparent ?_ ?_ ?_ ?_
    -- forward links: those of the node, of the child before it, and of all others
    · intro x
      unfold nextSibling?
      rw [hget]
      by_cases hx : x = node
      · obtain ⟨n, hn⟩ := hlive
        rw [hx, hn, if_pos rfl]
        exact if_pos rfl
      · rw [if_neg hx]
        refine bind_map_ite (fun _ => if_neg hx) fun hl => ?_
        have hmem : x ∈ kids parent := by
          rw [hkids]
          exact List.mem_append_left _ (List.mem_of_getLast? hl)
        exact h.live_child hmem
    · intro x
      unfold firstChild?
      rw [hget]
      exact bind_map_ite (fun _ => rfl) fun hx => hx ▸ hp
    · intro x
      unfold lastChild?
      rw [hget]
      exact bind_map_ite (fun _ => rfl) fun hx => hx ▸ hp
    · obtain ⟨r, hr⟩ := h.root_live
      exact ⟨_, by rw [hget, hr]; rfl⟩
  case parent => exact hparent
  case kind =>
    intro x
    unfold kind?
    rw [hget, Option.map_map]
    rfl
  case tokens =>
    intro x
    unfold tokens?
    rw [hget, Option.bind_map]
    rfl
  case size => exact hsize

/-- The links of the tree around the place of the new child decide what its slots hold. -/
theorem Forest.inserted_of_links (hkids : kids parent = left ++ right)
    (hp : ∃ n, tree.get? parent = some n)
    (hget : ∀ x, tree'.get? x = (tree.get? x).map fun n => { n with
      parent? := if x = node then some parent else n.parent?
      nextSibling? := if left.getLast? = some x then some node
        else if x = node then right.head? else n.nextSibling?
      firstChild? := if x = parent ∧ left = [] then some node else n.firstChild?
      lastChild? := if x = parent ∧ right = [] then some node else n.lastChild? })
    (hsize : tree'.nodes.size = tree.nodes.size) :
    Inserted tree tree' kids parent left node right := by
  have hnot : left.getLast? ≠ some node := by
    intro hlast
    refine h.not_mem_of_loose hfree parent ?_
    rw [hkids]
    exact List.mem_append_left _ (List.mem_of_getLast? hlast)
  refine h.inserted hlive hfree hroot hout hkids hp (fun x => ?_) hsize
  rw [hget]
  refine Option.map_congr fun n hn => (seated_eq hnot ?_).symm
  rintro rfl
  rw [← hkids]
  exact h.links_of_get? hn

/-- Making a loose node the last child. -/
theorem Forest.appendChild (hp : ∃ n, tree.get? parent = some n) :
    Inserted tree (tree.appendChild parent node) kids parent (kids parent) node [] := by
  refine h.inserted_of_links hlive hfree hroot hout (List.append_nil _).symm hp (fun x => ?_) ?_
  · have hright := fun t : NodeTree => get?_linkRight t parent [] (some node) x
    simp only [List.head?_nil, Option.isNone_none, if_true] at hright
    unfold NodeTree.appendChild
    simp only [h.last]
    rw [hright]
    refine (congrArg (Option.map _) (get?_linkLeft _ parent (kids parent) (some node) x)).trans ?_
    rw [get?_linkSelf, Option.map_map, Option.map_map]
    rfl
  · unfold NodeTree.appendChild
    cases tree.lastChild? parent <;> simp

/-- Making a loose node the sibling before another one. -/
theorem Forest.insertBefore {sibling : NodeId} (hkids : kids parent = left ++ sibling :: right) :
    Inserted tree (tree.insertBefore sibling node) kids parent left node (sibling :: right) := by
  have hmem : sibling ∈ kids parent := by simp [hkids]
  have hparent : tree.parent? sibling = some parent := (h.parent_iff _ _).mpr hmem
  refine h.inserted_of_links hlive hfree hroot hout hkids (h.live_parent hmem) (fun x => ?_) ?_
  · unfold NodeTree.insertBefore
    simp only [hparent, h.prevSibling?_eq hkids]
    refine (get?_linkLeft _ parent left (some node) x).trans ?_
    rw [get?_linkSelf, Option.map_map]
    refine Option.map_congr fun n _ => ?_
    simp only [Function.comp_apply, List.head?_cons, reduceCtorEq, and_false, if_false]
  · unfold NodeTree.insertBefore
    simp only [hparent]
    cases tree.prevSibling? sibling <;> simp

/-- Making a loose node the sibling after another one. -/
theorem Forest.insertAfter {sibling : NodeId} (hkids : kids parent = left ++ sibling :: right) :
    Inserted tree (tree.insertAfter sibling node) kids parent (left ++ [sibling]) node right := by
  have hmem : sibling ∈ kids parent := by simp [hkids]
  have hparent : tree.parent? sibling = some parent := (h.parent_iff _ _).mpr hmem
  have hsibling : (left ++ [sibling]).getLast? = some sibling := List.getLast?_concat
  refine h.inserted_of_links hlive hfree hroot hout (by simp [hkids]) (h.live_parent hmem)
    (fun x => ?_) ?_
  · -- the sibling is the last one of those before the new child
    have hleft := fun t : NodeTree => get?_linkLeft t parent (left ++ [sibling]) (some node) x
    rw [hsibling] at hleft
    unfold NodeTree.insertAfter
    simp only [hparent, h.nextSibling?_eq hkids]
    rw [get?_linkRight, hleft, get?_linkSelf, Option.map_map, Option.map_map, hsibling]
    rfl
  · unfold NodeTree.insertAfter
    simp only [hparent]
    split <;> simp

/-- Making a loose node the first child. -/
theorem Forest.prependChild (hp : ∃ n, tree.get? parent = some n) :
    Inserted tree (tree.prependChild parent node) kids parent [] node (kids parent) := by
  unfold NodeTree.prependChild
  rw [h.first]
  cases hk : kids parent with
  | nil =>
    have happend := h.appendChild hlive hfree hroot hout hp
    rw [hk] at happend
    exact happend
  | cons first rest =>
    have hk' : kids parent = [] ++ first :: rest := hk
    exact h.insertBefore hlive hfree hroot hout hk'

end Attach

/-- A node just made has no part in the links. -/
theorem Forest.alloc {tree : NodeTree} {kids : NodeId → List NodeId} (h : tree.Forest kids)
    (kind : NodeKind) (tokens? : Option TokenRange) :
    (tree.alloc kind tokens?).2.Forest kids := by
  have hfresh := tree.get?_nextId
  have hnil := h.kids_eq_nil hfresh
  -- the new node has no links, and its slot had none before
  have hfield : ∀ (x : NodeId) (g : Node → Option NodeId), g { kind, tokens? } = none →
      ((tree.alloc kind tokens?).2.get? x).bind g = (tree.get? x).bind g := by
    intro x g hg
    rw [get?_alloc]
    by_cases hx : x = tree.nextId
    · rw [if_pos hx, hx, hfresh]
      exact hg
    · rw [if_neg hx]
  have hparent : ∀ x, (tree.alloc kind tokens?).2.parent? x = tree.parent? x :=
    fun x => hfield x _ rfl
  refine ⟨fun id => (hfield id _ rfl).trans (h.first id),
    fun id => (hfield id _ rfl).trans (h.last id),
    fun id => (h.siblings id).congr fun x _ => hfield x _ rfl, h.nodup, ?_, h.height, ?_, ?_⟩
  · intro parent child
    rw [hparent]
    exact h.parent_iff parent child
  · obtain ⟨node, hnode⟩ := h.root_live
    exact ⟨node, by rw [get?_alloc, if_neg (ne_nextId h.root_live), hnode]⟩
  · rw [hparent]
    exact h.root_top

/-- A root alone has no children. -/
theorem forest_ofRoot (whole? : Option TokenRange) : (ofRoot whole?).Forest fun _ => [] := by
  have hget : ∀ x, (ofRoot whole?).get? x
      = if x = root then some { kind := .root, tokens? := whole? } else none := by
    intro x
    unfold get? ofRoot
    rcases x with ⟨_ | i⟩
    · rfl
    · have hne : (⟨i + 1⟩ : NodeId) ≠ root := by
        intro he
        exact absurd (congrArg NodeId.index he) (Nat.succ_ne_zero i)
      rw [if_neg hne]
      simp
  -- there is one node and it has no links
  have hlink : ∀ (g : Node → Option NodeId) x,
      g { kind := .root, tokens? := whole? } = none → ((ofRoot whole?).get? x).bind g = none := by
    intro g x hg
    rw [hget]
    split
    · exact hg
    · rfl
  refine ⟨fun x => hlink (·.firstChild?) x rfl, fun x => hlink (·.lastChild?) x rfl,
    fun _ => trivial, fun _ => List.nodup_nil, fun p x => ?_, ⟨fun _ => 0, by simp⟩,
    ⟨_, hget root⟩, hlink (·.parent?) root rfl⟩
  have hnone : (ofRoot whole?).parent? x = none := hlink (·.parent?) x rfl
  rw [hnone]
  simp

end NodeTree

end KernelPrep
