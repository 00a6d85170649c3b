/-
  KernelPrep.Proofs.Node.Walk — walks up and down the tree.

  The walks of the tree are bounded by the number of slots.  A walk upwards never meets a
  node twice, so the bound is never what ends it: it ends at a node without a parent.  A
  walk downwards lists a node before everything below it.

  Main definitions:
    * `NodeTree.Lineage` — a node, its parent, and so on to a node without a parent;
    * `NodeTree.listing` — a node and everything below it, by the lists of children.

  Main statements:
    * `NodeTree.Forest.lineage`      — the walk along parents is a whole lineage;
    * `NodeTree.Forest.visitFrom_eq` — a walk down the tree visits a listing;
    * `NodeTree.Forest.preOrder_eq`  — the walk over the tree is the listing of its root;
    * `NodeTree.Forest.mem_preOrder`, `NodeTree.Forest.nodup_preOrder` — it meets every node of
      the tree once.
-/
import KernelPrep.Proofs.Node.Removal

namespace KernelPrep

namespace NodeTree

variable {tree : NodeTree} {kids : NodeId → List NodeId}

/-! ## §1. Upwards -/

/-- A node, its parent, and so on to a node without a parent. -/
inductive Lineage (tree : NodeTree) : Option NodeId → List NodeId → Prop where
  | top : Lineage tree none []
  | up {id : NodeId} {above : List NodeId} : Lineage tree (tree.parent? id) above →
      Lineage tree (some id) (id :: above)

/-- `seen` are the nodes the walk has passed: all below the one it has come to. -/
theorem Forest.lineage_follow (h : tree.Forest kids) {fuel : Nat} {seen : List NodeId}
    {id? : Option NodeId} (hnodup : seen.Nodup)
    (hseen : ∀ s ∈ seen, ∃ n, tree.get? s = some n)
    (hbelow : ∀ id, id? = some id → ∀ s ∈ seen, Below kids id s ∧ s ≠ id)
    (hlive : ∀ id, id? = some id → ∃ n, tree.get? id = some n)
    (hfuel : tree.nodes.size < fuel + seen.length) :
    Lineage tree id? (follow tree.parent? fuel id?) := by
  induction fuel generalizing id? seen with
  | zero =>
    -- as many nodes were passed as there are, and none of them twice
    have hle := Forest.length_le_size hnodup hseen
    omega
  | succ fuel ih =>
    cases id? with
    | none => exact Lineage.top
    | some id =>
      rw [follow]
      have hnodup' : (id :: seen).Nodup := by
        refine List.nodup_cons.mpr ⟨fun hmem => ?_, hnodup⟩
        exact (hbelow id rfl id hmem).2 rfl
      -- the nodes passed are below the next one, which is why it is none of them
      refine Lineage.up (ih hnodup' ?_ ?_ ?_ ?_)
      · intro s hs
        rcases List.mem_cons.mp hs with rfl | hs
        · exact hlive s rfl
        · exact hseen s hs
      · intro parent hparent s hs
        have hmem := (h.parent_iff parent id).mp hparent
        rcases List.mem_cons.mp hs with rfl | hs
        · refine ⟨Relation.ReflTransGen.single hmem, ?_⟩
          intro he
          exact h.notMem_self parent (he ▸ hmem)
        · have hb := (hbelow id rfl s hs).1
          refine ⟨Relation.ReflTransGen.head hmem hb, ?_⟩
          intro he
          exact h.not_below_parent hmem (he ▸ hb)
      · intro parent hparent
        exact h.live_parent ((h.parent_iff parent id).mp hparent)
      · simp only [List.length_cons]
        omega

/-- **The walk along parents** is a whole lineage. -/
theorem Forest.lineage (h : tree.Forest kids) (id : NodeId) :
    Lineage tree (tree.parent? id) (tree.ancestors id) := by
  unfold ancestors
  refine h.lineage_follow List.nodup_nil (by simp) (by simp) ?_ ?_
  · intro parent hparent
    exact h.live_parent ((h.parent_iff parent id).mp hparent)
  · unfold walkBound
    simp

/-- The members of a lineage are the nodes above its start. -/
theorem Lineage.mem_iff (h : tree.Forest kids) {id? : Option NodeId} {above : List NodeId}
    (hl : Lineage tree id? above) {x : NodeId} :
    x ∈ above ↔ ∃ id, id? = some id ∧ Below kids x id := by
  induction hl with
  | top => simp
  | @up id above hrest ih =>
    rw [List.mem_cons, ih]
    constructor
    · rintro (rfl | ⟨parent, hparent, hb⟩)
      · exact ⟨x, rfl, Relation.ReflTransGen.refl⟩
      · exact ⟨id, rfl, hb.tail ((h.parent_iff parent id).mp hparent)⟩
    · rintro ⟨id', hid', hb⟩
      obtain rfl := Option.some.inj hid'
      rcases Relation.ReflTransGen.cases_tail hb with rfl | ⟨mid, hmid, hstep⟩
      · exact Or.inl rfl
      · exact Or.inr ⟨mid, (h.parent_iff mid id).mpr hstep, hmid⟩

/-- Along a lineage each node is strictly above those before it. -/
theorem Lineage.pairwise (h : tree.Forest kids) {id? : Option NodeId} {above : List NodeId}
    (hl : Lineage tree id? above) :
    above.Pairwise fun x y => Below kids y x ∧ x ≠ y := by
  induction hl with
  | top => exact List.Pairwise.nil
  | @up id above hrest ih =>
    refine List.pairwise_cons.mpr ⟨fun y hy => ?_, ih⟩
    obtain ⟨parent, hparent, hb⟩ := (Lineage.mem_iff h hrest).mp hy
    have hmem := (h.parent_iff parent id).mp hparent
    refine ⟨hb.tail hmem, ?_⟩
    rintro rfl
    exact h.not_below_parent hmem hb

/-- Parents lead upwards in one way only. -/
theorem Lineage.unique {id? : Option NodeId} {above above' : List NodeId}
    (h : Lineage tree id? above) (h' : Lineage tree id? above') : above = above' := by
  induction h generalizing above' with
  | top =>
    cases h'
    rfl
  | up _ ih =>
    cases h' with
    | up h' => rw [ih h']

/-- Above a child are its parent and what is above that. -/
theorem Forest.ancestors_child (h : tree.Forest kids) {parent child : NodeId}
    (hchild : child ∈ kids parent) : tree.ancestors child = parent :: tree.ancestors parent := by
  have hlineage := h.lineage child
  rw [(h.parent_iff parent child).mpr hchild] at hlineage
  exact hlineage.unique (Lineage.up (h.lineage parent))

/-- A walk up to a node below a given sort of parents searches the lineage. -/
theorem Lineage.below?_eq {stop : NodeId → Bool} {id : NodeId} {above : List NodeId}
    (h : Lineage tree (tree.parent? id) above) {fuel : Nat} (hfuel : above.length < fuel) :
    tree.below? stop fuel id = (id :: above).find? fun x => (tree.parent? x).any stop := by
  induction fuel generalizing id above with
  | zero => omega
  | succ fuel ih =>
    unfold below?
    rw [List.find?_cons]
    cases hp : tree.parent? id with
    | none =>
      rw [hp] at h
      cases h
      rfl
    | some parent =>
      rw [hp] at h
      cases h with
      | @up _ rest hrest =>
        rw [List.length_cons] at hfuel
        dsimp only
        rw [Option.any_some, ih hrest (by omega)]
        cases stop parent <;> rfl

/-- A node has fewer ancestors than there are slots. -/
theorem Forest.length_ancestors_lt (h : tree.Forest kids) {id : NodeId}
    (hlive : ∃ node, tree.get? id = some node) : (tree.ancestors id).length < tree.nodes.size := by
  have hl : Lineage tree (some id) (id :: tree.ancestors id) := Lineage.up (h.lineage id)
  have hnodup : (id :: tree.ancestors id).Nodup := (Lineage.pairwise h hl).imp fun hxy => hxy.2
  refine Forest.length_le_size hnodup fun x hx => ?_
  obtain ⟨y, hy, hb⟩ := (Lineage.mem_iff h hl).mp hx
  obtain rfl := Option.some.inj hy
  rcases Relation.ReflTransGen.cases_head hb with rfl | ⟨c, hc, -⟩
  · exact hlive
  · exact h.live_parent hc

/-! ## §2. Downwards -/

/-- A node and what is below it to the given depth, each node before its children. -/
def listing (kids : NodeId → List NodeId) : Nat → NodeId → List NodeId
  | 0, _ => []
  | depth + 1, id => id :: (kids id).flatMap (listing kids depth)

/-- Call a visitor on a node, unless it was removed. -/
def call {σ : Type} (tree : NodeTree) (f : σ → NodeId → Node → Bool × σ) (id : NodeId)
    (state : σ) : Bool × σ :=
  match tree.get? id with
  | none => (true, state)
  | some node => f state id node

/-- The later nodes are visited if the visits before them go on. -/
theorem visitEach_append {σ : Type} (visit : NodeId → σ → Bool × σ) (ids ids' : List NodeId)
    (state : σ) :
    visitEach visit (ids ++ ids') state
      = match visitEach visit ids state with
        | (false, state) => (false, state)
        | (true, state) => visitEach visit ids' state := by
  induction ids generalizing state with
  | nil => rfl
  | cons id rest ih =>
    rw [List.cons_append, visitEach, visitEach]
    split
    · rfl
    · exact ih _

/-- Visiting nodes of which each stands for a list of others visits the lists. -/
theorem visitEach_flatMap {σ : Type} {visit visit' : NodeId → σ → Bool × σ}
    {list : NodeId → List NodeId}
    (h : ∀ id state, visit id state = visitEach visit' (list id) state) (ids : List NodeId)
    (state : σ) : visitEach visit ids state = visitEach visit' (ids.flatMap list) state := by
  induction ids generalizing state with
  | nil => rfl
  | cons id rest ih =>
    rw [List.flatMap_cons, visitEach_append, visitEach, h]
    cases visitEach visit' (list id) state with
    | mk go next =>
      cases go with
      | false => rfl
      | true => exact ih next

/-- **A walk down the tree** visits the nodes of a listing, one after the other. -/
theorem Forest.visitFrom_eq {σ : Type} (h : tree.Forest kids)
    (f : σ → NodeId → Node → Bool × σ) (depth : Nat) (id : NodeId) (state : σ) :
    tree.visitFrom f depth id state
      = visitEach (tree.call f) (listing kids depth id) state := by
  induction depth generalizing id state with
  | zero => rfl
  | succ depth ih =>
    rw [listing, visitEach, visitFrom, call]
    cases hget : tree.get? id with
    | none =>
      rw [h.kids_eq_nil hget]
      rfl
    | some node =>
      dsimp only
      rw [h.children_eq]
      split
      · rfl
      · exact visitEach_flatMap ih _ _

/-- A listing that goes down far enough is whole. -/
theorem Forest.listing_succ (h : tree.Forest kids) {depth : Nat} {id : NodeId}
    (hlive : ∃ node, tree.get? id = some node)
    (hdepth : tree.nodes.size ≤ depth + (tree.ancestors id).length) :
    listing kids (depth + 1) id = listing kids depth id := by
  induction depth generalizing id with
  | zero =>
    have hlt := h.length_ancestors_lt hlive
    omega
  | succ depth ih =>
    rw [listing, listing]
    congr 1
    refine List.flatMap_congr fun child hchild => ih (h.live_child hchild) ?_
    rw [h.ancestors_child hchild, List.length_cons]
    omega

/-- A listing deep enough has exactly the nodes below its root. -/
theorem Forest.mem_listing (h : tree.Forest kids) {depth : Nat} {id x : NodeId}
    (hlive : ∃ node, tree.get? id = some node)
    (hdepth : tree.nodes.size ≤ depth + (tree.ancestors id).length) :
    x ∈ listing kids depth id ↔ Below kids id x := by
  induction depth generalizing id with
  | zero =>
    have hlt := h.length_ancestors_lt hlive
    omega
  | succ depth ih =>
    have hkid : ∀ child ∈ kids id, (x ∈ listing kids depth child ↔ Below kids child x) := by
      intro child hchild
      refine ih (h.live_child hchild) ?_
      rw [h.ancestors_child hchild, List.length_cons]
      omega
    rw [listing, List.mem_cons, List.mem_flatMap]
    constructor
    · rintro (rfl | ⟨child, hchild, hx⟩)
      · exact Relation.ReflTransGen.refl
      · exact Relation.ReflTransGen.head hchild ((hkid child hchild).mp hx)
    · intro hb
      -- a way down is empty, or goes through a child
      rcases Relation.ReflTransGen.cases_head hb with rfl | ⟨child, hchild, hcx⟩
      · exact Or.inl rfl
      · exact Or.inr ⟨child, hchild, (hkid child hchild).mpr hcx⟩

/-- What is listed is below. -/
theorem below_of_mem_listing {depth : Nat} {id x : NodeId} (hx : x ∈ listing kids depth id) :
    Below kids id x := by
  induction depth generalizing id with
  | zero => simp [listing] at hx
  | succ depth ih =>
    rw [listing, List.mem_cons, List.mem_flatMap] at hx
    rcases hx with rfl | ⟨child, hchild, hx⟩
    · exact Relation.ReflTransGen.refl
    · exact Relation.ReflTransGen.head hchild (ih hx)

theorem Forest.live_of_below (h : tree.Forest kids) {top id : NodeId}
    (hlive : ∃ node, tree.get? top = some node) (hb : Below kids top id) :
    ∃ node, tree.get? id = some node := by
  rcases Relation.ReflTransGen.cases_tail hb with rfl | ⟨parent, -, hstep⟩
  · exact hlive
  · exact h.live_child hstep

/-- Collecting nodes that exist meets all of them. -/
theorem visitEach_collect {ids : List NodeId} (h : ∀ id ∈ ids, ∃ node, tree.get? id = some node)
    (seen : List NodeId) :
    visitEach (tree.call fun seen id _ => (true, id :: seen)) ids seen
      = (true, ids.reverse ++ seen) := by
  induction ids generalizing seen with
  | nil => rfl
  | cons id rest ih =>
    obtain ⟨⟨node, hnode⟩, hrest⟩ := List.forall_mem_cons.mp h
    rw [visitEach, call, hnode]
    dsimp only
    rw [ih hrest, List.reverse_cons, List.append_assoc]
    rfl

/-- **The walk over the tree** is the listing of its root. -/
theorem Forest.preOrder_eq (h : tree.Forest kids) :
    tree.preOrder = listing kids tree.walkBound root := by
  unfold preOrder visit
  rw [h.visitFrom_eq, visitEach_collect fun id hid =>
    h.live_of_below h.root_live (below_of_mem_listing hid)]
  simp

/-- No node is listed twice. -/
theorem Forest.nodup_listing (h : tree.Forest kids) (depth : Nat) (id : NodeId) :
    (listing kids depth id).Nodup := by
  induction depth generalizing id with
  | zero => exact List.nodup_nil
  | succ depth ih =>
    rw [listing, List.nodup_cons, List.nodup_flatMap]
    refine ⟨?_, fun child _ => ih child, ?_⟩
    · intro hmem
      obtain ⟨child, hchild, hx⟩ := List.mem_flatMap.mp hmem
      exact h.not_below_parent hchild (below_of_mem_listing hx)
    · refine List.Nodup.pairwise_of_forall_ne (h.nodup id) fun a ha b hb hne => ?_
      intro x hxa hxb
      exact h.siblings_disjoint ha hb hne (below_of_mem_listing hxa) (below_of_mem_listing hxb)

/-- **The walk over the tree** meets every node of the tree, once. -/
theorem Forest.mem_preOrder (h : tree.Forest kids) {x : NodeId} :
    x ∈ tree.preOrder ↔ Below kids root x := by
  rw [h.preOrder_eq]
  refine h.mem_listing h.root_live ?_
  unfold walkBound
  omega

theorem Forest.nodup_preOrder (h : tree.Forest kids) : tree.preOrder.Nodup := by
  rw [h.preOrder_eq]
  exact h.nodup_listing _ _

end NodeTree

end KernelPrep
