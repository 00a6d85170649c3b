/-
  KernelPrep.Proofs.Node.Removal — removing nodes with everything below them.

  Removing takes a node out of its parent's children and then empties slots from a stack
  of nodes.  The stack holds nodes whose subtrees have nothing in common and are still
  untouched, and each step empties one more slot; so the sweep ends with exactly the
  subtrees of its start emptied.  What is left is the forest restricted to the nodes that
  are not below a removed one.

  Main definitions:
    * `NodeTree.Sweep`      — the invariant of the sweep;
    * `NodeTree.Restricted` — a tree cut down to some of its nodes.

  Main statements:
    * `NodeTree.Forest.get?_unlink` — what is linked anew around a child that is taken out;
    * `NodeTree.Sweep.step`, `NodeTree.Forest.destroyAll` — the sweep empties the subtrees of
      its stack;
    * `NodeTree.Forest.remove`     — one removal;
    * `NodeTree.Forest.removeAll`  — a series of removals;
    * `NodeTree.Forest.remap`      — following a change of the token list.
-/
import KernelPrep.Proofs.Node.Forest

namespace KernelPrep

namespace NodeTree

variable {tree tree' tree₀ : NodeTree} {kids : NodeId → List NodeId} {id : NodeId}
  {rest dead : List NodeId}

/-! ## §1. Subtrees -/

/-- Of two nodes above a third one is above the other. -/
theorem Forest.below_total (h : tree.Forest kids) {a b x : NodeId} (ha : Below kids a x)
    (hb : Below kids b x) : Below kids a b ∨ Below kids b a := by
  induction ha with
  | refl => exact Or.inr hb
  | tail hmid hstep ih =>
    rcases h.below_cases hb hstep with rfl | hb
    · exact Or.inl (hmid.tail hstep)
    · exact ih hb

/-- No parent is below its child. -/
theorem Forest.not_below_parent (h : tree.Forest kids) {parent child : NodeId}
    (hc : child ∈ kids parent) : ¬ Below kids child parent := by
  obtain ⟨height, hheight⟩ := h.height
  intro hb
  have hle := hb.height_le hheight
  have hlt := hheight parent child hc
  omega

/-- The subtrees of two children of one node have nothing in common. -/
theorem Forest.siblings_disjoint (h : tree.Forest kids) {parent a b x : NodeId}
    (ha : a ∈ kids parent) (hb : b ∈ kids parent) (hne : a ≠ b) (hax : Below kids a x) :
    ¬ Below kids b x := by
  intro hbx
  rcases h.below_total hax hbx with hab | hba
  · rcases h.below_cases hab hb with rfl | hap
    · exact hne rfl
    · exact h.not_below_parent ha hap
  · rcases h.below_cases hba ha with rfl | hbp
    · exact hne rfl
    · exact h.not_below_parent hb hbp

/-! ## §2. The sweep -/

/-- One slot emptied. -/
theorem get?_empty (tree : NodeTree) (id x : NodeId) :
    (NodeTree.mk (tree.nodes.modify id.index fun _ => none)).get? x
      = if x = id then none else tree.get? x := by
  unfold get?
  rw [Array.getElem?_modify]
  by_cases hx : x = id
  · subst hx
    rw [if_pos rfl, if_pos rfl]
    cases tree.nodes[x.index]? <;> rfl
  · rw [if_neg hx, if_neg (fun he => hx (NodeId.ext_index he.symm))]

/-- The children of a node are read off its subtree alone. -/
theorem Forest.children_of_same (h : tree₀.Forest kids) {id : NodeId}
    (hsame : ∀ x, Below kids id x → tree.get? x = tree₀.get? x)
    (hsize : tree.nodes.size = tree₀.nodes.size) : tree.children id = kids id := by
  have hfirst : tree.firstChild? id = (kids id).head? := by
    rw [← h.first]
    unfold firstChild?
    rw [hsame id Relation.ReflTransGen.refl]
  have hsiblings : tree.Siblings (kids id) := by
    refine (h.siblings id).congr fun x hx => ?_
    unfold nextSibling?
    rw [hsame x (Relation.ReflTransGen.single hx)]
  unfold children
  rw [hfirst]
  refine follow_siblings hsiblings ?_
  have hle := Forest.length_le_size (h.nodup id) fun c hc => h.live_child hc
  unfold walkBound
  omega

/-- A sweep that began with `tree₀`: the subtrees of the stack have nothing in common and are
    untouched, and the slots emptied so far, `dead`, were live and are in none of them. -/
structure Sweep (tree₀ tree : NodeTree) (kids : NodeId → List NodeId)
    (stack dead : List NodeId) : Prop where
  apart : stack.Pairwise fun a b => ∀ x, Below kids a x → ¬ Below kids b x
  same : ∀ s ∈ stack, ∀ x, Below kids s x → tree.get? x = tree₀.get? x
  live : ∀ s ∈ stack, ∃ n, tree₀.get? s = some n
  size : tree.nodes.size = tree₀.nodes.size
  nodup : dead.Nodup
  swept : ∀ d ∈ dead, ∃ n, tree₀.get? d = some n
  outside : ∀ d ∈ dead, ∀ s ∈ stack, ¬ Below kids s d

/-- What is below a node of the stack after a step was below one before, and is not the node
    emptied. -/
theorem Sweep.below_stack (hs : Sweep tree₀ tree kids (id :: rest) dead)
    (h : tree₀.Forest kids) {s x : NodeId} (hmem : s ∈ kids id ++ rest) (hx : Below kids s x) :
    x ≠ id ∧ ∃ t ∈ id :: rest, Below kids t x := by
  rcases List.mem_append.mp hmem with hc | hin
  · refine ⟨?_, id, List.mem_cons_self, Relation.ReflTransGen.head hc hx⟩
    rintro rfl
    exact h.not_below_parent hc hx
  · refine ⟨?_, s, List.mem_cons_of_mem _ hin, hx⟩
    rintro rfl
    exact (List.pairwise_cons.mp hs.apart).1 s hin x Relation.ReflTransGen.refl hx

/-- **One step of the sweep**: the slot of a node is emptied, and its children take its place on
    the stack. -/
theorem Sweep.step (hs : Sweep tree₀ tree kids (id :: rest) dead) (h : tree₀.Forest kids) :
    Sweep tree₀ ⟨tree.nodes.modify id.index fun _ => none⟩ kids (kids id ++ rest)
      (id :: dead) := by
  obtain ⟨hrest, hapart⟩ := List.pairwise_cons.mp hs.apart
  constructor
  -- the children take the place of their parent: they are apart from each other and from the rest
  case apart =>
    refine List.pairwise_append.mpr ⟨?_, hapart, ?_⟩
    · refine (h.nodup id).imp_of_mem fun ha hb hne x hx => ?_
      exact h.siblings_disjoint ha hb hne hx
    · intro c hc t ht x hx
      exact hrest t ht x (Relation.ReflTransGen.head hc hx)
  case same =>
    intro s hmem x hx
    obtain ⟨hne, t, ht, htx⟩ := hs.below_stack h hmem hx
    rw [get?_empty, if_neg hne]
    exact hs.same t ht x htx
  case live =>
    intro s hmem
    rcases List.mem_append.mp hmem with hc | hin
    · exact h.live_child hc
    · exact hs.live s (List.mem_cons_of_mem _ hin)
  case size => exact Array.size_modify.trans hs.size
  case nodup =>
    refine List.nodup_cons.mpr ⟨fun hmem => ?_, hs.nodup⟩
    exact hs.outside id hmem id List.mem_cons_self Relation.ReflTransGen.refl
  case swept =>
    intro d hd
    rcases List.mem_cons.mp hd with rfl | hd
    · exact hs.live d List.mem_cons_self
    · exact hs.swept d hd
  -- what is swept from now on is below the stack, and so none of what was swept before
  case outside =>
    intro d hd s hmem hb
    obtain ⟨hne, t, ht, htd⟩ := hs.below_stack h hmem hb
    rcases List.mem_cons.mp hd with rfl | hd
    · exact hne rfl
    · exact hs.outside d hd t ht htd

/-- **The sweep empties the subtrees of its stack**, and nothing else.  There is fuel for all the
    slots that are not emptied yet. -/
theorem Forest.destroyAll (h : tree₀.Forest kids) {fuel : Nat} {stack dead : List NodeId}
    (hs : Sweep tree₀ tree kids stack dead) (hfuel : tree₀.nodes.size < fuel + dead.length) :
    (∀ x, (∃ s ∈ stack, Below kids s x) → (tree.destroyAll fuel stack).get? x = none) ∧
      (∀ x, (∀ s ∈ stack, ¬ Below kids s x) →
        (tree.destroyAll fuel stack).get? x = tree.get? x) ∧
      (tree.destroyAll fuel stack).nodes.size = tree.nodes.size := by
  induction fuel generalizing tree stack dead with
  | zero =>
    -- more slots would have been emptied than there are
    have hle := Forest.length_le_size hs.nodup hs.swept
    omega
  | succ fuel ih =>
    cases stack with
    | nil =>
      refine ⟨?_, fun x _ => rfl, rfl⟩
      rintro x ⟨s, hs, -⟩
      simp at hs
    | cons id rest =>
      obtain ⟨hgone, hkept, hsize⟩ := ih (hs.step h) (by simp only [List.length_cons]; omega)
      unfold NodeTree.destroyAll
      rw [h.children_of_same (hs.same id List.mem_cons_self) hs.size]
      refine ⟨?_, ?_, hsize.trans Array.size_modify⟩
      · rintro x ⟨s, hmem, hx⟩
        by_cases hin : ∃ t ∈ kids id ++ rest, Below kids t x
        · exact hgone x hin
        · -- then it is the node emptied in this step
          rw [hkept x fun t ht hb => hin ⟨t, ht, hb⟩, get?_empty, if_pos]
          by_contra hne
          refine hin ?_
          rcases List.mem_cons.mp hmem with rfl | hmem
          · rcases Relation.ReflTransGen.cases_head hx with rfl | ⟨c, hc, hcx⟩
            · exact absurd rfl hne
            · exact ⟨c, List.mem_append_left _ hc, hcx⟩
          · exact ⟨s, List.mem_append_right _ hmem, hx⟩
      · intro x hx
        have hne : x ≠ id := by
          rintro rfl
          exact hx x List.mem_cons_self Relation.ReflTransGen.refl
        rw [hkept, get?_empty, if_neg hne]
        intro s hmem hb
        obtain ⟨-, t, ht, htx⟩ := hs.below_stack h hmem hb
        exact hx t ht htx

/-! ## §3. One removal -/

open Classical in
/-- The lists of children with only the nodes to keep. -/
noncomputable def restrict (kids : NodeId → List NodeId) (keep : NodeId → Prop) (id : NodeId) :
    List NodeId :=
  (kids id).filter fun child => decide (keep child)

/-- The children that are kept. -/
theorem mem_restrict {keep : NodeId → Prop} {parent child : NodeId} :
    child ∈ restrict kids keep parent ↔ child ∈ kids parent ∧ keep child := by
  simp [restrict]

/-- Where all children are kept nothing changes. -/
theorem restrict_eq_self {keep : NodeId → Prop} {id : NodeId} (h : ∀ c ∈ kids id, keep c) :
    restrict kids keep id = kids id := by
  unfold restrict
  rw [List.filter_eq_self]
  intro c hc
  simp [h c hc]

/-- Where no child is kept none is left. -/
theorem restrict_eq_nil {keep : NodeId → Prop} {id : NodeId} (h : ∀ c ∈ kids id, ¬ keep c) :
    restrict kids keep id = [] := by
  unfold restrict
  rw [List.filter_eq_nil_iff]
  intro c hc
  simp [h c hc]

/-- `tree'` is `tree` cut down to the nodes to keep. -/
structure Restricted (tree tree' : NodeTree) (kids : NodeId → List NodeId)
    (keep : NodeId → Prop) : Prop where
  forest : tree'.Forest (restrict kids keep)
  kind : ∀ x, keep x → tree'.kind? x = tree.kind? x
  tokens : ∀ x, keep x → tree'.tokens? x = tree.tokens? x
  gone : ∀ x, ¬ keep x → tree'.get? x = none
  size : tree'.nodes.size = tree.nodes.size

/-- The root is below no other node. -/
theorem Forest.not_below_root (h : tree.Forest kids) {id : NodeId} (hne : id ≠ root) :
    ¬ Below kids id root := by
  intro hb
  rcases Relation.ReflTransGen.cases_tail hb with heq | ⟨mid, -, hstep⟩
  · exact hne heq.symm
  · exact h.child_ne_root hstep rfl

/-- What a removal has to do: leave the links of the kept nodes spelling what is left of the
    lists, and the other slots empty. -/
theorem Forest.restricted (h : tree.Forest kids) {id : NodeId} (hne : id ≠ root)
    (hparent : ∀ x, ¬ Below kids id x → tree'.parent? x = tree.parent? x)
    (hfirst : ∀ x, ¬ Below kids id x →
      tree'.firstChild? x = (restrict kids (¬ Below kids id ·) x).head?)
    (hlast : ∀ x, ¬ Below kids id x →
      tree'.lastChild? x = (restrict kids (¬ Below kids id ·) x).getLast?)
    (hsiblings : ∀ x, ¬ Below kids id x →
      tree'.Siblings (restrict kids (¬ Below kids id ·) x))
    (hkind : ∀ x, ¬ Below kids id x → tree'.kind? x = tree.kind? x)
    (htokens : ∀ x, ¬ Below kids id x → tree'.tokens? x = tree.tokens? x)
    (hgone : ∀ x, Below kids id x → tree'.get? x = none)
    (hsize : tree'.nodes.size = tree.nodes.size) :
    Restricted tree tree' kids (¬ Below kids id ·) := by
  have hroot := h.not_below_root hne
  have hnil : ∀ x, Below kids id x → restrict kids (¬ Below kids id ·) x = [] := by
    intro x hx
    refine restrict_eq_nil fun c hc hkeep => ?_
    exact hkeep (hx.tail hc)
  -- each link either belongs to a node that is gone, or is given by the hypotheses
  refine ⟨?_, hkind, htokens, fun x hx => hgone x (not_not.mp hx), hsize⟩
  constructor
  case first =>
    intro x
    by_cases hx : Below kids id x
    · unfold firstChild?
      rw [hgone x hx, hnil x hx]
      rfl
    · exact hfirst x hx
  case last =>
    intro x
    by_cases hx : Below kids id x
    · unfold lastChild?
      rw [hgone x hx, hnil x hx]
      rfl
    · exact hlast x hx
  case siblings =>
    intro x
    by_cases hx : Below kids id x
    · rw [hnil x hx]
      trivial
    · exact hsiblings x hx
  case nodup => exact fun x => (h.nodup x).filter _
  case parent_iff =>
    intro parent child
    rw [mem_restrict, ← h.parent_iff]
    by_cases hc : Below kids id child
    · unfold parent?
      rw [hgone child hc]
      simp [hc]
    · rw [hparent child hc]
      exact ⟨fun hp => ⟨hp, hc⟩, fun hp => hp.1⟩
  case height =>
    obtain ⟨height, hheight⟩ := h.height
    exact ⟨height, fun p c hc => hheight p c (mem_restrict.mp hc).1⟩
  case root_live =>
    obtain ⟨node, hnode⟩ := h.root_live
    have hk := hkind root hroot
    unfold kind? at hk
    rw [hnode] at hk
    obtain ⟨node', hnode', -⟩ := Option.map_eq_some_iff.mp hk
    exact ⟨node', hnode'⟩
  case root_top =>
    rw [hparent root hroot]
    exact h.root_top

/-- The slot of handle `x` once the child between `left` and `right` was taken out. -/
def unseated (parent : NodeId) (left right : List NodeId) (x : NodeId) (n : Node) : Node :=
  { n with
    nextSibling? := if left.getLast? = some x then right.head? else n.nextSibling?
    firstChild? := if x = parent then (left ++ right).head? else n.firstChild?
    lastChild? := if x = parent then (left ++ right).getLast? else n.lastChild? }

/-- The slots of all other nodes stay as they are. -/
theorem unseated_of_ne {parent x : NodeId} {left right : List NodeId} {n : Node}
    (hleft : left.getLast? ≠ some x) (hparent : x ≠ parent) :
    unseated parent left right x n = n := by
  unfold unseated
  rw [if_neg hleft, if_neg hparent, if_neg hparent]

/-- The ends of a list that loses one entry. -/
theorem head?_remove (left right : List NodeId) (id : NodeId) :
    (left ++ right).head? = if left = [] then right.head? else (left ++ id :: right).head? := by
  cases left <;> rfl

/-- The last of a row from which an entry was taken. -/
theorem getLast?_remove (left right : List NodeId) (id : NodeId) :
    (left ++ right).getLast?
      = if right = [] then left.getLast? else (left ++ id :: right).getLast? := by
  cases right with
  | nil => simp
  | cons next rest => simp [List.getLast?_append]

/-- Only what led to the child, or the parent in place of what is missing, is linked anew. -/
theorem unseated_eq {parent id x : NodeId} {left right : List NodeId} {n : Node}
    (hends : x = parent → n.firstChild? = (left ++ id :: right).head?
      ∧ n.lastChild? = (left ++ id :: right).getLast?) :
    unseated parent left right x n = { n with
      nextSibling? := if left.getLast? = some x then right.head? else n.nextSibling?
      firstChild? := if x = parent ∧ left = [] then right.head? else n.firstChild?
      lastChild? := if x = parent ∧ right = [] then left.getLast? else n.lastChild? } := by
  unfold unseated
  rw [head?_remove left right id, getLast?_remove left right id]
  by_cases hx : x = parent
  · rw [← (hends hx).1, ← (hends hx).2]
    simp only [hx, true_and, if_true]
  · simp only [hx, false_and, if_false]

/-- **A child taken out**: its neighbours and its parent are linked anew. -/
theorem Forest.get?_unlink (h : tree.Forest kids) {parent id : NodeId}
    {left right : List NodeId} (hkids : kids parent = left ++ id :: right) (x : NodeId) :
    (tree.unlink id).get? x = (tree.get? x).map (unseated parent left right x) := by
  have hparent : tree.parent? id = some parent := by
    rw [h.parent_iff, hkids]
    simp
  unfold unlink
  simp only [hparent, h.prevSibling?_eq hkids, h.nextSibling?_eq hkids]
  rw [get?_linkRight]
  refine (congrArg (Option.map _) (get?_linkLeft tree parent left right.head? x)).trans ?_
  rw [Option.map_map]
  refine Option.map_congr fun n hn => ?_
  have hends : x = parent → n.firstChild? = (left ++ id :: right).head?
      ∧ n.lastChild? = (left ++ id :: right).getLast? := by
    rintro rfl
    rw [← hkids]
    exact h.links_of_get? hn
  exact (unseated_eq hends).symm

@[simp] theorem size_unlink (tree : NodeTree) (id : NodeId) :
    (tree.unlink id).nodes.size = tree.nodes.size := by
  unfold unlink
  cases tree.parent? id with
  | none => rfl
  | some parent =>
    cases tree.prevSibling? id <;> cases tree.nextSibling? id <;> simp

/-- Taking a node out of a list of children touches nothing below it. -/
theorem Forest.get?_unlink_of_below (h : tree.Forest kids) {id x : NodeId}
    (hx : Below kids id x) : (tree.unlink id).get? x = tree.get? x := by
  cases hparent : tree.parent? id with
  | none =>
    unfold unlink
    rw [hparent]
  | some parent =>
    have hmem := (h.parent_iff parent id).mp hparent
    obtain ⟨left, right, hkids⟩ := List.append_of_mem hmem
    have hxp : x ≠ parent := by
      rintro rfl
      exact h.not_below_parent hmem hx
    rw [h.get?_unlink hkids]
    cases hget : tree.get? x with
    | none => rfl
    | some n =>
      -- unlinking writes to the parent and the sibling before, neither of which is below the node
      refine congrArg some (unseated_of_ne ?_ hxp)
      intro hlast
      have hleft : x ∈ left := List.mem_of_getLast? hlast
      have hmem' : x ∈ kids parent := by simp [hkids, hleft]
      rcases h.below_cases hx hmem' with rfl | hb
      · have hnodup := h.nodup parent
        rw [hkids] at hnodup
        exact (List.nodup_append.mp hnodup).2.2 x hleft x List.mem_cons_self rfl
      · exact h.not_below_parent hmem hb

/-- The sweep of a removal, from a node that may already be gone. -/
theorem Forest.sweep (h : tree₀.Forest kids) {id : NodeId}
    (hsame : ∀ x, Below kids id x → tree.get? x = tree₀.get? x)
    (hsize : tree.nodes.size = tree₀.nodes.size) :
    (∀ x, Below kids id x → (tree.destroyAll tree.sweepBound [id]).get? x = none) ∧
      (∀ x, ¬ Below kids id x →
        (tree.destroyAll tree.sweepBound [id]).get? x = tree.get? x) ∧
      (tree.destroyAll tree.sweepBound [id]).nodes.size = tree.nodes.size := by
  have hbound : tree₀.nodes.size < tree.sweepBound := by
    unfold sweepBound
    rw [hsize]
    exact Nat.lt_of_lt_of_le (Nat.lt_succ_self _) (Nat.le_mul_of_pos_right _ (Nat.succ_pos _))
  cases hid : tree₀.get? id with
  | some n =>
    have hstart : Sweep tree₀ tree kids [id] [] :=
      ⟨List.pairwise_singleton _ id, by simpa using hsame, by simpa using ⟨n, hid⟩, hsize,
        List.nodup_nil, by simp, by simp⟩
    simpa using h.destroyAll hstart (by simpa using hbound)
  -- a node that does not exist has nothing below it, and one step of the sweep is enough
  | none =>
    have hnil := h.kids_eq_nil hid
    have hchildren : tree.children id = [] := (h.children_of_same hsame hsize).trans hnil
    have honly : ∀ x, Below kids id x → x = id := by
      intro x hx
      rcases Relation.ReflTransGen.cases_head hx with rfl | ⟨c, hc, -⟩
      · rfl
      · rw [hnil] at hc
        simp at hc
    obtain ⟨fuel, hfuel⟩ :=
      Nat.exists_eq_add_one_of_ne_zero (Nat.ne_of_gt (Nat.zero_lt_of_lt hbound))
    have hdone : tree.destroyAll tree.sweepBound [id]
        = ⟨tree.nodes.modify id.index fun _ => none⟩ := by
      rw [hfuel, NodeTree.destroyAll, hchildren]
      cases fuel <;> rfl
    rw [hdone]
    refine ⟨?_, ?_, Array.size_modify⟩
    · intro x hx
      rw [get?_empty, if_pos (honly x hx)]
    · intro x hx
      rw [get?_empty, if_neg]
      rintro rfl
      exact hx Relation.ReflTransGen.refl

/-- Below a node that goes, only its own parent has a child that goes too. -/
theorem Forest.restrict_of_not_parent (h : tree.Forest kids) {id x : NodeId}
    (hx : ¬ Below kids id x) (hp : tree.parent? id ≠ some x) :
    restrict kids (¬ Below kids id ·) x = kids x := by
  refine restrict_eq_self fun c hc hb => ?_
  -- a child below `id` is `id` itself or has its parent below `id`
  rcases h.below_cases hb hc with rfl | hb
  · exact hp ((h.parent_iff x c).mpr hc)
  · exact hx hb

/-- Emptying what is below a node without a parent. -/
theorem Forest.restricted_orphan (h : tree.Forest kids) {id : NodeId} (hne : id ≠ root)
    (hparent : tree.parent? id = none) (hgone : ∀ x, Below kids id x → tree'.get? x = none)
    (hkept : ∀ x, ¬ Below kids id x → tree'.get? x = tree.get? x)
    (hsize : tree'.nodes.size = tree.nodes.size) :
    Restricted tree tree' kids (¬ Below kids id ·) := by
  -- the node is nobody's child, so a kept node loses none of its own
  have hfull : ∀ x, ¬ Below kids id x → restrict kids (¬ Below kids id ·) x = kids x := by
    intro x hx
    exact h.restrict_of_not_parent hx (by simp [hparent])
  refine h.restricted hne ?_ ?_ ?_ ?_ ?_ ?_ hgone hsize
  · intro x hx
    unfold parent?
    rw [hkept x hx]
  · intro x hx
    rw [hfull x hx, ← h.first]
    unfold firstChild?
    rw [hkept x hx]
  · intro x hx
    rw [hfull x hx, ← h.last]
    unfold lastChild?
    rw [hkept x hx]
  · intro x hx
    rw [hfull x hx]
    refine (h.siblings x).congr fun c hc => ?_
    unfold nextSibling?
    rw [hkept]
    rw [← hfull x hx] at hc
    exact (mem_restrict.mp hc).2
  · intro x hx
    unfold kind?
    rw [hkept x hx]
  · intro x hx
    unfold tokens?
    rw [hkept x hx]

section Child

variable {id parent : NodeId} {left right : List NodeId}

/-- The other children of the parent stay. -/
theorem Forest.not_below_sibling (h : tree.Forest kids) (hkids : kids parent = left ++ id :: right)
    {c : NodeId} (hc : c ∈ left ++ right) : ¬ Below kids id c := by
  intro hb
  have hnodup := h.nodup parent
  rw [hkids, List.nodup_middle, List.nodup_cons] at hnodup
  have hc' : c ∈ kids parent := by
    rw [hkids]
    simp only [List.mem_append, List.mem_cons] at hc ⊢
    tauto
  rcases h.below_cases hb hc' with rfl | hb
  · exact hnodup.1 hc
  · exact h.not_below_parent (by simp [hkids]) hb

/-- The children of a parent without one and all below it. -/
theorem Forest.restrict_parent (h : tree.Forest kids) (hkids : kids parent = left ++ id :: right) :
    restrict kids (¬ Below kids id ·) parent = left ++ right := by
  have hid : Below kids id id := Relation.ReflTransGen.refl
  have hl : ∀ c ∈ left, ¬ Below kids id c := fun c hc => h.not_below_sibling hkids (by simp [hc])
  have hr : ∀ c ∈ right, ¬ Below kids id c := fun c hc => h.not_below_sibling hkids (by simp [hc])
  unfold restrict
  rw [hkids, List.filter_append, List.filter_cons_of_neg (by simp [hid]),
    List.filter_eq_self.mpr (by simpa using hl), List.filter_eq_self.mpr (by simpa using hr)]

/-- The children that stay are linked past the one that goes. -/
theorem Forest.siblings_unseated (h : tree.Forest kids)
    (hkids : kids parent = left ++ id :: right)
    (hget : ∀ x, ¬ Below kids id x →
      tree'.get? x = (tree.get? x).map (unseated parent left right x)) {x : NodeId}
    (hx : ¬ Below kids id x) : tree'.Siblings (restrict kids (¬ Below kids id ·) x) := by
  have hnext : ∀ c, ¬ Below kids id c → (∃ n, tree.get? c = some n) →
      tree'.nextSibling? c
        = if left.getLast? = some c then right.head? else tree.nextSibling? c := by
    rintro c hc ⟨n, hn⟩
    unfold nextSibling?
    rw [hget c hc, hn]
    rfl
  have hrest := h.restrict_parent hkids
  by_cases hxp : x = parent
  -- the children of the parent: the one before the gap is linked to the one behind it
  · have hnodup := h.nodup parent
    have hsib := h.siblings parent
    rw [hkids] at hnodup hsib
    rw [List.nodup_middle, List.nodup_cons] at hnodup
    obtain ⟨hleft, -, hapart⟩ := List.nodup_append.mp hnodup.2
    have hlive : ∀ c ∈ left ++ right, ∃ n, tree.get? c = some n := by
      intro c hc
      rw [← hrest] at hc
      exact h.live_child (mem_restrict.mp hc).1
    rw [hxp, hrest]
    refine hsib.relinked hleft (fun c hc => ?_) ((siblings_append.mp hsib).2.2.congr ?_)
    · have hc' : c ∈ left ++ right := List.mem_append_left _ hc
      exact hnext c (h.not_below_sibling hkids hc') (hlive c hc')
    · intro c hc
      have hc' : c ∈ left ++ right := List.mem_append_right _ hc
      rw [hnext c (h.not_below_sibling hkids hc') (hlive c hc'), if_neg]
      intro he
      exact hapart c (List.mem_of_getLast? he) c hc rfl
  · -- the other lists that stay are as they were, and none of their links changes
    have hparent : tree.parent? id = some parent := (h.parent_iff parent id).mpr (by simp [hkids])
    have hfull := h.restrict_of_not_parent hx
      (by rw [hparent]; exact fun he => hxp (Option.some.inj he).symm)
    rw [hfull]
    refine (h.siblings x).congr fun c hc => ?_
    have hkeep : ¬ Below kids id c := by
      rw [← hfull] at hc
      exact (mem_restrict.mp hc).2
    have hsub : left ⊆ kids parent := hkids ▸ List.subset_append_left left (id :: right)
    rw [hnext c hkeep (h.live_child hc), if_neg (h.getLast?_ne_of_child hsub hxp hc)]

/-- Emptying what is below a child that was taken out of the list of its parent. -/
theorem Forest.restricted_child (h : tree.Forest kids) (hne : id ≠ root)
    (hkids : kids parent = left ++ id :: right)
    (hgone : ∀ x, Below kids id x → tree'.get? x = none)
    (hget : ∀ x, ¬ Below kids id x →
      tree'.get? x = (tree.get? x).map (unseated parent left right x))
    (hsize : tree'.nodes.size = tree.nodes.size) :
    Restricted tree tree' kids (¬ Below kids id ·) := by
  have hmem : id ∈ kids parent := by simp [hkids]
  have hparent : tree.parent? id = some parent := (h.parent_iff parent id).mpr hmem
  have hrest := h.restrict_parent hkids
  obtain ⟨n, hn⟩ := h.live_parent hmem
  -- only the parent loses a child
  have hwhole : ∀ x, ¬ Below kids id x → x ≠ parent →
      restrict kids (¬ Below kids id ·) x = kids x := fun x hx hxp =>
    h.restrict_of_not_parent hx (by rw [hparent]; exact fun he => hxp (Option.some.inj he).symm)
  refine h.restricted hne ?_ ?_ ?_ (fun x hx => h.siblings_unseated hkids hget hx) ?_ ?_ hgone
    hsize
  -- link by link, as the node was taken out
  · intro x hx
    unfold parent?
    rw [hget x hx, Option.bind_map]
    rfl
  · intro x hx
    unfold firstChild?
    rw [hget x hx]
    refine (bind_map_ite (fun _ => rfl) fun hxp => hxp ▸ ⟨n, hn⟩).trans ?_
    split
    · rename_i hxp
      rw [hxp, hrest]
    · rename_i hxp
      rw [hwhole x hx hxp]
      exact h.first x
  · intro x hx
    unfold lastChild?
    rw [hget x hx]
    refine (bind_map_ite (fun _ => rfl) fun hxp => hxp ▸ ⟨n, hn⟩).trans ?_
    split
    · rename_i hxp
      rw [hxp, hrest]
    · rename_i hxp
      rw [hwhole x hx hxp]
      exact h.last x
  · intro x hx
    unfold kind?
    rw [hget x hx, Option.map_map]
    rfl
  · intro x hx
    unfold tokens?
    rw [hget x hx, Option.bind_map]
    rfl

end Child

/-- **Removing a node** leaves the forest of the nodes that are not below it. -/
theorem Forest.remove (h : tree.Forest kids) {id : NodeId} (hne : id ≠ root) :
    Restricted tree (tree.remove id) kids (¬ Below kids id ·) := by
  obtain ⟨hgone, hkept, hsize⟩ := h.sweep (fun x hx => h.get?_unlink_of_below hx)
    (tree.size_unlink id)
  unfold NodeTree.remove
  rw [if_neg hne]
  have hsize := hsize.trans (tree.size_unlink id)
  cases hparent : tree.parent? id with
  | none =>
    have hunlink : tree.unlink id = tree := by
      unfold unlink
      rw [hparent]
    rw [hunlink] at hgone hkept hsize ⊢
    exact h.restricted_orphan hne hparent hgone hkept hsize
  | some parent =>
    have hmem := (h.parent_iff parent id).mp hparent
    obtain ⟨left, right, hkids⟩ := List.append_of_mem hmem
    refine h.restricted_child hne hkids hgone (fun x hx => ?_) hsize
    rw [hkept x hx, h.get?_unlink hkids]

/-! ## §4. A series of removals -/

/-- A tree of which every node is kept. -/
theorem Forest.restricted_self (h : tree.Forest kids) :
    Restricted tree tree kids fun _ => True := by
  have hkids : restrict kids (fun _ => True) = kids :=
    funext fun id => restrict_eq_self fun _ _ => trivial
  exact ⟨hkids.symm ▸ h, fun _ _ => rfl, fun _ _ => rfl, fun _ hx => absurd trivial hx, rfl⟩

/-- What is kept may be said in another way. -/
theorem Restricted.congr {keep keep' : NodeId → Prop} (h : Restricted tree tree' kids keep)
    (hiff : ∀ x, keep x ↔ keep' x) : Restricted tree tree' kids keep' := by
  have heq : keep = keep' := funext fun x => propext (hiff x)
  exact heq ▸ h

/-- One removal after another. -/
theorem Restricted.trans {tree₁ tree₂ : NodeTree} {keep₁ keep₂ : NodeId → Prop}
    (h₁ : Restricted tree tree₁ kids keep₁)
    (h₂ : Restricted tree₁ tree₂ (restrict kids keep₁) keep₂) :
    Restricted tree tree₂ kids fun x => keep₁ x ∧ keep₂ x := by
  have hkids : restrict (restrict kids keep₁) keep₂
      = restrict kids fun x => keep₁ x ∧ keep₂ x := by
    funext id
    unfold restrict
    rw [List.filter_filter]
    refine List.filter_congr fun c _ => ?_
    by_cases hk : keep₁ c <;> simp [hk]
  refine ⟨hkids ▸ h₂.forest, ?_, ?_, ?_, h₂.size.trans h₁.size⟩
  · rintro x ⟨hx₁, hx₂⟩
    rw [h₂.kind x hx₂, h₁.kind x hx₁]
  · rintro x ⟨hx₁, hx₂⟩
    rw [h₂.tokens x hx₂, h₁.tokens x hx₁]
  · intro x hx
    by_cases hx₂ : keep₂ x
    -- gone after the first step, so that the second one finds nothing there
    · have hdead := h₁.gone x fun hx₁ => hx ⟨hx₁, hx₂⟩
      have hkind := h₂.kind x hx₂
      unfold kind? at hkind
      rw [hdead] at hkind
      exact Option.map_eq_none_iff.mp hkind
    · exact h₂.gone x hx₂

/-- What is below a node stays below it among the nodes kept, if with a node its parent is
    kept. -/
theorem below_restrict_iff {keep : NodeId → Prop}
    (hup : ∀ p c, c ∈ kids p → keep c → keep p) {top x : NodeId} (hx : keep x) :
    Below (restrict kids keep) top x ↔ Below kids top x := by
  constructor
  · intro hb
    exact Relation.ReflTransGen.mono (fun p c hc => (mem_restrict.mp hc).1) _ _ hb
  · intro hb
    induction hb with
    | refl => exact Relation.ReflTransGen.refl
    | tail _ hstep ih => exact (ih (hup _ _ hstep hx)).tail (mem_restrict.mpr ⟨hstep, hx⟩)

/-- **A series of removals** leaves the nodes that are not below any of those removed.  Asking
    for the root changes nothing, nor does asking for a node that is gone. -/
theorem Forest.removeAll (h : tree.Forest kids) (ids : List Nat) :
    Restricted tree (ids.foldl (fun t i => t.remove ⟨i⟩) tree) kids fun x =>
      ∀ i ∈ ids, (⟨i⟩ : NodeId) ≠ root → ¬ Below kids ⟨i⟩ x := by
  induction ids generalizing tree kids with
  | nil => exact h.restricted_self.congr (by simp)
  | cons i rest ih =>
    rw [List.foldl_cons]
    by_cases hroot : (⟨i⟩ : NodeId) = root
    · have hsame : tree.remove ⟨i⟩ = tree := by
        unfold NodeTree.remove
        rw [if_pos hroot]
      rw [hsame]
      refine (ih h).congr fun x => ?_
      simp [hroot]
    · have hone := h.remove hroot
      refine (hone.trans (ih hone.forest)).congr fun x => ?_
      -- what lies above a kept node is kept, so that a later removal meets the same descendants
      have hup : ∀ p c, c ∈ kids p → ¬ Below kids ⟨i⟩ c → ¬ Below kids ⟨i⟩ p :=
        fun p c hc hkeep hb => hkeep (hb.tail hc)
      constructor
      · rintro ⟨hi, hrest⟩ j hj hne
        rcases List.mem_cons.mp hj with rfl | hj
        · exact hi
        · rw [← below_restrict_iff hup hi]
          exact hrest j hj hne
      · intro hall
        have hi : ¬ Below kids ⟨i⟩ x := hall i List.mem_cons_self hroot
        refine ⟨hi, fun j hj hne => ?_⟩
        rw [below_restrict_iff hup hi]
        exact hall j (List.mem_cons_of_mem _ hj) hne

/-! ## §5. Following a change of the token list -/

/-- The change takes away all tokens of the node. -/
def Emptied (tree : NodeTree) (splice : Splice) (id : NodeId) : Prop :=
  ∃ range, tree.tokens? id = some range ∧ splice.moved? range = none

/-- The nodes that are not below one that lost its tokens. -/
def Survives (tree : NodeTree) (kids : NodeId → List NodeId) (splice : Splice) (x : NodeId) :
    Prop :=
  ∀ e, tree.Emptied splice e → e ≠ root → ¬ Below kids e x

/-- The tree with all ranges moved, before the emptied nodes are removed. -/
def movedBy (tree : NodeTree) (splice : Splice) : NodeTree :=
  ⟨tree.nodes.map fun slot =>
    slot.map fun node => { node with tokens? := node.tokens?.bind splice.moved? }⟩

/-- Moving the ranges changes nothing else. -/
theorem get?_movedBy (tree : NodeTree) (splice : Splice) (x : NodeId) :
    (tree.movedBy splice).get? x
      = (tree.get? x).map fun node =>
        { node with tokens? := node.tokens?.bind splice.moved? } := by
  unfold movedBy get?
  rw [Array.getElem?_map]
  cases tree.nodes[x.index]? <;> rfl

/-- Moving the ranges leaves the kinds as they are. -/
theorem kind?_movedBy (tree : NodeTree) (splice : Splice) (x : NodeId) :
    (tree.movedBy splice).kind? x = tree.kind? x := by
  unfold kind?
  rw [get?_movedBy, Option.map_map]
  rfl

/-- Every range is moved. -/
theorem tokens?_movedBy (tree : NodeTree) (splice : Splice) (x : NodeId) :
    (tree.movedBy splice).tokens? x = (tree.tokens? x).bind splice.moved? := by
  unfold tokens?
  rw [get?_movedBy]
  cases tree.get? x <;> rfl

/-- Moving the ranges leaves the tree as it is. -/
theorem Forest.movedBy (h : tree.Forest kids) (splice : Splice) :
    (tree.movedBy splice).Forest kids := by
  refine h.congr fun x => ?_
  rw [get?_movedBy, Option.map_map]
  rfl

/-- Whether a node has lost all its tokens. -/
theorem isEmptiedBy_iff (tree : NodeTree) (splice : Splice) (id : NodeId) :
    ((tree.get? id).map (isEmptiedBy splice)).getD false = true ↔ tree.Emptied splice id := by
  unfold Emptied isEmptiedBy tokens?
  cases tree.get? id with
  | none => simp
  | some node =>
    cases htokens : node.tokens? with
    | none => simp [htokens]
    | some range => simp [htokens, Option.isNone_iff_eq_none]

/-- **Following a change**: all ranges move, and what is below an emptied node is removed. -/
theorem Forest.remap (h : tree.Forest kids) {splice : Splice} (hne : splice.removed ≠ []) :
    Restricted (tree.movedBy splice) (tree.remap splice) kids (tree.Survives kids splice) := by
  have hfalse : ¬ splice.removed.isEmpty = true := by simpa using hne
  unfold NodeTree.remap
  rw [if_neg hfalse]
  refine ((h.movedBy splice).removeAll _).congr fun x => ?_
  -- the sweep removes the emptied nodes, by their slots
  have hmem : ∀ i, i ∈ (List.range tree.nodes.size).filter (fun i =>
      ((tree.get? ⟨i⟩).map (isEmptiedBy splice)).getD false) ↔ tree.Emptied splice ⟨i⟩ := by
    intro i
    rw [List.mem_filter, isEmptiedBy_iff, List.mem_range]
    refine ⟨fun hi => hi.2, fun hi => ⟨?_, hi⟩⟩
    obtain ⟨range, hrange, -⟩ := hi
    unfold tokens? at hrange
    obtain ⟨node, hnode, -⟩ := Option.bind_eq_some_iff.mp hrange
    exact index_lt_of_get? hnode
  constructor
  · intro hall e he hroot
    exact hall e.index ((hmem e.index).mpr he) hroot
  · intro hall i hi hroot
    exact hall ⟨i⟩ ((hmem i).mp hi) hroot

end NodeTree

end KernelPrep
