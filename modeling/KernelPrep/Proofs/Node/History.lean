/-
  KernelPrep.Proofs.Node.History — every history of calls keeps the tree well formed.

  A history is a sequence of calls on a tree that starts with its root alone.  A caller has
  to observe one thing: a node that is put into the tree exists, is not the root, is not
  linked anywhere yet, and is not above the place where it goes.  Removing nodes and following
  a change of the token list are free: they may be called with any handle and any change.

  The links of the four kinds then always spell lists of children, and each call does to
  these lists what its name says and nothing else.

  Main definitions:
    * `NodeTree.Call`, `NodeTree.perform`, `NodeTree.performAll` — histories;
    * `NodeTree.Attachable`, `NodeTree.AllowedAll` — what a caller has to observe;
    * `NodeTree.Effect` — what a call does to the lists of children.

  Main statements:
    * `NodeTree.WellFormed.perform`    — one call keeps the links and has its effect;
    * `NodeTree.wellFormed_performAll` — so it is along every history.
-/
import KernelPrep.Proofs.Node.Walk

namespace KernelPrep.NodeTree

/-! ## §1. Histories -/

/-- A call of one of the operations that change a tree. -/
inductive Call where
  | alloc (kind : NodeKind) (tokens? : Option TokenRange)
  | setTokens (id : NodeId) (tokens? : Option TokenRange)
  | appendChild (parent child : NodeId)
  | prependChild (parent child : NodeId)
  | insertBefore (sibling node : NodeId)
  | insertAfter (sibling node : NodeId)
  | remove (id : NodeId)
  | remap (splice : Splice)

/-- The tree after a call. -/
def perform (tree : NodeTree) : Call → NodeTree
  | .alloc kind tokens? => (tree.alloc kind tokens?).2
  | .setTokens id tokens? => tree.setTokens id tokens?
  | .appendChild parent child => tree.appendChild parent child
  | .prependChild parent child => tree.prependChild parent child
  | .insertBefore sibling node => tree.insertBefore sibling node
  | .insertAfter sibling node => tree.insertAfter sibling node
  | .remove id => tree.remove id
  | .remap splice => tree.remap splice

/-- The tree after a history. -/
def performAll : NodeTree → List Call → NodeTree
  | tree, [] => tree
  | tree, call :: calls => performAll (tree.perform call) calls

/-- The node exists, is not the root and not linked yet, and is neither the target, which
    exists as well, nor above it. -/
def Attachable (tree : NodeTree) (target node : NodeId) : Prop :=
  (tree.get? target).isSome ∧ (tree.get? node).isSome ∧ tree.parent? node = none
    ∧ node ≠ root ∧ node ≠ target ∧ node ∉ tree.ancestors target

instance (tree : NodeTree) (target node : NodeId) : Decidable (tree.Attachable target node) :=
  inferInstanceAs (Decidable (_ ∧ _))

/-- The call puts no node into the tree, or one that may go there. -/
def Allowed (tree : NodeTree) : Call → Prop
  | .appendChild target node | .prependChild target node | .insertBefore target node
  | .insertAfter target node => tree.Attachable target node
  | .alloc .. | .setTokens .. | .remove _ | .remap _ => True

instance (tree : NodeTree) : (call : Call) → Decidable (tree.Allowed call)
  | .appendChild target node | .prependChild target node | .insertBefore target node
  | .insertAfter target node => inferInstanceAs (Decidable (tree.Attachable target node))
  | .alloc .. | .setTokens .. | .remove _ | .remap _ => inferInstanceAs (Decidable True)

/-- All calls of a history are allowed where they are made. -/
def AllowedAll : NodeTree → List Call → Prop
  | _, [] => True
  | tree, call :: calls => tree.Allowed call ∧ AllowedAll (tree.perform call) calls

instance decidableAllowedAll : (tree : NodeTree) → (calls : List Call) →
    Decidable (tree.AllowedAll calls)
  | _, [] => inferInstanceAs (Decidable True)
  | tree, call :: calls =>
    have := decidableAllowedAll (tree.perform call) calls
    inferInstanceAs (Decidable (_ ∧ _))

/-! ## §2. Effects -/

/-- The nodes are the same, with their kinds and tokens. -/
def SameNodes (tree tree' : NodeTree) : Prop :=
  ∀ x, tree'.kind? x = tree.kind? x ∧ tree'.tokens? x = tree.tokens? x

/-- The children of `parent` are now those listed, and all else is as before. -/
def Relisted (tree tree' : NodeTree) (parent : NodeId) (now : List NodeId) : Prop :=
  tree'.children = Function.update tree.children parent now ∧ tree.SameNodes tree'

/-- What a call does to the lists of children. -/
def Effect (tree : NodeTree) : Call → NodeTree → Prop
  | .alloc kind tokens?, tree' => tree'.children = tree.children
      ∧ tree'.get? tree.nextId = some { kind, tokens? }
      ∧ ∀ x, x ≠ tree.nextId → tree'.get? x = tree.get? x
  | .setTokens id tokens?, tree' => tree'.children = tree.children
      ∧ ∀ x, tree'.kind? x = tree.kind? x
        ∧ tree'.tokens? x = if x = id then (tree.get? x).bind fun _ => tokens? else tree.tokens? x
  | .appendChild parent child, tree' =>
      tree.Relisted tree' parent (tree.children parent ++ [child])
  | .prependChild parent child, tree' =>
      tree.Relisted tree' parent (child :: tree.children parent)
  | .insertBefore sibling node, tree' =>
      (tree.parent? sibling = none → tree' = tree)
      ∧ ∀ parent, tree.parent? sibling = some parent → ∃ left right,
        tree.children parent = left ++ sibling :: right
          ∧ tree.Relisted tree' parent (left ++ node :: sibling :: right)
  | .insertAfter sibling node, tree' =>
      (tree.parent? sibling = none → tree' = tree)
      ∧ ∀ parent, tree.parent? sibling = some parent → ∃ left right,
        tree.children parent = left ++ sibling :: right
          ∧ tree.Relisted tree' parent (left ++ sibling :: node :: right)
  | .remove id, tree' =>
      (id = root → tree' = tree)
      ∧ (id ≠ root → ∀ x,
        (Below tree.children id x → tree'.get? x = none)
        ∧ (¬ Below tree.children id x → tree'.children x = (tree.children x).erase id
          ∧ tree'.kind? x = tree.kind? x ∧ tree'.tokens? x = tree.tokens? x))
  | .remap splice, tree' =>
      (splice.removed = [] → tree' = tree)
      ∧ (splice.removed ≠ [] → ∀ x,
        (¬ tree.Survives tree.children splice x → tree'.get? x = none)
        ∧ (tree.Survives tree.children splice x →
          tree'.children x = restrict tree.children (tree.Survives tree.children splice) x
          ∧ tree'.kind? x = tree.kind? x
          ∧ tree'.tokens? x = (tree.tokens? x).bind splice.moved?))

/-! ## §3. One call -/

section Perform

variable {tree tree' : NodeTree} {target node : NodeId}

/-- A node that is neither the target nor above it does not have the target below it. -/
theorem Attachable.not_below (h : tree.WellFormed) (ha : tree.Attachable target node) :
    ¬ Below tree.children node target := by
  obtain ⟨-, -, -, -, hne, hnot⟩ := ha
  intro hb
  rcases Relation.ReflTransGen.cases_tail hb with he | ⟨mid, hmid, hstep⟩
  · exact hne he.symm
  · refine hnot ((Lineage.mem_iff h (h.lineage target)).mpr ⟨mid, ?_, hmid⟩)
    exact (h.parent_iff mid target).mpr hstep

/-- What is put among the children of a node changes the list of that node only. -/
theorem Inserted.relisted {parent : NodeId} {left right : List NodeId}
    (h : Inserted tree tree' tree.children parent left node right) :
    tree'.WellFormed ∧ tree.Relisted tree' parent (left ++ node :: right) :=
  ⟨h.forest.wellFormed, funext h.forest.children_eq, fun x => ⟨h.kind x, h.tokens x⟩⟩

/-- What is kept of the children of a node above or beside a removed one. -/
theorem WellFormed.restrict_not_below (h : tree.WellFormed) {id x : NodeId}
    (hx : ¬ Below tree.children id x) :
    restrict tree.children (¬ Below tree.children id ·) x = (tree.children x).erase id := by
  rw [(h.nodup x).erase_eq_filter]
  unfold restrict
  refine List.filter_congr fun child hchild => ?_
  have hiff : Below tree.children id child ↔ child = id := by
    refine ⟨fun hb => ?_, fun he => he ▸ Relation.ReflTransGen.refl⟩
    exact (Forest.below_cases h hb hchild).resolve_right hx
  simp only [hiff]
  by_cases he : child = id <;> simp [he]

/-- Setting the tokens of a node keeps the tree well-formed. -/
theorem setTokens_wellFormed (h : tree.WellFormed) (id : NodeId) (tokens? : Option TokenRange) :
    (tree.setTokens id tokens?).WellFormed
      ∧ tree.Effect (.setTokens id tokens?) (tree.setTokens id tokens?) := by
  have hforest : (tree.setTokens id tokens?).Forest tree.children := by
    refine h.congr fun x => ?_
    unfold setTokens
    rw [get?_modify]
    split <;> simp [Function.comp_def]
  refine ⟨hforest.wellFormed, funext hforest.children_eq, fun x => ?_⟩
  unfold setTokens kind? NodeTree.tokens?
  rw [get?_modify]
  split <;> cases tree.get? x <;> simp

/-- **Putting a node beside another** that is loose does nothing, and otherwise changes the list
    they are both in. -/
theorem insert_wellFormed (h : tree.WellFormed) (ha : tree.Attachable target node) :
    (tree.insertBefore target node).WellFormed
      ∧ tree.Effect (.insertBefore target node) (tree.insertBefore target node)
      ∧ (tree.insertAfter target node).WellFormed
      ∧ tree.Effect (.insertAfter target node) (tree.insertAfter target node) := by
  have hout := ha.not_below h
  obtain ⟨-, hlive, hfree, hroot, hne, hnot⟩ := ha
  cases hparent : tree.parent? target with
  -- a node without a parent has no siblings, and nothing is done
  | none =>
    have hbefore : tree.insertBefore target node = tree := by
      unfold NodeTree.insertBefore
      rw [hparent]
    have hafter : tree.insertAfter target node = tree := by
      unfold NodeTree.insertAfter
      rw [hparent]
    rw [hbefore, hafter]
    refine ⟨h, ⟨fun _ => rfl, fun p hp => ?_⟩, h, ⟨fun _ => rfl, fun p hp => ?_⟩⟩
    · rw [hparent] at hp
      simp at hp
    · rw [hparent] at hp
      simp at hp
  | some parent =>
    have hmem := (h.parent_iff parent target).mp hparent
    obtain ⟨left, right, hkids⟩ := List.append_of_mem hmem
    -- the node is not above the parent either, being nowhere above the target
    have houtp : ¬ Below tree.children node parent := fun hb => hout (hb.tail hmem)
    have hlive' := Option.isSome_iff_exists.mp hlive
    obtain ⟨hwf, hlist⟩ := (h.insertBefore hlive' hfree hroot houtp hkids).relisted
    obtain ⟨hwf', hlist'⟩ := (h.insertAfter hlive' hfree hroot houtp hkids).relisted
    refine ⟨hwf, ⟨fun hp => ?_, fun p hp => ?_⟩, hwf', ⟨fun hp => ?_, fun p hp => ?_⟩⟩
    · rw [hparent] at hp
      simp at hp
    · rw [hparent] at hp
      obtain rfl := Option.some.inj hp
      exact ⟨left, right, hkids, hlist⟩
    · rw [hparent] at hp
      simp at hp
    · rw [hparent] at hp
      obtain rfl := Option.some.inj hp
      exact ⟨left, right, hkids, by simpa using hlist'⟩

/-- Removing keeps the tree well-formed, and takes what is below with it. -/
theorem remove_wellFormed (h : tree.WellFormed) (id : NodeId) :
    (tree.remove id).WellFormed ∧ tree.Effect (.remove id) (tree.remove id) := by
  by_cases hroot : id = root
  · have hsame : tree.remove id = tree := by
      unfold NodeTree.remove
      rw [if_pos hroot]
    rw [hsame]
    exact ⟨h, fun _ => rfl, fun hne => absurd hroot hne⟩
  · have hcut := h.remove hroot
    refine ⟨hcut.forest.wellFormed, fun he => absurd he hroot, fun _ x =>
      ⟨fun hx => ?_, fun hx => ?_⟩⟩
    · exact hcut.gone x fun hkeep => hkeep hx
    · exact ⟨(hcut.forest.children_eq x).trans (WellFormed.restrict_not_below h hx), hcut.kind x hx,
        hcut.tokens x hx⟩

/-- Following a change keeps the tree well-formed. -/
theorem remap_wellFormed (h : tree.WellFormed) (splice : Splice) :
    (tree.remap splice).WellFormed ∧ tree.Effect (.remap splice) (tree.remap splice) := by
  by_cases hnone : splice.removed = []
  · have hsame : tree.remap splice = tree := by
      unfold NodeTree.remap
      rw [if_pos (by simp [hnone])]
    rw [hsame]
    exact ⟨h, fun _ => rfl, fun hne => absurd hnone hne⟩
  · have hcut := h.remap hnone
    refine ⟨hcut.forest.wellFormed, fun he => absurd he hnone, fun _ x =>
      ⟨hcut.gone x, fun hx => ?_⟩⟩
    refine ⟨hcut.forest.children_eq x, ?_, ?_⟩
    · rw [hcut.kind x hx, kind?_movedBy]
    · rw [hcut.tokens x hx, tokens?_movedBy]

/-- **One call** that is allowed keeps the links and does to the lists of children what its
    name says. -/
theorem WellFormed.perform (h : tree.WellFormed) {call : Call} (hallowed : tree.Allowed call) :
    (tree.perform call).WellFormed ∧ tree.Effect call (tree.perform call) := by
  cases call with
  | alloc kind tokens? =>
    have hforest := h.alloc kind tokens?
    refine ⟨hforest.wellFormed, funext hforest.children_eq, ?_, fun x hx => ?_⟩
    · exact (get?_alloc ..).trans (if_pos rfl)
    · exact (get?_alloc ..).trans (if_neg hx)
  | setTokens id tokens? => exact setTokens_wellFormed h id tokens?
  -- the new child is loose, live and not above its parent
  | appendChild parent child =>
    obtain ⟨hp, hlive, hfree, hroot, -⟩ := id hallowed
    exact (h.appendChild (Option.isSome_iff_exists.mp hlive) hfree hroot (hallowed.not_below h)
      (Option.isSome_iff_exists.mp hp)).relisted
  | prependChild parent child =>
    obtain ⟨hp, hlive, hfree, hroot, -⟩ := id hallowed
    exact (h.prependChild (Option.isSome_iff_exists.mp hlive) hfree hroot (hallowed.not_below h)
      (Option.isSome_iff_exists.mp hp)).relisted
  | insertBefore sibling node =>
    obtain ⟨hwf, heffect, -⟩ := insert_wellFormed h hallowed
    exact ⟨hwf, heffect⟩
  | insertAfter sibling node =>
    obtain ⟨-, -, hwf, heffect⟩ := insert_wellFormed h hallowed
    exact ⟨hwf, heffect⟩
  | remove id => exact remove_wellFormed h id
  | remap splice => exact remap_wellFormed h splice

end Perform

/-! ## §4. All calls -/

theorem WellFormed.performAll {tree : NodeTree} (h : tree.WellFormed) {calls : List Call}
    (hallowed : tree.AllowedAll calls) : (tree.performAll calls).WellFormed := by
  induction calls generalizing tree with
  | nil => exact h
  | cons call calls ih => exact ih (h.perform hallowed.1).1 hallowed.2

/-- **Along every history** that puts only loose nodes into the tree, and none below itself, the
    links spell lists of children, and every further call does to these lists what its name
    says. -/
theorem wellFormed_performAll {calls : List Call} (h : (ofRoot none).AllowedAll calls) :
    ((ofRoot none).performAll calls).WellFormed
      ∧ ∀ call, ((ofRoot none).performAll calls).Allowed call →
        ((ofRoot none).performAll calls).Effect call
          (((ofRoot none).performAll calls).perform call) :=
  have hwf := (forest_ofRoot none).wellFormed.performAll h
  ⟨hwf, fun _ hallowed => (hwf.perform hallowed).2⟩

/-- Two statements in a block of the file, and a third node that waits outside of it. -/
def twoInBlock : List Call :=
  [.alloc .statementBlock none, .alloc .statement none, .alloc .statement none,
    .alloc .statement none, .appendChild root ⟨1⟩, .prependChild ⟨1⟩ ⟨3⟩, .insertBefore ⟨3⟩ ⟨2⟩]

/-- Between the two statements goes the third, also once an unknown node and the root were
    asked to be removed; removing the block then takes all three with it. -/
theorem wellFormed_performAll_twoInBlock :
    ((ofRoot none).performAll twoInBlock).children ⟨1⟩ = [⟨2⟩, ⟨3⟩]
      ∧ (∃ left right, [⟨2⟩, ⟨3⟩] = left ++ (⟨2⟩ : NodeId) :: right
        ∧ ((ofRoot none).performAll (twoInBlock ++ [.remove ⟨9⟩, .remove root])).Relisted
          ((ofRoot none).performAll
            (twoInBlock ++ [.remove ⟨9⟩, .remove root, .insertAfter ⟨2⟩ ⟨4⟩]))
          ⟨1⟩ (left ++ ⟨2⟩ :: ⟨4⟩ :: right))
      ∧ ((ofRoot none).performAll (twoInBlock ++ [.insertAfter ⟨2⟩ ⟨4⟩, .remove ⟨1⟩])).get? ⟨4⟩
        = none := by
  refine ⟨by decide, ?_, ?_⟩
  · have hinsert := (@wellFormed_performAll (twoInBlock ++ [.remove ⟨9⟩, .remove root])
      (by decide)).2 (.insertAfter ⟨2⟩ ⟨4⟩) (by decide)
    exact hinsert.2 ⟨1⟩ (by decide)
  · have hremove := (@wellFormed_performAll (twoInBlock ++ [.insertAfter ⟨2⟩ ⟨4⟩])
      (by decide)).2 (.remove ⟨1⟩) trivial
    exact (hremove.2 (by decide) ⟨4⟩).1 (Relation.ReflTransGen.single (by decide))

end KernelPrep.NodeTree
