/-
  KernelPrep.Proofs.Node.Visiting — walks over the tree, and its listing.

  A visitor is called on one node after the other, a node before its children, until it answers
  to stop.  The order is that of the tree alone: `PreOrder` states it by recursion on the tree,
  without a bound.  A walk makes its calls along this order and breaks off behind the call that
  stops it.  The same comes of a loop that keeps a stack of the nodes still to be visited.  And
  the listing of the tree shows the nodes in this order, each on a line of its own.

  Main definitions:
    * `NodeTree.PreOrder`  — nodes, each before what is below it, child by child;
    * `NodeTree.Stacks`    — the walk with a stack, without any bound on its turns;
    * `NodeTree.Visit`, `NodeTree.recording` — a visitor that keeps a record of its calls;
    * `Outline.entry`      — the line of one node in the listing;
    * `NodeTree.Traversal` — what walks over the tree, and its listing, do.

  Main statements:
    * `NodeTree.PreOrder.stacked`     — the walk with a stack visits nodes in that order;
    * `NodeTree.recorded`             — which calls are made;
    * `NodeTree.Forest.dumpFrom_eq`   — the listing is one line after the other;
    * `NodeTree.WellFormed.traversal` — all of it, in every well-formed tree.
-/
import KernelPrep.Outline.Dump
import KernelPrep.Proofs.Node.History

namespace KernelPrep

/-- The line for a node in the listing of a tree, indented by its depth; empty for a node that
    does not exist. -/
def Outline.entry (list : TokenList) (tree : NodeTree) (id : NodeId) : String :=
  match tree.get? id with
  | none => ""
  | some node =>
    String.ofList (List.replicate (2 * (tree.ancestors id).length) ' ')
      ++ Outline.dumpLine list id node ++ "\n"

namespace NodeTree

variable {tree : NodeTree} {kids : NodeId → List NodeId} {ids order : List NodeId} {σ : Type}
  {f : σ → NodeId → Node → Bool × σ}

/-! ## §1. The order -/

/-- `order` lists the nodes `ids` and those below them: a node comes first, then what is below
    it, child by child, and then the other nodes. -/
inductive PreOrder (tree : NodeTree) : List NodeId → List NodeId → Prop
  | nil : PreOrder tree [] []
  | node {id : NodeId} {rest below after : List NodeId}
      (hbelow : PreOrder tree (tree.children id) below) (hafter : PreOrder tree rest after) :
      PreOrder tree (id :: rest) (id :: below ++ after)

theorem PreOrder.append {ids' order' : List NodeId} (h : tree.PreOrder ids order)
    (h' : tree.PreOrder ids' order') : tree.PreOrder (ids ++ ids') (order ++ order') := by
  induction h with
  | nil => exact h'
  | node hbelow _ _ ih =>
    rw [List.cons_append, List.append_assoc]
    exact .node hbelow ih

/-- There is one order. -/
theorem PreOrder.unique {order' : List NodeId} (h : tree.PreOrder ids order)
    (h' : tree.PreOrder ids order') : order = order' := by
  induction h generalizing order' with
  | nil =>
    cases h'
    rfl
  | node _ _ ihbelow ihafter =>
    cases h' with
    | node hbelow hafter => rw [ihbelow hbelow, ihafter hafter]

/-- The listing of a node that goes down far enough is in order. -/
theorem Forest.preOrder_listing (h : tree.Forest kids) {depth : Nat} {id : NodeId}
    (hlive : ∃ node, tree.get? id = some node)
    (hdepth : tree.nodes.size ≤ depth + (tree.ancestors id).length) :
    tree.PreOrder [id] (listing kids depth id) := by
  induction depth generalizing id with
  | zero =>
    have hlt := h.length_ancestors_lt hlive
    omega
  | succ depth ih =>
    -- a child has one more ancestor, which makes up for the depth spent
    have hbelow : ∀ ids ⊆ kids id, tree.PreOrder ids (ids.flatMap (listing kids depth)) := by
      intro ids hsub
      induction ids with
      | nil => exact .nil
      | cons child rest ihrest =>
        obtain ⟨hchild, hrest⟩ := List.cons_subset.mp hsub
        refine (ih (h.live_child hchild) ?_).append (ihrest hrest)
        rw [h.ancestors_child hchild, List.length_cons]
        omega
    have hkids : tree.PreOrder (tree.children id) ((kids id).flatMap (listing kids depth)) := by
      rw [h.children_eq]
      exact hbelow _ (List.Subset.refl _)
    rw [listing, ← List.append_nil (List.flatMap _ _)]
    exact .node hkids .nil

/-! ## §2. The walk with a stack -/

/-- The walk as a loop over the nodes still to be visited, with no bound on its turns: the
    foremost is taken away and its children are put in its place.  With the given nodes left, the
    loop goes from a state to a result. -/
inductive Stacks (tree : NodeTree) (f : σ → NodeId → Node → Bool × σ) :
    List NodeId → σ → Bool × σ → Prop
  | done {state : σ} : Stacks tree f [] state (true, state)
  | removed {id : NodeId} {rest : List NodeId} {state : σ} {result : Bool × σ}
      (h : tree.get? id = none) (hrest : Stacks tree f rest state result) :
      Stacks tree f (id :: rest) state result
  | stop {id : NodeId} {rest : List NodeId} {state next : σ} {node : Node}
      (h : tree.get? id = some node) (hstop : f state id node = (false, next)) :
      Stacks tree f (id :: rest) state (false, next)
  | go {id : NodeId} {rest : List NodeId} {state next : σ} {node : Node} {result : Bool × σ}
      (h : tree.get? id = some node) (hgo : f state id node = (true, next))
      (hrest : Stacks tree f (tree.children id ++ rest) next result) :
      Stacks tree f (id :: rest) state result

/-- The loop has one result. -/
theorem Stacks.unique {state : σ} {result result' : Bool × σ} (h : tree.Stacks f ids state result)
    (h' : tree.Stacks f ids state result') : result = result' := by
  -- at each node its slot and the visitor's answer decide the rule
  induction h with
  | done =>
    cases h'
    rfl
  | removed hnone _ ih =>
    cases h' with
    | removed _ hrest => exact ih hrest
    | stop hsome => simp [hnone] at hsome
    | go hsome => simp [hnone] at hsome
  | stop hsome hstop =>
    cases h' with
    | removed hnone => simp [hsome] at hnone
    | stop hsome' hstop' => simp_all
    | go hsome' hgo => simp_all
  | go hsome hgo _ ih =>
    cases h' with
    | removed hnone => simp [hsome] at hnone
    | stop hsome' hstop => simp_all
    | go hsome' hgo' hrest =>
      obtain rfl := Option.some.inj (hsome.symm.trans hsome')
      obtain rfl := congrArg Prod.snd (hgo.symm.trans hgo')
      exact ih hrest

theorem children_removed {id : NodeId} (h : tree.get? id = none) : tree.children id = [] := by
  unfold children firstChild?
  rw [h]
  rfl

/-- **The walk with a stack** visits nodes in order: it comes through those of `order` to the
    rest of the stack, unless a call stops it. -/
theorem PreOrder.stacked (h : tree.PreOrder ids order) {rest : List NodeId} {state : σ}
    {result : Bool × σ}
    (hrest : match visitEach (tree.call f) order state with
      | (false, next) => result = (false, next)
      | (true, next) => tree.Stacks f rest next result) :
    tree.Stacks f (ids ++ rest) state result := by
  induction h generalizing rest state with
  | nil => exact hrest
  | @node id others below after hbelow _ ihbelow ihafter =>
    rw [List.cons_append, visitEach, call] at hrest
    rw [List.cons_append]
    cases hget : tree.get? id with
    | none =>
      rw [hget] at hrest
      dsimp only at hrest
      -- what was removed has no children that could have been passed over
      rw [children_removed hget] at hbelow
      cases hbelow
      exact .removed hget (ihafter hrest)
    | some node =>
      rw [hget] at hrest
      dsimp only at hrest
      cases hcall : f state id node with
      | mk go next =>
        rw [hcall] at hrest
        cases go with
        | false =>
          obtain rfl : result = (false, next) := hrest
          exact .stop hget hcall
        | true =>
          dsimp only at hrest
          -- the children are in front of the stack, so what is below them comes first
          refine .go hget hcall (ihbelow ?_)
          rw [visitEach_append] at hrest
          cases hvisit : visitEach (tree.call f) below next with
          | mk go last =>
            rw [hvisit] at hrest
            cases go with
            | false => exact hrest
            | true => exact ihafter hrest

/-! ## §3. The calls that are made -/

/-- One call of a visitor: the node, as it was shown, and the answer whether to go on. -/
structure Visit where
  id : NodeId
  node : Node
  go : Bool
deriving DecidableEq, Repr

/-- The visitor that does what `f` does and keeps a record of the calls. -/
def recording (f : σ → NodeId → Node → Bool × σ) (state : σ × List Visit) (id : NodeId)
    (node : Node) : Bool × (σ × List Visit) :=
  let (go, next) := f state.1 id node
  (go, next, state.2 ++ [⟨id, node, go⟩])

/-- The calls are made along `order`, each shows the node that is there, and each but the last
    answers to go on.  If the last one answers so, too, no node is left out. -/
structure Along (tree : NodeTree) (order : List NodeId) (went : Bool) (calls : List Visit) :
    Prop where
  shown : ∀ call ∈ calls, tree.get? call.id = some call.node
  answers : match went with
    | true => calls.map (·.id) = order ∧ ∀ call ∈ calls, call.go = true
    | false => ∃ passed last, calls = passed ++ [last] ∧ calls.map (·.id) <+: order
      ∧ last.go = false ∧ ∀ call ∈ passed, call.go = true

/-- **Which calls are made** when nodes that exist are visited: the record changes nothing else,
    and the calls run along the nodes. -/
theorem recorded (horder : ∀ id ∈ order, ∃ node, tree.get? id = some node) (state : σ)
    (before : List Visit) :
    ∃ went final calls, visitEach (tree.call f) order state = (went, final)
      ∧ visitEach (tree.call (recording f)) order (state, before)
        = (went, final, before ++ calls)
      ∧ tree.Along order went calls := by
  induction order generalizing state before with
  | nil => exact ⟨true, state, [], rfl, by rw [List.append_nil]; rfl, by simp, rfl, by simp⟩
  | cons id rest ih =>
    obtain ⟨⟨node, hnode⟩, hrest⟩ := List.forall_mem_cons.mp horder
    rw [visitEach, visitEach, call, call, hnode]
    dsimp only [recording]
    cases hcall : f state id node with
    | mk go next =>
      -- the function says after each call whether the visit goes on
      cases go with
      | false =>
        refine ⟨false, next, [⟨id, node, false⟩], rfl, rfl, by simpa using hnode, ?_⟩
        exact ⟨[], _, rfl, ⟨rest, rfl⟩, rfl, by simp⟩
      | true =>
        obtain ⟨went, final, calls, hvisit, hrecord, hshown, hanswers⟩ :=
          ih hrest next (before ++ [⟨id, node, true⟩])
        refine ⟨went, final, ⟨id, node, true⟩ :: calls, hvisit, ?_, ?_, ?_⟩
        · dsimp only
          rw [hrecord, List.append_assoc]
          rfl
        · exact List.forall_mem_cons.mpr ⟨hnode, hshown⟩
        · cases went with
          | true =>
            obtain ⟨hids, hgo⟩ := hanswers
            exact ⟨by rw [List.map_cons, hids], List.forall_mem_cons.mpr ⟨rfl, hgo⟩⟩
          | false =>
            obtain ⟨passed, last, rfl, hids, hlast, hgo⟩ := hanswers
            refine ⟨⟨id, node, true⟩ :: passed, last, rfl, ?_, hlast,
              List.forall_mem_cons.mpr ⟨rfl, hgo⟩⟩
            exact List.cons_prefix_cons.mpr ⟨rfl, hids⟩

/-! ## §4. The listing -/

/-- **The listing of a tree** is one line after the other, for the nodes in order. -/
theorem Forest.dumpFrom_eq (h : tree.Forest kids) (list : TokenList) (fuel : Nat) {id : NodeId}
    (hlive : ∃ node, tree.get? id = some node) :
    Outline.dumpFrom list tree fuel (tree.ancestors id).length id
      = String.join ((listing kids fuel id).map (Outline.entry list tree)) := by
  induction fuel generalizing id with
  | zero => rfl
  | succ fuel ih =>
    obtain ⟨node, hnode⟩ := hlive
    -- children are indented by their number of ancestors, one more than here
    have hbelow : ∀ ids ⊆ kids id,
        String.join (ids.map (Outline.dumpFrom list tree fuel ((tree.ancestors id).length + 1)))
          = String.join ((ids.flatMap (listing kids fuel)).map (Outline.entry list tree)) := by
      intro ids hsub
      induction ids with
      | nil => rfl
      | cons child rest ihrest =>
        obtain ⟨hchild, hrest⟩ := List.cons_subset.mp hsub
        have hline := ih (h.live_child hchild)
        rw [h.ancestors_child hchild, List.length_cons] at hline
        rw [List.map_cons, String.join_cons, hline, ihrest hrest, List.flatMap_cons,
          List.map_append, String.join_append]
    rw [Outline.dumpFrom, listing, List.map_cons, String.join_cons, Outline.entry, hnode]
    dsimp only
    rw [h.children_eq, hbelow _ (List.Subset.refl _)]

/-- The listing starts at the root, without an indent. -/
theorem Forest.dump_eq (h : tree.Forest kids) (list : TokenList) :
    Outline.dump list tree = String.join (tree.preOrder.map (Outline.entry list tree)) := by
  have hroot : tree.ancestors root = [] := by
    unfold ancestors
    rw [h.root_top]
    rfl
  have hdump := h.dumpFrom_eq list tree.walkBound h.root_live
  rw [hroot] at hdump
  rw [h.preOrder_eq]
  exact hdump

/-! ## §5. All of it -/

theorem Forest.preOrder_order (h : tree.Forest kids) : tree.PreOrder [root] tree.preOrder := by
  rw [h.preOrder_eq]
  refine h.preOrder_listing h.root_live ?_
  unfold walkBound
  omega

/-- A walk visits what is in order, one node after the other. -/
theorem Forest.visit_eq (h : tree.Forest kids) (f : σ → NodeId → Node → Bool × σ) (init : σ) :
    tree.visit f init = visitEach (tree.call f) tree.preOrder init := by
  rw [h.preOrder_eq]
  exact h.visitFrom_eq f _ _ _

/-- The loop with a stack comes to what the walk comes to. -/
theorem Forest.stacks_iff (h : tree.Forest kids) (f : σ → NodeId → Node → Bool × σ) (init : σ)
    (result : Bool × σ) : tree.Stacks f [root] init result ↔ result = tree.visit f init := by
  have hstacks : tree.Stacks f ([root] ++ []) init (tree.visit f init) := by
    refine h.preOrder_order.stacked ?_
    rw [h.visit_eq]
    split
    · rename_i hend
      exact hend
    · rename_i next hend
      rw [hend]
      exact .done
  exact ⟨fun hresult => hresult.unique hstacks, fun he => he ▸ hstacks⟩

/-- What walks over a tree do, and what its listing shows: `order` has every node that the root
    leads to once, each before what is below it; a walk calls its visitor along it, and tells
    whether all answers were to go on; so does the loop with a stack; and the listing has a line
    for each node. -/
structure Traversal (tree : NodeTree) (order : List NodeId) : Prop where
  preOrder : tree.PreOrder [root] order
  mem_iff : ∀ id, id ∈ order ↔ Below tree.children root id
  nodup : order.Nodup
  calls : ∀ {σ : Type} (f : σ → NodeId → Node → Bool × σ) (init : σ),
    ∃ went final calls, tree.visit f init = (went, final)
      ∧ tree.visit (recording f) (init, []) = (went, final, calls)
      ∧ tree.Along order went calls
  stacked : ∀ {σ : Type} (f : σ → NodeId → Node → Bool × σ) (init : σ) (result : Bool × σ),
    tree.Stacks f [root] init result ↔ result = tree.visit f init
  listed : ∀ list, Outline.dump list tree = String.join (order.map (Outline.entry list tree))

/-- **In a well-formed tree** every walk, with or without a stack, and the listing go through the
    nodes in one order. -/
theorem WellFormed.traversal (h : tree.WellFormed) : tree.Traversal tree.preOrder := by
  have hforest : tree.Forest tree.children := h
  have hlive : ∀ id ∈ tree.preOrder, ∃ node, tree.get? id = some node := fun id hid =>
    hforest.live_of_below hforest.root_live (hforest.mem_preOrder.mp hid)
  refine ⟨hforest.preOrder_order, fun id => hforest.mem_preOrder, hforest.nodup_preOrder, ?_,
    fun f init result => hforest.stacks_iff f init result, hforest.dump_eq⟩
  intro σ f init
  obtain ⟨went, final, calls, hplain, hrecord, halong⟩ := recorded (f := f) hlive init []
  rw [hforest.visit_eq, hforest.visit_eq]
  exact ⟨went, final, calls, hplain, hrecord, halong⟩

/-- Of two statements in a block, the first stops the walk; a statement outside of the tree is
    not met. -/
theorem traversal_twoInBlock :
    ((ofRoot none).performAll twoInBlock).WellFormed
      ∧ ((ofRoot none).performAll twoInBlock).preOrder = [⟨0⟩, ⟨1⟩, ⟨2⟩, ⟨3⟩]
      ∧ ((ofRoot none).performAll twoInBlock).visit
          (fun seen id node => (node.kind != .statement, id :: seen)) []
        = (false, [⟨2⟩, ⟨1⟩, ⟨0⟩])
      ∧ ((ofRoot none).performAll twoInBlock).Traversal
          ((ofRoot none).performAll twoInBlock).preOrder := by
  have hallowed : (ofRoot none).AllowedAll twoInBlock := by decide
  have hwf : ((ofRoot none).performAll twoInBlock).WellFormed :=
    (forest_ofRoot none).wellFormed.performAll hallowed
  exact ⟨hwf, by decide, by decide, hwf.traversal⟩

end NodeTree

end KernelPrep
