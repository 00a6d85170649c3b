/-
  KernelPrep.Proofs.Texture.Growth — an outline with nodes put in by passes.

  A pass adds nodes of its own to the outline and moves the ranges of others, but it takes
  no node away.  So whatever a pass reads off the outline by kinds, parents and children is
  what the outline said from the start, as long as it does not ask for nodes of passes.

  Main definitions:
    * `NodeTree.Sprouted`  — one node came in;
    * `NodeTree.Overgrown` — the outline with any number of nodes put in.

  Main statements:
    * `Edit.insertWith_sprouted`   — every way to put a run in;
    * `NodeTree.Forest.remap_all`  — replacing tokens takes no node away;
    * `NodeTree.Overgrown.container?_eq`, `NodeTree.Overgrown.childOfKind?_eq` — what a pass
      reads off.
-/
import Mathlib.Data.List.Find
import KernelPrep.Outline.Function
import KernelPrep.Proofs.Document.Coherence

namespace KernelPrep

namespace NodeTree

/-! ## §1. One node more -/

/-- A node for `run` came in below `parent`; of the others only those `touched` may have got
    another range. -/
structure Sprouted (tree tree' : NodeTree) (parent : NodeId) (run : TokenRange)
    (touched : NodeId → Prop) : Prop where
  forest : tree'.WellFormed
  size : tree'.nodes.size = tree.nodes.size + 1
  kind : ∀ x, tree'.kind? x = if x = tree.nextId then some .userTokens else tree.kind? x
  parent : ∀ x, tree'.parent? x = if x = tree.nextId then some parent else tree.parent? x
  children : ∀ x, (tree'.children x).filter (· != tree.nextId) = tree.children x
  own : tree'.tokens? tree.nextId = some run
  tokens : ∀ x, x ≠ tree.nextId → ¬ touched x → tree'.tokens? x = tree.tokens? x

/-- More nodes may be counted as touched. -/
theorem Sprouted.mono {tree tree' : NodeTree} {parent : NodeId} {run : TokenRange}
    {touched touched' : NodeId → Prop} (h : tree.Sprouted tree' parent run touched)
    (hle : ∀ x, touched x → touched' x) : tree.Sprouted tree' parent run touched' :=
  { h with tokens := fun x hx hnot => h.tokens x hx fun ht => hnot (hle x ht) }

/-- The node that came in has no children. -/
theorem Sprouted.leaf {tree tree' : NodeTree} {parent : NodeId} {run : TokenRange}
    {touched : NodeId → Prop} (h : tree.Sprouted tree' parent run touched)
    (hforest : tree.WellFormed) (hlive : ∃ n, tree.get? parent = some n) :
    tree'.children tree.nextId = [] := by
  refine List.eq_nil_iff_forall_not_mem.mpr fun x hx => ?_
  have hparent := (h.forest.parent_iff _ _).mpr hx
  rw [h.parent] at hparent
  split at hparent
  · exact ne_nextId hlive (Option.some.inj hparent)
  · exact ne_nextId (hforest.live_parent ((hforest.parent_iff _ _).mp hparent)) rfl

/-- Nothing is left out that is not there. -/
theorem filter_ne_eq_self {l : List NodeId} {new : NodeId} (h : new ∉ l) :
    l.filter (· != new) = l := by
  rw [List.filter_eq_self]
  rintro x hx
  simp only [bne_iff_ne]
  rintro rfl
  exact h hx

/-- Who gives nothing may be left out. -/
theorem flatMap_filter_ne {l : List NodeId} {new : NodeId} {f g : NodeId → List NodeId}
    (hnew : f new = []) (hother : ∀ x ∈ l, x ≠ new → f x = g x) :
    l.flatMap f = (l.filter (· != new)).flatMap g := by
  induction l with
  | nil => rfl
  | cons x rest ih =>
    have ih := ih fun y hy => hother y (List.mem_cons_of_mem _ hy)
    by_cases hx : x = new
    · rw [hx, List.flatMap_cons, hnew, List.nil_append, ih, List.filter_cons_of_neg (by simp)]
    · rw [List.flatMap_cons, hother x List.mem_cons_self hx, ih,
        List.filter_cons_of_pos (by simpa using hx), List.flatMap_cons]

/-- The old nodes are listed as before. -/
theorem Sprouted.listing {tree tree' : NodeTree} {parent : NodeId} {run : TokenRange}
    {touched : NodeId → Prop} (h : tree.Sprouted tree' parent run touched)
    (hforest : tree.WellFormed) (hlive : ∃ n, tree.get? parent = some n) (depth : Nat)
    {id : NodeId} (hid : id ≠ tree.nextId) :
    (listing tree'.children depth id).filter (· != tree.nextId)
      = listing tree.children depth id := by
  induction depth generalizing id with
  | zero => rfl
  | succ depth ih =>
    have hnew : (NodeTree.listing tree'.children depth tree.nextId).filter (· != tree.nextId)
        = [] := by
      cases depth with
      | zero => rfl
      | succ depth =>
        rw [NodeTree.listing, h.leaf hforest hlive]
        simp
    rw [NodeTree.listing, NodeTree.listing, List.filter_cons_of_pos (by simpa using hid),
      List.filter_flatMap, flatMap_filter_ne hnew fun x _ hx => ih hx, h.children]

/-- **The walk over the tree** meets the old nodes as before. -/
theorem Sprouted.preOrder {tree tree' : NodeTree} {parent : NodeId} {run : TokenRange}
    {touched : NodeId → Prop} (h : tree.Sprouted tree' parent run touched)
    (hforest : tree.WellFormed) (hlive : ∃ n, tree.get? parent = some n) :
    tree'.preOrder.filter (· != tree.nextId) = tree.preOrder := by
  have hroot : root ≠ tree.nextId := ne_nextId hforest.root_live
  have hbound : tree'.walkBound = tree.walkBound + 1 := by
    unfold walkBound
    rw [h.size]
  rw [h.forest.preOrder_eq, hforest.preOrder_eq, hbound, h.listing hforest hlive _ hroot]
  exact hforest.listing_succ hforest.root_live (by unfold walkBound; omega)

end NodeTree

open NodeTree (Below Forest root)

/-- **Adding a node** for a run: only nodes above it are touched, and none when the nearest
    declines. -/
theorem Edit.addUserNode_sprouted {doc doc' : Document} {node parent : NodeId} {run : TokenRange}
    {attach : NodeTree → NodeId → NodeTree} {widen : TokenRange → Option TokenRange}
    {left right : List NodeId} (hforest : doc.tree.WellFormed)
    (hlive : ∃ n, doc.tree.get? parent = some n)
    (hkids : doc.tree.children parent = left ++ right)
    (hins : NodeTree.Inserted (doc.tree.alloc .userTokens (some run)).2
      (attach (doc.tree.alloc .userTokens (some run)).2 doc.tree.nextId) doc.tree.children parent
      left doc.tree.nextId right)
    (heq : Edit.addUserNode run attach widen doc = .ok node doc') :
    node = doc.tree.nextId ∧ doc' = { doc with tree := doc'.tree }
      ∧ doc.tree.Sprouted doc'.tree parent run fun x =>
        (doc.tree.tokens? parent).bind widen ≠ none ∧ Below doc.tree.children x parent := by
  unfold Edit.addUserNode at heq
  obtain ⟨rfl, rfl⟩ := EStateM.Result.ok.inj heq
  refine ⟨rfl, rfl, ?_⟩
  show doc.tree.Sprouted (Edit.widenAll widen
    (attach (doc.tree.alloc .userTokens (some run)).2 doc.tree.nextId)
    ((attach (doc.tree.alloc .userTokens (some run)).2 doc.tree.nextId).ancestors
      doc.tree.nextId)) parent run _
  -- what matters of the way the node was attached is where it came in
  generalize attach (doc.tree.alloc .userTokens (some run)).2 doc.tree.nextId = tree₂ at hins
  have hpn := NodeTree.ne_nextId hlive
  have hnil : doc.tree.children doc.tree.nextId = [] := hforest.kids_eq_nil doc.tree.get?_nextId
  have htokens := hins.tokens?_fresh
  have habove : ∀ {x}, x ∈ tree₂.ancestors doc.tree.nextId → Below doc.tree.children x parent :=
    fun hx => (hins.mem_ancestors_fresh hforest hkids hpn).mp hx
  -- the new node is not above itself, and so its range is not widened
  have hnode : doc.tree.nextId ∉ tree₂.ancestors doc.tree.nextId := by
    intro hx
    rcases Relation.ReflTransGen.cases_head (habove hx) with he | ⟨c, hc, -⟩
    · exact hpn he.symm
    · rw [hnil] at hc
      simp at hc
  obtain ⟨hframe, hout⟩ := Edit.widenAll_frame widen tree₂ (tree₂.ancestors doc.tree.nextId)
  have hforest' := hframe.forest hins.forest
  constructor
  case forest => exact hforest'.wellFormed
  case size =>
    rw [hframe.2, hins.size]
    exact Array.size_push _
  case kind =>
    intro x
    rw [hframe.kind?, hins.kind, NodeTree.kind?_alloc]
  case parent =>
    intro x
    rw [hframe.parent?, hins.parent]
    unfold NodeTree.parent?
    rw [NodeTree.get?_alloc]
    split
    · rfl
    · rfl
  case children =>
    intro x
    rw [hforest'.children_eq]
    by_cases hx : x = parent
    · have hnot := hforest.nextId_not_mem parent
      rw [hkids, List.mem_append, not_or] at hnot
      rw [hx, Function.update_self, List.filter_append, List.filter_cons_of_neg (by simp),
        NodeTree.filter_ne_eq_self hnot.1, NodeTree.filter_ne_eq_self hnot.2, hkids]
    · rw [Function.update_of_ne hx, NodeTree.filter_ne_eq_self (hforest.nextId_not_mem x)]
  case own => rw [hout _ hnode, htokens, if_pos rfl]
  case tokens =>
    intro x hx htouched
    by_cases hdecline : (doc.tree.tokens? parent).bind widen = none
    · -- the nearest node declines, so that no range changes
      have hstop : Edit.widenAll widen tree₂ (tree₂.ancestors doc.tree.nextId) = tree₂ := by
        have hlineage := hins.lineage_fresh
        generalize tree₂.ancestors doc.tree.nextId = above at hlineage
        cases hlineage with
        | up _ =>
          rw [Edit.widenAll, htokens, if_neg hpn, hdecline]
      rw [hstop, htokens, if_neg hx]
    · have hnot : x ∉ tree₂.ancestors doc.tree.nextId := fun hin =>
        htouched ⟨hdecline, habove hin⟩
      rw [hout x hnot, htokens, if_neg hx]

/-- Ranges that end with another token than the anchor decline. -/
theorem widens_last {range? : Option TokenRange} {anchor last : TokenId}
    (h : (range?.bind fun range =>
      if range.last = anchor then some (⟨range.first, last⟩ : TokenRange) else none) ≠ none) :
    ∃ outer, range? = some outer ∧ outer.last = anchor := by
  cases range? with
  | none => simp at h
  | some range =>
    refine ⟨range, rfl, ?_⟩
    by_contra hne
    simp [hne] at h

/-- **Putting a run in**, for every way to do it: the anchor, the list and the tree after. -/
theorem Edit.insertWith_sprouted {doc doc' : Document} {node new parent : NodeId}
    {run : TokenRange} {anchor : TokenRange → TokenId}
    {link : TokenId → TokenList → Except SpliceError (Splice × TokenList)}
    {attach : NodeTree → NodeId → NodeTree} {widen : TokenId → TokenRange → Option TokenRange}
    {left right : List NodeId} (hforest : doc.tree.WellFormed)
    (hlive : ∃ n, doc.tree.get? parent = some n)
    (hkids : doc.tree.children parent = left ++ right)
    (hins : NodeTree.Inserted (doc.tree.alloc .userTokens (some run)).2
      (attach (doc.tree.alloc .userTokens (some run)).2 doc.tree.nextId) doc.tree.children parent
      left doc.tree.nextId right)
    (heq : Edit.insertWith node run anchor link attach widen doc = .ok new doc') :
    ∃ range splice, doc.tree.tokens? node = some range
      ∧ link (anchor range) doc.tokens = .ok (splice, doc'.tokens)
      ∧ new = doc.tree.nextId ∧ doc'.config = doc.config ∧ doc'.newline = doc.newline
      ∧ doc.tree.Sprouted doc'.tree parent run fun x =>
        (doc.tree.tokens? parent).bind (widen (anchor range)) ≠ none
          ∧ Below doc.tree.children x parent := by
  rw [Edit.insertWith_eq] at heq
  split at heq
  · simp at heq
  · rename_i range hrange
    split at heq
    · simp at heq
    · rename_i splice tokens hlink
      have hadd := @Edit.addUserNode_sprouted { doc with tokens }
      obtain ⟨hnew, hdoc, hsprouted⟩ := hadd hforest hlive hkids hins heq
      rw [hdoc]
      exact ⟨range, splice, hrange, hlink, hnew, rfl, rfl, hsprouted⟩

section Insert

variable {doc doc' : Document} {node new parent : NodeId} {run : TokenRange}

/-- A line before a node: the tree has one node more, below the same parent. -/
theorem Edit.insertBefore_sprouted (hforest : doc.tree.WellFormed)
    (hparent : doc.tree.parent? node = some parent)
    (heq : Edit.insertBefore node run doc = .ok new doc') :
    ∃ range splice, doc.tree.tokens? node = some range
      ∧ doc.tokens.insertBefore range.first run = .ok (splice, doc'.tokens)
      ∧ new = doc.tree.nextId ∧ doc'.config = doc.config ∧ doc'.newline = doc.newline
      ∧ doc.tree.Sprouted doc'.tree parent run fun x => Below doc.tree.children x parent := by
  have hmem := (hforest.parent_iff parent node).mp hparent
  obtain ⟨left, right, hkids⟩ := List.append_of_mem hmem
  have hlive := hforest.live_parent hmem
  obtain ⟨hloose, hfresh, hfree, hnewroot, hout, -⟩ := alloc_loose_node hforest run hlive
  rw [Edit.insertBefore_eq] at heq
  obtain ⟨range, splice, hrange, hlink, hnew, hconfig, hnewline, hsprouted⟩ :=
    Edit.insertWith_sprouted hforest hlive hkids
      (hloose.insertBefore hfresh hfree hnewroot hout hkids) heq
  exact ⟨range, splice, hrange, hlink, hnew, hconfig, hnewline,
    hsprouted.mono fun x hx => hx.2⟩

/-- A line behind a node: the tree has one node more, below the same parent. -/
theorem Edit.insertAfter_sprouted (hforest : doc.tree.WellFormed)
    (hparent : doc.tree.parent? node = some parent)
    (heq : Edit.insertAfter node run doc = .ok new doc') :
    ∃ range splice, doc.tree.tokens? node = some range
      ∧ doc.tokens.insertAfter range.last run = .ok (splice, doc'.tokens)
      ∧ new = doc.tree.nextId ∧ doc'.config = doc.config ∧ doc'.newline = doc.newline
      ∧ doc.tree.Sprouted doc'.tree parent run fun _ =>
        ∃ outer, doc.tree.tokens? parent = some outer ∧ outer.last = range.last := by
  have hmem := (hforest.parent_iff parent node).mp hparent
  obtain ⟨left, right, hkids⟩ := List.append_of_mem hmem
  have hlive := hforest.live_parent hmem
  obtain ⟨hloose, hfresh, hfree, hnewroot, hout, -⟩ := alloc_loose_node hforest run hlive
  rw [Edit.insertAfter_eq] at heq
  obtain ⟨range, splice, hrange, hlink, hnew, hconfig, hnewline, hsprouted⟩ :=
    Edit.insertWith_sprouted hforest hlive
      (show doc.tree.children parent = (left ++ [node]) ++ right by simp [hkids])
      (hloose.insertAfter hfresh hfree hnewroot hout hkids) heq
  refine ⟨range, splice, hrange, hlink, hnew, hconfig, hnewline, hsprouted.mono fun x hx => ?_⟩
  exact widens_last hx.1

/-- A line at the top of a node: the tree has one node more, below it. -/
theorem Edit.insertFirstChild_sprouted (hforest : doc.tree.WellFormed)
    (hlive : ∃ n, doc.tree.get? node = some n)
    (heq : Edit.insertFirstChild node run doc = .ok new doc') :
    ∃ range splice, doc.tree.tokens? node = some range
      ∧ doc.tokens.insertAfter range.first run = .ok (splice, doc'.tokens)
      ∧ new = doc.tree.nextId ∧ doc'.config = doc.config ∧ doc'.newline = doc.newline
      ∧ doc.tree.Sprouted doc'.tree node run fun _ =>
        ∃ outer, doc.tree.tokens? node = some outer ∧ outer.last = range.first := by
  obtain ⟨hloose, hfresh, hfree, hnewroot, hout, hlive'⟩ := alloc_loose_node hforest run hlive
  rw [Edit.insertFirstChild_eq] at heq
  obtain ⟨range, splice, hrange, hlink, hnew, hconfig, hnewline, hsprouted⟩ :=
    Edit.insertWith_sprouted hforest hlive
      (show doc.tree.children node = [] ++ doc.tree.children node from rfl)
      (hloose.prependChild hfresh hfree hnewroot hout hlive') heq
  refine ⟨range, splice, hrange, hlink, hnew, hconfig, hnewline, hsprouted.mono fun x hx => ?_⟩
  exact widens_last hx.1

end Insert

namespace NodeTree

/-! ## §2. Replacing without loss -/

/-- Where something takes the place of what was removed, no range is lost. -/
theorem moved?_isSome {splice : Splice} {run : TokenRange} (h : splice.inserted? = some run)
    (range : TokenRange) :
    splice.moved? range = some
      ⟨if splice.removed.contains range.first then run.first else range.first,
        if splice.removed.contains range.last then run.last else range.last⟩ := by
  unfold Splice.moved?
  rw [h]
  cases splice.removed.contains range.first <;> cases splice.removed.contains range.last <;> rfl

/-- **Replacing tokens** by a run takes no node away. -/
theorem Forest.remap_all {tree : NodeTree} {kids : NodeId → List NodeId} {splice : Splice}
    {run : TokenRange} (h : tree.Forest kids) (hne : splice.removed ≠ [])
    (hins : splice.inserted? = some run) :
    (tree.remap splice).Forest kids ∧ (∀ x, (tree.remap splice).kind? x = tree.kind? x)
      ∧ (∀ x, (tree.remap splice).tokens? x = (tree.tokens? x).bind splice.moved?)
      ∧ (tree.remap splice).nodes.size = tree.nodes.size := by
  have hremap := h.remap hne
  have hall : ∀ x, tree.Survives kids splice x := by
    rintro x e ⟨range, -, hnone⟩
    rw [moved?_isSome hins] at hnone
    simp at hnone
  have hkids : restrict kids (tree.Survives kids splice) = kids :=
    funext fun id => restrict_eq_self fun c _ => hall c
  refine ⟨hkids ▸ hremap.forest, ?_, ?_, ?_⟩
  · intro x
    rw [hremap.kind x (hall x), kind?_movedBy]
  · intro x
    rw [hremap.tokens x (hall x), tokens?_movedBy]
  · rw [hremap.size]
    unfold NodeTree.movedBy
    exact Array.size_map

/-! ## §3. Any number of nodes more -/

/-- The tree is `tree₀` with nodes of passes put in. -/
structure Overgrown (tree₀ tree : NodeTree) : Prop where
  forest : tree.WellFormed
  size : tree₀.nodes.size ≤ tree.nodes.size
  kind : ∀ x : NodeId, x.index < tree₀.nodes.size → tree.kind? x = tree₀.kind? x
  parent : ∀ x : NodeId, x.index < tree₀.nodes.size → tree.parent? x = tree₀.parent? x
  added : ∀ (x : NodeId) kind, tree₀.nodes.size ≤ x.index → tree.kind? x = some kind →
    kind = .userTokens
  children : ∀ x : NodeId, x.index < tree₀.nodes.size →
    (tree.children x).filter (·.index < tree₀.nodes.size) = tree₀.children x

namespace Overgrown

variable {tree₀ tree tree' : NodeTree}

/-- A tree with nothing put in. -/
theorem refl (h : tree₀.WellFormed) : Overgrown tree₀ tree₀ where
  forest := h
  size := Nat.le_refl _
  kind := fun _ _ => rfl
  parent := fun _ _ => rfl
  added := by
    intro x kind hx hkind
    obtain ⟨node, hnode⟩ := live_of_kind? hkind
    have hlt := index_lt_of_get? hnode
    omega
  children := by
    intro x _
    refine List.filter_eq_self.mpr fun y hy => ?_
    obtain ⟨n, hn⟩ := h.live_child hy
    simpa using index_lt_of_get? hn

/-- One node more. -/
theorem sprout {parent : NodeId} {run : TokenRange} {touched : NodeId → Prop}
    (h : Overgrown tree₀ tree) (hs : tree.Sprouted tree' parent run touched) :
    Overgrown tree₀ tree' := by
  have hnew : ∀ {x : NodeId}, x.index < tree₀.nodes.size → x ≠ tree.nextId := by
    rintro x hx rfl
    exact absurd (Nat.lt_of_lt_of_le hx h.size) (Nat.lt_irrefl _)
  refine ⟨hs.forest, by rw [hs.size]; exact Nat.le_succ_of_le h.size, ?_, ?_, ?_, ?_⟩
  · intro x hx
    rw [hs.kind, if_neg (hnew hx)]
    exact h.kind x hx
  · intro x hx
    rw [hs.parent, if_neg (hnew hx)]
    exact h.parent x hx
  · intro x kind hx hkind
    rw [hs.kind] at hkind
    split at hkind
    · exact (Option.some.inj hkind).symm
    · exact h.added x kind hx hkind
  · intro x hx
    rw [← h.children x hx, ← hs.children x, List.filter_filter]
    refine List.filter_congr fun y _ => ?_
    by_cases hy : y.index < tree₀.nodes.size
    · simp [hy, hnew hy]
    · simp [hy]

/-- Replacing tokens takes no node away. -/
theorem remap {splice : Splice} {run : TokenRange} (h : Overgrown tree₀ tree)
    (hne : splice.removed ≠ []) (hins : splice.inserted? = some run) :
    Overgrown tree₀ (tree.remap splice)
      ∧ (∀ x, (tree.remap splice).parent? x = tree.parent? x)
      ∧ (∀ x, (tree.remap splice).tokens? x = (tree.tokens? x).bind splice.moved?)
      ∧ (tree.remap splice).nodes.size = tree.nodes.size := by
  obtain ⟨hforest, hkind, htokens, hsize⟩ := Forest.remap_all h.forest hne hins
  have hparent : ∀ x, (tree.remap splice).parent? x = tree.parent? x := by
    intro x
    refine Option.ext fun p => ?_
    rw [hforest.parent_iff p x, h.forest.parent_iff p x]
  refine ⟨⟨hforest.wellFormed, by rw [hsize]; exact h.size, ?_, ?_, ?_, ?_⟩, hparent, htokens,
    hsize⟩
  · intro x hx
    rw [hkind]
    exact h.kind x hx
  · intro x hx
    rw [hparent]
    exact h.parent x hx
  · intro x kind hx hk
    rw [hkind] at hk
    exact h.added x kind hx hk
  · intro x hx
    rw [hforest.children_eq]
    exact h.children x hx

/-- What is above an original node is original, and was above it from the start. -/
theorem above (h : Overgrown tree₀ tree) (h₀ : tree₀.WellFormed) {x y : NodeId}
    (hb : Below tree.children x y) (hy : y.index < tree₀.nodes.size) :
    x.index < tree₀.nodes.size ∧ Below tree₀.children x y := by
  induction hb with
  | refl => exact ⟨hy, Relation.ReflTransGen.refl⟩
  | @tail parent child _ hstep ih =>
    have hparent := (h.forest.parent_iff parent child).mpr hstep
    rw [h.parent child hy] at hparent
    have hmem := (h₀.parent_iff parent child).mp hparent
    obtain ⟨n, hn⟩ := h₀.live_parent hmem
    obtain ⟨hx, hb⟩ := ih (index_lt_of_get? hn)
    exact ⟨hx, hb.tail hmem⟩

/-- What was below a node stays below it. -/
theorem below (h : Overgrown tree₀ tree) (h₀ : tree₀.WellFormed) {x y : NodeId}
    (hb : Below tree₀.children x y) : Below tree.children x y := by
  induction hb with
  | refl => exact Relation.ReflTransGen.refl
  | @tail parent child _ hstep ih =>
    obtain ⟨n, hn⟩ := h₀.live_parent hstep
    have hmem : child ∈ tree₀.children parent := hstep
    rw [← h.children parent (index_lt_of_get? hn)] at hmem
    exact ih.tail (List.mem_of_mem_filter hmem)

/-- The children of an original node that no pass put there. -/
theorem filter_children (h : Overgrown tree₀ tree) {id : NodeId}
    (hid : id.index < tree₀.nodes.size) (p : NodeKind → Bool) (hp : p .userTokens = false) :
    (tree.children id).filter (fun child => (tree.kind? child).any p)
      = (tree₀.children id).filter fun child => (tree₀.kind? child).any p := by
  rw [← h.children id hid, List.filter_filter]
  refine List.filter_congr fun child hchild => ?_
  by_cases hlt : child.index < tree₀.nodes.size
  · rw [h.kind child hlt]
    simp [hlt]
  · obtain ⟨n, hn⟩ := h.forest.live_child hchild
    have hkind : tree.kind? child = some n.kind := by
      unfold kind?
      rw [hn]
      rfl
    have huser := h.added child n.kind (by omega) hkind
    rw [hkind, huser]
    simp [hlt, hp]

/-- What is found among the children by a kind that no pass puts in. -/
theorem childOfKind?_eq (h : Overgrown tree₀ tree) {id : NodeId}
    (hid : id.index < tree₀.nodes.size) {kind : NodeKind} (hkind : kind ≠ .userTokens) :
    Outline.childOfKind? tree id kind = Outline.childOfKind? tree₀ id kind := by
  have hany : ∀ t : NodeTree, Outline.childOfKind? t id kind
      = ((t.children id).filter fun child => (t.kind? child).any (· == kind)).head? := by
    intro t
    unfold Outline.childOfKind?
    rw [List.head?_filter]
    refine List.find?_congr fun child _ => ?_
    cases t.kind? child <;> rfl
  rw [hany, hany, h.filter_children hid (· == kind) (by simpa using hkind.symm)]

/-- The lineage of an original node stays what it was. -/
theorem lineage (h : Overgrown tree₀ tree) (h₀ : tree₀.WellFormed) {id? : Option NodeId}
    {above : List NodeId} (hid : ∀ id, id? = some id → id.index < tree₀.nodes.size)
    (hl : Lineage tree₀ id? above) : Lineage tree id? above := by
  induction hl with
  | top => exact Lineage.top
  | @up id above _ ih =>
    refine Lineage.up ?_
    rw [h.parent id (hid id rfl)]
    refine ih fun p hp => ?_
    obtain ⟨n, hn⟩ := h₀.live_parent ((h₀.parent_iff p id).mp hp)
    exact index_lt_of_get? hn

/-- **The construct at file scope** that holds an original node stays what it was. -/
theorem container?_eq (h : Overgrown tree₀ tree) (h₀ : tree₀.WellFormed) {id : NodeId}
    (hlive : ∃ n, tree₀.get? id = some n) : tree.container? id = tree₀.container? id := by
  obtain ⟨n, hn⟩ := hlive
  have hlt := index_lt_of_get? hn
  have hold : ∀ {x p}, tree₀.parent? x = some p → p.index < tree₀.nodes.size := by
    intro x p hp
    obtain ⟨m, hm⟩ := h₀.live_parent ((h₀.parent_iff p x).mp hp)
    exact index_lt_of_get? hm
  have hl₀ := h₀.lineage id
  have hl : Lineage tree (tree.parent? id) (tree₀.ancestors id) := by
    rw [h.parent id hlt]
    exact h.lineage h₀ (fun p hp => hold hp) hl₀
  have hlen := h₀.length_ancestors_lt ⟨n, hn⟩
  have hsize := h.size
  unfold container?
  rw [hl₀.below?_eq (by unfold walkBound; omega), hl.below?_eq (by unfold walkBound; omega)]
  -- the walk meets the same nodes, all of which were there before
  refine List.find?_congr fun x hx => ?_
  have hxlt : x.index < tree₀.nodes.size := by
    rcases List.mem_cons.mp hx with rfl | hx
    · exact hlt
    · obtain ⟨y, hy, hb⟩ := (Lineage.mem_iff h₀ hl₀).mp hx
      rcases Relation.ReflTransGen.cases_head hb with rfl | ⟨c, hc, -⟩
      · exact hold hy
      · obtain ⟨m, hm⟩ := h₀.live_parent hc
        exact index_lt_of_get? hm
  rw [h.parent x hxlt]
  cases hp : tree₀.parent? x with
  | none => rfl
  | some p => simp [h.kind p (hold hp)]

end Overgrown

end NodeTree

end KernelPrep
