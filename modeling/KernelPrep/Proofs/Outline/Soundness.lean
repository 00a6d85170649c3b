/-
  KernelPrep.Proofs.Outline.Soundness — the outline of a file lies over its tokens.

  The items that are read from a file cover stretches of its leaves, and grafting makes
  them the nodes of a tree.  So every node of the tree stands on the leaves that one
  skeleton covers, and what holds of skeletons and leaves holds of nodes and places: nodes
  lie inside their parents, siblings follow one another, and a file read to its end is
  covered by the children of the root.

  Main definitions:
    * `TokenList.outline` — the tree of the items completed, with or without an error;
    * `StandsOn`          — a node over the leaves of its skeleton;
    * `Sheltered`         — how the children of a node lie inside it.

  Main statements:
    * `TokenList.outline_coherent`   — the outline fits the list;
    * `TokenList.outline_invariants` — what holds of every outline, and of those of files
      without an error.
-/
import KernelPrep.Proofs.Outline.Leaves
import KernelPrep.Proofs.Outline.Planting
import KernelPrep.Proofs.Outline.Reading

namespace KernelPrep

open NodeTree Skeleton

/-! ## §1. Ranges over leaves -/

section Bounds

variable {list : TokenList} {range : TokenRange} {leaves : List Leaf}

/-- A range begins with one of its leaves. -/
theorem TokenRange.Bounds.exists_first (h : range.Bounds leaves) :
    ∃ leaf ∈ leaves, leaf.id = range.first := by
  obtain ⟨leaf, hleaf, hid⟩ := Option.map_eq_some_iff.mp h.1
  exact ⟨leaf, List.mem_of_head? hleaf, hid⟩

/-- A range ends with one of its leaves. -/
theorem TokenRange.Bounds.exists_last (h : range.Bounds leaves) :
    ∃ leaf ∈ leaves, leaf.id = range.last := by
  obtain ⟨leaf, hleaf, hid⟩ := Option.map_eq_some_iff.mp h.2
  exact ⟨leaf, List.mem_of_getLast? hleaf, hid⟩

/-- The token lies in the range. -/
def TokenList.Inside (list : TokenList) (range : TokenRange) (id : TokenId) : Prop :=
  list.place range.first ≤ list.place id ∧ list.place id ≤ list.place range.last

/-- The leaves that bound a range lie in it. -/
theorem TokenList.Ascending.inside (h : list.Ascending leaves) (hb : range.Bounds leaves)
    {leaf : Leaf} (hleaf : leaf ∈ leaves) : list.Inside range leaf.id := by
  unfold TokenList.Ascending at h
  -- the first leaf is the lowest of them, and the last one the highest
  constructor
  · cases leaves with
    | nil => simp at hleaf
    | cons first rest =>
      have hfirst : first.id = range.first := Option.some.inj hb.1
      rw [← hfirst]
      rcases List.mem_cons.mp hleaf with rfl | hrest
      · exact Nat.le_refl _
      · exact Nat.le_of_lt ((List.pairwise_cons.mp h).1 leaf hrest)
  · rcases List.eq_nil_or_concat leaves with rfl | ⟨init, last, rfl⟩
    · simp at hleaf
    · have hlast : last.id = range.last := by
        have hb2 := hb.2
        rw [List.concat_eq_append, List.getLast?_concat] at hb2
        exact Option.some.inj hb2
      rw [List.concat_eq_append] at h hleaf
      rw [← hlast]
      rcases List.mem_append.mp hleaf with hinit | htail
      · exact Nat.le_of_lt ((List.pairwise_append.mp h).2.2 leaf hinit last (by simp))
      · rw [List.mem_singleton.mp htail]

end Bounds

/-! ## §2. Nodes over leaves -/

section Standing

variable {list : TokenList} {file : List TokenId} {tree : NodeTree}
  {kids : NodeId → List NodeId}

/-- The node is that of the skeleton, which covers these leaves of the file. -/
structure StandsOn (list : TokenList) (tree : NodeTree) (kids : NodeId → List NodeId)
    (id : NodeId) (s : Skeleton) (own : List Leaf) : Prop where
  planted : s.PlantedAt tree kids id.index
  covers : s.Covers own
  leaves : own.Sublist list.leaves

namespace StandsOn

variable {id : NodeId} {s : Skeleton} {own : List Leaf}

/-- The node has the range of the skeleton. -/
theorem tokens? (h : StandsOn list tree kids id s own) : tree.tokens? id = some s.range := by
  have hp := h.planted
  cases s
  unfold PlantedAt at hp
  exact hp.2.1

/-- The node is of the kind of the skeleton. -/
theorem kind? (h : StandsOn list tree kids id s own) : tree.kind? id = some s.kind := by
  have hp := h.planted
  cases s
  unfold PlantedAt at hp
  exact hp.1

/-- The leaves of a node are in the order of the file. -/
theorem ascending (h : StandsOn list tree kids id s own) (hlist : list.Threaded file) :
    list.Ascending own := (TokenList.leaves_ascending hlist).sublist h.leaves

/-- The leaves of a node are tokens of the file that count. -/
theorem significant (h : StandsOn list tree kids id s own) (hlist : list.Threaded file)
    {leaf : Leaf} (hleaf : leaf ∈ own) :
    leaf.id ∈ file ∧ list.isSignificant leaf.id = true :=
  (TokenList.mem_leaves_iff hlist).mp ⟨leaf, h.leaves.subset hleaf, rfl⟩

/-- The node begins where its first leaf stands and ends where its last one does. -/
theorem places (h : StandsOn list tree kids id s own) :
    firstPlace list tree id = list.place s.range.first
      ∧ lastPlace list tree id = list.place s.range.last :=
  ⟨firstPlace_eq h.tokens?, lastPlace_eq h.tokens?⟩

/-- The leaves of a node lie between its ends. -/
theorem inside (h : StandsOn list tree kids id s own) (hlist : list.Threaded file)
    {leaf : Leaf} (hleaf : leaf ∈ own) :
    firstPlace list tree id ≤ list.place leaf.id
      ∧ list.place leaf.id ≤ lastPlace list tree id := by
  rw [h.places.1, h.places.2]
  exact (h.ascending hlist).inside h.covers.bounds hleaf

/-- No node ends before it begins. -/
theorem order (h : StandsOn list tree kids id s own) (hlist : list.Threaded file) :
    firstPlace list tree id ≤ lastPlace list tree id := by
  obtain ⟨leaf, hleaf, -⟩ := h.covers.bounds.exists_first
  have hin := h.inside hlist hleaf
  omega

end StandsOn

/-- Skeletons in a row over leaves of the file are nodes in a row over the same leaves. -/
theorem standsOn_of_fitIn {n : Nat} {ss : List Skeleton} {leaves : List Leaf}
    (hlist : list.Threaded file) (hplanted : PlantedAllAt tree kids n ss)
    (hfit : FitIn ss leaves) (hleaves : leaves.Sublist list.leaves) :
    (∀ id ∈ tops n ss, ∃ s ∈ ss, ∃ own, StandsOn list tree kids id s own ∧ own.Sublist leaves)
      ∧ (tops n ss).Pairwise fun a b => lastPlace list tree a < firstPlace list tree b := by
  induction ss generalizing n leaves with
  | nil => exact ⟨by simp [tops], List.Pairwise.nil⟩
  | cons s rest ih =>
    unfold PlantedAllAt at hplanted
    unfold FitIn at hfit
    obtain ⟨gap, own, tail, rfl, hs, hrest⟩ := hfit
    have htail : tail.Sublist (gap ++ own ++ tail) := List.sublist_append_right _ _
    have hown : own.Sublist (gap ++ own ++ tail) :=
      (List.sublist_append_right gap own).trans (List.sublist_append_left _ _)
    have hstands : StandsOn list tree kids ⟨n⟩ s own := ⟨hplanted.1, hs, hown.trans hleaves⟩
    obtain ⟨hall, hpair⟩ := ih hplanted.2 hrest (htail.trans hleaves)
    unfold tops
    refine ⟨fun id hid => ?_, List.pairwise_cons.mpr ⟨fun id hid => ?_, hpair⟩⟩
    · rcases List.mem_cons.mp hid with rfl | hid
      · exact ⟨s, List.mem_cons_self, own, hstands, hown⟩
      · obtain ⟨s', hs', own', hstands', hsub⟩ := hall id hid
        exact ⟨s', List.mem_cons_of_mem _ hs', own', hstands', hsub.trans htail⟩
    · -- the last leaf of this node stands before the first leaf of any later one
      obtain ⟨s', -, own', hstands', hsub⟩ := hall id hid
      obtain ⟨a, ha, hlast⟩ := hs.bounds.exists_last
      obtain ⟨b, hb, hfirst⟩ := hstands'.covers.bounds.exists_first
      have hasc := (TokenList.leaves_ascending hlist).sublist hleaves
      rw [hstands.places.2, hstands'.places.1, ← hlast, ← hfirst]
      exact hasc.split.2.2 a ha b (hsub.subset hb)

/-- How the children of a node lie inside it.  All nodes but statements begin with a token of
    their own, blocks also end with one, functions and linkage blocks stand at file scope
    only, and a function with a body has its parameter list before the body. -/
structure Sheltered (list : TokenList) (tree : NodeTree) (kids : NodeId → List NodeId)
    (id : NodeId) : Prop where
  stands : ∀ child ∈ kids id, ∃ s own, StandsOn list tree kids child s own
  nested : ∀ child ∈ kids id, firstPlace list tree id ≤ firstPlace list tree child
    ∧ lastPlace list tree child ≤ lastPlace list tree id
  apart : (kids id).Pairwise fun a b => lastPlace list tree a < firstPlace list tree b
  lead : tree.kind? id ≠ some .statement → ∀ child ∈ kids id,
    firstPlace list tree id < firstPlace list tree child
  trail : tree.kind? id = some .statementBlock → ∀ child ∈ kids id,
    lastPlace list tree child < lastPlace list tree id
  wide : tree.kind? id = some .statementBlock → firstPlace list tree id < lastPlace list tree id
  parts : tree.kind? id = some .functionDefn →
    (kids id).map tree.kind? = [some .functionParams, some .statementBlock]
  fileScope : tree.kind? id ≠ some .linkageBlock → ∀ child ∈ kids id, ∀ kind,
    tree.kind? child = some kind → kind.isScoped = false

/-- A node begins at a leaf that it stands on, and ends at one. -/
theorem StandsOn.ends_mem {id : NodeId} {s : Skeleton} {own : List Leaf}
    (h : StandsOn list tree kids id s own) :
    ∃ a ∈ own, ∃ b ∈ own, firstPlace list tree id = list.place a.id
      ∧ lastPlace list tree id = list.place b.id := by
  obtain ⟨a, ha, hfirst⟩ := h.covers.bounds.exists_first
  obtain ⟨b, hb, hlast⟩ := h.covers.bounds.exists_last
  refine ⟨a, ha, b, hb, ?_, ?_⟩
  · rw [h.places.1, hfirst]
  · rw [h.places.2, hlast]

/-- What a node begins with stands before everything else in it. -/
theorem StandsOn.first_lt {id : NodeId} {s : Skeleton} {lead others : List Leaf}
    (h : StandsOn list tree kids id s (lead ++ others)) (hlist : list.Threaded file)
    (hne : lead ≠ []) {a : Leaf} (ha : a ∈ others) : firstPlace list tree id < list.place a.id := by
  obtain ⟨x, hx⟩ := List.exists_mem_of_ne_nil lead hne
  exact Nat.lt_of_le_of_lt (h.inside hlist (List.mem_append_left _ hx)).1
    ((List.pairwise_append.mp (h.ascending hlist)).2.2 x hx a ha)

/-- What a node ends with stands behind everything else in it. -/
theorem StandsOn.lt_last {id : NodeId} {s : Skeleton} {others trail : List Leaf}
    (h : StandsOn list tree kids id s (others ++ trail)) (hlist : list.Threaded file)
    (hne : trail ≠ []) {b : Leaf} (hb : b ∈ others) : list.place b.id < lastPlace list tree id := by
  obtain ⟨x, hx⟩ := List.exists_mem_of_ne_nil trail hne
  exact Nat.lt_of_lt_of_le ((List.pairwise_append.mp (h.ascending hlist)).2.2 b hb x hx)
    (h.inside hlist (List.mem_append_right _ hx)).2

/-- **One step down**: the children of a node that stands on leaves stand on stretches of
    them. -/
theorem StandsOn.sheltered {id : NodeId} {s : Skeleton} {own : List Leaf}
    (h : StandsOn list tree kids id s own) (hlist : list.Threaded file) :
    Sheltered list tree kids id := by
  have hkind := h.kind?
  obtain ⟨kind, range, children⟩ := s
  have hp := h.planted
  have hc := h.covers
  unfold PlantedAt at hp
  unfold Covers at hc
  obtain ⟨-, -, hkids, hplanted⟩ := hp
  obtain ⟨-, -, hscoped, hparts, lead, inner, trail, rfl, hfit, hlead, htrail⟩ := hc
  have hinner : inner.Sublist (lead ++ inner ++ trail) :=
    (List.sublist_append_right lead inner).trans (List.sublist_append_left _ _)
  obtain ⟨hall, hpair⟩ := standsOn_of_fitIn hlist hplanted hfit (hinner.trans h.leaves)
  rw [← hkids] at hall hpair
  have hends : ∀ child ∈ kids id, ∃ a ∈ inner, ∃ b ∈ inner,
      firstPlace list tree child = list.place a.id
        ∧ lastPlace list tree child = list.place b.id := by
    intro child hchild
    obtain ⟨s', -, own', hstands, hsub⟩ := hall child hchild
    obtain ⟨a, ha, b, hb, hplaces⟩ := hstands.ends_mem
    exact ⟨a, hsub.subset ha, b, hsub.subset hb, hplaces⟩
  -- only statements may begin with a child, and all but blocks may end with one
  have hbegin : tree.kind? id ≠ some .statement → ∀ a ∈ inner ++ trail,
      firstPlace list tree id < list.place a.id := by
    intro hne a ha
    have hnil : lead ≠ [] := hlead fun he => hne (hkind.trans (congrArg some he))
    exact (List.append_assoc lead inner trail ▸ h).first_lt hlist hnil ha
  have hnonempty : tree.kind? id = some .statementBlock → trail ≠ [] := fun heq =>
    htrail (Option.some.inj (hkind.symm.trans heq))
  constructor
  case stands =>
    intro child hchild
    obtain ⟨s', -, own', hstands, -⟩ := hall child hchild
    exact ⟨s', own', hstands⟩
  case nested =>
    intro child hchild
    obtain ⟨a, ha, b, hb, hfirst, hlast⟩ := hends child hchild
    rw [hfirst, hlast]
    exact ⟨(h.inside hlist (hinner.subset ha)).1, (h.inside hlist (hinner.subset hb)).2⟩
  case apart => exact hpair
  case lead =>
    intro hne child hchild
    obtain ⟨a, ha, -, -, hfirst, -⟩ := hends child hchild
    rw [hfirst]
    exact hbegin hne a (List.mem_append_left _ ha)
  case trail =>
    intro heq child hchild
    obtain ⟨-, -, b, hb, -, hlast⟩ := hends child hchild
    rw [hlast]
    exact h.lt_last hlist (hnonempty heq) (List.mem_append_right _ hb)
  case wide =>
    intro heq
    obtain ⟨x, hx⟩ := List.exists_mem_of_ne_nil trail (hnonempty heq)
    exact Nat.lt_of_lt_of_le (hbegin (by simp [heq]) x (List.mem_append_right _ hx))
      (h.inside hlist (List.mem_append_right _ hx)).2
  case parts =>
    intro heq
    rw [hkids, PlantedAllAt.kinds children hplanted,
      ← List.map_map, hparts (Option.some.inj (hkind.symm.trans heq))]
    rfl
  case fileScope =>
    intro hne child hchild kind' hkind'
    obtain ⟨s', hs', own', hstands, -⟩ := hall child hchild
    have heq : s'.kind = kind' := Option.some.inj (hstands.kind?.symm.trans hkind')
    rw [← heq]
    exact hscoped (fun he => hne (hkind.trans (congrArg some he))) s' hs'

/-- **Every way down**: all nodes below the root stand on leaves when its children do. -/
theorem standsOn_of_below (hlist : list.Threaded file)
    (htop : ∀ id ∈ kids root, ∃ s own, StandsOn list tree kids id s own) {id : NodeId}
    (hb : Below kids root id) : id = root ∨ ∃ s own, StandsOn list tree kids id s own := by
  induction hb with
  | refl => exact Or.inl rfl
  | @tail parent child _ hstep ih =>
    rcases ih with rfl | ⟨s, own, hstands⟩
    · exact Or.inr (htop child hstep)
    · exact Or.inr ((hstands.sheltered hlist).stands child hstep)

end Standing

/-! ## §3. The outline of a list -/

/-- The tree of the items that were completed, whether or not an error ended the reading. -/
def TokenList.outline (list : TokenList) : NodeTree :=
  (Outline.parse list.leaves).tree list.whole?

/-- The items of a file fit in its leaves. -/
theorem Outline.Tiles.fitIn {items : List Skeleton} {leaves : List Leaf}
    (h : Outline.Tiles items leaves) : FitIn items leaves := by
  induction h with
  | nil => exact fitIn_nil _
  | cons hs _ ih => exact FitIn.cons hs ih

/-- What is known of the outline of a list: it is a forest of nodes that stand on leaves, and
    the items at its top tile the leaves that were read. -/
structure Outlined (list : TokenList) (tree : NodeTree) (kids : NodeId → List NodeId)
    (items : List Skeleton) : Prop where
  forest : tree.Forest kids
  whole : tree.tokens? root = list.whole?
  kind_root : tree.kind? root = some .root
  kids_root : kids root = tops 1 items
  planted : PlantedAllAt tree kids 1 items
  size : tree.nodes.size = 1 + sizeAll items
  stands : ∀ id ∈ kids root, ∃ s own, StandsOn list tree kids id s own
  apart_root : (kids root).Pairwise fun a b => lastPlace list tree a < firstPlace list tree b

variable {list : TokenList} {file : List TokenId}

/-- Every list is outlined, whether it was read to its end or not. -/
theorem TokenList.outline_outlined (h : list.Threaded file) :
    ∃ kids, Outlined list list.outline kids (Outline.parse list.leaves).items := by
  obtain ⟨read, rest, hleaves, htiles, -⟩ := Outline.parse_ok (TokenList.leaves_nodup h)
  obtain ⟨kids, hforest, hkids, hplanted, hsize, hwhole, hkind⟩ :=
    ofSkeletons_planted list.whole? (Outline.parse list.leaves).items
  have hread : read.Sublist list.leaves := by
    rw [hleaves]
    exact List.sublist_append_left _ _
  obtain ⟨hall, hpair⟩ := standsOn_of_fitIn h hplanted htiles.fitIn hread
  refine ⟨kids, hforest, hwhole, hkind, hkids, hplanted, hsize, ?_, ?_⟩
  · intro id hid
    rw [hkids] at hid
    obtain ⟨s, -, own, hstands, -⟩ := hall id hid
    exact ⟨s, own, hstands⟩
  · rw [hkids]
    exact hpair

namespace Outlined

variable {tree : NodeTree} {kids : NodeId → List NodeId} {items : List Skeleton}

/-- Every node but the root stands on leaves. -/
theorem standsOn (h : Outlined list tree kids items) (hlist : list.Threaded file) {id : NodeId}
    (hb : Below kids root id) (hroot : id ≠ root) :
    ∃ s own, StandsOn list tree kids id s own := by
  rcases standsOn_of_below hlist h.stands hb with he | hstands
  · exact absurd he hroot
  · exact hstands

/-- The children of a node lie inside it. -/
theorem sheltered (h : Outlined list tree kids items) (hlist : list.Threaded file) {id : NodeId}
    (hb : Below kids root id) (hroot : id ≠ root) : Sheltered list tree kids id := by
  obtain ⟨s, own, hstands⟩ := h.standsOn hlist hb hroot
  exact hstands.sheltered hlist

/-- The ends of a node other than the root are significant tokens of the file. -/
theorem ends (h : Outlined list tree kids items) (hlist : list.Threaded file) {id : NodeId}
    (hb : Below kids root id) (hroot : id ≠ root) {range : TokenRange}
    (hrange : tree.tokens? id = some range) :
    (range.first ∈ file ∧ list.isSignificant range.first = true)
      ∧ range.last ∈ file ∧ list.isSignificant range.last = true := by
  obtain ⟨s, own, hstands⟩ := h.standsOn hlist hb hroot
  obtain rfl := Option.some.inj (hstands.tokens?.symm.trans hrange)
  obtain ⟨a, ha, hfirst⟩ := hstands.covers.bounds.exists_first
  obtain ⟨b, hb, hlast⟩ := hstands.covers.bounds.exists_last
  rw [← hfirst, ← hlast]
  exact ⟨hstands.significant hlist ha, hstands.significant hlist hb⟩

/-- A file without tokens has no constructs, since each stands on a leaf. -/
theorem kids_root_eq_nil (h : Outlined list tree kids items) (hlist : list.Threaded []) :
    kids root = [] := by
  by_contra hne
  obtain ⟨child, hchild⟩ := List.exists_mem_of_ne_nil _ hne
  obtain ⟨s, own, hstands⟩ := h.stands child hchild
  obtain ⟨a, ha, -⟩ := hstands.covers.bounds.exists_first
  have hin := (hstands.significant hlist ha).1
  simp at hin

/-- The range of the root is that of the whole file, if there is one. -/
theorem places_root (h : Outlined list tree kids items) (hlist : list.Threaded file) :
    firstPlace list tree root = 0 ∧ lastPlace list tree root = file.length - 1 := by
  obtain ⟨hbare, hwhole⟩ := hlist.whole?_eq
  unfold firstPlace lastPlace
  rw [h.whole]
  by_cases hnil : file = []
  · rw [hbare hnil, hnil]
    exact ⟨rfl, rfl⟩
  · obtain ⟨range, hrange, hfirst, hlast⟩ := hwhole hnil
    rw [hrange]
    exact ⟨hlist.place_eq hfirst, hlist.place_eq hlast⟩

/-- A construct at file scope ends inside of the file. -/
theorem lastPlace_lt (h : Outlined list tree kids items) (hlist : list.Threaded file)
    {id : NodeId} (hid : id ∈ kids root) : lastPlace list tree id < file.length := by
  obtain ⟨s, own, hstands⟩ := h.stands id hid
  obtain ⟨x, hx, hlast⟩ := hstands.covers.bounds.exists_last
  have hin := (hstands.significant hlist hx).1
  rw [hstands.places.2, ← hlast]
  exact (List.getElem?_eq_some_iff.mp
    (hlist.getElem?_place ((hlist.linked_iff _).mpr hin))).1

/-- **The outline lies over the list.** -/
theorem placed (h : Outlined list tree kids items) (hlist : list.Threaded file) :
    Placed tree.tokens? file kids (firstPlace list tree) (lastPlace list tree) := by
  obtain ⟨hbare, hwhole⟩ := hlist.whole?_eq
  obtain ⟨hfirst, hlast⟩ := h.places_root hlist
  have hplace : ∀ {id}, id ∈ file → file[list.place id]? = some id := fun hid =>
    hlist.getElem?_place ((hlist.linked_iff _).mpr hid)
  constructor
  case bare =>
    rintro rfl
    exact ⟨by rw [h.whole, hbare rfl], h.kids_root_eq_nil hlist⟩
  case lo_root => exact hfirst
  case hi_root => exact hlast
  case order =>
    intro hne id hb
    by_cases hroot : id = root
    · rw [hroot, hfirst]
      exact Nat.zero_le _
    · obtain ⟨s, own, hstands⟩ := h.standsOn hlist hb hroot
      exact hstands.order hlist
  case range =>
    intro hne id hb
    by_cases hroot : id = root
    · obtain ⟨range, hrange, hends⟩ := hwhole hne
      rw [hroot, hfirst, hlast]
      exact ⟨range, by rw [h.whole]; exact hrange, hends⟩
    · obtain ⟨s, own, hstands⟩ := h.standsOn hlist hb hroot
      obtain ⟨hin, hin'⟩ := h.ends hlist hb hroot hstands.tokens?
      rw [hstands.places.1, hstands.places.2]
      exact ⟨s.range, hstands.tokens?, hplace hin.1, hplace hin'.1⟩
  -- the root has its children inside by the ends of the file, any other node by its leaves
  case nested =>
    intro parent child hb hchild
    by_cases hroot : parent = root
    · subst hroot
      have hlt := h.lastPlace_lt hlist hchild
      rw [hfirst, hlast]
      omega
    · exact (h.sheltered hlist hb hroot).nested child hchild
  case apart =>
    intro parent hb
    by_cases hroot : parent = root
    · rw [hroot]
      exact h.apart_root
    · exact (h.sheltered hlist hb hroot).apart

end Outlined

/-! ## §4. Files read to their end -/

/-- Items that tile leaves leave none of them out. -/
theorem covered_of_tiles {tree : NodeTree} {kids : NodeId → List NodeId} {n : Nat}
    {items : List Skeleton} {leaves : List Leaf} (hlist : list.Threaded file)
    (hplanted : PlantedAllAt tree kids n items) (htiles : Outline.Tiles items leaves)
    (hleaves : leaves.Sublist list.leaves) {leaf : Leaf} (hleaf : leaf ∈ leaves) :
    ∃ id ∈ tops n items, ∃ range, tree.tokens? id = some range ∧ list.Inside range leaf.id := by
  induction htiles generalizing n with
  | nil => simp at hleaf
  | @cons s ss own rest hs hrest ih =>
    unfold PlantedAllAt at hplanted
    unfold tops
    rcases List.mem_append.mp hleaf with hown | htail
    · have hstands : StandsOn list tree kids ⟨n⟩ s own :=
        ⟨hplanted.1, hs, (List.sublist_append_left own rest).trans hleaves⟩
      have hasc := hstands.ascending hlist
      exact ⟨⟨n⟩, List.mem_cons_self, s.range, hstands.tokens?, hasc.inside hs.bounds hown⟩
    · obtain ⟨id, hid, hrange⟩ :=
        ih hplanted.2 ((List.sublist_append_right own rest).trans hleaves) htail
      exact ⟨id, List.mem_cons_of_mem _ hid, hrange⟩

/-- Of nodes that follow one another, no two hold the same token. -/
theorem eq_of_inside {tree : NodeTree} {ids : List NodeId}
    (hpair : ids.Pairwise fun a b => lastPlace list tree a < firstPlace list tree b)
    {a b : NodeId} (ha : a ∈ ids) (hb : b ∈ ids) {ra rb : TokenRange}
    (hra : tree.tokens? a = some ra) (hrb : tree.tokens? b = some rb) {id : TokenId}
    (hina : list.Inside ra id) (hinb : list.Inside rb id) : a = b := by
  have hends : ∀ {x r}, tree.tokens? x = some r →
      firstPlace list tree x = list.place r.first ∧ lastPlace list tree x = list.place r.last := by
    intro x r hr
    unfold firstPlace lastPlace
    rw [hr]
    exact ⟨rfl, rfl⟩
  obtain ⟨i, hi, rfl⟩ := List.getElem_of_mem ha
  obtain ⟨j, hj, rfl⟩ := List.getElem_of_mem hb
  rw [List.pairwise_iff_getElem] at hpair
  unfold TokenList.Inside at hina hinb
  -- nodes at two places of the list are apart, and have no token in common
  rcases Nat.lt_trichotomy i j with hlt | rfl | hgt
  · have hapart := hpair i j hi hj hlt
    rw [(hends hra).2, (hends hrb).1] at hapart
    omega
  · rfl
  · have hapart := hpair j i hj hi hgt
    rw [(hends hrb).2, (hends hra).1] at hapart
    omega

/-- What parsing gives is the outline, and there was no error. -/
theorem TokenList.parse_eq_ok {tree : NodeTree} (h : list.parse = .ok tree) :
    tree = list.outline ∧ (Outline.parse list.leaves).error? = none := by
  unfold TokenList.parse at h
  dsimp only at h
  split at h
  · simp at h
  · rename_i hnone
    exact ⟨(Except.ok.inj h).symm, hnone⟩

/-- Without an error parsing gives the outline. -/
theorem TokenList.parse_of_none (h : (Outline.parse list.leaves).error? = none) :
    list.parse = .ok list.outline := by
  unfold TokenList.parse
  dsimp only
  rw [h]
  rfl

/-- The outline of a source, as far as it was read, fits its token list. -/
theorem TokenList.outline_coherent {source : String} (h : TokenList.lex source = .ok list) :
    Coherent list list.outline := by
  have hfresh := TokenList.lex_unedited h
  obtain ⟨kids, hout⟩ := TokenList.outline_outlined hfresh.wellFormed.threaded
  exact (hout.placed hfresh.wellFormed.threaded).coherent hfresh.wellFormed.threaded hfresh.loose
    hout.forest

/-- **The outline of every source.**  List and outline fit together, and the nodes of the
    outline begin and end with significant tokens; so it is of the items completed before an
    error, too.  In a file without an error, a walk from the root meets every node that was
    begun once, and every significant token lies in exactly one child of the root. -/
theorem TokenList.outline_invariants {source : String} (h : TokenList.lex source = .ok list) :
    Coherent list list.outline
      ∧ (∀ id range, list.outline.Attached id → id ≠ root →
          list.outline.tokens? id = some range →
          list.isSignificant range.first = true ∧ list.isSignificant range.last = true)
      ∧ ∀ tree, list.parse = .ok tree → tree = list.outline
        ∧ tree.nodes.size = (Outline.parse list.leaves).nodeCount
        ∧ tree.preOrder = (List.range tree.nodes.size).map NodeId.mk
        ∧ ∀ id ∈ list.ids, list.isSignificant id = true →
          ∃! item, item ∈ tree.children root
            ∧ ∃ range, tree.tokens? item = some range ∧ list.Inside range id := by
  have hfresh := TokenList.lex_unedited h
  have hlist := hfresh.wellFormed.threaded
  obtain ⟨kids, hout⟩ := TokenList.outline_outlined hlist
  refine ⟨TokenList.outline_coherent h, ?_, ?_⟩
  · intro id range hatt hroot hrange
    have hends := hout.ends hlist (hout.forest.attached_iff.mp hatt) hroot hrange
    exact ⟨hends.1.2, hends.2.2⟩
  · intro tree htree
    obtain ⟨rfl, hnone⟩ := TokenList.parse_eq_ok htree
    -- without an error all leaves were read
    obtain ⟨read, rest, hleaves, htiles, hdone⟩ := Outline.parse_ok (TokenList.leaves_nodup hlist)
    obtain ⟨rfl, hopened⟩ := hdone hnone
    rw [List.append_nil] at hleaves
    refine ⟨rfl, ?_, ?_, ?_⟩
    · rw [hout.size, Outline.Parsed.nodeCount, hopened, Nat.add_comm]
    · have hdepth : sizeAll (Outline.parse list.leaves).items < list.outline.walkBound := by
        unfold NodeTree.walkBound
        rw [hout.size]
        omega
      rw [hout.forest.preOrder_eq, ofSkeletons_listing hout.kids_root hout.planted hdepth,
        hout.size]
    -- a token that counts is a leaf, which one item covers; items do not overlap
    · intro id hid hsig
      obtain ⟨leaf, hleaf, rfl⟩ := (TokenList.mem_leaves_iff hlist).mpr ⟨hid, hsig⟩
      rw [hleaves] at hleaf
      obtain ⟨item, hitem, range, hrange, hin⟩ := covered_of_tiles hlist hout.planted htiles
        (by rw [hleaves]) hleaf
      rw [hout.forest.children_eq, hout.kids_root]
      refine ⟨item, ⟨hitem, range, hrange, hin⟩, ?_⟩
      rintro other ⟨hother, range', hrange', hin'⟩
      have hpair := hout.apart_root
      rw [hout.kids_root] at hpair
      exact eq_of_inside hpair hother hitem hrange' hrange hin' hin

/-- A function with an empty body: the root, the function, its parameter list and its body. -/
theorem TokenList.outline_invariants_function :
    ∃ list tree, TokenList.lex "void f() \x7b\x7d" = .ok list ∧ list.parse = .ok tree
      ∧ Coherent list tree ∧ tree.preOrder = [⟨0⟩, ⟨1⟩, ⟨2⟩, ⟨3⟩] := by
  have heval : (TokenList.lex "void f() \x7b\x7d").toOption.map
      (fun list => list.parse.toOption.map (·.nodes.size)) = some (some 4) := by decide +kernel
  cases hlex : TokenList.lex "void f() \x7b\x7d" with
  | error error =>
    rw [hlex] at heval
    simp [Except.toOption] at heval
  | ok list =>
    rw [hlex] at heval
    cases hparse : list.parse with
    | error error => simp [Except.toOption, hparse] at heval
    | ok tree =>
      have hsize : tree.nodes.size = 4 := by simpa [Except.toOption, hparse] using heval
      obtain ⟨hcoherent, -, hdone⟩ := TokenList.outline_invariants hlex
      obtain ⟨rfl, -, hwalk, -⟩ := hdone tree hparse
      rw [hsize] at hwalk
      exact ⟨list, list.outline, rfl, hparse, hcoherent, hwalk⟩

end KernelPrep
