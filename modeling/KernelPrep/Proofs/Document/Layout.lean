/-
  KernelPrep.Proofs.Document.Layout — how an outline lies over its token list.

  `Coherent list tree` says in terms of the list and the tree alone that both are well
  formed, that the root spans the file, that every other node of the tree spans linked
  tokens in order, that children lie inside their parents and that siblings follow one
  another.  Proofs about edits use `Placed` instead: it names the place of the first and of
  the last token of each node in the file, so that what an edit does to a tree is what it
  does to two numbers per node.

  Main definitions:
    * `TokenList.place` — the place of a token in the file;
    * `Coherent`        — list and tree fit together;
    * `Placed`          — the same with the places named.

  Main statements:
    * `Coherent.placed`, `Placed.coherent` — from one to the other.
-/
import Mathlib.Data.List.Nodup
import Mathlib.Data.List.Chain
import KernelPrep.Proofs.Node.Walk
import KernelPrep.Proofs.Token.Splicing

namespace KernelPrep

/-! ## §1. List and tree fit together -/

/-- The place of a linked token in the file. -/
def TokenList.place (list : TokenList) (id : TokenId) : Nat := list.ids.idxOf id

/-- The ends of the range are linked, the first at or before the last. -/
def TokenList.Spans (list : TokenList) (range : TokenRange) : Prop :=
  list.isLinked range.first = true ∧ list.isLinked range.last = true
    ∧ list.place range.first ≤ list.place range.last

/-- The token list and the outline are well formed and fit together. -/
structure Coherent (list : TokenList) (tree : NodeTree) : Prop where
  tokens : list.WellFormed
  links : tree.WellFormed
  /-- The root spans the file, and nothing when the file is empty. -/
  root : tree.tokens? NodeTree.root = list.whole?
  /-- Every other node of the tree spans linked tokens. -/
  spans : ∀ id, tree.Attached id → id ≠ NodeTree.root →
    ∃ range, tree.tokens? id = some range ∧ list.Spans range
  /-- Children lie inside their parents. -/
  nested : ∀ parent child outer inner, tree.Attached parent →
    tree.parent? child = some parent → tree.tokens? parent = some outer →
    tree.tokens? child = some inner →
    list.place outer.first ≤ list.place inner.first
      ∧ list.place inner.last ≤ list.place outer.last
  /-- A node ends before its next sibling begins. -/
  apart : ∀ parent, tree.Attached parent → (tree.children parent).IsChain fun a b =>
    ∀ ra rb, tree.tokens? a = some ra → tree.tokens? b = some rb →
      list.place ra.last < list.place rb.first

/-! ## §2. Named places -/

/-- The node `id` begins at place `lo id` of the file and ends at place `hi id`. -/
structure Placed (tokens? : NodeId → Option TokenRange) (file : List TokenId)
    (kids : NodeId → List NodeId) (lo hi : NodeId → Nat) : Prop where
  bare : file = [] → tokens? NodeTree.root = none ∧ kids NodeTree.root = []
  lo_root : lo NodeTree.root = 0
  hi_root : hi NodeTree.root = file.length - 1
  order : file ≠ [] → ∀ id, NodeTree.Below kids NodeTree.root id → lo id ≤ hi id
  range : file ≠ [] → ∀ id, NodeTree.Below kids NodeTree.root id →
    ∃ range, tokens? id = some range ∧ file[lo id]? = some range.first
      ∧ file[hi id]? = some range.last
  nested : ∀ parent child, NodeTree.Below kids NodeTree.root parent → child ∈ kids parent →
    lo parent ≤ lo child ∧ hi child ≤ hi parent
  apart : ∀ parent, NodeTree.Below kids NodeTree.root parent →
    (kids parent).Pairwise fun a b => hi a < lo b

namespace Placed

variable {tokens? : NodeId → Option TokenRange} {file : List TokenId}
  {kids : NodeId → List NodeId} {lo hi : NodeId → Nat}

/-- Everything below a node lies inside it. -/
theorem nested_below (h : Placed tokens? file kids lo hi) {top id : NodeId}
    (htop : NodeTree.Below kids NodeTree.root top) (hb : NodeTree.Below kids top id) :
    lo top ≤ lo id ∧ hi id ≤ hi top := by
  induction hb with
  | refl => exact ⟨Nat.le_refl _, Nat.le_refl _⟩
  | tail hmid hstep ih =>
    have hinner := h.nested _ _ (htop.trans hmid) hstep
    omega

/-- Of two nodes one is below the other, or one ends before the other begins. -/
theorem laminar (h : Placed tokens? file kids lo hi) {a b : NodeId}
    (ha : NodeTree.Below kids NodeTree.root a) (hb : NodeTree.Below kids NodeTree.root b) :
    NodeTree.Below kids a b ∨ NodeTree.Below kids b a ∨ hi a < lo b ∨ hi b < lo a := by
  induction ha with
  | refl => exact Or.inl hb
  | @tail parent a hparent hstep ih =>
    have hna := h.nested parent a hparent hstep
    -- by induction on the way down to `a`: only where `b` is below its parent is there more to say
    rcases ih with hpb | hbp | hlt | hlt
    · rcases Relation.ReflTransGen.cases_head hpb with rfl | ⟨c, hc, hcb⟩
      · exact Or.inr (Or.inl (Relation.ReflTransGen.single hstep))
      · -- both lie below a child of `parent`
        have hnb := h.nested_below (hparent.tail hc) hcb
        obtain ⟨i, hi, rfl⟩ := List.getElem_of_mem hstep
        obtain ⟨j, hj, rfl⟩ := List.getElem_of_mem hc
        have hapart := List.pairwise_iff_getElem.mp (h.apart parent hparent)
        rcases Nat.lt_trichotomy i j with hij | rfl | hij
        · have hlt := hapart i j hi hj hij
          exact Or.inr (Or.inr (Or.inl (by omega)))
        · exact Or.inl hcb
        · have hlt := hapart j i hj hi hij
          exact Or.inr (Or.inr (Or.inr (by omega)))
    · exact Or.inr (Or.inl (hbp.tail hstep))
    · exact Or.inr (Or.inr (Or.inl (by omega)))
    · exact Or.inr (Or.inr (Or.inr (by omega)))

end Placed

/-- The place of a token is where it stands. -/
theorem TokenList.Threaded.place_eq {list : TokenList} {file : List TokenId}
    (h : list.Threaded file) {i : Nat} {id : TokenId} (hget : file[i]? = some id) :
    list.place id = i := by
  obtain ⟨hlt, hid⟩ := List.getElem?_eq_some_iff.mp hget
  unfold TokenList.place
  rw [h.ids_eq, ← hid]
  exact h.nodup.idxOf_getElem i hlt

/-- A token is found at its place. -/
theorem TokenList.Threaded.getElem?_place {list : TokenList} {file : List TokenId}
    (h : list.Threaded file) {id : TokenId} (hlinked : list.isLinked id = true) :
    file[list.place id]? = some id := by
  have hmem := (h.linked_iff id).mp hlinked
  obtain ⟨i, hlt, hget⟩ := List.getElem_of_mem hmem
  have hget' : file[i]? = some id := List.getElem?_eq_some_iff.mpr ⟨hlt, hget⟩
  rw [h.place_eq hget']
  exact hget'

/-- A list without tokens has no whole; any other goes from its first token to its last. -/
theorem TokenList.Threaded.whole?_eq {list : TokenList} {file : List TokenId}
    (h : list.Threaded file) :
    (file = [] → list.whole? = none) ∧
      (file ≠ [] → ∃ range, list.whole? = some range ∧ file[0]? = some range.first
        ∧ file[file.length - 1]? = some range.last) := by
  unfold TokenList.whole?
  rw [h.head, h.tail]
  constructor
  · rintro rfl
    rfl
  · intro hne
    rw [List.head?_eq_some_head hne, List.getLast?_eq_some_getLast hne]
    refine ⟨_, rfl, ?_, ?_⟩
    · rw [← List.head?_eq_getElem?]
      exact List.head?_eq_some_head hne
    · rw [← List.getLast?_eq_getElem?]
      exact List.getLast?_eq_some_getLast hne

/-! ## §3. From one to the other -/

/-- If each node begins before it ends, then neighbours in order are all in order. -/
theorem pairwise_of_isChain {lo hi : NodeId → Nat} {ids : List NodeId}
    (h : ids.IsChain fun a b => hi a < lo b) (horder : ∀ id ∈ ids, lo id ≤ hi id) :
    ids.Pairwise fun a b => hi a < lo b := by
  have htrans : Trans (fun a b : NodeId => hi a < lo b ∧ lo b ≤ hi b)
      (fun a b => hi a < lo b ∧ lo b ≤ hi b) (fun a b => hi a < lo b ∧ lo b ≤ hi b) :=
    ⟨fun {a b c} hab hbc => ⟨by omega, hbc.2⟩⟩
  have hchain : ids.IsChain fun a b => hi a < lo b ∧ lo b ≤ hi b :=
    h.imp_of_mem_imp fun a b _ hb hlt => ⟨hlt, horder b hb⟩
  exact (List.isChain_iff_pairwise.mp hchain).imp fun hab => hab.1

section Convert

variable {list : TokenList} {tree : NodeTree} {file : List TokenId}
  {kids : NodeId → List NodeId} {lo hi : NodeId → Nat}

/-- Where a node of the tree has tokens the file has. -/
theorem Placed.ne_nil (h : Placed tree.tokens? file kids lo hi) {id : NodeId}
    (hid : NodeTree.Below kids NodeTree.root id)
    (hhas : id ≠ NodeTree.root ∨ (tree.tokens? id).isSome = true) : file ≠ [] := by
  intro hnil
  obtain ⟨hnone, hkids⟩ := h.bare hnil
  rcases Relation.ReflTransGen.cases_head hid with rfl | ⟨c, hc, -⟩
  · rw [hnone] at hhas
    simp at hhas
  · rw [hkids] at hc
    simp at hc

/-- The places of a node are those of the ends of its range. -/
theorem Placed.place_eq (h : Placed tree.tokens? file kids lo hi) (hlist : list.Threaded file)
    {id : NodeId} {range : TokenRange} (hid : NodeTree.Below kids NodeTree.root id)
    (hrange : tree.tokens? id = some range) :
    list.place range.first = lo id ∧ list.place range.last = hi id := by
  obtain ⟨range', hrange', hfirst, hlast⟩ := h.range (h.ne_nil hid (.inr (by simp [hrange]))) id hid
  rw [hrange] at hrange'
  obtain rfl := Option.some.inj hrange'
  exact ⟨hlist.place_eq hfirst, hlist.place_eq hlast⟩

/-- The root spans the file. -/
theorem Placed.tokens?_root (h : Placed tree.tokens? file kids lo hi)
    (hlist : list.Threaded file) : tree.tokens? NodeTree.root = list.whole? := by
  by_cases hne : file = []
  · rw [hlist.whole?_eq.1 hne, (h.bare hne).1]
  · obtain ⟨whole, hwhole, hfirst, hlast⟩ := hlist.whole?_eq.2 hne
    obtain ⟨range, hrange, hfirst', hlast'⟩ := h.range hne _ Relation.ReflTransGen.refl
    rw [h.lo_root, hfirst] at hfirst'
    rw [h.hi_root, hlast] at hlast'
    have heq : whole = range := by
      have hbegin : whole.first = range.first := Option.some.inj hfirst'
      have hend : whole.last = range.last := Option.some.inj hlast'
      cases whole
      cases range
      exact congrArg₂ TokenRange.mk hbegin hend
    rw [hrange, hwhole, heq]

/-- **From named places** to a tree that fits its token list. -/
theorem Placed.coherent (h : Placed tree.tokens? file kids lo hi) (hlist : list.Threaded file)
    (hloose : list.Loose) (hforest : tree.Forest kids) : Coherent list tree := by
  have hbelow : ∀ {id}, tree.Attached id → NodeTree.Below kids NodeTree.root id :=
    fun ha => hforest.attached_iff.mp ha
  constructor
  case tokens => exact hlist.wellFormed hloose
  case links => exact hforest.wellFormed
  case root => exact h.tokens?_root hlist
  case spans =>
    intro id ha hroot
    obtain ⟨range, hrange, hfirst, hlast⟩ :=
      h.range (h.ne_nil (hbelow ha) (.inl hroot)) id (hbelow ha)
    refine ⟨range, hrange, (hlist.linked_iff _).mpr (List.mem_of_getElem? hfirst),
      (hlist.linked_iff _).mpr (List.mem_of_getElem? hlast), ?_⟩
    -- a place in the file is where a token of it stands, as no token is there twice
    rw [hlist.place_eq hfirst, hlist.place_eq hlast]
    exact h.order (h.ne_nil (hbelow ha) (.inl hroot)) id (hbelow ha)
  case nested =>
    intro parent child outer inner ha hp houter hinner
    obtain ⟨hlo, hhi⟩ := h.place_eq hlist (hbelow ha) houter
    obtain ⟨hlo', hhi'⟩ := h.place_eq hlist (hbelow (.child ha hp)) hinner
    rw [hlo, hhi, hlo', hhi']
    exact h.nested parent child (hbelow ha) ((hforest.parent_iff parent child).mp hp)
  case apart =>
    intro parent ha
    rw [hforest.children_eq]
    refine (List.Pairwise.imp_of_mem ?_ (h.apart parent (hbelow ha))).isChain
    intro a b hma hmb hlt ra rb hra hrb
    have hchild : ∀ {c}, c ∈ kids parent → NodeTree.Below kids NodeTree.root c :=
      fun hc => (hbelow ha).tail hc
    rw [(h.place_eq hlist (hchild hma) hra).2, (h.place_eq hlist (hchild hmb) hrb).1]
    exact hlt

/-- The place where a node begins. -/
def firstPlace (list : TokenList) (tree : NodeTree) (id : NodeId) : Nat :=
  ((tree.tokens? id).map fun range => list.place range.first).getD 0

/-- The place where a node ends. -/
def lastPlace (list : TokenList) (tree : NodeTree) (id : NodeId) : Nat :=
  ((tree.tokens? id).map fun range => list.place range.last).getD 0

theorem firstPlace_eq {id : NodeId} {range : TokenRange} (h : tree.tokens? id = some range) :
    firstPlace list tree id = list.place range.first := by
  unfold firstPlace
  rw [h]
  rfl

theorem lastPlace_eq {id : NodeId} {range : TokenRange} (h : tree.tokens? id = some range) :
    lastPlace list tree id = list.place range.last := by
  unfold lastPlace
  rw [h]
  rfl

theorem Coherent.exists_root (h : Coherent list tree) (hne : list.ids ≠ []) :
    ∃ range, tree.tokens? NodeTree.root = some range ∧ list.ids[0]? = some range.first
      ∧ list.ids[list.ids.length - 1]? = some range.last := by
  rw [h.root]
  exact h.tokens.threaded.whole?_eq.2 hne

/-- Every node of the tree spans linked tokens, the root included. -/
theorem Coherent.exists_spans (h : Coherent list tree) (hne : list.ids ≠ []) {id : NodeId}
    (ha : tree.Attached id) : ∃ range, tree.tokens? id = some range ∧ list.Spans range := by
  have hlist := h.tokens.threaded
  by_cases hid : id = NodeTree.root
  · obtain ⟨range, hrange, hfirst, hlast⟩ := h.exists_root hne
    rw [← hid] at hrange
    refine ⟨range, hrange, (hlist.linked_iff _).mpr (List.mem_of_getElem? hfirst),
      (hlist.linked_iff _).mpr (List.mem_of_getElem? hlast), ?_⟩
    rw [hlist.place_eq hfirst, hlist.place_eq hlast]
    omega
  · exact h.spans id ha hid

/-- The tree of an empty file is its root alone. -/
theorem Coherent.bare (h : Coherent list tree) (hnil : list.ids = []) :
    tree.tokens? NodeTree.root = none ∧ tree.children NodeTree.root = [] := by
  have hlist := h.tokens.threaded
  have hforest : tree.Forest tree.children := h.links
  refine ⟨by rw [h.root, hlist.whole?_eq.1 hnil], ?_⟩
  by_contra hne
  obtain ⟨c, hc⟩ := List.exists_mem_of_ne_nil _ hne
  have hp := (hforest.parent_iff _ c).mpr hc
  have hcr := hforest.child_ne_root hc
  -- a child of the root would span linked tokens
  obtain ⟨range, -, hlinked, -⟩ := h.spans c (.child .root hp) hcr
  have hmem := (hlist.linked_iff _).mp hlinked
  rw [hnil] at hmem
  simp at hmem

/-- A tree with a child somewhere is that of a file with tokens. -/
theorem Coherent.ids_ne_nil (h : Coherent list tree) {parent child : NodeId}
    (hparent : NodeTree.Below tree.children NodeTree.root parent)
    (hchild : child ∈ tree.children parent) : list.ids ≠ [] := by
  intro hnil
  have hnone := (h.bare hnil).2
  rcases Relation.ReflTransGen.cases_head hparent with rfl | ⟨c, hc, -⟩
  · rw [hnone] at hchild
    simp at hchild
  · rw [hnone] at hc
    simp at hc

/-- **From a tree that fits its token list** to named places. -/
theorem Coherent.placed (h : Coherent list tree) :
    Placed tree.tokens? list.ids tree.children (firstPlace list tree) (lastPlace list tree) := by
  have hlist := h.tokens.threaded
  have hforest : tree.Forest tree.children := h.links
  have hattached : ∀ {id}, NodeTree.Below tree.children NodeTree.root id → tree.Attached id :=
    fun hb => hforest.attached_iff.mpr hb
  -- a child of a node of the tree spans tokens
  have hchild : ∀ {parent c}, NodeTree.Below tree.children NodeTree.root parent →
      c ∈ tree.children parent → ∃ range, tree.tokens? c = some range ∧ list.Spans range :=
    fun hb hc => h.exists_spans (h.ids_ne_nil hb hc) (hattached (hb.tail hc))
  constructor
  case bare => exact h.bare
  case lo_root =>
    by_cases hne : list.ids = []
    · unfold firstPlace
      rw [(h.bare hne).1]
      rfl
    · obtain ⟨range, hrange, hget, -⟩ := h.exists_root hne
      rw [firstPlace_eq hrange, hlist.place_eq hget]
  case hi_root =>
    by_cases hne : list.ids = []
    · unfold lastPlace
      rw [(h.bare hne).1, hne]
      rfl
    · obtain ⟨range, hrange, -, hget⟩ := h.exists_root hne
      rw [lastPlace_eq hrange, hlist.place_eq hget]
  case order =>
    intro hne id hb
    obtain ⟨range, hrange, hspan⟩ := h.exists_spans hne (hattached hb)
    rw [firstPlace_eq hrange, lastPlace_eq hrange]
    exact hspan.2.2
  case range =>
    intro hne id hb
    obtain ⟨range, hrange, hspan⟩ := h.exists_spans hne (hattached hb)
    rw [firstPlace_eq hrange, lastPlace_eq hrange]
    exact ⟨range, hrange, hlist.getElem?_place hspan.1, hlist.getElem?_place hspan.2.1⟩
  case nested =>
    intro parent child hb hc
    obtain ⟨outer, houter, -⟩ := h.exists_spans (h.ids_ne_nil hb hc) (hattached hb)
    obtain ⟨inner, hinner, -⟩ := hchild hb hc
    rw [firstPlace_eq houter, firstPlace_eq hinner, lastPlace_eq houter, lastPlace_eq hinner]
    exact h.nested parent child outer inner (hattached hb)
      ((hforest.parent_iff parent child).mpr hc) houter hinner
  case apart =>
    intro parent hb
    refine pairwise_of_isChain ?_ fun c hc => ?_
    · refine (h.apart parent (hattached hb)).imp_of_mem_imp fun a b ha hmb hlt => ?_
      obtain ⟨ra, hra, -⟩ := hchild hb ha
      obtain ⟨rb, hrb, -⟩ := hchild hb hmb
      rw [lastPlace_eq hra, firstPlace_eq hrb]
      exact hlt ra rb hra hrb
    · obtain ⟨range, hrange, hspan⟩ := hchild hb hc
      rw [firstPlace_eq hrange, lastPlace_eq hrange]
      exact hspan.2.2

end Convert

end KernelPrep
