/-
  KernelPrep.Proofs.Document.Ownership — every token is the own one of a single node.

  A node has for itself the significant tokens of its range that are in no child's.  They are
  read off in one pass, which follows the children as it goes and skips each of them as a
  whole.  As long as list and outline fit together the pass stays in step with the children, so
  that the own tokens of the nodes make up the file: each of them belongs to the innermost node
  around it, and to no other.

  Main definitions:
    * `Document.Ahead`      — what the pass over a range has ahead;
    * `Document.Spans`      — a token in the range of a node;
    * `Document.Innermost`  — the innermost node around a token;
    * `Document.Apportions` — the tokens of the file fall to the nodes of its outline.

  Main statements:
    * `Document.mem_ownFrom_iff`     — which tokens the pass takes;
    * `Document.mem_ownTokens_iff`   — which tokens a node has for itself;
    * `Coherent.exists_innermost`    — there is an innermost node around each token;
    * `Document.ownTokens_apportion` — the tokens of the file fall to the innermost nodes.
-/
import KernelPrep.Proofs.Document.Coherence

namespace KernelPrep

open NodeTree (Below Forest root)

/-! ## §1. The pass over a range -/

/-- Own tokens are among the tokens looked at, in their order. -/
theorem Document.ownFrom_sublist (list : TokenList) (stop? : Option TokenId)
    (children : List TokenRange) (ids : List TokenId) :
    (Document.ownFrom list stop? children ids).Sublist ids := by
  fun_induction Document.ownFrom list stop? children ids with
  | case1 => exact List.Sublist.refl _
  | case2 stop children id rest ih => exact ih.cons id
  | case3 child children rest ih => exact ih.cons _
  | case4 child children id rest _ _ ih => exact ih.cons_cons id
  | case5 child children id rest _ _ ih => exact ih.cons id
  | case6 id rest _ ih => exact ih.cons_cons id
  | case7 id rest _ ih => exact ih.cons id

/-- Only the significance of tokens and the ranges decide which are a node's own. -/
theorem Document.ownFrom_congr {list list' : TokenList} {ids : List TokenId}
    (h : ∀ x ∈ ids, list'.isSignificant x = list.isSignificant x) (stop? : Option TokenId)
    (children : List TokenRange) :
    Document.ownFrom list' stop? children ids = Document.ownFrom list stop? children ids := by
  induction ids generalizing stop? children with
  | nil => cases stop? <;> cases children <;> rfl
  | cons id rest ih =>
    have ih := fun stop? children => ih (fun x hx => h x (List.mem_cons_of_mem _ hx)) stop? children
    have hid := h id List.mem_cons_self
    cases stop? with
    | some stop =>
      unfold Document.ownFrom
      exact ih _ _
    | none =>
      cases children with
      | nil =>
        unfold Document.ownFrom
        rw [hid, ih]
      | cons child children =>
        unfold Document.ownFrom
        rw [hid, ih, ih]

/-- The own tokens of a range are significant. -/
theorem Document.ownFrom_significant {list : TokenList} {ids : List TokenId}
    {stop? : Option TokenId} {children : List TokenRange} {x : TokenId}
    (h : x ∈ Document.ownFrom list stop? children ids) : list.isSignificant x = true := by
  fun_induction Document.ownFrom list stop? children ids with
  | case1 => simp at h
  | case2 stop children id rest ih => exact ih h
  | case3 child children rest ih => exact ih h
  | case4 child children id rest _ hsig ih =>
    rcases List.mem_cons.mp h with rfl | h
    · exact hsig
    · exact ih h
  | case5 child children id rest _ _ ih => exact ih h
  | case6 id rest hsig ih =>
    rcases List.mem_cons.mp h with rfl | h
    · exact hsig
    · exact ih h
  | case7 id rest _ ih => exact ih h

/-- What a pass has ahead: ranges among the tokens, one behind the other, and behind the end of
    the range that is being passed. -/
structure Document.Ahead (place : TokenId → Nat) (ids : List TokenId) (stop? : Option TokenId)
    (children : List TokenRange) : Prop where
  stop : ∀ s, stop? = some s → s ∈ ids
  ends : ∀ c ∈ children, c.first ∈ ids ∧ c.last ∈ ids ∧ place c.first ≤ place c.last
  apart : children.Pairwise fun a b => place a.last < place b.first
  beyond : ∀ s, stop? = some s → ∀ c ∈ children, place s < place c.first

namespace Document.Ahead

variable {place : TokenId → Nat} {id stop : TokenId} {rest : List TokenId}
  {stop? : Option TokenId} {child : TokenRange} {children : List TokenRange}

/-- What is behind the first token is among the others. -/
theorem mem_rest {x : TokenId} (hx : x ∈ id :: rest) (hlt : place id < place x) : x ∈ rest := by
  refine (List.mem_cons.mp hx).resolve_left ?_
  rintro rfl
  exact Nat.lt_irrefl _ hlt

/-- A token that is passed leaves ahead the ranges that begin behind it. -/
theorem tail {cs : List TokenRange} {stop'? : Option TokenId}
    (h : Ahead place (id :: rest) stop? children) (hsub : cs.Sublist children)
    (hfar : ∀ c ∈ cs, place id < place c.first)
    (hstop : ∀ s, stop'? = some s → s ∈ rest ∧ ∀ c ∈ cs, place s < place c.first) :
    Ahead place rest stop'? cs where
  stop := fun s hs => (hstop s hs).1
  ends := by
    intro c hc
    obtain ⟨hfirst, hlast, hle⟩ := h.ends c (hsub.subset hc)
    exact ⟨mem_rest hfirst (hfar c hc), mem_rest hlast (Nat.lt_of_lt_of_le (hfar c hc) hle), hle⟩
  apart := h.apart.sublist hsub
  beyond := fun s hs => (hstop s hs).2

/-- One token more of the range that is being passed. -/
theorem pass (h : Ahead place (id :: rest) (some stop) children)
    (hid : ∀ x ∈ rest, place id < place x) :
    place id ≤ place stop
      ∧ Ahead place rest (if id = stop then none else some stop) children := by
  have hmem := h.stop stop rfl
  have hle : place id ≤ place stop := by
    rcases List.mem_cons.mp hmem with rfl | hin
    · exact Nat.le_refl _
    · exact Nat.le_of_lt (hid _ hin)
  refine ⟨hle, h.tail (List.Sublist.refl _)
    (fun c hc => Nat.lt_of_le_of_lt hle (h.beyond stop rfl c hc)) fun s hs => ?_⟩
  split at hs
  · simp at hs
  · rename_i hne
    obtain rfl := Option.some.inj hs
    exact ⟨(List.mem_cons.mp hmem).resolve_left (Ne.symm hne), h.beyond _ rfl⟩

/-- The first token of a range, which is passed from there on. -/
theorem enter (h : Ahead place (id :: rest) none (child :: children)) (hfirst : child.first = id) :
    Ahead place rest (if child.last = id then none else some child.last) children := by
  obtain ⟨hbefore, -⟩ := List.pairwise_cons.mp h.apart
  obtain ⟨-, hlast, hle⟩ := h.ends child List.mem_cons_self
  rw [hfirst] at hle
  refine h.tail (List.sublist_cons_self _ _)
    (fun c hc => Nat.lt_of_le_of_lt hle (hbefore c hc)) fun s hs => ?_
  split at hs
  · simp at hs
  · rename_i hne
    obtain rfl := Option.some.inj hs
    exact ⟨(List.mem_cons.mp hlast).resolve_left hne, hbefore⟩

/-- A token before all ranges. -/
theorem skip (h : Ahead place (id :: rest) none children)
    (hid : ∀ x ∈ rest, place id < place x)
    (hfirst : ∀ child, children.head? = some child → child.first ≠ id) :
    (∀ c ∈ children, place id < place c.first) ∧ Ahead place rest none children := by
  have hfar : ∀ c ∈ children, place id < place c.first := by
    cases children with
    | nil => simp
    | cons child children =>
      obtain ⟨hbefore, -⟩ := List.pairwise_cons.mp h.apart
      obtain ⟨hmem, -, hle⟩ := h.ends child List.mem_cons_self
      have hnear := hid _ ((List.mem_cons.mp hmem).resolve_left (hfirst child rfl))
      intro c hc
      rcases List.mem_cons.mp hc with rfl | hc
      · exact hnear
      · have hfar := hbefore c hc
        omega
  exact ⟨hfar, h.tail (List.Sublist.refl _) hfar (by simp)⟩

end Document.Ahead

/-- A significant token before all ranges is taken. -/
theorem Document.mem_taken {list : TokenList} {id x : TokenId} {own rest : List TokenId}
    {P : Prop} (hown : x ∈ own ↔ x ∈ rest ∧ list.isSignificant x = true ∧ P)
    (hsig : list.isSignificant id = true) (hout : x = id → P) :
    x ∈ id :: own ↔ x ∈ id :: rest ∧ list.isSignificant x = true ∧ P := by
  rw [List.mem_cons, List.mem_cons, hown]
  constructor
  · rintro (rfl | ⟨hin, hx, hp⟩)
    · exact ⟨.inl rfl, hsig, hout rfl⟩
    · exact ⟨.inr hin, hx, hp⟩
  · rintro ⟨rfl | hin, hx, hp⟩
    · exact .inl rfl
    · exact .inr ⟨hin, hx, hp⟩

/-- Any other token is left out wherever it lies. -/
theorem Document.mem_left {list : TokenList} {id x : TokenId} {own rest : List TokenId}
    {P : Prop} (hown : x ∈ own ↔ x ∈ rest ∧ list.isSignificant x = true ∧ P)
    (hnot : ¬ list.isSignificant id = true) :
    x ∈ own ↔ x ∈ id :: rest ∧ list.isSignificant x = true ∧ P := by
  rw [hown, List.mem_cons]
  refine and_congr_left fun hx => (or_iff_right ?_).symm
  rintro rfl
  exact hnot hx.1

/-- **The tokens taken by a pass** are the significant ones behind the range that is being passed
    and outside of the ranges ahead. -/
theorem Document.mem_ownFrom_iff (place : TokenId → Nat) {list : TokenList} {ids : List TokenId}
    (hids : ids.Pairwise fun a b => place a < place b) {stop? : Option TokenId}
    {children : List TokenRange} (h : Document.Ahead place ids stop? children) {x : TokenId} :
    x ∈ Document.ownFrom list stop? children ids
      ↔ x ∈ ids ∧ list.isSignificant x = true ∧ (∀ s, stop? = some s → place s < place x)
        ∧ ∀ c ∈ children, place x < place c.first ∨ place c.last < place x := by
  fun_induction Document.ownFrom list stop? children ids with
  | case1 => simp
  -- within a child that was entered: tokens are passed until its last one is met
  | case2 stop children id rest ih =>
    obtain ⟨hid, hrest⟩ := List.pairwise_cons.mp hids
    obtain ⟨hle, hnext⟩ := h.pass hid
    rw [ih hrest hnext]
    constructor
    · rintro ⟨hin, hsig, hbehind, hout⟩
      refine ⟨List.mem_cons_of_mem _ hin, hsig, ?_, hout⟩
      rintro s hs
      obtain rfl := Option.some.inj hs
      by_cases he : id = stop
      · exact he ▸ hid x hin
      · exact hbehind stop (if_neg he)
    · rintro ⟨hin, hsig, hbehind, hout⟩
      have hlt := hbehind stop rfl
      refine ⟨Document.Ahead.mem_rest hin (Nat.lt_of_le_of_lt hle hlt), hsig, fun s hs => ?_, hout⟩
      split at hs
      · simp at hs
      · exact Option.some.inj hs ▸ hlt
  -- the first token of the next child: the child is entered
  | case3 child children rest ih =>
    obtain ⟨hid, hrest⟩ := List.pairwise_cons.mp hids
    obtain ⟨-, -, horder⟩ := h.ends child List.mem_cons_self
    rw [ih hrest (h.enter rfl), List.forall_mem_cons]
    constructor
    · rintro ⟨hin, hsig, hbehind, hout⟩
      refine ⟨List.mem_cons_of_mem _ hin, hsig, by simp, .inr ?_, hout⟩
      by_cases he : child.last = child.first
      · exact he ▸ hid x hin
      · exact hbehind child.last (if_neg he)
    · rintro ⟨hin, hsig, -, haway, hout⟩
      have hin : x ∈ rest := by
        refine (List.mem_cons.mp hin).resolve_left ?_
        rintro rfl
        omega
      have hlt := hid x hin
      refine ⟨hin, hsig, fun s hs => ?_, hout⟩
      split at hs
      · simp at hs
      · obtain rfl := Option.some.inj hs
        omega
  -- a token before the next child, taken or left by whether it counts
  | case4 child children id rest hfirst hsig ih =>
    obtain ⟨hid, hrest⟩ := List.pairwise_cons.mp hids
    obtain ⟨hfar, hnext⟩ := h.skip hid fun c hc => Option.some.inj hc ▸ hfirst
    refine Document.mem_taken (ih hrest hnext) hsig ?_
    rintro rfl
    exact ⟨by simp, fun c hc => .inl (hfar c hc)⟩
  | case5 child children id rest hfirst hsig ih =>
    obtain ⟨hid, hrest⟩ := List.pairwise_cons.mp hids
    obtain ⟨-, hnext⟩ := h.skip hid fun c hc => Option.some.inj hc ▸ hfirst
    exact Document.mem_left (ih hrest hnext) hsig
  -- no child is ahead
  | case6 id rest hsig ih =>
    obtain ⟨hid, hrest⟩ := List.pairwise_cons.mp hids
    exact Document.mem_taken (ih hrest (h.skip hid (by simp)).2) hsig fun _ => by simp
  | case7 id rest hsig ih =>
    obtain ⟨hid, hrest⟩ := List.pairwise_cons.mp hids
    exact Document.mem_left (ih hrest (h.skip hid (by simp)).2) hsig

/-- **The tokens of a range** are those between the places of its ends. -/
theorem TokenList.Threaded.range_between {list : TokenList} {file : List TokenId}
    (h : list.Threaded file) {range : TokenRange} (hfirst : range.first ∈ file)
    (hlast : range.last ∈ file) (hle : list.place range.first ≤ list.place range.last) :
    list.range range <:+: file
      ∧ ∀ x, x ∈ list.range range
        ↔ x ∈ file ∧ list.place range.first ≤ list.place x
          ∧ list.place x ≤ list.place range.last := by
  have hpair := h.pairwise_place
  obtain ⟨before, behind, hfile⟩ := List.append_of_mem hfirst
  rw [hfile] at hpair hlast
  obtain ⟨-, hfrom, hbefore⟩ := List.pairwise_append.mp hpair
  have hin : range.last ∈ range.first :: behind := by
    refine (List.mem_append.mp hlast).resolve_left fun hin => ?_
    have hlt := hbefore _ hin range.first List.mem_cons_self
    omega
  obtain ⟨inner, after, hsplit⟩ := List.append_of_mem hin
  -- the file falls into what is before the range, the range and what is behind it
  have hmiddle : range.first :: behind = (inner ++ [range.last]) ++ after := by simp [hsplit]
  have hhead : (inner ++ [range.last]).head? = some range.first := by
    cases inner with
    | nil => simpa using (List.cons.inj hsplit).1.symm
    | cons first inner => simpa using (List.cons.inj hsplit).1.symm
  have hrange : list.range range = inner ++ [range.last] := by
    have hthread : list.Threaded (before ++ (inner ++ [range.last]) ++ after) := by
      rw [List.append_assoc, ← hmiddle, ← hfile]
      exact h
    exact hthread.range_eq hhead (by simp)
  rw [hmiddle] at hfrom hbefore
  rw [hrange]
  obtain ⟨hinside, -, hafter⟩ := List.pairwise_append.mp hfrom
  refine ⟨⟨before, after, by rw [hfile, hmiddle, List.append_assoc]⟩,
    fun x => ⟨fun hx => ⟨?_, ?_, ?_⟩, ?_⟩⟩
  · rw [hfile, hmiddle]
    exact List.mem_append_right _ (List.mem_append_left _ hx)
  · obtain ⟨rest, hrest⟩ := List.head?_eq_some_iff.mp hhead
    rw [hrest] at hx hinside
    rcases List.mem_cons.mp hx with rfl | hx
    · exact Nat.le_refl _
    · exact Nat.le_of_lt ((List.pairwise_cons.mp hinside).1 x hx)
  · rcases List.mem_append.mp hx with hx | hx
    · exact Nat.le_of_lt ((List.pairwise_append.mp hinside).2.2 x hx _ List.mem_cons_self)
    · rw [List.mem_singleton.mp hx]
  · rintro ⟨hx, hlow, hhigh⟩
    rw [hfile, hmiddle] at hx
    rcases List.mem_append.mp hx with hx | hx
    · have hlt := hbefore x hx range.first (by
        rw [← hmiddle]
        exact List.mem_cons_self)
      omega
    · refine (List.mem_append.mp hx).resolve_right fun hx => ?_
      have hlt := hafter range.last (by simp) x hx
      omega

/-- **The own tokens of a node** whose children are apart and in order: the significant ones
    between its ends and outside of its children. -/
theorem Document.mem_ownTokens_iff {doc : Document} {file : List TokenId}
    (h : doc.tokens.Threaded file) {node : NodeId} {range : NodeId → TokenRange}
    (hnode : doc.tree.tokens? node = some (range node))
    (hkids : ∀ c ∈ doc.tree.children node, doc.tree.tokens? c = some (range c)
      ∧ doc.tokens.place (range node).first ≤ doc.tokens.place (range c).first
      ∧ doc.tokens.place (range c).last ≤ doc.tokens.place (range node).last)
    (hends : ∀ c ∈ node :: doc.tree.children node, (range c).first ∈ file ∧ (range c).last ∈ file
      ∧ doc.tokens.place (range c).first ≤ doc.tokens.place (range c).last)
    (hapart : (doc.tree.children node).Pairwise fun a b =>
      doc.tokens.place (range a).last < doc.tokens.place (range b).first) {x : TokenId} :
    x ∈ doc.ownTokens node
      ↔ (x ∈ file ∧ doc.tokens.place (range node).first ≤ doc.tokens.place x
          ∧ doc.tokens.place x ≤ doc.tokens.place (range node).last)
        ∧ (∀ c ∈ doc.tree.children node, doc.tokens.place x < doc.tokens.place (range c).first
          ∨ doc.tokens.place (range c).last < doc.tokens.place x)
        ∧ doc.tokens.isSignificant x = true := by
  obtain ⟨hfirst, hlast, hle⟩ := hends node List.mem_cons_self
  obtain ⟨hstretch, hmem⟩ := h.range_between hfirst hlast hle
  have hpair := h.pairwise_place.sublist hstretch.sublist
  have hranges : (doc.tree.children node).filterMap doc.tree.tokens?
      = (doc.tree.children node).map range := by
    rw [← List.filterMap_eq_map]
    exact List.filterMap_congr fun c hc => (hkids c hc).1
  have hown : doc.ownTokens node = Document.ownFrom doc.tokens none
      ((doc.tree.children node).map range) (doc.tokens.range (range node)) := by
    unfold Document.ownTokens
    rw [hnode]
    dsimp only
    rw [hranges]
  -- the ranges of the children lie within that of the node
  have hinside : ∀ r ∈ (doc.tree.children node).map range,
      r.first ∈ doc.tokens.range (range node) ∧ r.last ∈ doc.tokens.range (range node)
        ∧ doc.tokens.place r.first ≤ doc.tokens.place r.last := by
    intro r hr
    obtain ⟨d, hd, rfl⟩ := List.mem_map.mp hr
    obtain ⟨-, hlow, hhigh⟩ := hkids d hd
    obtain ⟨hin, hin', horder⟩ := hends d (List.mem_cons_of_mem _ hd)
    exact ⟨(hmem _).mpr ⟨hin, hlow, by omega⟩, (hmem _).mpr ⟨hin', by omega, hhigh⟩, horder⟩
  have hahead : Document.Ahead doc.tokens.place (doc.tokens.range (range node)) none
      ((doc.tree.children node).map range) :=
    ⟨by simp, hinside, List.pairwise_map.mpr hapart, by simp⟩
  rw [hown, Document.mem_ownFrom_iff doc.tokens.place hpair hahead, hmem, List.forall_mem_map]
  simp only [reduceCtorEq, false_implies, implies_true, true_and]
  tauto

/-! ## §2. Innermost nodes -/

/-- The token is in the range of the node. -/
def Document.Spans (doc : Document) (node : NodeId) (id : TokenId) : Prop :=
  ∃ range, doc.tree.tokens? node = some range
    ∧ doc.tokens.place range.first ≤ doc.tokens.place id
    ∧ doc.tokens.place id ≤ doc.tokens.place range.last

/-- The node is the innermost one around the token: every node of the tree around the token is
    the node itself or above it. -/
structure Document.Innermost (doc : Document) (id : TokenId) (node : NodeId) : Prop where
  attached : doc.tree.Attached node
  spans : doc.Spans node id
  above : ∀ other, doc.tree.Attached other → doc.Spans other id →
    Below doc.tree.children other node

/-- No token has two innermost nodes around it. -/
theorem Document.Innermost.unique {doc : Document} (h : doc.tree.WellFormed) {id : TokenId}
    {a b : NodeId} (ha : doc.Innermost id a) (hb : doc.Innermost id b) : a = b := by
  rcases Relation.ReflTransGen.cases_head (hb.above a ha.attached ha.spans) with he | ⟨c, hc, hcb⟩
  · exact he
  · exact absurd (hcb.trans (ha.above b hb.attached hb.spans)) (h.not_below_parent hc)

namespace Coherent

variable {doc : Document} {id : TokenId} {node : NodeId}

/-- The range of a node of a tree that is not empty, by its places. -/
theorem exists_range (h : Coherent doc.tokens doc.tree) (hne : doc.tokens.ids ≠ [])
    (hnode : doc.tree.Attached node) :
    ∃ range, doc.tree.tokens? node = some range ∧ range.first ∈ doc.tokens.ids
      ∧ range.last ∈ doc.tokens.ids
      ∧ doc.tokens.place range.first = firstPlace doc.tokens doc.tree node
      ∧ doc.tokens.place range.last = lastPlace doc.tokens doc.tree node := by
  have hforest : doc.tree.Forest doc.tree.children := h.links
  obtain ⟨range, hrange, hfirst, hlast⟩ := h.placed.range hne node (hforest.attached_iff.mp hnode)
  exact ⟨range, hrange, List.mem_of_getElem? hfirst, List.mem_of_getElem? hlast,
    h.tokens.threaded.place_eq hfirst, h.tokens.threaded.place_eq hlast⟩

/-- A node spans the tokens from its first place to its last. -/
theorem spans_iff (h : Coherent doc.tokens doc.tree) (hne : doc.tokens.ids ≠ [])
    (hnode : doc.tree.Attached node) :
    doc.Spans node id ↔ firstPlace doc.tokens doc.tree node ≤ doc.tokens.place id
      ∧ doc.tokens.place id ≤ lastPlace doc.tokens doc.tree node := by
  obtain ⟨range, hrange, -, -, hfirst, hlast⟩ := h.exists_range hne hnode
  rw [← hfirst, ← hlast]
  constructor
  · rintro ⟨range', hrange', hspans⟩
    rw [hrange] at hrange'
    obtain rfl := Option.some.inj hrange'
    exact hspans
  · intro hspans
    exact ⟨range, hrange, hspans⟩

/-- **A node around a token with no child around it** is the innermost one. -/
theorem innermost_iff (h : Coherent doc.tokens doc.tree) (hne : doc.tokens.ids ≠ [])
    (hnode : doc.tree.Attached node) :
    doc.Innermost id node
      ↔ doc.Spans node id ∧ ∀ c ∈ doc.tree.children node, ¬ doc.Spans c id := by
  have hforest : doc.tree.Forest doc.tree.children := h.links
  have hplaced := h.placed
  have hbelow := hforest.attached_iff.mp hnode
  constructor
  · intro hinner
    refine ⟨hinner.spans, fun c hc hspans => ?_⟩
    have hchild := hforest.attached_iff.mpr (hbelow.tail hc)
    exact hforest.not_below_parent hc (hinner.above c hchild hspans)
  · rintro ⟨hspans, hkids⟩
    refine ⟨hnode, hspans, fun other hother hround => ?_⟩
    rw [h.spans_iff hne hnode] at hspans
    have hround' := (h.spans_iff hne hother).mp hround
    -- two nodes around one token are not apart, so one is above the other
    rcases hplaced.laminar hbelow (hforest.attached_iff.mp hother) with hdown | hup | hlt | hlt
    · rcases Relation.ReflTransGen.cases_head hdown with rfl | ⟨c, hc, hco⟩
      · exact Relation.ReflTransGen.refl
      · -- the child above the other node is around the token too
        have hcbelow := hbelow.tail hc
        have hnest := hplaced.nested_below hcbelow hco
        refine absurd ((h.spans_iff hne (hforest.attached_iff.mpr hcbelow)).mpr ?_) (hkids c hc)
        omega
    · exact hup
    · omega
    · omega

/-- **There is an innermost node** around each token of the file. -/
theorem exists_innermost (h : Coherent doc.tokens doc.tree) (hid : id ∈ doc.tokens.ids) :
    ∃ node, doc.Innermost id node := by
  have hne : doc.tokens.ids ≠ [] := List.ne_nil_of_mem hid
  have hforest : doc.tree.Forest doc.tree.children := h.links
  obtain ⟨height, hheight⟩ := hforest.height
  -- going down from a node around the token ends at one with no child around it
  have hdown : ∀ n node, height node ≤ n → doc.tree.Attached node → doc.Spans node id →
      ∃ node, doc.Innermost id node := by
    intro n
    induction n with
    | zero =>
      intro node hle hnode hspans
      refine ⟨node, (h.innermost_iff hne hnode).mpr ⟨hspans, fun c hc => ?_⟩⟩
      have := hheight node c hc
      omega
    | succ n ih =>
      intro node hle hnode hspans
      by_cases hkid : ∃ c ∈ doc.tree.children node, doc.Spans c id
      · obtain ⟨c, hc, hround⟩ := hkid
        have hlt := hheight node c hc
        exact ih c (by omega) (.child hnode ((hforest.parent_iff node c).mpr hc)) hround
      · refine ⟨node, (h.innermost_iff hne hnode).mpr ⟨hspans, fun c hc hround => ?_⟩⟩
        exact hkid ⟨c, hc, hround⟩
  refine hdown _ NodeTree.root (Nat.le_refl _) .root ((h.spans_iff hne .root).mpr ?_)
  have hlt : doc.tokens.place id < doc.tokens.ids.length := List.idxOf_lt_length_iff.mpr hid
  rw [h.placed.lo_root, h.placed.hi_root]
  omega

/-- **The own tokens of a node** are the significant tokens around which it is the innermost
    node. -/
theorem mem_ownTokens (h : Coherent doc.tokens doc.tree) (hnode : doc.tree.Attached node) :
    id ∈ doc.ownTokens node
      ↔ id ∈ doc.tokens.ids ∧ doc.tokens.isSignificant id = true ∧ doc.Innermost id node := by
  have hforest : doc.tree.Forest doc.tree.children := h.links
  by_cases hne : doc.tokens.ids = []
  · -- an empty file has a tree of a root without tokens
    have hnil : doc.ownTokens node = [] := by
      obtain ⟨hroot, hkids⟩ := h.placed.bare hne
      rcases Relation.ReflTransGen.cases_head (hforest.attached_iff.mp hnode) with rfl | ⟨c, hc, -⟩
      · unfold Document.ownTokens
        rw [hroot]
      · rw [hkids] at hc
        simp at hc
    simp [hnil, hne]
  · have hbelow := hforest.attached_iff.mp hnode
    have hplaced := h.placed
    have hattached : ∀ c ∈ node :: doc.tree.children node, doc.tree.Attached c := by
      intro c hc
      rcases List.mem_cons.mp hc with rfl | hc
      · exact hnode
      · exact .child hnode ((hforest.parent_iff node c).mpr hc)
    have hranges := fun c hc => h.exists_range hne (hattached c hc)
    choose! range hrange hfirst hlast hlow hhigh using hranges
    have hself := List.mem_cons_self (a := node) (l := doc.tree.children node)
    have hkid : ∀ {c}, c ∈ doc.tree.children node → c ∈ node :: doc.tree.children node :=
      fun hc => List.mem_cons_of_mem _ hc
    -- the walk over the range leaves out exactly what lies within the children
    have hiff := Document.mem_ownTokens_iff h.tokens.threaded (x := id) (hrange node hself)
      (fun c hc => ⟨hrange c (hkid hc), by
        rw [hlow node hself, hlow c (hkid hc), hhigh node hself, hhigh c (hkid hc)]
        exact hplaced.nested node c hbelow hc⟩)
      (fun c hc => ⟨hfirst c hc, hlast c hc, by
        rw [hlow c hc, hhigh c hc]
        exact hplaced.order hne c (hforest.attached_iff.mp (hattached c hc))⟩)
      ((hplaced.apart node hbelow).imp_of_mem fun ha hb hlt => by
        rw [hhigh _ (hkid ha), hlow _ (hkid hb)]
        exact hlt)
    rw [hiff, h.innermost_iff hne hnode, h.spans_iff hne hnode, hlow node hself, hhigh node hself]
    -- being innermost is said by nodes, the walk by places
    have hout : (∀ c ∈ doc.tree.children node,
        doc.tokens.place id < doc.tokens.place (range c).first
        ∨ doc.tokens.place (range c).last < doc.tokens.place id)
        ↔ ∀ c ∈ doc.tree.children node, ¬ doc.Spans c id := by
      refine forall₂_congr fun c hc => ?_
      rw [h.spans_iff hne (hattached c (hkid hc)), hlow c (hkid hc), hhigh c (hkid hc)]
      omega
    rw [hout]
    tauto

/-- The own tokens of a node come in the order of the file. -/
theorem ownTokens_sublist (h : Coherent doc.tokens doc.tree) (hnode : doc.tree.Attached node) :
    (doc.ownTokens node).Sublist doc.tokens.ids := by
  by_cases hne : doc.tokens.ids = []
  · have hnil : doc.ownTokens node = [] := by
      refine List.eq_nil_iff_forall_not_mem.mpr fun id hid => ?_
      have hin := ((h.mem_ownTokens hnode).mp hid).1
      rw [hne] at hin
      simp at hin
    rw [hnil]
    exact List.nil_sublist _
  · obtain ⟨range, hrange, hfirst, hlast, hlow, hhigh⟩ := h.exists_range hne hnode
    have hforest : doc.tree.Forest doc.tree.children := h.links
    have hle := h.placed.order hne node (hforest.attached_iff.mp hnode)
    rw [← hlow, ← hhigh] at hle
    unfold Document.ownTokens
    rw [hrange]
    exact (Document.ownFrom_sublist _ _ _ _).trans
      (h.tokens.threaded.range_between hfirst hlast hle).1.sublist

end Coherent

/-! ## §3. The tokens of a file -/

/-- The significant tokens of the file fall to the nodes of its outline. -/
structure Document.Apportions (doc : Document) : Prop where
  /-- The own tokens of a node come in the order of the file, each once. -/
  ordered : ∀ node, doc.tree.Attached node → (doc.ownTokens node).Sublist doc.tokens.ids
    ∧ (doc.ownTokens node).Nodup
  /-- They are the significant tokens around which the node is the innermost one. -/
  innermost : ∀ node, doc.tree.Attached node → ∀ id, id ∈ doc.ownTokens node
    ↔ id ∈ doc.tokens.ids ∧ doc.tokens.isSignificant id = true ∧ doc.Innermost id node
  /-- Each significant token has one innermost node around it. -/
  single : ∀ id ∈ doc.tokens.ids, ∃! node, doc.Innermost id node
  /-- Node by node, the own tokens are the significant tokens of the file. -/
  whole : (doc.tree.preOrder.flatMap doc.ownTokens).Perm
    (doc.tokens.ids.filter doc.tokens.isSignificant)

/-- **The tokens of a file fall to the innermost nodes around them**, after edits as in a file
    that was just loaded. -/
theorem Document.ownTokens_apportion :
    (∀ doc : Document, Coherent doc.tokens doc.tree → doc.Apportions)
      ∧ ∀ config source doc, Document.load config source = .ok doc → doc.Apportions := by
  have hall : ∀ doc : Document, Coherent doc.tokens doc.tree → doc.Apportions := by
    intro doc h
    have hforest : doc.tree.Forest doc.tree.children := h.links
    have hnodup := h.tokens.threaded.nodup
    have hattached : ∀ {node}, node ∈ doc.tree.preOrder → doc.tree.Attached node :=
      fun hin => hforest.attached_iff.mpr (hforest.mem_preOrder.mp hin)
    -- each token has one innermost node, which is the node that owns it
    have hsingle : ∀ id ∈ doc.tokens.ids, ∃! node, doc.Innermost id node := by
      intro id hid
      obtain ⟨node, hnode⟩ := h.exists_innermost hid
      exact ⟨node, hnode, fun other hother => hother.unique h.links hnode⟩
    refine ⟨fun node hnode => ?_, fun node hnode id => h.mem_ownTokens hnode, hsingle, ?_⟩
    · have hsub := h.ownTokens_sublist hnode
      exact ⟨hsub, hnodup.sublist hsub⟩
    · refine (List.perm_ext_iff_of_nodup ?_ (hnodup.filter _)).mpr fun id => ?_
      · -- no token is the own one of two nodes
        refine List.nodup_flatMap.mpr ⟨fun node hin =>
          hnodup.sublist (h.ownTokens_sublist (hattached hin)), ?_⟩
        refine List.Nodup.pairwise_of_forall_ne hforest.nodup_preOrder fun a ha b hb hne => ?_
        intro id hida hidb
        have hinner := ((h.mem_ownTokens (hattached ha)).mp hida).2.2
        exact hne (hinner.unique h.links ((h.mem_ownTokens (hattached hb)).mp hidb).2.2)
      · rw [List.mem_flatMap, List.mem_filter]
        constructor
        · rintro ⟨node, hin, hown⟩
          obtain ⟨hid, hsig, -⟩ := (h.mem_ownTokens (hattached hin)).mp hown
          exact ⟨hid, hsig⟩
        · rintro ⟨hid, hsig⟩
          obtain ⟨node, hinner, -⟩ := hsingle id hid
          exact ⟨node, hforest.mem_preOrder.mpr (hforest.attached_iff.mp hinner.attached),
            (h.mem_ownTokens hinner.attached).mpr ⟨hid, hsig, hinner⟩⟩
  exact ⟨hall, fun config source doc hload => hall doc (Document.load_coherent hload)⟩

/-- Two statements, and what a cut from the name in the first through the type in the second
    leaves of them. -/
theorem Document.ownTokens_apportion_twoStatements :
    ∃ doc doc', Document.load {} "int a; int b;" = .ok doc ∧ doc.Apportions
      ∧ (Change.cut ⟨⟨2⟩, ⟨5⟩⟩).apply doc = .ok () doc' ∧ doc'.Apportions := by
  have heval : (Document.load {} "int a; int b;").toOption.map
      (fun doc => (doc.tokens.walk ⟨⟨2⟩, ⟨5⟩⟩ true).toOption)
        = some (some [⟨2⟩, ⟨3⟩, ⟨4⟩, ⟨5⟩]) := by decide +kernel
  cases hload : Document.load {} "int a; int b;" with
  | error error =>
    rw [hload] at heval
    simp [Except.toOption] at heval
  | ok doc =>
    rw [hload] at heval
    cases hwalk : doc.tokens.walk ⟨⟨2⟩, ⟨5⟩⟩ true with
    | error error => simp [Except.toOption, hwalk] at heval
    | ok ids =>
      have hallowed : (Change.cut ⟨⟨2⟩, ⟨5⟩⟩).Allowed doc := ⟨ids, hwalk⟩
      obtain ⟨doc', happly, hcoherent⟩ :=
        Change.coherent_of_allowed (Document.load_coherent hload) hallowed
      exact ⟨doc, doc', rfl, ownTokens_apportion.2 _ _ _ hload, happly,
        ownTokens_apportion.1 doc' hcoherent⟩

end KernelPrep
