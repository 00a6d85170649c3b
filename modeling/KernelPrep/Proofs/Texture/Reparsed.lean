/-
  KernelPrep.Proofs.Texture.Reparsed — the outline of a prepared file.

  The leaves of a prepared file respect the nodes of the loaded one.  Nodes that go with a use
  are gone as a whole, and all others begin with the leaf they began with or with what stands
  for it.

  Main definitions:
    * `Weave.Ground`  — the uses of a loaded file and the branches of its outline;
    * `Weave.Covered` — a node that goes with a use.

  Main statements:
    * `Weave.Relexed.gone_iff`    — which nodes are gone;
    * `Weave.Relexed.stands_head` — what a node begins with;
    * `Weave.Relexed.soft`        — what a statement loses;
    * `Weave.Relexed.fit_params`  — a parameter list keeps its parentheses;
    * `Weave.Relexed.fits`        — the changes respect all nodes.
-/
import KernelPrep.Proofs.Texture.DefinedFirst
import KernelPrep.Proofs.Texture.Relexed
import KernelPrep.Proofs.Texture.Remnant

namespace KernelPrep

open NodeTree (Below)
open Branch (leavesAll nodesAll)
open Weave (Declared)

namespace Weave

/-! ## §1. Uses and the branches of a file -/

/-- A document all of whose uses are done, with its branches. -/
structure Ground [ContentHash] (doc : Document) (found : List Occurrence) (types : List Declared)
    (branches : List Branch) : Prop where
  done : Done doc types
  grouped : Grouped doc found types
  perm : ((uses types).map (·.2)).Perm found
  branched : Outline.Branched doc.tokens doc.tree doc.tree.children branches

/-- The node goes with a use. -/
def Covered (doc : Document) (types : List Declared) (n : NodeId) : Prop :=
  ∃ u ∈ uses types, u.2.Covers doc n

namespace Ground

variable {doc : Document} {found : List Occurrence} {types : List Declared}
  {branches parts : List Branch} {n : NodeId} {kind : NodeKind} {x : Leaf}
  {u : Declared × Occurrence}

theorem mem [ContentHash] (g : Ground doc found types branches)
    (hu : u ∈ uses types) : u.2 ∈ found :=
  g.perm.subset (List.mem_map_of_mem hu)

theorem exists_use [ContentHash] (g : Ground doc found types branches) {o : Occurrence}
    (ho : o ∈ found) :
    ∃ u ∈ uses types, u.2 = o := by
  obtain ⟨u, hu, hsame⟩ := List.mem_map.mp (g.perm.mem_iff.mpr ho)
  exact ⟨u, hu, hsame⟩

theorem laidOut [ContentHash] (g : Ground doc found types branches) (hu : u ∈ uses types) :
    ∃ before token type rest, Occurrence.LaidOut doc u.2 before token type rest :=
  Occurrence.findAll_laidOut g.grouped.found_eq (g.mem hu)

/-- The keyword of a use is a symbol. -/
theorem keyword_kind [ContentHash] (g : Ground doc found types branches)
    (hx : x ∈ doc.tokens.leaves)
    (hu : u ∈ uses types) (hkey : u.2.keyword = x.id) : x.kind = .symbol := by
  obtain ⟨before, token, type, rest, hlaid⟩ := g.laidOut hu
  exact hlaid.keyword_kind hx hkey

/-- Only kernel parameters become macros. -/
theorem named_of_kind [ContentHash] (g : Ground doc found types branches) (hu : u ∈ uses types)
    (hkind : doc.tree.kind? u.2.node ≠ some .functionParams) : u.2.isNamed = true := by
  obtain ⟨before, token, type, rest, hlaid⟩ := g.laidOut hu
  cases hnamed : u.2.isNamed with
  | true => rfl
  | false => exact absurd (hlaid.param hnamed).1 hkind

/-- A leaf outside of uses stands for itself or is the keyword of a use. -/
theorem outside_cases [ContentHash] (g : Ground doc found types branches)
    (hout : ¬ Within types x.id.index) :
    core? doc (uses types) x.id = none ∨ ∃ u ∈ uses types, u.2.keyword = x.id := by
  rcases g.done.core?_cases x.id with ⟨hself, -⟩ | ⟨u, hu, hkey, -⟩ | ⟨-, u, hu, hin⟩
  · exact .inl hself
  · exact .inr ⟨u, hu, hkey⟩
  · exact absurd ⟨u, hu, hin⟩ hout

/-- An own leaf of a node that goes with no use is taken by a use in the node. -/
theorem node_of_within [ContentHash] (g : Ground doc found types branches)
    (h : doc.HasNode branches n kind parts) (hfree : ¬ Covered doc types n)
    (hx : .leaf x ∈ parts) (hin : Within types x.id.index) :
    ∃ u ∈ uses types, u.2.node = n ∧ u.2.keyword.index < x.id.index
      ∧ x.id.index ≤ (cut u.2).last.index := by
  obtain ⟨u, hu, hlow, hhigh⟩ := hin
  rcases h.own_cut hx (g.done.found u hu) hlow hhigh with hnode | hcovers
  · exact ⟨u, hu, hnode, hlow, hhigh⟩
  · exact absurd ⟨u, hu, hcovers⟩ hfree

/-- A child that goes with a use goes with one in the node, or all of the node does. -/
theorem node_of_covered [ContentHash] (g : Ground doc found types branches)
    (h : doc.HasNode branches n kind parts) (hfree : ¬ Covered doc types n) {c : NodeId}
    (hc : c ∈ doc.tree.children n) (hcovered : Covered doc types c) :
    ∃ u ∈ uses types, u.2.node = n ∧ u.2.Covers doc c := by
  obtain ⟨u, hu, hcovers⟩ := hcovered
  rcases h.child_cut hc (g.done.found u hu) hcovers with hnode | hall
  · exact ⟨u, hu, hnode, hcovers⟩
  · exact absurd ⟨u, hu, hall⟩ hfree

/-- **A node that goes with no use** begins outside of uses. -/
theorem first_outside [ContentHash] (g : Ground doc found types branches)
    (h : doc.HasNode branches n kind parts) (hfree : ¬ Covered doc types n)
    (hfirst : (leavesAll parts).head? = some x) : ¬ Within types x.id.index := by
  rintro ⟨u, hu, hlow, hhigh⟩
  have hstart := h.start_eq hfirst
  exact hfree ⟨u, hu, h.covers_of_start (g.done.found u hu) (by omega) (by omega)⟩

/-- The node of a use is of a kind that is searched. -/
theorem searched [ContentHash] (g : Ground doc found types branches) (hu : u ∈ uses types)
    (h : doc.HasNode branches u.2.node kind parts) : Occurrence.isSearched kind = true := by
  have hsearched := (g.done.found u hu).searched
  rwa [h.kind?, Option.any_some] at hsearched

/-- The keyword of a use and its last token are own leaves of the node. -/
theorem ends_own [ContentHash] (g : Ground doc found types branches) (hu : u ∈ uses types)
    (h : doc.HasNode branches u.2.node kind parts) :
    (∃ k, .leaf k ∈ parts ∧ k.id = u.2.keyword) ∧ ∃ l, .leaf l ∈ parts ∧ l.id = (cut u.2).last := by
  have ho := g.done.found u hu
  obtain ⟨hplain, -⟩ := h.loaded.plain_of_searched ho.searched
  exact ⟨(h.owns_iff hplain).mp ho.keyword_mem, (h.owns_iff hplain).mp (cut_last_own ho)⟩

/-- The keyword of a use is none of the words that the outline knows. -/
theorem keyword_text [ContentHash] (g : Ground doc found types branches)
    (hx : x ∈ doc.tokens.leaves)
    (hu : u ∈ uses types) (hkey : u.2.keyword = x.id) {word : String}
    (hword : word ∈ "extern" :: (Outline.attributeWords ++ Outline.aggregateWords)) :
    x.text ≠ word := by
  rintro rfl
  obtain ⟨signature, hsignature⟩ := (g.done.found u hu).signature
  rw [hkey, (TokenList.leaf_token hx).2.2, (Relexed.known_words hword).2] at hsignature
  simp at hsignature

/-- An own leaf with which the body of a function starts is one of the body. -/
theorem body_eq (h : doc.HasNode branches n kind parts) (hx : .leaf x ∈ parts)
    {function body : NodeId} (hbody : doc.IsBody function body) (hstarts : doc.Starts body x.id) :
    body = n := by
  have hload := h.loaded
  have hplain := hload.plain_body hbody
  obtain ⟨-, hblock⟩ := Loaded.mem_of_functionBody? hbody.body
  obtain ⟨inside, hnode⟩ := Document.HasNode.of_kind? hload h.branched hblock hplain.ne_root
  obtain ⟨-, -, hindex⟩ := hload.starts hplain.below hplain.ne_root hstarts
  have horder := hload.start_le_stop hplain.below hplain.ne_root
  have hmem := (hnode.mem_iff (h.stretch.subset (Branch.mem_leavesAll_of_leaf hx))).mpr
    ⟨by omega, by omega⟩
  refine (hnode.owns ?_).unique (h.owns hx)
  refine (Branch.mem_leavesAll_cases hmem).resolve_right ?_
  rintro ⟨kind', inside', hpart, hin⟩
  obtain ⟨c, hc, hchild⟩ := hnode.child hpart
  have hlead : doc.start body < doc.start c :=
    (hload.sheltered hplain.below hplain.ne_root).lead (by rw [hblock]; simp) c hc
  have hplace := hchild.between hin
  omega

end Ground

/-! ## §2. What becomes of leaves -/

namespace Relexed

variable {doc : Document} {found : List Occurrence} {types : List Declared} {new : TokenList}
  {branches parts more : List Branch} {n : NodeId} {kind : NodeKind} {x : Leaf}
  {u : Declared × Occurrence} (r : Relexed doc types new)

theorem bare_within [ContentHash] (g : Ground doc found types branches) (hx : x ∈ doc.tokens.leaves)
    (hin : Within types x.id.index) : r.recast.bare x = [] := by
  obtain ⟨u, hu, hlow, hhigh⟩ := hin
  exact r.bare_inside g.done hx hu hlow hhigh

/-- No body starts with the keyword of a use. -/
theorem trail_keyword [ContentHash] (g : Ground doc found types branches)
    (hx : x ∈ doc.tokens.leaves)
    (hu : u ∈ uses types) (hkey : u.2.keyword = x.id) : r.recast.trail x = [] := by
  refine r.trail_nil g.done hx fun function body hbody hstarts => ?_
  have hfound := g.done.found u hu
  refine Lowering.start_uncut g.done.loaded hfound hbody hstarts ⟨by rw [hkey], ?_⟩
  rw [← hkey]
  exact cut_forward g.done.loaded hfound

/-- **What stands for the keyword of a use** begins with a symbol and is nested. -/
theorem bare_keyword [ContentHash] (g : Ground doc found types branches)
    (hx : x ∈ doc.tokens.leaves)
    (hu : u ∈ uses types) (hkey : u.2.keyword = x.id) :
    ∃ y ys, r.recast.bare x = y :: ys ∧ y.kind = .symbol ∧ Outline.Nested (y :: ys) := by
  have hbare : r.recast.bare x = r.recast.core x := by
    unfold Recast.bare
    rw [r.trail_keyword g hx hu hkey, List.append_nil]
  cases hnamed : u.2.isNamed with
  | true =>
    have hmade : ∀ type ∈ types, ∃ kind n, type.name = typeName kind n := fun type htype =>
      ⟨_, g.grouped.known.made type htype⟩
    obtain ⟨hstands, hsymbol⟩ := r.stands_named g.done hmade hx hu hkey hnamed
    have hkind : (r.recast.image x).kind = .symbol := by rw [hstands.like.kind, hsymbol]
    refine ⟨_, [], by rw [hbare, hstands.core], hkind, ?_⟩
    exact .plain (by rw [hkind]; rfl) .nil
  | false =>
    obtain ⟨v, hv, hsame, hcore⟩ := g.done.core?_keyword hu
    obtain ⟨before, token, type, rest, hlaid⟩ := g.laidOut hu
    obtain ⟨-, param, hparam, -⟩ := hlaid.param hnamed
    -- the macro with its arguments
    have hcall : replacement doc v.1 v.2 = Piece.spell doc.newline
        (.call (doc.config.vocabulary.paramWord v.1.signature.kind v.1.signature.mode)
          [toString v.1.signature.dims.toNat, param.text]) := by
      rw [hsame]
      unfold replacement
      unfold Occurrence.isNamed at hnamed
      split at hnamed
      · rename_i hcontext
        rw [hcontext, hparam]
        exact List.flatMap_singleton ..
      · simp at hnamed
    obtain ⟨inner, b, hfaces, hplain, -⟩ := Piece.call_faces (inset doc types x.id) doc.newline
      (doc.config.vocabulary.paramWord v.1.signature.kind v.1.signature.mode)
      [toString v.1.signature.dims.toNat, param.text]
    have hleaves : (r.recast.core x).map Leaf.face = (inset doc types x.id).faces
        (replacement doc v.1 v.2) := by
      have hown := r.core_faces x.id (leaf_significant g.done hx).1
      rw [hkey] at hcore
      rw [show (final doc types x.id).core? = _ from hcore, Option.getD_some] at hown
      rw [← hown]
      exact (inset doc types x.id).faces_leaves _
    rw [hcall, hfaces] at hleaves
    obtain ⟨word, leaves, hcore', hword, hleaves⟩ := List.map_eq_cons_iff.mp hleaves
    obtain ⟨opener, leaves, rfl, hopener, hleaves⟩ := List.map_eq_cons_iff.mp hleaves
    obtain ⟨arguments, leaves, rfl, harguments, hleaves⟩ := List.map_eq_append_iff.mp hleaves
    obtain ⟨closer, rfl, hcloser⟩ := List.map_eq_singleton_iff.mp hleaves
    have hkind : word.kind = .symbol := congrArg (·.1) hword
    have hopen : opener.kind = .lparen := congrArg (·.1) hopener
    have hclose : closer.kind = .rparen := congrArg (·.1) hcloser
    refine ⟨word, _, by rw [hbare, hcore'], hkind, .plain (by rw [hkind]; rfl) ?_⟩
    exact (Outline.nested_of_faces harguments hplain).enclose (by rw [hopen]; rfl)
      (by rw [hclose]; rfl) (by rw [hopen, hclose]; rfl)

/-- **Outside of uses** something stands for every leaf, and begins with one of its kind. -/
theorem bare_outside [ContentHash] (g : Ground doc found types branches)
    (hx : x ∈ doc.tokens.leaves)
    (hout : ¬ Within types x.id.index) :
    ∃ y ys, r.recast.bare x = y :: ys ∧ y.kind = x.kind := by
  rcases g.outside_cases hout with hself | ⟨u, hu, hkey⟩
  · have hstands := (r.stands_self g.done hx hself).1
    exact ⟨_, _, hstands.bare_eq, hstands.like.kind⟩
  · obtain ⟨y, ys, hbare, hkind, -⟩ := r.bare_keyword g hx hu hkey
    exact ⟨y, ys, hbare, by rw [hkind, g.keyword_kind hx hu hkey]⟩

/-- **The nodes that are gone** are those that go with a use. -/
theorem gone_iff [ContentHash] (g : Ground doc found types branches)
    (h : doc.HasNode branches n kind parts) :
    r.recast.Gone (.node kind parts) ↔ Covered doc types n := by
  constructor
  · intro hgone
    by_contra hfree
    obtain ⟨x, xs, hxs⟩ := List.exists_cons_of_ne_nil h.ne_nil
    have hx : x ∈ leavesAll parts := by simp [hxs]
    have hout := g.first_outside h hfree (x := x) (by rw [hxs]; rfl)
    obtain ⟨y, ys, hbare, -⟩ := r.bare_outside g (h.stretch.subset hx) hout
    rw [hgone x (by simpa using hx)] at hbare
    simp at hbare
  · rintro ⟨u, hu, hlow, hhigh⟩ x hx
    have hin : x ∈ leavesAll parts := by simpa using hx
    have hplace := h.between hin
    exact r.bare_within g (h.stretch.subset hin) ⟨u, hu, by omega, by omega⟩

theorem stays_iff [ContentHash] (g : Ground doc found types branches)
    (h : doc.HasNode branches n kind parts) :
    ¬ r.recast.Gone (.node kind parts) ↔ ¬ Covered doc types n := not_congr (r.gone_iff g h)

/-- A leaf with which no body starts and that was left alone stands for itself. -/
theorem keeps_self [ContentHash] (g : Ground doc found types branches) (hx : x ∈ doc.tokens.leaves)
    (hself : core? doc (uses types) x.id = none)
    (hnone : ∀ function body, doc.IsBody function body → ¬ doc.Starts body x.id) :
    r.recast.Keeps x :=
  { (r.stands_self g.done hx hself).1 with trail := r.trail_nil g.done hx hnone }

/-- **An own leaf of a node** outside of uses stands for itself or has a name in its place,
    unless the node is a parameter list. -/
theorem stands_own [ContentHash] (g : Ground doc found types branches)
    (h : doc.HasNode branches n kind parts)
    (hx : .leaf x ∈ parts) (hkind : kind ≠ .functionParams) (hout : ¬ Within types x.id.index) :
    r.recast.Stands x := by
  have hleaf := h.stretch.subset (Branch.mem_leavesAll_of_leaf hx)
  rcases g.outside_cases hout with hself | ⟨u, hu, hkey⟩
  · exact (r.stands_self g.done hleaf hself).1
  · have hnode := h.node_of_keyword hx (g.done.found u hu) hkey
    have hnamed := g.named_of_kind hu (by
      rw [hnode, h.kind?]
      simpa using hkind)
    exact (r.stands_named g.done (fun type htype => ⟨_, g.grouped.known.made type htype⟩) hleaf hu
      hkey hnamed).1

theorem keeps_own [ContentHash] (g : Ground doc found types branches)
    (h : doc.HasNode branches n kind parts)
    (hx : .leaf x ∈ parts) (hkind : kind ≠ .functionParams) (hout : ¬ Within types x.id.index)
    (hnone : ∀ function body, doc.IsBody function body → ¬ doc.Starts body x.id) :
    r.recast.Keeps x :=
  { r.stands_own g h hx hkind hout with
    trail := r.trail_nil g.done (h.stretch.subset (Branch.mem_leavesAll_of_leaf hx)) hnone }

/-- No body starts with an own leaf of another construct than a block. -/
theorem not_starts (h : doc.HasNode branches n kind parts) (hx : .leaf x ∈ parts)
    (hkind : kind ≠ .statementBlock) :
    ∀ function body, doc.IsBody function body → ¬ doc.Starts body x.id := by
  intro function body hbody hstarts
  obtain rfl := Ground.body_eq h hx hbody hstarts
  have hblock := (Loaded.mem_of_functionBody? hbody.body).2
  rw [h.kind?] at hblock
  exact hkind (Option.some.inj hblock)

/-- **The first leaf of a node** that goes with no use stands for itself or has a name in its
    place. -/
theorem stands_head [ContentHash] (g : Ground doc found types branches)
    (h : doc.HasNode branches n kind parts)
    (hfree : ¬ Covered doc types n) (hfirst : (leavesAll parts).head? = some x) :
    r.recast.Stands x := by
  have hleaf := h.stretch.subset (List.mem_of_head? hfirst)
  rcases g.outside_cases (g.first_outside h hfree hfirst) with hself | ⟨u, hu, hkey⟩
  · exact (r.stands_self g.done hleaf hself).1
  · refine (r.stands_named g.done (fun type htype => ⟨_, g.grouped.known.made type htype⟩) hleaf hu
      hkey (g.named_of_kind hu fun hparams => ?_)).1
    -- a parameter list would begin with a parenthesis before the node
    have ho := g.done.found u hu
    obtain ⟨kind', parts', hnode, -, ⟨y, hy, hyx⟩, -⟩ := ho.hasNode g.done.loaded g.branched
    rw [hnode.kind?, Option.some.injEq] at hparams
    subst hparams
    have hmade := hnode.branched.reads.made _ hnode.mem
    obtain ⟨opener, inner, closer, rfl, hopener, -⟩ := hmade.params_inv
    obtain rfl : y = x := h.branched.ascends.eq_of_id
      (hnode.stretch.subset (Branch.mem_leavesAll_of_leaf hy)) hleaf (by rw [hyx, hkey])
    have hword := g.keyword_kind hleaf hu hkey
    have hne : opener ≠ y := by
      rintro rfl
      rw [hopener] at hword
      exact TokenKind.noConfusion hword
    have hstart := h.start_eq hfirst
    have hstart' : doc.start u.2.node = opener.id.index := hnode.start_eq (by simp)
    have hlt : opener.id.index < y.id.index := by
      have hpair := hnode.branched.ascends.stretch hnode.stretch
      rw [Branch.leavesAll_map_leaf] at hpair
      exact (List.pairwise_cons.mp hpair).1 y (by
        have hy := List.mem_map.mp hy
        obtain ⟨z, hz, he⟩ := hy
        obtain rfl := Branch.leaf.inj he
        exact (List.mem_cons.mp hz).resolve_left hne.symm)
    have hforward := cut_forward g.done.loaded ho
    have horder := h.loaded.start_le_stop h.below h.ne_root
    rcases h.cut_cases ho with hin | ⟨-, hlow, -⟩ | hbefore | hbehind
    · have hnest : doc.start n ≤ doc.start u.2.node ∧ doc.stop u.2.node ≤ doc.stop n :=
        h.loaded.placed.nested_below h.below hin
      omega
    · rw [hkey] at hlow
      omega
    · rw [hkey] at hforward
      omega
    · rw [hkey] at hbehind
      omega

/-! ## §3. Nodes without uses of their own -/

/-- **Nodes of other kinds than those searched** keep all their parts. -/
theorem firm_of_kind [ContentHash] (g : Ground doc found types branches)
    (h : doc.HasNode branches n kind parts) (hfree : ¬ Covered doc types n)
    (hkind : Occurrence.isSearched kind = false) (hblock : kind ≠ .statementBlock) :
    r.recast.Firm parts := by
  have hnone : ∀ u ∈ uses types, u.2.node ≠ n := by
    rintro u hu rfl
    have hsearched := g.searched hu h
    rw [hkind] at hsearched
    exact Bool.noConfusion hsearched
  refine ⟨fun x hx => ?_, fun kind' inside hpart => ?_⟩
  · have hparams : kind ≠ .functionParams := by
      rintro rfl
      exact Bool.noConfusion hkind
    refine r.keeps_own g h hx hparams (fun hin => ?_) (not_starts h hx hblock)
    obtain ⟨u, hu, hnode, -⟩ := g.node_of_within h hfree hx hin
    exact hnone u hu hnode
  · obtain ⟨c, hc, hchild⟩ := h.child hpart
    refine (r.stays_iff g hchild).mpr fun hcovered => ?_
    obtain ⟨u, hu, hnode, -⟩ := g.node_of_covered h hfree hc hcovered
    exact hnone u hu hnode

/-- **A block** keeps all its parts behind the brace, and calls are put behind this. -/
theorem fit_block [ContentHash] (g : Ground doc found types branches) {opener : Leaf}
    (h : doc.HasNode branches n .statementBlock (.leaf opener :: more))
    (hfree : ¬ Covered doc types n) :
    r.recast.Stands opener ∧ Outline.Calls (r.recast.trail opener) ∧ r.recast.Firm more := by
  have hnone : ∀ u ∈ uses types, u.2.node ≠ n := by
    rintro u hu rfl
    exact Bool.noConfusion (g.searched hu h)
  have hout : ∀ x, .leaf x ∈ .leaf opener :: more → ¬ Within types x.id.index := by
    intro x hx hin
    obtain ⟨u, hu, hnode, -⟩ := g.node_of_within h hfree hx hin
    exact hnone u hu hnode
  have hopener : Branch.leaf opener ∈ .leaf opener :: more := List.mem_cons_self
  refine ⟨r.stands_own g h hopener (by simp) (hout _ hopener),
    r.trail_calls g.done (h.stretch.subset (Branch.mem_leavesAll_of_leaf hopener)),
    fun x hx => ?_, fun kind' inside hpart => ?_⟩
  · have hmem : Branch.leaf x ∈ .leaf opener :: more := List.mem_cons_of_mem _ hx
    refine r.keeps_own g h hmem (by simp) (hout x hmem) fun function body hbody hstarts => ?_
    -- a body starts with its brace
    obtain rfl := Ground.body_eq h hmem hbody hstarts
    obtain ⟨-, -, hindex⟩ := h.loaded.starts h.below h.ne_root hstarts
    have hstart : doc.start body = opener.id.index := h.start_eq (by simp)
    have hpair := h.branched.ascends.stretch h.stretch
    rw [Branch.leavesAll_cons, Branch.leaves_leaf, List.singleton_append] at hpair
    have hlt := (List.pairwise_cons.mp hpair).1 x (Branch.mem_leavesAll_of_leaf hx)
    omega
  · obtain ⟨c, hc, hchild⟩ := h.child (List.mem_cons_of_mem _ hpart)
    refine (r.stays_iff g hchild).mpr fun hcovered => ?_
    obtain ⟨u, hu, hnode, -⟩ := g.node_of_covered h hfree hc hcovered
    exact hnone u hu hnode

/-! ## §4. Lines -/

/-- Lines are put before the first leaf of a construct only. -/
theorem lead_behind [ContentHash] (g : Ground doc found types branches)
    (h : doc.HasNode branches n kind parts)
    (hkind : kind ≠ .linkageBlock) (hx : x ∈ (leavesAll parts).tail) :
    (final doc types x.id).lead = [] ∧ r.recast.lead x = [] := by
  have hmem : x ∈ leavesAll parts := List.mem_of_mem_tail hx
  refine r.lead_nil g.done (h.stretch.subset hmem) fun construct hscope hstarts => ?_
  obtain ⟨hbelow, hne⟩ := h.loaded.below_of_atScope hscope
  obtain ⟨-, -, hindex⟩ := h.loaded.starts hbelow hne hstarts
  obtain ⟨first, behind, hfirst⟩ := List.exists_cons_of_ne_nil h.ne_nil
  have hstart : doc.start n = first.id.index := h.start_eq (by rw [hfirst]; rfl)
  have hplace := h.between hmem
  have hlt : first.id.index < x.id.index := by
    have hpair := h.branched.ascends.stretch h.stretch
    rw [hfirst] at hpair hx
    exact (List.pairwise_cons.mp hpair).1 x hx
  have horder := h.loaded.start_le_stop hbelow hne
  have hplain : doc.Plain n := ⟨h.below, h.ne_root, by simpa [h.kind?] using hkind⟩
  -- the construct would be in the node
  rcases h.loaded.placed.laminar h.below hbelow with hin | hin | hlt' | hlt'
  · refine h.loaded.not_atScope_below hplain hin (fun he => ?_) hscope
    rw [he] at hindex
    omega
  · have hnest : doc.start construct ≤ doc.start n ∧ doc.stop n ≤ doc.stop construct :=
      h.loaded.placed.nested_below hbelow hin
    omega
  · omega
  · omega

/-- **A directive** stays on its line. -/
theorem directive_line [ContentHash] (g : Ground doc found types branches)
    (h : doc.HasNode branches n .directive parts) (hfree : ¬ Covered doc types n)
    (hx : x ∈ (leavesAll parts).tail) : (r.recast.image x).startsLine = false := by
  obtain ⟨hash, body, rfl, hbody⟩ := (h.branched.reads.made _ h.mem).directive_inv
  rw [Branch.leavesAll_map_leaf, List.tail_cons] at hx
  obtain ⟨before, after, rfl⟩ := List.append_of_mem hx
  -- the leaf before it on the line
  obtain ⟨init, prev, hprev⟩ : ∃ init prev, hash :: before = init ++ [prev] :=
    (List.eq_nil_or_concat' (hash :: before)).resolve_left (List.cons_ne_nil _ _)
  have hparts : hash :: (before ++ x :: after) = init ++ prev :: x :: after := by
    rw [← List.cons_append, hprev, List.append_assoc]
    rfl
  obtain ⟨left, right, hleaves⟩ := h.stretch
  rw [Branch.leavesAll_map_leaf, hparts] at hleaves
  have hown : ∀ y ∈ hash :: (before ++ x :: after),
      Branch.leaf y ∈ (hash :: (before ++ x :: after)).map Branch.leaf := fun y hy =>
    List.mem_map_of_mem hy
  have hself : ∀ y ∈ hash :: (before ++ x :: after), core? doc (uses types) y.id = none := by
    intro y hy
    have hnone : ∀ u ∈ uses types, u.2.node ≠ n := by
      rintro u hu rfl
      exact Bool.noConfusion (g.searched hu h)
    have hout : ¬ Within types y.id.index := by
      intro hin
      obtain ⟨u, hu, hnode, -⟩ := g.node_of_within h hfree (hown y hy) hin
      exact hnone u hu hnode
    refine (g.outside_cases hout).resolve_right ?_
    rintro ⟨u, hu, hkey⟩
    exact hnone u hu (h.node_of_keyword (hown y hy) (g.done.found u hu) hkey)
  have htrail : (final doc types prev.id).trail = [] := by
    by_contra hne
    have hmem : prev ∈ hash :: (before ++ x :: after) := by simp [hparts]
    have hleaf := h.stretch.subset (Branch.mem_leavesAll_of_leaf (hown prev hmem))
    obtain ⟨function, body, hbody, hstarts⟩ :=
      g.done.trailed _ (leaf_significant g.done hleaf).1 hne
    exact not_starts h (hown prev hmem) (by simp) function body hbody hstarts
  have hside : doc.tokens.leaves = (left ++ init) ++ prev :: x :: (after ++ right) := by
    rw [← hleaves]
    simp
  rw [r.startsLine_self g.done hside (hself prev (by simp [hparts])) htrail (hself x (by simp))
    (r.lead_behind g h (by simp) (by simp)).1]
  exact hbody x (by simp)

/-! ## §5. Statements and type definitions -/

/-- The leaves of a part that is gone are those that a use in the node takes up. -/
theorem taken [ContentHash] (g : Ground doc found types branches)
    (h : doc.HasNode branches n kind parts)
    (hfree : ¬ Covered doc types n) {part : Branch} (hpart : part ∈ parts)
    (hgone : r.recast.Gone part) :
    ∃ u ∈ uses types, u.2.node = n ∧ ∀ x ∈ part.leaves, u.2.keyword.index < x.id.index
      ∧ x.id.index ≤ (cut u.2).last.index := by
  -- a leaf is gone with the use around it, a node with the use that covers it
  cases part with
  | leaf x =>
    have hin : Within types x.id.index := by
      by_contra hout
      obtain ⟨y, ys, hbare, -⟩ :=
        r.bare_outside g (h.stretch.subset (Branch.mem_leavesAll_of_leaf hpart)) hout
      rw [hgone x (by simp)] at hbare
      simp at hbare
    obtain ⟨u, hu, hnode, hplace⟩ := g.node_of_within h hfree hpart hin
    exact ⟨u, hu, hnode, by simpa using hplace⟩
  | node kind' inside =>
    obtain ⟨c, hc, hchild⟩ := h.child hpart
    obtain ⟨u, hu, hnode, hlow, hhigh⟩ :=
      g.node_of_covered h hfree hc ((r.gone_iff g hchild).mp hgone)
    refine ⟨u, hu, hnode, fun x hx => ?_⟩
    rw [Branch.leaves_node] at hx
    have hplace := hchild.between hx
    omega

/-- **What stands before a part that is gone** is the keyword of a use or gone with it. -/
theorem frees_before [ContentHash] (g : Ground doc found types branches)
    (h : doc.HasNode branches n kind parts) (hfree : ¬ Covered doc types n)
    {before after : List Branch} {part : Branch} (hsplit : parts = before ++ part :: after)
    (hgone : r.recast.Gone part) :
    ∃ prev, before.getLast? = some prev ∧ r.recast.Frees prev := by
  have hpart : part ∈ parts := by simp [hsplit]
  obtain ⟨u, hu, rfl, htaken⟩ := r.taken g h hfree hpart hgone
  obtain ⟨⟨k, hk, hkey⟩, -⟩ := g.ends_own hu h
  have hkleaf := h.stretch.subset (Branch.mem_leavesAll_of_leaf hk)
  obtain ⟨y, hy⟩ := List.exists_mem_of_ne_nil _ (h.part_ne_nil hpart)
  obtain ⟨hlow, hhigh⟩ := htaken y hy
  -- the keyword is an own token, so it stands before the part that is gone
  have hbefore := h.mem_before_of_lt _ _ hsplit hk hy (by rw [hkey]; exact hlow)
  obtain ⟨init, prev, rfl⟩ := (List.eq_nil_or_concat' before).resolve_left
    (List.ne_nil_of_mem hbefore)
  refine ⟨prev, by simp, ?_⟩
  rcases List.mem_append.mp hbefore with hin | hin
  · -- the part before lies between the keyword and the part that is gone
    refine .inl fun z hz => ?_
    have hbehind := h.ordered init (prev :: part :: after) (by simp [hsplit])
      (Branch.mem_leavesAll_of_leaf hin) (y := z) (by simp [hz])
    have hfront := h.ordered _ _ hsplit (x := z) (y := y) (by simp [hz]) (by simp [hy])
    rw [hkey] at hbehind
    exact r.bare_within g (h.stretch.subset (by simp [hsplit, hz])) ⟨u, hu, hbehind, by omega⟩
  · obtain rfl := List.mem_singleton.mp hin
    exact .inr ⟨k, rfl, g.keyword_kind hkleaf hu hkey.symm,
      g.keyword_text hkleaf hu hkey.symm List.mem_cons_self⟩

/-- **A statement or type definition** that goes with no use loses words and blocks behind words
    only, and never its last block. -/
theorem soft [ContentHash] (g : Ground doc found types branches)
    (h : doc.HasNode branches n kind parts)
    (hfree : ¬ Covered doc types n) (hkind : kind = .statement ∨ kind = .typedef) :
    r.recast.Soft false parts := by
  have hparams : kind ≠ .functionParams := by rcases hkind with rfl | rfl <;> simp
  have hblock : kind ≠ .statementBlock := by rcases hkind with rfl | rfl <;> simp
  refine Recast.soft_of_parts (fun x hx => ?_) (fun before part after hsplit hgone =>
    r.frees_before g h hfree hsplit hgone) fun before kind' inside after hsplit hgone => ?_
  · have hleaf := h.stretch.subset (Branch.mem_leavesAll_of_leaf hx)
    -- a leaf within a use is cut, any other one is kept
    by_cases hin : Within types x.id.index
    · obtain ⟨u, hu, rfl, hlow, hhigh⟩ := g.node_of_within h hfree hx hin
      obtain ⟨_, token, type, rest, hlaid⟩ := g.laidOut hu
      have hnamed := g.named_of_kind hu (by rw [h.kind?]; simpa using hparams)
      exact .inr ⟨r.bare_within g hleaf hin,
        hlaid.kind_of_cut hnamed (g.done.found u hu) h hx hlow hhigh⟩
    · exact .inl (r.keeps_own g h hx hparams hin (not_starts h hx hblock))
  · -- a use ends with a token of its own behind the node
    have hpart : .node kind' inside ∈ parts := by simp [hsplit]
    obtain ⟨c, hc, hchild⟩ := h.child hpart
    obtain ⟨u, hu, rfl, -, hhigh⟩ :=
      g.node_of_covered h hfree hc ((r.gone_iff g hchild).mp hgone)
    obtain ⟨-, l, hl, hlast⟩ := g.ends_own hu h
    rintro rfl
    obtain ⟨y, hy⟩ := List.exists_mem_of_ne_nil _ hchild.ne_nil
    have hplace := hchild.between hy
    have hin : .leaf l ∈ before := by
      rw [hsplit] at hl
      simpa using hl
    have hlt := h.ordered _ _ hsplit (Branch.mem_leavesAll_of_leaf hin) (y := y) (by simp [hy])
    rw [hlast] at hlt
    omega

/-! ## §6. Parameter lists -/

/-- The leaves made of those of a parameter list nest as those that the uses leave. -/
theorem nestAll_bare [ContentHash] (g : Ground doc found types branches)
    (h : doc.HasNode branches n .functionParams parts) {inner : List Leaf}
    (hown : ∀ x ∈ inner, .leaf x ∈ parts) (pending : List TokenKind) :
    Outline.nestAll pending (inner.flatMap r.recast.bare)
      = ((inner.filter fun x => !found.any fun use =>
          (doc.tokens.range (cut use)).contains x.id).map (·.kind)).foldlM Outline.nest
            pending := by
  induction inner generalizing pending with
  | nil => rfl
  | cons x inner ih =>
    have hx := hown x List.mem_cons_self
    have hleaf := h.stretch.subset (Branch.mem_leavesAll_of_leaf hx)
    have ih := ih fun y hy => hown y (List.mem_cons_of_mem _ hy)
    rw [List.flatMap_cons, Outline.nestAll_append]
    by_cases hcut : ∃ u ∈ uses types, x.id ∈ doc.tokens.range (cut u.2)
    · -- of a use nothing is left but a macro, which nests
      have hnest : Outline.nestAll pending (r.recast.bare x) = .ok pending := by
        by_cases hin : Within types x.id.index
        · rw [r.bare_within g hleaf hin]
          rfl
        · obtain ⟨u, hu, hmem⟩ := hcut
          have hplace := (mem_cut_iff g.done.loaded (g.done.found u hu) _).mp hmem
          have hkey : u.2.keyword = x.id := by
            refine TokenId.ext_index (Nat.le_antisymm hplace.1 (Nat.not_lt.mp fun hlt => ?_))
            exact hin ⟨u, hu, hlt, hplace.2⟩
          obtain ⟨y, ys, hbare, -, hnested⟩ := r.bare_keyword g hleaf hu hkey
          rw [hbare, hnested.nestAll]
      rw [hnest, List.filter_cons_of_neg (by
        obtain ⟨u, hu, hmem⟩ := hcut
        simpa using ⟨u.2, g.mem hu, hmem⟩)]
      exact ih pending
    -- outside of all uses the leaf is kept
    · have hself : core? doc (uses types) x.id = none := by
        refine (core?_none g.done.loaded g.done.found x.id).mpr fun u hu hplace => ?_
        exact hcut ⟨u, hu, (mem_cut_iff g.done.loaded (g.done.found u hu) _).mpr hplace⟩
      have hkeeps := r.keeps_self g hleaf hself (not_starts h hx (by simp))
      rw [hkeeps.bare_eq, List.filter_cons_of_pos (by
        simpa using fun use huse hmem => by
          obtain ⟨u, hu, rfl⟩ := g.exists_use huse
          exact hcut ⟨u, hu, hmem⟩), List.map_cons, List.foldlM_cons, Outline.nestAll_cons,
        hkeeps.like.kind]
      cases Outline.nest pending x.kind with
      | error fault => rfl
      | ok pending => exact ih pending

/-- **A parameter list** keeps its parentheses, and stays nested between them if what the uses
    leave is. -/
theorem fit_params [ContentHash] (g : Ground doc found types branches)
    (h : doc.HasNode branches n .functionParams parts) (hfree : ¬ Covered doc types n)
    (hnested : Occurrence.leavesNested doc found n = true) {opener closer : Leaf}
    {inner : List Leaf} (hleaves : leavesAll parts = opener :: (inner ++ [closer])) :
    r.recast.Keeps opener ∧ r.recast.Keeps closer
      ∧ Outline.Nested (inner.flatMap r.recast.bare)
      ∧ ((inner ++ [closer]).head?.any (fun x => x.kind == .star || x.kind == .caret) = false →
        (inner.flatMap r.recast.bare ++ [r.recast.image closer]).head?.any
          (fun y => y.kind == .star || y.kind == .caret) = false) := by
  obtain ⟨opener', inner', closer', rfl, hopener, hcloser, hinner⟩ :=
    (h.branched.reads.made _ h.mem).params_inv
  rw [Branch.leavesAll_map_leaf] at hleaves
  obtain ⟨rfl, hrest⟩ := List.cons.inj hleaves
  obtain ⟨rfl, hlast⟩ := List.append_inj' hrest rfl
  obtain rfl := List.singleton_inj.mp hlast
  have hown : ∀ x ∈ opener' :: (inner' ++ [closer']),
      Branch.leaf x ∈ (opener' :: (inner' ++ [closer'])).map Branch.leaf := fun x hx =>
    List.mem_map_of_mem hx
  have hleaf : ∀ x ∈ opener' :: (inner' ++ [closer']), x ∈ doc.tokens.leaves := fun x hx =>
    h.stretch.subset (Branch.mem_leavesAll_of_leaf (hown x hx))
  -- a leaf outside of uses that is no word stands for itself
  have hkeeps : ∀ x ∈ opener' :: (inner' ++ [closer']), x.kind ≠ .symbol →
      ¬ Within types x.id.index → r.recast.Keeps x := by
    intro x hx hword hout
    refine r.keeps_self g (hleaf x hx) ((g.outside_cases hout).resolve_right ?_)
      (not_starts h (hown x hx) (by simp))
    rintro ⟨u, hu, hkey⟩
    exact hword (g.keyword_kind (hleaf x hx) hu hkey)
  have hopens : r.recast.Keeps opener' := by
    refine hkeeps _ (by simp) (by simp [hopener]) (g.first_outside h hfree ?_)
    rw [Branch.leavesAll_map_leaf]
    rfl
  have hcloses : r.recast.Keeps closer' := by
    refine hkeeps _ (by simp) (by simp [hcloser]) fun hin => ?_
    obtain ⟨u, hu, rfl, -, hhigh⟩ := g.node_of_within h hfree (hown closer' (by simp)) hin
    obtain ⟨_, token, type, rest, hlaid⟩ := g.laidOut hu
    have ho := g.done.found u hu
    refine hlaid.closer_uncut ho h hopener hcloser hinner (TokenId.ext_index ?_)
    have hstop : doc.stop u.2.node = closer'.id.index := h.stop_eq (by
      rw [Branch.leavesAll_map_leaf, ← List.cons_append, List.getLast?_concat])
    have hlast := (cut_between g.done.loaded ho).2.2
    omega
  refine ⟨hopens, hcloses, ?_, fun hhead => ?_⟩
  · rw [Outline.nested_iff, r.nestAll_bare g h fun x hx => hown x (by simp [hx]),
      ← Occurrence.left_kinds h]
    exact Occurrence.foldlM_left hnested
  · cases inner' with
    | nil => simp [hcloses.like.kind, hcloser]
    | cons x inner =>
      -- before the first leaf of the list stands the parenthesis only, which is no keyword
      have hout : ¬ Within types x.id.index := by
        intro hin
        obtain ⟨u, hu, rfl, hlow, -⟩ := g.node_of_within h hfree (hown x (by simp)) hin
        obtain ⟨⟨k, hk, hkey⟩, -⟩ := g.ends_own hu h
        have hsplit : (opener' :: (x :: inner ++ [closer'])).map Branch.leaf
            = [.leaf opener'] ++ .leaf x :: (inner ++ [closer']).map .leaf := rfl
        have hbefore := h.mem_before_of_lt _ _ hsplit hk (y := x) (by simp)
          (by rw [hkey]; exact hlow)
        obtain rfl : k = opener' := by simpa using hbefore
        have hword := g.keyword_kind (hleaf k List.mem_cons_self) hu hkey.symm
        rw [hopener] at hword
        exact TokenKind.noConfusion hword
      obtain ⟨y, ys, hbare, hkind⟩ := r.bare_outside g (hleaf x (by simp)) hout
      rw [List.flatMap_cons, hbare]
      simpa [hkind] using hhead

/-! ## §7. All nodes -/

/-- **The changes respect all nodes** that go with no use, if the uses leave nested delimiters in
    parameter lists. -/
theorem fits [ContentHash] (g : Ground doc found types branches)
    (hnested : ∀ n ∈ Occurrence.candidates doc, doc.tree.kind? n = some .functionParams →
      Occurrence.leavesNested doc found n = true) : r.recast.Fits branches := by
  intro kind parts hmem hstays
  obtain ⟨n, h⟩ := Document.HasNode.of_mem g.done.loaded g.branched hmem
  have hfree := (r.stays_iff g h).mp hstays
  refine ⟨fun x hx => r.stands_head g h hfree hx, fun hkind => ?_,
    fun hkind => r.soft g h hfree hkind, ?_, ?_, ?_⟩
  · simp only [List.mem_cons, List.not_mem_nil, or_false, not_or] at hkind
    refine r.firm_of_kind g h hfree ?_ hkind.2.2.2
    cases kind <;> simp [Occurrence.isSearched] at hkind ⊢
  · rintro rfl opener inner closer hleaves
    refine r.fit_params g h hfree (hnested n ?_ h.kind?) hleaves
    rw [h.loaded.mem_candidates, h.kind?]
    rfl
  · rintro rfl opener more rfl
    exact r.fit_block g h hfree
  · rintro rfl x hx
    exact r.directive_line g h hfree hx

end Relexed

end Weave

end KernelPrep
