/-
  KernelPrep.Proofs.Outline.Rescope — constructs at file scope, of leaves in place of others.

  At file scope a declaration is what its leaves ahead make it, so that a statement which lost
  words may turn out to be a function.  It is a construct in any case, unless it defines an
  aggregate and so goes on behind its braces; such a declaration must keep its leaves up to the
  braces.  Lines put before a construct are constructs themselves.

  Main definitions:
    * `Branch.HeadsAggregate` — a declaration up to its braces, behind which it goes on;
    * `Recast.Scoped` — lines are put before constructs at file scope only;
    * `Recast.Led`    — what the lines are.

  Main statements:
    * `Outline.Reads.recast_construct` — one construct;
    * `Outline.Reads.recast` — the new leaves have an outline.
-/
import KernelPrep.Proofs.Outline.Recast

namespace KernelPrep

open Outline (Nested Like Reads Declarators Prototype isAggregate)
open Branch (leavesAll nodesAll)

/-! ## §1. Changes at file scope -/

/-- The first parts of a declaration that defines an aggregate: words through the first braces,
    beginning with the word for an aggregate, perhaps behind a `typedef`. -/
def Branch.HeadsAggregate (kind : NodeKind) (top : List Branch) : Prop :=
  ∃ (heading : List Leaf) (block : NodeKind) (inside : List Branch) (word : Leaf),
    top = heading.map .leaf ++ [.node block inside] ∧ isAggregate word = true
      ∧ (kind = .statement ∧ heading.head? = some word
        ∨ kind = .typedef ∧ heading[1]? = some word)

/-- **Constructs at file scope** with lines before some of them, and before nothing else.  A
    declaration that defines an aggregate loses none of its parts up to the braces. -/
inductive Recast.Scoped (r : Recast) : Branch → Prop where
  | construct {kind : NodeKind} {parts : List Branch} : kind ≠ .linkageBlock →
      (∀ x ∈ (leavesAll parts).tail, r.lead x = []) →
      (∀ top, top <+: parts → Branch.HeadsAggregate kind top → r.Firm top) →
      Scoped r (.node kind parts)
  | linkage {first name opener closer : Leaf} {parts : List Branch} : r.lead name = [] →
      r.lead opener = [] → r.lead closer = [] → (∀ branch ∈ parts, Scoped r branch) →
      Scoped r (.node .linkageBlock
        (.leaf first :: .leaf name :: .leaf opener :: (parts ++ [.leaf closer])))

/-- What is known of the lines put before some of the leaves. -/
structure Recast.Led (r : Recast) (leaves : List Leaf) : Prop where
  preface : ∀ x ∈ leaves, Outline.Preface (r.lead x)
  words : ∀ x ∈ leaves, ∀ y ∈ r.lead x, y.text = "extern" → y.kind = .symbol
  first : ∀ x ∈ leaves, x.startsLine = true → ∀ y ∈ (r.lead x).head?, y.startsLine = true
  behind : ∀ x ∈ leaves, r.lead x ≠ [] → (r.image x).startsLine = true

theorem Recast.Led.subset {r : Recast} {leaves part : List Leaf} (h : r.Led leaves)
    (hpart : ∀ x ∈ part, x ∈ leaves) : r.Led part :=
  ⟨fun x hx => h.preface x (hpart x hx), fun x hx => h.words x (hpart x hx),
    fun x hx => h.first x (hpart x hx), fun x hx => h.behind x (hpart x hx)⟩

/-- Words that the readers know are spelled by words. -/
structure Outline.Spelled (leaves : List Leaf) : Prop where
  linkage : ∀ x ∈ leaves, x.text = "extern" → x.kind = .symbol
  aggregate : ∀ x ∈ leaves, isAggregate x = true → x.kind.isDelimiter = false

theorem Outline.Spelled.subset {leaves part : List Leaf} (h : Outline.Spelled leaves)
    (hpart : ∀ x ∈ part, x ∈ leaves) : Outline.Spelled part :=
  ⟨fun x hx => h.linkage x (hpart x hx), fun x hx => h.aggregate x (hpart x hx)⟩

/-- Parts are leaves, or there is a first node among them. -/
theorem Branch.leaves_or_node (parts : List Branch) :
    (∃ leaves : List Leaf, parts = leaves.map .leaf)
      ∨ ∃ (heading : List Leaf) (kind : NodeKind) (inside more : List Branch),
        parts = heading.map .leaf ++ .node kind inside :: more := by
  induction parts with
  | nil => exact .inl ⟨[], rfl⟩
  | cons part parts ih =>
    cases part with
    | node kind inside => exact .inr ⟨[], kind, inside, parts, rfl⟩
    | leaf x =>
      rcases ih with ⟨leaves, rfl⟩ | ⟨heading, kind, inside, more, rfl⟩
      · exact .inl ⟨x :: leaves, rfl⟩
      · exact .inr ⟨x :: heading, kind, inside, more, rfl⟩

/-! ## §2. Constructs -/

namespace Recast

variable {r : Recast} {x first opener closer : Leaf}
  {leaves rest rest' name inner quals : List Leaf}
  {kind : NodeKind} {parts more branches : List Branch} {goesOn : Bool}

/-- The declarators of a struct, of which some may be gone. -/
theorem recast_declarators {initialiser free : Bool} {names : List Branch}
    (h : Declarators initialiser names) (hfits : r.Fits names) (hsoft : r.Soft free names) :
    ∃ names', leavesAll names' = (leavesAll names).flatMap r.bare
      ∧ Declarators initialiser names' := by
  induction h generalizing free with
  | @finish _ leaf hk =>
    have hkeeps := keeps_of_kind hsoft.leaf.1 (by simp [hk])
    exact ⟨[.leaf (r.image leaf)], by simp [hkeeps.bare_eq],
      .finish (by rw [hkeeps.like.kind, hk])⟩
  | @group _ group more hgroup _ ih =>
    obtain ⟨hfirst, free', hmore⟩ := hsoft.split
    obtain ⟨names', hleaves, hnames⟩ := ih (fits_append.mp hfits).2 hmore
    obtain ⟨opener, inner, closer, hform, -⟩ := id hgroup
    obtain ⟨-, hgroup', -⟩ := recast_group hgroup (by rw [hform]; rfl) hfirst
    exact ⟨(group.flatMap r.bare).map .leaf ++ names', by simp [hleaves], .group hgroup' hnames⟩
  -- a name is a node, so it may be gone as a whole
  | @name leaf more hk _ ih =>
    obtain ⟨hfit, -, hfits⟩ := hfits.node
    cases hsoft with
    | stay hstays hmore =>
      have hkeeps := ((hfit hstays).firm (by simp)).keeps leaf (by simp)
      obtain ⟨names', hleaves, hnames⟩ := ih hfits hmore
      exact ⟨.node .structName [.leaf (r.image leaf)] :: names', by simp [hkeeps.bare_eq, hleaves],
        .name (by rw [hkeeps.like.kind, hk]) hnames⟩
    | gone hgone _ hmore =>
      obtain ⟨names', hleaves, hnames⟩ := ih hfits hmore
      refine ⟨names', ?_, hnames⟩
      rw [Branch.leavesAll_cons, List.flatMap_append, hgone.flatMap_bare, hleaves]
      rfl
  -- a word may be dropped, but is none of the kinds that the declarators look at
  | @word leaf more hk _ ih =>
    obtain ⟨hleaf, free', hmore⟩ := hsoft.leaf
    obtain ⟨names', hleaves, hnames⟩ := ih hfits.leaf hmore
    rcases hleaf with hkeeps | hdrops
    · exact ⟨.leaf (r.image leaf) :: names', by simp [hkeeps.bare_eq, hleaves],
        .word (by rw [hkeeps.like.kind, hk]) hnames⟩
    · exact ⟨names', by simp [hdrops.bare, hleaves], hnames⟩
  -- what the declarators look at is kept
  | @assign _ leaf more hk _ ih =>
    obtain ⟨hleaf, free', hmore⟩ := hsoft.leaf
    have hkeeps := keeps_of_kind hleaf (by simp [hk])
    obtain ⟨names', hleaves, hnames⟩ := ih hfits.leaf hmore
    exact ⟨.leaf (r.image leaf) :: names', by simp [hkeeps.bare_eq, hleaves],
      .assign (by rw [hkeeps.like.kind, hk]) hnames⟩
  | @comma _ leaf more hk _ ih =>
    obtain ⟨hleaf, free', hmore⟩ := hsoft.leaf
    have hkeeps := keeps_of_kind hleaf (by simp [hk])
    obtain ⟨names', hleaves, hnames⟩ := ih hfits.leaf hmore
    exact ⟨.leaf (r.image leaf) :: names', by simp [hkeeps.bare_eq, hleaves],
      .comma (by rw [hkeeps.like.kind, hk]) hnames⟩
  | @other _ leaf more hplain hsymbol hcomma _ ih =>
    obtain ⟨hleaf, free', hmore⟩ := hsoft.leaf
    obtain ⟨names', hleaves, hnames⟩ := ih hfits.leaf hmore
    rcases hleaf with hkeeps | hdrops
    · exact ⟨.leaf (r.image leaf) :: names', by simp [hkeeps.bare_eq, hleaves],
        .other (by rw [hkeeps.like.kind, hplain]) (by rw [hkeeps.like.kind]; exact hsymbol)
          (by rw [hkeeps.like.kind]; exact hcomma) hnames⟩
    · exact ⟨names', by simp [hdrops.bare, hleaves], hnames⟩

/-- A construct that does not begin with a symbol opens no linkage block. -/
theorem Stands.not_linkage (h : r.Stands x) (hwords : x.text = "extern" → x.kind = .symbol)
    (hkind : x.kind ≠ .symbol) (ahead : List Leaf) :
    Outline.atLinkageBlock { rest := r.image x :: ahead } = false := by
  have htext : (r.image x).text ≠ "extern" := fun htext => hkind (hwords (h.like.linkage.mp htext))
  unfold Outline.atLinkageBlock
  simp [htext]

/-- **The head of a function** keeps its words, and its parameter list its parentheses. -/
theorem recast_prototype {fits : TokenKind → TokenKind → Prop}
    (hfits : ∀ leaves, Nested leaves → Outline.Paired fits leaves)
    (h : Prototype fits name opener inner closer quals) (hname : ∀ x ∈ name, r.Keeps x)
    (hquals : ∀ x ∈ quals, r.Keeps x)
    (hparams : r.Fit .functionParams ((opener :: (inner ++ [closer])).map .leaf)) :
    (opener :: (inner ++ [closer])).flatMap r.bare
        = r.image opener :: (inner.flatMap r.bare ++ [r.image closer])
      ∧ Prototype fits (name.map r.image) (r.image opener) (inner.flatMap r.bare) (r.image closer)
        (quals.map r.image) := by
  obtain ⟨hopener, hcloser, hinner, hhead⟩ :=
    hparams.params rfl opener inner closer (Branch.leavesAll_map_leaf _)
  refine ⟨by simp [hopener.bare_eq, hcloser.bare_eq], ?_⟩
  exact h.map (fun x hx => (hname x hx).like) hopener.like hcloser.like
    (fun x hx => (hquals x hx).like) (hfits _ hinner) hhead

/-- A statement that may have lost words begins as it did: the next leaf is of the kind it was,
    and a word is followed by what followed it. -/
theorem Soft.next (h : r.Soft false parts) (hfits : r.Fits parts)
    (hreads : Reads (.tail goesOn) parts rest) (hfollows : Follows rest rest') {y : Leaf}
    {ys : List Leaf} (hnew : (leavesAll parts).flatMap r.bare ++ rest' = y :: ys) :
    ∃ x xs, leavesAll parts ++ rest = x :: xs ∧ y.kind = x.kind
      ∧ (x.kind.isPlain = true → (x.kind = .symbol → x.text = "extern") → ∃ more,
        r.Soft false more ∧ r.Fits more ∧ Reads (.tail goesOn) more rest
          ∧ xs = leavesAll more ++ rest ∧ ys = (leavesAll more).flatMap r.bare ++ rest') := by
  cases h with
  -- nothing is left of the statement: what follows goes on as before
  | nil =>
    rw [Branch.leavesAll_nil, List.flatMap_nil, List.nil_append] at hnew
    have hend := hreads.tail_nil
    have hy := hfollows.closes hend y (by rw [hnew]; rfl)
    cases hfollows with
    | nil => simp at hnew
    | @cons x _ xs _ _ _ =>
      have hx := hend x rfl
      refine ⟨x, xs, rfl, by rw [hy, hx], fun hplain => ?_⟩
      rw [hx] at hplain
      exact Bool.noConfusion hplain
  -- the next leaf is kept, and what is behind it is soft again
  | @keep _ x more hkeeps hmore =>
    rw [Branch.leavesAll_cons, Branch.leaves_leaf, List.singleton_append, List.flatMap_cons,
      hkeeps.bare_eq] at hnew
    obtain ⟨rfl, rfl⟩ := List.cons.inj hnew
    refine ⟨x, leavesAll more ++ rest, by simp, hkeeps.like.kind, fun hplain hspelled => ?_⟩
    obtain ⟨more', hparts, -, hreads'⟩ := hreads.tail_word
      (show leavesAll (.leaf x :: more) ++ rest = x :: (leavesAll more ++ rest) by simp) hplain
    obtain ⟨-, rfl⟩ := List.cons.inj hparts
    have hfree : (x.kind == .symbol && x.text != "extern") = false := by
      by_cases hk : x.kind = .symbol
      · simp [hspelled hk]
      · simp [hk]
    rw [hfree] at hmore
    exact ⟨more, hmore, hfits.leaf, hreads', rfl, rfl⟩
  | @stay _ kind inside more hstays hmore =>
    obtain ⟨x, xs, hleaves, hstands⟩ := (hfits.node.1 hstays).exists_head hstays
    rw [Branch.leavesAll_cons, Branch.leaves_node, hleaves, List.cons_append, List.flatMap_cons,
      hstands.bare_eq] at hnew
    obtain ⟨rfl, -⟩ := List.cons.inj hnew
    refine ⟨x, xs ++ leavesAll more ++ rest, by simp [hleaves], hstands.like.kind,
      fun hplain _ => ?_⟩
    obtain ⟨more', hparts, -⟩ := hreads.tail_word
      (show leavesAll (.node kind inside :: more) ++ rest = x :: (xs ++ leavesAll more ++ rest) by
        simp [hleaves]) hplain
    simp at hparts

/-- A statement that may have lost words opens a linkage block only if it did. -/
theorem Soft.not_linkage (h : r.Soft false parts) (hfits : r.Fits parts)
    (hreads : Reads (.tail goesOn) parts rest) (hfollows : Follows rest rest')
    (hfirst : (leavesAll parts).head? = some first) (hstands : r.Stands first)
    (hwords : first.text = "extern" → first.kind = .symbol)
    (hold : Outline.atLinkageBlock { rest := leavesAll parts ++ rest } = false) :
    Outline.atLinkageBlock { rest := (leavesAll parts).flatMap r.bare ++ rest' } = false := by
  rw [Bool.eq_false_iff] at hold ⊢
  intro hnew
  refine hold ?_
  obtain ⟨y₁, y₂, y₃, ys, hys, htext, hstring, hbrace⟩ := Outline.atLinkageBlock_inv hnew
  obtain ⟨xs, hxs⟩ := List.head?_eq_some_iff.mp hfirst
  have hy₁ : y₁ = r.image first := by
    rw [hxs, List.flatMap_cons, hstands.bare_eq] at hys
    exact (List.cons.inj hys).1.symm
  -- leaf by leaf the old declaration begins as the new one
  obtain ⟨x₁, xs₁, hahead, -, hmore⟩ := h.next hfits hreads hfollows hys
  obtain rfl : x₁ = first := by
    rw [hxs] at hahead
    exact (List.cons.inj hahead).1.symm
  rw [hy₁] at htext
  have hspelled := hstands.like.linkage.mp htext
  obtain ⟨more₁, hsoft₁, hfits₁, hreads₁, rfl, hys₁⟩ :=
    hmore (by rw [hwords hspelled]; rfl) fun _ => hspelled
  obtain ⟨x₂, xs₂, hahead₂, hkind₂, hmore⟩ := hsoft₁.next hfits₁ hreads₁ hfollows hys₁.symm
  rw [hstring] at hkind₂
  obtain ⟨more₂, hsoft₂, hfits₂, hreads₂, rfl, hys₂⟩ :=
    hmore (by rw [← hkind₂]; rfl) (by rw [← hkind₂]; simp)
  obtain ⟨x₃, xs₃, hahead₃, hkind₃, -⟩ := hsoft₂.next hfits₂ hreads₂ hfollows hys₂.symm
  rw [hahead, hahead₂, hahead₃]
  unfold Outline.atLinkageBlock Outline.Feed.kindAt?
  simp [hspelled, ← hkind₂, ← hkind₃, hbrace]

/-- What is made of a construct: one of the new leaves that opens a linkage block only if the old
    one did. -/
def Rescoped (r : Recast) (parts : List Branch) (rest rest' : List Leaf) : Prop :=
  ∃ branch, branch.leaves = (leavesAll parts).flatMap r.bare ∧ Reads .construct [branch] rest'
    ∧ (Outline.atLinkageBlock { rest := leavesAll parts ++ rest } = false →
      Outline.atLinkageBlock { rest := branch.leaves ++ rest' } = false)

/-- A construct that does not begin with a symbol. -/
theorem rescoped_of_kind {branch : Branch} (hfit : r.Fit kind parts)
    (hfirst : (leavesAll parts).head? = some first) (hkind : first.kind ≠ .symbol)
    (hwords : Outline.Spelled (leavesAll parts))
    (hleaves : branch.leaves = (leavesAll parts).flatMap r.bare)
    (hreads : Reads .construct [branch] rest') : r.Rescoped parts rest rest' := by
  refine ⟨branch, hleaves, hreads, fun _ => ?_⟩
  obtain ⟨xs, hxs⟩ := List.head?_eq_some_iff.mp hfirst
  have hstands := hfit.head first hfirst
  rw [hleaves, hxs, List.flatMap_cons, hstands.bare_eq]
  exact hstands.not_linkage (hwords.linkage first (by simp [hxs])) hkind _

/-- A statement that begins with the word for an aggregate has it before its first block. -/
theorem heading_head {heading : List Leaf} {inside : List Branch} {block : NodeKind}
    (hparts : parts = heading.map .leaf ++ .node block inside :: more)
    (hreads : Reads (.tail goesOn) parts rest) (hwords : Outline.Spelled (leavesAll parts))
    (hfirst : (leavesAll parts).head? = some first) (haggregate : isAggregate first = true) :
    heading.head? = some first := by
  subst hparts
  cases heading with
  | nil =>
    -- a brace is no word
    obtain ⟨-, behind, hblock⟩ := hreads.tail_heading
    obtain ⟨brace, tail, hbrace, hk⟩ := hblock.block_head
    rw [Branch.leaves_node] at hbrace
    obtain rfl : brace = first := by simpa [hbrace] using hfirst
    have hplain := hwords.aggregate brace (by simp [hbrace]) haggregate
    rw [hk] at hplain
    exact Bool.noConfusion hplain
  | cons head heading => simpa using hfirst

/-- **The old leaves and the new ones** up to the first block, of a statement that begins with the
    word for an aggregate and keeps its leaves so far. -/
theorem Firm.heading {heading : List Leaf} {inside : List Branch} {block : NodeKind}
    (hfirm : r.Firm (heading.map .leaf ++ [.node block inside]))
    (hfits : r.Fits (heading.map .leaf ++ .node block inside :: more))
    (hreads : Reads (.tail goesOn) (heading.map .leaf ++ .node block inside :: more) rest)
    (hwords : Outline.Spelled (leavesAll (heading.map .leaf ++ .node block inside :: more)))
    (hfirst : (leavesAll (heading.map .leaf ++ .node block inside :: more)).head? = some first)
    (haggregate : isAggregate first = true) (rest' : List Leaf) :
    ∃ brace behind behind', brace.kind = .lbrace ∧ (r.image brace).kind = .lbrace
      ∧ Outline.Level heading ∧ heading.head? = some first ∧ (∀ x ∈ heading, Like x (r.image x))
      ∧ leavesAll (heading.map .leaf ++ .node block inside :: more) ++ rest
        = heading ++ brace :: behind
      ∧ (leavesAll (heading.map .leaf ++ .node block inside :: more)).flatMap r.bare ++ rest'
        = heading.map r.image ++ r.image brace :: behind' := by
  have hhead := heading_head rfl hreads hwords hfirst haggregate
  obtain ⟨hlevel, behind, hblock⟩ := hreads.tail_heading
  obtain ⟨brace, tail, hbrace, hk⟩ := hblock.block_head
  rw [Branch.leaves_node] at hbrace
  obtain ⟨hheading, hrest⟩ := firm_append.mp hfirm
  have hkeeps := hheading.map_leaf
  have hstands := ((fits_append.mp hfits).2.node.1 hrest.node.1).head brace (by rw [hbrace]; rfl)
  refine ⟨brace, tail ++ leavesAll more ++ rest, r.trail brace ++ tail.flatMap r.bare
    ++ (leavesAll more).flatMap r.bare ++ rest', hk, by rw [hstands.like.kind, hk], hlevel, hhead,
    fun x hx => (hkeeps x hx).like, ?_, ?_⟩
  · simp [hbrace]
  · simp [flatMap_bare_of_keeps hkeeps, hbrace, hstands.bare_eq]

/-- **A statement that keeps its leaves** up to its first block stays a statement. -/
theorem rescope_firm {heading : List Leaf} {inside : List Branch} {block : NodeKind}
    (hparts : parts = heading.map .leaf ++ .node block inside :: more)
    (hfirst : (leavesAll parts).head? = some first) (hgoesOn : isAggregate first = true)
    (hdeclares : Outline.Declares (leavesAll parts ++ rest))
    (hclassify : Outline.classify (leavesAll parts ++ rest) = .statement)
    (hreads : Reads (.tail (isAggregate first)) parts rest)
    (hfits : r.Fits parts) (hfirm : r.Firm (heading.map .leaf ++ [.node block inside]))
    (hwords : Outline.Spelled (leavesAll parts))
    {parts' : List Branch} (hleaves : leavesAll parts' = (leavesAll parts).flatMap r.bare)
    (hfirst' : (leavesAll parts').head? = some (r.image first))
    (hreads' : Reads (.tail (isAggregate first)) parts' rest') : r.Rescoped parts rest rest' := by
  subst hparts
  -- up to the first brace both texts are alike, leaf by leaf
  obtain ⟨brace, behind, behind', hk, hk', hlevel, hhead, hlike, hold, hnew⟩ :=
    hfirm.heading hfits hreads hwords hfirst hgoesOn rest'
  have hne : heading ≠ [] := by
    rintro rfl
    simp at hhead
  rw [← hleaves] at hnew
  rw [hold] at hdeclares hclassify
  refine ⟨.node .statement parts', by rw [Branch.leaves_node, hleaves], .statement hfirst' ?_ ?_ ?_,
    ?_⟩
  · rw [hnew]
    exact hdeclares.map hne hlike (.inr hk) (by rw [hk', hk]) _
  · rw [hnew]
    exact Outline.classifyFrom_map hlevel hk hk' rfl (by simp) hlike _ _ hclassify
  · rw [(hlike first (List.mem_of_head? hhead)).isAggregate_eq]
    exact hreads'
  · rw [Branch.leaves_node, hnew, hold]
    intro hlinkage
    rw [← hlinkage]
    exact (Outline.ahead_map hne hlike (.inr hk) (by rw [hk', hk]) _ _).2.2

/-- **A statement** turns out to be a statement or a function. -/
theorem rescope_statement (hfit : r.Fit .statement parts) (hfits : r.Fits parts)
    (hfirst : (leavesAll parts).head? = some first)
    (hdeclares : Outline.Declares (leavesAll parts ++ rest))
    (hclassify : Outline.classify (leavesAll parts ++ rest) = .statement)
    (hreads : Reads (.tail (isAggregate first)) parts rest) (hfollows : Follows rest rest')
    (hwhole : ∀ top, top <+: parts → Branch.HeadsAggregate .statement top → r.Firm top)
    (hwords : Outline.Spelled (leavesAll parts)) : r.Rescoped parts rest rest' := by
  have hsoft := hfit.soft (.inl rfl)
  obtain ⟨parts', hleaves, hreads', honly⟩ :=
    hreads.recast_nested hfits rest' hfollows false hsoft
  obtain ⟨hstands, hfirst'⟩ := hfit.first_leaf hfirst hleaves
  have hlinkage := hsoft.not_linkage hfits hreads hfollows hfirst hstands
    (hwords.linkage first (List.mem_of_head? hfirst))
  have hkind : (r.image first).kind
      ∉ [.hash, .typedef, .semicolon, .rbrace, .rparen, .rbracket] := by
    obtain ⟨first', hfirst', hkinds, -⟩ := hdeclares
    rw [List.head?_append, hfirst] at hfirst'
    obtain rfl := Option.some.inj hfirst'
    rw [hstands.like.kind]
    exact hkinds
  -- the leaves decide, unless the statement goes on behind its braces
  have hdecided : (isAggregate first = true → ∃ leaves : List Leaf, parts' = leaves.map .leaf) →
      r.Rescoped parts rest rest' := by
    intro hwhole'
    rw [← hstands.like.isAggregate_eq] at hreads' hwhole'
    obtain ⟨branch, hbranch, hconstruct⟩ := hreads'.construct_of_tail hfirst' hkind hwhole'
    rw [hleaves] at hbranch
    refine ⟨branch, hbranch, hconstruct, fun hold => ?_⟩
    rw [hbranch]
    exact hlinkage hold
  rcases Branch.leaves_or_node parts with ⟨leaves, hmap⟩ | ⟨heading, block, inside, more, hparts⟩
  · exact hdecided fun _ => honly leaves hmap
  · by_cases hgoesOn : isAggregate first = true
    · have hfirm := hwhole _ ⟨more, by simp [hparts]⟩ ⟨heading, block, inside, first, rfl, hgoesOn,
        .inl ⟨rfl, heading_head hparts hreads hwords hfirst hgoesOn⟩⟩
      exact rescope_firm hparts hfirst hgoesOn hdeclares hclassify hreads hfits hfirm hwords hleaves
        hfirst' hreads'
    · exact hdecided fun haggregate => absurd haggregate hgoesOn

/-- Behind `typedef` no struct with a body comes up that was not there. -/
theorem typedef_not_struct (hsoft : r.Soft false parts) (hfits : r.Fits parts)
    (hreads : Reads (.tail true) parts rest) (hfollows : Follows rest rest')
    (hwords : Outline.Spelled (leavesAll parts))
    (hold : Outline.atStructBody { rest := leavesAll parts ++ rest } = false)
    (hwhole : ∀ (heading : List Leaf) block inside more word,
      parts = heading.map .leaf ++ .node block inside :: more → isAggregate word = true →
      heading.head? = some word → r.Firm (heading.map .leaf ++ [.node block inside]))
    {parts' : List Branch} (hleaves : leavesAll parts' = (leavesAll parts).flatMap r.bare)
    (hreads' : Reads (.tail true) parts' rest')
    (honly : ∀ leaves : List Leaf, parts = leaves.map .leaf →
      ∃ leaves' : List Leaf, parts' = leaves'.map .leaf) :
    Outline.atStructBody { rest := leavesAll parts' ++ rest' } = false := by
  rcases Branch.leaves_or_node parts with ⟨leaves, hmap⟩ | ⟨heading, block, inside, more, hparts⟩
  · obtain ⟨leaves', rfl⟩ := honly leaves hmap
    rw [Branch.leavesAll_map_leaf]
    exact hreads'.tail_not_atStructBody
  rw [Bool.eq_false_iff]
  intro hbody
  -- the word for the struct was there before
  obtain ⟨first, _, _, _, hahead, hstruct, -⟩ := Outline.atStructBody_inv hbody
  rw [hleaves] at hahead
  obtain ⟨word, words, hword, hkind, -⟩ := hsoft.next hfits hreads hfollows hahead
  rw [hstruct] at hkind
  obtain ⟨more', hcons, -⟩ := hreads.tail_word hword (by rw [← hkind]; rfl)
  have haggregate : isAggregate word = true := by
    unfold isAggregate
    rw [← hkind]
    rfl
  have hhead : (leavesAll parts).head? = some word := by
    rw [hcons]
    simp
  have hfirm := hwhole heading block inside more word hparts haggregate
    (heading_head hparts hreads hwords hhead haggregate)
  -- so the leaves are those of before, and a struct with a body was ahead
  subst hparts
  obtain ⟨brace, behind, behind', hk, hk', -, hheading, hlike, hsame, hnew⟩ :=
    hfirm.heading hfits hreads hwords hhead haggregate rest'
  have hne : heading ≠ [] := by
    rintro rfl
    simp at hheading
  rw [hleaves, hnew, (Outline.ahead_map hne hlike (.inr hk) (by rw [hk', hk]) behind behind').2.1,
    ← hsame, hold] at hbody
  exact Bool.noConfusion hbody

/-- **A function** keeps the words of its head, and ends as it did. -/
theorem rescope_function {fin : List Branch} (hkind : kind.isFunction = true)
    (hfit : r.Fit kind (name.map .leaf ++ .node .functionParams ((opener :: (inner ++ [closer])).map
      .leaf) :: (quals.map .leaf ++ fin)))
    (hfits : r.Fits (name.map .leaf ++ .node .functionParams ((opener :: (inner ++ [closer])).map
      .leaf) :: (quals.map .leaf ++ fin)))
    (hdeclares : Outline.Declares
      (name ++ opener :: (inner ++ closer :: (quals ++ (leavesAll fin ++ rest)))))
    (hproto : Prototype (fun opener closer => opener.closer? = some closer) name opener inner closer
      quals)
    (hfin : r.Firm fin → ∃ fin', leavesAll fin' = (leavesAll fin).flatMap r.bare
      ∧ (Outline.Declares (name.map r.image ++ r.image opener :: (inner.flatMap r.bare
          ++ r.image closer :: (quals.map r.image ++ (leavesAll fin' ++ rest')))) →
        Prototype (fun opener closer => opener.closer? = some closer) (name.map r.image)
          (r.image opener) (inner.flatMap r.bare) (r.image closer) (quals.map r.image) →
        Reads .construct [.node kind ((name.map r.image).map .leaf ++ .node .functionParams
          ((r.image opener :: (inner.flatMap r.bare ++ [r.image closer])).map .leaf)
            :: ((quals.map r.image).map .leaf ++ fin'))] rest')) :
    r.Rescoped (name.map .leaf ++ .node .functionParams ((opener :: (inner ++ [closer])).map .leaf)
      :: (quals.map .leaf ++ fin)) rest rest' := by
  have hfirm := hfit.firm (by cases kind <;> simp [NodeKind.isFunction] at hkind ⊢)
  obtain ⟨hname, hrest⟩ := firm_append.mp hfirm
  obtain ⟨hquals, hfirmFin⟩ := firm_append.mp hrest.node.2
  have hkeeps := hname.map_leaf
  have hkeeps' := hquals.map_leaf
  -- the parameter list may shrink, but keeps its parentheses
  obtain ⟨hparams, hproto'⟩ := recast_prototype (fun _ h => h) hproto hkeeps hkeeps'
    ((fits_append.mp hfits).2.node.1 hrest.node.1)
  have hlike : ∀ x ∈ name, Like x (r.image x) := fun x hx => (hkeeps x hx).like
  have hopener : (r.image opener).kind = opener.kind := by rw [hproto'.paren, hproto.paren]
  obtain ⟨fin', hleaves, hmake⟩ := hfin hfirmFin
  refine ⟨_, ?_,
    hmake (hdeclares.map hproto.name_ne_nil hlike (.inl hproto.paren) hopener _) hproto',
    fun hold => ?_⟩
  · simp only [Branch.leaves_node, Branch.leavesAll_append, Branch.leavesAll_map_leaf,
      Branch.leavesAll_cons, List.flatMap_append, flatMap_bare_of_keeps hkeeps,
      flatMap_bare_of_keeps hkeeps', hparams, hleaves]
  · simp only [Branch.leaves_node, Branch.leavesAll_append, Branch.leavesAll_map_leaf,
      Branch.leavesAll_cons, List.append_assoc, List.cons_append] at hold ⊢
    rw [← hold]
    exact (Outline.ahead_map hproto.name_ne_nil hlike (.inl hproto.paren) hopener _ _).2.2

/-- **A directive** begins as it did and ends where it did. -/
theorem rescope_directive (hfit : r.Fit .directive (leaves.map .leaf))
    (hwords : Outline.Spelled (leavesAll (leaves.map .leaf))) (hdir : Outline.Directive leaves rest)
    (hfollows : Follows rest rest') : r.Rescoped (leaves.map .leaf) rest rest' := by
  obtain ⟨hdir', hsame⟩ := recast_directive hfit hdir hfollows
  obtain ⟨hash, body, rfl, hk, -⟩ := hdir
  refine rescoped_of_kind hfit (by simp; rfl) (by simp [hk]) hwords ?_ (.directive hdir')
  rw [Branch.leaves_node, Branch.leavesAll_map_leaf, Branch.leavesAll_map_leaf, hsame]

/-- **A semicolon** on its own is kept. -/
theorem rescope_lone (hfit : r.Fit .token [.leaf x])
    (hwords : Outline.Spelled (leavesAll [.leaf x])) (hk : x.kind = .semicolon) :
    r.Rescoped [.leaf x] rest rest' := by
  have hkeeps := (hfit.firm (by simp)).keeps x (by simp)
  refine rescoped_of_kind hfit (by simp; rfl) (by simp [hk]) hwords ?_
    (.lone (by rw [hkeeps.like.kind, hk]))
  simp [hkeeps.bare_eq]

/-- The word `typedef` is kept, and what is behind it may lose words as a statement may. -/
theorem Fit.typedef (hfit : r.Fit .typedef (.leaf first :: parts))
    (hk : first.kind = .typedef) : r.Keeps first ∧ r.Soft false parts := by
  cases hfit.soft (.inr rfl) with
  | keep hkeeps hmore =>
    rw [hk] at hmore
    exact ⟨hkeeps, hmore⟩

/-- Behind `typedef` the definition of an aggregate keeps its leaves up to the braces. -/
theorem firm_behind_typedef {heading : List Leaf} {inside : List Branch} {block : NodeKind}
    {word : Leaf}
    (hwhole : ∀ top, top <+: .leaf first :: parts → Branch.HeadsAggregate .typedef top →
      r.Firm top)
    (hparts : parts = heading.map .leaf ++ .node block inside :: more)
    (haggregate : isAggregate word = true) (hhead : heading.head? = some word) :
    r.Firm (heading.map .leaf ++ [.node block inside]) := by
  refine (hwhole (.leaf first :: (heading.map .leaf ++ [.node block inside]))
    ⟨more, by simp [hparts]⟩ ⟨first :: heading, block, inside, word, rfl, haggregate,
      .inr ⟨rfl, ?_⟩⟩).leaf.2
  simpa [List.head?_eq_getElem?] using hhead

/-- **A `typedef`** of something other than a struct with a body stays one. -/
theorem rescope_typedef (hfit : r.Fit .typedef (.leaf first :: parts))
    (hfits : r.Fits (.leaf first :: parts))
    (hwhole : ∀ top, top <+: .leaf first :: parts → Branch.HeadsAggregate .typedef top →
      r.Firm top)
    (hwords : Outline.Spelled (leavesAll (.leaf first :: parts))) (hk : first.kind = .typedef)
    (hbody : Outline.atStructBody { rest := leavesAll parts ++ rest } = false)
    (htail : Reads (.tail true) parts rest) (hfollows : Follows rest rest') :
    r.Rescoped (.leaf first :: parts) rest rest' := by
  obtain ⟨hkeeps, hsoft⟩ := hfit.typedef hk
  obtain ⟨parts', hleaves, hreads', honly⟩ :=
    htail.recast_nested hfits.leaf rest' hfollows false hsoft
  have hbody' := typedef_not_struct hsoft hfits.leaf htail hfollows
    (hwords.subset fun x hx => by simp [hx]) hbody
    (fun heading block inside more word hparts haggregate hhead =>
      firm_behind_typedef hwhole hparts haggregate hhead) hleaves hreads' honly
  refine rescoped_of_kind hfit (by simp; rfl) (by simp [hk]) hwords ?_
    (.typedef (by rw [hkeeps.like.kind, hk]) hbody' hreads')
  simp [hkeeps.bare_eq, hleaves]

/-- **A `typedef` of a struct with a body**: the struct is kept, of its names some may be gone. -/
theorem rescope_typedefStruct {names : List Branch}
    (hfit : r.Fit .typedef (.leaf first :: .node .structDefn parts :: names))
    (hfits : r.Fits (.leaf first :: .node .structDefn parts :: names))
    (hwords : Outline.Spelled (leavesAll (.leaf first :: .node .structDefn parts :: names)))
    (hk : first.kind = .typedef) (hstruct : Reads .aggregate parts (leavesAll names ++ rest))
    (hnames : Declarators false names) :
    r.Rescoped (.leaf first :: .node .structDefn parts :: names) rest rest' := by
  obtain ⟨hkeeps, hsoft⟩ := hfit.typedef hk
  obtain ⟨hstays, hsoftNames⟩ : ¬ r.Gone (.node .structDefn parts) ∧ r.Soft false names := by
    cases hsoft with
    | stay hstays hnames => exact ⟨hstays, hnames⟩
  obtain ⟨hdefn, hinside, hnamesFits⟩ := hfits.leaf.node
  obtain ⟨names', hleaves', hnames'⟩ := recast_declarators hnames hnamesFits hsoftNames
  obtain ⟨parts', hleaves, hreads⟩ := hstruct.recast_nested hinside (leavesAll names' ++ rest')
    ((hdefn hstays).firm (by simp))
  refine rescoped_of_kind hfit (by simp; rfl) (by simp [hk]) hwords ?_
    (.typedefStruct (by rw [hkeeps.like.kind, hk]) hreads hnames')
  simp [hkeeps.bare_eq, hleaves, hleaves']

/-- **A struct without a body** is kept as it is. -/
theorem rescope_structDecl {tag last : Leaf}
    (hfit : r.Fit .structDecl [.leaf first, .node .structTag [.leaf tag], .leaf last])
    (hfits : r.Fits [.leaf first, .node .structTag [.leaf tag], .leaf last])
    (hwords : Outline.Spelled
      (leavesAll [.leaf first, .node .structTag [.leaf tag], .leaf last]))
    (hk : first.kind = .struct) (htag : tag.kind = .symbol) (hlast : last.kind = .semicolon) :
    r.Rescoped [.leaf first, .node .structTag [.leaf tag], .leaf last] rest rest' := by
  obtain ⟨hkeeps, hfirm⟩ := (hfit.firm (by simp)).leaf
  have htag' := ((hfits.leaf.node.1 hfirm.node.1).firm (by simp)).keeps tag (by simp)
  have hlast' := hfirm.node.2.leaf.1
  refine rescoped_of_kind hfit (by simp; rfl) (by simp [hk]) hwords ?_
    (.structDecl (by rw [hkeeps.like.kind, hk]) (by rw [htag'.like.kind, htag])
      (by rw [hlast'.like.kind, hlast]))
  simp [hkeeps.bare_eq, htag'.bare_eq, hlast'.bare_eq]

/-- **A struct with a body** is kept with its names, though not all of what it holds. -/
theorem rescope_structDefn {names : List Branch} (hfit : r.Fit .structDefn (parts ++ names))
    (hfits : r.Fits (parts ++ names)) (hwords : Outline.Spelled (leavesAll (parts ++ names)))
    (hstruct : Reads .aggregate parts (leavesAll names ++ rest))
    (hnames : Declarators false names) : r.Rescoped (parts ++ names) rest rest' := by
  obtain ⟨hfirm, hfirmNames⟩ := firm_append.mp (hfit.firm (by simp))
  obtain ⟨hinside, hnamesFits⟩ := fits_append.mp hfits
  obtain ⟨names', hleaves', hnames'⟩ :=
    recast_declarators hnames hnamesFits (hfirmNames.soft false)
  obtain ⟨parts', hleaves, hreads⟩ :=
    hstruct.recast_nested hinside (leavesAll names' ++ rest') hfirm
  obtain ⟨word, words, hword, hk⟩ := hstruct.aggregate_head
  refine rescoped_of_kind hfit (by simp [hword]; rfl) (by simp [hk]) hwords ?_
    (.structDefn hreads hnames')
  simp [hleaves, hleaves']

end Recast

/-- **One construct at file scope** is made of the new leaves. -/
theorem Outline.Reads.recast_construct {r : Recast} {kind : NodeKind} {parts : List Branch}
    {rest rest' : List Leaf} (h : Reads .construct [.node kind parts] rest)
    (hfits : r.Fits [.node kind parts]) (hstays : ¬ r.Gone (.node kind parts))
    (hwhole : ∀ top, top <+: parts → Branch.HeadsAggregate kind top → r.Firm top)
    (hwords : Spelled (leavesAll parts)) (hfollows : Recast.Follows rest rest') :
    r.Rescoped parts rest rest' := by
  obtain ⟨hfit, hparts, -⟩ := hfits.node
  have hfit := hfit hstays
  cases h with
  | directive hdir => exact Recast.rescope_directive hfit hwords hdir hfollows
  | lone hk => exact Recast.rescope_lone hfit hwords hk
  | typedef hk hbody htail =>
    exact Recast.rescope_typedef hfit hparts hwhole hwords hk hbody htail hfollows
  | typedefStruct hk hstruct hnames =>
    exact Recast.rescope_typedefStruct hfit hparts hwords hk hstruct hnames
  | structDecl hk htag hlast => exact Recast.rescope_structDecl hfit hparts hwords hk htag hlast
  | structDefn hstruct hnames => exact Recast.rescope_structDefn hfit hparts hwords hstruct hnames
  -- the two kinds of functions differ in what is behind the words of the head
  | @definition name inner quals opener closer body _ hdeclares hproto hblock =>
    have hbody := (Recast.fits_append.mp (Recast.fits_append.mp hparts).2.node.2.2).2
    refine Recast.rescope_function rfl hfit hparts (by simpa using hdeclares) hproto
      fun hfirm => ?_
    obtain ⟨body', hleaves, hreads⟩ := hblock.recast_nested hbody rest' hfirm
    refine ⟨[body'], by simpa using hleaves, fun hdeclares' hproto' => ?_⟩
    exact .definition (by simpa using hdeclares') hproto' hreads
  | @prototype name inner quals opener closer last _ hdeclares hproto hk =>
    refine Recast.rescope_function rfl hfit hparts (by simpa using hdeclares) hproto
      fun hfirm => ?_
    have hkeeps := hfirm.leaf.1
    refine ⟨[.leaf (r.image last)], by simp [hkeeps.bare_eq], fun hdeclares' hproto' => ?_⟩
    exact .prototype (by simpa using hdeclares') hproto' (by rw [hkeeps.like.kind, hk])
  | statement hfirst hdeclares hclassify htail =>
    exact Recast.rescope_statement hfit hparts hfirst hdeclares hclassify htail hfollows hwhole
      hwords

/-! ## §3. Constructs behind lines -/

namespace Recast

variable {r : Recast} {rest rest' : List Leaf} {branches more : List Branch} {branch : Branch}

/-- Constructs at file scope, none of which is gone, with lines before some of them. -/
structure Prepared (r : Recast) (branches : List Branch) : Prop where
  fits : r.Fits branches
  stays : ∀ branch ∈ branches, ¬ r.Gone branch
  atScope : ∀ branch ∈ branches, r.Scoped branch
  led : r.Led (leavesAll branches)
  words : Outline.Spelled (leavesAll branches)

/-- What is prepared is so in each part. -/
theorem Prepared.cons (h : r.Prepared (branch :: more)) :
    r.Prepared [branch] ∧ r.Prepared more := by
  obtain ⟨hfits, hmore⟩ := h.fits.cons
  have hfirst : ∀ x ∈ leavesAll [branch], x ∈ leavesAll (branch :: more) := by
    intro x hx
    simp only [Branch.leavesAll_cons, Branch.leavesAll_nil, List.append_nil] at hx
    simp [hx]
  have hrest : ∀ x ∈ leavesAll more, x ∈ leavesAll (branch :: more) := fun x hx => by simp [hx]
  refine ⟨⟨hfits, ?_, ?_, h.led.subset hfirst, h.words.subset hfirst⟩,
    ⟨hmore, ?_, ?_, h.led.subset hrest, h.words.subset hrest⟩⟩
  · simpa using h.stays branch List.mem_cons_self
  · simpa using h.atScope branch List.mem_cons_self
  · exact fun b hb => h.stays b (List.mem_cons_of_mem _ hb)
  · exact fun b hb => h.atScope b (List.mem_cons_of_mem _ hb)

/-- Without lines a leaf becomes what stands in its place and behind it. -/
theorem flatMap_chunk {leaves : List Leaf} (h : ∀ x ∈ leaves, r.lead x = []) :
    leaves.flatMap r.chunk = leaves.flatMap r.bare := by
  refine List.flatMap_congr fun x hx => ?_
  unfold chunk
  rw [h x hx, List.nil_append]

/-- What the grammar makes of the new leaves at file scope.  A construct begins with what is in
    place of its first leaf, behind the lines before that. -/
def Rescopes (r : Recast) (part : Outline.Part) (branches : List Branch) (rest : List Leaf) :
    Prop :=
  r.Prepared branches → ∀ rest', Follows rest rest' →
    match part with
    | .item => ∃ (first : Leaf) (behind : List Leaf) (branch : Branch),
        leavesAll branches = first :: behind
          ∧ (leavesAll branches).flatMap r.chunk = r.lead first ++ branch.leaves
          ∧ branch.leaves.head? = some (r.image first) ∧ r.Stands first
          ∧ Reads .item [branch] rest'
    | .items => ∃ branches',
        leavesAll branches' = (leavesAll branches).flatMap r.chunk ∧ Reads .items branches' rest'
          ∧ Follows (leavesAll branches ++ rest) (leavesAll branches' ++ rest')
    | _ => True

/-- The construct begins as it did, or with the first of the lines before it. -/
theorem Led.follows {all : List Leaf} (h : r.Led all) {first : Leaf} {leaves new : List Leaf}
    (hmem : first ∈ all) (hkind : first.kind ≠ .rbrace) (hstands : r.Stands first)
    (hnew : new.head? = some (r.image first)) (hrest : leaves.head? = some first) :
    Follows leaves (r.lead first ++ new) := by
  obtain ⟨more, rfl⟩ := List.head?_eq_some_iff.mp hrest
  cases hlead : r.lead first with
  | nil =>
    obtain ⟨new', rfl⟩ := List.head?_eq_some_iff.mp hnew
    exact .cons (fun hk => absurd hk hkind) hstands.like.line
  | cons line lines =>
    exact .cons (fun hk => absurd hk hkind) fun hstarts =>
      h.first first hmem hstarts line (by rw [hlead]; rfl)

/-- A construct that is no linkage block, behind its lines. -/
theorem rescope_item (hprepared : r.Prepared [branch])
    (hlinkage : Outline.atLinkageBlock { rest := branch.leaves ++ rest } = false)
    (hreads : Reads .construct [branch] rest) (hfollows : Follows rest rest') :
    ∃ (first : Leaf) (behind : List Leaf) (branch' : Branch), branch.leaves = first :: behind
      ∧ branch.leaves.flatMap r.chunk = r.lead first ++ branch'.leaves
      ∧ branch'.leaves.head? = some (r.image first) ∧ r.Stands first
      ∧ Reads .item [branch'] rest' := by
  have hstays := hprepared.stays branch List.mem_cons_self
  have hscope := hprepared.atScope branch List.mem_cons_self
  cases hscope with
  | linkage => cases hreads
  | @construct kind parts _ hleads hwhole =>
    have hwords : Outline.Spelled (leavesAll parts) := hprepared.words.subset (by simp)
    obtain ⟨branch', hleaves, hreads', hlinkage'⟩ :=
      hreads.recast_construct hprepared.fits hstays hwhole hwords hfollows
    obtain ⟨first, behind, hfirst, hstands⟩ :=
      (hprepared.fits.node.1 hstays).exists_head hstays
    rw [hfirst, List.tail_cons] at hleads
    -- what is put before the construct comes before its first leaf
    refine ⟨first, behind, branch', by rw [Branch.leaves_node, hfirst], ?_, ?_, hstands,
      .construct (hlinkage' hlinkage) hreads'⟩
    · rw [Branch.leaves_node, hleaves, hfirst, List.flatMap_cons, List.flatMap_cons,
        flatMap_chunk hleads]
      unfold chunk
      rw [List.append_assoc]
    · rw [hleaves, hfirst, List.flatMap_cons, hstands.bare_eq]
      rfl

/-- The lines before a construct are items in front of it. -/
theorem Led.items {all : List Leaf} (hled : r.Led all) {first : Leaf} (hmem : first ∈ all)
    (hhead : (leavesAll branches).head? = some (r.image first))
    (hreads : Reads .items branches rest') :
    ∃ branches', leavesAll branches' = r.lead first ++ leavesAll branches
      ∧ Reads .items branches' rest' := by
  by_cases hlead : r.lead first = []
  · exact ⟨branches, by rw [hlead, List.nil_append], hreads⟩
  · refine (hled.preface first hmem).items (hled.words first hmem) ?_ hreads
    rw [List.head?_append, hhead]
    rintro leaf ⟨⟩
    exact hled.behind first hmem hlead

/-- **A construct and those behind it**, with the lines before each. -/
theorem rescope_items (hitem : Reads .item [branch] (leavesAll more ++ rest))
    (hfirst : r.Rescopes .item [branch] (leavesAll more ++ rest))
    (hmore : r.Rescopes .items more rest) : r.Rescopes .items (branch :: more) rest := by
  intro hprepared rest' hfollows
  obtain ⟨hpreparedFirst, hpreparedMore⟩ := hprepared.cons
  obtain ⟨more', hleaves', hreads', hnext⟩ := hmore hpreparedMore rest' hfollows
  obtain ⟨first, behind, branch', hbegins, hleaves, hhead, hstands, hreads⟩ :=
    hfirst hpreparedFirst _ hnext
  rw [Branch.leavesAll_cons, Branch.leavesAll_nil, List.append_nil] at hbegins hleaves
  have hmem : first ∈ leavesAll (branch :: more) := by simp [hbegins]
  -- a construct does not begin with the brace that would end the items
  have hkind : first.kind ≠ .rbrace := by
    refine hitem.item_head (fun x hx htext => ?_) (by rw [hbegins]; rfl)
    rw [hprepared.words.linkage x (by simp [hx]) htext]
    rfl
  have hhead' : (leavesAll (branch' :: more')).head? = some (r.image first) := by
    rw [Branch.leavesAll_cons, List.head?_append, hhead]
    rfl
  have hchunks : (leavesAll (branch :: more)).flatMap r.chunk
      = r.lead first ++ leavesAll (branch' :: more') := by
    rw [Branch.leavesAll_cons, List.flatMap_append, hleaves, ← hleaves', Branch.leavesAll_cons,
      List.append_assoc]
  obtain ⟨all, hall, hreadsAll⟩ :=
    hprepared.led.items hmem hhead' (.itemsCons hreads hreads')
  refine ⟨all, by rw [hall, hchunks], hreadsAll, ?_⟩
  rw [hall, List.append_assoc]
  refine hprepared.led.follows hmem hkind hstands ?_ ?_
  · rw [List.head?_append, hhead']
    rfl
  · rw [Branch.leavesAll_cons, hbegins]
    rfl

variable {first name opener closer : Leaf} {parts : List Branch}

/-- A linkage block has lines before its first word only, and before the constructs inside. -/
theorem Scoped.linkage_inv (h : r.Scoped (.node .linkageBlock
      (.leaf first :: .leaf name :: .leaf opener :: (parts ++ [.leaf closer])))) :
    r.lead name = [] ∧ r.lead opener = [] ∧ r.lead closer = []
      ∧ ∀ branch ∈ parts, r.Scoped branch := by
  generalize hnode : Branch.node .linkageBlock
    (.leaf first :: .leaf name :: .leaf opener :: (parts ++ [.leaf closer])) = node at h
  cases h with
  | construct hkind =>
    cases hnode
    exact absurd rfl hkind
  | @linkage first₁ name₁ opener₁ closer₁ parts₁ hleadName hleadOpener hleadCloser hinside =>
    injection hnode with _ hparts
    simp only [List.cons.injEq, Branch.leaf.injEq] at hparts
    obtain ⟨rfl, rfl, rfl, hsame⟩ := hparts
    obtain ⟨rfl, hsame⟩ := List.append_inj' hsame rfl
    obtain rfl : closer = closer₁ := by simpa using hsame
    exact ⟨hleadName, hleadOpener, hleadCloser, hinside⟩

/-- The constructs inside of a linkage block are prepared as those around it. -/
theorem Prepared.inside (h : r.Prepared [.node .linkageBlock
      (.leaf first :: .leaf name :: .leaf opener :: (parts ++ [.leaf closer]))])
    (hfirm : r.Firm parts) : r.Prepared parts := by
  obtain ⟨-, -, -, hinside⟩ := (h.atScope _ List.mem_cons_self).linkage_inv
  refine ⟨(fits_append.mp h.fits.node.2.1.leaf.leaf.leaf).1, fun branch hmem => ?_, hinside,
    h.led.subset fun x hx => by simp [hx], h.words.subset fun x hx => by simp [hx]⟩
  cases hinside branch hmem with
  | construct => exact hfirm.stays _ _ hmem
  | linkage => exact hfirm.stays _ _ hmem

/-- **A linkage block** keeps its words and its braces around the constructs inside. -/
theorem rescope_linkage (htext : first.text = "extern") (hname : name.kind = .string)
    (hopener : opener.kind = .lbrace) (hcloser : closer.kind = .rbrace)
    (hinside : r.Rescopes .items parts (closer :: rest)) :
    r.Rescopes .item [.node .linkageBlock
      (.leaf first :: .leaf name :: .leaf opener :: (parts ++ [.leaf closer]))] rest := by
  intro hprepared rest' hfollows
  have hstays := hprepared.stays _ List.mem_cons_self
  -- nothing is put before the string and the braces
  obtain ⟨hleadName, hleadOpener, hleadCloser, -⟩ :=
    (hprepared.atScope _ List.mem_cons_self).linkage_inv
  obtain ⟨hfirst', hfirm⟩ := ((hprepared.fits.node.1 hstays).firm (by simp)).leaf
  obtain ⟨hname', hfirm⟩ := hfirm.leaf
  obtain ⟨hopener', hfirm⟩ := hfirm.leaf
  obtain ⟨hfirm, hlast⟩ := firm_append.mp hfirm
  have hcloser' := hlast.leaf.1
  obtain ⟨parts', hleaves, hreads, -⟩ :=
    hinside (hprepared.inside hfirm) _ (hcloser'.toStands.follows rest rest')
  refine ⟨first, name :: opener :: (leavesAll parts ++ [closer]),
    .node .linkageBlock (.leaf (r.image first) :: .leaf (r.image name)
      :: .leaf (r.image opener) :: (parts' ++ [.leaf (r.image closer)])),
    by simp, ?_, by simp, hfirst'.toStands, ?_⟩
  · simp [chunk, hleadName, hleadOpener, hleadCloser, hfirst'.bare_eq, hname'.bare_eq,
      hopener'.bare_eq, hcloser'.bare_eq, hleaves]
  · exact .linkage (hfirst'.like.linkage.mpr htext) (by rw [hname'.like.kind, hname])
      (by rw [hopener'.like.kind, hopener]) (by rw [hcloser'.like.kind, hcloser]) hreads

end Recast

/-- **Constructs at file scope** are made of the new leaves, with the lines put before them. -/
theorem Outline.Reads.recast_items {r : Recast} {part : Part} {branches : List Branch}
    {rest : List Leaf} (h : Reads part branches rest) : r.Rescopes part branches rest := by
  induction h with
  | linkage htext hname hopener hcloser _ ih =>
    exact Recast.rescope_linkage htext hname hopener hcloser ih
  | construct hlinkage hreads _ =>
    intro hprepared rest' hfollows
    rw [Branch.leavesAll_cons, Branch.leavesAll_nil, List.append_nil]
    exact Recast.rescope_item hprepared hlinkage hreads hfollows
  | itemsEnd hend =>
    intro _ rest' hfollows
    exact ⟨[], by simp, .itemsEnd (hfollows.closes hend), by simpa using hfollows⟩
  | itemsCons hitem _ ih ih' => exact Recast.rescope_items hitem ih ih'
  | _ => exact fun _ _ _ => trivial

/-- **The new leaves have an outline** if the changes respect the old one. -/
theorem Outline.Reads.recast {r : Recast} {branches : List Branch}
    (h : Reads .items branches []) (hprepared : r.Prepared branches) :
    ∃ branches', leavesAll branches' = (leavesAll branches).flatMap r.chunk
      ∧ Reads .items branches' [] := by
  obtain ⟨branches', hleaves, hreads, -⟩ := h.recast_items hprepared [] .nil
  exact ⟨branches', hleaves, hreads⟩

end KernelPrep
