/-
  KernelPrep.Proofs.Outline.Declaring — which declaration some leaves are.

  A declaration is a function or a statement by what stands ahead, and a change of a few
  leaves may turn one into the other.  Leaves that are read as the rest of a statement are a
  declaration in any case: where they look like the head of a function, the delimiters that
  the look-ahead does not tell apart were told apart in the statement.  A word may also be
  put in place of another, and then the declaration stays what it is, as long as both are of
  one kind and neither is one of the words that the readers know.

  Main definitions:
    * `Outline.Like` — one leaf may stand for another.

  Main statements:
    * `Outline.Reads.construct_of_tail` — a statement by its leaves is a declaration;
    * `Outline.Prototype.map`, `Outline.classifyFrom_map` — words in place of others.
-/
import KernelPrep.Proofs.Outline.Acceptance

namespace KernelPrep.Outline

open Branch (leavesAll)

/-! ## §1. The parts of a statement, by its leaves -/

section Tail

variable {goesOn : Bool} {parts : List Branch} {leaf opener closer first : Leaf}
  {inner name quals rest ahead : List Leaf} {before? last? : Option Leaf}

/-- **The first leaf of the rest of a statement**, by its kind: the statement ends before it or
    with it, or it opens a block or a group, or it is a part of its own. -/
theorem Reads.tail_first (h : Reads (.tail goesOn) parts rest)
    (hahead : leavesAll parts ++ rest = leaf :: ahead) :
    leaf.kind = .rbrace
      ∨ (leaf.kind = .semicolon ∧ parts = [.leaf leaf] ∧ rest = ahead)
      ∨ (leaf.kind = .lbrace ∧ ∃ block more, parts = block :: more
        ∧ Reads .block [block] (leavesAll more ++ rest) ∧ (goesOn = false → more = []))
      ∨ ((leaf.kind = .lparen ∨ leaf.kind = .lbracket) ∧ ∃ inner closer more,
        parts = (leaf :: (inner ++ [closer])).map .leaf ++ more
          ∧ leaf.kind.closer? = some closer.kind ∧ Nested inner
          ∧ ahead = inner ++ closer :: (leavesAll more ++ rest) ∧ Reads (.tail goesOn) more rest)
      ∨ leaf.kind = .assign
      ∨ (leaf.kind.isPlain = true ∧ ∃ more, parts = .leaf leaf :: more
        ∧ leavesAll more ++ rest = ahead ∧ Reads (.tail goesOn) more rest) := by
  cases h with
  -- the first leaf ahead is the first of the part, or else what is behind an empty one
  | tailEnd hrest =>
    rw [Branch.leavesAll_nil, List.nil_append] at hahead
    exact .inl (hrest leaf (by rw [hahead]; rfl))
  | tailSemicolon hk =>
    rw [Branch.leavesAll_cons, Branch.leaves_leaf, Branch.leavesAll_nil] at hahead
    obtain ⟨rfl, rfl⟩ := List.cons.inj hahead
    exact .inr (.inl ⟨hk, rfl, rfl⟩)
  | tailBlock hblock =>
    obtain ⟨brace, tail, hleaves, ho⟩ := hblock.block_head
    rw [Branch.leavesAll_cons, hleaves] at hahead
    obtain ⟨rfl, -⟩ := List.cons.inj hahead
    exact .inr (.inr (.inl ⟨ho, _, [], rfl, by simpa using hblock, fun _ => rfl⟩))
  | tailBlockOn hblock _ =>
    obtain ⟨brace, tail, hleaves, ho⟩ := hblock.block_head
    rw [Branch.leavesAll_cons, hleaves] at hahead
    obtain ⟨rfl, -⟩ := List.cons.inj hahead
    exact .inr (.inr (.inl ⟨ho, _, _, rfl, hblock, by simp⟩))
  | tailGroup hgroup hhead ho hmore =>
    obtain ⟨opener', inner, closer, rfl, hcloser, hnested⟩ := hgroup
    obtain rfl := Option.some.inj hhead
    simp only [Branch.leavesAll_append, Branch.leavesAll_map_leaf, List.cons_append,
      List.append_assoc, List.nil_append, List.cons.injEq] at hahead
    obtain ⟨rfl, rfl⟩ := hahead
    exact .inr (.inr (.inr (.inl
      ⟨ho, inner, closer, _, rfl, hcloser, hnested, rfl, hmore⟩)))
  | tailAssign hk _ =>
    rw [Branch.leavesAll_cons, Branch.leaves_leaf] at hahead
    obtain ⟨rfl, -⟩ := List.cons.inj hahead
    exact .inr (.inr (.inr (.inr (.inl hk))))
  | tailWord hplain hmore =>
    rw [Branch.leavesAll_cons, Branch.leaves_leaf] at hahead
    obtain ⟨rfl, rfl⟩ := List.cons.inj hahead
    exact .inr (.inr (.inr (.inr (.inr ⟨hplain, _, rfl, rfl, hmore⟩))))

/-- A statement ends before a brace that closes, or with the file. -/
theorem Reads.tail_nil (h : Reads (.tail goesOn) [] rest) :
    ∀ leaf ∈ rest.head?, leaf.kind = .rbrace := by
  generalize hparts : ([] : List Branch) = parts at h
  cases h with
  | tailEnd hend => exact hend
  | tailGroup _ hhead _ _ =>
    obtain ⟨tail, rfl⟩ := List.head?_eq_some_iff.mp hhead
    simp at hparts
  | _ => simp at hparts

/-- A word is a part of its own. -/
theorem Reads.tail_word (h : Reads (.tail goesOn) parts rest)
    (hahead : leavesAll parts ++ rest = leaf :: ahead) (hplain : leaf.kind.isPlain = true) :
    ∃ more, parts = .leaf leaf :: more ∧ leavesAll more ++ rest = ahead
      ∧ Reads (.tail goesOn) more rest := by
  have hno : ∀ {kind : TokenKind}, leaf.kind = kind → kind.isPlain = false → False := by
    rintro kind rfl hkind
    rw [hplain] at hkind
    exact Bool.noConfusion hkind
  rcases h.tail_first hahead with hk | ⟨hk, -⟩ | ⟨hk, -⟩ | ⟨hk | hk, -⟩ | hk | ⟨-, hword⟩
  · exact (hno hk rfl).elim
  · exact (hno hk rfl).elim
  · exact (hno hk rfl).elim
  · exact (hno hk rfl).elim
  · exact (hno hk rfl).elim
  · exact (hno hk rfl).elim
  · exact hword

/-- A group is a part leaf by leaf, and its delimiters match. -/
theorem Reads.tail_group (h : Reads (.tail goesOn) parts rest)
    (hahead : leavesAll parts ++ rest = opener :: (inner ++ closer :: ahead))
    (hopener : opener.kind = .lparen ∨ opener.kind = .lbracket) (hinner : Level inner)
    (hc : closer.kind.isCloser = true) :
    opener.kind.closer? = some closer.kind ∧ Nested inner ∧ ∃ more,
      parts = (opener :: (inner ++ [closer])).map .leaf ++ more
        ∧ leavesAll more ++ rest = ahead ∧ Reads (.tail goesOn) more rest := by
  rcases h.tail_first hahead with hk | ⟨hk, -⟩ | ⟨hk, -⟩
      | ⟨-, inner', closer', more, rfl, hcloser, hnested, heq, hmore⟩ | hk | ⟨hplain, -⟩
  · simp [hk] at hopener
  · simp [hk] at hopener
  · simp [hk] at hopener
  · -- both closers close the same delimiter
    obtain ⟨rfl, rfl, rfl⟩ :=
      Paired.unique hinner hnested.level hc (closer?_isCloser hcloser).2 heq
    exact ⟨hcloser, hnested, more, rfl, rfl, hmore⟩
  · simp [hk] at hopener
  · rcases hopener with hk | hk <;> simp [hk, TokenKind.isPlain, TokenKind.isDelimiter,
      TokenKind.isOpener] at hplain

/-- A `;` is the last part. -/
theorem Reads.tail_semicolon (h : Reads (.tail goesOn) parts rest)
    (hahead : leavesAll parts ++ rest = leaf :: ahead) (hsemicolon : leaf.kind = .semicolon) :
    parts = [.leaf leaf] ∧ rest = ahead := by
  rcases h.tail_first hahead with hk | ⟨-, hlast⟩ | ⟨hk, -⟩ | ⟨hk | hk, -⟩ | hk | ⟨hplain, -⟩
  · simp [hk] at hsemicolon
  · exact hlast
  · simp [hk] at hsemicolon
  · simp [hk] at hsemicolon
  · simp [hk] at hsemicolon
  · simp [hk] at hsemicolon
  · simp [hsemicolon, TokenKind.isPlain] at hplain

/-- A brace opens a block, and a statement that does not go on ends behind it. -/
theorem Reads.tail_brace (h : Reads (.tail goesOn) parts rest)
    (hahead : leavesAll parts ++ rest = leaf :: ahead) (hbrace : leaf.kind = .lbrace) :
    ∃ block more, parts = block :: more ∧ Reads .block [block] (leavesAll more ++ rest)
      ∧ (goesOn = false → more = []) := by
  rcases h.tail_first hahead with hk | ⟨hk, -⟩ | ⟨-, hblock⟩ | ⟨hk | hk, -⟩ | hk | ⟨hplain, -⟩
  · simp [hk] at hbrace
  · simp [hk] at hbrace
  · exact hblock
  · simp [hk] at hbrace
  · simp [hk] at hbrace
  · simp [hk] at hbrace
  · simp [hbrace, TokenKind.isPlain, TokenKind.isDelimiter, TokenKind.isOpener] at hplain

/-- What comes before a parameter list is passed leaf by leaf. -/
theorem Reads.tail_leads (h : Reads (.tail goesOn) parts rest)
    (hleads : Leads before? name last?) (hahead : leavesAll parts ++ rest = name ++ ahead) :
    ∃ more, parts = name.map .leaf ++ more ∧ leavesAll more ++ rest = ahead
      ∧ Reads (.tail goesOn) more rest := by
  induction hleads generalizing parts with
  | nil => exact ⟨parts, rfl, hahead, h⟩
  | word hplain _ ih =>
    obtain ⟨more, rfl, hmore, hreads⟩ := h.tail_word hahead hplain
    obtain ⟨last, rfl, hlast⟩ := ih hreads hmore
    exact ⟨last, rfl, hlast⟩
  | group hopener hinner hc _ ih =>
    rw [List.cons_append, List.append_assoc, List.cons_append] at hahead
    obtain ⟨-, -, more, rfl, hmore, hreads⟩ :=
      h.tail_group hahead (hopener.imp And.left id) hinner hc
    obtain ⟨last, rfl, hlast⟩ := ih hreads hmore
    exact ⟨last, by simp, hlast⟩

/-- What comes behind a parameter list is passed leaf by leaf, and its delimiters match. -/
theorem Reads.tail_quals (h : Reads (.tail goesOn) parts rest)
    (hquals : Quals (fun _ _ => True) quals) (hahead : leavesAll parts ++ rest = quals ++ ahead) :
    Quals (fun opener closer => opener.closer? = some closer) quals ∧ ∃ more,
      parts = quals.map .leaf ++ more ∧ leavesAll more ++ rest = ahead
        ∧ Reads (.tail goesOn) more rest := by
  induction hquals generalizing parts with
  | nil => exact ⟨.nil, parts, rfl, hahead, h⟩
  | word hk _ ih =>
    obtain ⟨more, rfl, hmore, hreads⟩ := h.tail_word hahead (by rw [hk]; rfl)
    obtain ⟨hquals, last, rfl, hlast⟩ := ih hreads hmore
    exact ⟨.word hk hquals, last, rfl, hlast⟩
  | group hopener hc _ hinner _ ih =>
    rw [List.cons_append, List.append_assoc, List.cons_append] at hahead
    obtain ⟨hcloser, hnested, more, rfl, hmore, hreads⟩ := h.tail_group hahead hopener hinner hc
    obtain ⟨hquals, last, rfl, hlast⟩ := ih hreads hmore
    exact ⟨.group hopener hc hcloser hnested hquals, last, by simp, hlast⟩

/-- The kinds of the leaves that decide how a declaration with `struct` goes on. -/
theorem atStructDecl_inv {leaves : List Leaf} (h : atStructDecl { rest := leaves } = true) :
    ∃ first tag last more, leaves = first :: tag :: last :: more ∧ tag.kind = .symbol
      ∧ last.kind = .semicolon := by
  unfold atStructDecl Feed.kindAt? at h
  match leaves, h with
  | first :: tag :: last :: more, h => exact ⟨first, tag, last, more, rfl, by simpa using h⟩
  | [], h | [_], h | [_, _], h => simp at h

/-- A struct with a body is ahead as `struct`, at most a tag, and a brace. -/
theorem atStructBody_inv {leaves : List Leaf} (h : atStructBody { rest := leaves } = true) :
    ∃ first words brace more, leaves = first :: (words ++ brace :: more) ∧ first.kind = .struct
      ∧ (∀ word ∈ words, word.kind = .symbol) ∧ brace.kind = .lbrace := by
  unfold atStructBody Feed.kindAt? at h
  match leaves, h with
  | first :: brace :: more, h =>
    simp only [List.getElem?_cons_zero, Option.map_some, List.getElem?_cons_succ,
      Bool.and_eq_true, Bool.or_eq_true, beq_iff_eq, Option.some.injEq] at h
    obtain ⟨hk, hbrace | ⟨hsymbol, hbrace⟩⟩ := h
    · exact ⟨first, [], brace, more, rfl, hk, by simp, hbrace⟩
    · cases more with
      | nil => simp at hbrace
      | cons brace' more =>
        exact ⟨first, [brace], brace', more, rfl, hk, by simpa using hsymbol, by simpa using hbrace⟩
  | [], h | [_], h => simp at h

/-- A linkage block is ahead as `extern`, a string and a brace. -/
theorem atLinkageBlock_inv {leaves : List Leaf} (h : atLinkageBlock { rest := leaves } = true) :
    ∃ first name brace more, leaves = first :: name :: brace :: more ∧ first.text = "extern"
      ∧ name.kind = .string ∧ brace.kind = .lbrace := by
  unfold atLinkageBlock Feed.kindAt? at h
  match leaves, h with
  | first :: name :: brace :: more, h =>
    exact ⟨first, name, brace, more, rfl, by simpa [and_assoc] using h⟩
  | [], h | [_], h | [_, _], h => simp at h

/-- Symbols are passed leaf by leaf. -/
theorem Reads.tail_symbols (h : Reads (.tail goesOn) parts rest)
    (hname : ∀ leaf ∈ name, leaf.kind.isPlain = true)
    (hahead : leavesAll parts ++ rest = name ++ ahead) :
    ∃ more, parts = name.map .leaf ++ more ∧ leavesAll more ++ rest = ahead
      ∧ Reads (.tail goesOn) more rest := by
  induction name generalizing parts with
  | nil => exact ⟨parts, rfl, hahead, h⟩
  | cons leaf name ih =>
    obtain ⟨more, rfl, hmore, hreads⟩ := h.tail_word hahead (hname leaf List.mem_cons_self)
    obtain ⟨last, rfl, hlast⟩ := ih hreads (fun x hx => hname x (List.mem_cons_of_mem _ hx)) hmore
    exact ⟨last, rfl, hlast⟩

/-- A statement without blocks has no brace where a struct would have its body. -/
theorem Reads.tail_not_atStructBody {leaves : List Leaf}
    (h : Reads (.tail goesOn) (leaves.map .leaf) rest) :
    atStructBody { rest := leaves ++ rest } = false := by
  rw [Bool.eq_false_iff]
  intro hbody
  obtain ⟨first, words, brace, more, hahead, hfirst, hwords, hbrace⟩ := atStructBody_inv hbody
  have hsplit : leavesAll (leaves.map .leaf) ++ rest = (first :: words) ++ brace :: more := by
    rw [Branch.leavesAll_map_leaf, hahead]
    rfl
  obtain ⟨last, hparts, hlast, hreads⟩ := h.tail_symbols (by
    intro leaf hleaf
    rcases List.mem_cons.mp hleaf with rfl | hleaf
    · rw [hfirst]
      rfl
    · rw [hwords leaf hleaf]
      rfl) hsplit
  obtain ⟨block, behind, rfl, hblock, -⟩ := hreads.tail_brace hlast hbrace
  have hleaf : block ∈ leaves.map Branch.leaf := by
    rw [hparts]
    simp
  obtain ⟨x, -, rfl⟩ := List.mem_map.mp hleaf
  cases hblock

/-- **A statement by its leaves is a declaration**, as a function or as a statement.  One that
    goes on behind braces must have none. -/
theorem Reads.construct_of_tail (h : Reads (.tail (isAggregate first)) parts rest)
    (hfirst : (leavesAll parts).head? = some first)
    (hkind : first.kind ∉ [.hash, .typedef, .semicolon, .rbrace, .rparen, .rbracket])
    (hwhole : isAggregate first = true → ∃ leaves : List Leaf, parts = leaves.map .leaf) :
    ∃ branch, branch.leaves = leavesAll parts ∧ Reads .construct [branch] rest := by
  have hhead : (leavesAll parts ++ rest).head? = some first := by
    rw [List.head?_append, hfirst]
    rfl
  have haggregate : first.kind = .struct → isAggregate first = true := by
    intro hk
    unfold isAggregate
    rw [hk]
    rfl
  by_cases hdecl : first.kind = .struct ∧ atStructDecl { rest := leavesAll parts ++ rest } = true
  · obtain ⟨hk, hdecl⟩ := hdecl
    obtain ⟨first', tag, last, more, hahead, htag, hlast⟩ := atStructDecl_inv hdecl
    obtain rfl : first' = first := by
      rw [hahead] at hhead
      exact Option.some.inj hhead
    obtain ⟨parts', rfl, hparts', hreads⟩ := h.tail_word hahead (by rw [hk]; rfl)
    obtain ⟨parts'', rfl, hparts'', hreads⟩ := hreads.tail_word hparts' (by rw [htag]; rfl)
    obtain ⟨rfl, rfl⟩ := hreads.tail_semicolon hparts'' hlast
    exact ⟨_, by simp, .structDecl hk htag hlast⟩
  have hdeclares : Declares (leavesAll parts ++ rest) := by
    refine ⟨first, hhead, hkind, fun hk => ⟨?_, ?_⟩⟩
    · simpa [hk] using hdecl
    · obtain ⟨leaves, rfl⟩ := hwhole (haggregate hk)
      rw [Branch.leavesAll_map_leaf]
      exact h.tail_not_atStructBody
  cases hshape : classify (leavesAll parts ++ rest) with
  | statement =>
    exact ⟨_, Branch.leaves_node .statement parts, .statement hfirst hdeclares hshape h⟩
  | function params terminator body =>
    obtain ⟨name, opener, inner, closer, quals, term, behind, hahead, hproto, -, -, hterm⟩ :=
      classify_inv hshape
    obtain ⟨before?, hleads, hopens⟩ := hproto.leads
    rw [hahead] at hdeclares
    obtain ⟨parts₁, rfl, hparts₁, hreads⟩ := h.tail_leads hleads hahead
    obtain ⟨hcloser, hinner, parts₂, rfl, hparts₂, hreads⟩ :=
      hreads.tail_group hparts₁ (.inl hproto.paren) hproto.between hproto.closes
    obtain ⟨hquals, parts₃, rfl, hparts₃, hreads⟩ := hreads.tail_quals hproto.behind hparts₂
    have hproto' : Prototype (fun opener closer => opener.closer? = some closer) name opener inner
        closer quals :=
      ⟨⟨before?, hleads, hopens⟩, hproto.paren, hproto.closes, hcloser, hinner, hquals⟩
    rcases hterm with ⟨hk, -⟩ | ⟨hk, -⟩
    · obtain ⟨block, more, rfl, hblock, hends⟩ := hreads.tail_brace hparts₃ hk
      have hgoesOn : isAggregate first = false := by
        rw [Bool.eq_false_iff]
        intro hgoesOn
        -- the block would be a leaf
        obtain ⟨leaves, hleaves⟩ := hwhole hgoesOn
        have hleaf : block ∈ leaves.map Branch.leaf := by
          rw [← hleaves]
          simp
        obtain ⟨x, -, rfl⟩ := List.mem_map.mp hleaf
        cases hblock
      obtain rfl := hends hgoesOn
      rw [Branch.leavesAll_nil, List.nil_append] at hblock
      rw [Branch.leavesAll_cons, Branch.leavesAll_nil, List.append_nil] at hparts₃
      rw [← hparts₃] at hdeclares
      exact ⟨_, by simp, .definition hdeclares hproto' hblock⟩
    · obtain ⟨rfl, rfl⟩ := hreads.tail_semicolon hparts₃ hk
      exact ⟨_, by simp, .prototype hdeclares hproto' hk⟩

/-- Leaves with which parts begin are among the leaves before the first node of the parts. -/
theorem leaves_before_node {heading group : List Leaf} {kind : NodeKind}
    {inside more rest : List Branch}
    (h : heading.map Branch.leaf ++ .node kind inside :: more = group.map .leaf ++ rest) :
    ∃ heading', heading = group ++ heading'
      ∧ rest = heading'.map .leaf ++ .node kind inside :: more := by
  have hinj : Function.Injective (List.map Branch.leaf) :=
    List.map_injective_iff.mpr fun _ _ => Branch.leaf.inj
  rcases List.append_eq_append_iff.mp h with ⟨middle, hmiddle, hrest⟩ | ⟨middle, hmiddle, hrest⟩
  · obtain ⟨first, last, rfl, hfirst, rfl⟩ := List.append_eq_map_iff.mp hmiddle.symm
    cases last with
    | nil =>
      rw [hinj hfirst]
      exact ⟨[], by simp, by simpa using hrest.symm⟩
    | cons x last =>
      -- the node would be a leaf of the group
      obtain ⟨he, -⟩ := List.cons.inj hrest
      simp at he
  · obtain ⟨first, last, rfl, hfirst, rfl⟩ := List.append_eq_map_iff.mp hmiddle.symm
    rw [hinj hfirst]
    exact ⟨last, rfl, hrest⟩

/-- The leaves before the first block of a statement are level, and the block is read as one. -/
theorem Reads.tail_heading {heading : List Leaf} {kind : NodeKind} {inside more : List Branch}
    (h : Reads (.tail goesOn) (heading.map .leaf ++ .node kind inside :: more) rest) :
    Level heading ∧ ∃ behind, Reads .block [.node kind inside] behind := by
  induction hlen : heading.length using Nat.strongRecOn generalizing heading goesOn with
  | _ n ih =>
    subst hlen
    generalize hparts : heading.map Branch.leaf ++ .node kind inside :: more = parts at h
    -- a leaf comes first, and the others are a statement as well
    have hleaf : ∀ {leaf : Leaf} {rest' : List Branch} {goesOn' : Bool},
        parts = .leaf leaf :: rest' →
        leaf.kind.isDelimiter = false → Reads (.tail goesOn') rest' rest →
        Level heading ∧ ∃ behind, Reads .block [.node kind inside] behind := by
      intro leaf rest' goesOn' hcons hplain hrest
      cases heading with
      | nil =>
        rw [← hparts] at hcons
        simp at hcons
      | cons first heading =>
        rw [← hparts] at hcons
        obtain ⟨hfirst, rfl⟩ := List.cons.inj hcons
        obtain rfl := Branch.leaf.inj hfirst
        obtain ⟨hlevel, hblock⟩ := ih heading.length (Nat.lt_succ_self _) hrest rfl
        exact ⟨.plain hplain hlevel, hblock⟩
    cases h with
    | tailEnd => simp at hparts
    | tailSemicolon hk =>
      cases heading with
      | nil => simp at hparts
      | cons first heading => simp at hparts
    | tailBlock hblock =>
      cases heading with
      | nil =>
        obtain ⟨rfl, -⟩ := List.cons.inj hparts
        exact ⟨.nil, _, hblock⟩
      | cons first heading =>
        obtain ⟨rfl, -⟩ := List.cons.inj hparts
        cases hblock
    | tailBlockOn hblock _ =>
      cases heading with
      | nil =>
        obtain ⟨rfl, -⟩ := List.cons.inj hparts
        exact ⟨.nil, _, hblock⟩
      | cons first heading =>
        obtain ⟨rfl, -⟩ := List.cons.inj hparts
        cases hblock
    | @tailGroup _ _ group more' _ hgroup hhead _ hmore =>
      obtain ⟨heading', rfl, rfl⟩ := leaves_before_node hparts
      have hlt : heading'.length < (group ++ heading').length := by
        obtain ⟨tail, rfl⟩ := List.head?_eq_some_iff.mp hhead
        simp only [List.length_append, List.length_cons]
        omega
      obtain ⟨hlevel, hblock⟩ := ih heading'.length hlt hmore rfl
      exact ⟨hgroup.nested.level.append hlevel, hblock⟩
    | tailAssign hk hmore => exact hleaf rfl (by rw [hk]; rfl) hmore
    | tailWord hplain hmore => exact hleaf rfl (TokenKind.isDelimiter_of_plain hplain) hmore

end Tail

/-! ## §2. Words in place of others -/

/-- The leaf `y` may stand for `x`: it is of the same kind, it is one of the words that the
    readers know only if `x` is, and it starts a line if `x` does. -/
structure Like (x y : Leaf) : Prop where
  kind : y.kind = x.kind
  attributes : attributeWords.contains y.text = attributeWords.contains x.text
  aggregates : aggregateWords.contains y.text = aggregateWords.contains x.text
  linkage : y.text = "extern" ↔ x.text = "extern"
  line : x.startsLine = true → y.startsLine = true

theorem Like.isAggregate_eq {x y : Leaf} (h : Like x y) : isAggregate y = isAggregate x := by
  unfold isAggregate
  rw [h.kind, h.aggregates]

section Map

variable {f : Leaf → Leaf} {fits : TokenKind → TokenKind → Prop}
  {leaves name inner quals : List Leaf}
  {before? after? after'? last? : Option Leaf} {opener closer : Leaf}

/-- Like leaves are paired alike. -/
theorem Paired.map (h : Paired fits leaves) (hf : ∀ x ∈ leaves, Like x (f x)) :
    Paired fits (leaves.map f) := by
  induction h with
  | nil => exact .nil
  | @plain leaf rest hplain _ ih =>
    refine .plain ?_ (ih fun x hx => hf x (List.mem_cons_of_mem _ hx))
    rw [(hf leaf List.mem_cons_self).kind]
    exact hplain
  | @group opener closer inner rest ho hc hfits _ _ ih ih' =>
    rw [List.map_cons, List.map_append, List.map_cons]
    have hopener := (hf opener List.mem_cons_self).kind
    have hcloser := (hf closer (by simp)).kind
    refine .group (by rw [hopener, ho]) (by rw [hcloser, hc])
      (by rw [hopener, hcloser]; exact hfits)
      (ih fun x hx => hf x (by simp [hx])) (ih' fun x hx => hf x (by simp [hx]))

/-- Whether a `(` opens a parameter list depends on the word before it and on whether a `*` or
    `^` follows. -/
theorem opensParams_map (hbefore : ∀ x ∈ before?, Like x (f x))
    (hafter : after'?.any (fun y => y.kind == .star || y.kind == .caret)
      = after?.any fun x => x.kind == .star || x.kind == .caret) :
    opensParams (before?.map f) after'? = opensParams before? after? := by
  cases before? with
  | none => rfl
  | some before =>
    have hlike := hbefore before rfl
    unfold opensParams
    rw [Option.map_some]
    dsimp only
    rw [hlike.kind, hlike.attributes, hafter]

/-- Like leaves begin with a `*` or `^` or do not, alike. -/
theorem head?_map_any (hf : ∀ x ∈ leaves, Like x (f x)) :
    (leaves.map f).head?.any (fun y => y.kind == .star || y.kind == .caret)
      = leaves.head?.any fun x => x.kind == .star || x.kind == .caret := by
  cases leaves with
  | nil => rfl
  | cons leaf rest =>
    simp only [List.map_cons, List.head?_cons, Option.any_some]
    rw [(hf leaf List.mem_cons_self).kind]

/-- A `(` opens a parameter list or not, by the word before it and the group that it begins. -/
theorem opensParams_group {inner : List Leaf} {closer : Leaf}
    (hbefore : ∀ x ∈ before?, Like x (f x)) (hin : ∀ x ∈ inner ++ [closer], Like x (f x))
    (behind behind' : List Leaf) :
    opensParams (before?.map f) (inner.map f ++ f closer :: behind').head?
      = opensParams before? (inner ++ closer :: behind).head? := by
  refine opensParams_map hbefore ?_
  rw [head?_append_cons (inner.map f), head?_append_cons inner, ← head?_map_any hin,
    List.map_append]
  rfl

/-- A group as a whole is among the leaves. -/
theorem like_group {opener closer : Leaf} {inner rest : List Leaf}
    (hf : ∀ x ∈ opener :: (inner ++ closer :: rest), Like x (f x)) :
    ∀ x ∈ inner ++ [closer], Like x (f x) := fun x hx =>
  hf x (List.mem_cons_of_mem _ ((List.append_sublist_append_left inner).mpr
    (List.singleton_sublist.mpr List.mem_cons_self) |>.subset hx))

/-- The last leaf outside of groups is one of the leaves. -/
theorem Leads.last_mem (h : Leads before? name last?) :
    last? = before? ∨ ∃ x ∈ name, last? = some x := by
  induction h with
  | nil => exact .inl rfl
  | @word _ last? leaf rest _ _ ih =>
    rcases ih with rfl | ⟨x, hx, rfl⟩
    · exact .inr ⟨leaf, List.mem_cons_self, rfl⟩
    · exact .inr ⟨x, List.mem_cons_of_mem _ hx, rfl⟩
  | @group _ last? opener closer inner rest _ _ _ _ ih =>
    rcases ih with rfl | ⟨x, hx, rfl⟩
    · exact .inr ⟨closer, by simp, rfl⟩
    · exact .inr ⟨x, by simp [hx], rfl⟩

/-- What leads up to a parameter list does so with like leaves in its place. -/
theorem Leads.map (h : Leads before? name last?) (hbefore : ∀ x ∈ before?, Like x (f x))
    (hf : ∀ x ∈ name, Like x (f x)) : Leads (before?.map f) (name.map f) (last?.map f) := by
  induction h with
  | nil => exact .nil
  | @word before? last? leaf rest hplain _ ih =>
    have hlike := hf leaf List.mem_cons_self
    refine .word (by rw [hlike.kind, hplain]) (ih ?_ fun x hx => hf x (List.mem_cons_of_mem _ hx))
    rintro x ⟨⟩
    exact hlike
  | @group before? last? opener closer inner rest hopener hinner hc _ ih =>
    rw [List.map_cons, List.map_append, List.map_cons]
    have hclose := hf closer (by simp)
    refine .group ?_ (hinner.map fun x hx => hf x (by simp [hx])) (by rw [hclose.kind, hc])
      (ih ?_ fun x hx => hf x (by simp [hx]))
    · rw [(hf opener List.mem_cons_self).kind]
      refine hopener.imp_left fun ⟨hk, hno⟩ => ⟨hk, ?_⟩
      rw [← hno]
      exact opensParams_group hbefore (like_group hf) [] []
    · rintro x ⟨⟩
      exact hclose

/-- Like leaves are qualifiers alike. -/
theorem Quals.map (h : Quals fits quals) (hf : ∀ x ∈ quals, Like x (f x)) :
    Quals fits (quals.map f) := by
  induction h with
  | nil => exact .nil
  | @word leaf rest hk _ ih =>
    refine .word ?_ (ih fun x hx => hf x (List.mem_cons_of_mem _ hx))
    rw [(hf leaf List.mem_cons_self).kind, hk]
  | @group opener closer inner rest hopener hc hfits hinner _ ih =>
    rw [List.map_cons, List.map_append, List.map_cons]
    have ho := (hf opener List.mem_cons_self).kind
    have hclose := (hf closer (by simp)).kind
    exact .group (by rw [ho]; exact hopener) (by rw [hclose, hc]) (by rw [ho, hclose]; exact hfits)
      (hinner.map fun x hx => hf x (by simp [hx])) (ih fun x hx => hf x (by simp [hx]))

/-- **The head of a function** with other words in it, and other leaves between the parentheses
    of its parameter list. -/
theorem Prototype.map {inner' : List Leaf} (h : Prototype fits name opener inner closer quals)
    (hname : ∀ x ∈ name, Like x (f x)) (hopener : Like opener (f opener))
    (hcloser : Like closer (f closer)) (hquals : ∀ x ∈ quals, Like x (f x))
    (hinner : Paired fits inner')
    (hhead : (inner ++ [closer]).head?.any (fun x => x.kind == .star || x.kind == .caret) = false →
      (inner' ++ [f closer]).head?.any (fun y => y.kind == .star || y.kind == .caret) = false) :
    Prototype fits (name.map f) (f opener) inner' (f closer) (quals.map f) where
  leads := by
    obtain ⟨before?, hleads, hopens⟩ := h.leads
    refine ⟨before?.map f, hleads.map (by simp) hname, ?_⟩
    have hbefore : ∀ x ∈ before?, Like x (f x) := by
      intro x hx
      rcases hleads.last_mem with rfl | ⟨last, hlast, rfl⟩
      · simp at hx
      · exact Option.some.inj hx ▸ hname last hlast
    -- the parameter list was met, so what is behind its parenthesis is no pointer
    have hplain : (inner ++ [closer]).head?.any (fun x => x.kind == .star || x.kind == .caret)
        = false := by
      cases before? with
      | none => simp [opensParams] at hopens
      | some before =>
        unfold opensParams at hopens
        simp only [Bool.and_eq_true, Bool.not_eq_eq_eq_not, Bool.not_true] at hopens
        exact hopens.2
    rw [← hopens]
    exact opensParams_map hbefore (by rw [hplain, hhead hplain])
  paren := by rw [hopener.kind, h.paren]
  closes := by rw [hcloser.kind, h.closes]
  pair := by
    rw [hopener.kind, hcloser.kind]
    exact h.pair
  between := hinner
  behind := h.behind.map hquals

/-- A `;` or a brace ends a declaration, which is a statement if no parameter list was met. -/
theorem classifyFrom_end {leaf : Leaf} {params? : Option TokenId} {rest : List Leaf}
    (hk : leaf.kind = .semicolon ∨ leaf.kind = .lbrace) :
    classifyFrom 0 before? params? (leaf :: rest) = .statement ↔ params?.isSome = false := by
  unfold classifyFrom
  rcases hk with hk | hk <;> cases params? <;> simp [hk]

/-- Behind a parameter list a leaf that is neither a symbol nor a delimiter makes a statement. -/
theorem classifyFrom_stop {leaf : Leaf} {params? : Option TokenId} {rest : List Leaf}
    (hplain : leaf.kind.isPlain = true) (hparams : params?.isSome = true)
    (hk : leaf.kind ≠ .symbol) : classifyFrom 0 before? params? (leaf :: rest) = .statement := by
  unfold classifyFrom
  cases hkind : leaf.kind <;> rw [hkind] at hplain hk <;>
    simp_all [TokenKind.isPlain, TokenKind.isDelimiter, TokenKind.isOpener, TokenKind.isCloser]

/-- A `(` outside of groups, where it opens a parameter list and where it does not. -/
theorem classifyFrom_paren {leaf : Leaf} {params? : Option TokenId} {rest : List Leaf}
    (hk : leaf.kind = .lparen) :
    classifyFrom 0 before? params? (leaf :: rest)
      = classifyFrom 1 before? (if params?.isNone && opensParams before? rest.head?
          then some leaf.id else params?) rest := by
  conv_lhs => unfold classifyFrom
  simp [hk]

theorem classifyFrom_assign {leaf : Leaf} {params? : Option TokenId} {rest : List Leaf}
    (hk : leaf.kind = .assign) : classifyFrom 0 before? params? (leaf :: rest) = .statement := by
  unfold classifyFrom
  simp [hk]

/-- Level leaves before a brace decide whether a declaration is a statement. -/
theorem classifyFrom_map (h : Level leaves) {brace brace' : Leaf} (hbrace : brace.kind = .lbrace)
    (hbrace' : brace'.kind = .lbrace) {params? params'? : Option TokenId}
    (hparams : params'?.isSome = params?.isSome) (hbefore : ∀ x ∈ before?, Like x (f x))
    (hf : ∀ x ∈ leaves, Like x (f x)) (behind behind' : List Leaf)
    (hstatement : classifyFrom 0 before? params? (leaves ++ brace :: behind) = .statement) :
    classifyFrom 0 (before?.map f) params'? (leaves.map f ++ brace' :: behind') = .statement := by
  induction h generalizing before? params? params'? with
  | nil =>
    rw [List.map_nil, List.nil_append, classifyFrom_end (.inr hbrace'), hparams]
    exact (classifyFrom_end (.inr hbrace)).mp hstatement
  | @plain leaf rest hplain _ ih =>
    have hlike := hf leaf List.mem_cons_self
    rw [List.map_cons, List.cons_append]
    rw [List.cons_append] at hstatement
    by_cases hsemicolon : leaf.kind = .semicolon
    · rw [classifyFrom_end (.inl (by rw [hlike.kind, hsemicolon])), hparams]
      exact (classifyFrom_end (.inl hsemicolon)).mp hstatement
    by_cases hassign : leaf.kind = .assign
    · exact classifyFrom_assign (by rw [hlike.kind, hassign])
    have hword : leaf.kind.isPlain = true := by
      unfold TokenKind.isPlain
      simp [hplain, hsemicolon, hassign]
    have hword' : (f leaf).kind.isPlain = true := by rw [hlike.kind, hword]
    by_cases hstop : params?.isSome = true ∧ leaf.kind ≠ .symbol
    · exact classifyFrom_stop hword' (by rw [hparams, hstop.1]) (by rw [hlike.kind]; exact hstop.2)
    have hgoes : params?.isSome = true → leaf.kind = .symbol := fun hsome =>
      not_not.mp fun hk => hstop ⟨hsome, hk⟩
    rw [classifyFrom_word hword hgoes] at hstatement
    rw [classifyFrom_word hword' (by rw [hparams, hlike.kind]; exact hgoes)]
    refine @ih (some leaf) params? params'? hparams ?_
      (fun x hx => hf x (List.mem_cons_of_mem _ hx))
      hstatement
    rintro x ⟨⟩
    exact hlike
  | @group opener closer inner rest ho hc _ hinner hrest _ ih =>
    have hlike := hf opener List.mem_cons_self
    have hclose := hf closer (by simp)
    have hinner' : Level (inner.map f) := Paired.map hinner fun x hx => hf x (by simp [hx])
    simp only [List.cons_append, List.append_assoc, List.map_cons, List.map_append]
      at hstatement ⊢
    -- the group was passed, and a parameter list was met or not in both
    have honward : ∀ {met? met'? : Option TokenId}, met'?.isSome = met?.isSome →
        classifyFrom 1 before? met? (inner ++ closer :: (rest ++ brace :: behind)) = .statement →
        classifyFrom 1 (before?.map f) met'?
          (inner.map f ++ f closer :: (rest.map f ++ brace' :: behind')) = .statement := by
      intro met? met'? hmet hgroup
      rw [classifyFrom_group hinner hc] at hgroup
      rw [classifyFrom_group hinner' (by rw [hclose.kind, hc])]
      refine @ih (some closer) met? met'? hmet ?_ (fun x hx => hf x (by simp [hx])) hgroup
      rintro x ⟨⟩
      exact hclose
    have hkind : opener.kind = .lparen ∨ opener.kind = .lbracket ∨ opener.kind = .lbrace := by
      cases hk : opener.kind <;> simp [hk, TokenKind.isOpener] at ho ⊢
    rcases hkind with hk | hk | hk
    · rw [classifyFrom_paren hk] at hstatement
      rw [classifyFrom_paren (by rw [hlike.kind, hk])]
      refine honward ?_ hstatement
      have hnone : params'?.isNone = params?.isNone := by
        rw [← Option.not_isSome, ← Option.not_isSome, hparams]
      rw [opensParams_group hbefore (like_group hf) (rest ++ brace :: behind), hnone]
      split <;> simp [hparams]
    · rw [classifyFrom_opener (.inr hk) (by simp [hk])] at hstatement
      rw [classifyFrom_opener (.inr (by rw [hlike.kind, hk])) (by simp [hlike.kind, hk])]
      exact honward hparams hstatement
    · rw [classifyFrom_end (.inr (by rw [hlike.kind, hk])), hparams]
      exact (classifyFrom_end (.inr hk)).mp hstatement

/-- **What is ahead of a declaration**, with other words in it, before a parenthesis or a
    brace. -/
theorem ahead_map {stop stop' : Leaf} (hne : name ≠ []) (hf : ∀ x ∈ name, Like x (f x))
    (hkind : stop.kind = .lparen ∨ stop.kind = .lbrace) (hstop : stop'.kind = stop.kind)
    (behind behind' : List Leaf) :
    atStructDecl { rest := name.map f ++ stop' :: behind' }
        = atStructDecl { rest := name ++ stop :: behind }
      ∧ atStructBody { rest := name.map f ++ stop' :: behind' }
        = atStructBody { rest := name ++ stop :: behind }
      ∧ atLinkageBlock { rest := name.map f ++ stop' :: behind' }
        = atLinkageBlock { rest := name ++ stop :: behind } := by
  have hspelled : ∀ x ∈ name, ((f x).text == "extern") = (x.text == "extern") := by
    intro x hx
    rw [Bool.eq_iff_iff, beq_iff_eq, beq_iff_eq]
    exact (hf x hx).linkage
  unfold atStructDecl atStructBody atLinkageBlock Feed.kindAt?
  match name, hne with
  | [a], _ =>
    have ha := (hf a (by simp)).kind
    have hsymbol : (stop.kind == .symbol) = false := by
      rcases hkind with hk | hk <;> rw [hk] <;> rfl
    have hstring : (stop.kind == .string) = false := by
      rcases hkind with hk | hk <;> rw [hk] <;> rfl
    simp [ha, hstop, hsymbol, hstring]
  | [a, b], _ =>
    have ha := (hf a (by simp)).kind
    have hb := (hf b (by simp)).kind
    simp [ha, hb, hstop, hspelled a (by simp)]
  | a :: b :: c :: more, _ =>
    have ha := (hf a (by simp)).kind
    have hb := (hf b (by simp)).kind
    have hc := (hf c (by simp)).kind
    simp [ha, hb, hc, hspelled a (by simp)]

/-- What begins a declaration does so with like leaves up to a parenthesis or a brace. -/
theorem Declares.map {stop stop' : Leaf} {behind : List Leaf}
    (h : Declares (name ++ stop :: behind)) (hne : name ≠ []) (hf : ∀ x ∈ name, Like x (f x))
    (hkind : stop.kind = .lparen ∨ stop.kind = .lbrace) (hstop : stop'.kind = stop.kind)
    (behind' : List Leaf) : Declares (name.map f ++ stop' :: behind') := by
  obtain ⟨first, hfirst, hkinds, hstruct⟩ := h
  obtain ⟨hdecl, hbody, -⟩ := ahead_map hne hf hkind hstop behind behind'
  obtain ⟨head, tail, rfl⟩ := List.exists_cons_of_ne_nil hne
  obtain rfl := Option.some.inj hfirst
  have hlike := (hf head List.mem_cons_self).kind
  refine ⟨f head, rfl, by rw [hlike]; exact hkinds, fun hk => ?_⟩
  rw [hdecl, hbody]
  exact hstruct (by rw [← hlike, hk])

end Map

end KernelPrep.Outline
