/-
  KernelPrep.Proofs.Outline.Inversion — readings that went through, taken apart.

  A reader that went through has taken leaves of its own and has called other readers, which
  went through as well.  Here each reader is taken apart once: the leaves it took itself, the
  readers it called with the feeds they were called on, and what it made of their results.
  What is shown of the readers by induction on the depth of calls starts from these lemmas and
  opens no reader.

  Main definitions:
    * `Outline.BodyRead`, `Outline.TailRead`, `Outline.ConstructRead`
      — the ways in which what stands in a block, the rest of a statement and a construct at
        file scope are read.

  Main statements:
    * `Outline.block_inv`, `Outline.statementTail_inv`, … — blocks and statements;
    * `Outline.functionItem_inv`, `Outline.typedefItem_inv`, … — declarations;
    * `Outline.item_inv`, `Outline.linkageBlock_inv` — constructs at file scope.
-/
import Mathlib.Data.List.TakeWhile
import KernelPrep.Proofs.Outline.Nesting

namespace KernelPrep.Outline

open Step (bind_ok pure_ok get_ok modify_ok)

variable {depth : Nat} {feed feed' : Feed} {s : Skeleton} {ss : List Skeleton}

/-- The next kind is that of the leaf ahead. -/
theorem kindAt?_zero {leaf : Leaf} {rest : List Leaf} (h : feed.rest = leaf :: rest) :
    feed.kindAt? 0 = some leaf.kind := by
  unfold Feed.kindAt?
  rw [h]
  rfl

/-- A kind that is seen ahead is that of a leaf. -/
theorem exists_of_kindAt? {kind : TokenKind} (h : some kind = feed.kindAt? 0) :
    ∃ leaf rest, feed.rest = leaf :: rest ∧ leaf.kind = kind := by
  unfold Feed.kindAt? at h
  cases hrest : feed.rest with
  | nil => simp [hrest] at h
  | cons leaf rest =>
    rw [hrest] at h
    exact ⟨leaf, rest, rfl, (Option.some.inj h).symm⟩

/-- One leaf was consumed. -/
theorem consumed_one (leaf : Leaf) (rest : List Leaf) (last? : Option Leaf) (opened n : Nat) :
    Consumed { rest := leaf :: rest, last?, opened }
      { rest, last? := some leaf, opened := opened + n } [leaf] n := ⟨rfl, rfl, rfl⟩

/-- A reading that takes no leaf is still before the same leaves. -/
theorem Consumed.rest_eq {n : Nat} (h : Consumed feed feed' [] n) : feed'.rest = feed.rest :=
  h.rest.symm

/-! ## §1. Constructs without nested ones -/

/-- A directive has taken its `#` and the leaves up to the next line that counts. -/
theorem directive_inv (h : directive feed = .ok s feed') :
    ∃ hash body, Consumed feed feed' (hash :: body) 1 ∧ hash.kind = .hash
      ∧ (∀ leaf ∈ body, leaf.startsLine = false)
      ∧ (∀ leaf ∈ feed'.rest.head?, leaf.startsLine = true)
      ∧ s = .leaf .directive ⟨hash.id, (feed'.last?.getD hash).id⟩ := by
  unfold directive at h
  obtain ⟨hash, feed₁, hhash, h⟩ := bind_ok.mp h
  obtain ⟨u₁, feed₂, hwhile, h⟩ := bind_ok.mp h
  obtain ⟨u₂, feed₃, hopen, h⟩ := bind_ok.mp h
  obtain ⟨range, feed₄, hrange, h⟩ := bind_ok.mp h
  obtain ⟨rfl, rfl⟩ := pure_ok.mp h
  obtain ⟨rfl, rfl⟩ := rangeFrom_ok.mp hrange
  obtain rfl := modify_ok.mp hwhile
  have hopened := openNode_ok hopen
  have hall := ((expect_ok hhash).2.trans (consumed_bumpWhile feed₁ _)).trans hopened
  rw [List.append_nil] at hall
  refine ⟨hash, _, hall, (expect_ok hhash).1, ?_, ?_, rfl⟩
  · intro leaf hleaf
    simpa using List.mem_takeWhile_imp hleaf
  · intro leaf hleaf
    have hrest : feed₄.rest = feed₁.rest.dropWhile (!·.startsLine) := hopened.rest_eq
    rw [hrest] at hleaf
    have hnot := List.head?_dropWhile_not (fun leaf : Leaf => !leaf.startsLine) feed₁.rest
    rw [Option.mem_def.mp hleaf] at hnot
    simpa using hnot

/-- A leaf on its own was taken. -/
theorem loneToken_inv (h : loneToken feed = .ok s feed') :
    ∃ leaf, Consumed feed feed' [leaf] 1 ∧ s = .leaf .token (.single leaf.id) := by
  unfold loneToken at h
  obtain ⟨leaf, feed₁, hleaf, h⟩ := bind_ok.mp h
  obtain ⟨u₁, feed₂, hbump, h⟩ := bind_ok.mp h
  obtain ⟨u₂, feed₃, hopen, h⟩ := bind_ok.mp h
  obtain ⟨rfl, rfl⟩ := pure_ok.mp h
  obtain ⟨rfl, rest, hrest⟩ := firstLeaf_ok hleaf
  exact ⟨leaf, (bump_ok hbump hrest).trans (openNode_ok hopen), rfl⟩

/-- A leaf of the expected kind was taken. -/
theorem tokenNode_inv {kind : NodeKind} {expected : TokenKind}
    (h : tokenNode kind expected feed = .ok s feed') :
    ∃ leaf, leaf.kind = expected ∧ Consumed feed feed' [leaf] 1
      ∧ s = .leaf kind (.single leaf.id) := by
  unfold tokenNode at h
  obtain ⟨leaf, feed₁, hleaf, h⟩ := bind_ok.mp h
  obtain ⟨u, feed₂, hopen, h⟩ := bind_ok.mp h
  obtain ⟨rfl, rfl⟩ := pure_ok.mp h
  exact ⟨leaf, (expect_ok hleaf).1, (expect_ok hleaf).2.trans (openNode_ok hopen), rfl⟩

/-- A struct that is only declared has taken its word, a symbol and a `;`. -/
theorem structDecl_inv (h : structDecl feed = .ok s feed') :
    ∃ first tag last, first.kind = .struct ∧ tag.kind = .symbol ∧ last.kind = .semicolon
      ∧ Consumed feed feed' [first, tag, last] 2
      ∧ s = .node .structDecl ⟨first.id, (feed'.last?.getD first).id⟩
          [.leaf .structTag (.single tag.id)] := by
  unfold structDecl at h
  obtain ⟨first, feed₁, hfirst, h⟩ := bind_ok.mp h
  obtain ⟨u, feed₂, hopen, h⟩ := bind_ok.mp h
  obtain ⟨tag, feed₃, htag, h⟩ := bind_ok.mp h
  obtain ⟨last, feed₄, hlast, h⟩ := bind_ok.mp h
  obtain ⟨range, feed₅, hrange, h⟩ := bind_ok.mp h
  obtain ⟨rfl, rfl⟩ := pure_ok.mp h
  obtain ⟨rfl, rfl⟩ := rangeFrom_ok.mp hrange
  obtain ⟨leaf, hkind, hc, rfl⟩ := tokenNode_inv htag
  exact ⟨first, leaf, last, (expect_ok hfirst).1, hkind, (expect_ok hlast).1,
    (((expect_ok hfirst).2.trans (openNode_ok hopen)).trans hc).trans (expect_ok hlast).2, rfl⟩

/-- **One leaf of the declarators** is passed over, is the `;` that ends them, or is a name. -/
theorem declaratorsFrom_inv {opened : Nat} {pending : List TokenKind} {initialiser : Bool}
    {last? : Option Leaf} {leaf : Leaf} {rest : List Leaf} {names : List Skeleton}
    (h : declaratorsFrom opened pending initialiser last? (leaf :: rest) = .ok names feed') :
    (∃ pending initialiser, declaratorsFrom opened pending initialiser (some leaf) rest
        = .ok names feed')
      ∨ (leaf.kind = .semicolon ∧ names = [] ∧ feed' = { rest, last? := some leaf, opened })
      ∨ ∃ more, names = .leaf .structName (.single leaf.id) :: more
        ∧ declaratorsFrom (opened + 1) [] false (some leaf) rest = .ok more feed' := by
  unfold declaratorsFrom at h
  simp only at h
  split at h
  · exact absurd h failHere_ne_ok
  · split at h
    · split at h
      · exact absurd h failHere_ne_ok
      · exact .inl ⟨_, _, h⟩
    · split at h
      · rename_i hkind
        obtain ⟨rfl, rfl⟩ := EStateM.Result.ok.inj h
        exact .inr (.inl ⟨hkind, rfl, rfl⟩)
      · split at h
        · exact .inl ⟨_, _, h⟩
        · split at h
          · rename_i more feed'' hmore
            obtain ⟨rfl, rfl⟩ := EStateM.Result.ok.inj h
            exact .inr (.inr ⟨more, rfl, hmore⟩)
          · simp at h
      · exact .inl ⟨_, _, h⟩
      · exact .inl ⟨_, _, h⟩
      · exact .inl ⟨_, _, h⟩

/-! ## §2. Blocks and statements -/

theorem block_zero_ne_ok : block 0 feed ≠ .ok s feed' := by
  rw [block]
  exact failAtEnd_ne_ok

theorem blockItems_zero_ne_ok : blockItems 0 feed ≠ .ok ss feed' := by
  rw [blockItems]
  exact failAtEnd_ne_ok

theorem statement_zero_ne_ok : statement 0 feed ≠ .ok s feed' := by
  rw [statement]
  exact failAtEnd_ne_ok

theorem statementTail_zero_ne_ok {goesOn : Bool} : statementTail 0 goesOn feed ≠ .ok ss feed' := by
  rw [statementTail]
  exact failAtEnd_ne_ok

/-- A block has taken its braces, and has called the reader of its items between them. -/
theorem block_inv (h : block (depth + 1) feed = .ok s feed') :
    ∃ opener closer children mid mid', opener.kind = .lbrace ∧ closer.kind = .rbrace
      ∧ Consumed feed mid [opener] 1 ∧ blockItems depth mid = .ok children mid'
      ∧ Consumed mid' feed' [closer] 0
      ∧ s = .node .statementBlock ⟨opener.id, (feed'.last?.getD opener).id⟩ children := by
  rw [block] at h
  obtain ⟨opener, feed₁, hopener, h⟩ := bind_ok.mp h
  obtain ⟨u, feed₂, hopen, h⟩ := bind_ok.mp h
  obtain ⟨children, feed₃, hchildren, h⟩ := bind_ok.mp h
  obtain ⟨closer, feed₄, hcloser, h⟩ := bind_ok.mp h
  obtain ⟨range, feed₅, hrange, h⟩ := bind_ok.mp h
  obtain ⟨rfl, rfl⟩ := pure_ok.mp h
  obtain ⟨rfl, rfl⟩ := rangeFrom_ok.mp hrange
  exact ⟨opener, closer, children, feed₂, feed₃, (expect_ok hopener).1, (expect_ok hcloser).1,
    (expect_ok hopener).2.trans (openNode_ok hopen), hchildren, (expect_ok hcloser).2, rfl⟩

/-- One construct in a block was read, `first` being the leaf ahead. -/
inductive BodyRead (depth : Nat) (first : Leaf) (feed : Feed) : Skeleton → Feed → Prop where
  | directive {s : Skeleton} {feed' : Feed} : directive feed = .ok s feed' →
      BodyRead depth first feed s feed'
  | block {s : Skeleton} {feed' : Feed} : block depth feed = .ok s feed' →
      BodyRead depth first feed s feed'
  | lone {s : Skeleton} {feed' : Feed} : first.kind = .semicolon → loneToken feed = .ok s feed' →
      BodyRead depth first feed s feed'
  | statement {s : Skeleton} {feed' : Feed} :
      first.kind ∉ [.hash, .lbrace, .semicolon, .rparen, .rbracket, .rbrace] →
      statement depth feed = .ok s feed' → BodyRead depth first feed s feed'

/-- The items of a block have ended at the closing brace, or one was read before others. -/
theorem blockItems_inv (h : blockItems (depth + 1) feed = .ok ss feed') :
    (∃ closer rest, feed.rest = closer :: rest ∧ closer.kind = .rbrace ∧ ss = [] ∧ feed' = feed)
      ∨ ∃ first rest child more mid, feed.rest = first :: rest ∧ ss = child :: more
        ∧ BodyRead depth first feed child mid ∧ blockItems depth mid = .ok more feed' := by
  rw [blockItems] at h
  obtain ⟨kind?, feed₁, hpeek, hread⟩ := bind_ok.mp h
  obtain ⟨hkind, hfeed⟩ := peekKind?_ok.mp hpeek
  rw [hfeed] at hread
  split at hread
  · exact absurd hread failAtEnd_ne_ok
  · obtain ⟨rfl, rfl⟩ := pure_ok.mp hread
    obtain ⟨closer, rest, hrest, hk⟩ := exists_of_kindAt? hkind
    exact .inl ⟨closer, rest, hrest, hk, rfl, rfl⟩
  · rename_i kind hbrace
    obtain ⟨first, rest, hrest, hk⟩ := exists_of_kindAt? hkind
    -- whichever reader is called, the others are read behind it
    have hmore : ∀ {reading : Reading Skeleton},
        (∀ {child mid}, reading feed = .ok child mid → BodyRead depth first feed child mid) →
        (reading >>= fun child => blockItems depth >>= fun rest => pure (child :: rest)) feed
          = .ok ss feed' →
        ∃ first rest child more mid, feed.rest = first :: rest ∧ ss = child :: more
          ∧ BodyRead depth first feed child mid ∧ blockItems depth mid = .ok more feed' := by
      intro reading hreading hall
      obtain ⟨child, mid, hchild, hrest'⟩ := bind_ok.mp hall
      obtain ⟨more, last, hitems, hpure⟩ := bind_ok.mp hrest'
      obtain ⟨rfl, rfl⟩ := pure_ok.mp hpure
      exact ⟨first, rest, child, more, mid, hrest, rfl, hreading hchild, hitems⟩
    refine .inr ?_
    simp only at hread
    split at hread
    · exact hmore .directive hread
    · exact hmore .block hread
    · exact hmore (.lone hk) hread
    · exact hmore (fun hfail => absurd hfail failHere_ne_ok) hread
    · exact hmore (fun hfail => absurd hfail failHere_ne_ok) hread
    · rename_i hhash hlbrace hsemicolon hrparen hrbracket
      refine hmore (.statement ?_) hread
      rw [hk]
      simp only [List.mem_cons, List.not_mem_nil, or_false, not_or]
      exact ⟨hhash, hlbrace, hsemicolon, hrparen, hrbracket, hbrace⟩

/-- A statement has called the reader of its rest where it began. -/
theorem statement_inv (h : statement (depth + 1) feed = .ok s feed') :
    ∃ first rest mid blocks, feed.rest = first :: rest ∧ Consumed feed mid [] 1
      ∧ statementTail depth (first.kind == .struct || aggregateWords.contains first.text) mid
        = .ok blocks feed'
      ∧ s = .node .statement ⟨first.id, (feed'.last?.getD first).id⟩ blocks := by
  rw [statement] at h
  obtain ⟨first, feed₁, hfirst, h⟩ := bind_ok.mp h
  obtain ⟨u, feed₂, hopen, h⟩ := bind_ok.mp h
  obtain ⟨blocks, feed₃, hblocks, h⟩ := bind_ok.mp h
  obtain ⟨range, feed₄, hrange, h⟩ := bind_ok.mp h
  obtain ⟨rfl, rfl⟩ := pure_ok.mp h
  obtain ⟨rfl, rfl⟩ := rangeFrom_ok.mp hrange
  obtain ⟨rfl, rest, hrest⟩ := firstLeaf_ok hfirst
  exact ⟨first, rest, feed₂, blocks, hrest, openNode_ok hopen, hblocks, rfl⟩

/-- The rest of a statement was read, by its first leaf or block. -/
inductive TailRead (depth : Nat) (feed : Feed) : Bool → List Skeleton → Feed → Prop where
  | done {goesOn : Bool} : (∀ leaf ∈ feed.rest.head?, leaf.kind = .rbrace) →
      TailRead depth feed goesOn [] feed
  | semicolon {goesOn : Bool} {leaf : Leaf} {feed' : Feed} : leaf.kind = .semicolon →
      Consumed feed feed' [leaf] 0 → TailRead depth feed goesOn [] feed'
  | block {child : Skeleton} {feed' : Feed} : block depth feed = .ok child feed' →
      TailRead depth feed false [child] feed'
  | blockOn {child : Skeleton} {more : List Skeleton} {mid feed' : Feed} :
      block depth feed = .ok child mid → statementTail depth true mid = .ok more feed' →
      TailRead depth feed true (child :: more) feed'
  | group {goesOn : Bool} {opener : Leaf} {rest : List Leaf} {ss : List Skeleton}
      {mid feed' : Feed} : feed.rest = opener :: rest →
      opener.kind = .lparen ∨ opener.kind = .lbracket → skipGroup feed = .ok () mid →
      statementTail depth goesOn mid = .ok ss feed' → TailRead depth feed goesOn ss feed'
  | assign {goesOn : Bool} {leaf : Leaf} {ss : List Skeleton} {mid feed' : Feed} :
      leaf.kind = .assign → Consumed feed mid [leaf] 0 →
      statementTail depth true mid = .ok ss feed' → TailRead depth feed goesOn ss feed'
  | word {goesOn : Bool} {leaf : Leaf} {ss : List Skeleton} {mid feed' : Feed} :
      leaf.kind.isPlain = true → Consumed feed mid [leaf] 0 →
      statementTail depth goesOn mid = .ok ss feed' → TailRead depth feed goesOn ss feed'

/-- The rest of a statement has ended, or has gone on by a leaf, a group or a block. -/
theorem statementTail_inv {goesOn : Bool}
    (h : statementTail (depth + 1) goesOn feed = .ok ss feed') :
    TailRead depth feed goesOn ss feed' := by
  rw [statementTail] at h
  obtain ⟨kind?, feed₁, hpeek, hread⟩ := bind_ok.mp h
  obtain ⟨hkind, hfeed⟩ := peekKind?_ok.mp hpeek
  rw [hfeed] at hread
  split at hread
  -- at the end of the file, and then before a closing brace, nothing is taken
  · obtain ⟨rfl, rfl⟩ := pure_ok.mp hread
    refine .done fun leaf hleaf => ?_
    obtain ⟨rest, hrest⟩ := List.head?_eq_some_iff.mp hleaf
    rw [kindAt?_zero hrest] at hkind
    simp at hkind
  · obtain ⟨rfl, rfl⟩ := pure_ok.mp hread
    obtain ⟨leaf, rest, hrest, hk⟩ := exists_of_kindAt? hkind
    refine .done ?_
    rw [hrest]
    simpa using hk
  · rename_i kind hbrace
    obtain ⟨leaf, rest, hrest, hk⟩ := exists_of_kindAt? hkind
    split at hread
    -- one case for each kind of the next leaf, in the order of the reader
    · obtain ⟨u, mid, hbump, hpure⟩ := bind_ok.mp hread
      obtain ⟨rfl, rfl⟩ := pure_ok.mp hpure
      exact .semicolon hk (bump_ok hbump hrest)
    · obtain ⟨child, mid, hchild, hmore⟩ := bind_ok.mp hread
      split at hmore
      · rename_i hgoes
        obtain ⟨more, last, htail, hpure⟩ := bind_ok.mp hmore
        obtain ⟨rfl, rfl⟩ := pure_ok.mp hpure
        subst hgoes
        exact .blockOn hchild htail
      · rename_i hgoes
        obtain ⟨rfl, rfl⟩ := pure_ok.mp hmore
        rw [Bool.eq_false_iff.mpr hgoes]
        exact .block hchild
    · obtain ⟨u, mid, hgroup, htail⟩ := bind_ok.mp hread
      exact .group hrest (.inl hk) hgroup htail
    · obtain ⟨u, mid, hgroup, htail⟩ := bind_ok.mp hread
      exact .group hrest (.inr hk) hgroup htail
    · exact absurd hread failHere_ne_ok
    · exact absurd hread failHere_ne_ok
    · obtain ⟨u, mid, hbump, htail⟩ := bind_ok.mp hread
      exact .assign hk (bump_ok hbump hrest) htail
    · rename_i hsemicolon hlbrace hlparen hlbracket hrparen hrbracket hassign
      obtain ⟨u, mid, hbump, htail⟩ := bind_ok.mp hread
      refine .word ?_ (bump_ok hbump hrest) htail
      rw [hk]
      exact TokenKind.isPlain_of_ne hlparen hlbracket hsemicolon hlbrace hassign hrparen hrbracket
        fun he => hbrace he

/-! ## §3. Declarations -/

/-- The head of a struct has taken its word and perhaps a tag, and has called the reader of its
    block. -/
theorem structHead_inv {first : Leaf} {parts : List Skeleton}
    (h : structHead depth feed = .ok (first, parts) feed') :
    ∃ mid body, first.kind = .struct ∧ block depth mid = .ok body feed'
      ∧ (Consumed feed mid [first] 1 ∧ parts = [body]
        ∨ ∃ tag, tag.kind = .symbol ∧ Consumed feed mid [first, tag] 2
          ∧ parts = [.leaf .structTag (.single tag.id), body]) := by
  unfold structHead at h
  obtain ⟨first', feed₁, hfirst, h₁⟩ := bind_ok.mp h
  obtain ⟨u, feed₂, hopen, h₂⟩ := bind_ok.mp h₁
  have hhead := (expect_ok hfirst).2.trans (openNode_ok hopen)
  obtain ⟨kind?, feed₃, hpeek, h₃⟩ := bind_ok.mp h₂
  obtain ⟨-, rfl⟩ := peekKind?_ok.mp hpeek
  -- the block comes behind the tag, if there is one
  have hbody : ∀ {tag : List Skeleton} {mid : Feed},
      (block depth >>= fun body => pure (first', tag ++ [body])) mid
        = .ok (first, parts) feed' →
      first' = first ∧ ∃ body, block depth mid = .ok body feed' ∧ parts = tag ++ [body] := by
    intro tag mid hrest
    obtain ⟨body, last, hblock, hpure⟩ := bind_ok.mp hrest
    obtain ⟨hpair, rfl⟩ := pure_ok.mp hpure
    obtain ⟨rfl, rfl⟩ := Prod.mk.inj hpair
    exact ⟨rfl, body, hblock, rfl⟩
  split at h₃
  · obtain ⟨tag, mid, htag, hrest⟩ := bind_ok.mp h₃
    obtain ⟨rfl, body, hblock, rfl⟩ := hbody hrest
    obtain ⟨leaf, hk, hc, rfl⟩ := tokenNode_inv htag
    exact ⟨mid, body, (expect_ok hfirst).1, hblock, .inr ⟨leaf, hk, hhead.trans hc, rfl⟩⟩
  · obtain ⟨rfl, body, hblock, rfl⟩ := hbody h₃
    exact ⟨feed₃, body, (expect_ok hfirst).1, hblock, .inl ⟨hhead, rfl⟩⟩

/-- A type definition has taken its word; it defines a struct with a body, or has only names. -/
theorem typedefItem_inv (h : typedefItem depth feed = .ok s feed') :
    ∃ first mid children, first.kind = .typedef ∧ Consumed feed mid [first] 1
      ∧ s = .node .typedef ⟨first.id, (feed'.last?.getD first).id⟩ children
      ∧ ((∃ struct parts mid' names, structHead depth mid = .ok (struct, parts) mid'
          ∧ declarators mid' = .ok names feed'
          ∧ children
            = .node .structDefn ⟨struct.id, (mid'.last?.getD struct).id⟩ parts :: names)
        ∨ (atStructBody mid = false ∧ statementTail depth true mid = .ok children feed')) := by
  unfold typedefItem at h
  obtain ⟨first, feed₁, hfirst, h₁⟩ := bind_ok.mp h
  obtain ⟨u, feed₂, hopen, h₂⟩ := bind_ok.mp h₁
  have hhead := (expect_ok hfirst).2.trans (openNode_ok hopen)
  obtain ⟨feed₃, feed₄, hget, h₃⟩ := bind_ok.mp h₂
  obtain ⟨rfl, rfl⟩ := get_ok.mp hget
  -- the node is closed behind its children
  have hclose : ∀ {children : List Skeleton} {mid : Feed},
      (rangeFrom first >>= fun range => pure (Skeleton.node .typedef range children)) mid
        = .ok s feed' →
      mid = feed' ∧ s = .node .typedef ⟨first.id, (feed'.last?.getD first).id⟩ children := by
    intro children mid hrest
    obtain ⟨range, last, hrange, hpure⟩ := bind_ok.mp hrest
    obtain ⟨rfl, rfl⟩ := rangeFrom_ok.mp hrange
    obtain ⟨rfl, rfl⟩ := pure_ok.mp hpure
    exact ⟨rfl, rfl⟩
  split at h₃
  · obtain ⟨⟨struct, parts⟩, mid, hstruct, h₄⟩ := bind_ok.mp h₃
    obtain ⟨range, mid', hrange, h₅⟩ := bind_ok.mp h₄
    obtain ⟨rfl, rfl⟩ := rangeFrom_ok.mp hrange
    obtain ⟨names, last, hnames, h₆⟩ := bind_ok.mp h₅
    obtain ⟨rfl, rfl⟩ := hclose h₆
    exact ⟨first, feed₄, _, (expect_ok hfirst).1, hhead, rfl,
      .inl ⟨struct, parts, mid', names, hstruct, hnames, rfl⟩⟩
  · rename_i hbody
    obtain ⟨children, mid, htail, hrest⟩ := bind_ok.mp h₃
    obtain ⟨rfl, rfl⟩ := hclose hrest
    exact ⟨first, feed₄, children, (expect_ok hfirst).1, hhead, rfl,
      .inr ⟨Bool.eq_false_iff.mpr hbody, htail⟩⟩

/-- A function: the words before the parameter list are passed over by handle, the list is one
    group, and behind the qualifiers comes a body or a `;`. -/
theorem functionItem_inv {params terminator : TokenId} {body : Bool}
    (h : functionItem depth params terminator body feed = .ok s feed') :
    ∃ first rest named listed opened mid, feed.rest = first :: rest ∧ Consumed feed named [] 1
      ∧ skipGroup (named.bumpWhile (·.id != params)) = .ok () listed
      ∧ Consumed listed opened [] 1 ∧ qualifiers terminator opened = .ok () mid
      ∧ (body = true ∧ (∃ child, block depth mid = .ok child feed'
          ∧ s = .node .functionDefn ⟨first.id, (feed'.last?.getD first).id⟩
            [.leaf .functionParams ⟨params, (listed.last?.map (·.id)).getD params⟩, child])
        ∨ body = false ∧ ∃ semi, semi.kind = .semicolon ∧ Consumed mid feed' [semi] 0
          ∧ s = .node .functionDecl ⟨first.id, (feed'.last?.getD first).id⟩
            [.leaf .functionParams ⟨params, (listed.last?.map (·.id)).getD params⟩]) := by
  unfold functionItem at h
  obtain ⟨first, feed₁, hfirst, h₁⟩ := bind_ok.mp h
  obtain ⟨rfl, rest, hrest⟩ := firstLeaf_ok hfirst
  obtain ⟨u₁, feed₂, hopen, h₂⟩ := bind_ok.mp h₁
  obtain ⟨u₂, feed₃, hwhile, h₃⟩ := bind_ok.mp h₂
  obtain ⟨u₃, feed₄, hgroup, h₄⟩ := bind_ok.mp h₃
  obtain ⟨feed₅, feed₆, hget, h₅⟩ := bind_ok.mp h₄
  obtain ⟨rfl, rfl⟩ := get_ok.mp hget
  obtain ⟨u₄, feed₇, hopen', h₆⟩ := bind_ok.mp h₅
  obtain ⟨u₅, feed₈, hquals, h₇⟩ := bind_ok.mp h₆
  obtain rfl := modify_ok.mp hwhile
  refine ⟨first, rest, feed₂, feed₆, feed₇, feed₈, hrest, openNode_ok hopen, hgroup,
    openNode_ok hopen', hquals, ?_⟩
  -- what is behind the qualifiers is a body or a semicolon, as was found ahead
  split at h₇
  · rename_i hbody
    obtain ⟨child, feed₉, hblock, h₈⟩ := bind_ok.mp h₇
    obtain ⟨range, last, hrange, hpure⟩ := bind_ok.mp h₈
    obtain ⟨rfl, rfl⟩ := rangeFrom_ok.mp hrange
    obtain ⟨rfl, rfl⟩ := pure_ok.mp hpure
    exact .inl ⟨hbody, child, hblock, rfl⟩
  · rename_i hbody
    obtain ⟨semi, feed₉, hsemi, h₈⟩ := bind_ok.mp h₇
    obtain ⟨range, last, hrange, hpure⟩ := bind_ok.mp h₈
    obtain ⟨rfl, rfl⟩ := rangeFrom_ok.mp hrange
    obtain ⟨rfl, rfl⟩ := pure_ok.mp hpure
    exact .inr ⟨Bool.eq_false_iff.mpr hbody, semi, (expect_ok hsemi).1, (expect_ok hsemi).2, rfl⟩

/-- A declaration was read as what it was found to be by looking ahead. -/
theorem declaration_inv (h : declaration depth feed = .ok s feed') :
    (∃ params terminator body, classify feed.rest = .function params terminator body
        ∧ functionItem depth params terminator body feed = .ok s feed')
      ∨ (classify feed.rest = .statement ∧ statement depth feed = .ok s feed') := by
  unfold declaration at h
  obtain ⟨feed₁, feed₂, hget, h₁⟩ := bind_ok.mp h
  obtain ⟨rfl, rfl⟩ := get_ok.mp hget
  cases hshape : classify feed₂.rest with
  | function params terminator body =>
    simp only [hshape] at h₁
    exact .inl ⟨params, terminator, body, rfl, h₁⟩
  | statement =>
    simp only [hshape] at h₁
    exact .inr ⟨rfl, h₁⟩

/-- A struct at file scope was only declared, or defined, or belonged to a declaration. -/
theorem structItem_inv (h : structItem depth feed = .ok s feed') :
    structDecl feed = .ok s feed'
      ∨ (∃ first parts mid names, structHead depth feed = .ok (first, parts) mid
        ∧ declarators mid = .ok names feed'
        ∧ s = .node .structDefn ⟨first.id, (feed'.last?.getD first).id⟩ (parts ++ names))
      ∨ (atStructDecl feed = false ∧ atStructBody feed = false
        ∧ declaration depth feed = .ok s feed') := by
  unfold structItem at h
  obtain ⟨feed₁, feed₂, hget, h₁⟩ := bind_ok.mp h
  obtain ⟨rfl, rfl⟩ := get_ok.mp hget
  split at h₁
  · exact .inl h₁
  · rename_i hdecl
    split at h₁
    · obtain ⟨⟨first, parts⟩, mid, hstruct, h₂⟩ := bind_ok.mp h₁
      obtain ⟨names, feed₄, hnames, h₃⟩ := bind_ok.mp h₂
      obtain ⟨range, last, hrange, hpure⟩ := bind_ok.mp h₃
      obtain ⟨rfl, rfl⟩ := rangeFrom_ok.mp hrange
      obtain ⟨rfl, rfl⟩ := pure_ok.mp hpure
      exact .inr (.inl ⟨first, parts, mid, names, hstruct, hnames, rfl⟩)
    · rename_i hbody
      exact .inr (.inr ⟨Bool.eq_false_iff.mpr hdecl, Bool.eq_false_iff.mpr hbody, h₁⟩)

/-! ## §4. Constructs at file scope -/

theorem item_zero_ne_ok : item 0 feed ≠ .ok s feed' := by
  rw [item]
  exact failAtEnd_ne_ok

theorem linkageBlock_zero_ne_ok : linkageBlock 0 feed ≠ .ok s feed' := by
  rw [linkageBlock]
  exact failAtEnd_ne_ok

theorem linkageItems_zero_ne_ok : linkageItems 0 feed ≠ .ok ss feed' := by
  rw [linkageItems]
  exact failAtEnd_ne_ok

/-- One construct at file scope that is no linkage block was read, `first` being the leaf
    ahead. -/
inductive ConstructRead (depth : Nat) (first : Leaf) (feed feed' : Feed) (s : Skeleton) :
    Prop where
  | directive : directive feed = .ok s feed' → ConstructRead depth first feed feed' s
  | typedef : typedefItem depth feed = .ok s feed' → ConstructRead depth first feed feed' s
  | struct : first.kind = .struct → structItem depth feed = .ok s feed' →
      ConstructRead depth first feed feed' s
  | lone : first.kind = .semicolon → loneToken feed = .ok s feed' →
      ConstructRead depth first feed feed' s
  | declaration :
      first.kind ∉ [.hash, .typedef, .struct, .semicolon, .rbrace, .rparen, .rbracket] →
      declaration depth feed = .ok s feed' → ConstructRead depth first feed feed' s

/-- A construct at file scope was a linkage block if one was ahead, and else the construct that
    its first leaf decides on. -/
theorem item_inv {first : Leaf} {rest : List Leaf} (hrest : feed.rest = first :: rest)
    (h : item (depth + 1) feed = .ok s feed') :
    (atLinkageBlock feed = true ∧ linkageBlock depth feed = .ok s feed')
      ∨ (atLinkageBlock feed = false ∧ ConstructRead depth first feed feed' s) := by
  rw [item] at h
  obtain ⟨feed₁, feed₂, hget, h₁⟩ := bind_ok.mp h
  obtain ⟨rfl, rfl⟩ := get_ok.mp hget
  split at h₁
  · rename_i hlink
    exact .inl ⟨hlink, h₁⟩
  · rename_i hlink
    refine .inr ⟨Bool.eq_false_iff.mpr hlink, ?_⟩
    obtain ⟨kind?, feed₃, hpeek, h₂⟩ := bind_ok.mp h₁
    obtain ⟨hkind, hfeed⟩ := peekKind?_ok.mp hpeek
    rw [hfeed] at h₂
    rw [kindAt?_zero hrest] at hkind
    -- the kind of the first leaf chooses the reader
    split at h₂
    · exact .directive h₂
    · exact .typedef h₂
    · exact .struct (Option.some.inj hkind).symm h₂
    · exact .lone (Option.some.inj hkind).symm h₂
    · exact absurd h₂ failHere_ne_ok
    · exact absurd h₂ failHere_ne_ok
    · exact absurd h₂ failHere_ne_ok
    · rename_i hhash htypedef hstruct hsemicolon hrbrace hrparen hrbracket
      refine .declaration ?_ h₂
      have hne : ∀ {kind : TokenKind}, (kind? = some kind → False) → first.kind ≠ kind :=
        fun hnot he => hnot (by rw [hkind, he])
      simp only [List.mem_cons, List.not_mem_nil, or_false, not_or]
      exact ⟨hne hhash, hne htypedef, hne hstruct, hne hsemicolon, hne hrbrace, hne hrparen,
        hne hrbracket⟩

/-- A linkage block has taken its opening and its closing brace, and has called the reader of its
    constructs between them. -/
theorem linkageBlock_inv (h : linkageBlock (depth + 1) feed = .ok s feed') :
    ∃ first name opener closer children mid mid', name.kind = .string ∧ opener.kind = .lbrace
      ∧ closer.kind = .rbrace ∧ Consumed feed mid [first, name, opener] 1
      ∧ linkageItems depth mid = .ok children mid' ∧ Consumed mid' feed' [closer] 0
      ∧ s = .node .linkageBlock ⟨first.id, (feed'.last?.getD first).id⟩ children := by
  rw [linkageBlock] at h
  obtain ⟨first, feed₁, hfirst, h₁⟩ := bind_ok.mp h
  obtain ⟨rfl, rest, hrest⟩ := firstLeaf_ok hfirst
  obtain ⟨u₁, feed₂, hopen, h₂⟩ := bind_ok.mp h₁
  obtain ⟨u₂, feed₃, hbump, h₃⟩ := bind_ok.mp h₂
  obtain ⟨name, feed₄, hname, h₄⟩ := bind_ok.mp h₃
  obtain ⟨opener, feed₅, hopener, h₅⟩ := bind_ok.mp h₄
  obtain ⟨children, feed₆, hchildren, h₆⟩ := bind_ok.mp h₅
  obtain ⟨closer, feed₇, hcloser, h₇⟩ := bind_ok.mp h₆
  obtain ⟨range, last, hrange, hpure⟩ := bind_ok.mp h₇
  obtain ⟨rfl, rfl⟩ := rangeFrom_ok.mp hrange
  obtain ⟨rfl, rfl⟩ := pure_ok.mp hpure
  have hopened := openNode_ok hopen
  have hhead := ((hopened.trans (bump_ok hbump (hopened.rest_eq.trans hrest))).trans
    (expect_ok hname).2).trans (expect_ok hopener).2
  exact ⟨first, name, opener, closer, children, feed₅, feed₆, (expect_ok hname).1,
    (expect_ok hopener).1, (expect_ok hcloser).1, hhead, hchildren, (expect_ok hcloser).2, rfl⟩

/-- The constructs of a linkage block have ended at the closing brace, or one was read before
    others. -/
theorem linkageItems_inv (h : linkageItems (depth + 1) feed = .ok ss feed') :
    (∃ closer rest, feed.rest = closer :: rest ∧ closer.kind = .rbrace ∧ ss = [] ∧ feed' = feed)
      ∨ ∃ child more mid, feed.rest ≠ [] ∧ ss = child :: more ∧ item depth feed = .ok child mid
        ∧ linkageItems depth mid = .ok more feed' := by
  rw [linkageItems] at h
  obtain ⟨kind?, feed₁, hpeek, h₁⟩ := bind_ok.mp h
  obtain ⟨hkind, hfeed⟩ := peekKind?_ok.mp hpeek
  rw [hfeed] at h₁
  split at h₁
  · exact absurd h₁ failAtEnd_ne_ok
  · obtain ⟨rfl, rfl⟩ := pure_ok.mp h₁
    obtain ⟨closer, rest, hrest, hk⟩ := exists_of_kindAt? hkind
    exact .inl ⟨closer, rest, hrest, hk, rfl, rfl⟩
  · obtain ⟨leaf, rest, hrest, -⟩ := exists_of_kindAt? hkind
    obtain ⟨child, mid, hchild, h₂⟩ := bind_ok.mp h₁
    obtain ⟨more, last, hmore, hpure⟩ := bind_ok.mp h₂
    obtain ⟨rfl, rfl⟩ := pure_ok.mp hpure
    exact .inr ⟨child, more, mid, by rw [hrest]; exact List.cons_ne_nil _ _, rfl, hchild, hmore⟩

end KernelPrep.Outline
