/-
  KernelPrep.Proofs.Outline.Reading — every reading covers what it takes.

  Each reader of a construct, when it goes through, yields a skeleton that covers exactly
  the leaves it took, and has begun as many nodes as the skeleton has.  The readers of
  nested constructs call each other with one step of depth less, so the statements about
  them are proved together by induction on the depth.

  Main definitions:
    * `Outline.Yields`, `Outline.YieldsAll` — a skeleton, or several, read from a feed.

  Main statements:
    * `Outline.nestedOk` — blocks and statements;
    * `Outline.itemsOk`  — constructs at file scope;
    * `Outline.parseFrom_ok` — whole files.
-/
import KernelPrep.Proofs.Outline.Inversion

namespace KernelPrep.Outline

open Skeleton (Covers FitIn size sizeAll)

/-! ## §1. Yields -/

/-- The skeleton was read from the feed: it covers the leaves taken, and its nodes are the
    nodes begun. -/
def Yields (s : Skeleton) (feed feed' : Feed) : Prop :=
  ∃ leaves, Consumed feed feed' leaves s.size ∧ s.Covers leaves

/-- The skeletons were read from the feed, one after the other. -/
def YieldsAll (ss : List Skeleton) (feed feed' : Feed) : Prop :=
  ∃ leaves, Consumed feed feed' leaves (sizeAll ss) ∧ FitIn ss leaves

@[simp] theorem size_node (kind : NodeKind) (range : TokenRange) (children : List Skeleton) :
    (Skeleton.node kind range children).size = sizeAll children + 1 := by
  unfold Skeleton.size
  rfl

@[simp] theorem size_leaf (kind : NodeKind) (range : TokenRange) :
    (Skeleton.leaf kind range).size = 1 := by
  unfold Skeleton.leaf
  rw [size_node]
  unfold Skeleton.sizeAll
  rfl

@[simp] theorem sizeAll_nil : sizeAll [] = 0 := by
  unfold Skeleton.sizeAll
  rfl

@[simp] theorem sizeAll_cons (s : Skeleton) (ss : List Skeleton) :
    sizeAll (s :: ss) = s.size + sizeAll ss := by
  conv_lhs => unfold Skeleton.sizeAll

@[simp] theorem sizeAll_append (ss ss' : List Skeleton) :
    sizeAll (ss ++ ss') = sizeAll ss + sizeAll ss' := by
  induction ss with
  | nil => simp
  | cons s ss ih => simp [ih, Nat.add_assoc]

/-- One skeleton before others. -/
theorem Yields.cons {s : Skeleton} {ss : List Skeleton} {feed feed₁ feed₂ : Feed}
    (h : Yields s feed feed₁) (h' : YieldsAll ss feed₁ feed₂) :
    YieldsAll (s :: ss) feed feed₂ := by
  obtain ⟨leaves, hc, hs⟩ := h
  obtain ⟨leaves', hc', hss⟩ := h'
  exact ⟨leaves ++ leaves', by rw [sizeAll_cons]; exact hc.trans hc', FitIn.cons hs hss⟩

/-! ## §2. Constructs without nested ones -/

/-- A node that begins with a leaf of its own, read before its children and whatever follows
    them. -/
theorem covers_node {kind : NodeKind} {children : List Skeleton} {feed feed' : Feed}
    {first : Leaf} {n : Nat} (leaves trail : List Leaf)
    (hc : Consumed feed feed' (first :: leaves ++ trail) n) (hfit : FitIn children leaves)
    (hread : kind ≠ .userTokens)
    (hscope : kind ≠ .linkageBlock → ∀ child ∈ children, child.kind.isScoped = false)
    (hparts : kind = .functionDefn → children.map (·.kind) = [.functionParams, .statementBlock])
    (htrail : kind = .statementBlock → trail ≠ []) :
    (Skeleton.node kind ⟨first.id, (feed'.last?.getD first).id⟩ children).Covers
      (first :: leaves ++ trail) := by
  unfold Skeleton.Covers
  exact ⟨hc.bounds, hread, hscope, hparts, [first], leaves, trail, by simp, hfit,
    fun _ => List.cons_ne_nil _ _, htrail⟩

/-- A node over one token. -/
theorem covers_single {kind : NodeKind} (leaf : Leaf) (hkind : kind ≠ .statementBlock)
    (hkind' : kind ≠ .functionDefn) (hread : kind ≠ .userTokens) :
    (Skeleton.leaf kind (.single leaf.id)).Covers [leaf] :=
  Skeleton.covers_leaf (TokenRange.bounds_single leaf) hkind hkind' hread

/-- A directive covers the leaves of its line. -/
theorem directive_ok {feed feed' : Feed} {s : Skeleton} (h : directive feed = .ok s feed') :
    Yields s feed feed' ∧ s.kind = .directive := by
  obtain ⟨hash, body, hc, -, -, -, rfl⟩ := directive_inv h
  exact ⟨⟨hash :: body, by rwa [size_leaf],
    Skeleton.covers_leaf hc.bounds (by simp) (by simp) (by simp)⟩, rfl⟩

/-- A leaf on its own is covered by its node. -/
theorem loneToken_ok {feed feed' : Feed} {s : Skeleton} (h : loneToken feed = .ok s feed') :
    Yields s feed feed' ∧ s.kind = .token := by
  obtain ⟨leaf, hc, rfl⟩ := loneToken_inv h
  exact ⟨⟨[leaf], by rwa [size_leaf], covers_single leaf (by simp) (by simp) (by simp)⟩, rfl⟩

/-- A struct that is only declared covers its word, its tag and its `;`. -/
theorem structDecl_ok {feed feed' : Feed} {s : Skeleton} (h : structDecl feed = .ok s feed') :
    Yields s feed feed' := by
  obtain ⟨first, tag, last, -, -, -, hc, rfl⟩ := structDecl_inv h
  have htag : (Skeleton.leaf .structTag (.single tag.id)).Covers [tag] :=
    covers_single tag (by simp) (by simp) (by simp)
  refine ⟨first :: [tag] ++ [last], by simpa using hc,
    covers_node [tag] [last] hc htag.fitIn (by simp) ?_ (by simp) (by simp)⟩
  intro _ child hchild
  rw [List.mem_singleton.mp hchild]
  rfl

/-- The names among the declarators cover a leaf each, in order. -/
theorem declaratorsFrom_ok {opened : Nat} {pending : List TokenKind} {initialiser : Bool}
    {last? : Option Leaf} {rest : List Leaf} {feed' : Feed} {names : List Skeleton}
    (h : declaratorsFrom opened pending initialiser last? rest = .ok names feed') :
    YieldsAll names { rest, last?, opened } feed'
      ∧ ∀ name ∈ names, name.kind.isScoped = false := by
  induction rest generalizing opened pending initialiser last? names with
  | nil =>
    unfold declaratorsFrom at h
    exact absurd h failAtEnd_ne_ok
  | cons leaf rest ih =>
    rcases declaratorsFrom_inv h with ⟨pending, initialiser, hrest⟩ | ⟨-, rfl, rfl⟩
      | ⟨more, rfl, hmore⟩
    · obtain ⟨⟨leaves, hc, hfit⟩, hkinds⟩ := ih hrest
      have hall := (consumed_one leaf rest last? opened 0).trans hc
      rw [Nat.zero_add] at hall
      exact ⟨⟨[leaf] ++ leaves, hall, hfit.prepend [leaf]⟩, hkinds⟩
    · exact ⟨⟨[leaf], by simpa using consumed_one leaf rest last? opened 0,
        Skeleton.fitIn_nil _⟩, by simp⟩
    · obtain ⟨⟨leaves, hc, hfit⟩, hkinds⟩ := ih hmore
      have hall := (consumed_one leaf rest last? opened 1).trans hc
      have hname : (Skeleton.leaf .structName (.single leaf.id)).Covers [leaf] :=
        covers_single leaf (by simp) (by simp) (by simp)
      exact ⟨⟨[leaf] ++ leaves, by simpa using hall, FitIn.cons hname hfit⟩,
        List.forall_mem_cons.mpr ⟨rfl, hkinds⟩⟩

/-- Declarators from their beginning. -/
theorem declarators_ok {feed feed' : Feed} {names : List Skeleton}
    (h : declarators feed = .ok names feed') :
    YieldsAll names feed feed' ∧ ∀ name ∈ names, name.kind.isScoped = false :=
  declaratorsFrom_ok h

/-- What stands behind a parameter list makes no nodes. -/
theorem qualifiersFrom_ok {opened : Nat} {terminator : TokenId} {pending : List TokenKind}
    {last? : Option Leaf} {rest : List Leaf} {feed' : Feed} {u : Unit}
    (h : qualifiersFrom opened terminator pending last? rest = .ok u feed') :
    ∃ leaves, Consumed { rest, last?, opened } feed' leaves 0 := by
  induction rest generalizing pending last? with
  | nil =>
    unfold qualifiersFrom at h
    split at h
    · obtain ⟨-, rfl⟩ := EStateM.Result.ok.inj h
      exact ⟨[], Consumed.refl _⟩
    · exact absurd h failAtEnd_ne_ok
  | cons leaf rest ih =>
    -- whatever a leaf does to the delimiters, it is taken
    have hskip : ∀ {pending}, qualifiersFrom opened terminator pending (some leaf) rest
          = .ok u feed' →
        ∃ leaves, Consumed { rest := leaf :: rest, last?, opened } feed' leaves 0 := by
      intro pending h
      obtain ⟨leaves, hc⟩ := ih h
      exact ⟨_, (consumed_one leaf rest last? opened 0).trans hc⟩
    unfold qualifiersFrom at h
    simp only at h
    split at h
    · obtain ⟨-, rfl⟩ := EStateM.Result.ok.inj h
      exact ⟨[], Consumed.refl _⟩
    · split at h
      · exact hskip h
      · split at h
        · exact absurd h failHere_ne_ok
        · exact hskip h

/-- What stands behind a parameter list, from its beginning. -/
theorem qualifiers_ok {terminator : TokenId} {feed feed' : Feed} {u : Unit}
    (h : qualifiers terminator feed = .ok u feed') :
    ∃ leaves, Consumed feed feed' leaves 0 := qualifiersFrom_ok h

/-! ## §3. Blocks and statements -/

/-- What is known of the readers of nested constructs at one depth. -/
structure NestedOk (depth : Nat) : Prop where
  block : ∀ {feed feed' s}, block depth feed = .ok s feed' →
    Yields s feed feed' ∧ s.kind = .statementBlock
  blockItems : ∀ {feed feed' ss}, blockItems depth feed = .ok ss feed' →
    YieldsAll ss feed feed' ∧ ∀ s ∈ ss, s.kind.isScoped = false
  statement : ∀ {feed feed' s}, feed.kindAt? 0 ≠ some .rbrace →
    statement depth feed = .ok s feed' → Yields s feed feed' ∧ s.kind = .statement
  statementTail : ∀ {goesOn feed feed' ss}, statementTail depth goesOn feed = .ok ss feed' →
    ∃ leaves, Consumed feed feed' leaves (sizeAll ss) ∧ FitIn ss leaves
      ∧ (∀ s ∈ ss, s.kind.isScoped = false)
      ∧ (feed.rest ≠ [] → feed.kindAt? 0 ≠ some .rbrace → leaves ≠ [])

/-- Without depth no reader goes through. -/
theorem nestedOk_zero : NestedOk 0 where
  block h := absurd h block_zero_ne_ok
  blockItems h := absurd h blockItems_zero_ne_ok
  statement _ h := absurd h statement_zero_ne_ok
  statementTail h := absurd h statementTail_zero_ne_ok

/-- A block covers its braces and what is between them. -/
theorem block_succ {depth : Nat} (hd : NestedOk depth) {feed feed' : Feed} {s : Skeleton}
    (h : block (depth + 1) feed = .ok s feed') :
    Yields s feed feed' ∧ s.kind = .statementBlock := by
  obtain ⟨opener, closer, children, mid, mid', -, -, hopen, hchildren, hclose, rfl⟩ :=
    block_inv h
  obtain ⟨⟨leaves, hc, hfit⟩, hkinds⟩ := hd.blockItems hchildren
  have hall := (hopen.trans hc).trans hclose
  refine ⟨⟨opener :: leaves ++ [closer], ?_,
    covers_node leaves [closer] hall hfit (by simp) (fun _ => hkinds) (by simp) (by simp)⟩, rfl⟩
  simpa [Nat.add_comm] using hall

/-- A statement covers its leaves; it has one, as no closing brace is ahead. -/
theorem statement_succ {depth : Nat} (hd : NestedOk depth) {feed feed' : Feed} {s : Skeleton}
    (hhead : feed.kindAt? 0 ≠ some .rbrace) (h : statement (depth + 1) feed = .ok s feed') :
    Yields s feed feed' ∧ s.kind = .statement := by
  obtain ⟨first, rest, mid, blocks, hrest, hopen, hblocks, rfl⟩ := statement_inv h
  obtain ⟨leaves, hc, hfit, hkinds, hne⟩ := hd.statementTail hblocks
  have hrest' : mid.rest = first :: rest := hopen.rest_eq.trans hrest
  -- the leaf ahead does not end the statement, so the statement begins with it
  obtain ⟨first', leaves', rfl⟩ : ∃ first' leaves', leaves = first' :: leaves' := by
    refine List.exists_cons_of_ne_nil (hne (by rw [hrest']; exact List.cons_ne_nil _ _) ?_)
    rw [kindAt?_zero hrest', ← kindAt?_zero hrest]
    exact hhead
  obtain rfl : first = first' := (List.cons.inj (hrest'.symm.trans hc.rest)).1
  have hall := hopen.trans hc
  refine ⟨⟨_, by simpa [Nat.add_comm] using hall, ?_⟩, rfl⟩
  unfold Skeleton.Covers
  exact ⟨hall.bounds, by simp, fun _ => hkinds, by simp, [], first :: leaves', [], by simp, hfit,
    fun hs => absurd rfl hs, by simp⟩

/-- Whatever stands in a block covers what it takes and is not of file scope. -/
theorem BodyRead.yields {depth : Nat} (hd : NestedOk depth) {first : Leaf} {rest : List Leaf}
    {feed feed' : Feed} {s : Skeleton} (hrest : feed.rest = first :: rest)
    (h : BodyRead depth first feed s feed') : Yields s feed feed' ∧ s.kind.isScoped = false := by
  cases h with
  | directive hs =>
    obtain ⟨hy, hk⟩ := directive_ok hs
    exact ⟨hy, by rw [hk]; rfl⟩
  | block hs =>
    obtain ⟨hy, hk⟩ := hd.block hs
    exact ⟨hy, by rw [hk]; rfl⟩
  | lone _ hs =>
    obtain ⟨hy, hk⟩ := loneToken_ok hs
    exact ⟨hy, by rw [hk]; rfl⟩
  | statement hkind hs =>
    have hhead : feed.kindAt? 0 ≠ some .rbrace := by
      rw [kindAt?_zero hrest]
      exact fun he => hkind (by simp [Option.some.inj he])
    obtain ⟨hy, hk⟩ := hd.statement hhead hs
    exact ⟨hy, by rw [hk]; rfl⟩

/-- The items of a block, one behind the other. -/
theorem blockItems_succ {depth : Nat} (hd : NestedOk depth) {feed feed' : Feed}
    {ss : List Skeleton} (h : blockItems (depth + 1) feed = .ok ss feed') :
    YieldsAll ss feed feed' ∧ ∀ s ∈ ss, s.kind.isScoped = false := by
  rcases blockItems_inv h with ⟨closer, rest, -, -, rfl, rfl⟩
    | ⟨first, rest, child, more, mid, hrest, rfl, hchild, hmore⟩
  · exact ⟨⟨[], by simpa using Consumed.refl feed', Skeleton.fitIn_nil _⟩, by simp⟩
  · obtain ⟨hyields, hscope⟩ := hchild.yields hd hrest
    obtain ⟨hyieldsAll, hscopes⟩ := hd.blockItems hmore
    exact ⟨hyields.cons hyieldsAll, List.forall_mem_cons.mpr ⟨hscope, hscopes⟩⟩

/-- The rest of a statement has nodes for its blocks only. -/
theorem statementTail_succ {depth : Nat} (hd : NestedOk depth) {goesOn : Bool}
    {feed feed' : Feed} {ss : List Skeleton}
    (h : statementTail (depth + 1) goesOn feed = .ok ss feed') :
    ∃ leaves, Consumed feed feed' leaves (sizeAll ss) ∧ FitIn ss leaves
      ∧ (∀ s ∈ ss, s.kind.isScoped = false)
      ∧ (feed.rest ≠ [] → feed.kindAt? 0 ≠ some .rbrace → leaves ≠ []) := by
  -- some leaves are taken, and the statement goes on behind them
  have hgo : ∀ {mid leaves goesOn}, leaves ≠ [] → Consumed feed mid leaves 0 →
      statementTail depth goesOn mid = .ok ss feed' →
      ∃ leaves, Consumed feed feed' leaves (sizeAll ss) ∧ FitIn ss leaves
        ∧ (∀ s ∈ ss, s.kind.isScoped = false)
        ∧ (feed.rest ≠ [] → feed.kindAt? 0 ≠ some .rbrace → leaves ≠ []) := by
    intro mid leaves goesOn hne hc htail
    obtain ⟨leaves', hc', hfit, hkinds, -⟩ := hd.statementTail htail
    have hall := hc.trans hc'
    rw [Nat.zero_add] at hall
    exact ⟨leaves ++ leaves', hall, hfit.prepend leaves, hkinds, fun _ _ => by simp [hne]⟩
  -- a block is not of file scope
  have hscope : ∀ {child : Skeleton}, child.kind = .statementBlock →
      child.kind.isScoped = false := fun hk => by rw [hk]; rfl
  cases statementTail_inv h with
  | done hend =>
    refine ⟨[], by simpa using Consumed.refl feed, Skeleton.fitIn_nil _, by simp, ?_⟩
    intro hne hhead
    obtain ⟨leaf, rest, hrest⟩ := List.exists_cons_of_ne_nil hne
    rw [kindAt?_zero hrest, hend leaf (by rw [hrest]; rfl)] at hhead
    exact absurd rfl hhead
  | semicolon _ hc =>
    exact ⟨_, by simpa using hc, Skeleton.fitIn_nil _, by simp, by simp⟩
  | block hchild =>
    obtain ⟨⟨leaves, hc, hcovers⟩, hk⟩ := hd.block hchild
    refine ⟨leaves, by simpa using hc, hcovers.fitIn, ?_, fun _ _ => hcovers.ne_nil⟩
    intro s hs
    rw [List.mem_singleton.mp hs]
    exact hscope hk
  | blockOn hchild htail =>
    obtain ⟨⟨leaves, hc, hcovers⟩, hk⟩ := hd.block hchild
    obtain ⟨leaves', hc', hfit, hkinds, -⟩ := hd.statementTail htail
    exact ⟨leaves ++ leaves', by rw [Outline.sizeAll_cons]; exact hc.trans hc',
      FitIn.cons hcovers hfit, List.forall_mem_cons.mpr ⟨hscope hk, hkinds⟩,
      fun _ _ => by simp [hcovers.ne_nil]⟩
  | group _ _ hgroup htail =>
    obtain ⟨leaves, hne, hc⟩ := skipGroup_ok hgroup
    exact hgo hne hc htail
  | assign _ hc htail => exact hgo (List.cons_ne_nil _ []) hc htail
  | word _ hc htail => exact hgo (List.cons_ne_nil _ []) hc htail

/-- **Blocks and statements** cover what they take, at any depth. -/
theorem nestedOk (depth : Nat) : NestedOk depth := by
  induction depth with
  | zero => exact nestedOk_zero
  | succ depth ih =>
    exact ⟨block_succ ih, blockItems_succ ih, statement_succ ih, statementTail_succ ih⟩

/-! ## §4. Structs, type definitions and functions -/

/-- The head of a struct: its tag and its block stand behind its word. -/
theorem structHead_ok {depth : Nat} {feed feed' : Feed} {first : Leaf} {parts : List Skeleton}
    (h : structHead depth feed = .ok (first, parts) feed') :
    ∃ leaves, Consumed feed feed' (first :: leaves) (sizeAll parts + 1) ∧ FitIn parts leaves
      ∧ ∀ s ∈ parts, s.kind.isScoped = false := by
  obtain ⟨mid, body, -, hblock, hhead⟩ := structHead_inv h
  obtain ⟨⟨leaves, hc, hcovers⟩, hk⟩ := (nestedOk depth).block hblock
  have hscope : body.kind.isScoped = false := by
    rw [hk]
    rfl
  rcases hhead with ⟨hfirst, rfl⟩ | ⟨tag, -, hfirst, rfl⟩
  · refine ⟨leaves, (hfirst.trans hc).congr rfl ?_, hcovers.fitIn, by simpa using hscope⟩
    simp only [sizeAll_cons, sizeAll_nil]
    omega
  · have htag : (Skeleton.leaf .structTag (.single tag.id)).Covers [tag] :=
      covers_single tag (by simp) (by simp) (by simp)
    refine ⟨[tag] ++ leaves, (hfirst.trans hc).congr rfl ?_, FitIn.cons htag hcovers.fitIn,
      List.forall_mem_cons.mpr ⟨rfl, by simpa using hscope⟩⟩
    simp only [sizeAll_cons, size_leaf, sizeAll_nil]
    omega

/-- A type definition covers its word, what it defines and its names. -/
theorem typedefItem_ok {depth : Nat} {feed feed' : Feed} {s : Skeleton}
    (h : typedefItem depth feed = .ok s feed') : Yields s feed feed' := by
  obtain ⟨first, mid, children, -, hfirst, rfl, hchildren⟩ := typedefItem_inv h
  -- either way the children stand behind the first leaf
  obtain ⟨leaves, hc, hfit, hkinds⟩ : ∃ leaves, Consumed mid feed' leaves (sizeAll children)
      ∧ FitIn children leaves ∧ ∀ s ∈ children, s.kind.isScoped = false := by
    rcases hchildren with ⟨struct, parts, mid', names, hstruct, hnames, rfl⟩ | ⟨-, htail⟩
    · obtain ⟨leaves, hc, hfit, hkinds⟩ := structHead_ok hstruct
      obtain ⟨⟨leaves', hc', hfit'⟩, hkinds'⟩ := declarators_ok hnames
      have hstruct' : (Skeleton.node .structDefn ⟨struct.id, (mid'.last?.getD struct).id⟩
          parts).Covers (struct :: leaves ++ []) :=
        covers_node leaves [] (by simpa using hc) hfit (by simp) (fun _ => hkinds) (by simp)
          (by simp)
      rw [List.append_nil] at hstruct'
      refine ⟨struct :: leaves ++ leaves', ?_, FitIn.cons hstruct' hfit',
        List.forall_mem_cons.mpr ⟨rfl, hkinds'⟩⟩
      rw [Outline.sizeAll_cons, size_node]
      exact hc.trans hc'
    · obtain ⟨leaves, hc, hfit, hkinds, -⟩ := (nestedOk depth).statementTail htail
      exact ⟨leaves, hc, hfit, hkinds⟩
  have hall : Consumed feed feed' (first :: leaves ++ []) (sizeAll children + 1) :=
    (hfirst.trans hc).congr (by simp) (by omega)
  exact ⟨_, by rwa [size_node],
    covers_node leaves [] hall hfit (by simp) (fun _ => hkinds) (by simp) (by simp)⟩

/-- The parameter list that is found is the one found before, or is among the leaves ahead. -/
theorem classifyFrom_function {depth : Nat} {before? : Option Leaf} {params? : Option TokenId}
    {leaves : List Leaf} {params terminator : TokenId} {body : Bool}
    (h : classifyFrom depth before? params? leaves = .function params terminator body) :
    params? = some params ∨ ∃ leaf ∈ leaves, leaf.id = params := by
  induction leaves generalizing depth before? params? with
  | nil => simp [classifyFrom] at h
  | cons leaf rest ih =>
    -- going on behind this leaf
    have hrest : ∀ {depth before?}, classifyFrom depth before? params? rest
          = .function params terminator body →
        params? = some params ∨ ∃ leaf' ∈ leaf :: rest, leaf'.id = params := by
      intro depth before? hr
      rcases ih hr with hp | ⟨leaf', hmem, hid⟩
      · exact Or.inl hp
      · exact Or.inr ⟨leaf', List.mem_cons_of_mem _ hmem, hid⟩
    unfold classifyFrom at h
    split at h
    · split at h
      · exact hrest h
      · split at h
        · exact hrest h
        · exact hrest h
    · split at h
      -- here the parameter list may be found, with this leaf as its opener
      · simp only at h
        rcases ih h with hp | ⟨leaf', hmem, hid⟩
        · split at hp
          · exact Or.inr ⟨leaf, List.mem_cons_self, Option.some.inj hp⟩
          · exact Or.inl hp
        · exact Or.inr ⟨leaf', List.mem_cons_of_mem _ hmem, hid⟩
      · exact hrest h
      · split at h
        · exact Or.inl (congrArg some (Shape.function.inj h).1)
        · simp at h
      · split at h
        · exact Or.inl (congrArg some (Shape.function.inj h).1)
        · simp at h
      · simp at h
      · simp at h
      · simp at h
      · simp at h
      · split at h
        · simp at h
        · exact hrest h

/-- The parameter list of a function does not open with the first leaf: a name comes before
    it. -/
theorem classify_function {leaf : Leaf} {rest : List Leaf} {params terminator : TokenId}
    {body : Bool} (h : classify (leaf :: rest) = .function params terminator body) :
    ∃ leaf' ∈ rest, leaf'.id = params := by
  have hrest : ∀ {depth before?}, classifyFrom depth before? none rest
        = .function params terminator body → ∃ leaf' ∈ rest, leaf'.id = params := by
    intro depth before? hr
    rcases classifyFrom_function hr with hp | hp
    · simp at hp
    · exact hp
  -- a `(` in front has no name before it, and opens no parameter list
  unfold classify classifyFrom at h
  simp only [Nat.lt_irrefl, if_false] at h
  split at h
  · simp only [opensParams, Bool.and_false, Bool.false_eq_true, if_false] at h
    exact hrest h
  · exact hrest h
  · simp at h
  · simp at h
  · simp at h
  · simp at h
  · simp at h
  · simp at h
  · split at h
    · simp at h
    · exact hrest h

/-- A function covers its head, its parameter list, and its block or `;`. -/
theorem functionItem_ok {depth : Nat} {params terminator : TokenId} {body : Bool}
    {feed feed' : Feed} {s : Skeleton} {first : Leaf} {rest : List Leaf}
    (hrest : feed.rest = first :: rest) (hne : first.id ≠ params)
    (h : functionItem depth params terminator body feed = .ok s feed') :
    Yields s feed feed' := by
  obtain ⟨first', rest', named, listed, opened, mid, hrest', hopen, hgroup, hopen', hquals, hend⟩ :=
    functionItem_inv h
  obtain ⟨rfl, rfl⟩ := List.cons.inj (hrest.symm.trans hrest')
  obtain ⟨group, hgroupne, hgroupc⟩ := skipGroup_ok hgroup
  obtain ⟨quals, hqualsc⟩ := qualifiers_ok hquals
  -- the words before the parameter list, which begin with the first leaf
  have hnamec := consumed_bumpWhile named fun leaf => leaf.id != params
  rw [hopen.rest_eq, hrest, List.takeWhile_cons_of_pos (by simpa using hne)] at hnamec
  generalize rest.takeWhile (fun leaf => leaf.id != params) = name at hnamec
  have hlist : (Skeleton.leaf .functionParams
      ⟨params, (listed.last?.map (·.id)).getD params⟩).Covers group := by
    refine Skeleton.covers_leaf ⟨?_, ?_⟩ (by simp) (by simp) (by simp)
    · have hhead := List.head?_dropWhile_not (fun leaf : Leaf => leaf.id != params) named.rest
      obtain ⟨opener, group', rfl⟩ := List.exists_cons_of_ne_nil hgroupne
      have hdrop : named.rest.dropWhile (fun leaf => leaf.id != params)
          = opener :: (group' ++ listed.rest) := hgroupc.rest
      rw [hdrop] at hhead
      simpa using hhead
    · have hlast := hgroupc.last
      rw [List.getLast?_eq_some_getLast hgroupne, Option.some_or] at hlast
      rw [hlast, List.getLast?_eq_some_getLast hgroupne]
      rfl
  have hhead := (((hopen.trans hnamec).trans hgroupc).trans hopen').trans hqualsc
  rcases hend with ⟨-, child, hblock, rfl⟩ | ⟨-, semi, -, hsemi, rfl⟩
  · obtain ⟨⟨leaves, hc, hcovers⟩, hk⟩ := (nestedOk depth).block hblock
    have hall : Consumed feed feed' (first :: (name ++ (group ++ (quals ++ leaves))) ++ [])
        (child.size + 2) := (hhead.trans hc).congr (by simp) (by omega)
    refine ⟨_, hall.congr rfl ?_, covers_node _ [] hall ?_ (by simp) ?_ ?_ (by simp)⟩
    · simp only [size_node, sizeAll_cons, size_leaf, sizeAll_nil]
      omega
    · exact (FitIn.cons hlist (hcovers.fitIn.prepend quals)).prepend name
    · refine fun _ => List.forall_mem_cons.mpr ⟨rfl, List.forall_mem_singleton.mpr ?_⟩
      rw [hk]
      rfl
    · intro _
      rw [List.map_cons, List.map_cons, hk]
      rfl
  · have hall : Consumed feed feed' (first :: (name ++ (group ++ quals)) ++ [semi]) 2 :=
      (hhead.trans hsemi).congr (by simp) rfl
    refine ⟨_, by simpa using hall,
      covers_node _ [semi] hall ?_ (by simp) ?_ (by simp) (by simp)⟩
    · exact (hlist.fitIn.extend quals).prepend name
    · exact fun _ => List.forall_mem_singleton.mpr rfl

/-- A declaration, be it a function or a statement. -/
theorem declaration_ok {depth : Nat} {feed feed' : Feed} {s : Skeleton} {first : Leaf}
    {rest : List Leaf} (hrest : feed.rest = first :: rest) (hkind : first.kind ≠ .rbrace)
    (hnodup : (feed.rest.map (·.id)).Nodup) (h : declaration depth feed = .ok s feed') :
    Yields s feed feed' := by
  rcases declaration_inv h with ⟨params, terminator, body, hshape, hfun⟩ | ⟨-, hstatement⟩
  · rw [hrest] at hshape
    obtain ⟨leaf, hmem, hid⟩ := classify_function hshape
    refine functionItem_ok hrest ?_ hfun
    rw [hrest, List.map_cons, List.nodup_cons] at hnodup
    intro he
    refine hnodup.1 ?_
    rw [he, ← hid]
    exact List.mem_map_of_mem hmem
  · refine ((nestedOk depth).statement ?_ hstatement).1
    rw [kindAt?_zero hrest]
    exact fun he => hkind (Option.some.inj he)

/-- A struct at file scope: only declared, defined, or part of a declaration. -/
theorem structItem_ok {depth : Nat} {feed feed' : Feed} {s : Skeleton} {first : Leaf}
    {rest : List Leaf} (hrest : feed.rest = first :: rest) (hkind : first.kind ≠ .rbrace)
    (hnodup : (feed.rest.map (·.id)).Nodup) (h : structItem depth feed = .ok s feed') :
    Yields s feed feed' := by
  rcases structItem_inv h with hdecl | ⟨first', parts, mid, names, hstruct, hnames, rfl⟩
    | ⟨-, -, hdeclaration⟩
  · exact structDecl_ok hdecl
  · obtain ⟨leaves, hc, hfit, hkinds⟩ := structHead_ok hstruct
    obtain ⟨⟨leaves', hc', hfit'⟩, hkinds'⟩ := declarators_ok hnames
    have hall : Consumed feed feed' (first' :: (leaves ++ leaves') ++ [])
        (sizeAll (parts ++ names) + 1) :=
      (hc.trans hc').congr (by simp) (by rw [sizeAll_append]; omega)
    refine ⟨_, by rwa [size_node],
      covers_node _ [] hall (hfit.append hfit') (by simp) ?_ (by simp) (by simp)⟩
    exact fun _ s hs => (List.mem_append.mp hs).elim (hkinds s) (hkinds' s)
  · exact declaration_ok hrest hkind hnodup hdeclaration

/-! ## §5. Constructs at file scope -/

/-- What is known of the readers at file scope at one depth. -/
structure ItemsOk (depth : Nat) : Prop where
  item : ∀ {feed feed' s}, feed.rest ≠ [] → (feed.rest.map (·.id)).Nodup →
    item depth feed = .ok s feed' → Yields s feed feed'
  linkageBlock : ∀ {feed feed' s}, (feed.rest.map (·.id)).Nodup →
    linkageBlock depth feed = .ok s feed' → Yields s feed feed'
  linkageItems : ∀ {feed feed' ss}, (feed.rest.map (·.id)).Nodup →
    linkageItems depth feed = .ok ss feed' → YieldsAll ss feed feed'

/-- What is left of leaves with different handles has different handles. -/
theorem Consumed.nodup {feed feed' : Feed} {leaves : List Leaf} {n : Nat}
    (h : Consumed feed feed' leaves n) (hnodup : (feed.rest.map (·.id)).Nodup) :
    (feed'.rest.map (·.id)).Nodup := by
  rw [h.rest, List.map_append] at hnodup
  exact (List.nodup_append.mp hnodup).2.1

/-- Without depth no reader at file scope goes through. -/
theorem itemsOk_zero : ItemsOk 0 where
  item _ _ h := absurd h item_zero_ne_ok
  linkageBlock _ h := absurd h linkageBlock_zero_ne_ok
  linkageItems _ h := absurd h linkageItems_zero_ne_ok

/-- A construct at file scope. -/
theorem item_succ {depth : Nat} (hd : ItemsOk depth) {feed feed' : Feed} {s : Skeleton}
    (hne : feed.rest ≠ []) (hnodup : (feed.rest.map (·.id)).Nodup)
    (h : item (depth + 1) feed = .ok s feed') : Yields s feed feed' := by
  obtain ⟨first, rest, hrest⟩ := List.exists_cons_of_ne_nil hne
  rcases item_inv hrest h with ⟨-, hlink⟩ | ⟨-, hread⟩
  · exact hd.linkageBlock hnodup hlink
  · cases hread with
    | directive hs => exact (directive_ok hs).1
    | typedef hs => exact typedefItem_ok hs
    | struct hkind hs => exact structItem_ok hrest (by simp [hkind]) hnodup hs
    | lone _ hs => exact (loneToken_ok hs).1
    | declaration hkind hs =>
      exact declaration_ok hrest (fun he => hkind (by simp [he])) hnodup hs

/-- A linkage block covers its opening, its constructs and its closing brace. -/
theorem linkageBlock_succ {depth : Nat} (hd : ItemsOk depth) {feed feed' : Feed}
    {s : Skeleton} (hnodup : (feed.rest.map (·.id)).Nodup)
    (h : linkageBlock (depth + 1) feed = .ok s feed') : Yields s feed feed' := by
  obtain ⟨first, name, opener, closer, children, mid, mid', -, -, -, hhead, hchildren, hclose,
    rfl⟩ := linkageBlock_inv h
  obtain ⟨leaves, hc, hfit⟩ := hd.linkageItems (hhead.nodup hnodup) hchildren
  have hall : Consumed feed feed' (first :: ([name, opener] ++ leaves) ++ [closer])
      (sizeAll children + 1) :=
    ((hhead.trans hc).trans hclose).congr (by simp) (by omega)
  exact ⟨_, by rwa [size_node],
    covers_node _ [closer] hall (hfit.prepend _) (by simp) (fun hk => absurd rfl hk) (by simp)
      (by simp)⟩

/-- The constructs of a linkage block, one behind the other. -/
theorem linkageItems_succ {depth : Nat} (hd : ItemsOk depth) {feed feed' : Feed}
    {ss : List Skeleton} (hnodup : (feed.rest.map (·.id)).Nodup)
    (h : linkageItems (depth + 1) feed = .ok ss feed') : YieldsAll ss feed feed' := by
  rcases linkageItems_inv h with ⟨closer, rest, -, -, rfl, rfl⟩
    | ⟨child, more, mid, hne, rfl, hchild, hmore⟩
  · exact ⟨[], by simpa using Consumed.refl feed', Skeleton.fitIn_nil _⟩
  · have hyields := hd.item hne hnodup hchild
    obtain ⟨leaves, hc, -⟩ := id hyields
    exact hyields.cons (hd.linkageItems (hc.nodup hnodup) hmore)

/-- **Constructs at file scope** cover what they take, at any depth. -/
theorem itemsOk (depth : Nat) : ItemsOk depth := by
  induction depth with
  | zero => exact itemsOk_zero
  | succ depth ih => exact ⟨item_succ ih, linkageBlock_succ ih, linkageItems_succ ih⟩

/-! ## §6. Whole files -/

/-- The items of a file, one behind the other without a gap. -/
inductive Tiles : List Skeleton → List Leaf → Prop where
  | nil : Tiles [] []
  | cons {s : Skeleton} {ss : List Skeleton} {own rest : List Leaf} : s.Covers own →
      Tiles ss rest → Tiles (s :: ss) (own ++ rest)

/-- **The items of a file** tile a first part of its leaves; without an error they tile all of
    them, and every node begun is a node of an item. -/
theorem parseFrom_ok {count : Nat} {feed : Feed} (hcount : feed.rest.length ≤ count)
    (hnodup : (feed.rest.map (·.id)).Nodup) :
    ∃ leaves rest, feed.rest = leaves ++ rest ∧ Tiles (parseFrom count feed).items leaves
      ∧ ((parseFrom count feed).error? = none → rest = []
        ∧ (parseFrom count feed).opened
          = feed.opened + sizeAll (parseFrom count feed).items) := by
  induction count generalizing feed with
  | zero =>
    have hnil : feed.rest = [] := List.length_eq_zero_iff.mp (Nat.le_zero.mp hcount)
    exact ⟨[], [], by simp [hnil], Tiles.nil, fun _ => ⟨rfl, by simp [parseFrom]⟩⟩
  | succ count ih =>
    unfold parseFrom
    split
    · rename_i hempty
      have hnil : feed.rest = [] := List.isEmpty_iff.mp hempty
      exact ⟨[], [], by simp [hnil], Tiles.nil, fun _ => ⟨rfl, by simp⟩⟩
    · rename_i hempty
      have hne : feed.rest ≠ [] := by simpa using hempty
      cases hitem : item (depthBound feed.rest.length) feed with
      | error error feed' =>
        exact ⟨[], feed.rest, rfl, Tiles.nil, by simp⟩
      | ok child feed' =>
        obtain ⟨leaves, hc, hcovers⟩ := (itemsOk _).item hne hnodup hitem
        -- an item takes a leaf, so that the bound on the items is never met
        have hlen : feed'.rest.length ≤ count := by
          have hpos := List.length_pos_iff.mpr hcovers.ne_nil
          have hsum := congrArg List.length hc.rest
          rw [List.length_append] at hsum
          omega
        obtain ⟨leaves', rest, hrest, htiles, hdone⟩ := ih hlen (hc.nodup hnodup)
        refine ⟨leaves ++ leaves', rest, ?_, Tiles.cons hcovers htiles, ?_⟩
        · rw [hc.rest, hrest, List.append_assoc]
        · intro hnone
          obtain ⟨hnil, hopened⟩ := hdone hnone
          refine ⟨hnil, ?_⟩
          simp only [sizeAll_cons]
          rw [hopened, hc.opened, Nat.add_assoc]

/-- **Whole files**: the items cover what was read, which is everything if there is no error. -/
theorem parse_ok {leaves : List Leaf} (hnodup : (leaves.map (·.id)).Nodup) :
    ∃ read rest, leaves = read ++ rest ∧ Tiles (parse leaves).items read
      ∧ ((parse leaves).error? = none → rest = []
        ∧ (parse leaves).opened = sizeAll (parse leaves).items) := by
  have h := @parseFrom_ok leaves.length { rest := leaves } (Nat.le_refl _) hnodup
  simpa [parse] using h

end KernelPrep.Outline
