/-
  KernelPrep.Proofs.Outline.Derivation — what is read is as the grammar says.

  Each reader of a construct, when it goes through, has taken the leaves of a branch that
  the grammar admits there, and its skeleton is that of the branch.  The head of a function
  is read up to a parameter list that was found by looking ahead; since no handle occurs
  twice, the reader stops where the look-ahead did.

  Main definitions:
    * `Outline.Makes`           — branches of a part, read from a feed;
    * `Outline.DeclaratorsMade` — declarators, read from a feed.

  Main statements:
    * `Outline.nestedMakes` — blocks and statements;
    * `Outline.itemsMake`   — constructs at file scope;
    * `Outline.parse_reads` — a file that has an outline is as the grammar says.
-/
import KernelPrep.Proofs.Outline.Grammar

namespace KernelPrep.Outline

open Branch (leavesAll skeletonsAll)

/-! ## §1. Constructs without nested ones -/

/-- The branches were read from the feed as the part, and the skeletons are theirs. -/
def Makes (part : Part) (feed feed' : Feed) (ss : List Skeleton) : Prop :=
  ∃ branches n, Consumed feed feed' (leavesAll branches) n ∧ skeletonsAll branches = ss
    ∧ Reads part branches feed'.rest

/-- The range of a node that begins with the first leaf read. -/
theorem Consumed.range_eq {feed feed' : Feed} {first : Leaf} {leaves : List Leaf} {n : Nat}
    (h : Consumed feed feed' (first :: leaves) n) :
    (⟨first.id, (feed'.last?.getD first).id⟩ : TokenRange) = .ofLeaves (first :: leaves) :=
  h.bounds.eq_ofLeaves

/-- A directive that is read is one of the grammar. -/
theorem directive_makes {feed feed' : Feed} {s : Skeleton} (h : directive feed = .ok s feed') :
    ∃ leaves n, Consumed feed feed' leaves n ∧ Directive leaves feed'.rest
      ∧ (Branch.node .directive (leaves.map .leaf)).skeletons = [s] := by
  obtain ⟨hash, body, hc, hkind, hbody, hbehind, rfl⟩ := directive_inv h
  refine ⟨hash :: body, 1, hc, ⟨hash, body, rfl, hkind, hbody, hbehind⟩, ?_⟩
  rw [Branch.skeletons_node, Branch.leavesAll_map_leaf, Branch.skeletonsAll_map_leaf,
    hc.range_eq]
  rfl

/-- A node over one token. -/
theorem skeletons_single (kind : NodeKind) (leaf : Leaf) :
    (Branch.node kind [.leaf leaf]).skeletons = [.leaf kind (.single leaf.id)] := by
  simp [TokenRange.ofLeaves, Skeleton.leaf, TokenRange.single]

/-- Declarators keep the delimiters to be closed while inside of a group. -/
theorem nests_declaratorsFrom (opened : Nat) (initialiser : Bool) :
    Nests (fun pending => declaratorsFrom opened pending initialiser)
      fun result => ∃ names feed', result = .ok names feed' where
  finish := by
    rintro kind pending last? ⟨names, feed', h⟩
    unfold declaratorsFrom at h
    exact failAtEnd_ne_ok h
  step := by
    intro kind pending last? leaf rest kind' pending' h
    conv_lhs => unfold declaratorsFrom
    simp [h]
  stuck := by
    rintro kind pending last? leaf rest fault h ⟨names, feed', hok⟩
    unfold declaratorsFrom at hok
    simp only [List.isEmpty_cons, Bool.false_and, Bool.false_eq_true, if_false, Bool.not_false,
      Bool.true_or, if_true, h] at hok
    exact failHere_ne_ok hok

/-- A delimiter that closes the outermost group of a declarator. -/
theorem declaratorsFrom_closer {opened : Nat} {initialiser : Bool} {last? : Option Leaf}
    {closer : Leaf} {rest : List Leaf} (h : closer.kind.isCloser = true) :
    declaratorsFrom opened [closer.kind] initialiser last? (closer :: rest)
      = declaratorsFrom opened [] initialiser (some closer) rest := by
  conv_lhs => unfold declaratorsFrom
  simp [nest_closer h]

/-- A delimiter that opens a group of a declarator. -/
theorem declaratorsFrom_opener {opened : Nat} {initialiser : Bool} {last? : Option Leaf}
    {opener : Leaf} {kind : TokenKind} {rest : List Leaf} (h : opener.kind.closer? = some kind) :
    declaratorsFrom opened [] initialiser last? (opener :: rest)
      = declaratorsFrom opened [kind] initialiser (some opener) rest := by
  have ho := (closer?_isCloser h).1
  have hc : opener.kind.isCloser = false := by
    cases hc : opener.kind.isCloser with
    | false => rfl
    | true => exact (not_opener_closer ho hc).elim
  conv_lhs => unfold declaratorsFrom
  simp [nest_opener h, ho, hc]

/-- The leaves taken between two places are declarators of the grammar, with the names found. -/
def DeclaratorsMade (feed feed' : Feed) (initialiser : Bool) (names : List Skeleton) : Prop :=
  ∃ branches n, Consumed feed feed' (leavesAll branches) n
    ∧ skeletonsAll branches = names ∧ Declarators initialiser branches

namespace DeclaratorsMade

variable {opened : Nat} {initialiser initialiser' : Bool} {last? : Option Leaf} {leaf : Leaf}
  {rest : List Leaf} {feed' : Feed} {names : List Skeleton}

/-- A leaf that is no delimiter goes before them. -/
theorem cons_leaf
    (h : DeclaratorsMade { rest, last? := some leaf, opened } feed' initialiser' names)
    (hmake : ∀ more, Declarators initialiser' more →
      Declarators initialiser (.leaf leaf :: more)) :
    DeclaratorsMade { rest := leaf :: rest, last?, opened } feed' initialiser names := by
  obtain ⟨branches, n, hc, hs, hd⟩ := h
  refine ⟨.leaf leaf :: branches, 0 + n, ?_, by simpa using hs, hmake _ hd⟩
  rw [Branch.leavesAll_cons, Branch.leaves_leaf]
  exact (consumed_one leaf rest last? opened 0).trans hc

/-- A name becomes a node before them. -/
theorem cons_name
    (h : DeclaratorsMade { rest, last? := some leaf, opened := opened + 1 } feed' false names)
    (hk : leaf.kind = .symbol) :
    DeclaratorsMade { rest := leaf :: rest, last?, opened } feed' false
      (.leaf .structName (.single leaf.id) :: names) := by
  obtain ⟨branches, n, hc, hs, hd⟩ := h
  refine ⟨.node .structName [.leaf leaf] :: branches, 1 + n, ?_, ?_, .name hk hd⟩
  · simpa using (consumed_one leaf rest last? opened 1).trans hc
  · rw [Branch.skeletonsAll_cons, skeletons_single, hs]
    rfl

/-- A group goes before them as a whole. -/
theorem cons_group {inner more : List Leaf} {closer : Leaf}
    (h : DeclaratorsMade { rest := more, last? := some closer, opened } feed' initialiser names)
    (hcloser : leaf.kind.closer? = some closer.kind) (hinner : Nested inner) :
    DeclaratorsMade { rest := leaf :: (inner ++ closer :: more), last?, opened } feed' initialiser
      names := by
  obtain ⟨branches, n, hc, hs, hd⟩ := h
  refine ⟨(leaf :: (inner ++ [closer])).map .leaf ++ branches, n, ?_, by simpa using hs,
    .group ⟨leaf, inner, closer, rfl, hcloser, hinner⟩ hd⟩
  have hgroup : Consumed { rest := leaf :: (inner ++ closer :: more), last?, opened }
      { rest := more, last? := some closer, opened } (leaf :: (inner ++ [closer])) 0 :=
    ⟨by simp, by simp [List.getLast?_cons], rfl⟩
  simpa using hgroup.trans hc

end DeclaratorsMade

/-- Declarators that are read are those of the grammar, once the groups that are open are
    closed. -/
theorem declaratorsFrom_makes {opened : Nat} {initialiser : Bool} {last? : Option Leaf}
    {rest : List Leaf} {feed' : Feed} {names : List Skeleton}
    (h : declaratorsFrom opened [] initialiser last? rest = .ok names feed') :
    DeclaratorsMade { rest, last?, opened } feed' initialiser names := by
  induction hlen : rest.length using Nat.strongRecOn
    generalizing opened initialiser last? rest names with
  | _ n ih =>
    subst hlen
    cases rest with
    | nil =>
      unfold declaratorsFrom at h
      exact absurd h failAtEnd_ne_ok
    | cons leaf rest =>
      cases hcloser : leaf.kind.closer? with
      | some kind =>
        -- a group is read up to its closing delimiter, and the others follow
        rw [declaratorsFrom_opener hcloser] at h
        obtain ⟨inner, closer, more, rfl, hinner, hc, rfl, -⟩ :=
          (nests_declaratorsFrom opened initialiser).closes ⟨names, feed', h⟩
        have hpass := (nests_declaratorsFrom opened initialiser).pass hinner closer.kind []
          (some leaf) (closer :: more)
        rw [hpass, declaratorsFrom_closer hc] at h
        have hlt : more.length < (leaf :: (inner ++ closer :: more)).length := by
          simp only [List.length_cons, List.length_append]
          omega
        exact (ih _ hlt h rfl).cons_group hcloser hinner
      | none =>
        have hlt : rest.length < (leaf :: rest).length := Nat.lt_succ_self _
        have ho := closer?_eq_none.mp hcloser
        unfold declaratorsFrom at h
        simp only [List.isEmpty_nil, Bool.true_and, Bool.not_true, Bool.false_or, ho,
          Bool.false_eq_true, if_false] at h
        split at h
        · exact absurd h failHere_ne_ok
        · rename_i hc
          split at h
          · rename_i hk
            obtain ⟨rfl, rfl⟩ := EStateM.Result.ok.inj h
            exact ⟨[.leaf leaf], 0, by simpa using consumed_one leaf rest last? opened 0, by simp,
              .finish hk⟩
          · rename_i hk
            split at h
            · rename_i hinit
              exact (ih _ hlt h rfl).cons_leaf fun _ hd => by rw [hinit]; exact .word hk hd
            · rename_i hinit
              have hinit : initialiser = false := by simpa using hinit
              subst hinit
              split at h
              · rename_i names' feed'' hrest
                obtain ⟨rfl, rfl⟩ := EStateM.Result.ok.inj h
                exact (ih _ hlt hrest rfl).cons_name hk
              · simp at h
          · rename_i hk
            exact (ih _ hlt h rfl).cons_leaf fun _ hd => .assign hk hd
          · rename_i hk
            exact (ih _ hlt h rfl).cons_leaf fun _ hd => .comma hk hd
          · rename_i hsemi hsymbol hassign hcomma
            refine (ih _ hlt h rfl).cons_leaf fun _ hd => .other ?_ hsymbol hcomma hd
            unfold TokenKind.isPlain TokenKind.isDelimiter
            rw [ho, Bool.eq_false_iff.mpr hc]
            simpa using ⟨hsemi, hassign⟩

/-- Qualifiers keep the delimiters to be closed while inside of a group. -/
theorem nests_qualifiersFrom (opened : Nat) (terminator : TokenId) :
    Nests (qualifiersFrom opened terminator) fun result => ∃ feed', result = .ok () feed' where
  finish := by
    rintro kind pending last? ⟨feed', h⟩
    unfold qualifiersFrom at h
    exact failAtEnd_ne_ok h
  step := by
    intro kind pending last? leaf rest kind' pending' h
    conv_lhs => unfold qualifiersFrom
    simp [h]
  stuck := by
    rintro kind pending last? leaf rest fault h ⟨feed', hok⟩
    unfold qualifiersFrom at hok
    simp only [List.isEmpty_cons, Bool.false_and, Bool.false_eq_true, if_false, h] at hok
    exact failHere_ne_ok hok

/-- A closer that is waited for is passed over. -/
theorem qualifiersFrom_closer {opened : Nat} {terminator : TokenId} {last? : Option Leaf}
    {closer : Leaf} {rest : List Leaf} (h : closer.kind.isCloser = true) :
    qualifiersFrom opened terminator [closer.kind] last? (closer :: rest)
      = qualifiersFrom opened terminator [] (some closer) rest := by
  conv_lhs => unfold qualifiersFrom
  simp [nest_closer h]

/-- An opener is passed over, and its closer waited for. -/
theorem qualifiersFrom_opener {opened : Nat} {terminator : TokenId} {last? : Option Leaf}
    {opener : Leaf} {kind : TokenKind} {rest : List Leaf} (hne : opener.id ≠ terminator)
    (hopener : opener.kind = .lparen ∨ opener.kind = .lbracket)
    (h : opener.kind.closer? = some kind) :
    qualifiersFrom opened terminator [] last? (opener :: rest)
      = qualifiersFrom opened terminator [kind] (some opener) rest := by
  conv_lhs => unfold qualifiersFrom
  dsimp only
  rw [if_neg (by simp [hne]), if_neg (by rcases hopener with hk | hk <;> simp [hk]),
    nest_opener h]

/-- A word behind a parameter list is passed over. -/
theorem qualifiersFrom_word {opened : Nat} {terminator : TokenId} {last? : Option Leaf}
    {leaf : Leaf} {rest : List Leaf} (hne : leaf.id ≠ terminator) (hk : leaf.kind = .symbol) :
    qualifiersFrom opened terminator [] last? (leaf :: rest)
      = qualifiersFrom opened terminator [] (some leaf) rest := by
  conv_lhs => unfold qualifiersFrom
  simp [hne, hk]

/-- At the end of the function head the reader stops. -/
theorem qualifiersFrom_end {opened : Nat} {last? : Option Leaf} {term : Leaf}
    {rest : List Leaf} :
    qualifiersFrom opened term.id [] last? (term :: rest)
      = .ok () { rest := term :: rest, last?, opened } := by
  unfold qualifiersFrom
  simp

/-- Parentheses and brackets have closers. -/
theorem closer?_of_bracket {kind : TokenKind} (h : kind = .lparen ∨ kind = .lbracket) :
    ∃ closer, kind.closer? = some closer := by
  rcases h with rfl | rfl
  · exact ⟨_, rfl⟩
  · exact ⟨_, rfl⟩

/-- **Qualifiers** that were passed by looking ahead are nested when they are read. -/
theorem qualifiersFrom_makes {opened : Nat} {term : Leaf} {last? : Option Leaf}
    {quals rest : List Leaf} {feed' : Feed} (hquals : Quals (fun _ _ => True) quals)
    (hids : ∀ leaf ∈ quals, leaf.id ≠ term.id)
    (h : qualifiersFrom opened term.id [] last? (quals ++ term :: rest) = .ok () feed') :
    Quals (fun opener closer => opener.closer? = some closer) quals
      ∧ Consumed { rest := quals ++ term :: rest, last?, opened } feed' quals 0
      ∧ feed'.rest = term :: rest := by
  induction hquals generalizing last? with
  | nil =>
    rw [List.nil_append, qualifiersFrom_end] at h
    obtain ⟨-, rfl⟩ := EStateM.Result.ok.inj h
    exact ⟨.nil, Consumed.refl _, rfl⟩
  | @word leaf more hk _ ih =>
    rw [List.cons_append, qualifiersFrom_word (hids leaf List.mem_cons_self) hk] at h
    obtain ⟨hq, hc, hrest⟩ := ih (fun x hx => hids x (List.mem_cons_of_mem _ hx)) h
    refine ⟨.word hk hq, ?_, hrest⟩
    simpa using (consumed_one leaf (more ++ term :: rest) last? opened 0).trans hc
  | @group opener closer inner more hk hc _ hinner _ ih =>
    obtain ⟨kind, hkind⟩ := closer?_of_bracket hk
    rw [List.cons_append, List.append_assoc, List.cons_append,
      qualifiersFrom_opener (hids opener List.mem_cons_self) hk hkind] at h
    obtain ⟨inner', closer', more', heq, hinner', hc', rfl, -⟩ :=
      (nests_qualifiersFrom opened term.id).closes ⟨feed', h⟩
    -- the reader closes the group where the grammar does
    obtain ⟨rfl, rfl, rfl⟩ := Paired.unique hinner hinner'.level hc hc' heq
    rw [(nests_qualifiersFrom opened term.id).pass hinner', qualifiersFrom_closer hc] at h
    obtain ⟨hq, hcons, hrest⟩ := ih (fun x hx => hids x (by simp [hx])) h
    refine ⟨.group hk hc hkind hinner' hq, ?_, hrest⟩
    have hgroup : Consumed
        { rest := opener :: (inner ++ closer :: (more ++ term :: rest)), last?, opened }
        { rest := more ++ term :: rest, last? := some closer, opened }
        (opener :: (inner ++ [closer])) 0 :=
      ⟨by simp, by simp [List.getLast?_cons], rfl⟩
    simpa using hgroup.trans hcons

/-! ## §2. Blocks and statements -/

/-- A block of the grammar is braces around a body. -/
theorem Reads.block_inv {branches : List Branch} {rest : List Leaf}
    (h : Reads .block branches rest) :
    ∃ opener parts closer, branches
        = [.node .statementBlock (.leaf opener :: (parts ++ [.leaf closer]))]
      ∧ opener.kind = .lbrace ∧ closer.kind = .rbrace ∧ Reads .body parts (closer :: rest) := by
  cases h with
  | block ho hc hbody => exact ⟨_, _, _, rfl, ho, hc, hbody⟩

/-- One block was read. -/
theorem Makes.block {feed feed' : Feed} {s : Skeleton} (h : Makes .block feed feed' [s]) :
    ∃ block n, Consumed feed feed' block.leaves n ∧ block.skeletons = [s]
      ∧ block.leaves ≠ [] ∧ Reads .block [block] feed'.rest := by
  obtain ⟨branches, n, hc, hs, hreads⟩ := h
  obtain ⟨opener, parts, closer, rfl, -⟩ := hreads.block_inv
  exact ⟨_, n, by simpa using hc, by simpa using hs, by simp, hreads⟩

/-- The rest of a statement takes a leaf unless the statement is over. -/
theorem Reads.tail_ne_nil {goesOn : Bool} {branches : List Branch} {rest : List Leaf}
    (h : Reads (.tail goesOn) branches rest) (hnil : leavesAll branches = []) :
    ∀ leaf ∈ rest.head?, leaf.kind = .rbrace := by
  cases h with
  | tailEnd hend => exact hend
  | tailSemicolon => simp at hnil
  | tailBlock hblock =>
    obtain ⟨opener, parts, closer, heq, -⟩ := hblock.block_inv
    obtain ⟨rfl, -⟩ := List.cons.inj heq
    simp at hnil
  | tailBlockOn hblock _ =>
    obtain ⟨opener, parts, closer, heq, -⟩ := hblock.block_inv
    obtain ⟨rfl, -⟩ := List.cons.inj heq
    simp at hnil
  | tailGroup hgroup =>
    obtain ⟨opener, inner, closer, rfl, -⟩ := hgroup
    simp at hnil
  | tailAssign => simp at hnil
  | tailWord => simp at hnil

/-- What is read of nested constructs at one depth. -/
structure NestedMakes (depth : Nat) : Prop where
  block : ∀ {feed feed' s}, block depth feed = .ok s feed' → Makes .block feed feed' [s]
  blockItems : ∀ {feed feed' ss}, blockItems depth feed = .ok ss feed' →
    Makes .body feed feed' ss
  statement : ∀ {feed feed' s first rest}, feed.rest = first :: rest → first.kind ≠ .rbrace →
    statement depth feed = .ok s feed' →
    ∃ parts n, Consumed feed feed' (leavesAll parts) n ∧ (leavesAll parts).head? = some first
      ∧ (Branch.node .statement parts).skeletons = [s]
      ∧ Reads (.tail (isAggregate first)) parts feed'.rest
  statementTail : ∀ {goesOn feed feed' ss}, statementTail depth goesOn feed = .ok ss feed' →
    Makes (.tail goesOn) feed feed' ss

/-- Without depth nothing is read. -/
theorem nestedMakes_zero : NestedMakes 0 where
  block h := absurd h block_zero_ne_ok
  blockItems h := absurd h blockItems_zero_ne_ok
  statement _ _ h := absurd h statement_zero_ne_ok
  statementTail h := absurd h statementTail_zero_ne_ok

/-- A block that is read is one of the grammar. -/
theorem block_makes {depth : Nat} (hd : NestedMakes depth) {feed feed' : Feed} {s : Skeleton}
    (h : block (depth + 1) feed = .ok s feed') : Makes .block feed feed' [s] := by
  obtain ⟨opener, closer, children, mid, mid', hopener, hcloser, hopen, hchildren, hclose, rfl⟩ :=
    block_inv h
  obtain ⟨parts, n, hc, rfl, hbody⟩ := hd.blockItems hchildren
  have hall : Consumed feed feed' (opener :: (leavesAll parts ++ [closer])) (1 + n + 0) :=
    (hopen.trans hc).trans hclose
  rw [show mid'.rest = closer :: feed'.rest from hclose.rest] at hbody
  refine ⟨_, _, hall.congr (by simp) rfl, ?_, .block hopener hcloser hbody⟩
  simp [hall.range_eq]

/-- A statement that is read is one of the grammar, and begins with the leaf ahead. -/
theorem statement_makes {depth : Nat} (hd : NestedMakes depth) {feed feed' : Feed}
    {s : Skeleton} {first : Leaf} {rest : List Leaf} (hrest : feed.rest = first :: rest)
    (hkind : first.kind ≠ .rbrace) (h : statement (depth + 1) feed = .ok s feed') :
    ∃ parts n, Consumed feed feed' (leavesAll parts) n ∧ (leavesAll parts).head? = some first
      ∧ (Branch.node .statement parts).skeletons = [s]
      ∧ Reads (.tail (isAggregate first)) parts feed'.rest := by
  obtain ⟨first', rest', mid, blocks, hrest', hopen, hblocks, rfl⟩ := statement_inv h
  obtain ⟨rfl, rfl⟩ := List.cons.inj (hrest.symm.trans hrest')
  obtain ⟨parts, n, hc, rfl, htail⟩ := hd.statementTail hblocks
  have hall := hopen.trans hc
  rw [List.nil_append] at hall
  -- the statement takes the leaf ahead, which does not end it
  obtain ⟨leaf, leaves, hleaves⟩ : ∃ leaf leaves, leavesAll parts = leaf :: leaves := by
    refine List.exists_cons_of_ne_nil fun hnil => hkind ?_
    refine htail.tail_ne_nil hnil first ?_
    have hsplit := hall.rest
    rw [hnil, List.nil_append, hrest] at hsplit
    rw [← hsplit]
    rfl
  have hhead : leaf = first := by
    have hsplit := hall.rest
    rw [hleaves, hrest] at hsplit
    exact (List.cons.inj hsplit).1.symm
  subst hhead
  refine ⟨parts, _, hall, by rw [hleaves]; rfl, ?_, htail⟩
  rw [hleaves] at hall
  rw [Branch.skeletons_node, hleaves, hall.range_eq]

/-- One construct in a block is as the grammar says, given what is behind it. -/
theorem BodyRead.makes {depth : Nat} (hd : NestedMakes depth) {first : Leaf} {rest : List Leaf}
    {feed mid : Feed} {s : Skeleton} (hrest : feed.rest = first :: rest)
    (h : BodyRead depth first feed s mid) :
    ∃ branch n, Consumed feed mid branch.leaves n ∧ branch.skeletons = [s]
      ∧ ∀ more behind, Reads .body more behind → mid.rest = leavesAll more ++ behind →
        Reads .body (branch :: more) behind := by
  cases h with
  | directive hs =>
    obtain ⟨leaves, n, hc, hdir, hskel⟩ := directive_makes hs
    exact ⟨_, n, by simpa using hc, hskel, fun _ _ hmore hmid =>
      .bodyDirective (hmid ▸ hdir) hmore⟩
  | block hs =>
    obtain ⟨block, n, hc, hskel, -, hblock⟩ := (hd.block hs).block
    exact ⟨block, n, hc, hskel, fun _ _ hmore hmid => .bodyBlock (hmid ▸ hblock) hmore⟩
  | lone hk hs =>
    obtain ⟨leaf, hc, rfl⟩ := loneToken_inv hs
    obtain ⟨rfl, -⟩ := List.cons.inj (hrest.symm.trans hc.rest)
    exact ⟨.node .token [.leaf first], 1, by simpa using hc, skeletons_single _ _,
      fun _ _ hmore _ => .bodyLone hk hmore⟩
  | statement hk hs =>
    obtain ⟨parts, n, hc, hhead, hskel, htail⟩ :=
      hd.statement hrest (fun he => hk (by simp [he])) hs
    exact ⟨_, n, by simpa using hc, hskel, fun _ _ hmore hmid =>
      .bodyStatement hhead hk (hmid ▸ htail) hmore⟩

/-- The items of a block that are read are a body of the grammar. -/
theorem blockItems_makes {depth : Nat} (hd : NestedMakes depth) {feed feed' : Feed}
    {ss : List Skeleton} (h : blockItems (depth + 1) feed = .ok ss feed') :
    Makes .body feed feed' ss := by
  rcases blockItems_inv h with ⟨closer, rest, hrest, hk, rfl, rfl⟩
    | ⟨first, rest, child, more, mid, hrest, rfl, hchild, hmore⟩
  · refine ⟨[], 0, by simpa using Consumed.refl feed', by simp, ?_⟩
    rw [hrest]
    exact .bodyEnd hk
  · obtain ⟨branch, n, hc, hskel, hmake⟩ := hchild.makes hd hrest
    obtain ⟨others, n', hc', rfl, hreads⟩ := hd.blockItems hmore
    refine ⟨branch :: others, n + n', ?_, by simp [hskel], hmake others _ hreads hc'.rest⟩
    rw [Branch.leavesAll_cons]
    exact hc.trans hc'

/-- The rest of a statement that is read is one of the grammar. -/
theorem statementTail_makes {depth : Nat} (hd : NestedMakes depth) {goesOn : Bool}
    {feed feed' : Feed} {ss : List Skeleton}
    (h : statementTail (depth + 1) goesOn feed = .ok ss feed') :
    Makes (.tail goesOn) feed feed' ss := by
  -- leaves were taken that are no block, and the statement goes on behind them
  have hgo : ∀ {mid leaves goesOn'}, Consumed feed mid leaves 0 →
      (∀ more, Reads (.tail goesOn') more feed'.rest →
        Reads (.tail goesOn) (leaves.map .leaf ++ more) feed'.rest) →
      statementTail depth goesOn' mid = .ok ss feed' → Makes (.tail goesOn) feed feed' ss := by
    intro mid leaves goesOn' hc hmake htail
    obtain ⟨more, n, hc', rfl, hmore⟩ := hd.statementTail htail
    refine ⟨leaves.map .leaf ++ more, 0 + n, ?_, by simp, hmake more hmore⟩
    rw [Branch.leavesAll_append, Branch.leavesAll_map_leaf]
    exact hc.trans hc'
  cases statementTail_inv h with
  | done hend => exact ⟨[], 0, by simpa using Consumed.refl feed, by simp, .tailEnd hend⟩
  | @semicolon _ leaf _ hk hc =>
    exact ⟨[.leaf leaf], 0, by simpa using hc, by simp, .tailSemicolon hk⟩
  | block hchild =>
    obtain ⟨block, n, hc, hskel, -, hblock⟩ := (hd.block hchild).block
    exact ⟨[block], n, by simpa using hc, by simp [hskel], .tailBlock hblock⟩
  | blockOn hchild htail =>
    obtain ⟨block, n, hc, hskel, -, hblock⟩ := (hd.block hchild).block
    obtain ⟨more, n', hc', rfl, hreads⟩ := hd.statementTail htail
    refine ⟨block :: more, n + n', ?_, by simp [hskel], .tailBlockOn ?_ hreads⟩
    · rw [Branch.leavesAll_cons]
      exact hc.trans hc'
    · rwa [← hc'.rest]
  | group hrest hk hskip htail =>
    obtain ⟨closer, hcloser⟩ := closer?_of_bracket hk
    obtain ⟨group, hg, hhead, hc⟩ := skipGroup_group hrest (closer?_isCloser hcloser).1 hskip
    exact hgo hc (fun more hmore => .tailGroup hg hhead hk hmore) htail
  | assign hk hc htail => exact hgo hc (fun more hmore => .tailAssign hk hmore) htail
  | word hplain hc htail => exact hgo hc (fun more hmore => .tailWord hplain hmore) htail

/-- **Blocks and statements** are as the grammar says, at any depth. -/
theorem nestedMakes (depth : Nat) : NestedMakes depth := by
  induction depth with
  | zero => exact nestedMakes_zero
  | succ depth ih =>
    exact ⟨block_makes ih, blockItems_makes ih, statement_makes ih, statementTail_makes ih⟩

/-! ## §3. Structs, type definitions and functions -/

/-- A struct with a body that is read is an aggregate of the grammar. -/
theorem structHead_makes {depth : Nat} {feed feed' : Feed} {first : Leaf}
    {parts : List Skeleton} (h : structHead depth feed = .ok (first, parts) feed') :
    ∃ branches leaves n, Consumed feed feed' (leavesAll branches) n
      ∧ leavesAll branches = first :: leaves ∧ skeletonsAll branches = parts
      ∧ Reads .aggregate branches feed'.rest := by
  obtain ⟨mid, body, hfirst, hblock, hhead⟩ := structHead_inv h
  obtain ⟨block, n, hc, hskel, -, hreads⟩ := ((nestedMakes depth).block hblock).block
  rcases hhead with ⟨hhead, rfl⟩ | ⟨tag, htag, hhead, rfl⟩
  · exact ⟨[.leaf first, block], block.leaves, 1 + n, (hhead.trans hc).congr (by simp) rfl,
      by simp, by simp [hskel], .struct hfirst hreads⟩
  · refine ⟨[.leaf first, .node .structTag [.leaf tag], block], tag :: block.leaves, 2 + n,
      (hhead.trans hc).congr (by simp) rfl, by simp, ?_, .structTagged hfirst htag hreads⟩
    rw [Branch.skeletonsAll_cons, Branch.skeletonsAll_cons, Branch.skeletonsAll_cons,
      skeletons_single, hskel]
    simp

/-- Declarators from their beginning. -/
theorem declarators_makes {feed feed' : Feed} {names : List Skeleton}
    (h : declarators feed = .ok names feed') : DeclaratorsMade feed feed' false names :=
  declaratorsFrom_makes h

/-- A type definition that is read is one of the grammar. -/
theorem typedefItem_makes {depth : Nat} {feed feed' : Feed} {s : Skeleton}
    (h : typedefItem depth feed = .ok s feed') : Makes .construct feed feed' [s] := by
  obtain ⟨first, mid, children, hfirst, hhead, rfl, hchildren⟩ := typedefItem_inv h
  rcases hchildren with ⟨struct, parts, mid', names, hstruct, hnames, rfl⟩ | ⟨hbody, htail⟩
  · obtain ⟨branches, leaves, n, hc, hleaves, rfl, hreads⟩ := structHead_makes hstruct
    obtain ⟨more, n', hc', rfl, hmore⟩ := declarators_makes hnames
    rw [hleaves] at hc
    have hall : Consumed feed feed' (first :: (struct :: leaves ++ leavesAll more)) (1 + n + n') :=
      (hhead.trans hc).trans hc'
    refine ⟨[.node .typedef (.leaf first :: .node .structDefn branches :: more)], _,
      hall.congr (by simp [hleaves]) rfl, ?_, .typedefStruct hfirst (by rwa [← hc'.rest]) hmore⟩
    simp [hall.range_eq, hleaves, hc.range_eq]
  · obtain ⟨parts, n, hc, rfl, hreads⟩ := (nestedMakes depth).statementTail htail
    have hall : Consumed feed feed' (first :: leavesAll parts) (1 + n) := hhead.trans hc
    refine ⟨[.node .typedef (.leaf first :: parts)], _, hall.congr (by simp) rfl, ?_,
      .typedef hfirst (by rwa [← hc.rest]) hreads⟩
    simp [hall.range_eq]

/-- The leaves before the first with the handle. -/
theorem bumpWhile_id {feed : Feed} {name rest : List Leaf} {opener : Leaf}
    (hrest : feed.rest = name ++ opener :: rest) (hids : ∀ leaf ∈ name, leaf.id ≠ opener.id) :
    Consumed feed (feed.bumpWhile (·.id != opener.id)) name 0
      ∧ (feed.bumpWhile (·.id != opener.id)).rest = opener :: rest := by
  have hname : ∀ leaf ∈ name, (leaf.id != opener.id) = true := by
    intro leaf hleaf
    simpa using hids leaf hleaf
  have htake : feed.rest.takeWhile (·.id != opener.id) = name := by
    rw [hrest, List.takeWhile_append_of_pos hname]
    simp
  have hc := consumed_bumpWhile feed (·.id != opener.id)
  rw [htake] at hc
  refine ⟨hc, ?_⟩
  have hsplit := hc.rest
  rw [hrest] at hsplit
  exact (List.append_cancel_left hsplit).symm

/-- The reader of a group takes the leaves that were passed by looking ahead. -/
theorem skipGroup_level {feed feed' : Feed} {opener closer : Leaf} {inner rest : List Leaf}
    (hrest : feed.rest = opener :: (inner ++ closer :: rest)) (ho : opener.kind.isOpener = true)
    (hinner : Level inner) (hc : closer.kind.isCloser = true)
    (h : skipGroup feed = .ok () feed') :
    opener.kind.closer? = some closer.kind ∧ Nested inner ∧ feed'.rest = rest
      ∧ feed'.last? = some closer ∧ Consumed feed feed' (opener :: (inner ++ [closer])) 0 := by
  obtain ⟨group, ⟨opener', inner', closer', rfl, hkind, hnested⟩, hhead, hcons⟩ :=
    skipGroup_group hrest ho h
  obtain rfl := Option.some.inj hhead
  have hsplit := hcons.rest
  rw [hrest, List.cons_append, List.append_assoc] at hsplit
  obtain ⟨rfl, rfl, rfl⟩ := Paired.unique hinner hnested.level hc (closer?_isCloser hkind).2
    (List.cons.inj hsplit).2
  refine ⟨hkind, hnested, rfl, ?_, hcons⟩
  rw [hcons.last]
  simp [List.getLast?_cons]

/-- A function that is read is one of the grammar: the look-ahead has found its parameter list and
    its end, and no other leaf has their handles. -/
theorem functionItem_makes {depth : Nat} {params terminator : TokenId} {body : Bool}
    {feed feed' : Feed} {s : Skeleton} (hdeclares : Declares feed.rest)
    (hshape : classify feed.rest = .function params terminator body)
    (hnodup : (feed.rest.map (·.id)).Nodup)
    (h : functionItem depth params terminator body feed = .ok s feed') :
    Makes .construct feed feed' [s] := by
  obtain ⟨name, opener, inner, closer, quals, term, rest, hrest, hproto, rfl, rfl, hterm⟩ :=
    classify_inv hshape
  -- handles tell the leaves apart
  have hids : (∀ leaf ∈ name, leaf.id ≠ opener.id) ∧ ∀ leaf ∈ quals, leaf.id ≠ term.id := by
    rw [hrest] at hnodup
    simp only [List.map_append, List.map_cons, List.nodup_append, List.nodup_cons,
      List.mem_map, List.mem_append, List.mem_cons] at hnodup
    refine ⟨fun leaf hleaf he => ?_, fun leaf hleaf he => ?_⟩
    · exact hnodup.2.2 _ ⟨leaf, hleaf, rfl⟩ _ (Or.inl rfl) he
    · exact hnodup.2.1.2.2.1.2.2.2 _ ⟨leaf, hleaf, rfl⟩ _ (Or.inl rfl) he
  obtain ⟨first, more, named, listed, opened, mid, hmore, hopen, hgroup, hopen', hquals, hend⟩ :=
    functionItem_inv h
  -- the reader stops where the look-ahead found the parameter list, and behind it
  obtain ⟨hname, hrest₁⟩ := bumpWhile_id (hopen.rest_eq.trans hrest) hids.1
  obtain ⟨hkind, hinner, hrest₂, hlast, hparams⟩ :=
    skipGroup_level hrest₁ (by rw [hproto.paren]; rfl) hproto.between hproto.closes hgroup
  have hrest₃ : opened.rest = quals ++ term :: rest := hopen'.rest_eq.trans hrest₂
  unfold qualifiers at hquals
  rw [hrest₃] at hquals
  obtain ⟨hquals', hqualsc, hrest₄⟩ := qualifiersFrom_makes hproto.behind hids.2 hquals
  rw [← hrest₃] at hqualsc
  have hproto' : Prototype (fun opener closer => opener.closer? = some closer) name opener inner
      closer quals := ⟨hproto.leads, hproto.paren, hproto.closes, hkind, hinner, hquals'⟩
  have hlist : (⟨opener.id, (listed.last?.map (·.id)).getD opener.id⟩ : TokenRange)
      = .ofLeaves (opener :: (inner ++ [closer])) := by
    rw [hlast]
    simp [TokenRange.ofLeaves, List.getLast?_cons]
  -- the name begins with the first leaf
  obtain ⟨name', rfl⟩ : ∃ name', name = first :: name' := by
    obtain ⟨leaf, name', rfl⟩ := List.exists_cons_of_ne_nil hproto.name_ne_nil
    rw [hmore] at hrest
    exact ⟨name', by rw [(List.cons.inj hrest).1]⟩
  have hhead : Consumed feed mid
      (first :: (name' ++ (opener :: (inner ++ [closer]) ++ quals))) 2 :=
    ((((hopen.trans hname).trans hparams).trans hopen').trans hqualsc).congr (by simp) rfl
  rw [hrest, ← hrest₄] at hdeclares
  rcases hend with ⟨-, child, hblock, rfl⟩ | ⟨-, semi, hsemi, hclose, rfl⟩
  · obtain ⟨block, n, hc, hskel, -, hreads⟩ := ((nestedMakes depth).block hblock).block
    have hall := hhead.trans hc
    rw [hc.rest] at hdeclares
    refine ⟨_, _, hall.congr (by simp) rfl, ?_, .definition hdeclares hproto' hreads⟩
    rw [List.cons_append] at hall
    rw [hall.range_eq, hlist]
    simp [hskel, Skeleton.leaf]
  · have hall := hhead.trans hclose
    rw [hclose.rest] at hdeclares
    refine ⟨_, _, hall.congr (by simp) rfl, ?_, .prototype hdeclares hproto' hsemi⟩
    rw [List.cons_append] at hall
    rw [hall.range_eq, hlist]
    simp [Skeleton.leaf]

/-- **A function or a statement** is as the grammar says. -/
theorem declaration_makes {depth : Nat} {feed feed' : Feed} {s : Skeleton}
    (hdeclares : Declares feed.rest) (hnodup : (feed.rest.map (·.id)).Nodup)
    (h : declaration depth feed = .ok s feed') : Makes .construct feed feed' [s] := by
  rcases declaration_inv h with ⟨params, terminator, body, hshape, hfun⟩ | ⟨hshape, hstatement⟩
  · exact functionItem_makes hdeclares hshape hnodup hfun
  · obtain ⟨first, hhead, hkind, -⟩ := id hdeclares
    obtain ⟨rest, hrest⟩ := List.head?_eq_some_iff.mp hhead
    obtain ⟨parts, n, hc, hfirst, hskel, htail⟩ :=
      (nestedMakes depth).statement hrest (fun he => hkind (by simp [he])) hstatement
    rw [hc.rest] at hdeclares hshape
    refine ⟨[.node .statement parts], n, by simpa using hc, ?_,
      .statement hfirst hdeclares hshape htail⟩
    rw [Branch.skeletonsAll_cons, hskel]
    simp

/-- A struct at file scope that is read is a construct of the grammar. -/
theorem structItem_makes {depth : Nat} {feed feed' : Feed} {s : Skeleton} {first : Leaf}
    {rest : List Leaf} (hrest : feed.rest = first :: rest) (hkind : first.kind = .struct)
    (hnodup : (feed.rest.map (·.id)).Nodup) (h : structItem depth feed = .ok s feed') :
    Makes .construct feed feed' [s] := by
  rcases structItem_inv h with hdecl | ⟨first', parts, mid, names, hstruct, hnames, rfl⟩
    | ⟨hdecl, hbody, hdeclaration⟩
  · obtain ⟨first', tag, last, hfirst, htag, hlast, hc, rfl⟩ := structDecl_inv hdecl
    refine ⟨_, _, hc.congr (by simp) rfl, ?_, .structDecl hfirst htag hlast⟩
    rw [Branch.skeletonsAll_cons, Branch.skeletons_node, Branch.skeletonsAll_cons,
      Branch.skeletonsAll_cons, skeletons_single]
    simp [hc.range_eq]
  · obtain ⟨branches, leaves, n, hc, hleaves, rfl, hreads⟩ := structHead_makes hstruct
    obtain ⟨more, n', hc', rfl, hmore⟩ := declarators_makes hnames
    have hall := hc.trans hc'
    refine ⟨[.node .structDefn (branches ++ more)], _, hall.congr (by simp) rfl, ?_,
      .structDefn (by rwa [← hc'.rest]) hmore⟩
    rw [hleaves, List.cons_append] at hall
    simp [hall.range_eq, hleaves]
  · refine declaration_makes ⟨first, by rw [hrest]; rfl, ?_, fun _ => ⟨hdecl, hbody⟩⟩ hnodup
      hdeclaration
    rw [hkind]
    decide

/-! ## §4. Files -/

/-- A construct is one branch. -/
theorem Reads.construct_inv {branches : List Branch} {rest : List Leaf}
    (h : Reads .construct branches rest) : ∃ branch, branches = [branch] := by
  cases h <;> exact ⟨_, rfl⟩

/-- A construct at file scope is one branch. -/
theorem Reads.item_inv {branches : List Branch} {rest : List Leaf}
    (h : Reads .item branches rest) : ∃ branch, branches = [branch] := by
  cases h <;> exact ⟨_, rfl⟩

/-- One construct was read, and others behind it. -/
theorem Makes.cons {feed feed₁ feed₂ : Feed} {s : Skeleton} {ss : List Skeleton}
    (h : Makes .item feed feed₁ [s])
    (hmore : ∀ {leaves n}, Consumed feed feed₁ leaves n → Makes .items feed₁ feed₂ ss) :
    Makes .items feed feed₂ (s :: ss) := by
  obtain ⟨branches, n, hc, hskel, hreads⟩ := h
  obtain ⟨branch, rfl⟩ := hreads.item_inv
  obtain ⟨more, n', hc', rfl, hitems⟩ := hmore hc
  refine ⟨branch :: more, n + n', (hc.trans hc').congr (by simp) rfl, ?_, .itemsCons ?_ hitems⟩
  · have hbranch : branch.skeletons = [s] := by simpa using hskel
    rw [Branch.skeletonsAll_cons, hbranch]
    rfl
  · rwa [← hc'.rest]

/-- What is read of constructs at file scope at one depth. -/
structure ItemsMake (depth : Nat) : Prop where
  item : ∀ {feed feed' s}, feed.rest ≠ [] → (feed.rest.map (·.id)).Nodup →
    item depth feed = .ok s feed' → Makes .item feed feed' [s]
  linkageBlock : ∀ {feed feed' s}, (feed.rest.map (·.id)).Nodup →
    atLinkageBlock feed = true → linkageBlock depth feed = .ok s feed' →
    Makes .item feed feed' [s]
  linkageItems : ∀ {feed feed' ss}, (feed.rest.map (·.id)).Nodup →
    linkageItems depth feed = .ok ss feed' → Makes .items feed feed' ss

/-- Without depth nothing is read at file scope. -/
theorem itemsMake_zero : ItemsMake 0 where
  item _ _ h := absurd h item_zero_ne_ok
  linkageBlock _ _ h := absurd h linkageBlock_zero_ne_ok
  linkageItems _ h := absurd h linkageItems_zero_ne_ok

/-- A construct at file scope that is no linkage block is as the grammar says. -/
theorem ConstructRead.makes {depth : Nat} {first : Leaf} {rest : List Leaf} {feed feed' : Feed}
    {s : Skeleton} (hrest : feed.rest = first :: rest) (hnodup : (feed.rest.map (·.id)).Nodup)
    (h : ConstructRead depth first feed feed' s) : Makes .construct feed feed' [s] := by
  cases h with
  | directive hs =>
    obtain ⟨leaves, n, hc, hdir, hskel⟩ := directive_makes hs
    refine ⟨_, n, hc.congr (by simp) rfl, ?_, .directive hdir⟩
    rw [Branch.skeletonsAll_cons, hskel]
    simp
  | typedef hs => exact typedefItem_makes hs
  | struct hk hs => exact structItem_makes hrest hk hnodup hs
  | lone hk hs =>
    obtain ⟨leaf, hc, rfl⟩ := loneToken_inv hs
    obtain ⟨rfl, -⟩ := List.cons.inj (hrest.symm.trans hc.rest)
    refine ⟨_, 1, hc.congr (by simp) rfl, ?_, .lone hk⟩
    rw [Branch.skeletonsAll_cons, skeletons_single]
    simp
  | declaration hk hs =>
    simp only [List.mem_cons, List.not_mem_nil, or_false, not_or] at hk
    refine declaration_makes ⟨first, by rw [hrest]; rfl, ?_, fun he => absurd he hk.2.2.1⟩
      hnodup hs
    simp only [List.mem_cons, List.not_mem_nil, or_false, not_or]
    exact ⟨hk.1, hk.2.1, hk.2.2.2⟩

/-- A construct at file scope that is read is one of the grammar. -/
theorem item_makes {depth : Nat} (hd : ItemsMake depth) {feed feed' : Feed} {s : Skeleton}
    (hne : feed.rest ≠ []) (hnodup : (feed.rest.map (·.id)).Nodup)
    (h : item (depth + 1) feed = .ok s feed') : Makes .item feed feed' [s] := by
  obtain ⟨first, rest, hrest⟩ := List.exists_cons_of_ne_nil hne
  rcases item_inv hrest h with ⟨hlink, hblock⟩ | ⟨hlink, hread⟩
  · exact hd.linkageBlock hnodup hlink hblock
  · obtain ⟨branches, n, hc, hskel, hreads⟩ := hread.makes hrest hnodup
    obtain ⟨branch, rfl⟩ := hreads.construct_inv
    refine ⟨[branch], n, hc, hskel, .construct ?_ hreads⟩
    have hsplit := hc.rest
    rw [Branch.leavesAll_cons, Branch.leavesAll_nil, List.append_nil] at hsplit
    rwa [← hsplit]

/-- A linkage block that is read is one of the grammar. -/
theorem linkageBlock_makes {depth : Nat} (hd : ItemsMake depth) {feed feed' : Feed}
    {s : Skeleton} (hnodup : (feed.rest.map (·.id)).Nodup) (hlink : atLinkageBlock feed = true)
    (h : linkageBlock (depth + 1) feed = .ok s feed') : Makes .item feed feed' [s] := by
  obtain ⟨first, name, opener, closer, children, mid, mid', hname, hopener, hcloser, hhead,
    hchildren, hclose, rfl⟩ := linkageBlock_inv h
  obtain ⟨parts, n, hc, rfl, hitems⟩ := hd.linkageItems (hhead.nodup hnodup) hchildren
  have hall : Consumed feed feed' (first :: (name :: opener :: leavesAll parts ++ [closer]))
      (1 + n + 0) := (hhead.trans hc).trans hclose
  have htext : first.text = "extern" := by
    unfold atLinkageBlock at hlink
    rw [hall.rest] at hlink
    simp only [List.cons_append, List.head?_cons, Option.any_some, Bool.and_eq_true,
      beq_iff_eq] at hlink
    exact hlink.1.1
  rw [show mid'.rest = closer :: feed'.rest from hclose.rest] at hitems
  refine ⟨_, _, hall.congr (by simp) rfl, ?_, .linkage htext hname hopener hcloser hitems⟩
  simp [hall.range_eq]

/-- The constructs of a linkage block that are read are those of the grammar. -/
theorem linkageItems_makes {depth : Nat} (hd : ItemsMake depth) {feed feed' : Feed}
    {ss : List Skeleton} (hnodup : (feed.rest.map (·.id)).Nodup)
    (h : linkageItems (depth + 1) feed = .ok ss feed') : Makes .items feed feed' ss := by
  rcases linkageItems_inv h with ⟨closer, rest, hrest, hk, rfl, rfl⟩
    | ⟨child, more, mid, hne, rfl, hchild, hmore⟩
  · refine ⟨[], 0, by simpa using Consumed.refl feed', by simp, .itemsEnd ?_⟩
    rw [hrest]
    simpa using hk
  · exact (hd.item hne hnodup hchild).cons fun hc => hd.linkageItems (hc.nodup hnodup) hmore

/-- **Constructs at file scope** are as the grammar says, at any depth. -/
theorem itemsMake (depth : Nat) : ItemsMake depth := by
  induction depth with
  | zero => exact itemsMake_zero
  | succ depth ih => exact ⟨item_makes ih, linkageBlock_makes ih, linkageItems_makes ih⟩

/-- A file that is read without an error is one of the grammar. -/
theorem parseFrom_makes {count : Nat} {feed : Feed} (hcount : feed.rest.length ≤ count)
    (hnodup : (feed.rest.map (·.id)).Nodup) (h : (parseFrom count feed).error? = none) :
    ∃ branches, leavesAll branches = feed.rest
      ∧ skeletonsAll branches = (parseFrom count feed).items ∧ Reads .items branches [] := by
  induction count generalizing feed with
  | zero =>
    have hnil : feed.rest = [] := List.length_eq_zero_iff.mp (Nat.le_zero.mp hcount)
    exact ⟨[], by simp [hnil], by simp [parseFrom], .itemsEnd (by simp)⟩
  | succ count ih =>
    unfold parseFrom at h ⊢
    by_cases hempty : feed.rest.isEmpty = true
    · rw [if_pos hempty]
      exact ⟨[], by simp [List.isEmpty_iff.mp hempty], by simp, .itemsEnd (by simp)⟩
    · rw [if_neg hempty] at h ⊢
      have hne : feed.rest ≠ [] := by simpa using hempty
      cases hitem : item (depthBound feed.rest.length) feed with
      | error error feed' => simp [hitem] at h
      | ok child feed' =>
        rw [hitem] at h
        obtain ⟨branches, n, hc, hskel, hreads⟩ := (itemsMake _).item hne hnodup hitem
        obtain ⟨branch, rfl⟩ := hreads.item_inv
        -- an item takes a leaf, so that the bound on the items is never met
        have hlen : feed'.rest.length ≤ count := by
          obtain ⟨leaves, hc', hcovers⟩ := (itemsOk _).item hne hnodup hitem
          have hpos := List.length_pos_iff.mpr hcovers.ne_nil
          have hsum := congrArg List.length hc'.rest
          rw [List.length_append] at hsum
          omega
        obtain ⟨more, hleaves, hmore, hitems⟩ := ih hlen (hc.nodup hnodup) h
        refine ⟨branch :: more, ?_, ?_, .itemsCons ?_ hitems⟩
        · rw [hc.rest, Branch.leavesAll_cons, hleaves]
          simp
        · have hbranch : branch.skeletons = [child] := by simpa using hskel
          rw [Branch.skeletonsAll_cons, hbranch, hmore]
          rfl
        · rwa [hleaves, List.append_nil]

/-- **A file that has an outline** is as the grammar says. -/
theorem parse_reads {leaves : List Leaf} (hnodup : (leaves.map (·.id)).Nodup)
    (h : (parse leaves).error? = none) :
    ∃ branches, leavesAll branches = leaves ∧ skeletonsAll branches = (parse leaves).items
      ∧ Reads .items branches [] :=
  @parseFrom_makes leaves.length { rest := leaves } (Nat.le_refl _) hnodup h

end KernelPrep.Outline
