/-
  KernelPrep.Proofs.Outline.Acceptance — leaves as the grammar has them are read.

  The other direction of the derivations: when the leaves ahead are those of branches that
  the grammar admits, the reader of the construct takes just these and leaves what is behind
  them.  The readers that nest call each other with a bound on the depth of calls, so each of
  them is given a depth that the number of its leaves needs.

  Main definitions:
    * `Outline.Accepts`  — a reading takes some leaves before others;
    * `Outline.Accepted` — the branches of a part are read, given enough depth.

  Main statements:
    * `Outline.accepted_block` and so on — one rule of the grammar is followed by the reader;
    * `Outline.Reads.accepted` — all that the grammar admits is read;
    * `Outline.parse_iff`      — a file has an outline if and only if the grammar admits it.
-/
import KernelPrep.Proofs.Outline.Branching

namespace KernelPrep.Outline

open Branch (leavesAll)
open Step (bind_of_ok bind_get)

/-! ## §1. Readings that take leaves -/

/-- The reading goes through and takes the leaves, whatever was read before. -/
def Accepts {α : Type} (reading : Reading α) (leaves rest : List Leaf) : Prop :=
  ∀ feed : Feed, feed.rest = leaves ++ rest → ∃ a feed', reading feed = .ok a feed'
    ∧ feed'.rest = rest

namespace Accepts

variable {α β : Type} {reading : Reading α} {next : α → Reading β}
  {leaves leaves' rest : List Leaf} {leaf : Leaf}

/-- A reading that only returns a value takes nothing. -/
theorem pure (a : α) (rest : List Leaf) : Accepts (Pure.pure a : Reading α) [] rest :=
  fun feed hfeed => ⟨a, feed, rfl, hfeed⟩

/-- One reading after the other. -/
theorem bind (h : Accepts reading leaves (leaves' ++ rest))
    (hnext : ∀ a, Accepts (next a) leaves' rest) :
    Accepts (reading >>= next) (leaves ++ leaves') rest := by
  intro feed hfeed
  obtain ⟨a, mid, hread, hmid⟩ := h feed (by rw [hfeed, List.append_assoc])
  obtain ⟨b, last, hlast, hrest⟩ := hnext a mid hmid
  exact ⟨b, last, by rw [bind_of_ok hread]; exact hlast, hrest⟩

/-- A reading that takes one leaf comes first. -/
theorem cons (h : Accepts reading [leaf] (leaves ++ rest))
    (hnext : ∀ a, Accepts (next a) leaves rest) :
    Accepts (reading >>= next) (leaf :: leaves) rest :=
  bind h hnext

/-- A reading that takes nothing comes first. -/
theorem after (h : Accepts reading [] (leaves ++ rest))
    (hnext : ∀ a, Accepts (next a) leaves rest) : Accepts (reading >>= next) leaves rest :=
  bind h hnext

/-- The last reading takes nothing. -/
theorem before (h : Accepts reading leaves rest) (hnext : ∀ a, Accepts (next a) [] rest) :
    Accepts (reading >>= next) leaves rest := by
  have hall : Accepts (reading >>= next) (leaves ++ []) rest := bind h hnext
  rwa [List.append_nil] at hall

/-- Looking at the next kind takes nothing. -/
theorem peek {next : Option TokenKind → Reading β}
    (h : Accepts (next ((leaves ++ rest).head?.map (·.kind))) leaves rest) :
    Accepts (peekKind? >>= next) leaves rest := by
  intro feed hfeed
  have hkind : feed.kindAt? 0 = (leaves ++ rest).head?.map (·.kind) := by
    unfold Feed.kindAt?
    rw [hfeed, List.head?_eq_getElem?]
  have hpeek : peekKind? feed = .ok ((leaves ++ rest).head?.map (·.kind)) feed := by
    unfold peekKind?
    rw [hkind]
  rw [bind_of_ok hpeek]
  exact h feed hfeed

/-- Looking at what is ahead takes nothing, and what is seen is the leaves and the rest. -/
theorem read {next : Feed → Reading β}
    (h : ∀ feed : Feed, feed.rest = leaves ++ rest → Accepts (next feed) leaves rest) :
    Accepts (get >>= next) leaves rest := by
  intro feed hfeed
  rw [bind_get]
  exact h feed hfeed feed hfeed

/-- The first leaf that a reading asks for is the one ahead. -/
theorem first {expected : TokenKind} {next : Leaf → Reading β}
    (h : Accepts (next leaf) (leaf :: leaves) rest) :
    Accepts (firstLeaf expected >>= next) (leaf :: leaves) rest := by
  intro feed hfeed
  have hfirst : firstLeaf expected feed = .ok leaf feed := by
    unfold firstLeaf
    rw [hfeed]
    rfl
  rw [bind_of_ok hfirst]
  exact h feed hfeed

/-- An expected leaf is taken. -/
theorem expect {expected : TokenKind} (h : leaf.kind = expected) (rest : List Leaf) :
    Accepts (Outline.expect expected) [leaf] rest := by
  intro feed hfeed
  refine ⟨leaf, feed.bump, ?_, ?_⟩
  · unfold Outline.expect
    rw [hfeed]
    exact if_pos h
  · unfold Feed.bump
    rw [hfeed]
    rfl

/-- Any leaf is taken when it is not looked at. -/
theorem bump (leaf : Leaf) (rest : List Leaf) : Accepts Outline.bump [leaf] rest := by
  intro feed hfeed
  refine ⟨(), feed.bump, rfl, ?_⟩
  unfold Feed.bump
  rw [hfeed]
  rfl

/-- Opening a node takes nothing. -/
theorem openNode (rest : List Leaf) : Accepts Outline.openNode [] rest :=
  fun feed hfeed => ⟨(), { feed with opened := feed.opened + 1 }, rfl, hfeed⟩

/-- Closing a range takes nothing. -/
theorem rangeFrom (first : Leaf) (rest : List Leaf) : Accepts (Outline.rangeFrom first) [] rest :=
  fun feed hfeed => ⟨_, feed, rfl, hfeed⟩

/-- Leaves are taken as long as they pass the test: all of them, if the rest begins with one that
    does not. -/
theorem bumpWhile {p : Leaf → Bool} (h : ∀ leaf ∈ leaves, p leaf = true)
    (hrest : ∀ leaf ∈ rest.head?, p leaf = false) :
    Accepts (modify fun feed => feed.bumpWhile p) leaves rest := by
  intro feed hfeed
  refine ⟨(), feed.bumpWhile p, rfl, ?_⟩
  unfold Feed.bumpWhile
  rw [hfeed, List.dropWhile_append_of_pos h]
  cases rest with
  | nil => rfl
  | cons leaf rest => rw [List.dropWhile_cons_of_neg (by simp [hrest leaf rfl])]

/-- A balanced group is skipped as a whole. -/
theorem skipGroup (h : Group leaves) (rest : List Leaf) :
    Accepts Outline.skipGroup leaves rest := by
  intro feed hfeed
  obtain ⟨feed', hskip, hconsumed⟩ := skipGroup_of_group h hfeed
  refine ⟨(), feed', hskip, ?_⟩
  exact List.append_cancel_left (hconsumed.rest.symm.trans hfeed)

end Accepts

/-! ## §2. Constructs without nested ones -/

section Simple

variable {leaf : Leaf} {leaves rest : List Leaf}

/-- A directive is read up to where the grammar ends it. -/
theorem directive_accepts (h : Directive leaves rest) : Accepts directive leaves rest := by
  obtain ⟨hash, body, rfl, hkind, hbody, hrest⟩ := h
  unfold directive
  refine .cons (.expect hkind _) fun first => ?_
  refine .before (.bumpWhile (fun leaf hleaf => by simp [hbody leaf hleaf])
    fun leaf hleaf => by simp [hrest leaf hleaf]) fun _ => ?_
  exact .after (.openNode _) fun _ => .after (.rangeFrom _ _) fun _ => .pure _ _

/-- A leaf on its own is read whatever it is. -/
theorem loneToken_accepts (leaf : Leaf) (rest : List Leaf) : Accepts loneToken [leaf] rest := by
  unfold loneToken
  refine .first (.before (.bump leaf rest) fun _ => ?_)
  exact .after (.openNode _) fun _ => .pure _ _

/-- A leaf of the expected kind becomes a node of its own. -/
theorem tokenNode_accepts {kind : NodeKind} {expected : TokenKind} (h : leaf.kind = expected)
    (rest : List Leaf) : Accepts (tokenNode kind expected) [leaf] rest := by
  unfold tokenNode
  exact .before (.expect h rest) fun _ => .after (.openNode _) fun _ => .pure _ _

/-- A struct that is only declared: its word, its tag and the `;`. -/
theorem structDecl_accepts {first tag last : Leaf} (hfirst : first.kind = .struct)
    (htag : tag.kind = .symbol) (hlast : last.kind = .semicolon) (rest : List Leaf) :
    Accepts structDecl [first, tag, last] rest := by
  unfold structDecl
  refine .cons (.expect hfirst _) fun _ => .after (.openNode _) fun _ => ?_
  refine .cons (tokenNode_accepts htag _) fun _ => ?_
  exact .before (.expect hlast _) fun _ => .after (.rangeFrom _ _) fun _ => .pure _ _

/-- Declarators are read up to their `;`, whatever names were found before and however deep the
    groups are nested that were opened. -/
theorem declaratorsFrom_accepts {initialiser : Bool} {branches : List Branch}
    (h : Declarators initialiser branches) (opened : Nat) (last? : Option Leaf)
    (rest : List Leaf) :
    ∃ names feed', declaratorsFrom opened [] initialiser last? (leavesAll branches ++ rest)
      = .ok names feed' ∧ feed'.rest = rest := by
  -- a leaf that is no delimiter is passed over
  have hplain : ∀ {initialiser initialiser' : Bool} {leaf : Leaf} {more : List Branch},
      (∀ (opened : Nat) (last? : Option Leaf) (rest : List Leaf), ∃ names feed',
        declaratorsFrom opened [] initialiser' last? (leavesAll more ++ rest)
          = .ok names feed' ∧ feed'.rest = rest) →
      (∀ (opened : Nat) (last? : Option Leaf) (rest : List Leaf),
        declaratorsFrom opened [] initialiser last? (leaf :: rest)
          = declaratorsFrom opened [] initialiser' (some leaf) rest) →
      ∀ (opened : Nat) (last? : Option Leaf) (rest : List Leaf), ∃ names feed',
        declaratorsFrom opened [] initialiser last? (leavesAll (.leaf leaf :: more) ++ rest)
          = .ok names feed' ∧ feed'.rest = rest := by
    intro initialiser initialiser' leaf more ih hstep opened last? rest
    simp only [Branch.leavesAll_cons, Branch.leaves_leaf, List.cons_append, List.nil_append]
    rw [hstep]
    exact ih opened (some leaf) rest
  induction h generalizing opened last? rest with
  | @finish initialiser leaf hk =>
    refine ⟨[], { rest, last? := some leaf, opened }, ?_, rfl⟩
    simp only [Branch.leavesAll_cons, Branch.leaves_leaf, Branch.leavesAll_nil, List.cons_append,
      List.nil_append]
    unfold declaratorsFrom
    simp [hk, TokenKind.isCloser, TokenKind.isOpener]
  | @group initialiser group more hgroup _ ih =>
    obtain ⟨opener, inner, closer, rfl, hcloser, hinner⟩ := hgroup
    simp only [Branch.leavesAll_append, Branch.leavesAll_map_leaf, List.cons_append,
      List.append_assoc, List.nil_append]
    rw [declaratorsFrom_opener hcloser]
    have hpass := (nests_declaratorsFrom opened initialiser).pass hinner closer.kind []
      (some opener) (closer :: (leavesAll more ++ rest))
    rw [hpass, declaratorsFrom_closer (closer?_isCloser hcloser).2]
    exact ih opened (some closer) rest
  | @name leaf more hk _ ih =>
    obtain ⟨names, feed', hok, hrest⟩ := ih (opened + 1) (some leaf) rest
    refine ⟨.leaf .structName (.single leaf.id) :: names, feed', ?_, hrest⟩
    simp only [Branch.leavesAll_cons, Branch.leaves_node, Branch.leaves_leaf, Branch.leavesAll_nil,
      List.cons_append, List.nil_append, List.append_nil]
    unfold declaratorsFrom
    simp [hk, TokenKind.isCloser, TokenKind.isOpener, hok]
  | word hk _ ih =>
    refine hplain ih (fun opened last? rest => ?_) opened last? rest
    conv_lhs => unfold declaratorsFrom
    simp [hk, TokenKind.isCloser, TokenKind.isOpener]
  | assign hk _ ih =>
    refine hplain ih (fun opened last? rest => ?_) opened last? rest
    conv_lhs => unfold declaratorsFrom
    simp [hk, TokenKind.isCloser, TokenKind.isOpener]
  | comma hk _ ih =>
    refine hplain ih (fun opened last? rest => ?_) opened last? rest
    conv_lhs => unfold declaratorsFrom
    simp [hk, TokenKind.isCloser, TokenKind.isOpener]
  | @other initialiser leaf more hk hsymbol hcomma _ ih =>
    refine hplain ih (fun opened last? rest => ?_) opened last? rest
    have hdelimiter := TokenKind.isDelimiter_of_plain hk
    unfold TokenKind.isPlain at hk
    simp only [Bool.and_eq_true, bne_iff_ne, ne_eq] at hk
    conv_lhs => unfold declaratorsFrom
    simp only [List.isEmpty_nil, Bool.true_and, isCloser_of_plain hdelimiter, Bool.false_eq_true,
      if_false, Bool.not_true, Bool.false_or, isOpener_of_plain hdelimiter]
    split
    · exact absurd ‹_› hk.1.2
    · exact absurd ‹_› hsymbol
    · exact absurd ‹_› hk.2
    · exact absurd ‹_› hcomma
    · rfl

/-- The declarators behind a type, from their beginning. -/
theorem declarators_accepts {branches : List Branch} (h : Declarators false branches)
    (rest : List Leaf) : Accepts declarators (leavesAll branches) rest := by
  intro feed hfeed
  unfold declarators
  rw [hfeed]
  exact declaratorsFrom_accepts h feed.opened feed.last? rest

/-- What stands between a parameter list and the end of a function head is read up to that end. -/
theorem qualifiers_accepts {quals : List Leaf} {term : Leaf}
    (h : Quals (fun opener closer => opener.closer? = some closer) quals)
    (hids : ∀ leaf ∈ quals, leaf.id ≠ term.id) (rest : List Leaf) :
    Accepts (qualifiers term.id) quals (term :: rest) := by
  -- by induction on the words and groups, for any state of the feed
  have hfrom : ∀ (opened : Nat) (last? : Option Leaf), ∃ feed',
      qualifiersFrom opened term.id [] last? (quals ++ term :: rest) = .ok () feed'
        ∧ feed'.rest = term :: rest := by
    induction h with
    | nil =>
      intro opened last?
      rw [List.nil_append, qualifiersFrom_end]
      exact ⟨_, rfl, rfl⟩
    | word hk _ ih =>
      intro opened last?
      rw [List.cons_append, qualifiersFrom_word (hids _ List.mem_cons_self) hk]
      exact ih (fun leaf hleaf => hids leaf (List.mem_cons_of_mem _ hleaf)) opened _
    | group hopener hc hfits hinner _ ih =>
      intro opened last?
      rw [List.cons_append, List.append_assoc, List.cons_append,
        qualifiersFrom_opener (hids _ List.mem_cons_self) hopener hfits,
        (nests_qualifiersFrom opened term.id).pass hinner, qualifiersFrom_closer hc]
      exact ih (fun leaf hleaf => hids leaf (by simp [hleaf])) opened _
  intro feed hfeed
  obtain ⟨feed', hok, hrest⟩ := hfrom feed.opened feed.last?
  unfold qualifiers
  rw [hfeed]
  exact ⟨(), feed', hok, hrest⟩

end Simple

/-! ## §3. Constructs that nest -/

/-- Leaves as they come from a file: no handle occurs twice, and words are no delimiters. -/
structure Lexed (leaves : List Leaf) : Prop where
  nodup : (leaves.map (·.id)).Nodup
  worded : Worded leaves

/-- What is left of a file is still as lexed. -/
theorem Lexed.sublist {leaves part : List Leaf} (h : Lexed leaves) (hpart : part.Sublist leaves) :
    Lexed part :=
  ⟨h.nodup.sublist (hpart.map _), fun leaf hleaf => h.worded leaf (hpart.subset hleaf)⟩

/-- What is behind some leaves. -/
theorem Lexed.behind (leaves : List Leaf) {rest : List Leaf} (h : Lexed (leaves ++ rest)) :
    Lexed rest := h.sublist (List.sublist_append_right _ _)

/-- Enough depth for a part, by the number of its leaves. -/
def Part.depth (part : Part) (count : Nat) : Nat :=
  match part with
  | .block | .aggregate => 4 * count
  | .tail _ => 4 * count + 1
  | .body | .construct | .item => 4 * count + 3
  | .items => 4 * count + 4

/-- The branches are read as the part, given enough depth.  Constructs at file scope stand
    before a brace in a linkage block, and before nothing in a file. -/
def Accepted (part : Part) (branches : List Branch) (rest : List Leaf) : Prop :=
  Lexed (leavesAll branches ++ rest) →
    match part with
    | .block => ∀ depth, part.depth (leavesAll branches).length ≤ depth →
        Accepts (block depth) (leavesAll branches) rest
    | .body => ∀ depth, part.depth (leavesAll branches).length ≤ depth →
        Accepts (blockItems depth) (leavesAll branches) rest
    | .tail goesOn => ∀ depth, part.depth (leavesAll branches).length ≤ depth →
        Accepts (statementTail depth goesOn) (leavesAll branches) rest
    | .aggregate => ∀ depth, part.depth (leavesAll branches).length ≤ depth →
        Accepts (structHead depth) (leavesAll branches) rest
    | .construct => atLinkageBlock { rest := leavesAll branches ++ rest } = false →
        ∀ depth, part.depth (leavesAll branches).length ≤ depth →
        Accepts (item depth) (leavesAll branches) rest
    | .item => ∀ depth, part.depth (leavesAll branches).length ≤ depth →
        Accepts (item depth) (leavesAll branches) rest
    | .items => (rest ≠ [] → ∀ depth, part.depth (leavesAll branches).length ≤ depth →
        Accepts (linkageItems depth) (leavesAll branches) rest)
      ∧ (rest = [] → ∀ (feed : Feed) (count : Nat), feed.rest = leavesAll branches →
        (leavesAll branches).length ≤ count → (parseFrom count feed).error? = none)

section Nested

variable {first opener closer leaf : Leaf} {leaves more rest : List Leaf} {depth : Nat}

/-- A block is its delimiters around its body. -/
theorem block_accepts (ho : opener.kind = .lbrace) (hc : closer.kind = .rbrace)
    (hbody : Accepts (blockItems depth) leaves (closer :: rest)) :
    Accepts (block (depth + 1)) (opener :: (leaves ++ [closer])) rest := by
  rw [block]
  refine .cons (.expect ho _) fun _ => .after (.openNode _) fun _ => .bind hbody fun _ => ?_
  exact .before (.expect hc _) fun _ => .after (.rangeFrom _ _) fun _ => .pure _ _

/-- A body ends before the brace that closes the block. -/
theorem blockItems_end (hc : closer.kind = .rbrace) :
    Accepts (blockItems (depth + 1)) [] (closer :: rest) := by
  rw [blockItems]
  refine .peek ?_
  rw [List.nil_append, List.head?_cons, Option.map_some, hc]
  exact .pure _ _

/-- One construct of a block, by its first leaf, and the others. -/
theorem blockItems_accepts {child : Reading Skeleton}
    (hfirst : leaves.head? = some first) (hkind : first.kind ∉ [.rparen, .rbracket, .rbrace])
    (hreading : child = match first.kind with
      | .hash => directive
      | .lbrace => block depth
      | .semicolon => loneToken
      | _ => statement depth)
    (hchild : Accepts child leaves (more ++ rest))
    (hmore : Accepts (blockItems depth) more rest) :
    Accepts (blockItems (depth + 1)) (leaves ++ more) rest := by
  have hhead : (leaves ++ more ++ rest).head? = some first := by
    rw [List.append_assoc, List.head?_append, hfirst]
    rfl
  have hboth : Accepts (child >>= fun child => blockItems depth >>= fun rest =>
      pure (child :: rest)) (leaves ++ more) rest :=
    .bind hchild fun _ => .before hmore fun _ => .pure _ _
  rw [blockItems]
  refine .peek ?_
  rw [hhead, Option.map_some]
  cases hk : first.kind with
  | rparen | rbracket | rbrace => simp [hk] at hkind
  | _ =>
    rw [hk] at hreading
    rw [hreading] at hboth
    exact hboth

/-- A statement is what follows from its first leaf on. -/
theorem statement_accepts
    (h : Accepts (statementTail depth (isAggregate first)) (first :: leaves) rest) :
    Accepts (statement (depth + 1)) (first :: leaves) rest := by
  rw [statement]
  exact .first (.after (.openNode _) fun _ => .before h fun _ =>
    .after (.rangeFrom _ _) fun _ => .pure _ _)

/-- A statement may end before a closing brace, or with the file. -/
theorem statementTail_end {goesOn : Bool} (h : ∀ leaf ∈ rest.head?, leaf.kind = .rbrace) :
    Accepts (statementTail (depth + 1) goesOn) [] rest := by
  rw [statementTail]
  refine .peek ?_
  rw [List.nil_append]
  cases rest with
  | nil => exact .pure _ _
  | cons leaf rest =>
    rw [List.head?_cons, Option.map_some, h leaf rfl]
    exact .pure _ _

/-- The next leaf of a statement, or the next group, and the others. -/
theorem statementTail_accepts (first : Leaf) {goesOn : Bool} {reading : Reading (List Skeleton)}
    (hfirst : leaves.head? = some first) (hkind : first.kind ∉ [.rparen, .rbracket, .rbrace])
    (hreading : reading = match first.kind with
      | .semicolon => do bump; return []
      | .lbrace => do
        let child ← block depth
        if goesOn then return child :: (← statementTail depth goesOn) else return [child]
      | .lparen | .lbracket => do skipGroup; statementTail depth goesOn
      | .assign => do bump; statementTail depth true
      | _ => do bump; statementTail depth goesOn)
    (h : Accepts reading leaves rest) : Accepts (statementTail (depth + 1) goesOn) leaves rest := by
  rw [statementTail]
  refine .peek ?_
  rw [List.head?_append, hfirst, Option.some_or, Option.map_some]
  cases hk : first.kind with
  | rparen | rbracket | rbrace => simp [hk] at hkind
  | _ =>
    rw [hk] at hreading
    rw [hreading] at h
    exact h

/-- A struct with a body: its word, its tag if it has one, and the block. -/
theorem structHead_accepts (hfirst : first.kind = .struct) {tag : Option Leaf}
    (htag : ∀ leaf ∈ tag, leaf.kind = .symbol) (hopener : leaves.head? = some opener)
    (ho : opener.kind = .lbrace) (h : Accepts (block depth) leaves rest) :
    Accepts (structHead depth) (first :: (tag.toList ++ leaves)) rest := by
  unfold structHead
  refine .cons (.expect hfirst _) fun _ => .after (.openNode _) fun _ => .peek ?_
  cases tag with
  | none =>
    rw [Option.toList_none, List.nil_append, List.head?_append, hopener, Option.some_or,
      Option.map_some, ho]
    exact .after (.pure _ _) fun _ => .before h fun _ => .pure _ _
  | some tag =>
    rw [Option.toList_some, List.cons_append, List.nil_append, List.cons_append, List.head?_cons,
      Option.map_some, htag tag rfl]
    exact .cons (tokenNode_accepts (htag tag rfl) _) fun _ => .after (.pure _ _) fun _ =>
      .before h fun _ => .pure _ _

/-- **A function** whose head is ahead, by what ends it. -/
theorem functionItem_accepts {name inner quals fin : List Leaf} {term : Leaf} {body : Bool}
    (h : Prototype (fun opener closer => opener.closer? = some closer) name opener inner closer
      quals)
    (hfin : fin.head? = some term)
    (hnodup : ((name ++ opener :: (inner ++ closer :: (quals ++ fin)) ++ rest).map (·.id)).Nodup)
    (hlast : if body then Accepts (block depth) fin rest
      else term.kind = .semicolon ∧ fin = [term]) :
    Accepts (functionItem depth opener.id term.id body)
      (name ++ opener :: (inner ++ closer :: (quals ++ fin))) rest := by
  obtain ⟨first, more, rfl⟩ := List.exists_cons_of_ne_nil h.name_ne_nil
  obtain ⟨after, rfl⟩ := List.head?_eq_some_iff.mp hfin
  have hgroup : Group (opener :: (inner ++ [closer])) :=
    ⟨opener, inner, closer, rfl, h.pair, h.between⟩
  -- the reader stops by handles, so that no leaf before may have the handle it looks for
  have hbefore : ∀ leaf ∈ first :: more, leaf.id ≠ opener.id := by
    intro leaf hleaf he
    rw [List.append_assoc, List.map_append] at hnodup
    exact (List.nodup_append.mp hnodup).2.2 leaf.id (List.mem_map_of_mem hleaf) opener.id
      (by simp) he
  have hbetween : ∀ leaf ∈ quals, leaf.id ≠ term.id := by
    intro leaf hleaf he
    have hsub : (quals ++ [term]).Sublist
        (first :: more ++ opener :: (inner ++ closer :: (quals ++ term :: after)) ++ rest) := by
      refine List.Sublist.trans ?_ (List.sublist_append_left _ rest)
      refine List.Sublist.trans ?_ (List.sublist_append_right (first :: more) _)
      refine List.Sublist.cons _ (List.Sublist.trans ?_ (List.sublist_append_right inner _))
      refine List.Sublist.cons _ (List.Sublist.append (List.Sublist.refl _) ?_)
      exact List.Sublist.cons_cons _ (List.nil_sublist _)
    have hpart := hnodup.sublist (hsub.map (·.id))
    rw [List.map_append] at hpart
    exact (List.nodup_append.mp hpart).2.2 leaf.id (List.mem_map_of_mem hleaf) term.id (by simp) he
  have hall : Accepts (functionItem depth opener.id term.id body)
      (first :: more ++ (opener :: (inner ++ [closer]) ++ (quals ++ term :: after))) rest := by
    unfold functionItem
    refine .first (.after (.openNode _) fun _ => ?_)
    change Accepts _ (first :: more ++ (opener :: (inner ++ [closer]) ++ (quals ++ term :: after)))
      rest
    refine .bind (.bumpWhile ?_ ?_) fun _ => .bind (.skipGroup hgroup _) fun _ =>
      .read fun feed _ => .after (.openNode _) fun _ =>
      .bind (qualifiers_accepts h.behind hbetween _) fun _ => ?_
    · intro leaf hleaf
      simp [hbefore leaf hleaf]
    · intro leaf hleaf
      obtain rfl : opener = leaf := by simpa using hleaf
      simp
    · cases body with
      | true =>
        rw [if_pos rfl] at hlast ⊢
        exact .before hlast fun _ => .after (.rangeFrom _ _) fun _ => .pure _ _
      | false =>
        rw [if_neg Bool.false_ne_true] at hlast ⊢
        obtain ⟨hk, hone⟩ := hlast
        obtain ⟨-, rfl⟩ := List.cons.inj hone
        exact .before (.expect hk _) fun _ => .after (.rangeFrom _ _) fun _ => .pure _ _
  simpa using hall

/-- One construct at file scope that is no linkage block, by its first leaf. -/
theorem item_accepts {reading : Reading Skeleton} (hfirst : leaves.head? = some first)
    (hkind : first.kind ∉ [.rparen, .rbracket, .rbrace])
    (hlinkage : atLinkageBlock { rest := leaves ++ rest } = false)
    (hreading : reading = match first.kind with
      | .hash => directive
      | .typedef => typedefItem depth
      | .struct => structItem depth
      | .semicolon => loneToken
      | _ => declaration depth)
    (h : Accepts reading leaves rest) : Accepts (item (depth + 1)) leaves rest := by
  rw [item]
  refine .read fun feed hfeed => ?_
  have hno : atLinkageBlock feed = false := by
    rw [← hlinkage, ← hfeed]
    rfl
  rw [hno, if_neg Bool.false_ne_true]
  refine .peek ?_
  rw [List.head?_append, hfirst, Option.some_or, Option.map_some]
  cases hk : first.kind with
  | rparen | rbracket | rbrace => simp [hk] at hkind
  | _ =>
    rw [hk] at hreading
    rw [hreading] at h
    exact h

/-- A linkage block is `extern`, a string and constructs in braces. -/
theorem item_linkage {name : Leaf} (hfirst : first.text = "extern") (hname : name.kind = .string)
    (ho : opener.kind = .lbrace) (hc : closer.kind = .rbrace)
    (h : Accepts (linkageItems depth) leaves (closer :: rest)) :
    Accepts (item (depth + 2)) (first :: name :: opener :: (leaves ++ [closer])) rest := by
  rw [item]
  refine .read fun feed hfeed => ?_
  have hyes : atLinkageBlock feed = true := by
    unfold atLinkageBlock Feed.kindAt?
    rw [hfeed]
    simp [hfirst, hname, ho]
  rw [hyes, if_pos rfl, linkageBlock]
  refine .first (.after (.openNode _) fun _ => .cons (.bump _ _) fun _ =>
    .cons (.expect hname _) fun _ => .cons (.expect ho _) fun _ => .bind h fun _ => ?_)
  exact .before (.expect hc _) fun _ => .after (.rangeFrom _ _) fun _ => .pure _ _

/-- A declaration is a function or a statement, wherever it was looked for. -/
theorem item_declaration (hdeclares : Declares (leaves ++ rest))
    (hfirst : leaves.head? = some first)
    (hlinkage : atLinkageBlock { rest := leaves ++ rest } = false)
    (h : Accepts (declaration depth) leaves rest) : Accepts (item (depth + 1)) leaves rest := by
  obtain ⟨first', hfirst', hkind, hstruct⟩ := hdeclares
  obtain rfl : first' = first := by
    rw [List.head?_append, hfirst] at hfirst'
    exact (Option.some.inj hfirst').symm
  simp only [List.mem_cons, List.not_mem_nil, or_false, not_or] at hkind
  obtain ⟨hhash, htypedef, hsemicolon, hrbrace, hrparen, hrbracket⟩ := hkind
  refine item_accepts hfirst (by simp [hrparen, hrbracket, hrbrace]) hlinkage rfl ?_
  -- `struct` too may begin a declaration, once neither of its own forms is ahead
  by_cases hk : first'.kind = .struct
  · rw [hk]
    unfold structItem
    refine .read fun feed hfeed => ?_
    obtain ⟨hdecl, hbody⟩ := hstruct hk
    rw [← hfeed] at hdecl hbody
    rw [show atStructDecl feed = false from hdecl, show atStructBody feed = false from hbody]
    exact h
  · cases hk' : first'.kind with
    | hash | typedef | struct | semicolon => simp_all
    | _ => exact h

end Nested

/-! ## §4. The leaves a part begins with -/

/-- A block begins with its brace. -/
theorem Reads.block_head {block : Branch} {rest : List Leaf} (h : Reads .block [block] rest) :
    ∃ opener more, block.leaves = opener :: more ∧ opener.kind = .lbrace := by
  obtain ⟨opener, parts, closer, heq, ho, -⟩ := h.block_inv
  obtain ⟨rfl, -⟩ := List.cons.inj heq
  exact ⟨opener, leavesAll parts ++ [closer], by simp, ho⟩

/-- Where an aggregate stands, a struct with a body is seen ahead. -/
theorem Reads.struct_ahead {branches : List Branch} {rest : List Leaf}
    (h : Reads .aggregate branches rest) :
    atStructBody { rest := leavesAll branches ++ rest } = true := by
  unfold atStructBody Feed.kindAt?
  cases h with
  | struct hk hblock =>
    obtain ⟨opener, more, hleaves, ho⟩ := hblock.block_head
    simp [hleaves, hk, ho]
  | structTagged hk htag hblock =>
    obtain ⟨opener, more, hleaves, ho⟩ := hblock.block_head
    simp [hleaves, hk, htag, ho]

/-- A struct with a body is not taken for one that is only declared. -/
theorem Reads.not_atStructDecl {branches : List Branch} {rest : List Leaf} {feed : Feed}
    (h : Reads .aggregate branches rest) (hfeed : feed.rest = leavesAll branches ++ rest) :
    atStructDecl feed = false := by
  unfold atStructDecl Feed.kindAt?
  rw [hfeed]
  cases h with
  | struct hk hblock =>
    obtain ⟨opener, more, hleaves, ho⟩ := hblock.block_head
    simp [hleaves, ho]
  | structTagged hk htag hblock =>
    obtain ⟨opener, more, hleaves, ho⟩ := hblock.block_head
    simp [hleaves, ho]

/-- An aggregate begins with its word. -/
theorem Reads.aggregate_head {branches : List Branch} {rest : List Leaf}
    (h : Reads .aggregate branches rest) :
    ∃ first more, leavesAll branches = first :: more ∧ first.kind = .struct := by
  cases h with
  | @struct first body _ hk _ => exact ⟨first, body.leaves, by simp, hk⟩
  | @structTagged first tag body _ hk _ _ => exact ⟨first, tag :: body.leaves, by simp, hk⟩

/-- No construct at file scope is empty. -/
theorem Reads.item_ne_nil {branch : Branch} {rest : List Leaf} (h : Reads .item [branch] rest) :
    branch.leaves ≠ [] := by
  have hnode : branch ∈ Branch.nodesAll [branch] := by
    cases h with
    | linkage => simp
    | construct _ h => cases h <;> simp
  exact (h.made branch hnode).ne_nil

/-- No construct at file scope begins with a brace that closes. -/
theorem Reads.item_head {branch : Branch} {rest : List Leaf} {first : Leaf}
    (h : Reads .item [branch] rest) (hworded : Worded branch.leaves)
    (hfirst : branch.leaves.head? = some first) : first.kind ≠ .rbrace := by
  have hdeclares : Declares (branch.leaves ++ rest) → first.kind ≠ .rbrace := by
    rintro ⟨first', hfirst', hkind, -⟩
    rw [List.head?_append, hfirst] at hfirst'
    obtain rfl := Option.some.inj hfirst'
    rintro hk
    simp [hk] at hkind
  -- the other constructs begin with a leaf of a known kind
  have hconstant : ∀ {leaf : Leaf} {kind : TokenKind}, branch.leaves.head? = some leaf →
      leaf.kind = kind → kind ≠ .rbrace → first.kind ≠ .rbrace := by
    rintro leaf kind hleaf rfl hne
    rw [hfirst] at hleaf
    obtain rfl := Option.some.inj hleaf
    exact hne
  cases h with
  | @linkage word _ _ _ _ _ htext =>
    obtain rfl : word = first := by simpa using hfirst
    have hplain := hworded word (by simp) htext
    rintro hk
    simp [hk, TokenKind.isDelimiter, TokenKind.isCloser] at hplain
  | construct _ h =>
    cases h with
    | directive hdir =>
      obtain ⟨hash, body, rfl, hk, -⟩ := hdir
      exact hconstant (by simp) hk (by simp)
    | lone hk => exact hconstant (by simp) hk (by simp)
    | typedef hk _ _ => exact hconstant (by simp) hk (by simp)
    | typedefStruct hk _ _ => exact hconstant (by simp) hk (by simp)
    | structDecl hk _ _ => exact hconstant (by simp) hk (by simp)
    | structDefn hstruct _ =>
      obtain ⟨word, more, hleaves, hk⟩ := hstruct.aggregate_head
      exact hconstant (by simp [hleaves]) hk (by simp)
    | definition hdecl _ _ => exact hdeclares (by simpa using hdecl)
    | prototype hdecl _ _ => exact hdeclares (by simpa using hdecl)
    | statement _ hdecl _ _ => exact hdeclares (by simpa using hdecl)

/-- Enough depth for a call, and for what it calls. -/
theorem exists_depth {n depth : Nat} (h : n + 1 ≤ depth) : ∃ d, depth = d + 1 ∧ n ≤ d :=
  ⟨depth - 1, by omega, by omega⟩

namespace Accepted

variable {branch : Branch} {more : List Branch} {rest : List Leaf}

/-- One construct of a block before others. -/
theorem body_cons (first : Leaf) (hfirst : branch.leaves.head? = some first)
    (hkind : first.kind ∉ [.rparen, .rbracket, .rbrace])
    (hchild : Lexed (branch.leaves ++ (leavesAll more ++ rest)) →
      ∀ depth, 4 * branch.leaves.length + 2 ≤ depth →
      Accepts (match first.kind with
        | .hash => directive
        | .lbrace => block depth
        | .semicolon => loneToken
        | _ => statement depth) branch.leaves (leavesAll more ++ rest))
    (hmore : Accepted .body more rest) : Accepted .body (branch :: more) rest := by
  intro hlexed depth hdepth
  rw [Branch.leavesAll_cons] at hlexed hdepth ⊢
  rw [List.append_assoc] at hlexed
  have hpos : 0 < branch.leaves.length := by
    obtain ⟨tail, htail⟩ := List.head?_eq_some_iff.mp hfirst
    simp [htail]
  simp only [Part.depth, List.length_append] at hdepth
  obtain ⟨depth, rfl, hd⟩ := exists_depth hdepth
  exact blockItems_accepts hfirst hkind rfl (hchild hlexed depth (by omega))
    (hmore (hlexed.behind _) depth (by simp only [Part.depth]; omega))

/-- Some leaves of a statement before others. -/
theorem tail_cons (leaves : List Leaf) (first : Leaf) {goesOn goesOn' : Bool}
    (hfirst : leaves.head? = some first)
    (hkind : first.kind ∉ [.rparen, .rbracket, .rbrace])
    (hstep : ∀ depth, Accepts (statementTail depth goesOn') (leavesAll more) rest →
      Accepts (match first.kind with
        | .semicolon => do bump; return []
        | .lbrace => do
          let child ← block depth
          if goesOn then return child :: (← statementTail depth goesOn) else return [child]
        | .lparen | .lbracket => do skipGroup; statementTail depth goesOn
        | .assign => do bump; statementTail depth true
        | _ => do bump; statementTail depth goesOn) (leaves ++ leavesAll more) rest)
    (hmore : Accepted (.tail goesOn') more rest) :
    Accepted (.tail goesOn) (leaves.map .leaf ++ more) rest := by
  intro hlexed depth hdepth
  rw [Branch.leavesAll_append, Branch.leavesAll_map_leaf] at hlexed hdepth ⊢
  rw [List.append_assoc] at hlexed
  have hpos : 0 < leaves.length := by
    obtain ⟨tail, htail⟩ := List.head?_eq_some_iff.mp hfirst
    simp [htail]
  simp only [Part.depth, List.length_append] at hdepth
  obtain ⟨depth, rfl, hd⟩ := exists_depth hdepth
  refine statementTail_accepts first (by rw [List.head?_append, hfirst]; rfl) hkind rfl
    (hstep depth (hmore (hlexed.behind _) depth ?_))
  simp only [Part.depth]
  omega

/-- A construct at file scope that is neither a declaration nor a linkage block. -/
theorem construct_of (first : Leaf) {node : Branch}
    (hfirst : node.leaves.head? = some first)
    (hkind : first.kind ∉ [.rparen, .rbracket, .rbrace])
    (h : Lexed (node.leaves ++ rest) → ∀ depth, 4 * node.leaves.length + 2 ≤ depth →
      Accepts (match first.kind with
        | .hash => directive
        | .typedef => typedefItem depth
        | .struct => structItem depth
        | .semicolon => loneToken
        | _ => declaration depth) node.leaves rest) :
    Accepted .construct [node] rest := by
  intro hlexed hlinkage depth hdepth
  rw [Branch.leavesAll_cons, Branch.leavesAll_nil, List.append_nil] at hlexed hlinkage hdepth ⊢
  simp only [Part.depth] at hdepth
  obtain ⟨depth, rfl, hd⟩ := exists_depth hdepth
  exact item_accepts hfirst hkind hlinkage rfl (h hlexed depth hd)

/-- A declaration at file scope. -/
theorem construct_declares (first : Leaf) {node : Branch}
    (hdeclares : Declares (node.leaves ++ rest))
    (hfirst : node.leaves.head? = some first)
    (h : Lexed (node.leaves ++ rest) → ∀ depth, 4 * node.leaves.length + 2 ≤ depth →
      Accepts (declaration depth) node.leaves rest) : Accepted .construct [node] rest := by
  intro hlexed hlinkage depth hdepth
  rw [Branch.leavesAll_cons, Branch.leavesAll_nil, List.append_nil] at hlexed hlinkage hdepth ⊢
  simp only [Part.depth] at hdepth
  obtain ⟨depth, rfl, hd⟩ := exists_depth hdepth
  exact item_declaration hdeclares hfirst hlinkage (h hlexed depth hd)

end Accepted

/-! ## §5. One rule of the grammar after the other -/

section Rules

variable {first opener closer tag leaf : Leaf} {leaves rest name inner quals : List Leaf}
  {branch body : Branch} {parts names more : List Branch} {goesOn : Bool}

/-- What a block accepts, by its leaves. -/
theorem Accepted.leaves_block (h : Accepted .block [body] rest)
    (hlexed : Lexed (body.leaves ++ rest)) {depth : Nat}
    (hdepth : 4 * body.leaves.length ≤ depth) :
    Accepts (block depth) body.leaves rest := by
  have hread := h (by simpa using hlexed) depth
  rw [Branch.leavesAll_cons, Branch.leavesAll_nil, List.append_nil] at hread
  exact hread hdepth

/-- What a construct at file scope accepts, by its leaves. -/
theorem Accepted.leaves_item (h : Accepted .item [branch] rest)
    (hlexed : Lexed (branch.leaves ++ rest)) {depth : Nat}
    (hdepth : 4 * branch.leaves.length + 3 ≤ depth) : Accepts (item depth) branch.leaves rest := by
  have hread := h (by simpa using hlexed) depth
  rw [Branch.leavesAll_cons, Branch.leavesAll_nil, List.append_nil] at hread
  exact hread hdepth

/-- Rule: a block, by its body. -/
theorem accepted_block (ho : opener.kind = .lbrace) (hc : closer.kind = .rbrace)
    (ih : Accepted .body parts (closer :: rest)) :
    Accepted .block [.node .statementBlock (.leaf opener :: (parts ++ [.leaf closer]))] rest := by
  intro hlexed depth hdepth
  have hleaves : leavesAll [.node .statementBlock (.leaf opener :: (parts ++ [.leaf closer]))]
      = opener :: (leavesAll parts ++ [closer]) := by simp
  rw [hleaves] at hlexed hdepth ⊢
  simp only [Part.depth, List.length_cons, List.length_append, List.length_nil] at hdepth
  obtain ⟨depth, rfl⟩ : ∃ d, depth = d + 1 := ⟨depth - 1, by omega⟩
  refine block_accepts ho hc (ih ?_ depth ?_)
  · rw [List.cons_append, List.append_assoc] at hlexed
    exact hlexed.behind [opener]
  · simp only [Part.depth]
    omega

/-- Rule: the end of a body. -/
theorem accepted_bodyEnd (hc : closer.kind = .rbrace) : Accepted .body [] (closer :: rest) := by
  intro _ depth hdepth
  rw [Branch.leavesAll_nil] at hdepth ⊢
  obtain ⟨depth, rfl, -⟩ := exists_depth hdepth
  exact blockItems_end hc

/-- Rule: a directive in a body. -/
theorem accepted_bodyDirective (hdir : Directive leaves (leavesAll more ++ rest))
    (ih : Accepted .body more rest) :
    Accepted .body (.node .directive (leaves.map .leaf) :: more) rest := by
  have hread := directive_accepts hdir
  obtain ⟨hash, body, rfl, hk, -⟩ := hdir
  refine Accepted.body_cons hash (by simp) (by simp [hk]) (fun _ depth _ => ?_) ih
  rw [hk, Branch.leaves_node, Branch.leavesAll_map_leaf]
  exact hread

/-- Rule: a block in a body. -/
theorem accepted_bodyBlock (hblock : Reads .block [body] (leavesAll more ++ rest))
    (ih : Accepted .block [body] (leavesAll more ++ rest)) (ih' : Accepted .body more rest) :
    Accepted .body (body :: more) rest := by
  obtain ⟨opener, tail, hleaves, ho⟩ := hblock.block_head
  refine Accepted.body_cons opener (by simp [hleaves]) (by simp [ho])
    (fun hlexed depth hdepth => ?_) ih'
  rw [ho]
  exact ih.leaves_block hlexed (by omega)

/-- Rule: a `;` on its own in a body. -/
theorem accepted_bodyLone (hk : leaf.kind = .semicolon) (ih : Accepted .body more rest) :
    Accepted .body (.node .token [.leaf leaf] :: more) rest := by
  refine Accepted.body_cons leaf (by simp) (by simp [hk]) (fun _ depth _ => ?_) ih
  rw [hk]
  exact loneToken_accepts leaf _

/-- Rule: a statement in a body.  Its first leaf must not be read as another construct. -/
theorem accepted_bodyStatement (hfirst : (leavesAll parts).head? = some first)
    (hkind : first.kind ∉ [.hash, .lbrace, .semicolon, .rparen, .rbracket, .rbrace])
    (ih : Accepted (.tail (isAggregate first)) parts (leavesAll more ++ rest))
    (ih' : Accepted .body more rest) : Accepted .body (.node .statement parts :: more) rest := by
  simp only [List.mem_cons, List.not_mem_nil, or_false, not_or] at hkind
  obtain ⟨hhash, hlbrace, hsemicolon, hrparen, hrbracket, hrbrace⟩ := hkind
  refine Accepted.body_cons first (by simpa using hfirst)
    (by simp [hrparen, hrbracket, hrbrace]) (fun hlexed depth hdepth => ?_) ih'
  rw [Branch.leaves_node] at hlexed hdepth ⊢
  obtain ⟨depth, rfl, hd⟩ := exists_depth hdepth
  obtain ⟨tail, hleaves⟩ := List.head?_eq_some_iff.mp hfirst
  have hread := ih hlexed depth (by simp only [Part.depth]; omega)
  rw [hleaves] at hread ⊢
  cases hk : first.kind with
  | hash | lbrace | semicolon => simp_all
  | _ => exact statement_accepts hread

/-- Rule: a statement that a closing brace ends. -/
theorem accepted_tailEnd (hend : ∀ leaf ∈ rest.head?, leaf.kind = .rbrace) :
    Accepted (.tail goesOn) [] rest := by
  intro _ depth hdepth
  rw [Branch.leavesAll_nil] at hdepth ⊢
  obtain ⟨depth, rfl, -⟩ := exists_depth hdepth
  exact statementTail_end hend

/-- Rule: a statement that its `;` ends. -/
theorem accepted_tailSemicolon (hk : leaf.kind = .semicolon) :
    Accepted (.tail goesOn) [.leaf leaf] rest := by
  intro _ depth hdepth
  have hleaves : leavesAll [.leaf leaf] = [leaf] := by simp
  rw [hleaves] at hdepth ⊢
  obtain ⟨depth, rfl, -⟩ := exists_depth hdepth
  refine statementTail_accepts leaf rfl (by simp [hk]) rfl ?_
  rw [hk]
  exact .before (.bump leaf _) fun _ => .pure _ _

/-- Rule: a statement that ends with its block. -/
theorem accepted_tailBlock (hblock : Reads .block [body] rest) (ih : Accepted .block [body] rest) :
    Accepted (.tail false) [body] rest := by
  intro hlexed depth hdepth
  obtain ⟨opener, tail, hleaves, ho⟩ := hblock.block_head
  simp only [Part.depth] at hdepth
  obtain ⟨depth, rfl, hd⟩ := exists_depth hdepth
  refine statementTail_accepts opener (by simp [hleaves]) (by simp [ho]) rfl ?_
  rw [ho]
  exact .before (ih hlexed depth hd) fun _ => .pure _ _

/-- Rule: a block that a statement goes on behind, as behind the body of an aggregate or an
    initialiser. -/
theorem accepted_tailBlockOn (hblock : Reads .block [body] (leavesAll more ++ rest))
    (ih : Accepted .block [body] (leavesAll more ++ rest))
    (ih' : Accepted (.tail true) more rest) : Accepted (.tail true) (body :: more) rest := by
  intro hlexed depth hdepth
  obtain ⟨opener, tail, hleaves, ho⟩ := hblock.block_head
  rw [Branch.leavesAll_cons] at hlexed hdepth ⊢
  rw [List.append_assoc] at hlexed
  have hpos : 0 < body.leaves.length := by simp [hleaves]
  simp only [Part.depth, List.length_append] at hdepth
  obtain ⟨depth, rfl, hd⟩ := exists_depth hdepth
  refine statementTail_accepts opener (by simp [hleaves]) (by simp [ho]) rfl ?_
  rw [ho]
  refine .bind (ih.leaves_block hlexed (by omega)) fun _ => ?_
  rw [if_pos rfl]
  refine .before (ih' (hlexed.behind _) depth ?_) fun _ => .pure _ _
  simp only [Part.depth]
  omega

/-- Rule: a group in parentheses or brackets within a statement. -/
theorem accepted_tailGroup (hgroup : Group leaves) (hopener : leaves.head? = some opener)
    (hk : opener.kind = .lparen ∨ opener.kind = .lbracket)
    (ih : Accepted (.tail goesOn) more rest) :
    Accepted (.tail goesOn) (leaves.map .leaf ++ more) rest := by
  refine Accepted.tail_cons leaves opener hopener ?_ (fun depth hread => ?_) ih
  · rcases hk with hk | hk <;> simp [hk]
  · rcases hk with hk | hk <;> rw [hk] <;>
      exact .bind (.skipGroup hgroup _) fun _ => hread

/-- Rule: an `=`, behind which a block does not end the statement. -/
theorem accepted_tailAssign (hk : leaf.kind = .assign) (ih : Accepted (.tail true) more rest) :
    Accepted (.tail goesOn) (.leaf leaf :: more) rest := by
  refine Accepted.tail_cons [leaf] leaf rfl (by simp [hk]) (fun depth hread => ?_) ih
  rw [hk]
  exact .bind (.bump leaf _) fun _ => hread

/-- Rule: any other leaf of a statement. -/
theorem accepted_tailWord (hplain : leaf.kind.isPlain = true)
    (ih : Accepted (.tail goesOn) more rest) :
    Accepted (.tail goesOn) (.leaf leaf :: more) rest := by
  refine Accepted.tail_cons [leaf] leaf rfl ?_ (fun depth hread => ?_) ih
  · cases hk : leaf.kind <;> simp_all [TokenKind.isPlain, TokenKind.isDelimiter,
      TokenKind.isOpener, TokenKind.isCloser]
  · have hgo : Accepts (do bump; statementTail depth goesOn) ([leaf] ++ leavesAll more) rest :=
      .bind (.bump leaf _) fun _ => hread
    cases hk : leaf.kind <;> first
      | exact hgo
      | simp [hk, TokenKind.isPlain, TokenKind.isDelimiter, TokenKind.isOpener,
          TokenKind.isCloser] at hplain

/-- Rule: an aggregate without a tag. -/
theorem accepted_struct (hfirst : first.kind = .struct) (hblock : Reads .block [body] rest)
    (ih : Accepted .block [body] rest) : Accepted .aggregate [.leaf first, body] rest := by
  intro hlexed depth hdepth
  obtain ⟨opener, tail, hleaves, ho⟩ := hblock.block_head
  have hall : leavesAll [.leaf first, body] = first :: (none.toList ++ body.leaves) := by simp
  rw [hall] at hlexed hdepth ⊢
  simp only [Part.depth, List.length_cons, List.length_append] at hdepth
  exact structHead_accepts hfirst (by simp) (by rw [hleaves]; rfl) ho
    (ih.leaves_block (by simpa using hlexed.behind [first]) (by omega))

/-- Rule: an aggregate with a tag. -/
theorem accepted_structTagged (hfirst : first.kind = .struct) (htag : tag.kind = .symbol)
    (hblock : Reads .block [body] rest) (ih : Accepted .block [body] rest) :
    Accepted .aggregate [.leaf first, .node .structTag [.leaf tag], body] rest := by
  intro hlexed depth hdepth
  obtain ⟨opener, tail, hleaves, ho⟩ := hblock.block_head
  have hall : leavesAll [.leaf first, .node .structTag [.leaf tag], body]
      = first :: ((some tag).toList ++ body.leaves) := by simp
  rw [hall] at hlexed hdepth ⊢
  simp only [Part.depth, List.length_cons, List.length_append] at hdepth
  exact structHead_accepts hfirst (by simpa using htag) (by rw [hleaves]; rfl) ho
    (ih.leaves_block (by simpa using hlexed.behind [first, tag]) (by omega))

/-- Rule: a directive at file scope. -/
theorem accepted_directive (hdir : Directive leaves rest) :
    Accepted .construct [.node .directive (leaves.map .leaf)] rest := by
  have hread := directive_accepts hdir
  obtain ⟨hash, body, rfl, hk, -⟩ := hdir
  refine Accepted.construct_of hash (by simp) (by simp [hk]) fun _ depth _ => ?_
  rw [hk, Branch.leaves_node, Branch.leavesAll_map_leaf]
  exact hread

/-- Rule: a `;` on its own at file scope. -/
theorem accepted_lone (hk : leaf.kind = .semicolon) :
    Accepted .construct [.node .token [.leaf leaf]] rest := by
  refine Accepted.construct_of leaf (by simp) (by simp [hk]) fun _ depth _ => ?_
  rw [hk]
  exact loneToken_accepts leaf rest

/-- Rule: a type definition that has no struct body. -/
theorem accepted_typedef (hk : first.kind = .typedef)
    (hplain : atStructBody { rest := leavesAll parts ++ rest } = false)
    (ih : Accepted (.tail true) parts rest) :
    Accepted .construct [.node .typedef (.leaf first :: parts)] rest := by
  refine Accepted.construct_of first (by simp) (by simp [hk]) fun hlexed depth hdepth => ?_
  rw [hk]
  rw [Branch.leaves_node, Branch.leavesAll_cons, Branch.leaves_leaf] at hlexed hdepth ⊢
  have hread := ih (hlexed.behind [first]) depth (by
    simp only [Part.depth, List.length_append, List.length_singleton] at hdepth ⊢
    omega)
  unfold typedefItem
  refine .cons (.expect hk _) fun _ => .after (.openNode _) fun _ => .read fun feed hfeed => ?_
  have hfeed : feed.rest = leavesAll parts ++ rest := hfeed
  rw [← hfeed] at hplain
  rw [show atStructBody feed = false from hplain, if_neg Bool.false_ne_true]
  exact .before hread fun _ => .after (.rangeFrom _ _) fun _ => .pure _ _

/-- Rule: a type definition around a struct with a body. -/
theorem accepted_typedefStruct (hk : first.kind = .typedef)
    (hstruct : Reads .aggregate parts (leavesAll names ++ rest)) (hnames : Declarators false names)
    (ih : Accepted .aggregate parts (leavesAll names ++ rest)) :
    Accepted .construct [.node .typedef (.leaf first :: .node .structDefn parts :: names)]
      rest := by
  refine Accepted.construct_of first (by simp) (by simp [hk]) fun hlexed depth hdepth => ?_
  rw [hk]
  have hleaves : (Branch.node .typedef (.leaf first :: .node .structDefn parts :: names)).leaves
      = first :: (leavesAll parts ++ leavesAll names) := by simp
  rw [hleaves] at hlexed hdepth ⊢
  have hread := ih (by simpa using hlexed.behind [first]) depth (by
    simp only [Part.depth, List.length_append, List.length_cons] at hdepth ⊢
    omega)
  unfold typedefItem
  refine .cons (.expect hk _) fun _ => .after (.openNode _) fun _ => .read fun feed hfeed => ?_
  -- the look ahead sees the struct that the grammar has
  have hbody : atStructBody feed = true := by
    rw [← hstruct.struct_ahead]
    unfold atStructBody Feed.kindAt?
    rw [show feed.rest = leavesAll parts ++ leavesAll names ++ rest from hfeed]
    simp
  rw [hbody, if_pos rfl]
  exact .bind hread fun _ => .after (.rangeFrom _ _) fun _ =>
    .before (declarators_accepts hnames rest) fun _ => .after (.pure _ _) fun _ =>
    .after (.rangeFrom _ _) fun _ => .pure _ _

/-- Rule: a struct that is only declared. -/
theorem accepted_structDecl {last : Leaf} (hk : first.kind = .struct) (htag : tag.kind = .symbol)
    (hlast : last.kind = .semicolon) : Accepted .construct
      [.node .structDecl [.leaf first, .node .structTag [.leaf tag], .leaf last]] rest := by
  refine Accepted.construct_of first (by simp) (by simp [hk]) fun hlexed depth hdepth => ?_
  rw [hk]
  have hleaves : (Branch.node .structDecl
      [.leaf first, .node .structTag [.leaf tag], .leaf last]).leaves = [first, tag, last] := by
    simp
  rw [hleaves]
  unfold structItem
  refine .read fun feed hfeed => ?_
  have hdecl : atStructDecl feed = true := by
    unfold atStructDecl Feed.kindAt?
    rw [hfeed]
    simp [htag, hlast]
  rw [hdecl, if_pos rfl]
  exact structDecl_accepts hk htag hlast rest

/-- Rule: a struct with a body, and the declarators behind it. -/
theorem accepted_structDefn (hstruct : Reads .aggregate parts (leavesAll names ++ rest))
    (hnames : Declarators false names) (ih : Accepted .aggregate parts (leavesAll names ++ rest)) :
    Accepted .construct [.node .structDefn (parts ++ names)] rest := by
  obtain ⟨first, more, hparts, hk⟩ := hstruct.aggregate_head
  have hleaves : (Branch.node .structDefn (parts ++ names)).leaves
      = leavesAll parts ++ leavesAll names := by simp
  refine Accepted.construct_of first (by rw [hleaves, hparts]; rfl) (by simp [hk])
    fun hlexed depth hdepth => ?_
  rw [hleaves] at hlexed hdepth ⊢
  rw [List.append_assoc] at hlexed
  have hread := ih hlexed depth (by
    simp only [Part.depth, List.length_append] at hdepth ⊢
    omega)
  have hbody := hstruct.struct_ahead
  rw [hk]
  unfold structItem
  refine .read fun feed hfeed => ?_
  rw [List.append_assoc] at hfeed
  rw [← hfeed] at hbody
  -- a struct with a body is no struct declaration, so the second branch is taken
  rw [hstruct.not_atStructDecl hfeed, if_neg Bool.false_ne_true,
    show atStructBody feed = true from hbody, if_pos rfl]
  exact .bind hread fun _ => .before (declarators_accepts hnames rest) fun _ =>
    .after (.rangeFrom _ _) fun _ => .pure _ _

/-- A function with a body: the reader finds its parameter list and its block. -/
theorem accepted_definition
    (hdeclares : Declares (name ++ opener :: (inner ++ closer ::
      (quals ++ (body.leaves ++ rest)))))
    (hproto : Prototype (fun opener closer => opener.closer? = some closer) name opener inner
      closer quals)
    (hblock : Reads .block [body] rest) (ih : Accepted .block [body] rest) :
    Accepted .construct [.node .functionDefn (name.map .leaf
      ++ .node .functionParams ((opener :: (inner ++ [closer])).map .leaf)
      :: (quals.map .leaf ++ [body]))] rest := by
  obtain ⟨first, more, hname⟩ := List.exists_cons_of_ne_nil hproto.name_ne_nil
  obtain ⟨term, tail, hbody, hterm⟩ := hblock.block_head
  have hleaves : (Branch.node .functionDefn (name.map .leaf
        ++ .node .functionParams ((opener :: (inner ++ [closer])).map .leaf)
        :: (quals.map .leaf ++ [body]))).leaves
      = name ++ opener :: (inner ++ closer :: (quals ++ body.leaves)) := by simp
  refine Accepted.construct_declares first (by rw [hleaves]; simpa using hdeclares)
    (by rw [hleaves, hname]; rfl) fun hlexed depth hdepth => ?_
  rw [hleaves] at hlexed hdepth ⊢
  have hsplit : name ++ opener :: (inner ++ closer :: (quals ++ body.leaves)) ++ rest
      = name ++ opener :: (inner ++ closer :: quals) ++ (body.leaves ++ rest) := by simp
  have hread : Accepts (block depth) body.leaves rest :=
    ih.leaves_block ((hsplit ▸ hlexed).behind _) (by
      simp only [List.length_append, List.length_cons] at hdepth
      omega)
  unfold declaration
  refine .read fun feed hfeed => ?_
  -- looking ahead finds the parameter list and the body, and so the definition
  have hclass : classify feed.rest = .function opener.id term.id true := by
    have heq := hproto.classify_eq (.inl hterm) (tail ++ rest)
    rw [hterm] at heq
    rw [hfeed, hbody]
    simpa using heq
  rw [hclass]
  refine functionItem_accepts hproto (by rw [hbody]; rfl) hlexed.nodup ?_
  rw [if_pos rfl]
  exact hread

/-- A function without a body: the reader finds its parameter list and its `;`. -/
theorem accepted_prototype {last : Leaf}
    (hdeclares : Declares (name ++ opener :: (inner ++ closer :: (quals ++ last :: rest))))
    (hproto : Prototype (fun opener closer => opener.closer? = some closer) name opener inner
      closer quals)
    (hlast : last.kind = .semicolon) :
    Accepted .construct [.node .functionDecl (name.map .leaf
      ++ .node .functionParams ((opener :: (inner ++ [closer])).map .leaf)
      :: (quals.map .leaf ++ [.leaf last]))] rest := by
  obtain ⟨first, more, hname⟩ := List.exists_cons_of_ne_nil hproto.name_ne_nil
  have hleaves : (Branch.node .functionDecl (name.map .leaf
        ++ .node .functionParams ((opener :: (inner ++ [closer])).map .leaf)
        :: (quals.map .leaf ++ [.leaf last]))).leaves
      = name ++ opener :: (inner ++ closer :: (quals ++ [last])) := by simp
  refine Accepted.construct_declares first (by rw [hleaves]; simpa using hdeclares)
    (by rw [hleaves, hname]; rfl) fun hlexed depth hdepth => ?_
  rw [hleaves] at hlexed ⊢
  unfold declaration
  refine .read fun feed hfeed => ?_
  -- the look ahead finds the parts that the grammar names
  have hclass : classify feed.rest = .function opener.id last.id false := by
    have heq := hproto.classify_eq (.inr hlast) rest
    rw [hlast] at heq
    rw [hfeed]
    simpa [show (TokenKind.semicolon == TokenKind.lbrace) = false from rfl] using heq
  rw [hclass]
  refine functionItem_accepts hproto rfl hlexed.nodup ?_
  rw [if_neg Bool.false_ne_true]
  exact ⟨hlast, rfl⟩

/-- Rule: a declaration that is no function. -/
theorem accepted_statement (hfirst : (leavesAll parts).head? = some first)
    (hdeclares : Declares (leavesAll parts ++ rest))
    (hclass : classify (leavesAll parts ++ rest) = .statement)
    (ih : Accepted (.tail (isAggregate first)) parts rest) :
    Accepted .construct [.node .statement parts] rest := by
  refine Accepted.construct_declares first (by simpa using hdeclares) (by simpa using hfirst)
    fun hlexed depth hdepth => ?_
  rw [Branch.leaves_node] at hlexed hdepth ⊢
  obtain ⟨depth, rfl, hd⟩ := exists_depth hdepth
  obtain ⟨tail, hleaves⟩ := List.head?_eq_some_iff.mp hfirst
  have hread := ih hlexed depth (by simp only [Part.depth]; omega)
  unfold declaration
  refine .read fun feed hfeed => ?_
  rw [hfeed, hclass]
  rw [hleaves] at hread ⊢
  exact statement_accepts hread

/-- Rule: a linkage block, by the constructs in it. -/
theorem accepted_linkage (hfirst : first.text = "extern") (htag : tag.kind = .string)
    (ho : opener.kind = .lbrace) (hc : closer.kind = .rbrace)
    (ih : Accepted .items parts (closer :: rest)) : Accepted .item [.node .linkageBlock
      (.leaf first :: .leaf tag :: .leaf opener :: (parts ++ [.leaf closer]))] rest := by
  intro hlexed depth hdepth
  have hleaves : leavesAll [.node .linkageBlock
        (.leaf first :: .leaf tag :: .leaf opener :: (parts ++ [.leaf closer]))]
      = first :: tag :: opener :: (leavesAll parts ++ [closer]) := by simp
  rw [hleaves] at hlexed hdepth ⊢
  simp only [Part.depth, List.length_cons, List.length_append, List.length_nil] at hdepth
  obtain ⟨depth, rfl⟩ : ∃ d, depth = d + 2 := ⟨depth - 2, by omega⟩
  refine item_linkage hfirst htag ho hc ((ih ?_).1 (by simp) depth ?_)
  · simpa using hlexed.behind [first, tag, opener]
  · simp only [Part.depth]
    omega

/-- Rule: a construct at file scope that is no linkage block. -/
theorem accepted_construct (hlinkage : atLinkageBlock { rest := branch.leaves ++ rest } = false)
    (ih : Accepted .construct [branch] rest) : Accepted .item [branch] rest :=
  fun hlexed depth hdepth => ih hlexed (by simpa using hlinkage) depth hdepth

/-- Rule: no more constructs, before a closing brace or the end of the file. -/
theorem accepted_itemsEnd (hend : ∀ leaf ∈ rest.head?, leaf.kind = .rbrace) :
    Accepted .items [] rest := by
  refine fun _ => ⟨fun hne depth hdepth => ?_, fun _ feed count hfeed _ => ?_⟩
  · obtain ⟨closer, more, rfl⟩ := List.exists_cons_of_ne_nil hne
    rw [Branch.leavesAll_nil] at hdepth ⊢
    obtain ⟨depth, rfl, -⟩ := exists_depth hdepth
    rw [linkageItems]
    refine .peek ?_
    rw [List.nil_append, List.head?_cons, Option.map_some, hend closer rfl]
    exact .pure _ _
  · rw [Branch.leavesAll_nil] at hfeed
    cases count with
    | zero => rfl
    | succ count =>
      unfold parseFrom
      rw [hfeed]
      rfl

/-- One construct of a linkage block before others. -/
theorem linkageItems_accepts {depth : Nat} (hfirst : leaves.head? = some first)
    (hkind : first.kind ≠ .rbrace) (hitem : Accepts (item depth) leaves (name ++ rest))
    (hmore : Accepts (linkageItems depth) name rest) :
    Accepts (linkageItems (depth + 1)) (leaves ++ name) rest := by
  have hboth : Accepts (item depth >>= fun child => linkageItems depth >>= fun more =>
      pure (child :: more)) (leaves ++ name) rest :=
    .bind hitem fun _ => .before hmore fun _ => .pure _ _
  obtain ⟨tail, hleaves⟩ := List.head?_eq_some_iff.mp hfirst
  rw [linkageItems]
  refine .peek ?_
  rw [hleaves, List.cons_append, List.cons_append, List.head?_cons, Option.map_some,
    ← List.cons_append, ← hleaves]
  split
  · simp_all
  · exact absurd (Option.some.inj ‹_›) hkind
  · exact hboth

/-- One construct of a file before others. -/
theorem parseFrom_accepts {feed : Feed} {count : Nat} (hne : leaves ≠ [])
    (hitem : Accepts (item (depthBound feed.rest.length)) leaves rest)
    (hmore : ∀ feed' : Feed, feed'.rest = rest → (parseFrom count feed').error? = none)
    (hfeed : feed.rest = leaves ++ rest) : (parseFrom (count + 1) feed).error? = none := by
  have hsome : feed.rest.isEmpty = false := by
    rw [hfeed]
    simp [hne]
  obtain ⟨child, feed', hok, hrest⟩ := hitem feed hfeed
  unfold parseFrom
  rw [hsome, if_neg Bool.false_ne_true, hok]
  exact hmore feed' hrest

/-- Rule: one construct at file scope before others. -/
theorem accepted_itemsCons (hitem : Reads .item [branch] (leavesAll more ++ rest))
    (ih : Accepted .item [branch] (leavesAll more ++ rest)) (ih' : Accepted .items more rest) :
    Accepted .items (branch :: more) rest := by
  intro hlexed
  have hne := hitem.item_ne_nil
  have hpos := List.length_pos_iff.mpr hne
  rw [Branch.leavesAll_cons, List.append_assoc] at hlexed
  -- items are read in two loops, within a linkage block and over the whole file
  obtain ⟨hlinkage, hfile⟩ := ih' (hlexed.behind _)
  refine ⟨fun hrest depth hdepth => ?_, fun hrest feed count hfeed hcount => ?_⟩
  · rw [Branch.leavesAll_cons] at hdepth ⊢
    simp only [Part.depth, List.length_append] at hdepth
    obtain ⟨depth, rfl, hd⟩ := exists_depth hdepth
    obtain ⟨first, tail, hleaves⟩ := List.exists_cons_of_ne_nil hne
    have hhead : branch.leaves.head? = some first := by rw [hleaves]; rfl
    have hkind := hitem.item_head
      (fun leaf hleaf => hlexed.worded leaf (List.mem_append_left _ hleaf)) hhead
    refine linkageItems_accepts hhead hkind (ih.leaves_item hlexed (by omega))
      (hlinkage hrest depth ?_)
    simp only [Part.depth]
    omega
  · subst hrest
    rw [Branch.leavesAll_cons] at hfeed hcount
    rw [List.length_append] at hcount
    obtain ⟨count, rfl⟩ : ∃ n, count = n + 1 := ⟨count - 1, by omega⟩
    refine parseFrom_accepts hne (ih.leaves_item hlexed ?_)
      (fun feed' hfeed' => hfile rfl feed' count (by simpa using hfeed') (by omega))
      (by simpa using hfeed)
    rw [hfeed]
    simp only [depthBound, List.length_append]
    omega

end Rules

/-! ## §6. All that the grammar admits -/

/-- **All that the grammar admits** is read. -/
theorem Reads.accepted {part : Part} {branches : List Branch} {rest : List Leaf}
    (h : Reads part branches rest) : Accepted part branches rest := by
  induction h with
  | block ho hc _ ih => exact accepted_block ho hc ih
  | bodyEnd hc => exact accepted_bodyEnd hc
  | bodyDirective hdir _ ih => exact accepted_bodyDirective hdir ih
  | bodyBlock hblock _ ih ih' => exact accepted_bodyBlock hblock ih ih'
  | bodyLone hk _ ih => exact accepted_bodyLone hk ih
  | bodyStatement hfirst hkind _ _ ih ih' => exact accepted_bodyStatement hfirst hkind ih ih'
  | tailEnd hend => exact accepted_tailEnd hend
  | tailSemicolon hk => exact accepted_tailSemicolon hk
  | tailBlock hblock ih => exact accepted_tailBlock hblock ih
  | tailBlockOn hblock _ ih ih' => exact accepted_tailBlockOn hblock ih ih'
  | tailGroup hgroup hopener hk _ ih => exact accepted_tailGroup hgroup hopener hk ih
  | tailAssign hk _ ih => exact accepted_tailAssign hk ih
  | tailWord hplain _ ih => exact accepted_tailWord hplain ih
  | struct hfirst hblock ih => exact accepted_struct hfirst hblock ih
  | structTagged hfirst htag hblock ih => exact accepted_structTagged hfirst htag hblock ih
  | directive hdir => exact accepted_directive hdir
  | lone hk => exact accepted_lone hk
  | typedef hk hplain _ ih => exact accepted_typedef hk hplain ih
  | typedefStruct hk hstruct hnames ih => exact accepted_typedefStruct hk hstruct hnames ih
  | structDecl hk htag hlast => exact accepted_structDecl hk htag hlast
  | structDefn hstruct hnames ih => exact accepted_structDefn hstruct hnames ih
  | definition hdeclares hproto hblock ih => exact accepted_definition hdeclares hproto hblock ih
  | prototype hdeclares hproto hlast => exact accepted_prototype hdeclares hproto hlast
  | statement hfirst hdeclares hclass _ ih => exact accepted_statement hfirst hdeclares hclass ih
  | linkage hfirst hname ho hc _ ih => exact accepted_linkage hfirst hname ho hc ih
  | construct hlinkage _ ih => exact accepted_construct hlinkage ih
  | itemsEnd hend => exact accepted_itemsEnd hend
  | itemsCons hitem _ ih ih' => exact accepted_itemsCons hitem ih ih'

/-- **A file has an outline** if and only if the grammar admits its leaves. -/
theorem parse_iff {leaves : List Leaf} (h : Lexed leaves) :
    (parse leaves).error? = none
      ↔ ∃ branches, leavesAll branches = leaves ∧ Reads .items branches [] := by
  constructor
  · intro hnone
    obtain ⟨branches, hleaves, -, hreads⟩ := parse_reads h.nodup hnone
    exact ⟨branches, hleaves, hreads⟩
  · rintro ⟨branches, rfl, hreads⟩
    exact (hreads.accepted (by simpa using h)).2 rfl { rest := leavesAll branches } _ rfl
      (Nat.le_refl _)

end KernelPrep.Outline
