/-
  KernelPrep.Proofs.Outline.Lookahead — reading a function that was seen by looking ahead.

  Looking ahead counts the delimiters that are open and does not tell their kinds apart; the
  reader of a function keeps a list of those that are to close.  The two agree all the same.
  Over leaves that are level for the one, the other either passes too, and then all of them
  are nested, or it stops at a delimiter that closes one of another kind.  So the reader of
  a function comes to the token that the look-ahead found, or stops before it.

  Main definitions:
    * `Outline.Clash`        — a delimiter closes one of another kind;
    * `Outline.functionBody` — a function behind the `{` of its body.

  Main statements:
    * `Outline.Nests.level`, `Outline.Nests.enclosed` — level leaves are passed, or they clash;
    * `Outline.qualifiersFrom_cases` — what stands between parameter list and body;
    * `TokenList.function_lookahead` — the reader of a function ends where was looked ahead.
-/
import KernelPrep.Proofs.Outline.Derivation
import KernelPrep.Proofs.Outline.Leaves

namespace KernelPrep

namespace Outline

open Step (bind_of_ok bind_of_error bind_get)

/-! ## §1. Delimiters of the wrong kind -/

/-- Behind `before` the delimiter `expected` is the next to close, `pending` being left to be
    closed before all leaves; but the leaf `bad` closes another kind. -/
structure Clash (pending : List TokenKind) (leaves before : List Leaf) (bad : Leaf)
    (expected : TokenKind) (after : List Leaf) : Prop where
  split : leaves = before ++ bad :: after
  isOpen : ∃ outer, nestAll pending before = .ok (expected :: outer)
  closes : bad.kind.isCloser = true
  wrong : bad.kind ≠ expected

section Clash

variable {pending pending' : List TokenKind} {leaves more before after : List Leaf} {bad : Leaf}
  {expected : TokenKind}

/-- A clash stays one when leaves are put behind. -/
theorem Clash.extend (h : Clash pending leaves before bad expected after) (more : List Leaf) :
    Clash pending (leaves ++ more) before bad expected (after ++ more) :=
  ⟨by rw [h.split, List.append_assoc, List.cons_append], h.isOpen, h.closes, h.wrong⟩

/-- A clash stays one when leaves are put before, which leave to be closed what was pending. -/
theorem Clash.prepend (h : Clash pending leaves before bad expected after)
    (hmore : nestAll pending' more = .ok pending) :
    Clash pending' (more ++ leaves) (more ++ before) bad expected after := by
  obtain ⟨outer, houter⟩ := h.isOpen
  refine ⟨by rw [h.split, List.append_assoc], ⟨outer, ?_⟩, h.closes, h.wrong⟩
  rw [nestAll_append, hmore]
  exact houter

/-- The fault that is found at the leaf. -/
theorem Clash.nest_eq (h : Clash pending leaves before bad expected after)
    (outer : List TokenKind) :
    nest (expected :: outer) bad.kind = .error (.unexpected bad.kind expected) := by
  have hopener : bad.kind.closer? = none := by
    apply closer?_eq_none.mpr
    cases ho : bad.kind.isOpener with
    | false => rfl
    | true => exact (not_opener_closer ho h.closes).elim
  unfold nest
  rw [hopener, h.closes]
  simp [h.wrong.symm]

end Clash

/-! ## §2. Level leaves, read with an eye on the kinds -/

section Nests

variable {ρ : Type} {read : List TokenKind → Option Leaf → List Leaf → ρ} {good : ρ → Prop}

/-- **Level leaves** are nested, or a delimiter among them clashes and the reading comes to
    it. -/
theorem Nests.level (h : Nests read good) {leaves : List Leaf} (hlevel : Level leaves)
    (kind : TokenKind) (pending : List TokenKind) (last? : Option Leaf) (rest : List Leaf) :
    Nested leaves ∨ ∃ before bad after expected outer,
      Clash (kind :: pending) leaves before bad expected after
      ∧ nestAll (kind :: pending) before = .ok (expected :: outer)
      ∧ read (kind :: pending) last? (leaves ++ rest)
        = read (expected :: outer) (before.getLast?.or last?) (bad :: (after ++ rest)) := by
  -- along the pairs that the look-ahead sees
  induction hlevel generalizing kind pending last? rest with
  | nil => exact .inl .nil
  | @plain leaf more hplain _ ih =>
    rcases ih kind pending (some leaf) rest with
      hnested | ⟨before, bad, after, expected, outer, hclash, hopen, hread⟩
    · exact .inl (.plain hplain hnested)
    · have hone : nestAll (kind :: pending) [leaf] = .ok (kind :: pending) := by
        rw [nestAll_cons, nest_plain hplain]
        rfl
      refine .inr ⟨leaf :: before, bad, after, expected, outer, hclash.prepend hone, ?_, ?_⟩
      · rw [nestAll_cons, nest_plain hplain]
        exact hopen
      · rw [List.cons_append, h.step (nest_plain hplain _), hread, getLast?_cons_or]
  | @group opener closer inner more ho hc _ _ _ ih ih' =>
    obtain ⟨kind', hkind'⟩ := exists_closer? ho
    have hopener : ∀ leaves, nestAll (kind :: pending) (opener :: leaves)
        = nestAll (kind' :: kind :: pending) leaves := by
      intro leaves
      rw [nestAll_cons, nest_opener hkind']
      rfl
    rw [List.cons_append, List.append_assoc, List.cons_append, h.step (nest_opener hkind' _)]
    rcases ih kind' (kind :: pending) (some opener) (closer :: (more ++ rest)) with
      hinner | ⟨before, bad, after, expected, outer, hclash, hopen, hread⟩
    · rw [h.pass hinner]
      by_cases hfits : closer.kind = kind'
      · -- the pair fits, and the leaves behind it decide
        subst hfits
        have hgroup : Nested (opener :: (inner ++ [closer])) := hinner.enclose ho hc hkind'
        have hpair := hgroup.nestAll (kind :: pending)
        rcases ih' kind pending (some closer) rest with
          hmore | ⟨before, bad, after, expected, outer, hclash, hopen, hread⟩
        · exact .inl (.group ho hc hkind' hinner hmore)
        · refine .inr ⟨opener :: (inner ++ [closer]) ++ before, bad, after, expected, outer,
            by simpa using hclash.prepend hpair, ?_, ?_⟩
          · rw [nestAll_append, hpair]
            exact hopen
          · rw [h.step (nest_closer hc _), hread]
            simp [List.getLast?_append, List.getLast?_cons]
      · -- the closing delimiter itself is of the wrong kind
        have hopen : nestAll (kind :: pending) (opener :: inner)
            = .ok (kind' :: kind :: pending) := by
          rw [hopener]
          exact hinner.nestAll _
        refine .inr ⟨opener :: inner, closer, more, kind', kind :: pending,
          ⟨by simp, ⟨_, hopen⟩, hc, hfits⟩, hopen, ?_⟩
        rw [getLast?_cons_or]
    · -- a delimiter between the two is
      have hone : nestAll (kind :: pending) [opener] = .ok (kind' :: kind :: pending) :=
        hopener []
      refine .inr ⟨opener :: before, bad, after ++ closer :: more, expected, outer, ?_, ?_, ?_⟩
      · have hall := (hclash.extend (closer :: more)).prepend hone
        simpa using hall
      · rw [hopener]
        exact hopen
      · rw [hread, getLast?_cons_or]
        simp

/-- Level leaves and the delimiter that closes behind them. -/
theorem Nests.enclosed (h : Nests read good) {inner : List Leaf} (hlevel : Level inner)
    {closer : Leaf} (hc : closer.kind.isCloser = true) (kind : TokenKind) (last? : Option Leaf)
    (rest : List Leaf) :
    (Nested inner ∧ closer.kind = kind
      ∧ read [kind] last? (inner ++ closer :: rest)
        = read [kind] (inner.getLast?.or last?) (closer :: rest))
    ∨ ∃ before bad after expected outer, Clash [kind] (inner ++ [closer]) before bad expected after
      ∧ read [kind] last? (inner ++ closer :: rest)
        = read (expected :: outer) (before.getLast?.or last?) (bad :: (after ++ rest)) := by
  rcases h.level hlevel kind [] last? (closer :: rest) with
    hinner | ⟨before, bad, after, expected, outer, hclash, -, hread⟩
  · by_cases hfits : closer.kind = kind
    · exact .inl ⟨hinner, hfits, h.pass hinner ..⟩
    · exact .inr ⟨inner, closer, [], kind, [],
        ⟨rfl, ⟨_, hinner.nestAll _⟩, hc, hfits⟩, h.pass hinner ..⟩
  · refine .inr ⟨before, bad, after ++ [closer], expected, outer, hclash.extend [closer], ?_⟩
    rw [hread]
    simp

end Nests

theorem groupFrom_stuck {opened : Nat} {pending : List TokenKind} {last? : Option Leaf}
    {leaf : Leaf} {rest : List Leaf} {fault : ParseFault}
    (h : nest pending leaf.kind = .error fault) :
    groupFrom opened pending last? (leaf :: rest)
      = .error ⟨leaf.line, fault⟩ { rest := leaf :: rest, last?, opened } := by
  unfold groupFrom
  rw [h]

theorem qualifiersFrom_stuck {opened : Nat} {terminator : TokenId} {kind : TokenKind}
    {pending : List TokenKind} {last? : Option Leaf} {leaf : Leaf} {rest : List Leaf}
    {fault : ParseFault} (h : nest (kind :: pending) leaf.kind = .error fault) :
    qualifiersFrom opened terminator (kind :: pending) last? (leaf :: rest)
      = .error ⟨leaf.line, fault⟩ { rest := leaf :: rest, last?, opened } := by
  unfold qualifiersFrom
  simp only [List.isEmpty_cons, Bool.false_and, Bool.false_eq_true, if_false, h]
  rfl

/-- **A group that is level** is read when it is nested; else the reading stops at a delimiter
    of the wrong kind in it. -/
theorem skipGroup_cases {feed : Feed} {opener closer : Leaf} {inner rest : List Leaf}
    (hrest : feed.rest = opener :: (inner ++ closer :: rest)) (ho : opener.kind.isOpener = true)
    (hinner : Level inner) (hc : closer.kind.isCloser = true) :
    (opener.kind.closer? = some closer.kind ∧ Nested inner
      ∧ skipGroup feed = .ok () { rest, last? := some closer, opened := feed.opened })
    ∨ ∃ before bad after expected last?,
      Clash [] (opener :: (inner ++ [closer])) before bad expected after
      ∧ skipGroup feed = .error ⟨bad.line, .unexpected bad.kind expected⟩
          { rest := bad :: (after ++ rest), last?, opened := feed.opened } := by
  obtain ⟨kind, hkind⟩ := exists_closer? ho
  have hread : skipGroup feed
      = groupFrom feed.opened [kind] (some opener) (inner ++ closer :: rest) := by
    unfold skipGroup
    rw [hrest]
    conv_lhs => unfold groupFrom
    rw [nest_opener hkind]
  have hone : nestAll [] [opener] = .ok [kind] := by
    rw [nestAll_cons, nest_opener hkind]
    rfl
  rcases (nests_groupFrom feed.opened).enclosed hinner hc kind (some opener) rest with
    ⟨hnested, rfl, hpass⟩ | ⟨before, bad, after, expected, outer, hclash, hpass⟩
  · refine .inl ⟨hkind, hnested, ?_⟩
    rw [hread, hpass, groupFrom_closer hc]
  · refine .inr ⟨opener :: before, bad, after, expected, before.getLast?.or (some opener),
      hclash.prepend hone, ?_⟩
    rw [hread, hpass, groupFrom_stuck (hclash.nest_eq outer)]

/-- **What stands behind a parameter list** is read up to the token that ends the head of the
    function, or the reading stops at a delimiter of the wrong kind before it. -/
theorem qualifiersFrom_cases {opened : Nat} {term : Leaf} {last? : Option Leaf}
    {quals rest : List Leaf} (hquals : Quals (fun _ _ => True) quals)
    (hids : ∀ leaf ∈ quals, leaf.id ≠ term.id) :
    (Nested quals ∧ qualifiersFrom opened term.id [] last? (quals ++ term :: rest)
        = .ok () { rest := term :: rest, last? := quals.getLast?.or last?, opened })
    ∨ ∃ before bad after expected last?', Clash [] quals before bad expected after
      ∧ qualifiersFrom opened term.id [] last? (quals ++ term :: rest)
        = .error ⟨bad.line, .unexpected bad.kind expected⟩
            { rest := bad :: (after ++ term :: rest), last? := last?', opened } := by
  induction hquals generalizing last? with
  | nil => exact .inl ⟨.nil, qualifiersFrom_end⟩
  -- a word changes nothing about what is pending
  | @word leaf more hk _ ih =>
    have hplain : leaf.kind.isDelimiter = false := by
      rw [hk]
      rfl
    have hone : nestAll [] [leaf] = .ok [] := by
      rw [nestAll_cons, nest_plain hplain]
      rfl
    rw [List.cons_append, qualifiersFrom_word (hids leaf List.mem_cons_self) hk]
    rcases @ih (some leaf) (fun x hx => hids x (List.mem_cons_of_mem _ hx)) with
      ⟨hmore, hread⟩ | ⟨before, bad, after, expected, last?', hclash, hread⟩
    · refine .inl ⟨.plain hplain hmore, ?_⟩
      rw [hread, getLast?_cons_or]
    · exact .inr ⟨leaf :: before, bad, after, expected, last?', hclash.prepend hone, hread⟩
  | @group opener closer inner more hk hc _ hinner _ ih =>
    obtain ⟨kind, hkind⟩ := closer?_of_bracket hk
    have hone : nestAll [] [opener] = .ok [kind] := by
      rw [nestAll_cons, nest_opener hkind]
      rfl
    rw [List.cons_append, List.append_assoc, List.cons_append,
      qualifiersFrom_opener (hids opener List.mem_cons_self) hk hkind]
    -- within the group the reader keeps its pending closers, or gets stuck at a clash
    rcases (nests_qualifiersFrom opened term.id).enclosed hinner hc kind (some opener)
        (more ++ term :: rest) with
      ⟨hnested, rfl, hpass⟩ | ⟨before, bad, after, expected, outer, hclash, hpass⟩
    · -- the group is nested, and what is behind it decides
      have hgroup : Nested (opener :: (inner ++ [closer])) :=
        hnested.enclose (closer?_isCloser hkind).1 hc hkind
      rw [hpass, qualifiersFrom_closer hc]
      rcases @ih (some closer) (fun x hx => hids x (by simp [hx])) with
        ⟨hmore, hread⟩ | ⟨before, bad, after, expected, last?', hclash, hread⟩
      · refine .inl ⟨.group (closer?_isCloser hkind).1 hc hkind hnested hmore, ?_⟩
        rw [hread]
        simp [List.getLast?_append, List.getLast?_cons]
      · exact .inr ⟨_, bad, after, expected, last?',
          by simpa using hclash.prepend (hgroup.nestAll []), hread⟩
    -- the clash within the group is one of the whole
    · refine .inr ⟨opener :: before, bad, after ++ more, expected,
        before.getLast?.or (some opener), ?_, ?_⟩
      · simpa using (hclash.prepend hone).extend more
      · rw [hpass, qualifiersFrom_stuck (hclash.nest_eq outer)]
        simp

/-! ## §3. The reader of a function -/

/-- A block behind its `{`, which is `brace`: the statements and the `}`. -/
def blockFrom (depth : Nat) (brace : Leaf) : Reading Skeleton := do
  let children ← blockItems depth
  let _ ← expect .rbrace
  return Skeleton.node .statementBlock (← rangeFrom brace) children

/-- A function behind the `{` of its body, which is `brace`.  The function begins with `first`,
    and `params` is its parameter list. -/
def functionBody (depth : Nat) (first brace : Leaf) (params : Skeleton) : Reading Skeleton := do
  let body ← blockFrom depth brace
  return Skeleton.node .functionDefn (← rangeFrom first) [params, body]

theorem expect_next {feed : Feed} {leaf : Leaf} {rest : List Leaf} {kind : TokenKind}
    (hrest : feed.rest = leaf :: rest) (hk : leaf.kind = kind) :
    expect kind feed = .ok leaf { rest, last? := some leaf, opened := feed.opened } := by
  unfold expect Feed.bump
  rw [hrest]
  exact if_pos hk

/-- A block whose `{` is next begins with it. -/
theorem block_brace (depth : Nat) {feed : Feed} {brace : Leaf} {rest : List Leaf}
    (hrest : feed.rest = brace :: rest) (hk : brace.kind = .lbrace) :
    block (depth + 1) feed
      = blockFrom depth brace { rest, last? := some brace, opened := feed.opened + 1 } := by
  rw [block, bind_of_ok (expect_next hrest hk)]
  rfl

/-- Handles tell the parameter list, and the end of the head, from what is before them. -/
theorem ids_of_nodup {name inner quals rest : List Leaf} {opener closer term : Leaf}
    (h : ((name ++ opener :: (inner ++ closer :: (quals ++ term :: rest))).map (·.id)).Nodup) :
    (∀ leaf ∈ name, leaf.id ≠ opener.id) ∧ ∀ leaf ∈ quals, leaf.id ≠ term.id := by
  simp only [List.map_append, List.map_cons, List.nodup_append, List.nodup_cons, List.mem_map,
    List.mem_append, List.mem_cons] at h
  constructor
  · intro leaf hleaf he
    exact h.2.2 _ ⟨leaf, hleaf, rfl⟩ _ (Or.inl rfl) he
  · intro leaf hleaf he
    exact h.2.1.2.2.1.2.2.2 _ ⟨leaf, hleaf, rfl⟩ _ (Or.inl rfl) he

/-- **The head of a function** that looking ahead has found is read to its end, or the reading
    stops at a delimiter of the wrong kind in it. -/
theorem functionItem_cases {feed : Feed} {first opener closer term : Leaf}
    {name inner quals rest : List Leaf}
    (hrest : feed.rest = first :: name ++ opener :: (inner ++ closer :: (quals ++ term :: rest)))
    (hproto : Prototype (fun _ _ => True) (first :: name) opener inner closer quals)
    (hnodup : (feed.rest.map (·.id)).Nodup) (depth : Nat) (body : Bool)
    (hterm : term.kind = .lbrace ∧ body = true ∨ term.kind = .semicolon ∧ body = false) :
    (∃ before bad after expected feed',
      Clash [] (opener :: (inner ++ closer :: quals)) before bad expected after
      ∧ feed'.rest = bad :: (after ++ term :: rest)
      ∧ functionItem (depth + 1) opener.id term.id body feed
        = .error ⟨bad.line, .unexpected bad.kind expected⟩ feed')
    ∨ (closer.kind = .rparen ∧ Nested inner ∧ Nested quals
      ∧ functionItem (depth + 1) opener.id term.id body feed
        = if body then
            functionBody depth first term (.leaf .functionParams ⟨opener.id, closer.id⟩)
              { rest, last? := some term, opened := feed.opened + 3 }
          else
            .ok (.node .functionDecl ⟨first.id, term.id⟩
                [.leaf .functionParams ⟨opener.id, closer.id⟩])
              { rest, last? := some term, opened := feed.opened + 2 }) := by
  rw [hrest] at hnodup
  obtain ⟨hname, hquals⟩ := ids_of_nodup hnodup
  have ho : opener.kind.isOpener = true := by
    rw [hproto.paren]
    rfl
  have hfirst : firstLeaf .lparen feed = .ok first feed := by
    unfold firstLeaf
    rw [hrest]
    rfl
  -- the name is passed up to the handle of the parenthesis
  obtain ⟨-, hparams⟩ := @bumpWhile_id
    { rest := feed.rest, last? := feed.last?, opened := feed.opened + 1 } _ _ _ hrest hname
  unfold functionItem
  rw [bind_of_ok hfirst, bind_of_ok (x := openNode) rfl, bind_of_ok (x := modify _) rfl]
  rcases skipGroup_cases hparams ho hproto.between hproto.closes with
    ⟨hpair, hinner, hgroup⟩ | ⟨before, bad, after, expected, last?, hclash, hgroup⟩
  · rw [bind_of_ok hgroup, bind_get, bind_of_ok (x := openNode) rfl]
    have hcloser : closer.kind = .rparen := by
      rw [hproto.paren] at hpair
      exact (Option.some.inj hpair).symm
    let feed' : Feed :=
      { rest := quals ++ term :: rest, last? := some closer, opened := feed.opened + 2 }
    rcases @qualifiersFrom_cases feed'.opened term (some closer) quals rest hproto.behind hquals
      with
      ⟨hnested, hread⟩ | ⟨before, bad, after, expected, last?, hclash, hread⟩
    · apply Or.inr
      refine ⟨hcloser, hinner, hnested, ?_⟩
      refine (bind_of_ok (x := qualifiers term.id) (s := feed') hread).trans ?_
      rcases hterm with ⟨hk, rfl⟩ | ⟨hk, rfl⟩
      · -- the block begins with the token that was found
        show EStateM.bind _ _ _ = EStateM.bind _ _ _
        unfold EStateM.bind
        rw [block_brace depth rfl hk]
        rfl
      · rw [if_neg (by simp), bind_of_ok (expect_next rfl hk)]
        rfl
    · apply Or.inl
      have hlist : Nested (opener :: (inner ++ [closer])) :=
        hinner.enclose ho hproto.closes hpair
      refine ⟨opener :: (inner ++ [closer]) ++ before, bad, after, expected,
        { rest := bad :: (after ++ term :: rest), last?, opened := feed'.opened }, ?_, rfl, ?_⟩
      · simpa using hclash.prepend (hlist.nestAll [])
      · exact bind_of_error (x := qualifiers term.id) (s := feed') hread
  · apply Or.inl
    rw [bind_of_error hgroup]
    refine ⟨before, bad, after ++ quals, expected, _, ?_, ?_, rfl⟩
    · simpa using hclash.extend quals
    · simp

end Outline

open Outline in
/-- **Looking ahead and reading agree.**  Where a declaration is told to be a function, its
    leaves are a name, a parameter list, qualifiers and the token `terminator`.  The reader of
    the function stops before that token, at a delimiter that closes one of another kind; or it
    makes the parameter list a node of its own, comes to that token, and goes on with the body
    that begins with it or ends with it. -/
theorem TokenList.function_lookahead {list : TokenList} (hlist : list.WellFormed) {feed : Feed}
    (hfeed : feed.rest <:+ list.leaves) {params terminator : TokenId} {body : Bool}
    (hshape : classify feed.rest = .function params terminator body) (depth : Nat) :
    ∃ first name opener inner closer quals term rest,
      feed.rest = first :: name ++ opener :: (inner ++ closer :: (quals ++ term :: rest))
      ∧ opener.id = params ∧ opener.kind = .lparen ∧ closer.kind.isCloser = true
      ∧ term.id = terminator
      ∧ (term.kind = .lbrace ∧ body = true ∨ term.kind = .semicolon ∧ body = false)
      ∧ ((∃ before bad after expected feed',
          Clash [] (opener :: (inner ++ closer :: quals)) before bad expected after
          ∧ feed'.rest = bad :: (after ++ term :: rest)
          ∧ functionItem (depth + 1) params terminator body feed
            = .error ⟨bad.line, .unexpected bad.kind expected⟩ feed')
        ∨ (closer.kind = .rparen ∧ Nested inner ∧ Nested quals
          ∧ functionItem (depth + 1) params terminator body feed
            = if body then
                functionBody depth first term (.leaf .functionParams ⟨params, closer.id⟩)
                  { rest, last? := some term, opened := feed.opened + 3 }
              else
                .ok (.node .functionDecl ⟨first.id, terminator⟩
                    [.leaf .functionParams ⟨params, closer.id⟩])
                  { rest, last? := some term, opened := feed.opened + 2 })) := by
  obtain ⟨name, opener, inner, closer, quals, term, rest, hrest, hproto, rfl, rfl, hterm⟩ :=
    classify_inv hshape
  obtain ⟨first, name, rfl⟩ := List.exists_cons_of_ne_nil hproto.name_ne_nil
  have hnodup : (feed.rest.map (·.id)).Nodup :=
    (TokenList.leaves_nodup hlist.threaded).sublist (hfeed.sublist.map _)
  exact ⟨first, name, opener, inner, closer, quals, term, rest, hrest, rfl, hproto.paren,
    hproto.closes, rfl, hterm, functionItem_cases hrest hproto hnodup depth body hterm⟩

open Outline in
/-- A prototype: it ends with the `;` that looking ahead has found. -/
theorem TokenList.function_lookahead_prototype :
    ∃ list, TokenList.lex "int f(int a);" = .ok list
      ∧ classify list.leaves = .function ⟨3⟩ ⟨8⟩ false
      ∧ ∃ first closer feed, functionItem 1 ⟨3⟩ ⟨8⟩ false { rest := list.leaves }
          = .ok (.node .functionDecl ⟨first, ⟨8⟩⟩ [.leaf .functionParams ⟨⟨3⟩, closer⟩]) feed := by
  have heval : (TokenList.lex "int f(int a);").toOption.map
      (fun list => (classify list.leaves,
        match functionItem 1 ⟨3⟩ ⟨8⟩ false { rest := list.leaves } with
        | .ok _ _ => true
        | .error _ _ => false))
      = some (.function ⟨3⟩ ⟨8⟩ false, true) := by decide +kernel
  obtain ⟨list, hlex, hboth⟩ := Step.toOption_map_eq_some.mp heval
  obtain ⟨hshape, hread⟩ := Prod.mk.inj hboth
  obtain ⟨first, name, opener, inner, closer, quals, term, rest, -, -, -, -, -, -,
    ⟨before, bad, after, expected, feed', -, -, herror⟩ | ⟨-, -, -, hdone⟩⟩ :=
    @TokenList.function_lookahead list (TokenList.lex_unedited hlex).wellFormed
      { rest := list.leaves } (List.suffix_refl _) _ _ _ hshape 0
  · rw [herror] at hread
    exact Bool.noConfusion hread
  · exact ⟨list, hlex, hshape, first.id, closer.id, _, hdone⟩

end KernelPrep
