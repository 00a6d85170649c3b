/-
  KernelPrep.Proofs.Outline.Lockstep — reading two files in lockstep.

  Two files whose leaves correspond are read in the same way: each reader, started on feeds that
  correspond, goes through on both with results that correspond, or fails on both with the same
  error.  A reader looks at the kinds, texts and lines of leaves, and compares handles only with
  one another.  Where lines start it looks at behind a `#` only.

  Main definitions:
    * `Pairing`          — which tokens of two files correspond;
    * `Leaf.Alike`, `Outline.Feed.Alike`, `Skeleton.Alike`
                         — what is the same but for handles of tokens;
    * `Outline.Tracks`   — readings that end alike on feeds that are alike.

  Main statements:
    * `Outline.Tracks.bind`     — one reading after another;
    * `Outline.classifyFrom_alike` — looking ahead;
    * `Outline.nest_tracks`, `Outline.item_tracks` — the readers that call each other;
    * `Outline.parse_alike`     — whole files.
-/
import Mathlib.Data.List.Forall2
import KernelPrep.Outline.Parse

namespace KernelPrep

/-! ## §1. What corresponds -/

/-- Tokens of two files that correspond, none of them to two others.  `lines` tells whether the
    line ends of the files correspond too. -/
structure Pairing where
  pairs : TokenId → TokenId → Prop
  unique : ∀ {a b a' b' : TokenId}, pairs a a' → pairs b b' → (a = b ↔ a' = b')
  lines : Bool

variable {p : Pairing}

/-- Leaves that differ in their handles.  Where the line ends do not correspond none of them may
    start a directive. -/
structure Leaf.Alike (p : Pairing) (leaf leaf' : Leaf) : Prop where
  id : p.pairs leaf.id leaf'.id
  kind : leaf.kind = leaf'.kind
  text : leaf.text = leaf'.text
  line : leaf.line = leaf'.line
  startsLine : p.lines = true → leaf.startsLine = leaf'.startsLine
  no_hash : p.lines = false → leaf.kind ≠ .hash

/-- The ends of the ranges correspond. -/
structure TokenRange.Alike (p : Pairing) (range range' : TokenRange) : Prop where
  first : p.pairs range.first range'.first
  last : p.pairs range.last range'.last

namespace Skeleton

mutual

/-- Skeletons of one shape over corresponding tokens. -/
def Alike (p : Pairing) : Skeleton → Skeleton → Prop
  | .node kind range children, .node kind' range' children' =>
    kind = kind' ∧ range.Alike p range' ∧ AlikeAll p children children'

/-- Rows of such skeletons. -/
def AlikeAll (p : Pairing) : List Skeleton → List Skeleton → Prop
  | [], [] => True
  | s :: rest, s' :: rest' => Alike p s s' ∧ AlikeAll p rest rest'
  | _, _ => False

end

/-- Nodes over corresponding ranges, whose children are alike. -/
theorem alike_node {kind : NodeKind} {range range' : TokenRange}
    {children children' : List Skeleton} (h : range.Alike p range')
    (hall : AlikeAll p children children') :
    Alike p (.node kind range children) (.node kind range' children') := by
  unfold Alike
  exact ⟨rfl, h, hall⟩

theorem alikeAll_nil : AlikeAll p [] [] := by
  unfold AlikeAll
  trivial

/-- One more skeleton in front of a row. -/
theorem alikeAll_cons {s s' : Skeleton} {rest rest' : List Skeleton} (h : Alike p s s')
    (hrest : AlikeAll p rest rest') : AlikeAll p (s :: rest) (s' :: rest') := by
  unfold AlikeAll
  exact ⟨h, hrest⟩

/-- One row behind another. -/
theorem alikeAll_append {ss ss' more more' : List Skeleton} (h : AlikeAll p ss ss')
    (hmore : AlikeAll p more more') : AlikeAll p (ss ++ more) (ss' ++ more') := by
  induction ss generalizing ss' with
  | nil =>
    cases ss' with
    | nil => exact hmore
    | cons s' rest' => simp [AlikeAll] at h
  | cons s rest ih =>
    cases ss' with
    | nil => simp [AlikeAll] at h
    | cons s' rest' =>
      unfold AlikeAll at h
      exact alikeAll_cons h.1 (ih h.2)

/-- Skeletons without children. -/
theorem alike_leaf {kind : NodeKind} {range range' : TokenRange} (h : range.Alike p range') :
    Alike p (.leaf kind range) (.leaf kind range') := alike_node h alikeAll_nil

end Skeleton

namespace Outline

open Skeleton (alike_node alike_leaf alikeAll_nil alikeAll_cons alikeAll_append)

/-- Feeds with corresponding leaves, and as many nodes begun. -/
structure Feed.Alike (p : Pairing) (feed feed' : Feed) : Prop where
  rest : List.Forall₂ (Leaf.Alike p) feed.rest feed'.rest
  last : Option.Rel (Leaf.Alike p) feed.last? feed'.last?
  opened : feed.opened = feed'.opened

/-! ## §2. Two readings -/

/-- Outcomes that correspond: results that do, or the same error. -/
def Agree {α β : Type} (p : Pairing) (rel : α → β → Prop) :
    EStateM.Result ParseError Feed α → EStateM.Result ParseError Feed β → Prop
  | .ok a feed, .ok b feed' => rel a b ∧ feed.Alike p feed'
  | .error error feed, .error error' feed' => error = error' ∧ feed.Alike p feed'
  | _, _ => False

/-- **Two readings in lockstep**: on feeds that are alike they end alike. -/
def Tracks {α β : Type} (p : Pairing) (rel : α → β → Prop) (x : Reading α) (y : Reading β) :
    Prop :=
  ∀ feed feed', feed.Alike p feed' → Agree p rel (x feed) (y feed')

section Readings

variable {α β γ δ : Type} {rel : α → β → Prop} {rel' : γ → δ → Prop}

/-- Readings that only return values. -/
theorem Tracks.pure {a : α} {b : β} (h : rel a b) :
    Tracks p rel (Pure.pure a) (Pure.pure b) := fun _ _ hfeed => ⟨h, hfeed⟩

/-- **One reading after another.** -/
theorem Tracks.bind {x : Reading α} {y : Reading β} {k : α → Reading γ} {l : β → Reading δ}
    (h : Tracks p rel x y) (hnext : ∀ a b, rel a b → Tracks p rel' (k a) (l b)) :
    Tracks p rel' (x >>= k) (y >>= l) := by
  intro feed feed' hfeed
  have hfirst := h feed feed' hfeed
  show Agree p rel' (EStateM.bind x k feed) (EStateM.bind y l feed')
  unfold EStateM.bind
  cases hx : x feed with
  | ok a mid =>
    cases hy : y feed' with
    | ok b mid' =>
      rw [hx, hy] at hfirst
      exact hnext a b hfirst.1 mid mid' hfirst.2
    | error error' mid' =>
      rw [hx, hy] at hfirst
      exact hfirst.elim
  | error error mid =>
    cases hy : y feed' with
    | ok b mid' =>
      rw [hx, hy] at hfirst
      exact hfirst.elim
    | error error' mid' =>
      rw [hx, hy] at hfirst
      exact hfirst

/-- Looking at the feeds. -/
theorem get_tracks : Tracks p (Feed.Alike p) get get := fun _ _ hfeed => ⟨hfeed, hfeed⟩

/-- Changing the feeds, by changes that keep them alike. -/
theorem modify_tracks {f g : Feed → Feed}
    (h : ∀ feed feed', feed.Alike p feed' → (f feed).Alike p (g feed')) :
    Tracks p (fun _ _ => True) (modify f) (modify g) := fun feed feed' hfeed =>
  ⟨trivial, h feed feed' hfeed⟩

end Readings

/-- Rows that correspond begin with leaves that do. -/
theorem head?_alike {rest rest' : List Leaf} (h : List.Forall₂ (Leaf.Alike p) rest rest') :
    Option.Rel (Leaf.Alike p) rest.head? rest'.head? := by
  cases h with
  | nil => exact .none
  | cons hleaf hrest => exact .some hleaf

/-- Leaves are passed over alike as long as the two conditions agree. -/
theorem dropWhile_alike {rest rest' : List Leaf} {last? last?' : Option Leaf}
    (hrest : List.Forall₂ (Leaf.Alike p) rest rest')
    (hlast : Option.Rel (Leaf.Alike p) last? last?') {f g : Leaf → Bool}
    (hsame : ∀ leaf leaf', leaf.Alike p leaf' → f leaf = g leaf') :
    List.Forall₂ (Leaf.Alike p) (rest.dropWhile f) (rest'.dropWhile g)
      ∧ Option.Rel (Leaf.Alike p) ((rest.takeWhile f).getLast?.or last?)
        ((rest'.takeWhile g).getLast?.or last?') := by
  have hcons : ∀ (taken : List Leaf) (leaf : Leaf) (last? : Option Leaf),
      (leaf :: taken).getLast?.or last? = taken.getLast?.or (some leaf) := by
    intro taken leaf last?
    rw [List.getLast?_cons]
    cases taken.getLast? with
    | none => rfl
    | some last => rfl
  -- a leaf that is passed over is the one read last when the next is looked at
  induction hrest generalizing last? last?' with
  | nil => exact ⟨.nil, hlast⟩
  | @cons leaf leaf' rest rest' hleaf hrest ih =>
    have hboth := hsame leaf leaf' hleaf
    cases hf : f leaf with
    | false =>
      have hg : g leaf' = false := hboth.symm.trans hf
      rw [List.dropWhile_cons_of_neg (by simp [hf]), List.dropWhile_cons_of_neg (by simp [hg]),
        List.takeWhile_cons_of_neg (by simp [hf]), List.takeWhile_cons_of_neg (by simp [hg])]
      exact ⟨.cons hleaf hrest, hlast⟩
    | true =>
      have hg : g leaf' = true := hboth.symm.trans hf
      rw [List.dropWhile_cons_of_pos hf, List.dropWhile_cons_of_pos hg,
        List.takeWhile_cons_of_pos hf, List.takeWhile_cons_of_pos hg, hcons, hcons]
      exact ih (.some hleaf)

namespace Feed.Alike

variable {feed feed' : Feed}

/-- The line of the last leaf read is the same. -/
theorem lastLine (h : feed.Alike p feed') : feed.lastLine = feed'.lastLine := by
  obtain ⟨rest, last?, opened⟩ := feed
  obtain ⟨rest', last?', opened'⟩ := feed'
  obtain ⟨-, hlast, -⟩ := h
  dsimp only at hlast
  unfold Feed.lastLine
  cases hlast with
  | none => rfl
  | some hleaf => exact hleaf.line

/-- The line at which an error would be reported is the same. -/
theorem line (h : feed.Alike p feed') : feed.line = feed'.line := by
  have hlast := h.lastLine
  obtain ⟨rest, last?, opened⟩ := feed
  obtain ⟨rest', last?', opened'⟩ := feed'
  obtain ⟨hrest, -, -⟩ := h
  dsimp only at hrest
  unfold Feed.line
  cases hrest with
  | nil => exact hlast
  | cons hleaf hrest => exact hleaf.line

/-- The kinds ahead are the same. -/
theorem kindAt? (h : feed.Alike p feed') (n : Nat) : feed.kindAt? n = feed'.kindAt? n := by
  obtain ⟨hrest, -, -⟩ := h
  unfold Feed.kindAt?
  generalize feed.rest = rest, feed'.rest = rest' at hrest
  induction hrest generalizing n with
  | nil => rfl
  | cons hleaf hrest ih =>
    cases n with
    | zero => exact congrArg some hleaf.kind
    | succ n => exact ih n

/-- The next leaves correspond. -/
theorem head? (h : feed.Alike p feed') :
    Option.Rel (Leaf.Alike p) feed.rest.head? feed'.rest.head? := by
  obtain ⟨hrest, -, -⟩ := h
  exact head?_alike hrest

/-- After one leaf each the feeds are still alike. -/
theorem bump (h : feed.Alike p feed') : feed.bump.Alike p feed'.bump := by
  obtain ⟨rest, last?, opened⟩ := feed
  obtain ⟨rest', last?', opened'⟩ := feed'
  obtain ⟨hrest, hlast, hopened⟩ := h
  dsimp only at hrest
  cases hrest with
  | nil => exact ⟨.nil, hlast, hopened⟩
  | cons hleaf hrest => exact ⟨hrest, .some hleaf, hopened⟩

/-- With one more node begun in each the feeds are still alike. -/
theorem openNode (h : feed.Alike p feed') :
    Feed.Alike p { feed with opened := feed.opened + 1 }
      { feed' with opened := feed'.opened + 1 } :=
  ⟨h.rest, h.last, congrArg (· + 1) h.opened⟩

/-- Feeds stay alike when the leaves in front are taken by tests that agree. -/
theorem bumpWhile (h : feed.Alike p feed') {f g : Leaf → Bool}
    (hsame : ∀ leaf leaf', leaf.Alike p leaf' → f leaf = g leaf') :
    (feed.bumpWhile f).Alike p (feed'.bumpWhile g) := by
  obtain ⟨hdrop, htake⟩ := dropWhile_alike h.rest h.last hsame
  exact ⟨hdrop, htake, h.opened⟩

end Feed.Alike

/-! ## §3. Single steps -/

/-- An error at the next leaf is the same on both. -/
theorem failHere_tracks {α β : Type} {rel : α → β → Prop} (fault : ParseFault) :
    Tracks p rel (failHere fault) (failHere fault) := fun _ _ hfeed =>
  ⟨congrArg (ParseError.mk · fault) hfeed.line, hfeed⟩

/-- An error at the end of the file is the same on both. -/
theorem failAtEnd_tracks {α β : Type} {rel : α → β → Prop} (expected : TokenKind) :
    Tracks p rel (failAtEnd expected) (failAtEnd expected) := fun _ _ hfeed =>
  ⟨congrArg (ParseError.mk · (.unexpectedEnd expected)) hfeed.lastLine, hfeed⟩

/-- The next kind is the same on both. -/
theorem peekKind?_tracks : Tracks p Eq peekKind? peekKind? := fun _ _ hfeed =>
  ⟨hfeed.kindAt? 0, hfeed⟩

/-- Taking a leaf. -/
theorem bump_tracks : Tracks p (fun _ _ => True) bump bump :=
  modify_tracks fun _ _ hfeed => hfeed.bump

/-- Opening a node. -/
theorem openNode_tracks : Tracks p (fun _ _ => True) openNode openNode :=
  modify_tracks fun _ _ hfeed => hfeed.openNode

/-- Asking for a first leaf, which is there in both files or in none. -/
theorem firstLeaf_tracks (expected : TokenKind) :
    Tracks p (Leaf.Alike p) (firstLeaf expected) (firstLeaf expected) := by
  rintro ⟨rest, last?, opened⟩ ⟨rest', last?', opened'⟩ hfeed
  obtain ⟨hrest, hlast, hopened⟩ := hfeed
  dsimp only at hrest
  cases hrest with
  | nil => exact failAtEnd_tracks expected _ _ ⟨.nil, hlast, hopened⟩
  | cons hleaf hrest => exact ⟨hleaf, .cons hleaf hrest, hlast, hopened⟩

/-- An expected leaf is found in both files, and is of that kind, or the error is the same. -/
theorem expect_tracks (expected : TokenKind) :
    Tracks p (fun leaf leaf' => leaf.Alike p leaf' ∧ leaf.kind = expected) (expect expected)
      (expect expected) := by
  rintro ⟨rest, last?, opened⟩ ⟨rest', last?', opened'⟩ hfeed
  have hall := hfeed
  obtain ⟨hrest, hlast, hopened⟩ := hfeed
  dsimp only at hrest
  cases hrest with
  | nil => exact failAtEnd_tracks expected _ _ ⟨.nil, hlast, hopened⟩
  | @cons leaf leaf' rest rest' hleaf hrest =>
    unfold expect
    dsimp only
    rw [← hleaf.kind]
    split
    · rename_i hkind
      exact ⟨⟨hleaf, hkind⟩, hall.bump⟩
    · exact failHere_tracks _ _ _ hall

/-- Closing a range that began with corresponding leaves. -/
theorem rangeFrom_tracks {first first' : Leaf} (h : first.Alike p first') :
    Tracks p (TokenRange.Alike p) (rangeFrom first) (rangeFrom first') := by
  rintro ⟨rest, last?, opened⟩ ⟨rest', last?', opened'⟩ hfeed
  refine ⟨⟨h.id, ?_⟩, hfeed⟩
  obtain ⟨-, hlast, -⟩ := hfeed
  dsimp only at hlast ⊢
  cases hlast with
  | none => exact h.id
  | some hleaf => exact hleaf.id

/-- Within a group, what is pending is made of kinds, so both runs close their groups at once. -/
theorem groupFrom_agree {rest rest' : List Leaf} {last? last?' : Option Leaf}
    (hrest : List.Forall₂ (Leaf.Alike p) rest rest')
    (hlast : Option.Rel (Leaf.Alike p) last? last?') (opened : Nat) (pending : List TokenKind) :
    Agree p (fun _ _ => True) (groupFrom opened pending last? rest)
      (groupFrom opened pending last?' rest') := by
  induction hrest generalizing last? last?' pending with
  | nil => exact failAtEnd_tracks _ _ _ ⟨.nil, hlast, rfl⟩
  | @cons leaf leaf' rest rest' hleaf hrest ih =>
    unfold groupFrom
    rw [← hleaf.kind, ← hleaf.line]
    split
    · exact ⟨rfl, .cons hleaf hrest, hlast, rfl⟩
    · exact ⟨trivial, hrest, .some hleaf, rfl⟩
    · exact ih (.some hleaf) _

/-- Skipping a group. -/
theorem skipGroup_tracks : Tracks p (fun _ _ => True) skipGroup skipGroup := by
  intro feed feed' hfeed
  unfold skipGroup
  rw [← hfeed.opened]
  exact groupFrom_agree hfeed.rest hfeed.last _ _

/-! ## §4. Looking ahead -/

/-- Shapes that name corresponding tokens. -/
def Shape.Alike (p : Pairing) : Shape → Shape → Prop
  | .function params terminator body, .function params' terminator' body' =>
    p.pairs params params' ∧ p.pairs terminator terminator' ∧ body = body'
  | .statement, .statement => True
  | _, _ => False

/-- Whether a parenthesis opens a parameter list shows from the kinds around it. -/
theorem opensParams_eq {before? before?' after? after?' : Option Leaf}
    (hbefore : Option.Rel (Leaf.Alike p) before? before?')
    (hafter : Option.Rel (Leaf.Alike p) after? after?') :
    opensParams before? after? = opensParams before?' after?' := by
  unfold opensParams
  cases hbefore with
  | none => rfl
  | some hleaf =>
    dsimp only
    rw [hleaf.kind, hleaf.text]
    cases hafter with
    | none => rfl
    | some hnext =>
      dsimp only [Option.any_some]
      rw [hnext.kind]

/-- A candidate is known in both files or in none. -/
theorem isNone_eq {before? before?' : Option TokenId}
    (h : Option.Rel p.pairs before? before?') : before?.isNone = before?'.isNone := by
  cases h with
  | none => rfl
  | some _ => rfl

/-- **What a declaration turns out to be** does not depend on the handles. -/
theorem classifyFrom_alike {rest rest' : List Leaf}
    (hrest : List.Forall₂ (Leaf.Alike p) rest rest') {depth : Nat}
    {before? before?' : Option Leaf} (hbefore : Option.Rel (Leaf.Alike p) before? before?')
    {params? params?' : Option TokenId} (hparams : Option.Rel p.pairs params? params?') :
    Shape.Alike p (classifyFrom depth before? params? rest)
      (classifyFrom depth before?' params?' rest') := by
  induction hrest generalizing depth before? before?' params? params?' with
  | nil => trivial
  | @cons leaf leaf' rest rest' hleaf hrest ih =>
    have hopens := opensParams_eq hbefore (head?_alike hrest)
    have hnone := isNone_eq hparams
    have hsome : params?.isSome = params?'.isSome := by
      rw [← Option.not_isNone, ← Option.not_isNone, hnone]
    -- kinds decide which way is gone, and they are the same on both sides
    unfold classifyFrom
    rw [← hleaf.kind, ← hopens, ← hnone, ← hsome]
    split
    · -- within delimiters
      split
      · exact ih hbefore hparams
      · split
        · refine ih ?_ hparams
          split
          · exact .some hleaf
          · exact hbefore
        · exact ih hbefore hparams
    · split
      · refine ih hbefore ?_
        split
        · exact .some hleaf.id
        · exact hparams
      · exact ih hbefore hparams
      · cases hparams with
        | none => trivial
        | some hid => exact ⟨hid, hleaf.id, rfl⟩
      · cases hparams with
        | none => trivial
        | some hid => exact ⟨hid, hleaf.id, rfl⟩
      · trivial
      · trivial
      · trivial
      · trivial
      · split
        · trivial
        · exact ih (.some hleaf) hparams

/-- A linkage block is ahead in both files or in none. -/
theorem atLinkageBlock_eq {feed feed' : Feed} (h : feed.Alike p feed') :
    atLinkageBlock feed = atLinkageBlock feed' := by
  have hhead : feed.rest.head?.any (·.text == "extern")
      = feed'.rest.head?.any (·.text == "extern") := by
    generalize feed.rest.head? = head?, feed'.rest.head? = head?', h.head? = hhead
    cases hhead with
    | none => rfl
    | some hleaf =>
      dsimp only [Option.any_some]
      rw [hleaf.text]
  unfold atLinkageBlock
  rw [hhead, h.kindAt? 1, h.kindAt? 2]

/-- A struct with a body is ahead in both files or in none. -/
theorem atStructBody_eq {feed feed' : Feed} (h : feed.Alike p feed') :
    atStructBody feed = atStructBody feed' := by
  unfold atStructBody
  rw [h.kindAt? 0, h.kindAt? 1, h.kindAt? 2]

/-- A struct that is only declared is ahead in both files or in none. -/
theorem atStructDecl_eq {feed feed' : Feed} (h : feed.Alike p feed') :
    atStructDecl feed = atStructDecl feed' := by
  unfold atStructDecl
  rw [h.kindAt? 1, h.kindAt? 2]

/-! ## §5. Constructs without nested ones -/

/-- **Directives** are where line ends matter.  Behind a `#` they correspond. -/
theorem directive_tracks : Tracks p (Skeleton.Alike p) directive directive := by
  unfold directive
  refine (expect_tracks .hash).bind fun first first' hfirst => ?_
  obtain ⟨hfirst, hhash⟩ := hfirst
  have hlines : p.lines = true := by
    by_contra hno
    exact hfirst.no_hash (Bool.eq_false_iff.mpr hno) hhash
  refine (modify_tracks fun feed feed' hfeed => hfeed.bumpWhile fun leaf leaf' hleaf => ?_).bind
    fun _ _ _ => ?_
  · rw [hleaf.startsLine hlines]
  refine openNode_tracks.bind fun _ _ _ => ?_
  refine (rangeFrom_tracks hfirst).bind fun range range' hrange => ?_
  exact .pure (alike_leaf hrange)

/-- Ranges of one token each. -/
theorem single_alike {leaf leaf' : Leaf} (h : leaf.Alike p leaf') :
    (TokenRange.single leaf.id).Alike p (.single leaf'.id) := ⟨h.id, h.id⟩

/-- Leaves on their own. -/
theorem loneToken_tracks : Tracks p (Skeleton.Alike p) loneToken loneToken := by
  unfold loneToken
  refine (firstLeaf_tracks .semicolon).bind fun leaf leaf' hleaf => ?_
  refine bump_tracks.bind fun _ _ _ => ?_
  refine openNode_tracks.bind fun _ _ _ => ?_
  exact .pure (alike_leaf (single_alike hleaf))

/-- Leaves of an expected kind that become nodes. -/
theorem tokenNode_tracks (kind : NodeKind) (expected : TokenKind) :
    Tracks p (Skeleton.Alike p) (tokenNode kind expected) (tokenNode kind expected) := by
  unfold tokenNode
  refine (expect_tracks expected).bind fun leaf leaf' hleaf => ?_
  refine openNode_tracks.bind fun _ _ _ => ?_
  exact .pure (alike_leaf (single_alike hleaf.1))

/-- Structs that are only declared. -/
theorem structDecl_tracks : Tracks p (Skeleton.Alike p) structDecl structDecl := by
  unfold structDecl
  refine (expect_tracks .struct).bind fun first first' hfirst => ?_
  refine openNode_tracks.bind fun _ _ _ => ?_
  refine (tokenNode_tracks .structTag .symbol).bind fun tag tag' htag => ?_
  refine (expect_tracks .semicolon).bind fun _ _ _ => ?_
  refine (rangeFrom_tracks hfirst.1).bind fun range range' hrange => ?_
  exact .pure (alike_node hrange (alikeAll_cons htag alikeAll_nil))

/-- Declarators ahead, by induction on the leaves: each leaf is passed over, opens or closes a
    group, or is a name, on both sides alike. -/
theorem declaratorsFrom_agree {rest rest' : List Leaf} {last? last?' : Option Leaf}
    (hrest : List.Forall₂ (Leaf.Alike p) rest rest')
    (hlast : Option.Rel (Leaf.Alike p) last? last?') (opened : Nat) (pending : List TokenKind)
    (initialiser : Bool) :
    Agree p (Skeleton.AlikeAll p) (declaratorsFrom opened pending initialiser last? rest)
      (declaratorsFrom opened pending initialiser last?' rest') := by
  induction hrest generalizing last? last?' opened pending initialiser with
  | nil => exact failAtEnd_tracks _ _ _ ⟨.nil, hlast, rfl⟩
  | @cons leaf leaf' rest rest' hleaf hrest ih =>
    -- the two ways to go on: an error at this leaf, or the leaves behind it
    have hfail : ∀ fault : ParseFault, Agree p (Skeleton.AlikeAll p)
        (failHere fault { rest := leaf :: rest, last?, opened })
        (failHere fault { rest := leaf' :: rest', last? := last?', opened }) := fun fault =>
      failHere_tracks fault _ _ ⟨.cons hleaf hrest, hlast, rfl⟩
    have hskip := fun pending initialiser =>
      ih (.some hleaf) opened pending initialiser
    unfold declaratorsFrom
    rw [← hleaf.kind]
    dsimp only
    split
    · exact hfail _
    · split
      · split
        · exact hfail _
        · exact hskip _ _
      · split
        · exact ⟨alikeAll_nil, hrest, .some hleaf, rfl⟩
        · split
          · exact hskip _ _
          · -- a declared name is a node of its own
            have hnames := ih (.some hleaf) (opened + 1) [] false
            generalize declaratorsFrom (opened + 1) [] false (some leaf) rest = result,
              declaratorsFrom (opened + 1) [] false (some leaf') rest' = result' at hnames
            cases result with
            | ok names feed =>
              cases result' with
              | ok names' feed' =>
                exact ⟨alikeAll_cons (alike_leaf (single_alike hleaf)) hnames.1, hnames.2⟩
              | error error' feed' => exact hnames.elim
            | error error feed =>
              cases result' with
              | ok names' feed' => exact hnames.elim
              | error error' feed' => exact hnames
        · exact hskip _ _
        · exact hskip _ _
        · exact hskip _ _

/-- Declarators from their beginning. -/
theorem declarators_tracks : Tracks p (Skeleton.AlikeAll p) declarators declarators := by
  intro feed feed' hfeed
  unfold declarators
  rw [← hfeed.opened]
  exact declaratorsFrom_agree hfeed.rest hfeed.last _ _ _

/-- What stands before the end of a function head.  The ends correspond, so they are met at
    once. -/
theorem qualifiersFrom_agree {terminator terminator' : TokenId}
    (hend : p.pairs terminator terminator') {rest rest' : List Leaf}
    {last? last?' : Option Leaf} (hrest : List.Forall₂ (Leaf.Alike p) rest rest')
    (hlast : Option.Rel (Leaf.Alike p) last? last?') (opened : Nat) (pending : List TokenKind) :
    Agree p (fun _ _ => True) (qualifiersFrom opened terminator pending last? rest)
      (qualifiersFrom opened terminator' pending last?' rest') := by
  induction hrest generalizing last? last?' pending with
  | nil =>
    unfold qualifiersFrom
    cases pending with
    | nil => exact ⟨trivial, .nil, hlast, rfl⟩
    | cons expected outer => exact failAtEnd_tracks _ _ _ ⟨.nil, hlast, rfl⟩
  | @cons leaf leaf' rest rest' hleaf hrest ih =>
    -- the two ends are the same place, since a pairing is one to one
    have hsame : leaf.id = terminator ↔ leaf'.id = terminator' := p.unique hleaf.id hend
    unfold qualifiersFrom
    rw [← hleaf.kind]
    simp only [← hsame]
    split
    · exact ⟨trivial, .cons hleaf hrest, hlast, rfl⟩
    · split
      · exact ih (.some hleaf) _
      · split
        · exact failHere_tracks _ _ _ ⟨.cons hleaf hrest, hlast, rfl⟩
        · exact ih (.some hleaf) _

/-- What stands behind a parameter list. -/
theorem qualifiers_tracks {terminator terminator' : TokenId}
    (hend : p.pairs terminator terminator') :
    Tracks p (fun _ _ => True) (qualifiers terminator) (qualifiers terminator') := by
  intro feed feed' hfeed
  unfold qualifiers
  rw [← hfeed.opened]
  exact qualifiersFrom_agree hend hfeed.rest hfeed.last _ _

/-! ## §6. Constructs that nest -/

/-- The four readers of statements and blocks, down to a given depth of calls. -/
structure NestTracks (p : Pairing) (depth : Nat) : Prop where
  block : Tracks p (Skeleton.Alike p) (block depth) (block depth)
  blockItems : Tracks p (Skeleton.AlikeAll p) (blockItems depth) (blockItems depth)
  statement : Tracks p (Skeleton.Alike p) (statement depth) (statement depth)
  statementTail : ∀ goesOn,
    Tracks p (Skeleton.AlikeAll p) (statementTail depth goesOn) (statementTail depth goesOn)

section Nest

variable {depth : Nat}

/-- A block, by its items. -/
theorem block_tracks_succ (h : NestTracks p depth) :
    Tracks p (Skeleton.Alike p) (block (depth + 1)) (block (depth + 1)) := by
  unfold block
  refine (expect_tracks .lbrace).bind fun first first' hfirst => ?_
  refine openNode_tracks.bind fun _ _ _ => ?_
  refine h.blockItems.bind fun children children' hchildren => ?_
  refine (expect_tracks .rbrace).bind fun _ _ _ => ?_
  refine (rangeFrom_tracks hfirst.1).bind fun range range' hrange => ?_
  exact .pure (alike_node hrange hchildren)

/-- The items of a block: the kind of the next leaf decides on both sides. -/
theorem blockItems_tracks_succ (h : NestTracks p depth) :
    Tracks p (Skeleton.AlikeAll p) (blockItems (depth + 1)) (blockItems (depth + 1)) := by
  unfold blockItems
  refine peekKind?_tracks.bind fun kind? kind?' hkind => ?_
  subst hkind
  split
  · exact failAtEnd_tracks _
  · exact .pure alikeAll_nil
  · -- whatever stands next, the others follow
    have hnext : ∀ child child', Skeleton.Alike p child child' → Tracks p (Skeleton.AlikeAll p)
        (do return child :: (← blockItems depth)) (do return child' :: (← blockItems depth)) := by
      intro child child' hchild
      refine h.blockItems.bind fun rest rest' hrest => ?_
      exact .pure (alikeAll_cons hchild hrest)
    dsimp only
    split
    · exact directive_tracks.bind hnext
    · exact h.block.bind hnext
    · exact loneToken_tracks.bind hnext
    · exact (failHere_tracks _).bind hnext
    · exact (failHere_tracks _).bind hnext
    · exact h.statement.bind hnext

/-- A statement, by what follows its first leaf. -/
theorem statement_tracks_succ (h : NestTracks p depth) :
    Tracks p (Skeleton.Alike p) (statement (depth + 1)) (statement (depth + 1)) := by
  unfold statement
  refine (firstLeaf_tracks .semicolon).bind fun first first' hfirst => ?_
  refine openNode_tracks.bind fun _ _ _ => ?_
  rw [← hfirst.kind, ← hfirst.text]
  refine (h.statementTail _).bind fun blocks blocks' hblocks => ?_
  refine (rangeFrom_tracks hfirst).bind fun range range' hrange => ?_
  exact .pure (alike_node hrange hblocks)

/-- The rest of a statement, leaf by leaf. -/
theorem statementTail_tracks_succ (h : NestTracks p depth) (goesOn : Bool) :
    Tracks p (Skeleton.AlikeAll p) (statementTail (depth + 1) goesOn)
      (statementTail (depth + 1) goesOn) := by
  unfold statementTail
  refine peekKind?_tracks.bind fun kind? kind?' hkind => ?_
  -- both sides see the same kind ahead, and take the same branch
  subst hkind
  split
  · exact .pure alikeAll_nil
  · exact .pure alikeAll_nil
  · split
    · exact bump_tracks.bind fun _ _ _ => .pure alikeAll_nil
    · refine h.block.bind fun child child' hchild => ?_
      split
      · refine (h.statementTail _).bind fun rest rest' hrest => ?_
        exact .pure (alikeAll_cons hchild hrest)
      · exact .pure (alikeAll_cons hchild alikeAll_nil)
    · exact skipGroup_tracks.bind fun _ _ _ => h.statementTail _
    · exact skipGroup_tracks.bind fun _ _ _ => h.statementTail _
    · exact failHere_tracks _
    · exact failHere_tracks _
    · exact bump_tracks.bind fun _ _ _ => h.statementTail _
    · exact bump_tracks.bind fun _ _ _ => h.statementTail _

end Nest

/-- **Statements and blocks**, by induction on the depth of calls. -/
theorem nest_tracks (depth : Nat) : NestTracks p depth := by
  induction depth with
  | zero =>
    refine ⟨?_, ?_, ?_, fun goesOn => ?_⟩
    · unfold block
      exact failAtEnd_tracks _
    · unfold blockItems
      exact failAtEnd_tracks _
    · unfold statement
      exact failAtEnd_tracks _
    · unfold statementTail
      exact failAtEnd_tracks _
  | succ depth ih =>
    exact ⟨block_tracks_succ ih, blockItems_tracks_succ ih, statement_tracks_succ ih,
      statementTail_tracks_succ ih⟩

/-- Structs with a body. -/
theorem structHead_tracks (depth : Nat) :
    Tracks p (fun head head' => head.1.Alike p head'.1 ∧ Skeleton.AlikeAll p head.2 head'.2)
      (structHead depth) (structHead depth) := by
  unfold structHead
  refine (expect_tracks .struct).bind fun first first' hfirst => ?_
  refine openNode_tracks.bind fun _ _ _ => ?_
  refine peekKind?_tracks.bind fun kind? kind?' hkind => ?_
  subst hkind
  have hbody : ∀ tag tag', Skeleton.AlikeAll p tag tag' → Tracks p
      (fun head head' => head.1.Alike p head'.1 ∧ Skeleton.AlikeAll p head.2 head'.2)
      (do let body ← block depth; return (first, tag ++ [body]))
      (do let body ← block depth; return (first', tag' ++ [body])) := by
    intro tag tag' htag
    refine (nest_tracks depth).block.bind fun body body' hbody => ?_
    exact .pure ⟨hfirst.1, alikeAll_append htag (alikeAll_cons hbody alikeAll_nil)⟩
  dsimp only
  split
  · refine (tokenNode_tracks .structTag .symbol).bind fun tag tag' htag => ?_
    exact hbody _ _ (alikeAll_cons htag alikeAll_nil)
  · exact hbody _ _ alikeAll_nil

/-- Type definitions. -/
theorem typedefItem_tracks (depth : Nat) :
    Tracks p (Skeleton.Alike p) (typedefItem depth) (typedefItem depth) := by
  unfold typedefItem
  refine (expect_tracks .typedef).bind fun first first' hfirst => ?_
  refine openNode_tracks.bind fun _ _ _ => ?_
  refine get_tracks.bind fun feed feed' hfeed => ?_
  rw [← atStructBody_eq hfeed]
  -- the two ways end alike, with the range of the whole
  have hend : ∀ children children', Skeleton.AlikeAll p children children' →
      Tracks p (Skeleton.Alike p) (do return .node .typedef (← rangeFrom first) children)
        (do return .node .typedef (← rangeFrom first') children') := by
    intro children children' hchildren
    refine (rangeFrom_tracks hfirst.1).bind fun range range' hrange => ?_
    exact .pure (alike_node hrange hchildren)
  dsimp only
  split
  · refine (structHead_tracks depth).bind fun head head' hhead => ?_
    refine (rangeFrom_tracks hhead.1).bind fun range range' hrange => ?_
    refine declarators_tracks.bind fun names names' hnames => ?_
    exact hend _ _ (alikeAll_cons (alike_node hrange hhead.2) hnames)
  · exact ((nest_tracks depth).statementTail true).bind hend

/-- Functions whose parameter lists and ends correspond. -/
theorem functionItem_tracks (depth : Nat) {params params' terminator terminator' : TokenId}
    (hparams : p.pairs params params') (hend : p.pairs terminator terminator') (body : Bool) :
    Tracks p (Skeleton.Alike p) (functionItem depth params terminator body)
      (functionItem depth params' terminator' body) := by
  unfold functionItem
  refine (firstLeaf_tracks .lparen).bind fun first first' hfirst => ?_
  refine openNode_tracks.bind fun _ _ _ => ?_
  -- both readings stop at the `(` that was found ahead
  refine (modify_tracks fun feed feed' hfeed => hfeed.bumpWhile fun leaf leaf' hleaf => ?_).bind
    fun _ _ _ => ?_
  · rw [Bool.eq_iff_iff, bne_iff_ne, bne_iff_ne, ne_eq, ne_eq, p.unique hleaf.id hparams]
  refine skipGroup_tracks.bind fun _ _ _ => ?_
  refine get_tracks.bind fun feed feed' hfeed => ?_
  have hlist : TokenRange.Alike p ⟨params, (feed.last?.map (·.id)).getD params⟩
      ⟨params', (feed'.last?.map (·.id)).getD params'⟩ := by
    refine ⟨hparams, ?_⟩
    generalize feed.last? = last?, feed'.last? = last?', hfeed.last = hlast
    cases hlast with
    | none => exact hparams
    | some hleaf => exact hleaf.id
  refine openNode_tracks.bind fun _ _ _ => ?_
  refine (qualifiers_tracks hend).bind fun _ _ _ => ?_
  split
  · refine (nest_tracks depth).block.bind fun child child' hchild => ?_
    refine (rangeFrom_tracks hfirst).bind fun range range' hrange => ?_
    exact .pure (alike_node hrange
      (alikeAll_cons (alike_leaf hlist) (alikeAll_cons hchild alikeAll_nil)))
  · refine (expect_tracks .semicolon).bind fun _ _ _ => ?_
    refine (rangeFrom_tracks hfirst).bind fun range range' hrange => ?_
    exact .pure (alike_node hrange (alikeAll_cons (alike_leaf hlist) alikeAll_nil))

/-- Declarations, which turn out to be functions in both files or in none. -/
theorem declaration_tracks (depth : Nat) :
    Tracks p (Skeleton.Alike p) (declaration depth) (declaration depth) := by
  unfold declaration
  refine get_tracks.bind fun feed feed' hfeed => ?_
  have hshape : Shape.Alike p (classify feed.rest) (classify feed'.rest) :=
    classifyFrom_alike hfeed.rest .none .none
  generalize classify feed.rest = shape, classify feed'.rest = shape' at hshape
  cases shape with
  | function params terminator body =>
    cases shape' with
    | function params' terminator' body' =>
      obtain ⟨hparams, hend, rfl⟩ := hshape
      exact functionItem_tracks depth hparams hend body
    | statement => exact hshape.elim
  | statement =>
    cases shape' with
    | function params' terminator' body' => exact hshape.elim
    | statement => exact (nest_tracks depth).statement

/-- Structs at file scope, with a body or without. -/
theorem structItem_tracks (depth : Nat) :
    Tracks p (Skeleton.Alike p) (structItem depth) (structItem depth) := by
  unfold structItem
  refine get_tracks.bind fun feed feed' hfeed => ?_
  rw [← atStructDecl_eq hfeed, ← atStructBody_eq hfeed]
  split
  · exact structDecl_tracks
  · split
    · refine (structHead_tracks depth).bind fun head head' hhead => ?_
      refine declarators_tracks.bind fun names names' hnames => ?_
      refine (rangeFrom_tracks hhead.1).bind fun range range' hrange => ?_
      exact .pure (alike_node hrange (alikeAll_append hhead.2 hnames))
    · exact declaration_tracks depth

/-- The three readers of constructs at file scope, down to a given depth of calls. -/
structure ItemTracks (p : Pairing) (depth : Nat) : Prop where
  item : Tracks p (Skeleton.Alike p) (item depth) (item depth)
  linkageBlock : Tracks p (Skeleton.Alike p) (linkageBlock depth) (linkageBlock depth)
  linkageItems : Tracks p (Skeleton.AlikeAll p) (linkageItems depth) (linkageItems depth)

section Item

variable {depth : Nat}

/-- A construct at file scope, by what is seen ahead. -/
theorem item_tracks_succ (h : ItemTracks p depth) :
    Tracks p (Skeleton.Alike p) (item (depth + 1)) (item (depth + 1)) := by
  unfold item
  refine get_tracks.bind fun feed feed' hfeed => ?_
  rw [← atLinkageBlock_eq hfeed]
  split
  · exact h.linkageBlock
  · refine peekKind?_tracks.bind fun kind? kind?' hkind => ?_
    subst hkind
    split
    · exact directive_tracks
    · exact typedefItem_tracks depth
    · exact structItem_tracks depth
    · exact loneToken_tracks
    · exact failHere_tracks _
    · exact failHere_tracks _
    · exact failHere_tracks _
    · exact declaration_tracks depth

/-- A linkage block, by its constructs. -/
theorem linkageBlock_tracks_succ (h : ItemTracks p depth) :
    Tracks p (Skeleton.Alike p) (linkageBlock (depth + 1)) (linkageBlock (depth + 1)) := by
  unfold linkageBlock
  refine (firstLeaf_tracks .lbrace).bind fun first first' hfirst => ?_
  refine openNode_tracks.bind fun _ _ _ => ?_
  refine bump_tracks.bind fun _ _ _ => ?_
  refine (expect_tracks .string).bind fun _ _ _ => ?_
  refine (expect_tracks .lbrace).bind fun _ _ _ => ?_
  refine h.linkageItems.bind fun children children' hchildren => ?_
  refine (expect_tracks .rbrace).bind fun _ _ _ => ?_
  refine (rangeFrom_tracks hfirst).bind fun range range' hrange => ?_
  exact .pure (alike_node hrange hchildren)

/-- The constructs of a linkage block. -/
theorem linkageItems_tracks_succ (h : ItemTracks p depth) :
    Tracks p (Skeleton.AlikeAll p) (linkageItems (depth + 1)) (linkageItems (depth + 1)) := by
  unfold linkageItems
  refine peekKind?_tracks.bind fun kind? kind?' hkind => ?_
  subst hkind
  split
  · exact failAtEnd_tracks _
  · exact .pure alikeAll_nil
  · refine h.item.bind fun child child' hchild => ?_
    refine h.linkageItems.bind fun rest rest' hrest => ?_
    exact .pure (alikeAll_cons hchild hrest)

end Item

/-- **Constructs at file scope**, by induction on the depth of calls. -/
theorem item_tracks (depth : Nat) : ItemTracks p depth := by
  induction depth with
  | zero =>
    refine ⟨?_, ?_, ?_⟩
    · unfold item
      exact failAtEnd_tracks _
    · unfold linkageBlock
      exact failAtEnd_tracks _
    · unfold linkageItems
      exact failAtEnd_tracks _
  | succ depth ih =>
    exact ⟨item_tracks_succ ih, linkageBlock_tracks_succ ih, linkageItems_tracks_succ ih⟩

/-! ## §7. Whole files -/

/-- The same error, as many nodes begun, and items that correspond. -/
structure Parsed.Alike (p : Pairing) (parsed parsed' : Parsed) : Prop where
  items : Skeleton.AlikeAll p parsed.items parsed'.items
  opened : parsed.opened = parsed'.opened
  error? : parsed.error? = parsed'.error?

/-- Constructs one after the other, until the leaves or the count run out. -/
theorem parseFrom_alike (count : Nat) {feed feed' : Feed} (h : feed.Alike p feed') :
    (parseFrom count feed).Alike p (parseFrom count feed') := by
  induction count generalizing feed feed' with
  | zero =>
    unfold parseFrom
    exact ⟨alikeAll_nil, h.opened, rfl⟩
  | succ count ih =>
    have hlength : feed.rest.length = feed'.rest.length := h.rest.length_eq
    have hempty : feed.rest.isEmpty = feed'.rest.isEmpty := by
      rw [Bool.eq_iff_iff, List.isEmpty_iff_length_eq_zero, List.isEmpty_iff_length_eq_zero,
        hlength]
    -- the bounds are equal, since as many leaves are ahead in both files
    have hitem := (item_tracks (depthBound feed.rest.length)).item feed feed' h
    unfold parseFrom
    rw [← hempty, ← hlength]
    split
    · exact ⟨alikeAll_nil, h.opened, rfl⟩
    · generalize item (depthBound feed.rest.length) feed = result,
        item (depthBound feed.rest.length) feed' = result' at hitem
      cases result with
      | ok child mid =>
        cases result' with
        | ok child' mid' =>
          obtain ⟨hitems, hopened, herror⟩ := ih hitem.2
          exact ⟨alikeAll_cons hitem.1 hitems, hopened, herror⟩
        | error error' mid' => exact hitem.elim
      | error error mid =>
        cases result' with
        | ok child' mid' => exact hitem.elim
        | error error' mid' => exact ⟨alikeAll_nil, hitem.2.opened, congrArg some hitem.1⟩

/-- **Leaves that correspond** have outlines that do. -/
theorem parse_alike {leaves leaves' : List Leaf}
    (h : List.Forall₂ (Leaf.Alike p) leaves leaves') :
    (parse leaves).Alike p (parse leaves') := by
  unfold parse
  rw [← h.length_eq]
  exact parseFrom_alike _ ⟨h, .none, rfl⟩

end Outline

end KernelPrep
