/-
  KernelPrep.Proofs.Outline.Progress — one step of each reader.

  The readers of constructs call each other only where less is left to do: behind a leaf that was
  taken, or at the same place for a smaller construct.  That a call stands behind a leaf depends
  on what the calls before it have taken, so both are shown at once: readers that agree wherever
  there is less to do, and take there what they should, agree after one step more of the rule,
  which takes what it should.

  Main definitions:
    * `Outline.Took`             — so many leaves were taken;
    * `Outline.Production.least` — the leaves that a production takes at least;
    * `Outline.Call.Before`      — a call that has less to do;
    * `Outline.Concur`           — two outcomes are the same and as they should be.

  Main statements:
    * `Outline.Concur.bind` — readings that agree, one after the other;
    * `Outline.concur_rule` — one step of each production.
-/
import KernelPrep.Proofs.Outline.Derivation
import KernelPrep.Proofs.Outline.Productions

namespace KernelPrep.Outline

/-! ## §1. What a production takes -/

/-- At least `n` leaves were taken from the feed. -/
def Took (n : Nat) (feed feed' : Feed) : Prop :=
  ∃ leaves, feed.rest = leaves ++ feed'.rest ∧ n ≤ leaves.length

section Took

variable {feed feed₁ feed₂ : Feed} {n m : Nat}

/-- Nothing was taken from a feed that is as it was. -/
theorem took_zero (feed : Feed) : Took 0 feed feed := ⟨[], rfl, Nat.le_refl _⟩

/-- What two readings take adds up. -/
theorem Took.trans (h : Took n feed feed₁) (h' : Took m feed₁ feed₂) :
    Took (n + m) feed feed₂ := by
  obtain ⟨leaves, hrest, hn⟩ := h
  obtain ⟨leaves', hrest', hm⟩ := h'
  refine ⟨leaves ++ leaves', by rw [hrest, hrest', List.append_assoc], ?_⟩
  rw [List.length_append]
  omega

/-- Who took that many took fewer as well. -/
theorem Took.mono (h : Took n feed feed₁) (hm : m ≤ n) : Took m feed feed₁ := by
  obtain ⟨leaves, hrest, hn⟩ := h
  exact ⟨leaves, hrest, Nat.le_trans hm hn⟩

/-- Fewer leaves are ahead, by as many as were taken. -/
theorem Took.length_le (h : Took n feed feed₁) : feed₁.rest.length + n ≤ feed.rest.length := by
  obtain ⟨leaves, hrest, hn⟩ := h
  rw [hrest, List.length_append]
  omega

/-- What a reading consumed it took. -/
theorem Consumed.took {leaves : List Leaf} (h : Consumed feed feed₁ leaves n) :
    Took leaves.length feed feed₁ := ⟨leaves, h.rest, Nat.le_refl _⟩

end Took

/-- Nothing that is read within braces is ahead: a `}` or the end. -/
def Feed.isOver (feed : Feed) : Bool := feed.rest.head?.all (·.kind == .rbrace)

/-- The number of leaves that a production takes at least when it goes through.  Constructs that
    may be missing take none where nothing is ahead. -/
def Production.least (p : Production) (feed : Feed) : Nat :=
  match p with
  | .qualifiers _ _ => 0
  | .item => if feed.rest.isEmpty then 0 else 1
  | .linkageItems | .structItem | .declaration | .blockItems | .statement | .statementTail _ =>
    if feed.isOver then 0 else 1
  | _ => 1

/-- How far productions are called without a leaf being taken: each calls only lower ones so. -/
@[simp] def Production.height : Production → Nat
  | .linkageItems => 6
  | .item => 5
  | .structItem => 4
  | .declaration | .blockItems => 3
  | .statement => 2
  | .functionItem _ _ _ | .statementTail _ => 1
  -- these call others only behind a leaf that they have taken
  | _ => 0

/-- A production that is called where the feed is. -/
abbrev Call := Production × Feed

/-- What is still to be read, and by which production. -/
def Call.cost (call : Call) : Nat := 8 * call.2.rest.length + call.1.height

/-- The second call has less to do: it is made further on, or at the same place by a lower
    production. -/
def Call.Before (call call' : Call) : Prop :=
  call'.2.rest <:+ call.2.rest ∧ call'.cost < call.cost

/-- No production is called through more than six lower ones. -/
theorem Production.height_le (p : Production) : p.height ≤ 6 := by
  cases p <;> simp

/-- No production is sure to take more than one leaf. -/
theorem Production.least_le (p : Production) (feed : Feed) : p.least feed ≤ 1 := by
  unfold Production.least
  split <;> first | omega | (split <;> omega)

/-- A call further on, or of a lower production, has less to do. -/
theorem Took.before {n : Nat} {feed feed' : Feed} {p q : Production} (h : Took n feed feed')
    (hlt : q.height < p.height + 8 * n) : Call.Before (p, feed) (q, feed') := by
  have hle := h.length_le
  obtain ⟨leaves, hrest, -⟩ := h
  refine ⟨⟨leaves, hrest.symm⟩, ?_⟩
  show 8 * feed'.rest.length + q.height < 8 * feed.rest.length + p.height
  omega

/-! ## §2. Readings that agree -/

/-- Two outcomes are the same, and what is given and left is as `post` says. -/
structure Concur {α : Type} (x y : EStateM.Result ParseError Feed α) (post : α → Feed → Prop) :
    Prop where
  same : x = y
  ok : ∀ {a feed'}, x = .ok a feed' → post a feed'

section Concur

variable {α β : Type} {x y : Reading α} {f g : α → Reading β} {feed : Feed}
  {res res' : EStateM.Result ParseError Feed α} {post post' : α → Feed → Prop}
  {next : β → Feed → Prop}

/-- One outcome, compared with itself. -/
theorem Concur.self (h : ∀ {a feed'}, res = .ok a feed' → post a feed') : Concur res res post :=
  ⟨rfl, h⟩

/-- Outcomes that are as they should be are so by any weaker measure. -/
theorem Concur.mono (h : Concur res res' post)
    (hpost : ∀ {a feed'}, post a feed' → post' a feed') : Concur res res' post' :=
  ⟨h.same, fun hx => hpost (h.ok hx)⟩

/-- Both give one value and leave one feed. -/
theorem concur_ok {a : α} (h : post a feed) : Concur (.ok a feed) (.ok a feed) post := by
  apply Concur.self
  intro a' feed' hok
  obtain ⟨rfl, rfl⟩ := EStateM.Result.ok.inj hok
  exact h

/-- Both fail with one error. -/
theorem concur_error {error : ParseError} :
    Concur (.error error feed : EStateM.Result ParseError Feed α) (.error error feed) post := by
  apply Concur.self
  intro a feed' h
  simp at h

/-- Readings that agree, one after the other. -/
theorem Concur.bind (h : Concur (x feed) (y feed) post)
    (hf : ∀ a feed', post a feed' → Concur (f a feed') (g a feed') next) :
    Concur ((x >>= f) feed) ((y >>= g) feed) next := by
  obtain ⟨hsame, hpost⟩ := h
  constructor
  · cases hx : x feed with
    | ok a feed' =>
      rw [Step.bind_of_ok hx, Step.bind_of_ok (hsame ▸ hx)]
      exact (hf a feed' (hpost hx)).same
    | error error feed' => rw [Step.bind_of_error hx, Step.bind_of_error (hsame ▸ hx)]
  · intro b feed'' hall
    obtain ⟨a, feed', hx, hfa⟩ := Step.bind_ok.mp hall
    exact (hf a feed' (hpost hx)).ok hfa

/-- Looking at the feed. -/
theorem concur_get : Concur ((get : Reading Feed) feed) ((get : Reading Feed) feed)
    fun now feed' => now = feed ∧ feed = feed' :=
  Concur.self fun h => (Step.get_ok.mp h).imp_right Eq.symm

/-- Looking at the next kind. -/
theorem concur_peekKind? : Concur (peekKind? feed) (peekKind? feed)
    fun kind? feed' => kind? = feed.kindAt? 0 ∧ feed = feed' :=
  Concur.self fun h => (peekKind?_ok.mp h).imp_right Eq.symm

/-- An error at the next leaf, after which nothing has to hold. -/
theorem concur_failHere {fault : ParseFault} :
    Concur ((failHere fault : Reading α) feed) ((failHere fault : Reading α) feed) post :=
  concur_error

/-- An error at the end of the file, after which nothing has to hold. -/
theorem concur_failAtEnd {kind : TokenKind} :
    Concur ((failAtEnd kind : Reading α) feed) ((failAtEnd kind : Reading α) feed) post :=
  concur_error

/-- Opening a node takes nothing, and what is ahead is as it was. -/
theorem concur_openNode : Concur (openNode feed) (openNode feed)
    fun _ feed' => Took 0 feed feed' ∧ feed'.isOver = feed.isOver := by
  apply Concur.self
  intro _ feed' h
  have hrest : feed.rest = feed'.rest := (openNode_ok h).rest
  refine ⟨(openNode_ok h).took, ?_⟩
  unfold Feed.isOver
  rw [hrest]

/-- An expected leaf is taken. -/
theorem concur_expect (kind : TokenKind) :
    Concur (expect kind feed) (expect kind feed) fun _ feed' => Took 1 feed feed' :=
  Concur.self fun h => (expect_ok h).2.took

/-- Closing a range takes nothing. -/
theorem concur_rangeFrom (first : Leaf) :
    Concur (rangeFrom first feed) (rangeFrom first feed) fun _ feed' => feed = feed' :=
  Concur.self fun h => (rangeFrom_ok.mp h).2.symm

/-- Asking for a first leaf takes nothing, but there is one. -/
theorem concur_firstLeaf (kind : TokenKind) :
    Concur (firstLeaf kind feed) (firstLeaf kind feed)
      fun first feed' => feed = feed' ∧ ∃ rest, feed.rest = first :: rest :=
  Concur.self fun h => (firstLeaf_ok h).imp_left Eq.symm

/-- One leaf was taken. -/
theorem took_bump {leaf : Leaf} {rest : List Leaf} (hrest : feed.rest = leaf :: rest) :
    Took 1 feed feed.bump := (consumed_bump hrest).took

/-- A leaf is taken if there is one. -/
theorem concur_bumpAny : Concur (bump feed) (bump feed) fun _ feed' => Took 0 feed feed' := by
  apply Concur.self
  intro _ feed' h
  rw [Step.modify_ok.mp h]
  cases hrest : feed.rest with
  | nil =>
    unfold Feed.bump
    rw [hrest]
    exact took_zero feed
  | cons leaf rest => exact (took_bump hrest).mono (Nat.zero_le _)

/-- The leaf ahead is taken. -/
theorem concur_bump {leaf : Leaf} {rest : List Leaf} (hrest : feed.rest = leaf :: rest) :
    Concur (bump feed) (bump feed) fun _ feed' => Took 1 feed feed' :=
  Concur.self fun h => (bump_ok h hrest).took

/-- Leaves may be taken or not. -/
theorem concur_bumpWhile {q : Leaf → Bool} :
    Concur ((modify fun feed => feed.bumpWhile q : Reading Unit) feed)
      ((modify fun feed => feed.bumpWhile q : Reading Unit) feed)
      fun _ feed' => Took 0 feed feed' := by
  apply Concur.self
  intro _ feed' h
  rw [Step.modify_ok.mp h]
  exact (consumed_bumpWhile feed q).took.mono (Nat.zero_le _)

/-- A directive takes at least its `#`. -/
theorem concur_directive :
    Concur (directive feed) (directive feed) fun _ feed' => Took 1 feed feed' := by
  apply Concur.self
  intro s feed' h
  obtain ⟨hash, body, hc, -⟩ := directive_inv h
  exact hc.took.mono (Nat.le_add_left 1 _)

/-- A leaf on its own is taken. -/
theorem concur_loneToken :
    Concur (loneToken feed) (loneToken feed) fun _ feed' => Took 1 feed feed' := by
  apply Concur.self
  intro s feed' h
  obtain ⟨leaf, hc, -⟩ := loneToken_inv h
  exact hc.took

/-- A leaf that becomes a node is taken. -/
theorem concur_tokenNode (kind : NodeKind) (expected : TokenKind) :
    Concur (tokenNode kind expected feed) (tokenNode kind expected feed)
      fun _ feed' => Took 1 feed feed' := by
  apply Concur.self
  intro s feed' h
  obtain ⟨leaf, -, hc, -⟩ := tokenNode_inv h
  exact hc.took

/-- A node is made of what was read. -/
theorem concur_node {α : Type} {first : Leaf} {make : TokenRange → α} {post : α → Feed → Prop}
    (h : ∀ range, post (make range) feed) :
    Concur ((do return make (← rangeFrom first) : Reading α) feed)
      ((do return make (← rangeFrom first) : Reading α) feed) post := by
  apply (concur_rangeFrom first).bind
  rintro range _ rfl
  exact concur_ok (h range)

/-- A struct that is only declared takes at least its word. -/
theorem concur_structDecl :
    Concur (structDecl feed) (structDecl feed) fun _ feed' => Took 1 feed feed' := by
  apply (concur_expect .struct).bind
  intro first feed₁ h₁
  apply concur_openNode.bind
  rintro _ feed₂ ⟨h₂, -⟩
  apply (concur_tokenNode _ _).bind
  intro tag feed₃ h₃
  apply (concur_expect .semicolon).bind
  intro _ feed₄ h₄
  apply concur_node
  intro _
  exact (((h₁.trans h₂).trans h₃).trans h₄).mono (by omega)

end Concur

/-! ## §3. One step of each production -/

/-- The readers agree in all calls that have less to do, and take there what they should. -/
def ConcurBefore (r r' : Readers) (call : Call) : Prop :=
  ∀ q feed', call.Before (q, feed') →
    Concur (r q feed') (r' q feed') fun _ feed'' => Took (q.least feed') feed' feed''

section Rule

variable {r r' : Readers} {feed feed' : Feed} {p : Production} {n : Nat}

/-- A call further on, or of a lower production. -/
theorem ConcurBefore.call (h : ConcurBefore r r' (p, feed)) (htook : Took n feed feed')
    (q : Production) {m : Nat} (hlt : q.height < p.height + 8 * n)
    (hm : m ≤ n + q.least feed') :
    Concur (r q feed') (r' q feed') fun _ feed'' => Took m feed feed'' :=
  (h q feed' (htook.before hlt)).mono fun hq => (htook.trans hq).mono hm

/-- A call behind a leaf, be it of any production. -/
theorem ConcurBefore.further (h : ConcurBefore r r' (p, feed)) (htook : Took 1 feed feed')
    (q : Production) : Concur (r q feed') (r' q feed') fun _ feed'' => Took 1 feed feed'' := by
  have hheight := q.height_le
  exact h.call htook q (by omega) (Nat.le_add_right _ _)

/-- A call of a lower production at the same place. -/
theorem ConcurBefore.here (h : ConcurBefore r r' (p, feed)) (q : Production) {m : Nat}
    (hlt : q.height < p.height) (hm : m ≤ q.least feed) :
    Concur (r q feed) (r' q feed) fun _ feed' => Took m feed feed' :=
  h.call (took_zero feed) q (by omega) (by omega)

/-- A group, whose inner groups stand behind its opener. -/
theorem concur_group (pending : List TokenKind) (h : ConcurBefore r r' (.group pending, feed)) :
    Concur (r.rule (.group pending) feed) (r'.rule (.group pending) feed)
      fun _ feed' => Took 1 feed feed' := by
  show Concur (r.groupRule pending feed) (r'.groupRule pending feed) _
  unfold Readers.groupRule
  cases hrest : feed.rest with
  | nil => exact concur_error
  | cons leaf rest =>
    dsimp only
    split
    · exact concur_error
    · exact concur_ok (took_bump hrest)
    · exact h.further (took_bump hrest) (.group _)

/-- What stands behind a parameter list may be nothing. -/
theorem concur_qualifiers (terminator : TokenId) (pending : List TokenKind)
    (h : ConcurBefore r r' (.qualifiers terminator pending, feed)) :
    Concur (r.rule (.qualifiers terminator pending) feed)
      (r'.rule (.qualifiers terminator pending) feed) fun _ feed' => Took 0 feed feed' := by
  show Concur (r.qualifiersRule terminator pending feed) (r'.qualifiersRule terminator pending feed)
    _
  unfold Readers.qualifiersRule
  cases hrest : feed.rest with
  | nil =>
    cases pending with
    | nil => exact concur_ok (took_zero feed)
    | cons => exact concur_error
  | cons leaf rest =>
    -- each way on reads this leaf first
    have hnext : ∀ pending', Concur (r (.qualifiers terminator pending') feed.bump)
        (r' (.qualifiers terminator pending') feed.bump) fun _ feed' => Took 0 feed feed' :=
      fun pending' => h.call (took_bump hrest) _ (by simp) (Nat.zero_le _)
    dsimp only
    split
    · exact concur_ok (took_zero feed)
    · split
      · exact hnext []
      · split
        · exact concur_error
        · exact hnext _

/-- Declarators, which take at least their `;`. -/
theorem concur_declarators (pending : List TokenKind) (initialiser : Bool)
    (h : ConcurBefore r r' (.declarators pending initialiser, feed)) :
    Concur (r.rule (.declarators pending initialiser) feed)
      (r'.rule (.declarators pending initialiser) feed) fun _ feed' => Took 1 feed feed' := by
  show Concur (r.declaratorsRule pending initialiser feed)
    (r'.declaratorsRule pending initialiser feed) _
  unfold Readers.declaratorsRule
  cases hrest : feed.rest with
  | nil => exact concur_error
  | cons leaf rest =>
    -- whatever the state, the call behind this leaf has less to do
    have hnext : ∀ pending' initialiser' opened,
        Concur (r (.declarators pending' initialiser') { feed.bump with opened })
          (r' (.declarators pending' initialiser') { feed.bump with opened })
          fun _ feed' => Took 1 feed feed' := by
      intro pending' initialiser' opened
      have htook : Took 1 feed { feed.bump with opened } := took_bump hrest
      exact h.further htook _
    dsimp only
    split
    · exact concur_error
    · split
      · split
        · exact concur_error
        · exact hnext _ _ _
      · split
        · exact concur_ok (took_bump hrest)
        · split
          · exact hnext _ _ _
          · -- a name is put before those that follow
            have hnames := hnext [] false (feed.opened + 1)
            rw [← hnames.same]
            apply Concur.self
            intro names feed' hok
            split at hok
            · rename_i hread
              obtain ⟨-, rfl⟩ := EStateM.Result.ok.inj hok
              exact hnames.ok hread
            · simp at hok
        · exact hnext _ _ _
        · exact hnext _ _ _
        · exact hnext _ _ _

/-- A block: its items stand behind the brace. -/
theorem concur_block (h : ConcurBefore r r' (.block, feed)) :
    Concur (r.rule .block feed) (r'.rule .block feed) fun _ feed' => Took 1 feed feed' := by
  apply (concur_expect .lbrace).bind
  intro first feed₁ h₁
  apply concur_openNode.bind
  rintro _ feed₂ ⟨h₂, -⟩
  apply (h.further (h₁.trans h₂) .blockItems).bind
  intro children feed₃ h₃
  apply (concur_expect .rbrace).bind
  intro _ feed₄ h₄
  apply concur_node
  intro _
  exact (h₃.trans h₄).mono (by omega)

/-- A statement calls the reader of its rest where it begins itself. -/
theorem concur_statement (h : ConcurBefore r r' (.statement, feed)) :
    Concur (r.rule .statement feed) (r'.rule .statement feed)
      fun _ feed' => Took (Production.statement.least feed) feed feed' := by
  apply (concur_firstLeaf .semicolon).bind
  rintro first _ ⟨rfl, -⟩
  apply concur_openNode.bind
  rintro _ feed₂ ⟨h₂, hover⟩
  -- the statement takes what its rest takes
  have hleast : Production.statement.least feed
      ≤ 0 + (Production.statementTail (first.kind == .struct
        || aggregateWords.contains first.text)).least feed₂ := by
    unfold Production.least
    rw [hover, Nat.zero_add]
  apply (h.call h₂ (.statementTail _) (by simp) hleast).bind
  intro blocks feed₃ h₃
  exact concur_node fun _ => h₃

/-- A leaf is ahead that is no `}`. -/
theorem isOver_of_kind {kind : TokenKind} (h : some kind = feed.kindAt? 0)
    (hkind : kind ≠ .rbrace) : feed.isOver = false := by
  obtain ⟨leaf, rest, hrest, rfl⟩ := exists_of_kindAt? h
  unfold Feed.isOver
  rw [hrest]
  simpa using hkind

/-- Where nothing is ahead, a construct that may be missing takes nothing. -/
theorem isOver_of_peek {kind? : Option TokenKind} (h : kind? = feed.kindAt? 0)
    (hkind : kind? = none ∨ kind? = some .rbrace) : feed.isOver = true := by
  unfold Feed.isOver
  unfold Feed.kindAt? at h
  cases hrest : feed.rest with
  | nil => rfl
  | cons leaf rest =>
    rw [hrest] at h
    rcases hkind with rfl | rfl
    · exact absurd h (by simp)
    · exact beq_iff_eq.mpr (Option.some.inj h).symm

/-- The items of a block: behind the first, which took a leaf, there is less to do. -/
theorem concur_blockItems (h : ConcurBefore r r' (.blockItems, feed)) :
    Concur (r.rule .blockItems feed) (r'.rule .blockItems feed)
      fun _ feed' => Took (Production.blockItems.least feed) feed feed' := by
  apply concur_peekKind?.bind
  rintro kind? _ ⟨hkind, rfl⟩
  split
  · exact concur_failAtEnd
  · apply concur_ok
    apply (took_zero feed).mono
    simp [Production.least, isOver_of_peek hkind (.inr rfl)]
  · rename_i kind hnot
    have hgoes : feed.isOver = false := isOver_of_kind hkind fun he => hnot he
    have hleast : Production.blockItems.least feed = 1 := by simp [Production.least, hgoes]
    -- a construct takes a leaf, and the others follow further on
    have hstep : ∀ {x y : Reading Skeleton},
        Concur (x feed) (y feed) (fun _ feed' => Took 1 feed feed') →
        Concur ((do let child ← x; return child :: (← r .blockItems) : Reading _) feed)
          ((do let child ← y; return child :: (← r' .blockItems) : Reading _) feed)
          fun _ feed' => Took 1 feed feed' := by
      intro x y hxy
      apply hxy.bind
      intro child feed₁ h₁
      apply (h.further h₁ .blockItems).bind
      intro rest feed₂ h₂
      exact concur_ok h₂
    rw [hleast]
    dsimp only
    split
    · exact hstep concur_directive
    · apply hstep
      exact h.here .block (by simp) (by simp [Production.least])
    · exact hstep concur_loneToken
    · exact hstep concur_failHere
    · exact hstep concur_failHere
    · apply hstep
      exact h.here .statement (by simp) (by simp [Production.least, hgoes])

/-- The rest of a statement, which goes on behind a leaf or a block. -/
theorem concur_statementTail {goesOn : Bool} (h : ConcurBefore r r' (.statementTail goesOn, feed)) :
    Concur (r.rule (.statementTail goesOn) feed) (r'.rule (.statementTail goesOn) feed)
      fun _ feed' => Took ((Production.statementTail goesOn).least feed) feed feed' := by
  apply concur_peekKind?.bind
  rintro kind? _ ⟨hkind, rfl⟩
  have hover : kind? = none ∨ kind? = some .rbrace →
      Concur (EStateM.Result.ok [] feed) (.ok [] feed)
        fun (_ : List Skeleton) feed' =>
          Took ((Production.statementTail goesOn).least feed) feed feed' := by
    intro hend
    apply concur_ok
    apply (took_zero feed).mono
    simp [Production.least, isOver_of_peek hkind hend]
  split
  · exact hover (.inl rfl)
  · exact hover (.inr rfl)
  · rename_i kind hnot
    have hgoes : feed.isOver = false := isOver_of_kind hkind fun he => hnot he
    have hleast : (Production.statementTail goesOn).least feed = 1 := by
      simp [Production.least, hgoes]
    obtain ⟨leaf, rest, hrest, -⟩ := exists_of_kindAt? hkind
    -- behind a leaf the statement goes on
    have htail : ∀ {feed₁} goesOn', Took 1 feed feed₁ →
        Concur (r (.statementTail goesOn') feed₁) (r' (.statementTail goesOn') feed₁)
          fun _ feed' => Took 1 feed feed' :=
      fun goesOn' h₁ => h.further h₁ _
    rw [hleast]
    split
    · apply (concur_bump hrest).bind
      intro _ feed₁ h₁
      exact concur_ok h₁
    · apply (h.here (m := 1) .block (by simp) (by simp [Production.least])).bind
      intro child feed₁ h₁
      split
      · apply (htail goesOn h₁).bind
        intro more feed₂ h₂
        exact concur_ok h₂
      · exact concur_ok h₁
    · apply (h.here (m := 1) (.group []) (by simp) (by simp [Production.least])).bind
      exact fun _ feed₁ h₁ => htail goesOn h₁
    · apply (h.here (m := 1) (.group []) (by simp) (by simp [Production.least])).bind
      exact fun _ feed₁ h₁ => htail goesOn h₁
    · exact concur_failHere
    · exact concur_failHere
    · apply (concur_bump hrest).bind
      exact fun _ feed₁ h₁ => htail true h₁
    · apply (concur_bump hrest).bind
      exact fun _ feed₁ h₁ => htail goesOn h₁

/-- The head of a struct: its block stands behind its word. -/
theorem concur_structHead (h : ConcurBefore r r' (.structHead, feed)) :
    Concur (r.rule .structHead feed) (r'.rule .structHead feed)
      fun _ feed' => Took 1 feed feed' := by
  apply (concur_expect .struct).bind
  intro first feed₁ h₁
  apply concur_openNode.bind
  rintro _ feed₂ ⟨h₂, -⟩
  apply concur_peekKind?.bind
  rintro kind? _ ⟨-, rfl⟩
  -- with a tag or without one, the block stands further on
  have hblock : ∀ {feed₃} (tag : List Skeleton), Took 1 feed feed₃ →
      Concur ((do let body ← r .block; return (first, tag ++ [body]) : Reading _) feed₃)
        ((do let body ← r' .block; return (first, tag ++ [body]) : Reading _) feed₃)
        fun _ feed' => Took 1 feed feed' := by
    intro feed₃ tag h₃
    apply (h.further h₃ .block).bind
    intro body feed₄ h₄
    exact concur_ok h₄
  split
  · apply (concur_tokenNode _ _).bind
    intro tag feed₃ h₃
    exact hblock [tag] (((h₁.trans h₂).trans h₃).mono (by omega))
  · exact hblock [] (h₁.trans h₂)

/-- A function: its groups and its block stand behind its first leaf. -/
theorem concur_functionItem {params terminator : TokenId} {body : Bool}
    (h : ConcurBefore r r' (.functionItem params terminator body, feed)) :
    Concur (r.rule (.functionItem params terminator body) feed)
      (r'.rule (.functionItem params terminator body) feed) fun _ feed' => Took 1 feed feed' := by
  apply (concur_firstLeaf .lparen).bind
  rintro first _ ⟨rfl, -⟩
  apply concur_openNode.bind
  rintro _ feed₁ ⟨h₁, -⟩
  apply concur_bumpWhile.bind
  intro _ feed₂ h₂
  -- the parameter list is never empty
  apply (h.call (m := 1) (h₁.trans h₂) (.group []) (by simp) (by simp [Production.least])).bind
  intro _ feed₃ h₃
  apply concur_get.bind
  rintro now _ ⟨rfl, rfl⟩
  apply concur_openNode.bind
  rintro _ feed₄ ⟨h₄, -⟩
  apply (h.further (h₃.trans h₄) (.qualifiers terminator [])).bind
  intro _ feed₅ h₅
  split
  · apply (h.further h₅ .block).bind
    intro child feed₆ h₆
    exact concur_node fun _ => h₆
  · apply (concur_expect .semicolon).bind
    intro _ feed₆ h₆
    exact concur_node fun _ => (h₅.trans h₆).mono (by omega)

/-- A declaration calls the readers of functions and of statements where it begins itself. -/
theorem concur_declaration (h : ConcurBefore r r' (.declaration, feed)) :
    Concur (r.rule .declaration feed) (r'.rule .declaration feed)
      fun _ feed' => Took (Production.declaration.least feed) feed feed' := by
  apply concur_get.bind
  rintro now _ ⟨rfl, rfl⟩
  cases classify now.rest with
  | function params terminator body =>
    exact h.here (.functionItem _ _ _) (by simp) (Production.least_le _ _)
  | statement =>
    exact h.here .statement (by simp) (by simp [Production.least])

/-- A struct at file scope, which may turn out to be a declaration. -/
theorem concur_structItem (h : ConcurBefore r r' (.structItem, feed)) :
    Concur (r.rule .structItem feed) (r'.rule .structItem feed)
      fun _ feed' => Took (Production.structItem.least feed) feed feed' := by
  have hleast : Production.structItem.least feed ≤ 1 := Production.least_le _ _
  apply concur_get.bind
  rintro now _ ⟨rfl, rfl⟩
  split
  · exact concur_structDecl.mono fun h₁ => h₁.mono hleast
  · split
    · apply (h.here (m := 1) .structHead (by simp) (by simp [Production.least])).bind
      rintro ⟨first, parts⟩ feed₁ h₁
      apply (h.further h₁ (.declarators [] false)).bind
      intro names feed₂ h₂
      exact concur_node fun _ => h₂.mono hleast
    · exact h.here .declaration (by simp) (by simp [Production.least])

/-- A type definition: what it defines stands behind its word. -/
theorem concur_typedefItem (h : ConcurBefore r r' (.typedefItem, feed)) :
    Concur (r.rule .typedefItem feed) (r'.rule .typedefItem feed)
      fun _ feed' => Took 1 feed feed' := by
  apply (concur_expect .typedef).bind
  intro first feed₁ h₁
  apply concur_openNode.bind
  rintro _ feed₂ ⟨h₂, -⟩
  apply concur_get.bind
  rintro now _ ⟨rfl, rfl⟩
  have h₂ := h₁.trans h₂
  -- both ways end alike, once the parts are read
  have hend : ∀ {feed₃} (children : List Skeleton), Took 1 feed feed₃ →
      Concur ((do return Skeleton.node .typedef (← rangeFrom first) children : Reading _) feed₃)
        ((do return Skeleton.node .typedef (← rangeFrom first) children : Reading _) feed₃)
        fun _ feed' => Took 1 feed feed' := by
    intro feed₃ children h₃
    exact concur_node fun _ => h₃
  split
  · apply (h.further h₂ .structHead).bind
    rintro ⟨structFirst, parts⟩ feed₃ h₃
    apply (concur_rangeFrom structFirst).bind
    rintro range _ rfl
    apply (h.further h₃ (.declarators [] false)).bind
    intro names feed₄ h₄
    exact hend _ h₄
  · apply (h.further h₂ (.statementTail true)).bind
    intro children feed₃ h₃
    exact hend _ h₃

/-- A construct at file scope, by what is seen ahead. -/
theorem concur_item (h : ConcurBefore r r' (.item, feed)) :
    Concur (r.rule .item feed) (r'.rule .item feed)
      fun _ feed' => Took (Production.item.least feed) feed feed' := by
  have hleast : Production.item.least feed ≤ 1 := Production.least_le _ _
  apply concur_get.bind
  rintro now _ ⟨rfl, rfl⟩
  split
  · exact h.here .linkageBlock (by simp) hleast
  · apply concur_peekKind?.bind
    rintro kind? _ ⟨hkind, rfl⟩
    split
    · exact concur_directive.mono fun h₁ => h₁.mono hleast
    · exact h.here .typedefItem (by simp) hleast
    · apply h.here .structItem (by simp)
      simpa [Production.least, isOver_of_kind hkind (by simp)] using hleast
    · exact concur_loneToken.mono fun h₁ => h₁.mono hleast
    · exact concur_failHere
    · exact concur_failHere
    · exact concur_failHere
    · -- a leaf that is ahead is no `}`
      rename_i hbrace _ _
      apply h.here .declaration (by simp)
      cases kind? with
      | none =>
        have hnil : now.rest = [] := by simpa [Feed.kindAt?] using hkind.symm
        simp [Production.least, hnil]
      | some kind =>
        have hgoes := isOver_of_kind hkind fun he => hbrace (congrArg some he)
        simpa [Production.least, hgoes] using hleast

/-- A linkage block: its constructs stand behind its brace. -/
theorem concur_linkageBlock (h : ConcurBefore r r' (.linkageBlock, feed)) :
    Concur (r.rule .linkageBlock feed) (r'.rule .linkageBlock feed)
      fun _ feed' => Took 1 feed feed' := by
  apply (concur_firstLeaf .lbrace).bind
  rintro first _ ⟨rfl, rest, hrest⟩
  apply concur_openNode.bind
  rintro _ feed₁ ⟨h₁, -⟩
  apply concur_bumpAny.bind
  intro _ feed₂ h₂
  apply (concur_expect .string).bind
  intro _ feed₃ h₃
  apply (concur_expect .lbrace).bind
  intro _ feed₄ h₄
  have htook : Took 1 feed feed₄ := (((h₁.trans h₂).trans h₃).trans h₄).mono (by omega)
  apply (h.further htook .linkageItems).bind
  intro children feed₅ h₅
  apply (concur_expect .rbrace).bind
  intro _ feed₆ h₆
  exact concur_node fun _ => (h₅.trans h₆).mono (by omega)

/-- The constructs of a linkage block: behind the first, which took a leaf, there is less to
    do. -/
theorem concur_linkageItems (h : ConcurBefore r r' (.linkageItems, feed)) :
    Concur (r.rule .linkageItems feed) (r'.rule .linkageItems feed)
      fun _ feed' => Took (Production.linkageItems.least feed) feed feed' := by
  apply concur_peekKind?.bind
  rintro kind? _ ⟨hkind, rfl⟩
  split
  · exact concur_failAtEnd
  · apply concur_ok
    apply (took_zero feed).mono
    simp [Production.least, isOver_of_peek hkind (.inr rfl)]
  · rename_i kind hnot
    obtain ⟨leaf, rest, hrest, -⟩ := exists_of_kindAt? hkind
    have hleast : Production.linkageItems.least feed ≤ 1 := Production.least_le _ _
    apply (h.here (m := 1) .item (by simp) (by simp [Production.least, hrest])).bind
    intro child feed₁ h₁
    apply (h.further h₁ .linkageItems).bind
    intro more feed₂ h₂
    exact concur_ok (h₂.mono hleast)

/-- **One step of each production.**  Readers that agree wherever there is less to do agree after
    one step more, which takes what the production takes at least. -/
theorem concur_rule (h : ConcurBefore r r' (p, feed)) :
    Concur (r.rule p feed) (r'.rule p feed) fun _ feed' => Took (p.least feed) feed feed' := by
  cases p with
  | item => exact concur_item h
  | linkageBlock => exact concur_linkageBlock h
  | linkageItems => exact concur_linkageItems h
  | typedefItem => exact concur_typedefItem h
  | structItem => exact concur_structItem h
  | structHead => exact concur_structHead h
  | declaration => exact concur_declaration h
  | functionItem => exact concur_functionItem h
  | block => exact concur_block h
  | blockItems => exact concur_blockItems h
  | statement => exact concur_statement h
  | statementTail => exact concur_statementTail h
  | declarators => exact concur_declarators _ _ h
  | qualifiers => exact concur_qualifiers _ _ h
  | group => exact concur_group _ h

end Rule

end KernelPrep.Outline
