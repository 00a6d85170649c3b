/-
  KernelPrep.Proofs.Outline.Fresh — where constructs at file scope begin.

  A construct at file scope ends with a `;`, with a `}` or with its line, or else before the
  `}` around it or at the end of the file.  So the next one begins behind a `;` or a `}`, on a
  new line, or behind the `{` of a linkage block: never right behind a word.

  Main definitions:
    * `Outline.Feed.Ended` — a construct may end here;
    * `Outline.Fresh`      — a construct may begin with a leaf;
    * `Skeleton.scopeStarts` — the first tokens of the constructs at file scope.

  Main statements:
    * `Outline.ConstructRead.ends` — a construct at file scope ends where it may;
    * `Outline.parse_fresh` — all constructs at file scope begin where they may.
-/
import KernelPrep.Proofs.Outline.Reading

namespace KernelPrep

namespace Outline

/-! ## §1. The ends of constructs -/

/-- The leaf read last closes a construct. -/
def Feed.Closed (feed : Feed) : Prop :=
  ∃ last, feed.last? = some last ∧ (last.kind = .semicolon ∨ last.kind = .rbrace)

/-- A construct ends here: with the leaf read last, with its line, before a `}` or at the end of
    the file. -/
def Feed.Ended (feed : Feed) : Prop :=
  feed.Closed ∨ ∀ leaf, feed.rest.head? = some leaf → leaf.kind = .rbrace ∨ leaf.startsLine = true

/-- The construct, which is no linkage block, ends where it may. -/
def Ends (s : Skeleton) (feed : Feed) : Prop := feed.Ended ∧ s.kind ≠ .linkageBlock

variable {feed feed' : Feed} {s : Skeleton} {depth : Nat}

/-- The last leaf taken closes a construct. -/
theorem Consumed.closed (leaves : List Leaf) {last : Leaf} {n : Nat} {mid : Feed}
    (h : Consumed mid feed' (leaves ++ [last]) n)
    (hkind : last.kind = .semicolon ∨ last.kind = .rbrace) : feed'.Closed :=
  ⟨last, by rw [h.last, List.getLast?_concat, Option.some_or], hkind⟩

/-- A directive ends with its line. -/
theorem directive_ends (h : directive feed = .ok s feed') : Ends s feed' := by
  obtain ⟨hash, body, -, -, -, hbehind, rfl⟩ := directive_inv h
  exact ⟨.inr fun leaf hleaf => .inr (hbehind leaf hleaf), NodeKind.noConfusion⟩

/-- Declarators end with their `;`. -/
theorem declaratorsFrom_closed {opened : Nat} {pending : List TokenKind} {initialiser : Bool}
    {last? : Option Leaf} {rest : List Leaf} {names : List Skeleton}
    (h : declaratorsFrom opened pending initialiser last? rest = .ok names feed') :
    feed'.Closed := by
  induction rest generalizing opened pending initialiser last? names with
  | nil =>
    unfold declaratorsFrom at h
    exact absurd h failAtEnd_ne_ok
  | cons leaf rest ih =>
    rcases declaratorsFrom_inv h with ⟨_, _, hrest⟩ | ⟨hkind, -, rfl⟩ | ⟨_, -, hrest⟩
    · exact ih hrest
    · exact ⟨leaf, rfl, .inl hkind⟩
    · exact ih hrest

/-- A block ends with its brace. -/
theorem block_closed (h : block depth feed = .ok s feed') : feed'.Closed := by
  cases depth with
  | zero => exact absurd h block_zero_ne_ok
  | succ depth =>
    obtain ⟨_, closer, _, _, mid', -, hcloser, -, -, hclose, -⟩ := block_inv h
    exact hclose.closed [] (.inr hcloser)

/-- The rest of a statement ends where the statement may. -/
theorem statementTail_ended {goesOn : Bool} {ss : List Skeleton}
    (h : statementTail depth goesOn feed = .ok ss feed') : feed'.Ended := by
  induction depth generalizing goesOn feed ss with
  | zero => exact absurd h statementTail_zero_ne_ok
  | succ depth ih =>
    cases statementTail_inv h with
    | done hend => exact .inr fun leaf hleaf => .inl (hend leaf hleaf)
    | semicolon hkind hc => exact .inl (hc.closed [] (.inl hkind))
    | block hchild => exact .inl (block_closed hchild)
    | blockOn _ htail => exact ih htail
    | group _ _ _ htail => exact ih htail
    | assign _ _ htail => exact ih htail
    | word _ _ htail => exact ih htail

/-- A statement ends with a `;` or a block, or before what closes the block around it. -/
theorem statement_ends (h : statement depth feed = .ok s feed') : Ends s feed' := by
  cases depth with
  | zero => exact absurd h statement_zero_ne_ok
  | succ depth =>
    obtain ⟨_, _, _, _, -, -, hblocks, rfl⟩ := statement_inv h
    exact ⟨statementTail_ended hblocks, NodeKind.noConfusion⟩

/-- A type definition ends as its declarators or its statement do. -/
theorem typedefItem_ends (h : typedefItem depth feed = .ok s feed') : Ends s feed' := by
  obtain ⟨_, _, _, -, -, rfl, hchildren⟩ := typedefItem_inv h
  refine ⟨?_, NodeKind.noConfusion⟩
  rcases hchildren with ⟨_, _, _, _, -, hnames, -⟩ | ⟨-, htail⟩
  · exact .inl (declaratorsFrom_closed hnames)
  · exact statementTail_ended htail

/-- A declaration ends as a function or a statement does. -/
theorem declaration_ends (h : declaration depth feed = .ok s feed') : Ends s feed' := by
  rcases declaration_inv h with ⟨_, _, _, -, hfun⟩ | ⟨-, hstatement⟩
  · obtain ⟨_, _, _, _, _, _, -, -, -, -, -, hend⟩ := functionItem_inv hfun
    rcases hend with ⟨-, _, hblock, rfl⟩ | ⟨-, semi, hsemi, hclose, rfl⟩
    · exact ⟨.inl (block_closed hblock), NodeKind.noConfusion⟩
    · exact ⟨.inl (hclose.closed [] (.inl hsemi)), NodeKind.noConfusion⟩
  · exact statement_ends hstatement

/-- A struct at file scope ends as its declarators do. -/
theorem structItem_ends (h : structItem depth feed = .ok s feed') : Ends s feed' := by
  rcases structItem_inv h with hdecl | ⟨_, _, _, _, -, hnames, rfl⟩ | ⟨-, -, hdeclaration⟩
  · obtain ⟨first, tag, last, -, -, hlast, hc, rfl⟩ := structDecl_inv hdecl
    exact ⟨.inl (hc.closed [first, tag] (.inl hlast)), NodeKind.noConfusion⟩
  · exact ⟨.inl (declaratorsFrom_closed hnames), NodeKind.noConfusion⟩
  · exact declaration_ends hdeclaration

/-- A linkage block ends with its brace. -/
theorem linkageBlock_ended (h : linkageBlock depth feed = .ok s feed') : feed'.Ended := by
  cases depth with
  | zero => exact absurd h linkageBlock_zero_ne_ok
  | succ depth =>
    obtain ⟨_, _, _, closer, _, _, mid', -, -, hcloser, -, -, hclose, -⟩ := linkageBlock_inv h
    exact .inl (hclose.closed [] (.inr hcloser))

/-- A construct that is no linkage block begins with no `}` and ends where it may. -/
theorem ConstructRead.ends {first : Leaf} {rest : List Leaf} (hrest : feed.rest = first :: rest)
    (h : ConstructRead depth first feed feed' s) : first.kind ≠ .rbrace ∧ Ends s feed' := by
  cases h with
  | directive hs =>
    obtain ⟨hash, body, hc, hkind, -⟩ := directive_inv hs
    obtain ⟨rfl, -⟩ := List.cons.inj (hrest.symm.trans hc.rest)
    exact ⟨by simp [hkind], directive_ends hs⟩
  | typedef hs =>
    obtain ⟨first', mid, _, hkind, hc, -⟩ := typedefItem_inv hs
    obtain ⟨rfl, -⟩ := List.cons.inj (hrest.symm.trans hc.rest)
    exact ⟨by simp [hkind], typedefItem_ends hs⟩
  | struct hkind hs => exact ⟨by simp [hkind], structItem_ends hs⟩
  | lone hkind hs =>
    obtain ⟨leaf, hc, rfl⟩ := loneToken_inv hs
    obtain ⟨rfl, -⟩ := List.cons.inj (hrest.symm.trans hc.rest)
    exact ⟨by simp [hkind], .inl (hc.closed [] (.inl hkind)), NodeKind.noConfusion⟩
  | declaration hkind hs => exact ⟨fun he => hkind (by simp [he]), declaration_ends hs⟩

end Outline

/-! ## §2. The beginnings of constructs -/

namespace Skeleton

mutual

/-- The first tokens of the construct and, in a linkage block, of those inside. -/
def scopeStarts : Skeleton → List TokenId
  | .node kind range children =>
    range.first :: if kind = .linkageBlock then scopeStartsAll children else []

/-- The first tokens of several constructs and of those inside of linkage blocks. -/
def scopeStartsAll : List Skeleton → List TokenId
  | [] => []
  | s :: rest => scopeStarts s ++ scopeStartsAll rest

end

/-- Of a construct that is no linkage block the first token counts. -/
theorem scopeStarts_of_kind {s : Skeleton} (h : s.kind ≠ .linkageBlock) :
    s.scopeStarts = [s.range.first] := by
  obtain ⟨kind, range, children⟩ := s
  unfold scopeStarts
  rw [if_neg (show kind ≠ .linkageBlock from h)]
  rfl

end Skeleton

namespace Outline

open Skeleton (scopeStarts scopeStartsAll)

/-- A construct at file scope may begin with the leaf, which stands behind `before?`. -/
def Fresh (before? : Option Leaf) (leaf : Leaf) : Prop :=
  leaf.startsLine = true ∨ ∀ before, before? = some before →
    before.kind = .semicolon ∨ before.kind = .rbrace ∨ before.kind = .lbrace

/-- The token is that of a leaf of the file with which a construct may begin. -/
def FreshAt (file : List Leaf) (id : TokenId) : Prop :=
  ∃ before leaf behind, file = before ++ leaf :: behind ∧ leaf.id = id
    ∧ Fresh before.getLast? leaf

/-- The feed is what is left of the file. -/
def Feed.Of (file : List Leaf) (feed : Feed) : Prop :=
  ∃ before, file = before ++ feed.rest ∧ feed.last? = before.getLast?

/-- A construct may begin here. -/
def Feed.Ready (feed : Feed) : Prop :=
  ∀ leaf, feed.rest.head? = some leaf → leaf.kind ≠ .rbrace → Fresh feed.last? leaf

variable {file : List Leaf} {feed feed' : Feed} {s : Skeleton} {depth : Nat}

/-- What is left of what is left of a file. -/
theorem Consumed.of {leaves : List Leaf} {n : Nat} (h : Consumed feed feed' leaves n)
    (hof : feed.Of file) : feed'.Of file := by
  obtain ⟨before, hfile, hlast⟩ := hof
  refine ⟨before ++ leaves, ?_, ?_⟩
  · rw [hfile, h.rest, List.append_assoc]
  · rw [h.last, hlast, List.getLast?_append]

/-- Where a construct ended another may begin. -/
theorem Feed.Ended.ready (h : feed.Ended) : feed.Ready := by
  intro leaf hleaf hkind
  rcases h with ⟨last, hlast, hclosed⟩ | hnext
  · refine Or.inr fun before hbefore => ?_
    rw [hlast] at hbefore
    rw [← Option.some.inj hbefore]
    exact hclosed.imp_right Or.inl
  · exact Or.inl ((hnext leaf hleaf).resolve_left hkind)

/-- A construct read where one may begin begins there. -/
theorem Yields.fresh (h : Yields s feed feed') (hof : feed.Of file) (hready : feed.Ready)
    (hkind : feed.kindAt? 0 ≠ some .rbrace) : FreshAt file s.range.first := by
  obtain ⟨leaves, hc, hcovers⟩ := h
  obtain ⟨leaf, hleaf, hid⟩ := Option.map_eq_some_iff.mp hcovers.bounds.1
  obtain ⟨more, rfl⟩ := List.head?_eq_some_iff.mp hleaf
  obtain ⟨before, hfile, hlast⟩ := hof
  rw [hc.rest] at hfile
  refine ⟨before, leaf, more ++ feed'.rest, by simpa using hfile, hid, ?_⟩
  rw [← hlast]
  refine hready leaf (by rw [hc.rest]; rfl) fun hbrace => hkind ?_
  unfold Feed.kindAt?
  rw [hc.rest, ← hbrace]
  rfl

/-- What is known of the readers at file scope at one depth. -/
structure ItemsFresh (file : List Leaf) (depth : Nat) : Prop where
  item : ∀ {feed feed' s}, feed.rest ≠ [] → (feed.rest.map (·.id)).Nodup → feed.Of file →
    feed.Ready → item depth feed = .ok s feed' →
    (∀ id ∈ s.scopeStarts, FreshAt file id) ∧ feed'.Ended
  linkageBlock : ∀ {feed feed' s}, (feed.rest.map (·.id)).Nodup → feed.Of file → feed.Ready →
    feed.kindAt? 0 ≠ some .rbrace → linkageBlock depth feed = .ok s feed' →
    ∀ id ∈ s.scopeStarts, FreshAt file id
  linkageItems : ∀ {feed feed' ss}, (feed.rest.map (·.id)).Nodup → feed.Of file → feed.Ready →
    linkageItems depth feed = .ok ss feed' → ∀ id ∈ scopeStartsAll ss, FreshAt file id

/-- Without depth nothing is read. -/
theorem itemsFresh_zero : ItemsFresh file 0 where
  item _ _ _ _ h := absurd h item_zero_ne_ok
  linkageBlock _ _ _ _ h := absurd h linkageBlock_zero_ne_ok
  linkageItems _ _ _ h := absurd h linkageItems_zero_ne_ok

/-- A construct begins where one may, and ends where another may begin. -/
theorem item_fresh_succ (hd : ItemsFresh file depth)
    (hlinked : ∀ leaf ∈ file, leaf.text = "extern" → leaf.kind ≠ .rbrace)
    (hne : feed.rest ≠ []) (hnodup : (feed.rest.map (·.id)).Nodup) (hof : feed.Of file)
    (hready : feed.Ready) (h : item (depth + 1) feed = .ok s feed') :
    (∀ id ∈ s.scopeStarts, FreshAt file id) ∧ feed'.Ended := by
  obtain ⟨first, rest, hrest⟩ := List.exists_cons_of_ne_nil hne
  have hyields := (itemsOk (depth + 1)).item hne hnodup h
  rcases item_inv hrest h with ⟨hat, hblock⟩ | ⟨-, hread⟩
  · refine ⟨hd.linkageBlock hnodup hof hready ?_ hblock, linkageBlock_ended hblock⟩
    -- a linkage block starts with a word
    obtain ⟨before, hfile, -⟩ := hof
    have htext : first.text = "extern" := by
      unfold atLinkageBlock at hat
      rw [hrest] at hat
      simp only [List.head?_cons, Option.any_some, Bool.and_eq_true, beq_iff_eq] at hat
      exact hat.1.1
    rw [kindAt?_zero hrest]
    intro he
    exact hlinked first (by simp [hfile, hrest]) htext (Option.some.inj he)
  · obtain ⟨hkind, hended, hscope⟩ := hread.ends hrest
    refine ⟨?_, hended⟩
    rw [Skeleton.scopeStarts_of_kind hscope]
    refine List.forall_mem_singleton.mpr (hyields.fresh hof hready ?_)
    rw [kindAt?_zero hrest]
    exact fun he => hkind (Option.some.inj he)

/-- So do the constructs of a linkage block, the first behind its brace. -/
theorem linkageBlock_fresh_succ (hd : ItemsFresh file depth)
    (hnodup : (feed.rest.map (·.id)).Nodup) (hof : feed.Of file) (hready : feed.Ready)
    (hkind : feed.kindAt? 0 ≠ some .rbrace)
    (h : linkageBlock (depth + 1) feed = .ok s feed') :
    ∀ id ∈ s.scopeStarts, FreshAt file id := by
  have hfirst := ((itemsOk (depth + 1)).linkageBlock hnodup h).fresh hof hready hkind
  obtain ⟨first, name, opener, closer, children, mid, mid', -, hopener, -, hhead, hchildren, -,
    rfl⟩ := linkageBlock_inv h
  -- the first construct inside stands behind the brace
  have hready' : mid.Ready := by
    refine fun leaf _ _ => .inr fun before hbefore => ?_
    rw [hhead.last] at hbefore
    obtain rfl : opener = before := by simpa using hbefore
    exact .inr (.inr hopener)
  have hinside := hd.linkageItems (hhead.nodup hnodup) (hhead.of hof) hready' hchildren
  unfold Skeleton.scopeStarts
  rw [if_pos rfl]
  exact List.forall_mem_cons.mpr ⟨hfirst, hinside⟩

/-- Constructs one behind the other. -/
theorem linkageItems_fresh_succ (hd : ItemsFresh file depth) {ss : List Skeleton}
    (hnodup : (feed.rest.map (·.id)).Nodup) (hof : feed.Of file) (hready : feed.Ready)
    (h : linkageItems (depth + 1) feed = .ok ss feed') :
    ∀ id ∈ scopeStartsAll ss, FreshAt file id := by
  unfold Skeleton.scopeStartsAll
  rcases linkageItems_inv h with ⟨_, _, -, -, rfl, -⟩ | ⟨child, more, mid, hne, rfl, hchild, hmore⟩
  · simp
  · obtain ⟨leaves, hc, -⟩ := (itemsOk depth).item hne hnodup hchild
    obtain ⟨hfirst, hended⟩ := hd.item hne hnodup hof hready hchild
    have hrest := hd.linkageItems (hc.nodup hnodup) (hc.of hof) hended.ready hmore
    exact fun id hid => (List.mem_append.mp hid).elim (hfirst id) (hrest id)

/-- **Constructs at file scope** begin where they may, at any depth. -/
theorem itemsFresh (hlinked : ∀ leaf ∈ file, leaf.text = "extern" → leaf.kind ≠ .rbrace)
    (depth : Nat) : ItemsFresh file depth := by
  induction depth with
  | zero => exact itemsFresh_zero
  | succ depth ih =>
    exact ⟨item_fresh_succ ih hlinked, linkageBlock_fresh_succ ih, linkageItems_fresh_succ ih⟩

/-- The constructs of a file. -/
theorem parseFrom_fresh (hlinked : ∀ leaf ∈ file, leaf.text = "extern" → leaf.kind ≠ .rbrace)
    {count : Nat} (hnodup : (feed.rest.map (·.id)).Nodup) (hof : feed.Of file)
    (hready : feed.Ready) :
    ∀ id ∈ scopeStartsAll (parseFrom count feed).items, FreshAt file id := by
  induction count generalizing feed with
  | zero =>
    unfold parseFrom Skeleton.scopeStartsAll
    simp
  | succ count ih =>
    unfold parseFrom
    split
    · unfold Skeleton.scopeStartsAll
      simp
    · rename_i hempty
      have hne : feed.rest ≠ [] := by simpa using hempty
      cases hitem : item (depthBound feed.rest.length) feed with
      | error error feed' =>
        unfold Skeleton.scopeStartsAll
        simp
      | ok child feed' =>
        obtain ⟨leaves, hc, -⟩ := (itemsOk _).item hne hnodup hitem
        obtain ⟨hfirst, hended⟩ := (itemsFresh hlinked _).item hne hnodup hof hready hitem
        have hrest := ih (hc.nodup hnodup) (hc.of hof) hended.ready
        unfold Skeleton.scopeStartsAll
        exact fun id hid => (List.mem_append.mp hid).elim (hfirst id) (hrest id)

/-- **All constructs at file scope** of a file begin where they may. -/
theorem parse_fresh {leaves : List Leaf} (hnodup : (leaves.map (·.id)).Nodup)
    (hlinked : ∀ leaf ∈ leaves, leaf.text = "extern" → leaf.kind ≠ .rbrace) :
    ∀ id ∈ scopeStartsAll (parse leaves).items, FreshAt leaves id :=
  parseFrom_fresh hlinked hnodup ⟨[], rfl, rfl⟩ fun _ _ _ => Or.inr fun _ hbefore => by
    simp at hbefore

end Outline

end KernelPrep
