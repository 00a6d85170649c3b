/-
  KernelPrep.Proofs.Outline.Leaves — the token list of a source and its leaves.

  Reading a source appends one token after the other, so the handles of a list that was
  just read count its tokens in the order of the file and none is detached.  The leaves of
  a list are its significant tokens, in the order of the file.

  Main definitions:
    * `TokenList.Unedited`   — the handles count the tokens of the file;
    * `TokenList.Ascending`  — leaves that follow one another in the file.

  Main statements:
    * `TokenList.lex_unedited` — so it is after reading a source;
    * `TokenList.leaves_ids`   — the leaves are the significant tokens;
    * `TokenList.leaves_ascending` — and follow one another.
-/
import KernelPrep.Outline.Leaf
import KernelPrep.Proofs.Document.Layout
import KernelPrep.Proofs.Token.Making
import KernelPrep.Token.Lex

namespace KernelPrep

/-! ## §1. Lists without repetitions -/

/-- A member of a list without repetitions has one place in it. -/
theorem split_unique {α β : Type} {f : α → β} {a b c d : List α} {x y : α}
    (hnodup : ((a ++ x :: b).map f).Nodup) (h : a ++ x :: b = c ++ y :: d) (hxy : f x = f y) :
    a = c ∧ x = y := by
  rcases List.append_eq_append_iff.mp h with ⟨m, rfl, hm⟩ | ⟨m, rfl, hm⟩
  · cases m with
    | nil => exact ⟨by simp, (List.cons.inj hm).1⟩
    | cons z m =>
      obtain ⟨rfl, rfl⟩ := List.cons.inj hm
      rw [List.map_append] at hnodup
      exact absurd (List.nodup_append.mp hnodup).2.1 (by simp [hxy])
  · cases m with
    | nil => exact ⟨by simp, (List.cons.inj hm).1.symm⟩
    | cons z m =>
      obtain ⟨rfl, rfl⟩ := List.cons.inj hm
      rw [List.map_append] at hnodup
      exact absurd hxy.symm ((List.nodup_append.mp hnodup).2.2 (f y) (by simp) (f x) (by simp))

/-- What stands before an entry that occurs once. -/
theorem takeWhile_ne_eq {α : Type} [DecidableEq α] {items a b : List α} {x : α}
    (hnodup : items.Nodup) (h : items = a ++ x :: b) : items.takeWhile (· ≠ x) = a := by
  subst h
  have ha : ∀ y ∈ a, (decide (y ≠ x)) = true := fun y hy => decide_eq_true fun he => by
    have := (List.nodup_append.mp hnodup).2.2 y hy x List.mem_cons_self
    exact this he
  rw [List.takeWhile_append_of_pos ha, List.takeWhile_cons_of_neg (by simp), List.append_nil]

namespace TokenList

/-! ## §2. Reading a source -/

/-- The handles that were given out when `n` tokens were made. -/
def handles (n : Nat) : List TokenId := (List.range n).map TokenId.mk

/-- One more token has the next handle. -/
theorem handles_succ (n : Nat) : handles (n + 1) = handles n ++ [⟨n⟩] := by
  unfold handles
  rw [List.range_succ, List.map_append]
  rfl

/-- The handles count the tokens. -/
theorem getElem?_handles {n i : Nat} (h : i < n) : (handles n)[i]? = some ⟨i⟩ := by
  unfold handles
  rw [List.getElem?_map, List.getElem?_range h]
  rfl

/-- Every token is linked, and the tokens are linked in the order in which they were made. -/
structure Unedited (list : TokenList) : Prop where
  threaded : list.Threaded (handles list.slots.size)
  loose : list.Loose

/-- Before the reading there are no tokens. -/
theorem unedited_empty (source : String) : (TokenList.empty source).Unedited :=
  ⟨threaded_nil (get?_empty source) rfl rfl rfl, loose_of_get?_none (get?_empty source)⟩

/-- One more token read. -/
theorem Unedited.append {list : TokenList} (h : list.Unedited) (kind : TokenKind) (span : Span)
    (line : Nat) : (list.append kind span line).2.Unedited := by
  have hspliced := append_spliced h.threaded h.loose kind span line
  have hsize : (list.append kind span line).2.slots.size = list.slots.size + 1 := by
    rw [hspliced.size]
    exact Array.size_push _
  refine ⟨?_, hspliced.loose⟩
  rw [hsize, handles_succ]
  exact append_threaded h.threaded h.loose kind span line

/-- Reading appends tokens and does nothing else. -/
theorem readFrom_unedited (lexemes : List (Nat × Lexeme)) {state : Lexing}
    (h : state.tokens.Unedited) : (state.readFrom lexemes).tokens.Unedited := by
  induction lexemes generalizing state with
  | nil => exact h
  | cons entry rest ih =>
    obtain ⟨start, lexeme⟩ := entry
    unfold Lexing.readFrom
    dsimp only
    split
    · exact h
    · exact ih (h.append _ _ _)

/-- **A list that was just read** has its tokens in the order of their handles. -/
theorem lex_unedited {source : String} {list : TokenList}
    (h : TokenList.lex source = .ok list) : list.Unedited := by
  unfold TokenList.lex at h
  dsimp only at h
  split at h
  · simp at h
  · obtain rfl := Except.ok.inj h
    exact readFrom_unedited _ (unedited_empty source)

namespace Unedited

variable {list : TokenList}

/-- A list that was just read is well-formed. -/
theorem wellFormed (h : list.Unedited) : list.WellFormed := h.threaded.wellFormed h.loose

/-- The file goes through all handles given out. -/
theorem ids_eq (h : list.Unedited) : list.ids = handles list.slots.size := h.threaded.ids_eq

/-- Every token made is in the file. -/
theorem mem_ids_iff (h : list.Unedited) {id : TokenId} :
    id ∈ list.ids ↔ id.index < list.slots.size := by
  rw [h.ids_eq]
  unfold handles
  simp only [List.mem_map, List.mem_range]
  constructor
  · rintro ⟨i, hi, rfl⟩
    exact hi
  · intro hlt
    exact ⟨id.index, hlt, rfl⟩

/-- The place of a token is what its handle says. -/
theorem place_eq (h : list.Unedited) {id : TokenId} (hid : id ∈ list.ids) :
    list.place id = id.index :=
  h.threaded.place_eq (getElem?_handles (h.mem_ids_iff.mp hid))

/-- Handles grow through the file. -/
theorem pairwise_index (h : list.Unedited) :
    list.ids.Pairwise fun a b => a.index < b.index := by
  rw [h.ids_eq]
  unfold handles
  rw [List.pairwise_map]
  exact List.pairwise_lt_range

/-- A token has as many tokens before it as its handle says. -/
theorem index_eq (h : list.Unedited) {a b : List TokenId} {id : TokenId}
    (hids : list.ids = a ++ id :: b) : id.index = a.length := by
  have hid : id ∈ list.ids := by simp [hids]
  have hat : list.ids[a.length]? = some id := by simp [hids]
  have hplace := h.place_eq hid
  rw [h.threaded.place_eq (by rwa [← h.ids_eq])] at hplace
  exact hplace.symm

/-- **A range of a list that was just read** holds the handles from one end to the other. -/
theorem range_eq (h : list.Unedited) {range : TokenRange} (hlast : range.last ∈ list.ids)
    (hle : range.first.index ≤ range.last.index) :
    ∃ before after, list.ids = before ++ list.range range ++ after
      ∧ range.Ends (list.range range)
      ∧ ∀ x, x ∈ list.range range
          ↔ range.first.index ≤ x.index ∧ x.index ≤ range.last.index := by
  obtain ⟨⟨first⟩, ⟨last⟩⟩ := range
  have hlt : last < list.slots.size := h.mem_ids_iff.mp hlast
  obtain ⟨width, rfl⟩ := Nat.exists_eq_add_of_le (show first ≤ last from hle)
  obtain ⟨more, hmore⟩ := Nat.exists_eq_add_of_le (Nat.succ_le_of_lt hlt)
  have hsize : list.slots.size = first + (width + 1) + more := by omega
  -- the handles of an unedited file count up, so a range of it is an interval
  have hsplit : list.ids = handles first ++ (List.range' first (width + 1)).map TokenId.mk
      ++ (List.range' (first + (width + 1)) more).map TokenId.mk := by
    have h1 := @List.range'_append_1 0 first (width + 1)
    have h2 := @List.range'_append_1 0 (first + (width + 1)) more
    rw [Nat.zero_add] at h1 h2
    rw [h.ids_eq, hsize]
    unfold handles
    rw [← List.map_append, ← List.map_append, List.range_eq_range', List.range_eq_range', h1, h2]
  have hends : TokenRange.Ends ⟨⟨first⟩, ⟨first + width⟩⟩
      ((List.range' first (width + 1)).map TokenId.mk) := by
    refine ⟨?_, ?_⟩
    · rw [List.head?_map, List.head?_range', if_neg (by omega)]
      rfl
    · rw [List.getLast?_map, List.getLast?_range', if_neg (by omega)]
      rfl
  have hrange := (hsplit ▸ h.wellFormed.threaded).range_eq hends.1 hends.2
  rw [hrange]
  refine ⟨_, _, hsplit, hends, fun x => ?_⟩
  rw [List.mem_map]
  simp only [List.mem_range'_1]
  constructor
  · rintro ⟨i, hi, rfl⟩
    exact ⟨hi.1, Nat.le_of_lt_succ hi.2⟩
  · intro hx
    exact ⟨x.index, ⟨hx.1, Nat.lt_succ_of_le hx.2⟩, rfl⟩

end Unedited

/-! ## §3. The leaves of a list -/

end TokenList

/-- Leaves are made of the tokens that are not trivia. -/
theorem Leaf.ids_ofTokensFrom (tokens : List (TokenId × Token)) (escaped broken : Bool) :
    (Leaf.ofTokensFrom escaped broken tokens).map (·.id)
      = (tokens.filter fun entry => !entry.2.kind.isTrivia).map (·.1) := by
  induction tokens generalizing escaped broken with
  | nil => rfl
  | cons entry rest ih =>
    obtain ⟨id, token⟩ := entry
    unfold Leaf.ofTokensFrom
    split
    · rename_i hkind
      rw [ih, List.filter_cons_of_neg (by simp [hkind, TokenKind.isTrivia])]
    · rename_i hkind
      rw [ih, List.filter_cons_of_neg (by simp [hkind, TokenKind.isTrivia])]
    · rename_i hkind
      rw [ih, List.filter_cons_of_neg (by simp [hkind, TokenKind.isTrivia])]
    · rename_i hblank heol hcomment
      have hsig : token.kind.isTrivia = false := by
        cases hk : token.kind <;> simp_all [TokenKind.isTrivia]
      rw [List.map_cons, ih, List.filter_cons_of_pos (by simp [hsig]), List.map_cons]

/-- Every leaf is a token. -/
theorem Leaf.mem_ofTokensFrom {tokens : List (TokenId × Token)} {escaped broken : Bool}
    {leaf : Leaf}
    (h : leaf ∈ Leaf.ofTokensFrom escaped broken tokens) :
    ∃ token, (leaf.id, token) ∈ tokens ∧ leaf.kind = token.kind ∧ leaf.text = token.text := by
  induction tokens generalizing escaped broken with
  | nil => simp [Leaf.ofTokensFrom] at h
  | cons entry rest ih =>
    obtain ⟨id, token⟩ := entry
    have hrest : ∀ {escaped broken}, leaf ∈ Leaf.ofTokensFrom escaped broken rest →
        ∃ token', (leaf.id, token') ∈ (id, token) :: rest ∧ leaf.kind = token'.kind
          ∧ leaf.text = token'.text := by
      intro escaped broken hin
      obtain ⟨token', hmem, hsame⟩ := ih hin
      exact ⟨token', List.mem_cons_of_mem _ hmem, hsame⟩
    -- formatting makes no leaf, and any other token exactly one
    unfold Leaf.ofTokensFrom at h
    split at h
    · exact hrest h
    · exact hrest h
    · exact hrest h
    · rcases List.mem_cons.mp h with rfl | hin
      · exact ⟨token, List.mem_cons_self, rfl, rfl⟩
      · exact hrest hin

namespace TokenList

variable {list : TokenList} {file : List TokenId}

/-- A token counts unless it is of a kind that does not. -/
theorem isSignificant_of_get? {id : TokenId} {token : Token} (h : list.get? id = some token) :
    list.isSignificant id = !token.kind.isTrivia := by
  unfold isSignificant kind?
  rw [h]
  rfl

/-- The significant ones among tokens that exist. -/
theorem significant_entries {ids : List TokenId}
    (hlive : ∀ id ∈ ids, ∃ token, list.get? id = some token) :
    ((ids.filterMap fun id => (list.get? id).map (id, ·)).filter
        fun entry => !entry.2.kind.isTrivia).map (·.1) = ids.filter list.isSignificant := by
  induction ids with
  | nil => rfl
  | cons id rest ih =>
    obtain ⟨token, htoken⟩ := hlive id List.mem_cons_self
    have hrest := ih fun x hx => hlive x (List.mem_cons_of_mem _ hx)
    rw [List.filterMap_cons, htoken]
    simp only [Option.map_some]
    rw [List.filter_cons, List.filter_cons, isSignificant_of_get? htoken]
    split
    · rw [List.map_cons, hrest]
    · exact hrest

/-- **The leaves of a file** are its significant tokens, in order. -/
theorem leaves_ids (h : list.Threaded file) :
    list.leaves.map (·.id) = file.filter list.isSignificant := by
  unfold leaves Leaf.ofTokens entries
  rw [Leaf.ids_ofTokensFrom, h.ids_eq]
  refine significant_entries fun id hid => ?_
  obtain ⟨token, htoken, -⟩ := h.get?_of_mem hid
  exact ⟨token, htoken⟩

/-- Each leaf stands before the next in the file. -/
def Ascending (list : TokenList) (leaves : List Leaf) : Prop :=
  leaves.Pairwise fun a b => list.place a.id < list.place b.id

/-- Places grow through the file. -/
theorem Threaded.pairwise_place (h : list.Threaded file) :
    file.Pairwise fun a b => list.place a < list.place b := by
  rw [List.pairwise_iff_getElem]
  intro i j hi hj hij
  rw [h.place_eq (List.getElem?_eq_getElem hi), h.place_eq (List.getElem?_eq_getElem hj)]
  exact hij

/-- **Leaves follow one another** as in the file. -/
theorem leaves_ascending (h : list.Threaded file) : list.Ascending list.leaves := by
  have hids : (list.leaves.map (·.id)).Pairwise fun a b => list.place a < list.place b := by
    rw [leaves_ids h]
    exact h.pairwise_place.sublist List.filter_sublist
  unfold Ascending
  rw [List.pairwise_map] at hids
  exact hids

/-- No handle occurs twice among the leaves. -/
theorem leaves_nodup (h : list.Threaded file) : (list.leaves.map (·.id)).Nodup := by
  rw [leaves_ids h]
  exact h.nodup.filter _

/-- The leaves are the tokens of the file that count. -/
theorem mem_leaves_iff (h : list.Threaded file) {id : TokenId} :
    (∃ leaf ∈ list.leaves, leaf.id = id) ↔ id ∈ file ∧ list.isSignificant id = true := by
  rw [← List.mem_filter, ← leaves_ids h, List.mem_map]

/-- A leaf has the kind and the text of its token. -/
theorem leaf_token {leaf : Leaf} (h : leaf ∈ list.leaves) :
    leaf.id ∈ list.ids ∧ list.kind? leaf.id = some leaf.kind ∧ list.textOf leaf.id = leaf.text := by
  obtain ⟨token, hin, hkind, htext⟩ := Leaf.mem_ofTokensFrom h
  obtain ⟨id, hid, htoken⟩ := List.mem_filterMap.mp hin
  obtain ⟨token', hget, he⟩ := Option.map_eq_some_iff.mp htoken
  obtain ⟨rfl, rfl⟩ := Prod.mk.inj he
  exact ⟨hid, by rw [kind?_of_get? hget, hkind], by rw [textOf_of_get? hget, htext]⟩

/-- Some of the leaves are in order too. -/
theorem Ascending.sublist {leaves leaves' : List Leaf} (h : list.Ascending leaves)
    (hsub : leaves'.Sublist leaves) : list.Ascending leaves' := List.Pairwise.sublist hsub h

/-- Leaves of the file taken from the middle of others, all in order. -/
theorem Ascending.split {gap own tail : List Leaf} (h : list.Ascending (gap ++ own ++ tail)) :
    list.Ascending own
      ∧ (∀ a ∈ gap, ∀ b ∈ own, list.place a.id < list.place b.id)
      ∧ ∀ a ∈ own, ∀ b ∈ tail, list.place a.id < list.place b.id := by
  unfold Ascending at h ⊢
  rw [List.pairwise_append, List.pairwise_append] at h
  obtain ⟨⟨-, hown, hleft⟩, -, hright⟩ := h
  exact ⟨hown, hleft, fun a ha b hb => hright a (List.mem_append_right _ ha) b hb⟩

end TokenList

end KernelPrep
