/-
  KernelPrep.Proofs.Token.Chaining — what the links of a chained sequence spell.

  Chaining asks of each token that it exists and is detached, and then sets both links of one
  token after the other.  It does not ask that they are all different.  The links of a token
  given twice are overwritten, so in the end every token is linked as at its last place, and
  following forward links leaves out what stands between two places of a token.  Backward
  links lead to other tokens then, and a file into which such a run is linked falls apart.

  Main definitions:
    * `TokenList.traversed`    — the tokens that forward links lead through;
    * `TokenList.LinkedLast` — every token is linked as at its last place;
    * `TokenList.Places`     — the calls that link a run between two stretches of the file.

  Main statements:
    * `TokenList.chainFrom_linkedLast`   — chaining links every token as at its last place;
    * `TokenList.Resplices.oneChain_iff` — linking a sequence in leaves one chain exactly if
      backward links lead back through it;
    * `TokenList.chain_exact`            — what a chain spells, and what it does to a file.
-/
import KernelPrep.Proofs.Token.Exchange

namespace KernelPrep.TokenList

/-! ## §1. Going on behind the last place -/

/-- The tokens met on the way from `x`, behind which `rest` follows, by always going on behind
    the last place of a token. -/
def onward (x : TokenId) : List TokenId → List TokenId
  | [] => [x]
  | y :: rest => if x ∈ y :: rest then onward x rest else x :: onward y rest

/-- The tokens that forward links lead through once `ids` was chained. -/
def traversed : List TokenId → List TokenId
  | [] => []
  | x :: rest => onward x rest

section Onward

variable {x : TokenId} {rest : List TokenId}

/-- The way begins where it begins. -/
theorem head?_onward (x : TokenId) (rest : List TokenId) : (onward x rest).head? = some x := by
  induction rest with
  | nil => rfl
  | cons y rest ih =>
    rw [onward]
    split
    · exact ih
    · rfl

/-- The way is not empty. -/
theorem onward_ne_nil : onward x rest ≠ [] := by
  intro he
  have hhead := head?_onward x rest
  rw [he] at hhead
  simp at hhead

/-- The way ends with the last token of the sequence. -/
theorem getLast?_onward (x : TokenId) (rest : List TokenId) :
    (onward x rest).getLast? = (x :: rest).getLast? := by
  induction rest generalizing x with
  | nil => rfl
  | cons y rest ih =>
    rw [onward, List.getLast?_cons_cons]
    split
    · rename_i hin
      rw [ih x]
      cases rest with
      | nil => rw [List.mem_singleton.mp hin]
      | cons z rest => rw [List.getLast?_cons_cons, List.getLast?_cons_cons]
    · obtain ⟨z, path, hpath⟩ := List.exists_cons_of_ne_nil (@onward_ne_nil y rest)
      rw [hpath, List.getLast?_cons_cons, ← hpath, ih y]

/-- The way leaves tokens out and adds none. -/
theorem onward_sublist (x : TokenId) (rest : List TokenId) :
    (onward x rest).Sublist (x :: rest) := by
  induction rest generalizing x with
  | nil => exact List.Sublist.refl _
  | cons y rest ih =>
    rw [onward]
    split
    · exact (ih x).trans ((List.sublist_cons_self y rest).cons_cons x)
    · exact (ih y).cons_cons x

/-- No token is met twice. -/
theorem nodup_onward (x : TokenId) (rest : List TokenId) : (onward x rest).Nodup := by
  induction rest generalizing x with
  | nil => exact List.nodup_singleton x
  | cons y rest ih =>
    rw [onward]
    split
    · exact ih x
    · rename_i hnot
      exact List.nodup_cons.mpr ⟨fun hin => hnot ((onward_sublist y rest).subset hin), ih y⟩

/-- Nothing is left out exactly if no token comes twice. -/
theorem onward_eq_self : onward x rest = x :: rest ↔ (x :: rest).Nodup := by
  constructor
  · intro he
    rw [← he]
    exact nodup_onward x rest
  · intro hnodup
    induction rest generalizing x with
    | nil => rfl
    | cons y rest ih =>
      obtain ⟨hnot, hnodup'⟩ := List.nodup_cons.mp hnodup
      rw [onward, if_neg hnot, ih hnodup']

end Onward

/-! ## §2. Links as at the last place -/

/-- Both links of every token of `ids` lead to its neighbours at its last place there. -/
def LinkedLast (list : TokenList) (ids : List TokenId) : Prop :=
  ∀ before x after, ids = before ++ x :: after → x ∉ after →
    list.next? x = after.head? ∧ list.prev? x = before.getLast?

/-- What occurs has a last place. -/
theorem exists_last_place {x : TokenId} {ids : List TokenId} (h : x ∈ ids) :
    ∃ before after, ids = before ++ x :: after ∧ x ∉ after := by
  obtain ⟨after, before, hids, hnot⟩ := List.eq_append_cons_of_mem (List.mem_reverse.mpr h)
  refine ⟨before.reverse, after.reverse, ?_, fun hin => hnot (List.mem_reverse.mp hin)⟩
  rw [← List.reverse_reverse ids, hids]
  simp

/-- A token is chained as at its last place, whatever links an earlier place gave it. -/
theorem get?_chainFrom_append {list : TokenList} {before? : Option TokenId} {x : TokenId}
    {before after : List TokenId} {token : Token} (hget : list.get? x = some token)
    (hx : x ∉ after) :
    ∃ token' : Token, (list.chainFrom before? (before ++ x :: after)).get? x
      = some { token' with prev? := before.getLast?.or before?, next? := after.head? } := by
  induction before generalizing list before? token with
  | nil =>
    refine ⟨token, ?_⟩
    rw [List.nil_append, chainFrom, get?_chainFrom_of_notMem hx, get?_modify, if_pos rfl, hget]
    rfl
  | cons p before ih =>
    have hlast : (p :: before).getLast?.or before? = before.getLast?.or (some p) := by
      rw [List.getLast?_cons]
      cases before.getLast? <;> rfl
    rw [List.cons_append, chainFrom, hlast]
    refine @ih _ (some p)
      (if x = p then { token with prev? := before?, next? := (before ++ x :: after).head? }
        else token) ?_
    rw [get?_modify, hget]
    split <;> rfl

/-- **Chaining links every token as at its last place.** -/
theorem chainFrom_linkedLast {list : TokenList} {ids : List TokenId}
    (h : ∀ x ∈ ids, list.IsDetached x) : (list.chainFrom none ids).LinkedLast ids := by
  rintro before x after rfl hx
  obtain ⟨token, htoken, -⟩ := h x (by simp)
  obtain ⟨token', htoken'⟩ := @get?_chainFrom_append _ none _ before _ _ htoken hx
  rw [next?_eq, prev?_eq, htoken', Option.or_none]
  exact ⟨rfl, rfl⟩

namespace LinkedLast

variable {list : TokenList} {ids before rest : List TokenId} {x z : TokenId}

/-- Forward links lead through the tokens met by going on behind last places. -/
theorem isChain_next (h : list.LinkedLast ids) (hids : ids = before ++ z :: rest)
    (hx : x ∈ z :: rest) : (onward x rest).IsChain fun a b => list.next? a = some b := by
  -- The walk has passed everything through `z`; it is at `x`, whose last place is still to come
  -- unless it is `z` itself.
  induction rest generalizing before x z with
  | nil => exact List.isChain_singleton x
  | cons y rest ih =>
    have hids' : ids = (before ++ [z]) ++ y :: rest := by simp [hids]
    rw [onward]
    split
    · rename_i hin
      exact ih hids' hin
    · rename_i hnot
      obtain rfl : x = z := (List.mem_cons.mp hx).resolve_right hnot
      rw [List.isChain_cons, head?_onward]
      refine ⟨?_, ih hids' List.mem_cons_self⟩
      rintro w hw
      obtain rfl := Option.some.inj hw
      exact (h before x _ hids hnot).1

/-- Backward links lead back through these tokens exactly if they are the end of the
    sequence, with nothing left out between them. -/
theorem isChain_prev_iff (h : list.LinkedLast ids) (hids : ids = before ++ z :: rest)
    (hx : x ∈ z :: rest) : ((onward x rest).IsChain fun a b => list.prev? b = some a)
      ↔ onward x rest <:+ z :: rest := by
  induction rest generalizing before x z with
  | nil =>
    obtain rfl := List.mem_singleton.mp hx
    simp [onward]
  | cons y rest ih =>
    have hids' : ids = (before ++ [z]) ++ y :: rest := by simp [hids]
    rw [onward]
    split
    · -- `x` comes again: with `z`, something is left out
      rename_i hin
      have hne : onward x rest ≠ z :: y :: rest := by
        intro he
        have hle := (onward_sublist x rest).length_le
        rw [he] at hle
        simp only [List.length_cons] at hle
        omega
      rw [ih hids' hin, @List.suffix_cons_iff _ _ z]
      exact ⟨Or.inr, fun hsuffix => hsuffix.resolve_left hne⟩
    · rename_i hnot
      obtain rfl : x = z := (List.mem_cons.mp hx).resolve_right hnot
      have hback : (∀ w ∈ (onward y rest).head?, list.prev? w = some x)
          ↔ list.prev? y = some x := by
        rw [head?_onward]
        simp
      -- Where `x` goes on to `y`, all that follows must be met, not just an end of it.
      have hend : x :: onward y rest <:+ x :: y :: rest ↔ onward y rest = y :: rest := by
        rw [List.suffix_cons_iff]
        constructor
        · rintro (he | hsuffix)
          · exact (List.cons.inj he).2
          · exact absurd (hsuffix.mem List.mem_cons_self) hnot
        · exact fun he => Or.inl (by rw [he])
      rw [List.isChain_cons, hback, ih hids' List.mem_cons_self, hend]
      constructor
      · rintro ⟨hprev, hsuffix⟩
        refine (List.suffix_cons_iff.mp hsuffix).resolve_right fun hsuffix => ?_
        -- If `y` came again, its backward link would lead to a token behind `x`.
        obtain ⟨front, back, rfl, hlast⟩ :=
          exists_last_place (hsuffix.mem (List.mem_of_head? (head?_onward y rest)))
        have hsplit : ids = (before ++ x :: y :: front) ++ y :: back := by simp [hids]
        rw [(h _ y back hsplit hlast).2, List.getLast?_append, List.getLast?_cons_cons,
          Option.or_of_isSome (by simp)] at hprev
        refine hnot ?_
        have hin := List.mem_of_getLast? hprev
        simp only [List.mem_cons, List.mem_append] at hin ⊢
        tauto
      · intro he
        have hnodup := onward_eq_self.mp he
        refine ⟨?_, he ▸ List.suffix_refl _⟩
        rw [(h _ y rest hids' (List.nodup_cons.mp hnodup).1).2, List.getLast?_concat]

/-- Where the two links mirror each other throughout, no token comes twice. -/
theorem nodup_of_mirror (h : list.LinkedLast ids)
    (hmirror : ∀ a ∈ ids, ∀ b ∈ ids, list.next? a = some b ↔ list.prev? b = some a) :
    ids.Nodup := by
  -- Ends of the sequence are without repetition, from the shortest to the whole.
  have hend : ∀ after before, ids = before ++ after → after.Nodup := by
    intro after
    induction after with
    | nil => exact fun _ _ => List.nodup_nil
    | cons x rest ih =>
      intro before hids
      have hids' : ids = (before ++ [x]) ++ rest := by simp [hids]
      have hnodup := ih (before ++ [x]) hids'
      refine List.nodup_cons.mpr ⟨fun hin => ?_, hnodup⟩
      -- The token behind this place of `x` links back to it, but `x` links on from a later one.
      obtain ⟨front, back, hrest, hlast⟩ := exists_last_place hin
      have hsplit : ids = (before ++ x :: front) ++ x :: back := by simp [hids, hrest]
      have hnext := (h _ x back hsplit hlast).1
      cases rest with
      | nil => simp at hin
      | cons y rest =>
        have hprev := (h _ y rest hids' (List.nodup_cons.mp hnodup).1).2
        rw [List.getLast?_concat] at hprev
        rw [(hmirror x (by simp [hids]) y (by simp [hids])).mpr hprev] at hnext
        have hy : y ∈ back := List.mem_of_head? hnext.symm
        cases front with
        | nil => exact hlast ((List.cons.inj hrest).1 ▸ hy)
        | cons w front =>
          obtain ⟨rfl, rfl⟩ := List.cons.inj hrest
          exact (List.nodup_cons.mp hnodup).1 (by simp [hy])
  exact hend ids [] rfl

end LinkedLast

/-! ## §3. Linking it in -/

section Linking

variable {list list' : TokenList} {before old new after : List TokenId}

/-- **Linking tokens in leaves one chain** exactly if, besides forward links through them,
    backward links lead back. -/
theorem Resplices.oneChain_iff (hnow : Resplices list list' before old new after)
    (h : list.Threaded (before ++ old ++ after)) (hdet : ∀ x ∈ new, list.IsDetached x)
    (hnodup : new.Nodup) (hnext : new.IsChain fun a b => list.next? a = some b) :
    (list'.OneChain ↔ new.IsChain fun a b => list.prev? b = some a)
      ∧ (list'.OneChain → list'.ids = before ++ new ++ after) := by
  have hto : (new.IsChain fun a b => list.prev? b = some a) →
      list'.Threaded (before ++ new ++ after) := fun hprev =>
    h.splice hdet hnodup (strung_of_mirrored hnext hprev) hnow.get? hnow.head hnow.tail
      hnow.length
  have hfrom : list'.OneChain → new.IsChain fun a b => list.prev? b = some a := by
    intro hone
    have hall := h.nodup_splice hdet hnodup
    obtain ⟨hfront, -, hback⟩ := List.nodup_append.mp hall
    refine List.isChain_iff_forall_rel_of_append_cons_cons.mpr ?_
    rintro a b xs ys rfl
    have ha : a ∈ before ++ (xs ++ a :: b :: ys) ++ after := by simp
    have hb : b ∈ before ++ (xs ++ a :: b :: ys) ++ after := by simp
    have hlink : list.next? a = some b :=
      List.isChain_iff_forall_rel_of_append_cons_cons.mp hnext rfl
    -- Neither the forward link of `a` nor the backward link of `b` is one of those set.
    have hnext' : list'.next? a = list.next? a := by
      rw [h.next?_splice hdet hnow.get? ha, if_neg, if_neg]
      · exact fun he => (List.nodup_append.mp hfront).2.2 a (List.mem_of_getLast? he) a
          (by simp) rfl
      · have hsplit : xs ++ a :: b :: ys = (xs ++ [a]) ++ b :: ys := by simp
        rw [hsplit] at hnodup
        rw [hsplit, List.getLast?_append, Option.or_of_isSome (by simp)]
        exact ne_of_getLast?_append hnodup (by simp)
    have hprev' : list'.prev? b = list.prev? b := by
      rw [h.prev?_splice hdet hnow.get? hb, if_neg, if_neg]
      · have hsplit : xs ++ a :: b :: ys = (xs ++ [a]) ++ b :: ys := by simp
        rw [hsplit] at hnodup
        rw [hsplit, List.head?_append, Option.or_of_isSome (by simp)]
        exact head?_ne_of_mem hnodup List.mem_cons_self
      · exact fun he => hback b (by simp) b (List.mem_of_head? he) rfl
    rw [← hprev']
    exact (hone.mirror a b ((h.isLinked_splice hdet hnow.get? a).mpr ha)
      ((h.isLinked_splice hdet hnow.get? b).mpr hb)).mp (hnext'.trans hlink)
  exact ⟨⟨hfrom, fun hprev => (hto hprev).oneChain⟩, fun hone => (hto (hfrom hone)).ids_eq⟩

end Linking

/-- The calls that link `run` between the stretches `front` and `back` of a file, where `old`
    stood, with what they answer. -/
inductive Places (list : TokenList) (run : TokenRange) :
    List TokenId → List TokenId → List TokenId → Except SpliceError (Splice × TokenList) → Prop
  | inPlace {front old back : List TokenId} {range : TokenRange} (h : range.Ends old) :
      Places list run front old back (list.replace range (some run))
  | before {front back : List TokenId} {anchor : TokenId} (h : back.head? = some anchor) :
      Places list run front [] back (list.insertBefore anchor run)
  | behind {front back : List TokenId} {anchor : TokenId} (h : front.getLast? = some anchor) :
      Places list run front [] back (list.insertAfter anchor run)

/-- A checked run can be linked in anywhere, which sets only the links at its ends. -/
theorem Places.ok {list : TokenList} {run : TokenRange} {front old back new : List TokenId}
    {answer : Except SpliceError (Splice × TokenList)}
    (h : list.Places run front old back answer)
    (hthread : list.Threaded (front ++ old ++ back)) (hwalk : list.walk run false = .ok new)
    (hends : run.Ends new) :
    ∃ splice linked, answer = .ok (splice, linked) ∧ Resplices list linked front old new back := by
  cases h with
  | inPlace hold =>
    exact ⟨_, _, hthread.replace_eq_ok hold hwalk, exchange_resplices hthread hold hends⟩
  | before hanchor =>
    rw [List.append_nil] at hthread
    exact ⟨_, _, hthread.insertBefore_eq_ok hanchor hwalk, linkRun_resplices hthread hends⟩
  | behind hanchor =>
    rw [List.append_nil] at hthread
    exact ⟨_, _, hthread.insertAfter_eq_ok hanchor hwalk, linkRun_resplices hthread hends⟩

/-! ## §4. Chains -/

section Chain

variable {list list' : TokenList} {ids : List TokenId} {run : TokenRange}

/-- Forward links lead through the detached tokens `path`, each met once, along `run`; backward
    links lead the same way back exactly if `path` is an end of `ids`. -/
structure Chained (list : TokenList) (run : TokenRange) (ids path : List TokenId) : Prop where
  ends : run.Ends path
  detached : ∀ x ∈ path, list.IsDetached x
  nodup : path.Nodup
  along : path.IsChain fun a b => list.next? a = some b
  mirrored : (path.IsChain fun a b => list.prev? b = some a) ↔ path <:+ ids

/-- The way of a chain is within the bound on walks. -/
theorem Chained.length_le_walkBound {path : List TokenId} (h : list.Chained run ids path) :
    path.length ≤ list.walkBound := by
  have hle := length_le_size h.nodup fun x hx => by
    obtain ⟨token, htoken, -⟩ := h.detached x hx
    exact ⟨token, htoken⟩
  unfold walkBound
  omega

/-- A chain has a token. -/
theorem Chained.ne_nil {path : List TokenId} (h : list.Chained run ids path) : path ≠ [] :=
  h.ends.ne_nil

/-- The tokens of the chain are those on its way. -/
theorem Chained.range_eq {path : List TokenId} (h : list.Chained run ids path) :
    list.range run = path := by
  unfold range
  rw [← h.ends.1, ← h.ends.2]
  exact follow_isChain h.along h.nodup h.ne_nil h.length_le_walkBound

/-- The check of a chain passes the tokens on its way. -/
theorem Chained.walk_eq {path : List TokenId} (h : list.Chained run ids path) :
    list.walk run false = .ok path := by
  unfold walk
  rw [← h.ends.1]
  exact walkFrom_isChain h.along h.nodup h.ne_nil h.ends.2 h.detached h.length_le_walkBound

/-- A sequence that is chained is a chain along its way. -/
theorem chained_of_chain (h : list.chain ids = .ok (some run, list')) :
    run.Ends ids ∧ list'.Chained run ids (traversed ids) := by
  obtain ⟨hdet, rfl⟩ := chain_eq_ok h
  have hne : ids ≠ [] := by
    rintro rfl
    simp [chain, checkDetached, bind, Except.bind, pure, Except.pure] at h
  obtain ⟨run', hrun, hends⟩ := chain_run h hne
  obtain rfl := Option.some.inj hrun
  obtain ⟨x, rest, rfl⟩ := List.exists_cons_of_ne_nil hne
  have hlinks := chainFrom_linkedLast hdet
  have hids : x :: rest = [] ++ x :: rest := rfl
  refine ⟨hends, ⟨(head?_onward x rest).trans hends.1, (getLast?_onward x rest).trans hends.2⟩,
    fun y hy => isDetached_chainFrom.mpr (hdet y ((onward_sublist x rest).subset hy)),
    nodup_onward x rest, hlinks.isChain_next hids List.mem_cons_self,
    hlinks.isChain_prev_iff hids List.mem_cons_self⟩

/-- Nothing is left out if and only if no token was given twice. -/
theorem traversed_eq_self : traversed ids = ids ↔ ids.Nodup := by
  cases ids with
  | nil => simp [traversed]
  | cons x rest => exact onward_eq_self

/-- **What a chain spells.**  Its range runs from the first given token to the last and visits
    the given tokens, but for those between two places of one token.  It visits just what was
    given, and the links mirror each other, exactly if no token was given twice.  The range can
    be linked in anywhere; the file stays one chain exactly if what is visited is an end of what
    was given, hence always where no token was given twice. -/
theorem chain_exact (h : list.chain ids = .ok (some run, list')) :
    run.Ends ids
    ∧ list'.range run = traversed ids
    ∧ (list'.range run = ids ↔ ids.Nodup)
    ∧ ((∀ a ∈ ids, ∀ b ∈ ids, list'.next? a = some b ↔ list'.prev? b = some a) ↔ ids.Nodup)
    ∧ (list.OneChain → ∀ front old back answer, list.ids = front ++ old ++ back →
        list'.Places run front old back answer →
        ∃ splice linked, answer = .ok (splice, linked)
          ∧ (linked.OneChain ↔ list'.range run <:+ ids)
          ∧ (linked.OneChain → linked.ids = front ++ list'.range run ++ back)
          ∧ (ids.Nodup → linked.OneChain ∧ linked.ids = front ++ ids ++ back)) := by
  obtain ⟨hends, hchained⟩ := chained_of_chain h
  obtain ⟨hdet, rfl⟩ := chain_eq_ok h
  rw [hchained.range_eq]
  refine ⟨hends, rfl, traversed_eq_self, ⟨(chainFrom_linkedLast hdet).nodup_of_mirror, ?_⟩, ?_⟩
  · intro hnodup a ha b hb
    refine (strung_chainFrom hnodup fun x hx => ?_).mirror ha hb
    obtain ⟨token, htoken, -⟩ := hdet x hx
    exact ⟨token, htoken⟩
  · intro hone front old back answer hids hplaces
    have hthread := chainFrom_threaded (hids ▸ hone.threaded) hdet none
    obtain ⟨splice, linked, hanswer, hnow⟩ :=
      hplaces.ok hthread hchained.walk_eq hchained.ends
    obtain ⟨honeIff, hfile⟩ :=
      hnow.oneChain_iff hthread hchained.detached hchained.nodup hchained.along
    rw [hchained.mirrored] at honeIff
    refine ⟨splice, linked, hanswer, honeIff, hfile, fun hnodup => ?_⟩
    have hself := traversed_eq_self.mpr hnodup
    rw [hself] at honeIff hfile
    have hlinked := honeIff.mpr (List.suffix_refl ids)
    exact ⟨hlinked, hfile hlinked⟩

end Chain

/-- A token of the source and four detached ones. -/
def fourLoose : TokenList :=
  (TokenList.empty "x").performAll
    [.append .symbol ⟨0, 1⟩ 1, .synthesize .symbol "a" 1, .synthesize .symbol "b" 1,
      .synthesize .symbol "c" 1, .synthesize .symbol "d" 1]

/-- This list is reached: by making four tokens. -/
theorem fourLoose_reached : fourLoose.Reached := ⟨"x", _, by decide, rfl⟩

/-- With `b` given twice, the chain of `a b c b d` spells `a b d`, and linking it in leaves no
    chain, as the backward link of `b` still leads to `c`. -/
theorem chain_exact_repeated :
    ∃ list', fourLoose.chain [⟨1⟩, ⟨2⟩, ⟨3⟩, ⟨2⟩, ⟨4⟩] = .ok (some ⟨⟨1⟩, ⟨4⟩⟩, list')
      ∧ list'.range ⟨⟨1⟩, ⟨4⟩⟩ = [⟨1⟩, ⟨2⟩, ⟨4⟩]
      ∧ ∃ splice linked, list'.insertBefore ⟨0⟩ ⟨⟨1⟩, ⟨4⟩⟩ = .ok (splice, linked)
        ∧ ¬ linked.OneChain := by
  have hchain : fourLoose.chain [⟨1⟩, ⟨2⟩, ⟨3⟩, ⟨2⟩, ⟨4⟩] = .ok (some ⟨⟨1⟩, ⟨4⟩⟩,
      fourLoose.chainFrom none [⟨1⟩, ⟨2⟩, ⟨3⟩, ⟨2⟩, ⟨4⟩]) := rfl
  obtain ⟨-, hrange, -, -, hlink⟩ := chain_exact hchain
  obtain ⟨splice, linked, hanswer, hone, -⟩ :=
    hlink fourLoose_reached.wellFormed.threaded.oneChain [] [] [⟨0⟩] _ (by decide)
      (.before rfl)
  refine ⟨_, hchain, hrange.trans (by decide), splice, linked, hanswer, ?_⟩
  rw [hone, hrange]
  decide

end KernelPrep.TokenList
