/-
  KernelPrep.Proofs.Token.Navigation — getting from one token to another.

  The search for a significant token and the iteration over a range are loops that follow
  links, the one forward or backward, the other forward only.  Nothing in the loops bounds
  their turns.  In a list whose linked tokens are one chain they come to an end by themselves:
  the search at the nearest significant token of its direction, or at the end of the file, and
  the iteration at the last token of the range, after all of those between its ends.

  Main definitions:
    * `TokenList.Seeks`     — the searching loop, without any bound on its turns;
    * `TokenList.Visits`    — the iterating loop, without any bound on its turns;
    * `TokenList.Navigable` — what the loops do at each linked token and over each range.

  Main statements:
    * `TokenList.Threaded.seeks_next`, `TokenList.Threaded.seeks_prev` — the searches end;
    * `TokenList.Threaded.nextSignificant?_iff`, `TokenList.Threaded.prevSignificant?_iff` —
      both find the token next to another;
    * `TokenList.Threaded.visits` — the iteration ends behind the last token;
    * `TokenList.Threaded.navigates`            — all of it, in every list that is one chain;
    * `TokenList.WellFormed.navigable`          — so in every well-formed list.
-/
import KernelPrep.Proofs.Token.Checking

namespace KernelPrep.TokenList

/-! ## §1. The loops -/

/-- The loop that looks for a significant token along `step`, with no bound on its turns:
    standing at `id?`, it ends with the given answer. -/
inductive Seeks (list : TokenList) (step : TokenId → Option TokenId) :
    Option TokenId → Option TokenId → Prop
  | ranOut : Seeks list step none none
  | missing {id : TokenId} (h : list.kind? id = none) : Seeks list step (some id) none
  | found {id : TokenId} {kind : TokenKind} (h : list.kind? id = some kind)
      (hkind : kind.isTrivia = false) : Seeks list step (some id) (some id)
  | next {id : TokenId} {kind : TokenKind} {answer? : Option TokenId}
      (h : list.kind? id = some kind) (hkind : kind.isTrivia = true)
      (hrest : Seeks list step (step id) answer?) : Seeks list step (some id) answer?

/-- The loop that goes through a range, with no bound on its turns: standing at `id?`, it still
    yields the given tokens. -/
inductive Visits (list : TokenList) (last : TokenId) : Option TokenId → List TokenId → Prop
  | ranOut : Visits list last none []
  | last : Visits list last (some last) [last]
  | next {id : TokenId} {rest : List TokenId} (hne : id ≠ last)
      (hrest : Visits list last (list.next? id) rest) : Visits list last (some id) (id :: rest)

variable {list : TokenList} {file before middle after : List TokenId} {id : TokenId}

/-- A search has one answer. -/
theorem Seeks.unique {step : TokenId → Option TokenId} {id? answer? other? : Option TokenId}
    (h : list.Seeks step id? answer?) (h' : list.Seeks step id? other?) : answer? = other? := by
  -- the slot and kind of a token decide which rule applies
  induction h generalizing other? with
  | ranOut =>
    cases h'
    rfl
  | missing hnone =>
    cases h' with
    | missing => rfl
    | found hsome => simp [hnone] at hsome
    | next hsome => simp [hnone] at hsome
  | found hsome hkind =>
    cases h' with
    | missing hnone => simp [hsome] at hnone
    | found => rfl
    | next hsome' hkind' => simp_all
  | next hsome hkind _ ih =>
    cases h' with
    | missing hnone => simp [hsome] at hnone
    | found hsome' hkind' => simp_all
    | next _ _ hrest => exact ih hrest

/-- A range is gone through in one way. -/
theorem Visits.unique {last : TokenId} {id? : Option TokenId} {ids others : List TokenId}
    (h : list.Visits last id? ids) (h' : list.Visits last id? others) : ids = others := by
  induction h generalizing others with
  | ranOut =>
    cases h'
    rfl
  | last =>
    cases h' with
    | last => rfl
    | next hne => exact absurd rfl hne
  | next hne _ ih =>
    cases h' with
    | last => exact absurd rfl hne
    | next _ hrest => rw [ih hrest]

/-! ## §2. Searches -/

/-- One turn of a search, at a token that exists. -/
theorem Seeks.turn {step : TokenId → Option TokenId} {token : Token} {answer? : Option TokenId}
    (h : list.get? id = some token)
    (hrest : list.isSignificant id = false → list.Seeks step (step id) answer?) :
    list.Seeks step (some id) (if list.isSignificant id then some id else answer?) := by
  have hkind : list.kind? id = some token.kind := by
    unfold kind?
    rw [h]
    rfl
  have hsignificant : list.isSignificant id = !token.kind.isTrivia := by
    unfold isSignificant
    rw [hkind]
    rfl
  cases htrivia : token.kind.isTrivia with
  | false =>
    rw [hsignificant, htrivia]
    exact .found hkind htrivia
  | true =>
    rw [hsignificant, htrivia] at hrest ⊢
    exact .next hkind htrivia (hrest rfl)

/-- **A search along forward links** ends at the first significant token ahead. -/
theorem Threaded.seeks_next (h : list.Threaded file) (hfile : file = before ++ after) :
    list.Seeks list.next? after.head? (after.find? list.isSignificant) := by
  induction after generalizing before with
  | nil => exact .ranOut
  | cons id rest ih =>
    have hid : id ∈ file := by simp [hfile]
    obtain ⟨token, htoken, -⟩ := h.get?_of_mem hid
    have hrest : file = (before ++ [id]) ++ rest := by simp [hfile]
    have hturn := Seeks.turn htoken fun _ => h.next?_eq hfile ▸ ih hrest
    rw [List.find?_cons]
    cases hsig : list.isSignificant id <;> simpa [hsig] using hturn

/-- **A search along backward links** ends at the last significant token behind. -/
theorem Threaded.seeks_prev (h : list.Threaded file) (hfile : file = before ++ after) :
    list.Seeks list.prev? before.getLast? (before.reverse.find? list.isSignificant) := by
  induction before using List.reverseRecOn generalizing after with
  | nil => exact .ranOut
  | append_singleton front id ih =>
    have hid : id ∈ file := by simp [hfile]
    obtain ⟨token, htoken, -⟩ := h.get?_of_mem hid
    have hrest : file = front ++ id :: after := by simp [hfile]
    have hturn := Seeks.turn htoken fun _ => h.prev?_eq hrest ▸ ih hrest
    rw [List.getLast?_concat, List.reverse_concat, List.find?_cons]
    cases hsig : list.isSignificant id <;> simpa [hsig] using hturn

/-- **The nearest significant token** at or behind another. -/
theorem Threaded.significantFrom?_eq (h : list.Threaded file)
    (hfile : file = before ++ id :: after) :
    list.significantFrom? id = (id :: after).find? list.isSignificant := by
  have hlt := h.length_lt_walkBound
  rw [hfile, List.length_append] at hlt
  exact h.firstSignificant?_next hfile (by omega)

/-- Significant tokens between which there is none: `a`, what is passed over, and `b`. -/
def NextTo (list : TokenList) (file : List TokenId) (a b : TokenId) : Prop :=
  ∃ before passed after, file = before ++ a :: (passed ++ b :: after)
    ∧ ∀ x ∈ passed, list.isSignificant x = false

/-- The next significant token is the one next to it in the file. -/
theorem Threaded.nextSignificant?_iff (h : list.Threaded file) {a b : TokenId} (ha : a ∈ file)
    (hb : list.isSignificant b = true) :
    list.nextSignificant? a = some b ↔ list.NextTo file a b := by
  constructor
  · intro hnext
    obtain ⟨before, after, hfile⟩ := List.append_of_mem ha
    rw [h.nextSignificant?_eq hfile] at hnext
    obtain ⟨-, passed, rest, hafter, hpassed⟩ := List.find?_eq_some_iff_append.mp hnext
    exact ⟨before, passed, rest, hafter ▸ hfile, by simpa using hpassed⟩
  · rintro ⟨before, passed, after, hfile, hpassed⟩
    rw [h.nextSignificant?_eq hfile]
    exact List.find?_eq_some_iff_append.mpr ⟨hb, passed, after, rfl, by simpa using hpassed⟩

/-- The significant token before is the one that it is next to. -/
theorem Threaded.prevSignificant?_iff (h : list.Threaded file) {a b : TokenId} (hb : b ∈ file)
    (ha : list.isSignificant a = true) :
    list.prevSignificant? b = some a ↔ list.NextTo file a b := by
  constructor
  · intro hprev
    obtain ⟨front, after, hfile⟩ := List.append_of_mem hb
    rw [h.prevSignificant?_eq hfile] at hprev
    obtain ⟨-, passed, rest, hfront, hpassed⟩ := List.find?_eq_some_iff_append.mp hprev
    -- read backwards, what is passed stands between the two
    have hfront' : front = rest.reverse ++ a :: passed.reverse := by
      simpa using congrArg List.reverse hfront
    exact ⟨rest.reverse, passed.reverse, after, by simp [hfile, hfront'], by simpa using hpassed⟩
  · rintro ⟨before, passed, after, hfile, hpassed⟩
    have hsplit : file = (before ++ a :: passed) ++ b :: after := by simp [hfile]
    rw [h.prevSignificant?_eq hsplit]
    refine List.find?_eq_some_iff_append.mpr ⟨ha, passed.reverse, before.reverse, by simp, ?_⟩
    simpa using hpassed

/-! ## §3. Ranges -/

/-- **Going through a range** yields a stretch of the file, from the first token to the last. -/
theorem Threaded.visits (h : list.Threaded file) {last : TokenId}
    (hfile : file = before ++ middle ++ after) (hlast : middle.getLast? = some last) :
    list.Visits last middle.head? middle := by
  induction middle generalizing before with
  | nil => exact .ranOut
  | cons id rest ih =>
    have hid : file = before ++ id :: (rest ++ after) := by simp [hfile]
    cases rest with
    | nil =>
      obtain rfl : id = last := by simpa using hlast
      exact .last
    | cons next rest =>
      rw [List.getLast?_cons_cons] at hlast
      -- no token is in the file twice, so the loop does not end before the last one
      have hne : id ≠ last := by
        rintro rfl
        have hnodup := h.nodup
        rw [hid] at hnodup
        refine (List.nodup_cons.mp (List.nodup_append.mp hnodup).2.1).1 ?_
        exact List.mem_append_left _ (List.mem_of_getLast? hlast)
      have hfile' : file = (before ++ [id]) ++ (next :: rest) ++ after := by simp [hfile]
      exact .next hne (h.next?_eq hid ▸ ih hfile' hlast)

/-! ## §4. All of it -/

/-- What the searches from `id` come to, when `before` and `after` are the tokens of the file on
    its two sides: each ends, and with the nearest significant token on its way. -/
structure Finds (list : TokenList) (id : TokenId) (before after : List TokenId) : Prop where
  here : list.significantFrom? id = (id :: after).find? list.isSignificant
  ahead : list.nextSignificant? id = after.find? list.isSignificant
  behind : list.prevSignificant? id = before.reverse.find? list.isSignificant
  here_ends : ∀ answer?, list.Seeks list.next? (some id) answer?
    ↔ answer? = list.significantFrom? id
  ahead_ends : ∀ answer?, list.Seeks list.next? (list.next? id) answer?
    ↔ answer? = list.nextSignificant? id
  behind_ends : ∀ answer?, list.Seeks list.prev? (list.prev? id) answer?
    ↔ answer? = list.prevSignificant? id

/-- At each token of a threaded list a search goes as the file does, both ways. -/
theorem Threaded.finds (h : list.Threaded file) (hfile : file = before ++ id :: after) :
    list.Finds id before after := by
  have hends {step : TokenId → Option TokenId} {id? answer? : Option TokenId}
      (hseeks : list.Seeks step id? answer?) (other? : Option TokenId) :
      list.Seeks step id? other? ↔ other? = answer? :=
    ⟨fun hother => hother.unique hseeks, fun he => he ▸ hseeks⟩
  have hsplit : file = (before ++ [id]) ++ after := by simp [hfile]
  have hhere := h.significantFrom?_eq hfile
  have hahead := h.nextSignificant?_eq hfile
  have hbehind := h.prevSignificant?_eq hfile
  refine ⟨hhere, hahead, hbehind, hends ?_, hends ?_, hends ?_⟩
  · rw [hhere]
    exact h.seeks_next hfile
  · rw [hahead, h.next?_eq hfile]
    exact h.seeks_next hsplit
  · rw [hbehind, h.prev?_eq hfile]
    exact h.seeks_prev hfile

/-- Every linked token has its place in the file, and from there the searches find what is
    nearest; on significant tokens the searches in the two directions are inverse; and a range
    whose first token is not behind its last is gone through token by token. -/
structure Navigable (list : TokenList) : Prop where
  searches : ∀ id, list.isLinked id = true →
    ∃ before after, list.ids = before ++ id :: after ∧ list.Finds id before after
  inverse : ∀ a b, list.isLinked a = true → list.isLinked b = true →
    list.isSignificant a = true → list.isSignificant b = true →
      (list.nextSignificant? a = some b ↔ list.prevSignificant? b = some a)
  ranges : ∀ before middle after range, list.ids = before ++ middle ++ after →
    range.Ends middle → list.range range = middle
      ∧ ∀ ids, list.Visits range.last (some range.first) ids ↔ ids = middle

/-- **In a list whose linked tokens are one chain** every search and every iteration ends, where
    it should. -/
theorem Threaded.navigates (h : list.Threaded list.ids) : list.Navigable := by
  refine ⟨fun id hid => ?_, fun a b ha hb hsigA hsigB => ?_, ?_⟩
  · obtain ⟨before, after, hids⟩ := List.append_of_mem ((h.linked_iff id).mp hid)
    exact ⟨before, after, hids, h.finds hids⟩
  · rw [h.nextSignificant?_iff ((h.linked_iff a).mp ha) hsigB,
      h.prevSignificant?_iff ((h.linked_iff b).mp hb) hsigA]
  · intro before middle after range hids hends
    have hvisits := h.visits hids hends.2
    rw [hends.1] at hvisits
    refine ⟨(hids ▸ h).range_eq hends.1 hends.2, fun ids => ?_⟩
    exact ⟨fun hother => hother.unique hvisits, fun he => he ▸ hvisits⟩

/-- **In a well-formed list** all of it holds: the tokens that are linked are one chain there. -/
theorem WellFormed.navigable (h : list.WellFormed) : list.Navigable := h.threaded.navigates

/-- `a` and `b` with a blank between them, before which a comment was put in. -/
def commented : TokenList :=
  (TokenList.empty "a b").performAll
    [.append .symbol ⟨0, 1⟩ 1, .append .whitespace ⟨1, 2⟩ 1, .append .symbol ⟨2, 3⟩ 1,
      .synthesize .comment "/* c */" 1, .chain [⟨3⟩], .insertAfter ⟨0⟩ ⟨⟨3⟩, ⟨3⟩⟩]

theorem commented_navigable :
    commented.WellFormed ∧ commented.ids = [⟨0⟩, ⟨3⟩, ⟨1⟩, ⟨2⟩]
      ∧ commented.nextSignificant? ⟨0⟩ = some ⟨2⟩ ∧ commented.Navigable := by
  have hreached : commented.Reached := ⟨"a b", _, by decide, rfl⟩
  exact ⟨hreached.wellFormed, by decide, by decide, hreached.wellFormed.navigable⟩

end KernelPrep.TokenList
