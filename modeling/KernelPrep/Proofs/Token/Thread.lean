/-
  KernelPrep.Proofs.Token.Thread — the file as a thread through the slots, and runs.

  The links of a token list describe sequences.  `Strung` says that given tokens follow
  one another with both links, between two given neighbours; a sequence that is strung
  can be cut and joined like a list.  A list is threaded by `file` when the linked tokens
  are exactly those of `file`, strung from `head?` to `tail?`.

  Detached tokens form runs.  Only tokens that were strung together by one `chain` refer
  to each other, so among detached tokens the two links mirror each other and no run
  closes to a ring; that is `Loose`.  Links of a detached token to a linked or destroyed
  one may be stale and say nothing.

  Main definitions:
    * `TokenList.Strung`, `TokenList.Threaded`, `TokenList.Loose`, `TokenList.WellFormed`.

  Main statements:
    * `TokenList.Threaded.ids_eq`   — the walk from head to tail meets `file`;
    * `TokenList.Threaded.range_eq` — the tokens of a range are a stretch of `file`;
    * `TokenList.walk_linked`       — a checked walk over linked tokens is a stretch of
      `file`;
    * `TokenList.walk_detached`     — a checked walk over detached tokens is strung.
-/
import Mathlib.Data.List.Nodup
import Mathlib.Data.List.Infix
import Mathlib.Data.List.Chain
import KernelPrep.Proofs.Token.Slots

namespace KernelPrep.TokenList

/-! ## §1. Strung tokens -/

/-- Each of `ids` links to its neighbours on both sides; the outermost ones link to
    `before?` and `after?`. -/
def Strung (list : TokenList) : Option TokenId → List TokenId → Option TokenId → Prop
  | _, [], _ => True
  | before?, id :: rest, after? =>
    list.prev? id = before? ∧ list.next? id = rest.head?.or after?
      ∧ Strung list (some id) rest after?

/-- Strung tokens can be cut and joined like a list. -/
theorem strung_append {list : TokenList} {before? after? : Option TokenId}
    {xs ys : List TokenId} :
    list.Strung before? (xs ++ ys) after? ↔
      list.Strung before? xs (ys.head?.or after?)
        ∧ list.Strung (xs.getLast?.or before?) ys after? := by
  induction xs generalizing before? with
  | nil => simp [Strung]
  | cons x rest ih =>
    show list.prev? x = before? ∧ list.next? x = (rest ++ ys).head?.or after?
        ∧ list.Strung (some x) (rest ++ ys) after? ↔ _
    rw [ih, List.head?_append, Option.or_assoc]
    have hlast : (x :: rest).getLast?.or before? = rest.getLast?.or (some x) := by
      cases rest with
      | nil => rfl
      | cons y rest =>
        rw [List.getLast?_cons_cons, List.getLast?_eq_some_getLast (List.cons_ne_nil y rest)]
        rfl
    rw [hlast]
    simp only [Strung]
    constructor
    · rintro ⟨h1, h2, h3, h4⟩
      exact ⟨⟨h1, h2, h3⟩, h4⟩
    · rintro ⟨⟨h1, h2, h3⟩, h4⟩
      exact ⟨h1, h2, h3, h4⟩

/-- The forward link of a strung token leads to its neighbour. -/
theorem Strung.next?_eq {list : TokenList} {before? after? : Option TokenId}
    {xs ys : List TokenId} {id : TokenId}
    (h : list.Strung before? (xs ++ id :: ys) after?) :
    list.next? id = ys.head?.or after? := (strung_append.mp h).2.2.1

/-- The backward link of a strung token leads to its neighbour. -/
theorem Strung.prev?_eq {list : TokenList} {before? after? : Option TokenId}
    {xs ys : List TokenId} {id : TokenId}
    (h : list.Strung before? (xs ++ id :: ys) after?) :
    list.prev? id = xs.getLast?.or before? := (strung_append.mp h).2.1

/-- Tokens stay strung when only the links at the two ends change, to the new neighbours. -/
theorem Strung.reseat {list list' : TokenList} {before? after? before'? after'? : Option TokenId}
    {ids : List TokenId} (h : list.Strung before? ids after?) (hnodup : ids.Nodup)
    (hprev : ∀ x ∈ ids,
      list'.prev? x = if ids.head? = some x then before'? else list.prev? x)
    (hnext : ∀ x ∈ ids,
      list'.next? x = if ids.getLast? = some x then after'? else list.next? x) :
    list'.Strung before'? ids after'? := by
  induction ids generalizing before? before'? with
  | nil => trivial
  | cons id rest ih =>
    obtain ⟨-, hid, hrest⟩ := h
    obtain ⟨hnot, hnodup'⟩ := List.nodup_cons.mp hnodup
    refine ⟨?_, ?_, ?_⟩
    -- the first token has the new neighbour before it; its forward link is new only if it is also
    -- the last
    · rw [hprev id List.mem_cons_self]
      simp
    · rw [hnext id List.mem_cons_self]
      cases rest with
      | nil => simp
      | cons y rest =>
        have hne : ¬ (id :: y :: rest).getLast? = some id := by
          intro he
          rw [List.getLast?_cons_cons] at he
          exact hnot (List.mem_of_getLast? he)
        rw [if_neg hne, hid]
        rfl
    -- the others are strung behind it as they were
    · refine ih hrest hnodup' ?_ ?_
      · intro x hx
        have hne : ¬ (id :: rest).head? = some x := by
          intro he
          exact hnot (Option.some.inj he ▸ hx)
        rw [hprev x (List.mem_cons_of_mem _ hx), if_neg hne]
        by_cases hhead : rest.head? = some x
        · rw [if_pos hhead]
          cases rest with
          | nil => simp at hhead
          | cons y rest =>
            obtain rfl := Option.some.inj hhead
            exact hrest.1
        · rw [if_neg hhead]
      · intro x hx
        rw [hnext x (List.mem_cons_of_mem _ hx)]
        cases rest with
        | nil => simp at hx
        | cons y rest => rw [List.getLast?_cons_cons]

/-- Tokens whose links do not change stay strung. -/
theorem Strung.congr {list list' : TokenList} {before? after? : Option TokenId}
    {ids : List TokenId} (h : list.Strung before? ids after?)
    (hlinks : ∀ x ∈ ids, list'.prev? x = list.prev? x ∧ list'.next? x = list.next? x) :
    list'.Strung before? ids after? := by
  induction ids generalizing before? with
  | nil => trivial
  | cons id rest ih =>
    obtain ⟨hprev, hnext, hrest⟩ := h
    obtain ⟨hp, hn⟩ := hlinks id List.mem_cons_self
    exact ⟨hp.trans hprev, hn.trans hnext,
      ih hrest fun x hx => hlinks x (List.mem_cons_of_mem _ hx)⟩

/-- In a sequence with nothing on either side, the two links mirror each other. -/
theorem Strung.mirror {list : TokenList} {ids : List TokenId}
    (h : list.Strung none ids none) {a b : TokenId} (ha : a ∈ ids) (hb : b ∈ ids) :
    list.next? a = some b ↔ list.prev? b = some a := by
  constructor
  · intro hnext
    obtain ⟨xs, ys, rfl⟩ := List.append_of_mem ha
    rw [h.next?_eq, Option.or_none] at hnext
    obtain ⟨ys', rfl⟩ := List.head?_eq_some_iff.mp hnext
    have h' : list.Strung none ((xs ++ [a]) ++ b :: ys') none := by simpa using h
    rw [h'.prev?_eq, List.getLast?_concat]
    rfl
  · intro hprev
    obtain ⟨xs, ys, rfl⟩ := List.append_of_mem hb
    rw [h.prev?_eq, Option.or_none] at hprev
    obtain ⟨xs', rfl⟩ := List.getLast?_eq_some_iff.mp hprev
    have h' : list.Strung none (xs' ++ a :: b :: ys) none := by simpa using h
    rw [h'.next?_eq]
    rfl

/-- A run strung on its own links to none but its tokens. -/
theorem Strung.next?_mem {list : TokenList} {ids : List TokenId}
    (h : list.Strung none ids none) {a b : TokenId} (ha : a ∈ ids)
    (hlink : list.next? a = some b) : b ∈ ids := by
  obtain ⟨xs, ys, rfl⟩ := List.append_of_mem ha
  rw [h.next?_eq, Option.or_none] at hlink
  simp [List.mem_of_head? hlink]

/-- Backward links stay within what is strung between no neighbours. -/
theorem Strung.prev?_mem {list : TokenList} {ids : List TokenId}
    (h : list.Strung none ids none) {a b : TokenId} (hb : b ∈ ids)
    (hlink : list.prev? b = some a) : a ∈ ids := by
  obtain ⟨xs, ys, rfl⟩ := List.append_of_mem hb
  rw [h.prev?_eq, Option.or_none] at hlink
  simp [List.mem_of_getLast? hlink]

/-- Its links lead forward. -/
theorem Strung.idxOf_lt {list : TokenList} {ids : List TokenId}
    (h : list.Strung none ids none) (hnodup : ids.Nodup) {a b : TokenId} (ha : a ∈ ids)
    (hlink : list.next? a = some b) : ids.idxOf a < ids.idxOf b := by
  obtain ⟨xs, ys, rfl⟩ := List.append_of_mem ha
  rw [h.next?_eq, Option.or_none] at hlink
  obtain ⟨ys', rfl⟩ := List.head?_eq_some_iff.mp hlink
  obtain ⟨-, hrest, hapart⟩ := List.nodup_append.mp hnodup
  have hxa : a ∉ xs := fun hx => hapart a hx a List.mem_cons_self rfl
  have hxb : b ∉ xs := fun hx => hapart b hx b (by simp) rfl
  have hab : a ≠ b := fun he => (List.nodup_cons.mp hrest).1 (by simp [he])
  rw [List.idxOf_append_of_notMem hxa, List.idxOf_append_of_notMem hxb, List.idxOf_cons_self,
    List.idxOf_cons_ne _ hab, List.idxOf_cons_self]
  omega

/-! ## §2. The file -/

/-- `file` is the sequence of linked tokens: they are strung from the head to the tail, and
    no other token counts as linked. -/
structure Threaded (list : TokenList) (file : List TokenId) : Prop where
  nodup : file.Nodup
  linked_iff : ∀ id, list.isLinked id = true ↔ id ∈ file
  strung : list.Strung none file none
  head : list.head? = file.head?
  tail : list.tail? = file.getLast?
  length : list.length = file.length

/-- Handles of existing tokens, each listed once, are no more than there are slots. -/
theorem length_le_size {list : TokenList} {ids : List TokenId} (hnodup : ids.Nodup)
    (hlive : ∀ id ∈ ids, ∃ token, list.get? id = some token) :
    ids.length ≤ list.slots.size := by
  have hmap : (ids.map TokenId.index).Nodup :=
    hnodup.map fun _ _ h => TokenId.ext_index h
  have hsub : ids.map TokenId.index ⊆ List.range list.slots.size := by
    intro i hi
    obtain ⟨id, hid, rfl⟩ := List.mem_map.mp hi
    obtain ⟨token, htoken⟩ := hlive id hid
    exact List.mem_range.mpr (index_lt_of_get? htoken)
  have hle := hmap.length_le_of_subset hsub
  rwa [List.length_map, List.length_range] at hle

namespace Threaded

variable {list : TokenList} {file : List TokenId}

/-- The tokens of the file are linked. -/
theorem get?_of_mem (h : list.Threaded file) {id : TokenId} (hid : id ∈ file) :
    ∃ token, list.get? id = some token ∧ token.linked = true :=
  isLinked_iff.mp ((h.linked_iff id).mpr hid)

/-- Linked tokens are in the file. -/
theorem mem_of_get? (h : list.Threaded file) {id : TokenId} {token : Token}
    (hget : list.get? id = some token) (hlinked : token.linked = true) : id ∈ file :=
  (h.linked_iff id).mp (isLinked_iff.mpr ⟨token, hget, hlinked⟩)

/-- The file is within the bound on walks. -/
theorem length_lt_walkBound (h : list.Threaded file) : file.length < list.walkBound := by
  have hle := length_le_size h.nodup fun id hid => by
    obtain ⟨token, htoken, -⟩ := h.get?_of_mem hid
    exact ⟨token, htoken⟩
  unfold walkBound
  omega

/-- The forward links go through the file. -/
theorem next?_eq (h : list.Threaded file) {before after : List TokenId} {id : TokenId}
    (hfile : file = before ++ id :: after) : list.next? id = after.head? := by
  have hs := h.strung
  rw [hfile] at hs
  rw [hs.next?_eq, Option.or_none]

/-- The backward links go through the file. -/
theorem prev?_eq (h : list.Threaded file) {before after : List TokenId} {id : TokenId}
    (hfile : file = before ++ id :: after) : list.prev? id = before.getLast? := by
  have hs := h.strung
  rw [hfile] at hs
  rw [hs.prev?_eq, Option.or_none]

/-- A file stays what it is while its tokens keep their links and residency and no other
    token becomes linked. -/
theorem congr {list' : TokenList} (h : list.Threaded file)
    (hlinks : ∀ x ∈ file, list'.prev? x = list.prev? x ∧ list'.next? x = list.next? x)
    (hlinked : ∀ x, list'.isLinked x = list.isLinked x)
    (hhead : list'.head? = list.head?) (htail : list'.tail? = list.tail?)
    (hlength : list'.length = list.length) : list'.Threaded file where
  nodup := h.nodup
  linked_iff := fun id => by rw [hlinked id]; exact h.linked_iff id
  strung := h.strung.congr hlinks
  head := hhead.trans h.head
  tail := htail.trans h.tail
  length := hlength.trans h.length

end Threaded

/-! ## §3. Following links -/

/-- Strung tokens are each the next of the one before. -/
theorem Strung.isChain {list : TokenList} {before? after? : Option TokenId}
    {ids : List TokenId} (h : list.Strung before? ids after?) :
    ids.IsChain (fun a b => list.next? a = some b) := by
  induction ids generalizing before? with
  | nil => exact .nil
  | cons id rest ih =>
    obtain ⟨-, hnext, hrest⟩ := h
    cases rest with
    | nil => exact List.isChain_singleton id
    | cons y rest => exact List.isChain_cons_cons.mpr ⟨hnext, ih hrest⟩

/-- Tokens of which each is the next of the one before, and that one the previous of it, are
    strung. -/
theorem strung_of_mirrored {list : TokenList} {ids : List TokenId}
    (hnext : ids.IsChain (fun a b => list.next? a = some b))
    (hprev : ids.IsChain (fun a b => list.prev? b = some a)) :
    list.Strung (ids.head?.bind list.prev?) ids (ids.getLast?.bind list.next?) := by
  induction ids with
  | nil => trivial
  | cons id rest ih =>
    cases rest with
    | nil =>
      refine ⟨rfl, ?_, trivial⟩
      rw [List.getLast?_singleton]
      rfl
    | cons y rest =>
      obtain ⟨hnext, hnextRest⟩ := List.isChain_cons_cons.mp hnext
      obtain ⟨hprev, hprevRest⟩ := List.isChain_cons_cons.mp hprev
      have hrest := ih hnextRest hprevRest
      refine ⟨rfl, ?_, ?_⟩
      · rw [hnext]
        rfl
      · rw [List.head?_cons, Option.bind_some, hprev] at hrest
        rw [List.getLast?_cons_cons]
        exact hrest

/-- Following forward links meets the tokens in order and stops at the last. -/
theorem follow_isChain {list : TokenList} {ids : List TokenId}
    (h : ids.IsChain (fun a b => list.next? a = some b)) (hnodup : ids.Nodup)
    (hne : ids ≠ []) {fuel : Nat} (hfuel : ids.length ≤ fuel) :
    list.follow ids.getLast? fuel ids.head? = ids := by
  induction ids generalizing fuel with
  | nil => exact absurd rfl hne
  | cons id rest ih =>
    obtain ⟨hnot, hnodup'⟩ := List.nodup_cons.mp hnodup
    cases fuel with
    | zero => simp at hfuel
    | succ fuel =>
      rw [List.head?_cons, follow]
      cases rest with
      | nil => simp
      | cons y rest =>
        obtain ⟨hnext, hrest⟩ := List.isChain_cons_cons.mp h
        -- no token comes twice, so the last one is not met early
        have hlast : ¬ some id = (y :: rest).getLast? :=
          fun he => hnot (List.mem_of_getLast? he.symm)
        rw [List.getLast?_cons_cons, if_neg hlast, hnext]
        have hle : (y :: rest).length ≤ fuel := by
          simp only [List.length_cons] at hfuel ⊢
          omega
        have hstep := ih hrest hnodup' (List.cons_ne_nil y rest) hle
        rw [List.head?_cons] at hstep
        rw [hstep]

/-- The tokens that a walk from head to tail meets are those of the file. -/
theorem Threaded.ids_eq {list : TokenList} {file : List TokenId} (h : list.Threaded file) :
    list.ids = file := by
  unfold ids
  rw [h.head, h.tail]
  cases file with
  | nil =>
    unfold walkBound
    rfl
  | cons id rest =>
    exact follow_isChain h.strung.isChain h.nodup (List.cons_ne_nil id rest)
      (Nat.le_of_lt h.length_lt_walkBound)

/-- The tokens of a range are the stretch of the file between its ends. -/
theorem Threaded.range_eq {list : TokenList} {before middle after : List TokenId}
    {range : TokenRange} (h : list.Threaded (before ++ middle ++ after))
    (hfirst : middle.head? = some range.first) (hlast : middle.getLast? = some range.last) :
    list.range range = middle := by
  have hlt := h.length_lt_walkBound
  have hne : middle ≠ [] := by
    intro he
    simp [he] at hfirst
  have hstrung := (strung_append.mp (strung_append.mp h.strung).1).2
  have hnodup : middle.Nodup := (List.nodup_append.mp (List.nodup_append.mp h.nodup).1).2.1
  unfold TokenList.range
  rw [← hfirst, ← hlast]
  refine follow_isChain hstrung.isChain hnodup hne ?_
  simp only [List.length_append] at hlt
  omega

/-- A search along the links, by its first step. -/
theorem firstSignificant?_succ {list : TokenList} {id : TokenId} {token : Token}
    (h : list.get? id = some token) (step : TokenId → Option TokenId) (fuel : Nat) :
    list.firstSignificant? step (fuel + 1) (some id)
      = if list.isSignificant id then some id else list.firstSignificant? step fuel (step id) := by
  have hkind : list.kind? id = some token.kind := by
    unfold kind?
    rw [h]
    rfl
  unfold isSignificant
  rw [firstSignificant?, hkind]
  cases htrivia : token.kind.isTrivia <;> simp [htrivia]

/-- A walk to the nearest significant token along forward links. -/
theorem Threaded.firstSignificant?_next {list : TokenList} {file : List TokenId}
    (h : list.Threaded file) {before after : List TokenId} (hfile : file = before ++ after)
    {fuel : Nat} (hfuel : after.length < fuel) :
    list.firstSignificant? list.next? fuel after.head? = after.find? list.isSignificant := by
  induction after generalizing before fuel with
  | nil =>
    cases fuel <;> rfl
  | cons id rest ih =>
    cases fuel with
    | zero => omega
    | succ fuel =>
      have hmem : id ∈ file := by simp [hfile]
      obtain ⟨token, htoken, -⟩ := h.get?_of_mem hmem
      have hrest : file = (before ++ [id]) ++ rest := by simp [hfile]
      rw [List.head?_cons, firstSignificant?_succ htoken, List.find?_cons, h.next?_eq hfile,
        ih hrest (by simpa using hfuel)]
      cases list.isSignificant id <;> rfl

/-- A walk to the nearest significant token along backward links. -/
theorem Threaded.firstSignificant?_prev {list : TokenList} {file : List TokenId}
    (h : list.Threaded file) {before after : List TokenId} (hfile : file = before ++ after)
    {fuel : Nat} (hfuel : before.length < fuel) :
    list.firstSignificant? list.prev? fuel before.getLast?
      = before.reverse.find? list.isSignificant := by
  induction before using List.reverseRecOn generalizing after fuel with
  | nil =>
    cases fuel <;> rfl
  | append_singleton rest id ih =>
    rw [List.length_append, List.length_singleton] at hfuel
    cases fuel with
    | zero => omega
    | succ fuel =>
      have hmem : id ∈ file := by simp [hfile]
      obtain ⟨token, htoken, -⟩ := h.get?_of_mem hmem
      have hrest : file = rest ++ id :: after := by simp [hfile]
      rw [List.getLast?_concat, firstSignificant?_succ htoken, List.reverse_concat,
        List.find?_cons, h.prev?_eq hrest, ih hrest (Nat.lt_of_succ_lt_succ hfuel)]
      cases list.isSignificant id <;> rfl

/-- **The nearest significant token** behind another. -/
theorem Threaded.nextSignificant?_eq {list : TokenList} {file : List TokenId}
    (h : list.Threaded file) {before after : List TokenId} {id : TokenId}
    (hfile : file = before ++ id :: after) :
    list.nextSignificant? id = after.find? list.isSignificant := by
  have hlt := h.length_lt_walkBound
  have hsplit : file = (before ++ [id]) ++ after := by simp [hfile]
  rw [hfile] at hlt
  unfold nextSignificant?
  rw [h.next?_eq hfile]
  exact h.firstSignificant?_next hsplit (by simp at hlt; omega)

/-- **The nearest significant token** before another. -/
theorem Threaded.prevSignificant?_eq {list : TokenList} {file : List TokenId}
    (h : list.Threaded file) {before after : List TokenId} {id : TokenId}
    (hfile : file = before ++ id :: after) :
    list.prevSignificant? id = before.reverse.find? list.isSignificant := by
  have hlt := h.length_lt_walkBound
  rw [hfile] at hlt
  unfold prevSignificant?
  rw [h.prev?_eq hfile]
  exact h.firstSignificant?_prev hfile (by simp at hlt; omega)

/-! ## §4. Checked walks -/

/-- What a checked walk has seen: tokens of the right residency, each the next of the one
    before, from the start through the end of the range. -/
theorem walkFrom_ok {list : TokenList} {range : TokenRange} {linked : Bool} {fuel : Nat}
    {id : TokenId} {ids : List TokenId}
    (h : list.walkFrom range linked fuel (some id) = .ok ids) :
    ids.head? = some id ∧ ids.getLast? = some range.last
      ∧ (∀ x ∈ ids, ∃ token, list.get? x = some token ∧ token.linked = linked)
      ∧ ids.IsChain (fun a b => list.next? a = some b) := by
  induction fuel generalizing id ids with
  | zero => simp [walkFrom] at h
  | succ fuel ih =>
    rw [walkFrom] at h
    cases hget : list.get? id with
    | none => simp [hget] at h
    | some token =>
      simp only [hget] at h
      split at h
      · simp at h
      · rename_i hflag
        have hres : token.linked = linked := by simpa using hflag
        split at h
        -- the walk has come to the last token of the range
        · rename_i hend
          obtain rfl := Except.ok.inj h
          refine ⟨rfl, by rw [hend]; rfl, ?_, List.isChain_singleton id⟩
          intro x hx
          obtain rfl := List.mem_singleton.mp hx
          exact ⟨token, hget, hres⟩
        · cases hnext : token.next? with
          | none =>
            rw [hnext] at h
            cases fuel <;> simp [walkFrom, Except.map] at h
          -- the walk goes on by the forward link, which the chain then has
          | some next =>
            rw [hnext] at h
            cases hwalk : list.walkFrom range linked fuel (some next) with
            | error e => simp [hwalk, Except.map] at h
            | ok rest =>
              rw [hwalk] at h
              obtain rfl := Except.ok.inj h
              obtain ⟨hhead, hlast, hall, hchain⟩ := ih hwalk
              cases rest with
              | nil => simp at hhead
              | cons y rest =>
                obtain rfl := Option.some.inj hhead
                refine ⟨rfl, by rw [List.getLast?_cons_cons]; exact hlast, ?_, ?_⟩
                · intro x hx
                  rcases List.mem_cons.mp hx with rfl | hx
                  · exact ⟨token, hget, hres⟩
                  · exact hall x hx
                · refine List.isChain_cons_cons.mpr ⟨?_, hchain⟩
                  rw [list.next?_eq, hget]
                  exact hnext

/-- A walk over tokens of the right residency, each the next of the one before, gets
    through. -/
theorem walkFrom_isChain {list : TokenList} {range : TokenRange} {linked : Bool}
    {ids : List TokenId} (h : ids.IsChain (fun a b => list.next? a = some b))
    (hnodup : ids.Nodup) (hne : ids ≠ []) (hlast : ids.getLast? = some range.last)
    (hres : ∀ x ∈ ids, ∃ token, list.get? x = some token ∧ token.linked = linked)
    {fuel : Nat} (hfuel : ids.length ≤ fuel) :
    list.walkFrom range linked fuel ids.head? = .ok ids := by
  induction ids generalizing fuel with
  | nil => exact absurd rfl hne
  | cons id rest ih =>
    obtain ⟨hnot, hnodup'⟩ := List.nodup_cons.mp hnodup
    obtain ⟨token, hget, hlinked⟩ := hres id List.mem_cons_self
    cases fuel with
    | zero => simp at hfuel
    | succ fuel =>
      rw [List.head?_cons, walkFrom]
      simp only [hget, hlinked, bne_self_eq_false, Bool.false_eq_true, if_false]
      cases rest with
      | nil =>
        rw [if_pos (by simpa using hlast)]
      | cons y rest =>
        obtain ⟨hnext, hrest⟩ := List.isChain_cons_cons.mp h
        rw [List.getLast?_cons_cons] at hlast
        -- no token is visited twice, so the walk is not at its end yet
        have hid : ¬ id = range.last :=
          fun he => hnot (List.mem_of_getLast? (by rw [hlast, he]))
        have htoken : token.next? = some y := by
          rw [list.next?_eq, hget] at hnext
          exact hnext
        have hle : (y :: rest).length ≤ fuel := by
          simp only [List.length_cons] at hfuel ⊢
          omega
        have hstep := ih hrest hnodup' (List.cons_ne_nil y rest) hlast
          (fun x hx => hres x (List.mem_cons_of_mem _ hx)) hle
        rw [List.head?_cons] at hstep
        rw [if_neg hid, htoken, hstep]
        rfl

/-- Linked tokens of which each is the next of the one before are a stretch of the file. -/
theorem Threaded.stretch_of_isChain {list : TokenList} {file : List TokenId}
    (h : list.Threaded file) {ids : List TokenId} (hne : ids ≠ [])
    (hmem : ∀ x ∈ ids, x ∈ file)
    (hchain : ids.IsChain (fun a b => list.next? a = some b)) :
    ∃ before after, file = before ++ ids ++ after := by
  induction ids with
  | nil => exact absurd rfl hne
  | cons id rest ih =>
    cases rest with
    | nil =>
      obtain ⟨before, after, hfile⟩ := List.append_of_mem (hmem id List.mem_cons_self)
      exact ⟨before, after, by rw [hfile]; simp⟩
    | cons y rest =>
      obtain ⟨hnext, hchain'⟩ := List.isChain_cons_cons.mp hchain
      obtain ⟨before, after, hfile⟩ :=
        ih (List.cons_ne_nil y rest) (fun x hx => hmem x (List.mem_cons_of_mem _ hx)) hchain'
      -- `id` has `y` as its next token, so it is the one that stands before `y`.
      obtain ⟨front, back, hsplit⟩ := List.append_of_mem (hmem id List.mem_cons_self)
      have hback := h.next?_eq hsplit
      rw [hnext] at hback
      cases back with
      | nil => simp at hback
      | cons z back =>
        obtain rfl := Option.some.inj hback
        have hy : file = (front ++ [id]) ++ y :: back := by rw [hsplit]; simp
        have hy' : file = before ++ y :: (rest ++ after) := by rw [hfile]; simp
        have hprev := h.prev?_eq hy
        rw [h.prev?_eq hy', List.getLast?_concat] at hprev
        obtain ⟨before', rfl⟩ := List.getLast?_eq_some_iff.mp hprev
        exact ⟨before', after, by rw [hfile]; simp⟩

/-- A checked walk over linked tokens is a stretch of the file. -/
theorem walk_linked {list : TokenList} {file : List TokenId} (h : list.Threaded file)
    {range : TokenRange} {ids : List TokenId} (hwalk : list.walk range true = .ok ids) :
    ids.head? = some range.first ∧ ids.getLast? = some range.last
      ∧ ∃ before after, file = before ++ ids ++ after := by
  obtain ⟨hhead, hlast, hall, hchain⟩ := walkFrom_ok hwalk
  refine ⟨hhead, hlast, h.stretch_of_isChain ?_ ?_ hchain⟩
  · intro he
    simp [he] at hhead
  · intro x hx
    obtain ⟨token, hget, hlinked⟩ := hall x hx
    exact h.mem_of_get? hget hlinked

/-- A stretch of the file passes the checked walk over its ends. -/
theorem Threaded.walk_eq {list : TokenList} {before middle after : List TokenId}
    {range : TokenRange} (h : list.Threaded (before ++ middle ++ after))
    (hfirst : middle.head? = some range.first) (hlast : middle.getLast? = some range.last) :
    list.walk range true = .ok middle := by
  have hlt := h.length_lt_walkBound
  have hne : middle ≠ [] := by
    intro he
    simp [he] at hfirst
  have hstrung := (strung_append.mp (strung_append.mp h.strung).1).2
  have hnodup : middle.Nodup := (List.nodup_append.mp (List.nodup_append.mp h.nodup).1).2.1
  unfold walk
  rw [← hfirst]
  refine walkFrom_isChain hstrung.isChain hnodup hne hlast (fun x hx => ?_) ?_
  · exact h.get?_of_mem (by simp [hx])
  · simp only [List.length_append] at hlt
    omega

/-! ## §5. Detached runs -/

/-- The handle of a token that exists and waits to be linked. -/
def IsDetached (list : TokenList) (id : TokenId) : Prop :=
  ∃ token, list.get? id = some token ∧ token.linked = false

/-- No token of the file waits to be linked. -/
theorem Threaded.notMem_of_isDetached {list : TokenList} {file : List TokenId}
    (h : list.Threaded file) {id : TokenId} (hid : list.IsDetached id) : id ∉ file := by
  intro hmem
  obtain ⟨token, hget, hlinked⟩ := h.get?_of_mem hmem
  obtain ⟨token', hget', hdetached⟩ := hid
  rw [hget] at hget'
  rw [Option.some.inj hget', hdetached] at hlinked
  exact Bool.noConfusion hlinked

/-- Among detached tokens the two links mirror each other, and following them leads in no
    circle.  Links name only handles that were given out. -/
structure Loose (list : TokenList) : Prop where
  mirror : ∀ a b, list.IsDetached a → list.IsDetached b →
    (list.next? a = some b ↔ list.prev? b = some a)
  noRing : ∃ rank : TokenId → Nat, ∀ a b, list.IsDetached a → list.IsDetached b →
    list.next? a = some b → rank a < rank b
  given : ∀ a b, list.IsDetached a → list.next? a = some b ∨ list.prev? a = some b →
    b.index < list.slots.size

/-- Every token detached in `list'` was so in `list`, with the same links. -/
def KeepsRuns (list list' : TokenList) : Prop :=
  ∀ x, list'.IsDetached x →
    list.IsDetached x ∧ list'.next? x = list.next? x ∧ list'.prev? x = list.prev? x

/-- Runs stay sound while detached tokens only disappear and keep their links. -/
theorem Loose.mono {list list' : TokenList} (h : list.Loose)
    (hsize : list.slots.size ≤ list'.slots.size) (hkeep : list.KeepsRuns list') :
    list'.Loose := by
  refine ⟨?_, ?_, ?_⟩
  · intro a b ha hb
    obtain ⟨ha', hna, -⟩ := hkeep a ha
    obtain ⟨hb', -, hpb⟩ := hkeep b hb
    rw [hna, hpb]
    exact h.mirror a b ha' hb'
  · obtain ⟨rank, hrank⟩ := h.noRing
    refine ⟨rank, ?_⟩
    intro a b ha hb hnext
    obtain ⟨ha', hna, -⟩ := hkeep a ha
    obtain ⟨hb', -, -⟩ := hkeep b hb
    rw [hna] at hnext
    exact hrank a b ha' hb' hnext
  · intro a b ha hlink
    obtain ⟨ha', hna, hpa⟩ := hkeep a ha
    rw [hna, hpa] at hlink
    exact Nat.lt_of_lt_of_le (h.given a b ha' hlink) hsize

/-- Detached tokens of which each is the next of the one before are strung. -/
theorem Loose.strung_of_isChain {list : TokenList} (h : list.Loose) {ids : List TokenId}
    (hdet : ∀ x ∈ ids, list.IsDetached x)
    (hchain : ids.IsChain (fun a b => list.next? a = some b)) :
    list.Strung (ids.head?.bind list.prev?) ids (ids.getLast?.bind list.next?) :=
  strung_of_mirrored hchain (hchain.imp_of_mem_imp fun a b ha hb hnext =>
    (h.mirror a b (hdet a ha) (hdet b hb)).mp hnext)

/-- Following the links of detached tokens meets no token twice. -/
theorem Loose.nodup_of_isChain {list : TokenList} (h : list.Loose) {ids : List TokenId}
    (hdet : ∀ x ∈ ids, list.IsDetached x)
    (hchain : ids.IsChain (fun a b => list.next? a = some b)) : ids.Nodup := by
  obtain ⟨rank, hrank⟩ := h.noRing
  have hlt : ids.IsChain (fun a b => rank a < rank b) := by
    refine hchain.imp_of_mem_imp ?_
    intro a b ha hb hnext
    exact hrank a b (hdet a ha) (hdet b hb) hnext
  have hpair : ids.Pairwise (fun a b => rank a < rank b) := by
    have htrans : IsTrans TokenId (fun a b => rank a < rank b) :=
      ⟨fun _ _ _ hab hbc => Nat.lt_trans hab hbc⟩
    exact List.isChain_iff_pairwise.mp hlt
  exact hpair.imp fun hab he => absurd (he ▸ hab) (Nat.lt_irrefl _)

/-- A checked walk over detached tokens is strung and meets no token twice. -/
theorem walk_detached {list : TokenList} (h : list.Loose) {range : TokenRange}
    {ids : List TokenId} (hwalk : list.walk range false = .ok ids) :
    ids.head? = some range.first ∧ ids.getLast? = some range.last
      ∧ (∀ x ∈ ids, list.IsDetached x) ∧ ids.Nodup
      ∧ list.Strung (ids.head?.bind list.prev?) ids (ids.getLast?.bind list.next?) := by
  obtain ⟨hhead, hlast, hall, hchain⟩ := walkFrom_ok hwalk
  exact ⟨hhead, hlast, hall, h.nodup_of_isChain hall hchain,
    h.strung_of_isChain hall hchain⟩

/-- The linked tokens are strung from head to tail, and the detached ones form runs. -/
structure WellFormed (list : TokenList) : Prop where
  threaded : list.Threaded list.ids
  loose : list.Loose

/-- A list with a file and with runs is well-formed. -/
theorem Threaded.wellFormed {list : TokenList} {file : List TokenId} (h : list.Threaded file)
    (hloose : list.Loose) : list.WellFormed :=
  ⟨h.ids_eq.symm ▸ h, hloose⟩

end KernelPrep.TokenList
