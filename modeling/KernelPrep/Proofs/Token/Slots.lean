/-
  KernelPrep.Proofs.Token.Slots — what each change of a token list does to one slot.

  All changes of a token list come down to a few primitives: set a link, set the mark of
  a linked token, empty a slot, add a slot.  Each primitive gets one equation for the
  token of an arbitrary handle afterwards, so that the proofs about runs and files never
  open the array of slots.

  Main statements:
    * `TokenList.get?_link`       — `link` changes one forward and one backward link;
    * `TokenList.get?_linkRun`    — the same for a run linked between two neighbours;
    * `TokenList.get?_markLinked`, `TokenList.get?_destroy`, `TokenList.get?_alloc`.
-/
import Mathlib.Data.List.Basic
import KernelPrep.Token.Splice

namespace KernelPrep

/-- Handles are told apart by their indices. -/
theorem TokenId.ext_index {a b : TokenId} (h : a.index = b.index) : a = b := by
  cases a
  cases b
  exact congrArg TokenId.mk h

namespace TokenList

/-! ## §1. Reading through `get?` -/

/-- The forward link is read off the token. -/
theorem next?_eq (list : TokenList) (id : TokenId) :
    list.next? id = (list.get? id).bind (·.next?) := rfl

/-- The backward link is read off the token. -/
theorem prev?_eq (list : TokenList) (id : TokenId) :
    list.prev? id = (list.get? id).bind (·.prev?) := rfl

/-- A linked handle names a token that is marked so. -/
theorem isLinked_iff {list : TokenList} {id : TokenId} :
    list.isLinked id = true ↔ ∃ token, list.get? id = some token ∧ token.linked = true := by
  unfold isLinked
  cases list.get? id <;> simp

/-- The kind is read off the token. -/
theorem kind?_of_get? {list : TokenList} {id : TokenId} {token : Token}
    (h : list.get? id = some token) : list.kind? id = some token.kind := by
  unfold kind?
  rw [h]
  rfl

/-- The text is read off the token. -/
theorem textOf_of_get? {list : TokenList} {id : TokenId} {token : Token}
    (h : list.get? id = some token) : list.textOf id = token.text := by
  unfold textOf
  rw [h]
  rfl

/-- A handle that names a token stands in the array. -/
theorem index_lt_of_get? {list : TokenList} {id : TokenId} {token : Token}
    (h : list.get? id = some token) : id.index < list.slots.size := by
  by_contra hge
  unfold get? at h
  rw [Array.getElem?_eq_none (by omega)] at h
  simp at h

/-- A handle beyond the array names no token. -/
theorem get?_eq_none_of_le {list : TokenList} {id : TokenId}
    (h : list.slots.size ≤ id.index) : list.get? id = none := by
  unfold get?
  rw [Array.getElem?_eq_none h]
  rfl

/-! ## §2. One slot changed -/

/-- **One slot changed**: no other token is. -/
theorem get?_modify (list : TokenList) (id x : TokenId) (f : Token → Token) :
    (list.modify id f).get? x = if x = id then (list.get? x).map f else list.get? x := by
  unfold get? modify
  rw [Array.getElem?_modify]
  by_cases h : x = id
  · subst h
    rw [if_pos rfl, if_pos rfl]
    cases list.slots[x.index]? <;> rfl
  · rw [if_neg h, if_neg (fun he => h (TokenId.ext_index he.symm))]

@[simp] theorem head?_modify (list : TokenList) (id : TokenId) (f : Token → Token) :
    (list.modify id f).head? = list.head? := rfl

@[simp] theorem tail?_modify (list : TokenList) (id : TokenId) (f : Token → Token) :
    (list.modify id f).tail? = list.tail? := rfl

@[simp] theorem length_modify (list : TokenList) (id : TokenId) (f : Token → Token) :
    (list.modify id f).length = list.length := rfl

@[simp] theorem size_modify (list : TokenList) (id : TokenId) (f : Token → Token) :
    (list.modify id f).slots.size = list.slots.size := by
  unfold modify
  exact Array.size_modify

/-- **A slot added**: its handle is the next one. -/
theorem get?_alloc (list : TokenList) (token : Token) (x : TokenId) :
    (list.alloc token).get? x = if x = list.nextId then some token else list.get? x := by
  unfold get? alloc nextId
  rw [Array.getElem?_push]
  by_cases h : x = ⟨list.slots.size⟩
  · subst h
    simp
  · rw [if_neg h, if_neg (fun he => h (TokenId.ext_index he))]

@[simp] theorem size_alloc (list : TokenList) (token : Token) :
    (list.alloc token).slots.size = list.slots.size + 1 := Array.size_push _

/-- A token that is there already is not changed by a new one. -/
theorem get?_alloc_of_lt {list : TokenList} {token : Token} {id : TokenId}
    (h : id.index < list.slots.size) : (list.alloc token).get? id = list.get? id := by
  rw [get?_alloc, if_neg]
  rintro rfl
  exact Nat.lt_irrefl _ h

/-- The next handle names no token yet. -/
theorem get?_nextId (list : TokenList) : list.get? list.nextId = none :=
  get?_eq_none_of_le (Nat.le_refl _)

/-! ## §3. Links -/

/-- A token whose forward link becomes `b?` if it is `a?`, and whose backward link becomes
    `a?` if it is `b?`. -/
def relink (a? b? : Option TokenId) (id : TokenId) (token : Token) : Token :=
  { token with
    next? := if a? = some id then b? else token.next?
    prev? := if b? = some id then a? else token.prev? }

/-- Setting the forward link of `a` alone. -/
theorem get?_setNext (list : TokenList) (a : TokenId) (b? : Option TokenId) (x : TokenId) :
    (list.modify a fun token => { token with next? := b? }).get? x
      = (list.get? x).map fun token =>
          { token with next? := if some a = some x then b? else token.next? } := by
  rw [get?_modify]
  by_cases h : x = a
  · subst h
    simp
  · rw [if_neg h]
    have hne : ¬ some a = some x := fun he => h (Option.some.inj he).symm
    cases list.get? x <;> simp [hne]

/-- Setting the backward link of `b` alone. -/
theorem get?_setPrev (list : TokenList) (b : TokenId) (a? : Option TokenId) (x : TokenId) :
    (list.modify b fun token => { token with prev? := a? }).get? x
      = (list.get? x).map fun token =>
          { token with prev? := if some b = some x then a? else token.prev? } := by
  rw [get?_modify]
  by_cases h : x = b
  · subst h
    simp
  · rw [if_neg h]
    have hne : ¬ some b = some x := fun he => h (Option.some.inj he).symm
    cases list.get? x <;> simp [hne]

/-- **Two neighbours linked**, either of which may be missing at an end of the file. -/
theorem get?_link (list : TokenList) (a? b? : Option TokenId) (x : TokenId) :
    (list.link a? b?).get? x = (list.get? x).map (relink a? b? x) := by
  cases a? with
  | none =>
    cases b? with
    | none =>
      show list.get? x = _
      cases h : list.get? x <;> simp [relink]
    | some b =>
      show (TokenList.modify { list with head? := some b } b _).get? x = _
      rw [get?_setPrev]
      show (list.get? x).map _ = _
      cases list.get? x <;> simp [relink]
  | some a =>
    cases b? with
    | none =>
      show (list.modify a fun token => { token with next? := none }).get? x = _
      rw [get?_setNext]
      cases list.get? x <;> simp [relink]
    | some b =>
      show ((list.modify a fun token => { token with next? := some b }).modify b _).get? x = _
      rw [get?_setPrev, get?_setNext]
      cases list.get? x <;> simp [relink]

/-- What is linked with nothing before it is where the file starts. -/
theorem head?_link (list : TokenList) (a? b? : Option TokenId) :
    (list.link a? b?).head? = if a? = none then b? else list.head? := by
  unfold link
  cases a? <;> cases b? <;> simp

/-- What is linked with nothing behind it is where the file ends. -/
theorem tail?_link (list : TokenList) (a? b? : Option TokenId) :
    (list.link a? b?).tail? = if b? = none then a? else list.tail? := by
  unfold link
  cases a? <;> cases b? <;> simp

@[simp] theorem length_link (list : TokenList) (a? b? : Option TokenId) :
    (list.link a? b?).length = list.length := by
  unfold link
  cases a? <;> cases b? <;> simp

@[simp] theorem size_link (list : TokenList) (a? b? : Option TokenId) :
    (list.link a? b?).slots.size = list.slots.size := by
  unfold link
  cases a? <;> cases b? <;> simp

/-! ## §4. Marking and destroying -/

/-- A token that counts as linked if its handle is among `ids`. -/
def mark (ids : List TokenId) (id : TokenId) (token : Token) : Token :=
  { token with linked := token.linked || ids.contains id }

/-- Marking one token after the other marks all of them. -/
theorem get?_foldl_mark (ids : List TokenId) (list : TokenList) (x : TokenId) :
    (ids.foldl (fun l id => l.modify id fun token => { token with linked := true }) list).get? x
      = (list.get? x).map (mark ids x) := by
  induction ids generalizing list with
  | nil =>
    show list.get? x = _
    cases h : list.get? x <;> simp [mark]
  | cons id rest ih =>
    rw [List.foldl_cons, ih, get?_modify]
    by_cases h : x = id
    · subst h
      cases list.get? x <;> simp [mark]
    · rw [if_neg h]
      cases list.get? x <;> simp [mark, h]

/-- Marking tokens leaves the ends and the sizes of the list as they were. -/
theorem foldl_mark_frame (ids : List TokenId) (list : TokenList) :
    (ids.foldl (fun l id => l.modify id fun token => { token with linked := true }) list).head?
        = list.head?
      ∧ (ids.foldl (fun l id => l.modify id fun token => { token with linked := true })
          list).tail? = list.tail?
      ∧ (ids.foldl (fun l id => l.modify id fun token => { token with linked := true })
          list).length = list.length
      ∧ (ids.foldl (fun l id => l.modify id fun token => { token with linked := true })
          list).slots.size = list.slots.size := by
  induction ids generalizing list with
  | nil => exact ⟨rfl, rfl, rfl, rfl⟩
  | cons id rest ih =>
    rw [List.foldl_cons]
    obtain ⟨hh, ht, hl, hs⟩ := ih (list.modify id fun token => { token with linked := true })
    exact ⟨hh, ht, hl, by rw [hs, size_modify]⟩

/-- **Tokens marked as linked** are changed in nothing else. -/
theorem get?_markLinked (list : TokenList) (ids : List TokenId) (x : TokenId) :
    (list.markLinked ids).get? x = (list.get? x).map (mark ids x) :=
  get?_foldl_mark ids list x

@[simp] theorem head?_markLinked (list : TokenList) (ids : List TokenId) :
    (list.markLinked ids).head? = list.head? := (foldl_mark_frame ids list).1

@[simp] theorem tail?_markLinked (list : TokenList) (ids : List TokenId) :
    (list.markLinked ids).tail? = list.tail? := (foldl_mark_frame ids list).2.1

@[simp] theorem length_markLinked (list : TokenList) (ids : List TokenId) :
    (list.markLinked ids).length = list.length + ids.length := by
  show _ + ids.length = _
  rw [(foldl_mark_frame ids list).2.2.1]

@[simp] theorem size_markLinked (list : TokenList) (ids : List TokenId) :
    (list.markLinked ids).slots.size = list.slots.size := (foldl_mark_frame ids list).2.2.2

/-- **Slots emptied**: their handles name no token any more. -/
theorem get?_destroy (list : TokenList) (ids : List TokenId) (x : TokenId) :
    (list.destroy ids).get? x = if x ∈ ids then none else list.get? x := by
  unfold destroy
  induction ids generalizing list with
  | nil => rfl
  | cons id rest ih =>
    rw [List.foldl_cons, ih]
    have hcut : ({ list with slots := list.slots.modify id.index fun _ => none }
        : TokenList).get? x = if x = id then none else list.get? x := by
      unfold get?
      show (list.slots.modify id.index fun _ => none)[x.index]?.join = _
      rw [Array.getElem?_modify]
      by_cases h : x = id
      · subst h
        rw [if_pos rfl, if_pos rfl]
        cases list.slots[x.index]? <;> rfl
      · rw [if_neg h, if_neg (fun he => h (TokenId.ext_index he.symm))]
    rw [hcut]
    by_cases h : x = id
    · simp [h]
    · simp [h]

/-- Emptying slots leaves the ends, the length and the array as they were. -/
theorem destroy_frame (list : TokenList) (ids : List TokenId) :
    (list.destroy ids).head? = list.head? ∧ (list.destroy ids).tail? = list.tail?
      ∧ (list.destroy ids).length = list.length
      ∧ (list.destroy ids).slots.size = list.slots.size := by
  unfold destroy
  induction ids generalizing list with
  | nil => exact ⟨rfl, rfl, rfl, rfl⟩
  | cons id rest ih =>
    rw [List.foldl_cons]
    obtain ⟨hh, ht, hl, hs⟩ :=
      ih { list with slots := list.slots.modify id.index fun _ => none }
    exact ⟨hh, ht, hl, by rw [hs]; exact Array.size_modify⟩

@[simp] theorem head?_destroy (list : TokenList) (ids : List TokenId) :
    (list.destroy ids).head? = list.head? := (destroy_frame list ids).1

@[simp] theorem tail?_destroy (list : TokenList) (ids : List TokenId) :
    (list.destroy ids).tail? = list.tail? := (destroy_frame list ids).2.1

@[simp] theorem length_destroy (list : TokenList) (ids : List TokenId) :
    (list.destroy ids).length = list.length := (destroy_frame list ids).2.2.1

@[simp] theorem size_destroy (list : TokenList) (ids : List TokenId) :
    (list.destroy ids).slots.size = list.slots.size := (destroy_frame list ids).2.2.2

/-! ## §5. Runs -/

/-- **A run linked in**: its ends and its two neighbours are linked anew, and its tokens are
    marked. -/
theorem get?_linkRun (list : TokenList) (before? after? : Option TokenId) (run : TokenRange)
    (ids : List TokenId) (x : TokenId) :
    (list.linkRun before? after? run ids).get? x
      = (list.get? x).map fun token =>
          mark ids x (relink (some run.last) after? x
            (relink before? (some run.first) x token)) := by
  unfold linkRun
  rw [get?_markLinked, get?_link, get?_link]
  cases list.get? x <;> rfl

/-- A run linked in with nothing before it is where the file starts. -/
theorem head?_linkRun (list : TokenList) (before? after? : Option TokenId) (run : TokenRange)
    (ids : List TokenId) :
    (list.linkRun before? after? run ids).head?
      = if before? = none then some run.first else list.head? := by
  unfold linkRun
  rw [head?_markLinked, head?_link, if_neg (Option.some_ne_none _), head?_link]

/-- A run linked in with nothing behind it is where the file ends. -/
theorem tail?_linkRun (list : TokenList) (before? after? : Option TokenId) (run : TokenRange)
    (ids : List TokenId) :
    (list.linkRun before? after? run ids).tail?
      = if after? = none then some run.last else list.tail? := by
  unfold linkRun
  rw [tail?_markLinked, tail?_link, tail?_link, if_neg (c := some run.first = none)
    (Option.some_ne_none _)]

@[simp] theorem length_linkRun (list : TokenList) (before? after? : Option TokenId)
    (run : TokenRange) (ids : List TokenId) :
    (list.linkRun before? after? run ids).length = list.length + ids.length := by
  unfold linkRun
  rw [length_markLinked, length_link, length_link]

@[simp] theorem size_linkRun (list : TokenList) (before? after? : Option TokenId)
    (run : TokenRange) (ids : List TokenId) :
    (list.linkRun before? after? run ids).slots.size = list.slots.size := by
  unfold linkRun
  rw [size_markLinked, size_link, size_link]

end TokenList

end KernelPrep
