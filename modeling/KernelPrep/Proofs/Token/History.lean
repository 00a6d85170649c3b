/-
  KernelPrep.Proofs.Token.History — every history of calls keeps the file one chain.

  A history is a sequence of calls with arbitrary handles and ranges, from a list without
  tokens on.  A call that is refused changes nothing.  The one thing a caller has to
  observe is that no token is strung twice: chaining overwrites links, so a token strung
  into a second run would leave its first run broken.

  The invariant of a history is the thread of the file, the soundness of the runs, and the
  fact that a detached token that was never strung has no links.

  Main definitions:
    * `TokenList.Call`, `TokenList.perform`, `TokenList.performAll` — histories;
    * `TokenList.strungBy`, `TokenList.strungByAll` — the tokens that a history strings;
    * `TokenList.OneChain` — the linked tokens form one chain from head to tail.

  Main statements:
    * `TokenList.Held.perform`         — one call keeps the invariant;
    * `TokenList.oneChain_performAll`  — every history that strings no token twice leaves
      one chain.
-/
import KernelPrep.Proofs.Token.Making

namespace KernelPrep.TokenList

/-! ## §1. Histories -/

/-- A call of one of the operations that change a token list. -/
inductive Call where
  | append (kind : TokenKind) (span : Span) (line : Nat)
  | synthesize (kind : TokenKind) (text : String) (line : Nat)
  | chain (ids : List TokenId)
  | replace (old : TokenRange) (new? : Option TokenRange)
  | insertBefore (anchor : TokenId) (run : TokenRange)
  | insertAfter (anchor : TokenId) (run : TokenRange)
  | discard (run : TokenRange)
  | deleteAll
deriving Repr

/-- The list that an operation yields, or the one before if it is refused. -/
def resultOr {α ε : Type} (list : TokenList) : Except ε (α × TokenList) → TokenList
  | .ok (_, list') => list'
  | .error _ => list

/-- What holds of the list before, and of any list an operation yields, holds of the list
    after it. -/
@[elab_as_elim]
theorem resultOr_cases {α ε : Type} {list : TokenList} {motive : TokenList → Prop}
    (result : Except ε (α × TokenList)) (error : ∀ e, result = .error e → motive list)
    (ok : ∀ value list', result = .ok (value, list') → motive list') :
    motive (list.resultOr result) := by
  cases heq : result with
  | error e => exact error e heq
  | ok pair => exact ok pair.1 pair.2 heq

/-- The list after a call. -/
def perform (list : TokenList) : Call → TokenList
  | .append kind span line => (list.append kind span line).2
  | .synthesize kind text line => (list.synthesize kind text line).2
  | .chain ids => list.resultOr (list.chain ids)
  | .replace old new? => list.resultOr (list.replace old new?)
  | .insertBefore anchor run => list.resultOr (list.insertBefore anchor run)
  | .insertAfter anchor run => list.resultOr (list.insertAfter anchor run)
  | .discard run => list.resultOr ((list.discard run).map ((), ·))
  | .deleteAll => list.deleteAll

/-- The tokens that a call strings into a run: those of a `chain` that is not refused. -/
def strungBy (list : TokenList) : Call → List TokenId
  | .chain ids => if (list.chain ids).isOk then ids else []
  | _ => []

/-- The list after a history. -/
def performAll : TokenList → List Call → TokenList
  | list, [] => list
  | list, call :: calls => performAll (list.perform call) calls

/-- The tokens that a history strings, with repetitions. -/
def strungByAll : TokenList → List Call → List TokenId
  | _, [] => []
  | list, call :: calls => list.strungBy call ++ strungByAll (list.perform call) calls

/-! ## §2. The invariant of a history -/

/-- What holds after a history that strung the tokens of `strung`. -/
structure Held (list : TokenList) (strung : List TokenId) : Prop where
  threaded : ∃ file, list.Threaded file
  loose : list.Loose
  unlinked : ∀ x, list.IsDetached x → x ∉ strung → list.next? x = none ∧ list.prev? x = none

/-- A change that only takes detached tokens away keeps the invariant. -/
theorem Held.of_keepsRuns {list list' : TokenList} {strung file : List TokenId}
    (h : list.Held strung) (hthread : list'.Threaded file) (hloose : list'.Loose)
    (hkeep : list.KeepsRuns list') : list'.Held strung := by
  refine ⟨⟨file, hthread⟩, hloose, ?_⟩
  intro x hx hnot
  obtain ⟨hx', hnext, hprev⟩ := hkeep x hx
  rw [hnext, hprev]
  exact h.unlinked x hx' hnot

/-- A new detached token has no links. -/
theorem Held.alloc {list : TokenList} {strung : List TokenId} (h : list.Held strung)
    {token : Token} (hlinked : token.linked = false) (hnext : token.next? = none)
    (hprev : token.prev? = none) : (list.alloc token).Held strung := by
  obtain ⟨file, hthread⟩ := h.threaded
  refine ⟨⟨file, alloc_threaded hthread hlinked⟩, alloc_loose h.loose hnext hprev, ?_⟩
  rintro x ⟨token', htoken', hlinked'⟩ hnot
  rw [get?_alloc] at htoken'
  by_cases hx : x = list.nextId
  · rw [next?_eq, prev?_eq, get?_alloc, if_pos hx]
    exact ⟨hnext, hprev⟩
  · rw [if_neg hx] at htoken'
    rw [next?_eq, prev?_eq, get?_alloc, if_neg hx]
    exact h.unlinked x ⟨token', htoken', hlinked'⟩ hnot

/-- Stringing tokens for the first time. -/
theorem Held.chain {list : TokenList} {strung : List TokenId} (h : list.Held strung)
    {ids : List TokenId} (hnodup : (strung ++ list.strungBy (.chain ids)).Nodup) :
    (list.perform (.chain ids)).Held (strung ++ list.strungBy (.chain ids)) := by
  obtain ⟨file, hthread⟩ := h.threaded
  cases heq : list.chain ids with
  | error e =>
    have hnone : list.strungBy (.chain ids) = [] := by
      simp [strungBy, heq, Except.isOk, Except.toBool]
    rw [hnone, List.append_nil]
    simp only [perform, resultOr, heq]
    exact h
  | ok result =>
    obtain ⟨run?, list'⟩ := result
    have hsome : list.strungBy (.chain ids) = ids := by
      simp [strungBy, heq, Except.isOk, Except.toBool]
    rw [hsome] at hnodup ⊢
    obtain ⟨-, hids, hapart⟩ := List.nodup_append.mp hnodup
    have hdet := (chain_eq_ok heq).1
    -- a token not strung before has no neighbour, so that it may be linked anew
    have hfree : ∀ x ∈ ids, list.next? x = none ∧ list.prev? x = none := fun x hx =>
      h.unlinked x (hdet x hx) fun hs => hapart x hs x hx rfl
    obtain ⟨rfl, hthread', hloose', -, -⟩ := chain_ok hthread h.loose hids hfree heq
    simp only [perform, resultOr, heq]
    refine ⟨⟨file, hthread'⟩, hloose', ?_⟩
    intro x hx hnot
    rw [List.mem_append, not_or] at hnot
    rw [isDetached_chainFrom] at hx
    rw [next?_eq, prev?_eq, get?_chainFrom_of_notMem hnot.2]
    exact h.unlinked x hx hnot.1

/-- **One call keeps the invariant**, whatever its arguments, if it strings no token that was
    strung before. -/
theorem Held.perform {list : TokenList} {strung : List TokenId} (h : list.Held strung)
    (call : Call) (hnodup : (strung ++ list.strungBy call).Nodup) :
    (list.perform call).Held (strung ++ list.strungBy call) := by
  obtain ⟨file, hthread⟩ := h.threaded
  cases call with
  | append kind span line =>
    show (list.append kind span line).2.Held (strung ++ [])
    rw [List.append_nil]
    have hspliced := append_spliced hthread h.loose kind span line
    exact (h.alloc rfl rfl rfl).of_keepsRuns hspliced.now hspliced.loose hspliced.keeps
  | synthesize kind text line =>
    show (list.alloc _).Held (strung ++ [])
    rw [List.append_nil]
    exact h.alloc rfl rfl rfl
  | chain ids => exact h.chain hnodup
  -- a call that is refused changes nothing; one that goes through strings no token anew
  | replace old new? =>
    show (list.resultOr (list.replace old new?)).Held (strung ++ [])
    rw [List.append_nil]
    refine resultOr_cases _ (fun _ _ => h) fun splice list' heq => ?_
    obtain ⟨before, new, after, -, -, -, -, -, hspliced⟩ := replace_ok hthread h.loose heq
    exact h.of_keepsRuns hspliced.now hspliced.loose hspliced.keeps
  | insertBefore anchor run =>
    show (list.resultOr (list.insertBefore anchor run)).Held (strung ++ [])
    rw [List.append_nil]
    refine resultOr_cases _ (fun _ _ => h) fun splice list' heq => ?_
    obtain ⟨before, new, after, -, -, -, hspliced⟩ := insertBefore_ok hthread h.loose heq
    exact h.of_keepsRuns hspliced.now hspliced.loose hspliced.keeps
  | insertAfter anchor run =>
    show (list.resultOr (list.insertAfter anchor run)).Held (strung ++ [])
    rw [List.append_nil]
    refine resultOr_cases _ (fun _ _ => h) fun splice list' heq => ?_
    obtain ⟨before, new, after, -, -, -, hspliced⟩ := insertAfter_ok hthread h.loose heq
    exact h.of_keepsRuns hspliced.now hspliced.loose hspliced.keeps
  | discard run =>
    show (list.resultOr ((list.discard run).map ((), ·))).Held (strung ++ [])
    rw [List.append_nil]
    cases heq : list.discard run with
    | error e => exact h
    | ok list' =>
      obtain ⟨hthread', hloose', hkeep⟩ := discard_ok hthread h.loose heq
      exact h.of_keepsRuns hthread' hloose' hkeep
  | deleteAll =>
    show list.deleteAll.Held (strung ++ [])
    rw [List.append_nil]
    refine ⟨⟨[], threaded_nil get?_deleteAll rfl rfl rfl⟩, loose_of_get?_none get?_deleteAll, ?_⟩
    -- no token is left that could be held
    rintro x ⟨token, htoken, -⟩
    rw [get?_deleteAll] at htoken
    simp at htoken

theorem held_empty (source : String) : (TokenList.empty source).Held [] := by
  refine ⟨⟨[], threaded_nil (get?_empty source) rfl rfl rfl⟩,
    loose_of_get?_none (get?_empty source), ?_⟩
  rintro x ⟨token, htoken, -⟩
  rw [get?_empty] at htoken
  simp at htoken

/-- A history that strings no token twice keeps the invariant. -/
theorem Held.performAll {list : TokenList} {strung : List TokenId} (calls : List Call)
    (h : list.Held strung) (hnodup : (strung ++ list.strungByAll calls).Nodup) :
    (list.performAll calls).Held (strung ++ list.strungByAll calls) := by
  induction calls generalizing list strung with
  | nil =>
    show list.Held (strung ++ [])
    rwa [List.append_nil]
  | cons call calls ih =>
    have hsplit : strung ++ list.strungByAll (call :: calls)
        = (strung ++ list.strungBy call) ++ (list.perform call).strungByAll calls := by
      rw [strungByAll, List.append_assoc]
    rw [hsplit] at hnodup ⊢
    exact ih (h.perform call (List.nodup_append.mp hnodup).1) hnodup

/-! ## §3. One chain -/

/-- The linked tokens form one chain: the walk from the head along forward links meets each
    of them once and ends at the tail, backward links lead the same way back, nothing is
    before the head or behind the tail, and no linked token refers to one that is not. -/
structure OneChain (list : TokenList) : Prop where
  each_once : list.ids.Nodup
  exactly_linked : ∀ id, id ∈ list.ids ↔ list.isLinked id = true
  from_head : list.ids.head? = list.head?
  to_tail : list.ids.getLast? = list.tail?
  along_next : ∀ before id after, list.ids = before ++ id :: after →
    list.next? id = after.head?
  mirror : ∀ a b, list.isLinked a = true → list.isLinked b = true →
    (list.next? a = some b ↔ list.prev? b = some a)
  head_first : ∀ id, list.head? = some id → list.prev? id = none
  tail_last : ∀ id, list.tail? = some id → list.next? id = none
  counted : list.length = list.ids.length
  closed : ∀ id other, list.isLinked id = true →
    list.next? id = some other ∨ list.prev? id = some other → list.isLinked other = true

/-- A threaded list is one chain: its links go both ways, from one end to the other. -/
theorem Threaded.oneChain {list : TokenList} {file : List TokenId} (h : list.Threaded file) :
    list.OneChain := by
  obtain rfl := h.ids_eq
  refine ⟨h.nodup, fun id => (h.linked_iff id).symm, h.head.symm, h.tail.symm,
    fun _ _ _ hfile => h.next?_eq hfile, ?_, ?_, ?_, h.length, ?_⟩
  · intro a b ha hb
    exact h.strung.mirror ((h.linked_iff a).mp ha) ((h.linked_iff b).mp hb)
  · intro id hid
    rw [h.head] at hid
    obtain ⟨rest, hrest⟩ := List.head?_eq_some_iff.mp hid
    have hfile : list.ids = [] ++ id :: rest := hrest
    exact h.prev?_eq hfile
  · intro id hid
    rw [h.tail] at hid
    obtain ⟨front, hfront⟩ := List.getLast?_eq_some_iff.mp hid
    have hfile : list.ids = front ++ id :: [] := hfront
    exact h.next?_eq hfile
  -- a neighbour of a linked token stands beside it in the file
  · intro id other hid hlink
    obtain ⟨before, after, hfile⟩ := List.append_of_mem ((h.linked_iff id).mp hid)
    rw [h.next?_eq hfile, h.prev?_eq hfile] at hlink
    rw [h.linked_iff, hfile]
    rcases hlink with hlink | hlink
    · simp [List.mem_of_head? hlink]
    · simp [List.mem_of_getLast? hlink]

/-- One chain is a thread through the tokens that a walk meets. -/
theorem OneChain.threaded {list : TokenList} (h : list.OneChain) : list.Threaded list.ids := by
  have hnext : list.ids.IsChain (fun a b => list.next? a = some b) :=
    List.isChain_iff_forall_rel_of_append_cons_cons.mpr fun a b before after hids =>
      h.along_next before a (b :: after) hids
  have hprev : list.ids.IsChain (fun a b => list.prev? b = some a) :=
    hnext.imp_of_mem_imp fun a b ha hb hlink =>
      (h.mirror a b ((h.exactly_linked a).mp ha) ((h.exactly_linked b).mp hb)).mp hlink
  refine ⟨h.each_once, fun id => (h.exactly_linked id).symm, ?_, h.from_head.symm,
    h.to_tail.symm, h.counted⟩
  have hfirst : list.ids.head?.bind list.prev? = none := by
    rw [h.from_head, Option.bind_eq_none_iff]
    exact h.head_first
  have hlast : list.ids.getLast?.bind list.next? = none := by
    rw [h.to_tail, Option.bind_eq_none_iff]
    exact h.tail_last
  have hstrung := strung_of_mirrored hnext hprev
  rwa [hfirst, hlast] at hstrung

/-- **Every history that strings no token twice leaves one chain**, also when it passes
    handles and ranges that are unknown, destroyed, reversed or parts of a run. -/
theorem oneChain_performAll (source : String) (calls : List Call)
    (h : ((TokenList.empty source).strungByAll calls).Nodup) :
    ((TokenList.empty source).performAll calls).OneChain := by
  have hheld := (held_empty source).performAll calls (by rwa [List.nil_append])
  obtain ⟨file, hthread⟩ := hheld.threaded
  exact hthread.oneChain

/-- A history in which only the middle of a run is linked in and the file is then cut
    through it; the leftovers of the run as one range, and a reversed range, are refused. -/
def splitRun : List Call :=
  [.append .symbol ⟨0, 1⟩ 1, .append .symbol ⟨1, 2⟩ 1, .synthesize .symbol "x" 1,
    .synthesize .symbol "y" 1, .synthesize .symbol "z" 1, .chain [⟨2⟩, ⟨3⟩, ⟨4⟩],
    .insertBefore ⟨1⟩ ⟨⟨3⟩, ⟨3⟩⟩, .insertAfter ⟨1⟩ ⟨⟨2⟩, ⟨4⟩⟩, .replace ⟨⟨1⟩, ⟨0⟩⟩ none,
    .replace ⟨⟨0⟩, ⟨3⟩⟩ (some ⟨⟨4⟩, ⟨4⟩⟩)]

theorem oneChain_performAll_splitRun :
    ((TokenList.empty "ab").strungByAll splitRun).Nodup
      ∧ ((TokenList.empty "ab").performAll splitRun).ids = [⟨4⟩, ⟨1⟩]
      ∧ ((TokenList.empty "ab").performAll splitRun).OneChain :=
  ⟨by decide, by decide, oneChain_performAll "ab" splitRun (by decide)⟩

end KernelPrep.TokenList
