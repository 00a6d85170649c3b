/-
  KernelPrep.Proofs.Token.Making — new tokens, and detached tokens strung to runs.

  A new token is first of all a detached token without links, in a slot of its own.
  Appending links it behind the file, which is a splice like any other; chaining sets the
  links of tokens that had none.

  Main statements:
    * `TokenList.append_threaded`  — the file grows by one token;
    * `TokenList.alloc_threaded`, `TokenList.alloc_loose` — a new detached token;
    * `TokenList.chain_ok`         — tokens without links become one run;
    * `TokenList.addRun_ok`        — a run of new tokens with given texts;
    * `TokenList.discard_ok`, `TokenList.get?_deleteAll` — destroying tokens.
-/
import KernelPrep.Proofs.Token.Splicing
import KernelPrep.Token.Run

namespace KernelPrep.TokenList

variable {list list' : TokenList} {file : List TokenId}

/-! ## §1. New tokens -/

/-- A new detached token does not touch the file. -/
theorem alloc_threaded (h : list.Threaded file) {token : Token} (htoken : token.linked = false) :
    (list.alloc token).Threaded file := by
  -- the new slot is none of the file's
  have hget : ∀ x ∈ file, (list.alloc token).get? x = list.get? x := by
    intro x hx
    rw [get?_alloc, if_neg]
    rintro rfl
    obtain ⟨token', htoken', -⟩ := h.get?_of_mem hx
    rw [get?_nextId] at htoken'
    simp at htoken'
  refine h.congr ?_ ?_ rfl rfl rfl
  · intro x hx
    rw [prev?_eq, prev?_eq, next?_eq, next?_eq, hget x hx]
    exact ⟨rfl, rfl⟩
  · intro x
    unfold isLinked
    rw [get?_alloc]
    by_cases hx : x = list.nextId
    · rw [if_pos hx, hx, get?_nextId]
      simp [htoken]
    · rw [if_neg hx]

/-- A new detached token without links is a run of its own. -/
theorem alloc_loose (h : list.Loose) {token : Token} (hnext : token.next? = none)
    (hprev : token.prev? = none) : (list.alloc token).Loose := by
  -- What is detached afterwards is the new token, which links to nothing, or was detached.
  have hcases : ∀ x, (list.alloc token).IsDetached x →
      x = list.nextId ∧ (list.alloc token).next? x = none ∧ (list.alloc token).prev? x = none
      ∨ x ≠ list.nextId ∧ list.IsDetached x ∧ (list.alloc token).next? x = list.next? x
        ∧ (list.alloc token).prev? x = list.prev? x := by
    rintro x ⟨token', htoken', hlinked⟩
    rw [get?_alloc] at htoken'
    by_cases hx : x = list.nextId
    · refine Or.inl ⟨hx, ?_, ?_⟩
      · rw [next?_eq, get?_alloc, if_pos hx]
        exact hnext
      · rw [prev?_eq, get?_alloc, if_pos hx]
        exact hprev
    · rw [if_neg hx] at htoken'
      refine Or.inr ⟨hx, ⟨token', htoken', hlinked⟩, ?_, ?_⟩
      · rw [next?_eq, next?_eq, get?_alloc, if_neg hx]
      · rw [prev?_eq, prev?_eq, get?_alloc, if_neg hx]
  -- No earlier token links to the new handle.
  have hfresh : ∀ a, list.IsDetached a →
      ¬ (list.next? a = some list.nextId ∨ list.prev? a = some list.nextId) := by
    intro a ha hlink
    exact Nat.lt_irrefl _ (h.given a list.nextId ha hlink)
  obtain ⟨rank, hrank⟩ := h.noRing
  refine ⟨?_, ⟨rank, ?_⟩, ?_⟩
  · intro a b ha hb
    rcases hcases a ha with ⟨rfl, hna, -⟩ | ⟨hane, ha', hna, -⟩
    · rcases hcases b hb with ⟨rfl, -, hpb⟩ | ⟨-, hb', -, hpb⟩
      · rw [hna, hpb]
      · rw [hna, hpb]
        simp only [reduceCtorEq, false_iff]
        exact fun hlink => hfresh b hb' (Or.inr hlink)
    · rcases hcases b hb with ⟨rfl, -, hpb⟩ | ⟨-, hb', -, hpb⟩
      · rw [hna, hpb]
        simp only [reduceCtorEq, iff_false]
        exact fun hlink => hfresh a ha' (Or.inl hlink)
      · rw [hna, hpb]
        exact h.mirror a b ha' hb'
  · intro a b ha hb hlink
    rcases hcases a ha with ⟨rfl, hna, -⟩ | ⟨-, ha', hna, -⟩
    · rw [hna] at hlink
      simp at hlink
    · rw [hna] at hlink
      rcases hcases b hb with ⟨rfl, -, -⟩ | ⟨-, hb', -, -⟩
      · exact absurd (Or.inl hlink) (hfresh a ha')
      · exact hrank a b ha' hb' hlink
  · intro a b ha hlink
    rw [size_alloc]
    rcases hcases a ha with ⟨rfl, hna, hpa⟩ | ⟨-, ha', hna, hpa⟩
    · rw [hna, hpa] at hlink
      simp at hlink
    · rw [hna, hpa] at hlink
      exact Nat.lt_succ_of_lt (h.given a b ha' hlink)

/-- The token that `append` makes, before it is linked. -/
def unlinkedToken (list : TokenList) (kind : TokenKind) (span : Span) (line : Nat) : Token :=
  { kind, line, text := Text.slice list.source span.start span.stop, span? := some span }

/-- Appending is making a detached token and splicing it in behind the file. -/
theorem append_spliced (h : list.Threaded file) (hloose : list.Loose) (kind : TokenKind)
    (span : Span) (line : Nat) :
    Spliced (list.alloc (list.unlinkedToken kind span line)) (list.append kind span line).2
      file [] [list.nextId] [] := by
  set made := list.alloc (list.unlinkedToken kind span line) with hmade
  have hthread : made.Threaded (file ++ [] ++ []) := by
    rw [List.append_nil, List.append_nil]
    exact alloc_threaded h rfl
  have hget : made.get? list.nextId = some (list.unlinkedToken kind span line) := by
    rw [hmade, get?_alloc, if_pos rfl]
  -- the new token is not the one that it is appended to
  have htail : ¬ list.tail? = some list.nextId := by
    intro he
    rw [h.tail] at he
    obtain ⟨token, htoken, -⟩ := h.get?_of_mem (List.mem_of_getLast? he)
    rw [get?_nextId] at htoken
    simp at htoken
  have hrun : made.Strung none [list.nextId] none := by
    refine ⟨?_, ?_, trivial⟩
    · rw [prev?_eq, hget]
      rfl
    · rw [next?_eq, hget]
      rfl
  -- appending is a splice at the end of the file
  refine hthread.spliced (alloc_loose hloose rfl rfl) ?_ (List.nodup_singleton _) hrun
    ?_ ?_ ?_ ?_ ?_
  · intro x hx
    obtain rfl := List.mem_singleton.mp hx
    exact ⟨_, hget, rfl⟩
  · intro x
    show ((list.alloc _).link list.tail? (some list.nextId)).get? x = _
    rw [get?_link, get?_alloc, hmade, get?_alloc, h.tail]
    by_cases hx : x = list.nextId
    · subst hx
      rw [h.tail] at htail
      simp [relink, respliced, unlinkedToken, htail]
    · have hne : ¬ list.nextId = x := fun he => hx he.symm
      rw [if_neg hx, if_neg hx]
      cases list.get? x <;> simp [relink, respliced, hx, hne]
  · show ((list.alloc _).link list.tail? (some list.nextId)).head? = _
    rw [head?_link, h.tail]
    show (if file.getLast? = none then _ else list.head?) = _
    rw [h.head]
    cases file <;> simp
  · simp [append]
  · show list.length + 1 + 0 = list.length + 1
    omega
  · show ((list.alloc _).link list.tail? (some list.nextId)).slots.size = _
    rw [size_link, hmade, size_alloc, size_alloc]

/-- The file grows by the token appended. -/
theorem append_threaded (h : list.Threaded file) (hloose : list.Loose) (kind : TokenKind)
    (span : Span) (line : Nat) :
    (list.append kind span line).2.Threaded (file ++ [list.nextId]) := by
  have hnow := (append_spliced h hloose kind span line).now
  rwa [List.append_nil] at hnow

/-! ## §2. Chains -/

/-- What was accepted waits to be linked. -/
theorem checkDetached_ok {ids : List TokenId} {u : Unit} (h : list.checkDetached ids = .ok u) :
    ∀ x ∈ ids, list.IsDetached x := by
  induction ids with
  | nil => simp
  | cons id rest ih =>
    rw [checkDetached] at h
    cases hget : list.get? id with
    | none => simp [hget] at h
    | some token =>
      simp only [hget] at h
      split at h
      · simp at h
      · rename_i hlinked
        intro x hx
        rcases List.mem_cons.mp hx with rfl | hx
        · exact ⟨token, hget, by simpa using hlinked⟩
        · exact ih h x hx

/-- What waits to be linked is accepted. -/
theorem checkDetached_of_isDetached {ids : List TokenId} (h : ∀ x ∈ ids, list.IsDetached x) :
    list.checkDetached ids = .ok () := by
  induction ids with
  | nil => rfl
  | cons id rest ih =>
    obtain ⟨token, hget, hlinked⟩ := h id List.mem_cons_self
    rw [checkDetached]
    simp only [hget, hlinked, Bool.false_eq_true, if_false]
    exact ih fun x hx => h x (List.mem_cons_of_mem _ hx)

/-- Chaining changes no other token. -/
theorem get?_chainFrom_of_notMem {ids : List TokenId} {before? : Option TokenId} {x : TokenId}
    (hx : x ∉ ids) : (list.chainFrom before? ids).get? x = list.get? x := by
  induction ids generalizing list before? with
  | nil => rfl
  | cons id rest ih =>
    rw [chainFrom, ih (fun he => hx (List.mem_cons_of_mem _ he)), get?_modify, if_neg]
    rintro rfl
    exact hx List.mem_cons_self

/-- Chaining changes nothing about a token but its links. -/
theorem get?_chainFrom_map {α : Type} (f : Token → α)
    (hf : ∀ token prev? next?, f { token with prev?, next? } = f token)
    (ids : List TokenId) (before? : Option TokenId) (x : TokenId) :
    ((list.chainFrom before? ids).get? x).map f = (list.get? x).map f := by
  induction ids generalizing list before? with
  | nil => rfl
  | cons id rest ih =>
    rw [chainFrom, ih, get?_modify]
    split
    · cases list.get? x with
      | none => rfl
      | some token => exact congrArg some (hf token _ _)
    · rfl

/-- Chaining changes nothing that a token shows. -/
theorem face?_chainFrom (ids : List TokenId) (before? : Option TokenId) (x : TokenId) :
    (list.chainFrom before? ids).face? x = list.face? x :=
  get?_chainFrom_map _ (fun _ _ _ => rfl) ids before? x

/-- Chaining links nothing into the file. -/
theorem isLinked_chainFrom (ids : List TokenId) (before? : Option TokenId) (x : TokenId) :
    (list.chainFrom before? ids).isLinked x = list.isLinked x :=
  congrArg (Option.getD · false) (get?_chainFrom_map _ (fun _ _ _ => rfl) ids before? x)

/-- A token waits if it is there and not linked. -/
theorem isDetached_iff {x : TokenId} :
    list.IsDetached x ↔ (list.get? x).map (·.linked) = some false := by
  unfold IsDetached
  rw [Option.map_eq_some_iff]

/-- What is chained still waits, and nothing else does. -/
theorem isDetached_chainFrom {ids : List TokenId} {before? : Option TokenId} {x : TokenId} :
    (list.chainFrom before? ids).IsDetached x ↔ list.IsDetached x := by
  rw [isDetached_iff, isDetached_iff,
    get?_chainFrom_map (·.linked) (fun _ _ _ => rfl) ids before? x]

/-- Chaining leaves the ends and the sizes of the list as they were. -/
theorem chainFrom_frame (ids : List TokenId) (before? : Option TokenId) :
    (list.chainFrom before? ids).head? = list.head?
      ∧ (list.chainFrom before? ids).tail? = list.tail?
      ∧ (list.chainFrom before? ids).length = list.length
      ∧ (list.chainFrom before? ids).slots.size = list.slots.size := by
  induction ids generalizing list before? with
  | nil => exact ⟨rfl, rfl, rfl, rfl⟩
  | cons id rest ih =>
    rw [chainFrom]
    obtain ⟨hh, ht, hl, hs⟩ := @ih (list.modify id fun token =>
      { token with prev? := before?, next? := rest.head? }) (some id)
    exact ⟨hh, ht, hl, by rw [hs, size_modify]⟩

/-- Tokens that exist, each listed once, are strung after chaining. -/
theorem strung_chainFrom {ids : List TokenId} {before? : Option TokenId} (hnodup : ids.Nodup)
    (hlive : ∀ x ∈ ids, ∃ token, list.get? x = some token) :
    (list.chainFrom before? ids).Strung before? ids none := by
  induction ids generalizing list before? with
  | nil => trivial
  | cons id rest ih =>
    obtain ⟨hnot, hnodup'⟩ := List.nodup_cons.mp hnodup
    obtain ⟨token, hget⟩ := hlive id List.mem_cons_self
    rw [chainFrom]
    set next := list.modify id fun token => { token with prev? := before?, next? := rest.head? }
      with hnextDef
    -- later writes go to other tokens, so this one keeps its links
    have hnext : (next.chainFrom (some id) rest).get? id
        = some { token with prev? := before?, next? := rest.head? } := by
      rw [get?_chainFrom_of_notMem hnot, hnextDef, get?_modify, if_pos rfl, hget]
      rfl
    refine ⟨?_, ?_, ih hnodup' ?_⟩
    · rw [prev?_eq, hnext]
      rfl
    · rw [next?_eq, hnext, Option.or_none]
      rfl
    · intro x hx
      obtain ⟨token', hget'⟩ := hlive x (List.mem_cons_of_mem _ hx)
      refine ⟨token', ?_⟩
      rw [hnextDef, get?_modify, if_neg, hget']
      rintro rfl
      exact hnot hx

/-- Tokens without links take no part in the links of detached tokens. -/
theorem Loose.notMem_of_next? (h : list.Loose) {ids : List TokenId}
    (hfree : ∀ x ∈ ids, list.next? x = none ∧ list.prev? x = none) {a b : TokenId}
    (ha : list.IsDetached a) (hb : list.IsDetached b) (hlink : list.next? a = some b) :
    a ∉ ids ∧ b ∉ ids := by
  have hback := (h.mirror a b ha hb).mp hlink
  refine ⟨fun hin => ?_, fun hin => ?_⟩
  · rw [(hfree a hin).1] at hlink
    simp at hlink
  · rw [(hfree b hin).2] at hback
    simp at hback

/-- Stringing tokens that had no links leaves the other runs alone. -/
theorem chainFrom_loose (h : list.Loose) {ids : List TokenId} (hnodup : ids.Nodup)
    (hdet : ∀ x ∈ ids, list.IsDetached x)
    (hfree : ∀ x ∈ ids, list.next? x = none ∧ list.prev? x = none) :
    (list.chainFrom none ids).Loose := by
  have hlive : ∀ x ∈ ids, ∃ token, list.get? x = some token := by
    intro x hx
    obtain ⟨token, htoken, -⟩ := hdet x hx
    exact ⟨token, htoken⟩
  have hstrung : (list.chainFrom none ids).Strung none ids none := strung_chainFrom hnodup hlive
  have hother : ∀ x, x ∉ ids → (list.chainFrom none ids).next? x = list.next? x
      ∧ (list.chainFrom none ids).prev? x = list.prev? x := by
    intro x hx
    rw [next?_eq, next?_eq, prev?_eq, prev?_eq, get?_chainFrom_of_notMem hx]
    exact ⟨rfl, rfl⟩
  obtain ⟨rank, hrank⟩ := h.noRing
  constructor
  case mirror =>
    intro a b ha hb
    rw [isDetached_chainFrom] at ha hb
    by_cases hia : a ∈ ids
    · by_cases hib : b ∈ ids
      · exact hstrung.mirror hia hib
      · constructor
        · exact fun hlink => absurd (hstrung.next?_mem hia hlink) hib
        · intro hlink
          rw [(hother b hib).2] at hlink
          exact absurd hia (h.notMem_of_next? hfree ha hb ((h.mirror a b ha hb).mpr hlink)).1
    · by_cases hib : b ∈ ids
      · constructor
        · intro hlink
          rw [(hother a hia).1] at hlink
          exact absurd hib (h.notMem_of_next? hfree ha hb hlink).2
        · exact fun hlink => absurd (hstrung.prev?_mem hib hlink) hia
      · rw [(hother a hia).1, (hother b hib).2]
        exact h.mirror a b ha hb
  case noRing =>
    -- tokens of the run rank by their place in it, all others as before
    refine ⟨fun x => if x ∈ ids then ids.idxOf x else rank x, fun a b ha hb hlink => ?_⟩
    rw [isDetached_chainFrom] at ha hb
    by_cases hia : a ∈ ids
    · simp only [if_pos hia, if_pos (hstrung.next?_mem hia hlink)]
      exact hstrung.idxOf_lt hnodup hia hlink
    · rw [(hother a hia).1] at hlink
      simp only [if_neg hia, if_neg (h.notMem_of_next? hfree ha hb hlink).2]
      exact hrank a b ha hb hlink
  case given =>
    intro a b ha hlink
    rw [isDetached_chainFrom] at ha
    rw [(chainFrom_frame ids none).2.2.2]
    by_cases hia : a ∈ ids
    · obtain ⟨token, htoken⟩ := hlive b (hlink.elim (hstrung.next?_mem hia)
        (hstrung.prev?_mem hia))
      exact index_lt_of_get? htoken
    · rw [(hother a hia).1, (hother a hia).2] at hlink
      exact h.given a b ha hlink

/-- Setting links of detached tokens does not touch the file. -/
theorem chainFrom_threaded (h : list.Threaded file) {ids : List TokenId}
    (hdet : ∀ x ∈ ids, list.IsDetached x) (before? : Option TokenId) :
    (list.chainFrom before? ids).Threaded file := by
  obtain ⟨hhead, htail, hlength, -⟩ := @chainFrom_frame list ids before?
  refine h.congr ?_ (isLinked_chainFrom ids before?) hhead htail hlength
  intro x hx
  have hx' : x ∉ ids := fun hin => h.notMem_of_isDetached (hdet x hin) hx
  rw [next?_eq, next?_eq, prev?_eq, prev?_eq, get?_chainFrom_of_notMem hx']
  exact ⟨rfl, rfl⟩

/-- A chain that goes through was given detached tokens and sets their links. -/
theorem chain_eq_ok {ids : List TokenId} {run? : Option TokenRange}
    (heq : list.chain ids = .ok (run?, list')) :
    (∀ x ∈ ids, list.IsDetached x) ∧ list' = list.chainFrom none ids := by
  obtain ⟨u, hcheck, heq⟩ := Step.except_bind_ok.mp heq
  exact ⟨checkDetached_ok hcheck, (Prod.mk.inj (Except.ok.inj heq)).2.symm⟩

/-- **Chaining makes one run** of tokens that had no links, and touches nothing else. -/
theorem chain_ok {ids : List TokenId} {run? : Option TokenRange} (h : list.Threaded file)
    (hloose : list.Loose) (hnodup : ids.Nodup)
    (hfree : ∀ x ∈ ids, list.next? x = none ∧ list.prev? x = none)
    (heq : list.chain ids = .ok (run?, list')) :
    list' = list.chainFrom none ids ∧ list'.Threaded file ∧ list'.Loose
      ∧ (∀ x ∈ ids, list'.IsDetached x) ∧ list'.Strung none ids none := by
  obtain ⟨hdet, rfl⟩ := chain_eq_ok heq
  refine ⟨rfl, chainFrom_threaded h hdet none, chainFrom_loose hloose hnodup hdet hfree,
    fun x hx => isDetached_chainFrom.mpr (hdet x hx), strung_chainFrom hnodup fun x hx => ?_⟩
  obtain ⟨token, htoken, -⟩ := hdet x hx
  exact ⟨token, htoken⟩

/-- A chain of at least one token is the run from its first through its last. -/
theorem chain_run {ids : List TokenId} {run? : Option TokenRange}
    (heq : list.chain ids = .ok (run?, list')) (hne : ids ≠ []) :
    ∃ run, run? = some run ∧ run.Ends ids := by
  unfold chain at heq
  cases hcheck : list.checkDetached ids with
  | error e => simp [hcheck, bind, Except.bind] at heq
  | ok u =>
    simp only [hcheck, bind, Except.bind, pure, Except.pure, Except.ok.injEq,
      Prod.mk.injEq] at heq
    rw [List.head?_eq_some_head hne, List.getLast?_eq_some_getLast hne] at heq
    exact ⟨_, heq.1.symm, List.head?_eq_some_head hne, List.getLast?_eq_some_getLast hne⟩

/-! ## §3. Runs of new tokens -/

/-- A new detached run: what it shows, and what it leaves as it was. -/
structure NewRun (list list' : TokenList) (file : List TokenId) (run : TokenRange)
    (ids : List TokenId) (faces : List (TokenKind × String × Nat)) : Prop where
  threaded : list'.Threaded file
  loose : list'.Loose
  size : list.slots.size ≤ list'.slots.size
  face : ∀ x : TokenId, x.index < list.slots.size → list'.face? x = list.face? x
  detached : ∀ x, list'.IsDetached x → list.IsDetached x ∨ list.slots.size ≤ x.index
  walk : list'.walk run false = .ok ids
  fresh : ∀ x ∈ ids, list.slots.size ≤ x.index
  faces : ids.map list'.face? = faces.map some

/-- Making detached tokens without links, one after the other. -/
theorem synthesizeAll_ok (line : Nat) (spelling : List (TokenKind × String))
    (h : list.Threaded file) (hloose : list.Loose) :
    (list.synthesizeAll line spelling).2.Threaded file
      ∧ (list.synthesizeAll line spelling).2.Loose
      ∧ (list.synthesizeAll line spelling).2.slots.size = list.slots.size + spelling.length
      ∧ (list.synthesizeAll line spelling).1
        = (List.range' list.slots.size spelling.length).map TokenId.mk
      ∧ (∀ x : TokenId, x.index < list.slots.size →
          (list.synthesizeAll line spelling).2.get? x = list.get? x)
      ∧ (list.synthesizeAll line spelling).1.map (list.synthesizeAll line spelling).2.get?
        = spelling.map fun entry => some { kind := entry.1, text := entry.2, line } := by
  induction spelling generalizing list with
  | nil => exact ⟨h, hloose, rfl, rfl, fun _ _ => rfl, rfl⟩
  | cons entry rest ih =>
    obtain ⟨kind, text⟩ := entry
    set token : Token := { kind, text, line } with htoken
    have hsize := size_alloc list token
    have hthread : (list.alloc token).Threaded file := alloc_threaded h rfl
    have hloose₁ : (list.alloc token).Loose := alloc_loose hloose rfl rfl
    obtain ⟨hthread, hloose', hsize', hids, hget, hfaces⟩ := ih hthread hloose₁
    -- the first token is older than the later ones, which leave it as it is
    have hfirst : ((list.alloc token).synthesizeAll line rest).2.get? list.nextId
        = some token := by
      rw [hget list.nextId (by rw [hsize]; exact Nat.lt_succ_self _), get?_alloc, if_pos rfl]
    refine ⟨hthread, hloose', ?_, ?_, ?_, ?_⟩
    · show ((list.alloc token).synthesizeAll line rest).2.slots.size = _
      rw [hsize', hsize, List.length_cons]
      omega
    · show list.nextId :: ((list.alloc token).synthesizeAll line rest).1 = _
      rw [hids, hsize, List.length_cons, List.range'_succ, List.map_cons]
      rfl
    · intro x hx
      show ((list.alloc token).synthesizeAll line rest).2.get? x = _
      rw [hget x (by rw [hsize]; omega), get?_alloc, if_neg]
      rintro rfl
      exact Nat.lt_irrefl _ hx
    · show (list.nextId :: ((list.alloc token).synthesizeAll line rest).1).map
        ((list.alloc token).synthesizeAll line rest).2.get? = _
      rw [List.map_cons, hfirst, hfaces, List.map_cons]

/-- The tokens made are new, and each has its entry. -/
theorem synthesizeAll_made (line : Nat) (spelling : List (TokenKind × String))
    (h : list.Threaded file) (hloose : list.Loose) :
    (list.synthesizeAll line spelling).1.Nodup
      ∧ ∀ x ∈ (list.synthesizeAll line spelling).1, list.slots.size ≤ x.index
        ∧ ∃ kind text, (list.synthesizeAll line spelling).2.get? x
          = some { kind, text, line } := by
  obtain ⟨-, -, -, hids, -, hfaces⟩ := synthesizeAll_ok line spelling h hloose
  refine ⟨?_, fun x hx => ⟨?_, ?_⟩⟩
  · rw [hids]
    exact (List.nodup_range' ..).map fun _ _ he => congrArg TokenId.index he
  · rw [hids] at hx
    obtain ⟨i, hi, rfl⟩ := List.mem_map.mp hx
    exact (List.mem_range'_1.mp hi).1
  · have hmem := List.mem_map_of_mem (f := (list.synthesizeAll line spelling).2.get?) hx
    rw [hfaces] at hmem
    obtain ⟨entry, -, hentry⟩ := List.mem_map.mp hmem
    exact ⟨entry.1, entry.2, hentry.symm⟩

/-- **A new run** of tokens that spell the given pieces. -/
theorem addRun_ok {line : Nat} {eol : String} {pieces : List Piece} {run? : Option TokenRange}
    (h : list.Threaded file) (hloose : list.Loose)
    (heq : list.addRun line eol pieces = .ok (run?, list'))
    (hne : pieces.flatMap (·.spell eol) ≠ []) :
    ∃ run ids, run? = some run ∧ NewRun list list' file run ids
      ((pieces.flatMap (·.spell eol)).map fun entry => (entry.1, entry.2, line)) := by
  unfold addRun at heq
  generalize pieces.flatMap (·.spell eol) = spelling at heq hne ⊢
  obtain ⟨hthread, hloose', hsize, hids, hget, hfaces⟩ :=
    synthesizeAll_ok line spelling h hloose
  obtain ⟨hnodup, hmade⟩ := synthesizeAll_made line spelling h hloose
  set made := (list.synthesizeAll line spelling).2
  set ids := (list.synthesizeAll line spelling).1
  have hfree : ∀ x ∈ ids, made.next? x = none ∧ made.prev? x = none := by
    intro x hx
    obtain ⟨-, kind, text, hx⟩ := hmade x hx
    rw [next?_eq, prev?_eq, hx]
    exact ⟨rfl, rfl⟩
  have hidsne : ids ≠ [] := by
    intro he
    have hlen := congrArg List.length hids
    rw [he, List.length_map, List.length_range'] at hlen
    exact hne (List.length_eq_zero_iff.mp hlen.symm)
  -- the tokens are made in new slots first and linked in a row afterwards
  obtain ⟨hlist', hthread', hloose'', hdet, hstrung⟩ :=
    chain_ok hthread hloose' hnodup hfree heq
  obtain ⟨run, hrun, hends⟩ := chain_run heq hidsne
  have hface : ∀ x, list'.face? x = made.face? x := by
    intro x
    rw [hlist']
    exact face?_chainFrom ids none x
  refine ⟨run, ids, hrun, ?_⟩
  constructor
  case threaded => exact hthread'
  case loose => exact hloose''
  case size =>
    rw [hlist', (chainFrom_frame ids none).2.2.2, hsize]
    omega
  case face =>
    intro x hx
    rw [hface]
    unfold face?
    rw [hget x hx]
  case detached =>
    intro x hx
    rcases Nat.lt_or_ge x.index list.slots.size with hlt | hge
    · rw [hlist', isDetached_chainFrom] at hx
      obtain ⟨token, htoken, hlinked⟩ := hx
      rw [hget x hlt] at htoken
      exact Or.inl ⟨token, htoken, hlinked⟩
    · exact Or.inr hge
  case walk =>
    unfold walk
    rw [← hends.1]
    refine walkFrom_isChain hstrung.isChain hnodup hidsne hends.2 hdet ?_
    have hle := length_le_size hnodup fun x hx => by
      obtain ⟨token, htoken, -⟩ := hdet x hx
      exact ⟨token, htoken⟩
    unfold walkBound
    omega
  case fresh => exact fun x hx => (hmade x hx).1
  case faces =>
    have hmap : ids.map list'.face? = (ids.map made.get?).map
        (·.map fun token => (token.kind, token.text, token.line)) := by
      rw [List.map_map]
      exact List.map_congr_left fun x _ => hface x
    rw [hmap, hfaces, List.map_map, List.map_map]
    rfl

/-- A run can be made of any pieces. -/
theorem addRun_exists (line : Nat) (eol : String) (pieces : List Piece) (h : list.Threaded file)
    (hloose : list.Loose) : ∃ run? list', list.addRun line eol pieces = .ok (run?, list') := by
  unfold addRun
  generalize pieces.flatMap (·.spell eol) = spelling
  obtain ⟨-, hmade⟩ := synthesizeAll_made line spelling h hloose
  have hcheck : (list.synthesizeAll line spelling).2.checkDetached
      (list.synthesizeAll line spelling).1 = .ok () := by
    refine checkDetached_of_isDetached fun x hx => ?_
    obtain ⟨-, kind, text, hget⟩ := hmade x hx
    exact ⟨_, hget, rfl⟩
  show ∃ run? list', (list.synthesizeAll line spelling).2.chain
    (list.synthesizeAll line spelling).1 = .ok (run?, list')
  unfold chain
  rw [hcheck]
  exact ⟨_, _, rfl⟩

/-! ## §4. Destroying -/

/-- Destroying detached tokens does not touch the file. -/
theorem discard_ok {run : TokenRange} (h : list.Threaded file) (hloose : list.Loose)
    (heq : list.discard run = .ok list') :
    list'.Threaded file ∧ list'.Loose ∧ list.KeepsRuns list' := by
  unfold discard at heq
  cases hwalk : list.walk run false with
  | error e => simp [hwalk, bind, Except.bind] at heq
  | ok ids =>
    simp only [hwalk, bind, Except.bind, pure, Except.pure, Except.ok.injEq] at heq
    subst heq
    obtain ⟨-, -, hdet, -, -⟩ := walk_detached hloose hwalk
    -- only detached tokens are discarded, and those are not in the file
    have hkeep : ∀ x ∈ file, x ∉ ids := fun x hx hin =>
      h.notMem_of_isDetached (hdet x hin) hx
    have hruns : list.KeepsRuns (list.destroy ids) := by
      rintro x ⟨token, htoken, hfalse⟩
      rw [get?_destroy] at htoken
      split at htoken
      · simp at htoken
      · rename_i hnot
        refine ⟨⟨token, htoken, hfalse⟩, ?_, ?_⟩
        · rw [next?_eq, next?_eq, get?_destroy, if_neg hnot]
        · rw [prev?_eq, prev?_eq, get?_destroy, if_neg hnot]
    refine ⟨h.congr ?_ ?_ (head?_destroy _ _) (tail?_destroy _ _) (length_destroy _ _),
      hloose.mono (Nat.le_of_eq (size_destroy _ _).symm) hruns, hruns⟩
    · intro x hx
      rw [next?_eq, next?_eq, prev?_eq, prev?_eq, get?_destroy, if_neg (hkeep x hx)]
      exact ⟨rfl, rfl⟩
    · intro x
      unfold isLinked
      rw [get?_destroy]
      split
      · rename_i hin
        obtain ⟨token, htoken, hfalse⟩ := hdet x hin
        rw [htoken]
        simp [hfalse]
      · rfl

/-- Afterwards no handle names a token. -/
theorem get?_deleteAll (x : TokenId) : list.deleteAll.get? x = none := by
  unfold get? deleteAll
  rw [Array.getElem?_map]
  cases list.slots[x.index]? <;> rfl

/-- A list without any token is threaded by no token. -/
theorem threaded_nil (hget : ∀ x, list.get? x = none) (hhead : list.head? = none)
    (htail : list.tail? = none) (hlength : list.length = 0) : list.Threaded [] where
  nodup := List.nodup_nil
  linked_iff := fun id => by
    unfold isLinked
    rw [hget id]
    simp
  strung := trivial
  head := hhead
  tail := htail
  length := hlength

/-- Without tokens there are no runs. -/
theorem loose_of_get?_none (hget : ∀ x, list.get? x = none) : list.Loose := by
  have hnone : ∀ x, ¬ list.IsDetached x := by
    rintro x ⟨token, htoken, -⟩
    rw [hget x] at htoken
    simp at htoken
  exact ⟨fun a _ ha => absurd ha (hnone a), ⟨fun _ => 0, fun a _ ha => absurd ha (hnone a)⟩,
    fun a _ ha => absurd ha (hnone a)⟩

/-- An empty list has no tokens. -/
theorem get?_empty (source : String) (x : TokenId) : (TokenList.empty source).get? x = none :=
  get?_eq_none_of_le (Nat.zero_le _)

end KernelPrep.TokenList
