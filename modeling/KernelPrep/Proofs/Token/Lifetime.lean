/-
  KernelPrep.Proofs.Token.Lifetime — the life of a token, from its making to its end.

  Nodes, occurrences and tables keep bare handles.  That is sound because no call, with
  whatever arguments, gives a handle to a second token or changes what a token shows: a
  token is made once, is linked in at most once, and once destroyed is gone for good.
  Nothing here asks that the links are in order.

  Tokens strung twice can close to a ring, round which a checking walk would never end.
  Such a walk counts as refused, so what holds along every history holds along those whose
  calls all return.

  Main definitions:
    * `Token.Persists`                    — a token at two moments of its life;
    * `TokenList.givenBy`, `TokenList.givenByAll` — the handles that calls give out;
    * `TokenList.Destroys`, `TokenList.DestroysAlong` — the tokens that calls destroy.

  Main statements:
    * `TokenList.perform_evolves`    — what one call does to the tokens there are;
    * `TokenList.performAll_evolves` — what a history does to them;
    * `TokenList.lifetime_performAll` — a handle is given out once, and names one and the
      same token until that token is destroyed, and nothing ever after.
-/
import KernelPrep.Proofs.Token.History
import KernelPrep.Proofs.Step

namespace KernelPrep

/-- `token'` is `token` at a later moment: its links may differ, and it may have been linked
    in meanwhile. -/
structure Token.Persists (token token' : Token) : Prop where
  kind : token'.kind = token.kind
  text : token'.text = token.text
  line : token'.line = token.line
  span : token'.span? = token.span?
  content : token'.content? = token.content?
  linked : token.linked = true → token'.linked = true

namespace Token.Persists

/-- A token is itself. -/
theorem refl (token : Token) : token.Persists token := ⟨rfl, rfl, rfl, rfl, rfl, id⟩

/-- From moment to moment to moment. -/
theorem trans {a b c : Token} (hab : a.Persists b) (hbc : b.Persists c) : a.Persists c :=
  ⟨hbc.kind.trans hab.kind, hbc.text.trans hab.text, hbc.line.trans hab.line,
    hbc.span.trans hab.span, hbc.content.trans hab.content, fun h => hbc.linked (hab.linked h)⟩

/-- Links are all that a token loses when it is stripped of them. -/
theorem of_stripped {a b : Token}
    (h : { b with prev? := none, next? := none } = { a with prev? := none, next? := none }) :
    a.Persists b := by
  obtain ⟨kind, text, line, span, prev?, next?, linked⟩ := a
  obtain ⟨kind', text', line', span', prev?', next?', linked'⟩ := b
  simp only [Token.mk.injEq, true_and] at h
  obtain ⟨rfl, rfl, rfl, rfl, rfl⟩ := h
  exact ⟨rfl, rfl, rfl, rfl, rfl, id⟩

end Token.Persists

namespace TokenList

/-! ## §1. Handles given out, tokens destroyed -/

/-- The handles that a call gives out. -/
def givenBy (list : TokenList) : Call → List TokenId
  | .append kind span line => [(list.append kind span line).1]
  | .synthesize kind text line => [(list.synthesize kind text line).1]
  | _ => []

/-- The handles that a history gives out, in order. -/
def givenByAll : TokenList → List Call → List TokenId
  | _, [] => []
  | list, call :: calls => list.givenBy call ++ givenByAll (list.perform call) calls

/-- The token of `id` exists, and the call destroys it: it is cut out, discarded as part of a
    run, or goes with all others. -/
def Destroys (list : TokenList) (call : Call) (id : TokenId) : Prop :=
  (list.get? id).isSome = true ∧ match call with
    | .replace old new? =>
      ∃ splice list', list.replace old new? = .ok (splice, list') ∧ id ∈ splice.removed
    | .discard run => ∃ ids, list.walk run false = .ok ids ∧ id ∈ ids
    | .deleteAll => True
    | _ => False

/-- Some call of the history destroys the token of `id`. -/
def DestroysAlong : TokenList → List Call → TokenId → Prop
  | _, [], _ => False
  | list, call :: calls, id => list.Destroys call id ∨ DestroysAlong (list.perform call) calls id

/-- One history after another. -/
theorem performAll_append (list : TokenList) (earlier later : List Call) :
    list.performAll (earlier ++ later) = (list.performAll earlier).performAll later := by
  induction earlier generalizing list with
  | nil => rfl
  | cons call calls ih => exact ih (list.perform call)

/-! ## §2. What becomes of the tokens there are -/

/-- What lies between two moments: the handles `given` were given out, next in order; the tokens
    that `dies` are gone; all others, old and new, are there and persist. -/
structure Evolves (list list' : TokenList) (given : List TokenId) (dies : TokenId → Prop) :
    Prop where
  size : list'.slots.size = list.slots.size + given.length
  fresh : given = (List.range' list.slots.size given.length).map TokenId.mk
  born : ∀ id ∈ given, ¬ dies id → (list'.get? id).isSome = true
  gone : ∀ id, dies id → list'.get? id = none
  kept : ∀ id : TokenId, id.index < list.slots.size → ¬ dies id →
    Option.Rel Token.Persists (list.get? id) (list'.get? id)

/-- A slot that is left alone. -/
theorem rel_refl (token? : Option Token) : Option.Rel Token.Persists token? token? := by
  cases token? with
  | none => exact .none
  | some token => exact .some (.refl token)

/-- A slot whose token is changed. -/
theorem rel_map {token? : Option Token} {f : Token → Token}
    (h : ∀ token : Token, token.Persists (f token)) :
    Option.Rel Token.Persists token? (token?.map f) := by
  cases token? with
  | none => exact .none
  | some token => exact .some (h token)

/-- Setting links leaves a token the same. -/
theorem relink_persists (a? b? : Option TokenId) (id : TokenId) (token : Token) :
    token.Persists (relink a? b? id token) := ⟨rfl, rfl, rfl, rfl, rfl, fun h => h⟩

/-- Marking leaves a token the same. -/
theorem mark_persists (ids : List TokenId) (id : TokenId) (token : Token) :
    token.Persists (mark ids id token) :=
  ⟨rfl, rfl, rfl, rfl, rfl, fun h => by simp [mark, h]⟩

/-- A slot from moment to moment to moment. -/
theorem rel_trans {a? b? c? : Option Token} (hab : Option.Rel Token.Persists a? b?)
    (hbc : Option.Rel Token.Persists b? c?) : Option.Rel Token.Persists a? c? := by
  cases hab with
  | none =>
    cases hbc
    exact .none
  | some hab =>
    cases hbc with
    | some hbc => exact .some (hab.trans hbc)

/-- A token that persists is still there. -/
theorem rel_isSome {a? b? : Option Token} (h : Option.Rel Token.Persists a? b?) :
    a?.isSome = true ↔ b?.isSome = true := by
  cases h <;> simp

/-- A slot that is empty stays so. -/
theorem rel_none {b? : Option Token} (h : Option.Rel Token.Persists none b?) : b? = none := by
  cases h
  rfl

namespace Evolves

variable {list mid list' : TokenList} {given given' : List TokenId} {dies dies' : TokenId → Prop}

/-- Where nothing is done nothing becomes of the tokens. -/
theorem refl (list : TokenList) (h : ∀ id, ¬ dies id) : list.Evolves list [] dies where
  size := rfl
  fresh := rfl
  born := fun _ hid => absurd hid List.not_mem_nil
  gone := fun id hid => absurd hid (h id)
  kept := fun _ _ _ => rel_refl _

/-- A change that empties the slots of `ids` and rewrites only links and residency of the
    other tokens. -/
theorem of_get? (ids : List TokenId) (f : TokenId → Token → Token)
    (hsize : list'.slots.size = list.slots.size)
    (hdies : ∀ id, dies id ↔ (list.get? id).isSome = true ∧ id ∈ ids)
    (hf : ∀ id (token : Token), token.Persists (f id token))
    (hget : ∀ id, list'.get? id = if id ∈ ids then none else (list.get? id).map (f id)) :
    list.Evolves list' [] dies := by
  refine ⟨hsize, rfl, fun id hid => absurd hid List.not_mem_nil, fun id hid => ?_,
    fun id _ hid => ?_⟩
  · rw [hget, if_pos ((hdies id).mp hid).2]
  · rw [hget]
    split
    · rename_i hin
      cases htoken : list.get? id with
      | none => exact .none
      | some token => exact absurd ((hdies id).mpr ⟨by rw [htoken]; rfl, hin⟩) hid
    · exact rel_map (hf id)

/-- A handle that was given out stands in the array of slots. -/
theorem index_lt (h : list.Evolves list' given dies) {id : TokenId} (hid : id ∈ given) :
    list.slots.size ≤ id.index ∧ id.index < list'.slots.size := by
  rw [h.fresh] at hid
  obtain ⟨i, hi, rfl⟩ := List.mem_map.mp hid
  rw [h.size]
  exact List.mem_range'_1.mp hi

/-- One change after another: what dies in the second was there already. -/
theorem trans (h : list.Evolves mid given dies) (h' : mid.Evolves list' given' dies')
    (hlive : ∀ id, dies id → id.index < mid.slots.size) :
    list.Evolves list' (given ++ given') fun id => dies id ∨ dies' id := by
  refine ⟨?_, ?_, fun id hid hnot => ?_, fun id hid => ?_, fun id hid hnot => ?_⟩
  · rw [h'.size, h.size, List.length_append, Nat.add_assoc]
  · rw [List.length_append, ← List.range'_append_1, List.map_append, ← h.fresh, ← h.size,
      ← h'.fresh]
  · obtain ⟨hfirst, hsecond⟩ := not_or.mp hnot
    rcases List.mem_append.mp hid with hid | hid
    · have hrel := h'.kept id (h.index_lt hid).2 hsecond
      exact (rel_isSome hrel).mp (h.born id hid hfirst)
    · exact h'.born id hid hsecond
  · -- A slot that was emptied before is one the second part finds and leaves empty.
    by_cases hsecond : dies' id
    · exact h'.gone id hsecond
    · have hfirst := hid.resolve_right hsecond
      have hrel := h'.kept id (hlive id hfirst) hsecond
      rw [h.gone id hfirst] at hrel
      exact rel_none hrel
  · obtain ⟨hfirst, hsecond⟩ := not_or.mp hnot
    have hlt : id.index < mid.slots.size := by
      rw [h.size]
      exact Nat.lt_of_lt_of_le hid (Nat.le_add_right _ _)
    exact rel_trans (h.kept id hid hfirst) (h'.kept id hlt hsecond)

/-- A handle names a token afterwards if it did before or was given out since, and nothing
    destroyed that token. -/
theorem isSome_iff (h : list.Evolves list' given dies) (id : TokenId) :
    (list'.get? id).isSome = true
      ↔ ((list.get? id).isSome = true ∨ id ∈ given) ∧ ¬ dies id := by
  constructor
  · intro hsome
    have hnot : ¬ dies id := by
      intro hid
      rw [h.gone id hid] at hsome
      simp at hsome
    refine ⟨?_, hnot⟩
    -- The slots there were hold earlier tokens, the slots behind them those given out since.
    rcases Nat.lt_or_ge id.index list.slots.size with hlt | hge
    · exact Or.inl ((rel_isSome (h.kept id hlt hnot)).mpr hsome)
    · right
      obtain ⟨token, htoken⟩ := Option.isSome_iff_exists.mp hsome
      have hlt := index_lt_of_get? htoken
      rw [h.size] at hlt
      rw [h.fresh]
      exact List.mem_map.mpr ⟨id.index, List.mem_range'_1.mpr ⟨hge, hlt⟩, rfl⟩
  · rintro ⟨hsome | hid, hnot⟩
    · obtain ⟨token, htoken⟩ := Option.isSome_iff_exists.mp hsome
      exact (rel_isSome (h.kept id (index_lt_of_get? htoken) hnot)).mp hsome
    · exact h.born id hid hnot

end Evolves

/-! ## §3. One call -/

/-- The token of a new slot is there; the others are as they were, apart from links. -/
theorem Evolves.of_alloc {list list' : TokenList} {dies : TokenId → Prop} (token : Token)
    (f : TokenId → Token → Token) (h : ∀ id, ¬ dies id)
    (hsize : list'.slots.size = (list.alloc token).slots.size)
    (hf : ∀ id (token : Token), token.Persists (f id token))
    (hget : ∀ id, list'.get? id = ((list.alloc token).get? id).map (f id)) :
    list.Evolves list' [list.nextId] dies := by
  refine ⟨?_, rfl, fun id hid _ => ?_, fun id hid => absurd hid (h id), fun id hid _ => ?_⟩
  · rw [hsize, size_alloc]
    rfl
  · obtain rfl := List.mem_singleton.mp hid
    rw [hget, get?_alloc, if_pos rfl]
    rfl
  · rw [hget, get?_alloc_of_lt hid]
    exact rel_map (hf id)

/-- A token of a run that is linked in, or of its neighbours, persists. -/
theorem linked_persists (before? after? : Option TokenId) (run : TokenRange)
    (ids : List TokenId) (id : TokenId) (token : Token) :
    token.Persists (mark ids id (relink (some run.last) after? id
      (relink before? (some run.first) id token))) :=
  ((relink_persists ..).trans (relink_persists ..)).trans (mark_persists ..)

/-- Linking a run makes and destroys no token. -/
theorem linkRun_evolves (list : TokenList) (before? after? : Option TokenId) (run : TokenRange)
    (ids : List TokenId) {dies : TokenId → Prop} (h : ∀ id, ¬ dies id) :
    list.Evolves (list.linkRun before? after? run ids) [] dies :=
  .of_get? [] _ (size_linkRun ..) (fun id => ⟨fun hid => absurd hid (h id), by simp⟩)
    (linked_persists before? after? run ids)
    fun id => by rw [get?_linkRun, if_neg List.not_mem_nil]

/-- Chaining makes and destroys no token. -/
theorem chainFrom_evolves (list : TokenList) (ids : List TokenId) {dies : TokenId → Prop}
    (h : ∀ id, ¬ dies id) : list.Evolves (list.chainFrom none ids) [] dies := by
  refine ⟨(chainFrom_frame ids none).2.2.2, rfl, fun id hid => absurd hid List.not_mem_nil,
    fun id hid => absurd hid (h id), fun id _ _ => ?_⟩
  have hstripped := @get?_chainFrom_map list _
    (fun token => { token with prev? := none, next? := none }) (fun _ _ _ => rfl) ids none id
  cases hget : list.get? id <;> cases hget' : (list.chainFrom none ids).get? id
    <;> rw [hget, hget'] at hstripped
  · exact .none
  · simp at hstripped
  · simp at hstripped
  · exact .some (.of_stripped (Option.some.inj hstripped))

/-- A replacement relinks neighbours and run, marks the run, and destroys what it cuts out. -/
theorem replace_evolves {list list' : TokenList} {old : TokenRange} {new? : Option TokenRange}
    {splice : Splice} (heq : list.replace old new? = .ok (splice, list')) :
    list.Evolves list' [] (list.Destroys (.replace old new?)) := by
  have hdies : ∀ id, list.Destroys (.replace old new?) id
      ↔ (list.get? id).isSome = true ∧ id ∈ splice.removed := by
    intro id
    unfold Destroys
    simp [heq]
  rw [replace_eq] at heq
  obtain ⟨removed, -, heq⟩ := Step.except_bind_ok.mp heq
  obtain ⟨inserted, -, heq⟩ := Step.except_bind_ok.mp heq
  obtain ⟨rfl, rfl⟩ := Prod.mk.inj (Except.ok.inj heq)
  -- links change on both ways, and only the removed tokens are destroyed
  cases new? with
  | none =>
    refine .of_get? removed (relink (list.prev? old.first) (list.next? old.last)) ?_ hdies
      (relink_persists _ _) fun id => ?_
    · show ((list.link _ _).destroy removed).slots.size = _
      rw [size_destroy, size_link]
    · show ((list.link _ _).destroy removed).get? id = _
      rw [get?_destroy, get?_link]
  | some run =>
    refine .of_get? removed _ ?_ hdies (linked_persists (list.prev? old.first)
      (list.next? old.last) run inserted) fun id => ?_
    · show ((list.linkRun _ _ run inserted).destroy removed).slots.size = _
      rw [size_destroy, size_linkRun]
    · show ((list.linkRun _ _ run inserted).destroy removed).get? id = _
      rw [get?_destroy, get?_linkRun]

/-- A run put in takes over links, and nothing is destroyed. -/
theorem insertBefore_evolves {list list' : TokenList} {anchor : TokenId} {run : TokenRange}
    {splice : Splice} {dies : TokenId → Prop} (h : ∀ id, ¬ dies id)
    (heq : list.insertBefore anchor run = .ok (splice, list')) : list.Evolves list' [] dies := by
  obtain ⟨-, -, heq⟩ := Step.except_bind_ok.mp heq
  obtain ⟨ids, -, heq⟩ := Step.except_bind_ok.mp heq
  obtain ⟨-, rfl⟩ := Prod.mk.inj (Except.ok.inj heq)
  exact linkRun_evolves list _ _ run ids h

/-- Putting a run in makes and destroys no token. -/
theorem insertAfter_evolves {list list' : TokenList} {anchor : TokenId} {run : TokenRange}
    {splice : Splice} {dies : TokenId → Prop} (h : ∀ id, ¬ dies id)
    (heq : list.insertAfter anchor run = .ok (splice, list')) : list.Evolves list' [] dies := by
  obtain ⟨-, -, heq⟩ := Step.except_bind_ok.mp heq
  obtain ⟨ids, -, heq⟩ := Step.except_bind_ok.mp heq
  obtain ⟨-, rfl⟩ := Prod.mk.inj (Except.ok.inj heq)
  exact linkRun_evolves list _ _ run ids h

/-- **One call**, whatever its arguments, gives out and destroys what it is said to; all other
    tokens persist. -/
theorem perform_evolves (list : TokenList) (call : Call) :
    list.Evolves (list.perform call) (list.givenBy call) (list.Destroys call) := by
  cases call with
  | append kind span line =>
    refine .of_alloc { list.unlinkedToken kind span line with prev? := list.tail?, linked := true }
      (relink list.tail? (some list.nextId)) (fun id hid => hid.2) ?_ (relink_persists _ _)
      fun id => ?_
    · exact size_link ..
    · exact get?_link ..
  | synthesize kind text line =>
    refine .of_alloc _ (fun _ token => token) (fun id hid => hid.2) rfl (fun _ => .refl)
      fun id => ?_
    rw [Option.map_id']
    rfl
  | chain ids =>
    have hnone : ∀ id, ¬ list.Destroys (.chain ids) id := fun id hid => hid.2
    show list.Evolves (list.resultOr (list.chain ids)) [] _
    refine resultOr_cases _ (fun _ _ => .refl list hnone) fun run? list' heq => ?_
    obtain ⟨-, rfl⟩ := chain_eq_ok heq
    exact chainFrom_evolves list ids hnone
  | replace old new? =>
    show list.Evolves (list.resultOr (list.replace old new?)) [] _
    refine resultOr_cases _ (fun e heq => ?_) fun splice list' heq => replace_evolves heq
    refine .refl list fun id hid => ?_
    obtain ⟨-, splice, list', hok, -⟩ := hid
    simp [heq] at hok
  | insertBefore anchor run =>
    have hnone : ∀ id, ¬ list.Destroys (.insertBefore anchor run) id := fun id hid => hid.2
    show list.Evolves (list.resultOr (list.insertBefore anchor run)) [] _
    exact resultOr_cases _ (fun _ _ => .refl list hnone)
      fun splice list' heq => insertBefore_evolves hnone heq
  | insertAfter anchor run =>
    have hnone : ∀ id, ¬ list.Destroys (.insertAfter anchor run) id := fun id hid => hid.2
    show list.Evolves (list.resultOr (list.insertAfter anchor run)) [] _
    exact resultOr_cases _ (fun _ _ => .refl list hnone)
      fun splice list' heq => insertAfter_evolves hnone heq
  | discard run =>
    show list.Evolves (list.resultOr ((list.discard run).map ((), ·))) [] _
    unfold TokenList.discard
    cases hwalk : list.walk run false with
    | error e =>
      refine .refl list fun id hid => ?_
      obtain ⟨-, ids, hok, -⟩ := hid
      simp [hwalk] at hok
    | ok ids =>
      refine .of_get? ids (fun _ token => token) (size_destroy list ids)
        (fun id => by simp [Destroys, hwalk]) (fun _ => .refl) fun id => ?_
      rw [Option.map_id']
      exact get?_destroy list ids id
  | deleteAll =>
    refine ⟨Array.size_map, rfl, fun id hid => absurd hid List.not_mem_nil,
      fun id _ => get?_deleteAll id, fun id _ hid => ?_⟩
    -- Every token there was dies, so this handle named none.
    have hnone : list.get? id = none := by
      by_contra hsome
      exact hid ⟨Option.isSome_iff_ne_none.mpr hsome, trivial⟩
    rw [hnone, show list.perform .deleteAll = list.deleteAll from rfl, get?_deleteAll]
    exact .none

/-! ## §4. Histories -/

/-- What a call destroys was there. -/
theorem Destroys.index_lt {list : TokenList} {call : Call} {id : TokenId}
    (h : list.Destroys call id) : id.index < (list.perform call).slots.size := by
  obtain ⟨token, htoken⟩ := Option.isSome_iff_exists.mp h.1
  rw [(perform_evolves list call).size]
  exact Nat.lt_of_lt_of_le (index_lt_of_get? htoken) (Nat.le_add_right _ _)

/-- **A history**, from any list on, gives out handles in order, destroys the tokens that its
    calls destroy, and lets all others persist. -/
theorem performAll_evolves (list : TokenList) (calls : List Call) :
    list.Evolves (list.performAll calls) (list.givenByAll calls) (list.DestroysAlong calls) := by
  induction calls generalizing list with
  | nil => exact .refl list fun _ => id
  | cons call calls ih =>
    exact (perform_evolves list call).trans (ih (list.perform call)) fun _ hid => hid.index_lt

/-- **The life of a token.**  Along every history a handle is given out once.  At every moment
    it names a token if it was given out and that token was not destroyed; once it names none,
    it never does again; and at two moments at which it names a token, that is the same kind,
    text, line and content, linked at the later moment if it was at the earlier. -/
theorem lifetime_performAll (source : String) (earlier later : List Call) :
    ((TokenList.empty source).givenByAll (earlier ++ later)).Nodup
      ∧ (∀ id, (((TokenList.empty source).performAll earlier).get? id).isSome = true
        ↔ id ∈ (TokenList.empty source).givenByAll earlier
          ∧ ¬ (TokenList.empty source).DestroysAlong earlier id)
      ∧ (∀ id ∈ (TokenList.empty source).givenByAll earlier,
        ((TokenList.empty source).performAll earlier).get? id = none →
          ((TokenList.empty source).performAll (earlier ++ later)).get? id = none)
      ∧ ∀ id token token',
        ((TokenList.empty source).performAll earlier).get? id = some token →
        ((TokenList.empty source).performAll (earlier ++ later)).get? id = some token' →
          token.Persists token' := by
  have hstart := performAll_evolves (TokenList.empty source) earlier
  have hlater := performAll_evolves ((TokenList.empty source).performAll earlier) later
  have hall := performAll_evolves (TokenList.empty source) (earlier ++ later)
  refine ⟨?_, fun id => ?_, fun id hid hnone => ?_, fun id token token' htoken htoken' => ?_⟩
  -- handles are given by slot number, each one more than the last
  · rw [hall.fresh]
    exact (List.nodup_range' ..).map fun _ _ he => congrArg TokenId.index he
  · rw [hstart.isSome_iff, get?_empty]
    simp
  · rw [performAll_append]
    by_cases hdies : ((TokenList.empty source).performAll earlier).DestroysAlong later id
    · exact hlater.gone id hdies
    · have hrel := hlater.kept id (hstart.index_lt hid).2 hdies
      rw [hnone] at hrel
      exact rel_none hrel
  · rw [performAll_append] at htoken'
    have hnot : ¬ ((TokenList.empty source).performAll earlier).DestroysAlong later id := by
      intro hdies
      rw [hlater.gone id hdies] at htoken'
      simp at htoken'
    have hrel := hlater.kept id (index_lt_of_get? htoken) hnot
    rw [htoken, htoken'] at hrel
    cases hrel with
    | some h => exact h

/-- A token of the source, and a made one that waits to be linked. -/
def oneWaiting : List Call := [.append .symbol ⟨0, 1⟩ 1, .synthesize .symbol "x" 1, .chain [⟨1⟩]]

/-- The one that waits takes the place of the other. -/
def takesPlace : Call := .replace ⟨⟨0⟩, ⟨0⟩⟩ (some ⟨⟨1⟩, ⟨1⟩⟩)

/-- The token that was replaced is gone, and its handle names nothing when another token is
    made; the token that took its place is the same as before, and linked now. -/
theorem lifetime_performAll_takesPlace :
    ((TokenList.empty "a").performAll (oneWaiting ++ [takesPlace])).get? ⟨0⟩ = none
      ∧ ((TokenList.empty "a").performAll
        ((oneWaiting ++ [takesPlace]) ++ [.synthesize .symbol "y" 1])).get? ⟨0⟩ = none
      ∧ ∃ token token',
        ((TokenList.empty "a").performAll oneWaiting).get? ⟨1⟩ = some token
          ∧ ((TokenList.empty "a").performAll (oneWaiting ++ [takesPlace])).get? ⟨1⟩ = some token'
          ∧ token.linked = false ∧ token'.linked = true ∧ token.Persists token' := by
  obtain ⟨-, -, hgone, -⟩ := lifetime_performAll "a" (oneWaiting ++ [takesPlace])
    [.synthesize .symbol "y" 1]
  obtain ⟨-, -, -, hsame⟩ := lifetime_performAll "a" oneWaiting [takesPlace]
  exact ⟨by decide, hgone ⟨0⟩ (by decide) (by decide),
    { kind := .symbol, text := "x", line := 1 },
    { kind := .symbol, text := "x", line := 1, linked := true },
    by decide, by decide, rfl, rfl, hsame ⟨1⟩ _ _ (by decide) (by decide)⟩

end TokenList

end KernelPrep
