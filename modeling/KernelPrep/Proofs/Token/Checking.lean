/-
  KernelPrep.Proofs.Token.Checking — which calls are accepted, and why others are refused.

  Before an operation touches a link it follows the links of each range it is given and
  looks at every token on the way.  The ranges may be reversed, stale or unknown, and links
  of detached tokens may lead into the file or to destroyed tokens.  In every state that can
  be reached by stringing no token twice, links between tokens of one residency close to no
  ring.  So the check comes to an end, accepts exactly the runs, and names the first token
  that is not as it should be.

  Main definitions:
    * `TokenList.Reached`      — a state that a history leaves which strings no token twice;
    * `TokenList.Checks`       — the checking loop, without any bound on its turns;
    * `TokenList.IsRun`        — a range that is a run of linked, or of detached, tokens;
    * `TokenList.FirstOffence` — what a check meets first, if it fails;
    * `TokenList.Accepts`, `TokenList.Refuses` — the conditions on the arguments of a call.

  Main statements:
    * `TokenList.WellFormed.walk_checks`  — the loop ends, with the result of `walk`;
    * `TokenList.WellFormed.walk_ok_iff`, `TokenList.WellFormed.walk_error_iff`;
    * `TokenList.Reached.refusal_exact`   — every call, in every reached state.
-/
import KernelPrep.Proofs.Token.History

namespace KernelPrep.TokenList

/-! ## §1. Reached states -/

/-- A history that strings no token twice leads to this list. -/
def Reached (list : TokenList) : Prop :=
  ∃ source calls, ((TokenList.empty source).strungByAll calls).Nodup
    ∧ (TokenList.empty source).performAll calls = list

/-- Reached lists are well-formed. -/
theorem Reached.wellFormed {list : TokenList} (h : list.Reached) : list.WellFormed := by
  obtain ⟨source, calls, hnodup, rfl⟩ := h
  have hheld := (held_empty source).performAll calls (by rwa [List.nil_append])
  obtain ⟨file, hthread⟩ := hheld.threaded
  exact hthread.wellFormed hheld.loose

/-- Two tokens of the source with the middle of a run of three between them. -/
def midLinked : TokenList := (TokenList.empty "ab").performAll (splitRun.take 7)

/-- This list is reached: by linking in the middle of a detached run. -/
theorem midLinked_reached : midLinked.Reached := ⟨"ab", splitRun.take 7, by decide, rfl⟩

/-! ## §2. Runs and offences -/

/-- The token of `id` exists and is linked, or detached, as `linked` says. -/
def Resides (list : TokenList) (linked : Bool) (id : TokenId) : Prop :=
  ∃ token, list.get? id = some token ∧ token.linked = linked

/-- Forward links lead through `ids` from the first token of `range` to its last, and all of
    them are linked, or all detached. -/
structure IsRun (list : TokenList) (linked : Bool) (range : TokenRange) (ids : List TokenId) :
    Prop where
  ends : range.Ends ids
  resides : ∀ x ∈ ids, list.Resides linked x
  along : ids.IsChain fun a b => list.next? a = some b

/-- What is wrong with a handle: it names no token, or one of the other residency. -/
def Offends (list : TokenList) (linked : Bool) (id : TokenId) (error : SpliceError) : Prop :=
  list.get? id = none ∧ error = .missing id
    ∨ list.Resides (!linked) id ∧ error = if linked then .notLinked id else .alreadyLinked id

/-- Following forward links from `start?` meets `passed` and then comes to `at?`. -/
def Leads (list : TokenList) : Option TokenId → List TokenId → Option TokenId → Prop
  | start?, [], at? => start? = at?
  | start?, id :: rest, at? => start? = some id ∧ Leads list (list.next? id) rest at?

/-- From `start?` on, links lead through tokens that are as they should be and among which the
    range does not end, to one that offends, or to no further token. -/
def FirstOffence (list : TokenList) (linked : Bool) (range : TokenRange)
    (start? : Option TokenId) (error : SpliceError) : Prop :=
  ∃ passed at?, list.Leads start? passed at?
    ∧ (∀ x ∈ passed, list.Resides linked x ∧ x ≠ range.last)
    ∧ match at? with
      | none => error = .broken range
      | some id => list.Offends linked id error

/-- The checking loop over `range`, with no bound on its turns: standing at `id?`, it ends with
    the given result. -/
inductive Checks (list : TokenList) (range : TokenRange) (linked : Bool) :
    Option TokenId → Except SpliceError (List TokenId) → Prop
  | ranOut : Checks list range linked none (.error (.broken range))
  | offends {id : TokenId} {error : SpliceError} (h : list.Offends linked id error) :
      Checks list range linked (some id) (.error error)
  | last (h : list.Resides linked range.last) :
      Checks list range linked (some range.last) (.ok [range.last])
  | next {id : TokenId} {result : Except SpliceError (List TokenId)}
      (h : list.Resides linked id) (hne : id ≠ range.last)
      (hrest : Checks list range linked (list.next? id) result) :
      Checks list range linked (some id) (result.map (id :: ·))

variable {list : TokenList} {range : TokenRange} {linked : Bool} {id : TokenId}
  {ids : List TokenId}

/-- What offends does not reside. -/
theorem not_resides_of_offends {error : SpliceError} (h : list.Offends linked id error) :
    ¬ list.Resides linked id := by
  rintro ⟨token, htoken, rfl⟩
  rcases h with ⟨hnone, -⟩ | ⟨⟨token', htoken', hlinked⟩, -⟩
  · rw [hnone] at htoken
    simp at htoken
  · rw [htoken] at htoken'
    obtain rfl := Option.some.inj htoken'
    simp at hlinked

/-- Only one thing can be wrong with a handle. -/
theorem Offends.unique {error error' : SpliceError} (h : list.Offends linked id error)
    (h' : list.Offends linked id error') : error = error' := by
  rcases h with ⟨hnone, rfl⟩ | ⟨⟨token, htoken, -⟩, rfl⟩ <;>
    rcases h' with ⟨hnone', rfl⟩ | ⟨⟨token', htoken', -⟩, rfl⟩
  · rfl
  · simp [hnone] at htoken'
  · simp [hnone'] at htoken
  · rfl

/-- A handle offends, or its token is as it should be. -/
theorem resides_or_offends (list : TokenList) (linked : Bool) (id : TokenId) :
    list.Resides linked id ∨ ∃ error, list.Offends linked id error := by
  cases hget : list.get? id with
  | none => exact Or.inr ⟨_, Or.inl ⟨hget, rfl⟩⟩
  | some token =>
    by_cases hlinked : token.linked = linked
    · exact Or.inl ⟨token, hget, hlinked⟩
    · exact Or.inr ⟨_, Or.inr ⟨⟨token, hget, Bool.eq_not.mpr hlinked⟩, rfl⟩⟩

/-- A way along the links, taken apart. -/
theorem leads_append {start? at? : Option TokenId} {passed more : List TokenId} :
    list.Leads start? (passed ++ more) at?
      ↔ ∃ mid?, list.Leads start? passed mid? ∧ list.Leads mid? more at? := by
  induction passed generalizing start? with
  | nil => simp [Leads]
  | cons id rest ih =>
    show start? = some id ∧ list.Leads (list.next? id) (rest ++ more) at? ↔ _
    rw [ih]
    simp only [Leads]
    constructor
    · rintro ⟨hstart, mid?, hrest, hmore⟩
      exact ⟨mid?, ⟨hstart, hrest⟩, hmore⟩
    · rintro ⟨mid?, ⟨hstart, hrest⟩, hmore⟩
      exact ⟨hstart, mid?, hrest, hmore⟩

/-- What links lead through is one the next of the other. -/
theorem Leads.isChain {start? at? : Option TokenId} {passed : List TokenId}
    (h : list.Leads start? passed at?) :
    passed.IsChain fun a b => list.next? a = some b := by
  induction passed generalizing start? with
  | nil => exact .nil
  | cons id rest ih =>
    cases rest with
    | nil => exact List.isChain_singleton id
    | cons y rest => exact List.isChain_cons_cons.mpr ⟨h.2.1, ih h.2⟩

/-! ## §3. The check comes to an end -/

/-- The loop has one result. -/
theorem Checks.unique {id? : Option TokenId} {result result' : Except SpliceError (List TokenId)}
    (h : list.Checks range linked id? result) (h' : list.Checks range linked id? result') :
    result = result' := by
  -- a token either resides or offends, which fixes the rule at each step
  induction h generalizing result' with
  | ranOut =>
    cases h'
    rfl
  | offends hoff =>
    have hnot := not_resides_of_offends hoff
    cases h' with
    | offends hoff' => rw [hoff.unique hoff']
    | last hres => exact absurd hres hnot
    | next hres => exact absurd hres hnot
  | last hres =>
    cases h' with
    | offends hoff => exact absurd hres (not_resides_of_offends hoff)
    | last => rfl
    | next _ hne => exact absurd rfl hne
  | next hres hne _ ih =>
    cases h' with
    | offends hoff => exact absurd hres (not_resides_of_offends hoff)
    | last => exact absurd rfl hne
    | next _ _ hrest => rw [ih hrest]

/-- One turn of the bounded loop. -/
theorem walkFrom_offends {error : SpliceError} (h : list.Offends linked id error) (fuel : Nat) :
    list.walkFrom range linked (fuel + 1) (some id) = .error error := by
  rw [walkFrom]
  rcases h with ⟨hnone, rfl⟩ | ⟨⟨token, htoken, hlinked⟩, rfl⟩
  · rw [hnone]
  · rw [htoken]
    simp [hlinked]

/-- A token that is as it should be is passed, and the check goes on behind it. -/
theorem walkFrom_resides (h : list.Resides linked id) (fuel : Nat) :
    list.walkFrom range linked (fuel + 1) (some id)
      = if id = range.last then .ok [id]
        else (list.walkFrom range linked fuel (list.next? id)).map (id :: ·) := by
  obtain ⟨token, htoken, hlinked⟩ := h
  rw [walkFrom, next?_eq, htoken]
  simp [hlinked]

/-- Tokens of one residency, each the next of the one before, are all different. -/
theorem WellFormed.nodup_of_isChain (h : list.WellFormed)
    (hres : ∀ x ∈ ids, list.Resides linked x)
    (hchain : ids.IsChain fun a b => list.next? a = some b) : ids.Nodup := by
  cases linked with
  | false => exact h.loose.nodup_of_isChain hres hchain
  | true =>
    by_cases hne : ids = []
    · rw [hne]
      exact List.nodup_nil
    · obtain ⟨before, after, hfile⟩ := h.threaded.stretch_of_isChain hne
        (fun x hx => by
          obtain ⟨token, htoken, hlinked⟩ := hres x hx
          exact h.threaded.mem_of_get? htoken hlinked) hchain
      have hnodup := h.threaded.nodup
      rw [hfile] at hnodup
      exact (List.nodup_append.mp (List.nodup_append.mp hnodup).1).2.1

/-- Tokens of one residency that links lead through are no more than there are slots. -/
theorem WellFormed.length_lt_walkBound (h : list.WellFormed)
    (hres : ∀ x ∈ ids, list.Resides linked x)
    (hchain : ids.IsChain fun a b => list.next? a = some b) : ids.length < list.walkBound := by
  have hle := length_le_size (h.nodup_of_isChain hres hchain) fun x hx => by
    obtain ⟨token, htoken, -⟩ := hres x hx
    exact ⟨token, htoken⟩
  unfold walkBound
  omega

/-- **The check comes to an end** by itself: the bound on the turns of `walk` is never what
    stops it. -/
theorem WellFormed.walk_checks (h : list.WellFormed) (range : TokenRange) (linked : Bool) :
    list.Checks range linked (some range.first) (list.walk range linked) := by
  -- what was passed and what fuel is left make up the bound
  have hloop : ∀ fuel passed at?, list.Leads (some range.first) passed at? →
      (∀ x ∈ passed, list.Resides linked x) → fuel + passed.length = list.walkBound →
        list.Checks range linked at? (list.walkFrom range linked fuel at?) := by
    intro fuel
    induction fuel with
    | zero =>
      intro passed at? hleads hres hfuel
      have hlt := h.length_lt_walkBound hres hleads.isChain
      omega
    | succ fuel ih =>
      intro passed at? hleads hres hfuel
      cases at? with
      | none => exact .ranOut
      | some id =>
        rcases resides_or_offends list linked id with hid | ⟨error, hoff⟩
        · rw [walkFrom_resides hid]
          split
          · rename_i hlast
            subst hlast
            exact .last hid
          · rename_i hne
            refine .next hid hne (ih (passed ++ [id]) _ ?_ ?_ ?_)
            · exact leads_append.mpr ⟨some id, hleads, rfl, rfl⟩
            · intro x hx
              rcases List.mem_append.mp hx with hx | hx
              · exact hres x hx
              · exact List.mem_singleton.mp hx ▸ hid
            · rw [List.length_append, List.length_singleton]
              omega
        · rw [walkFrom_offends hoff]
          exact .offends hoff
  exact hloop list.walkBound [] (some range.first) rfl (by simp) rfl

/-! ## §4. What the check accepts and what it reports -/

/-- **The check accepts exactly the runs.** -/
theorem WellFormed.walk_ok_iff (h : list.WellFormed) :
    list.walk range linked = .ok ids ↔ list.IsRun linked range ids := by
  constructor
  · intro hwalk
    obtain ⟨hfirst, hlast, hres, hchain⟩ := walkFrom_ok hwalk
    exact ⟨⟨hfirst, hlast⟩, hres, hchain⟩
  · rintro ⟨⟨hfirst, hlast⟩, hres, hchain⟩
    have hne : ids ≠ [] := by
      rintro rfl
      simp at hfirst
    unfold walk
    rw [← hfirst]
    exact walkFrom_isChain hchain (h.nodup_of_isChain hres hchain) hne hlast hres
      (Nat.le_of_lt (h.length_lt_walkBound hres hchain))

/-- A loop that ends with an error has passed good tokens and then met an offence. -/
theorem checks_error_iff {id? : Option TokenId} {error : SpliceError} :
    list.Checks range linked id? (.error error)
      ↔ list.FirstOffence linked range id? error := by
  constructor
  · intro h
    generalize hresult : Except.error error = result at h
    induction h with
    | ranOut => exact ⟨[], none, rfl, by simp, Except.error.inj hresult⟩
    | offends hoff =>
      obtain rfl := Except.error.inj hresult
      exact ⟨[], _, rfl, by simp, hoff⟩
    | last => simp at hresult
    | next hres hne _ ih =>
      rename_i id result _
      cases result with
      | ok ids => simp [Except.map] at hresult
      | error e =>
        obtain ⟨passed, at?, hleads, hpassed, hat⟩ := ih hresult
        refine ⟨id :: passed, at?, ⟨rfl, hleads⟩, ?_, hat⟩
        intro x hx
        rcases List.mem_cons.mp hx with rfl | hx
        · exact ⟨hres, hne⟩
        · exact hpassed x hx
  -- the other way, by induction on the tokens that passed
  · rintro ⟨passed, at?, hleads, hpassed, hat⟩
    induction passed generalizing id? with
    | nil =>
      obtain rfl : id? = at? := hleads
      cases id? with
      | none =>
        obtain rfl : error = .broken range := hat
        exact .ranOut
      | some id => exact .offends hat
    | cons id rest ih =>
      obtain ⟨rfl, hrest⟩ := hleads
      obtain ⟨hres, hne⟩ := hpassed id List.mem_cons_self
      exact .next hres hne (ih hrest fun x hx => hpassed x (List.mem_cons_of_mem _ hx))

/-- **The check reports the first offence.** -/
theorem WellFormed.walk_error_iff (h : list.WellFormed) {error : SpliceError} :
    list.walk range linked = .error error
      ↔ list.FirstOffence linked range (some range.first) error := by
  have hchecks := h.walk_checks range linked
  constructor
  · intro hwalk
    rw [hwalk] at hchecks
    exact checks_error_iff.mp hchecks
  · intro hoff
    exact hchecks.unique (checks_error_iff.mpr hoff)

/-! ## §5. Calls -/

/-- What is to be linked in: the tokens of a detached run, or none. -/
def Provides (list : TokenList) : Option TokenRange → List TokenId → Prop
  | none, ids => ids = []
  | some run, ids => list.IsRun false run ids

/-- What a call asks of its arguments. -/
def Accepts (list : TokenList) : Call → Prop
  | .chain ids => ∀ id ∈ ids, list.Resides false id
  | .replace old new? => (∃ ids, list.IsRun true old ids) ∧ ∃ ids, list.Provides new? ids
  | .insertBefore anchor run | .insertAfter anchor run =>
    list.Resides true anchor ∧ ∃ ids, list.IsRun false run ids
  | .discard run => ∃ ids, list.IsRun false run ids
  | .append .. | .synthesize .. | .deleteAll => True

/-- The first thing wrong with the arguments of a call, in the order of the checks. -/
def Refuses (list : TokenList) (call : Call) (error : SpliceError) : Prop :=
  match call with
  | .chain ids => ∃ before id after, ids = before ++ id :: after
      ∧ (∀ x ∈ before, list.Resides false x) ∧ list.Offends false id error
  | .replace old new? => list.FirstOffence true old (some old.first) error
      ∨ (∃ ids, list.IsRun true old ids)
        ∧ ∃ run, new? = some run ∧ list.FirstOffence false run (some run.first) error
  | .insertBefore anchor run | .insertAfter anchor run => list.Offends true anchor error
      ∨ list.Resides true anchor ∧ list.FirstOffence false run (some run.first) error
  | .discard run => list.FirstOffence false run (some run.first) error
  | .append .. | .synthesize .. | .deleteAll => False

/-- The error of a step that fails. -/
def failure? {ε α : Type} : Except ε α → Option ε
  | .ok _ => none
  | .error e => some e

/-- Why a call is refused, if it is. -/
def refusal? (list : TokenList) : Call → Option SpliceError
  | .chain ids => failure? (list.chain ids)
  | .replace old new? => failure? (list.replace old new?)
  | .insertBefore anchor run => failure? (list.insertBefore anchor run)
  | .insertAfter anchor run => failure? (list.insertAfter anchor run)
  | .discard run => failure? (list.discard run)
  | .append .. | .synthesize .. | .deleteAll => none

section Failure

variable {ε α β : Type} {x : Except ε α} {f : α → Except ε β} {e : ε}

/-- A step fails with the error that it gives. -/
theorem failure?_eq_some : failure? x = some e ↔ x = .error e := by
  cases x <;> simp [failure?]

/-- Two steps go through if both do. -/
theorem failure?_bind_eq_none :
    failure? (x >>= f) = none ↔ ∃ a, x = .ok a ∧ failure? (f a) = none := by
  cases x <;> simp [failure?, bind, Except.bind]

/-- Two steps fail as the first does, or else as the second does. -/
theorem failure?_bind_eq_some :
    failure? (x >>= f) = some e ↔ x = .error e ∨ ∃ a, x = .ok a ∧ failure? (f a) = some e := by
  cases x <;> simp [failure?, bind, Except.bind]

@[simp] theorem failure?_pure (a : α) : failure? (pure a : Except ε α) = none := rfl

end Failure

/-- An anchor in the file is accepted. -/
theorem checkLinked_resides (h : list.Resides true id) : list.checkLinked id = .ok () := by
  obtain ⟨token, htoken, hlinked⟩ := h
  unfold checkLinked
  rw [htoken]
  simp [hlinked]

/-- Any other anchor is refused, by what is wrong with it. -/
theorem checkLinked_offends {error : SpliceError} (h : list.Offends true id error) :
    list.checkLinked id = .error error := by
  unfold checkLinked
  rcases h with ⟨hnone, rfl⟩ | ⟨⟨token, htoken, hlinked⟩, rfl⟩
  · rw [hnone]
  · rw [htoken]
    simp [hlinked]

/-- Exactly the tokens of the file are accepted as anchors. -/
theorem checkLinked_ok_iff : (∃ u, list.checkLinked id = .ok u) ↔ list.Resides true id := by
  refine ⟨fun ⟨u, hu⟩ => ?_, fun h => ⟨(), checkLinked_resides h⟩⟩
  rcases resides_or_offends list true id with hres | ⟨error, hoff⟩
  · exact hres
  · rw [checkLinked_offends hoff] at hu
    simp at hu

/-- An anchor is refused for exactly what is wrong with it. -/
theorem checkLinked_error_iff {error : SpliceError} :
    list.checkLinked id = .error error ↔ list.Offends true id error := by
  refine ⟨fun h => ?_, checkLinked_offends⟩
  rcases resides_or_offends list true id with hres | ⟨error', hoff⟩
  · rw [checkLinked_resides hres] at h
    simp at h
  · rw [checkLinked_offends hoff] at h
    exact Except.error.inj h ▸ hoff

/-- A detached token is passed. -/
theorem checkDetached_resides (h : list.Resides false id) :
    list.checkDetached (id :: ids) = list.checkDetached ids := by
  obtain ⟨token, htoken, hlinked⟩ := h
  rw [checkDetached, htoken]
  simp [hlinked]

/-- The first token that is not detached is reported. -/
theorem checkDetached_offends {error : SpliceError} (h : list.Offends false id error) :
    list.checkDetached (id :: ids) = .error error := by
  rw [checkDetached]
  rcases h with ⟨hnone, rfl⟩ | ⟨⟨token, htoken, hlinked⟩, rfl⟩
  · rw [hnone]
  · rw [htoken]
    simp [hlinked]

/-- A chain is refused for the first of its tokens that offends. -/
theorem checkDetached_error_iff {error : SpliceError} :
    list.checkDetached ids = .error error ↔ ∃ before id after, ids = before ++ id :: after
      ∧ (∀ x ∈ before, list.Resides false x) ∧ list.Offends false id error := by
  constructor
  · intro h
    induction ids with
    | nil => simp [checkDetached] at h
    | cons id rest ih =>
      rcases resides_or_offends list false id with hres | ⟨error', hoff⟩
      · rw [checkDetached_resides hres] at h
        obtain ⟨before, other, after, rfl, hbefore, hoff⟩ := ih h
        exact ⟨id :: before, other, after, rfl, List.forall_mem_cons.mpr ⟨hres, hbefore⟩, hoff⟩
      · rw [checkDetached_offends hoff] at h
        exact ⟨[], id, rest, rfl, by simp, Except.error.inj h ▸ hoff⟩
  · rintro ⟨before, id, after, rfl, hbefore, hoff⟩
    induction before with
    | nil => exact checkDetached_offends hoff
    | cons x before ih =>
      obtain ⟨hx, hrest⟩ := List.forall_mem_cons.mp hbefore
      exact (checkDetached_resides hx).trans (ih hrest)

/-- What is to be linked in is accepted if and only if it is a detached run, or nothing. -/
theorem WellFormed.walkNew_ok_iff (h : list.WellFormed) {new? : Option TokenRange} :
    list.walkNew new? = .ok ids ↔ list.Provides new? ids := by
  cases new? with
  | none =>
    show Except.ok [] = Except.ok ids ↔ ids = []
    rw [Except.ok.injEq]
    exact eq_comm
  | some run => exact h.walk_ok_iff

/-- What is to be linked in is refused for the first offence on its way. -/
theorem WellFormed.walkNew_error_iff (h : list.WellFormed) {new? : Option TokenRange}
    {error : SpliceError} : list.walkNew new? = .error error
      ↔ ∃ run, new? = some run ∧ list.FirstOffence false run (some run.first) error := by
  cases new? with
  | none => simp [walkNew]
  | some run =>
    show list.walk run false = _ ↔ _
    rw [h.walk_error_iff]
    simp

/-- Linking a run beside a token checks the token, then the run. -/
theorem WellFormed.insert_checks (h : list.WellFormed) {α : Type} (anchor : TokenId)
    (run : TokenRange) (result : List TokenId → α) :
    (failure? (do list.checkLinked anchor; return result (← list.walk run false)) = none
        ↔ list.Resides true anchor ∧ ∃ ids, list.IsRun false run ids)
      ∧ ∀ error,
        failure? (do list.checkLinked anchor; return result (← list.walk run false)) = some error
          ↔ list.Offends true anchor error
            ∨ list.Resides true anchor ∧ list.FirstOffence false run (some run.first) error := by
  simp only [failure?_bind_eq_none, failure?_bind_eq_some, failure?_pure, h.walk_ok_iff,
    h.walk_error_iff, checkLinked_error_iff, and_true, reduceCtorEq, and_false, exists_false,
    or_false, exists_and_right, checkLinked_ok_iff, implies_true, and_self]

/-- A call goes through exactly if its arguments are accepted. -/
theorem WellFormed.refusal?_eq_none (h : list.WellFormed) (call : Call) :
    list.refusal? call = none ↔ list.Accepts call := by
  cases call with
  | append kind span line => simp [refusal?, Accepts]
  | synthesize kind text line => simp [refusal?, Accepts]
  | deleteAll => simp [refusal?, Accepts]
  | chain ids =>
    show failure? (list.checkDetached ids >>= _) = none ↔ _
    rw [failure?_bind_eq_none]
    constructor
    · rintro ⟨u, hcheck, -⟩
      exact checkDetached_ok hcheck
    · intro hids
      exact ⟨(), checkDetached_of_isDetached hids, rfl⟩
  | replace old new? =>
    -- the old run is walked first, then the new one
    show failure? (list.replace old new?) = none ↔ _
    simp only [replace_eq, failure?_bind_eq_none, failure?_pure, h.walk_ok_iff, h.walkNew_ok_iff,
      and_true, exists_and_right, Accepts]
  | insertBefore anchor run => exact (h.insert_checks anchor run _).1
  | insertAfter anchor run => exact (h.insert_checks anchor run _).1
  | discard run =>
    show failure? (list.walk run false >>= _) = none ↔ _
    simp only [failure?_bind_eq_none, failure?_pure, h.walk_ok_iff, and_true, Accepts]

/-- A call that is refused is refused for the first thing wrong with its arguments. -/
theorem WellFormed.refusal?_eq_some (h : list.WellFormed) (call : Call) (error : SpliceError) :
    list.refusal? call = some error ↔ list.Refuses call error := by
  cases call with
  | append kind span line => simp [refusal?, Refuses]
  | synthesize kind text line => simp [refusal?, Refuses]
  | deleteAll => simp [refusal?, Refuses]
  | chain ids =>
    show failure? (list.checkDetached ids >>= _) = some error ↔ _
    simp only [failure?_bind_eq_some, failure?_pure, reduceCtorEq, and_false, exists_false,
      or_false, checkDetached_error_iff, Refuses]
  | replace old new? =>
    show failure? (list.replace old new?) = some error ↔ _
    simp only [replace_eq, failure?_bind_eq_some, failure?_pure, h.walk_ok_iff, h.walk_error_iff,
      h.walkNew_error_iff, reduceCtorEq, and_false, exists_false, or_false, exists_and_right,
      Refuses]
  | insertBefore anchor run => exact (h.insert_checks anchor run _).2 error
  | insertAfter anchor run => exact (h.insert_checks anchor run _).2 error
  | discard run =>
    show failure? (list.walk run false >>= _) = some error ↔ _
    simp only [failure?_bind_eq_some, failure?_pure, reduceCtorEq, and_false, exists_false,
      or_false, h.walk_error_iff, Refuses]

/-- A call that is refused leaves the list as it was. -/
theorem perform_of_refusal {call : Call} {error : SpliceError}
    (h : list.refusal? call = some error) : list.perform call = list := by
  cases call with
  | append kind span line => simp [refusal?] at h
  | synthesize kind text line => simp [refusal?] at h
  | deleteAll => simp [refusal?] at h
  | chain ids =>
    show list.resultOr (list.chain ids) = list
    rw [failure?_eq_some.mp h]
    rfl
  | replace old new? =>
    show list.resultOr (list.replace old new?) = list
    rw [failure?_eq_some.mp h]
    rfl
  | insertBefore anchor run =>
    show list.resultOr (list.insertBefore anchor run) = list
    rw [failure?_eq_some.mp h]
    rfl
  | insertAfter anchor run =>
    show list.resultOr (list.insertAfter anchor run) = list
    rw [failure?_eq_some.mp h]
    rfl
  | discard run =>
    show list.resultOr ((list.discard run).map ((), ·)) = list
    rw [failure?_eq_some.mp h]
    rfl

/-- **What is accepted and what is refused**, in every state that strings no token twice: a call
    goes through exactly if it is given runs and tokens of the residency it needs; otherwise
    its error names the first offence, and the list is as it was.  Every check ends by itself. -/
theorem Reached.refusal_exact (h : list.Reached) :
    (∀ call, (list.refusal? call = none ↔ list.Accepts call)
      ∧ (∀ error, list.refusal? call = some error ↔ list.Refuses call error)
      ∧ (list.refusal? call ≠ none → list.perform call = list))
    ∧ ∀ range linked,
      list.Checks range linked (some range.first) (list.walk range linked) := by
  have hwf := h.wellFormed
  refine ⟨fun call => ⟨hwf.refusal?_eq_none call, hwf.refusal?_eq_some call, fun hne => ?_⟩,
    hwf.walk_checks⟩
  obtain ⟨error, herror⟩ := Option.ne_none_iff_exists'.mp hne
  exact perform_of_refusal herror

/-- The leftovers of the run are no run, since the links between them lead through the file,
    and a range that runs backwards is none; a replacement across the linked middle goes
    through. -/
theorem Reached.refusal_exact_midLinked :
    midLinked.Reached
      ∧ midLinked.Refuses (.insertAfter ⟨1⟩ ⟨⟨2⟩, ⟨4⟩⟩) (.alreadyLinked ⟨3⟩)
      ∧ midLinked.Refuses (.replace ⟨⟨1⟩, ⟨0⟩⟩ none) (.broken ⟨⟨1⟩, ⟨0⟩⟩)
      ∧ midLinked.perform (.replace ⟨⟨1⟩, ⟨0⟩⟩ none) = midLinked
      ∧ midLinked.Accepts (.replace ⟨⟨0⟩, ⟨3⟩⟩ (some ⟨⟨4⟩, ⟨4⟩⟩)) := by
  obtain ⟨hcalls, -⟩ := midLinked_reached.refusal_exact
  exact ⟨midLinked_reached, ((hcalls _).2.1 _).mp (by decide), ((hcalls _).2.1 _).mp (by decide),
    (hcalls _).2.2 (by decide), (hcalls _).1.mp (by decide)⟩

end KernelPrep.TokenList
