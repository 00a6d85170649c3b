/-
  KernelPrep.Proofs.Outline.Nesting — leaves whose delimiters come in pairs.

  Delimiters come in pairs when each that opens is closed later on, the pairs lying one
  inside of the other or one behind the other.  Leaves are nested when moreover each is
  closed by its own counterpart, and level when this is not looked at.  Which delimiter
  closes which does not depend on the kinds, so level leaves can be cut out of others that
  are nested.

  Main definitions:
    * `Paired`, `Nested`, `Level` — leaves whose delimiters come in pairs;
    * `Group`    — one pair with what is between;
    * `nestAll`  — the delimiters left to be closed behind some leaves.

  Main statements:
    * `Paired.unique`     — a delimiter is closed in one place only;
    * `Level.paired_append_iff` — level parts are paired when the whole is;
    * `nested_iff`        — nested leaves leave nothing to be closed;
    * `skipGroup_group`, `skipGroup_of_group` — what a reading of one group takes.
-/
import KernelPrep.Proofs.Outline.Cover

namespace KernelPrep

/-- The delimiters of either side. -/
def TokenKind.isDelimiter (kind : TokenKind) : Bool := kind.isOpener || kind.isCloser

/-- Kinds that a statement passes over: neither delimiters nor `;` nor `=`. -/
def TokenKind.isPlain (kind : TokenKind) : Bool :=
  !kind.isDelimiter && kind != .semicolon && kind != .assign

/-- Plain kinds are no delimiters. -/
theorem TokenKind.isDelimiter_of_plain {kind : TokenKind} (h : kind.isPlain = true) :
    kind.isDelimiter = false := by
  unfold TokenKind.isPlain at h
  simp only [Bool.and_eq_true, Bool.not_eq_eq_eq_not, Bool.not_true] at h
  exact h.1.1

/-- A kind is plain if it is none of those that a statement looks at. -/
theorem TokenKind.isPlain_of_ne {kind : TokenKind} (hlparen : kind ≠ .lparen)
    (hlbracket : kind ≠ .lbracket) (hsemicolon : kind ≠ .semicolon) (hlbrace : kind ≠ .lbrace)
    (hassign : kind ≠ .assign) (hrparen : kind ≠ .rparen) (hrbracket : kind ≠ .rbracket)
    (hrbrace : kind ≠ .rbrace) : kind.isPlain = true := by
  cases kind <;> first | rfl | contradiction

namespace Outline

/-! ## §1. Pairs -/

/-- The delimiters come in pairs, where `fits` tells which may close which. -/
inductive Paired (fits : TokenKind → TokenKind → Prop) : List Leaf → Prop where
  | nil : Paired fits []
  | plain {leaf : Leaf} {rest : List Leaf} : leaf.kind.isDelimiter = false → Paired fits rest →
      Paired fits (leaf :: rest)
  | group {opener closer : Leaf} {inner rest : List Leaf} : opener.kind.isOpener = true →
      closer.kind.isCloser = true → fits opener.kind closer.kind → Paired fits inner →
      Paired fits rest → Paired fits (opener :: (inner ++ closer :: rest))

/-- Every delimiter is closed by its counterpart. -/
def Nested (leaves : List Leaf) : Prop :=
  Paired (fun opener closer => opener.closer? = some closer) leaves

/-- As many delimiters close as open, whatever their kinds. -/
def Level (leaves : List Leaf) : Prop := Paired (fun _ _ => True) leaves

section Paired

variable {fits fits' : TokenKind → TokenKind → Prop} {leaf opener closer : Leaf}
  {leaves inner rest : List Leaf}

/-- What is no delimiter opens nothing. -/
theorem isOpener_of_plain (h : leaf.kind.isDelimiter = false) : leaf.kind.isOpener = false := by
  unfold TokenKind.isDelimiter at h
  exact (Bool.or_eq_false_iff.mp h).1

/-- What is no delimiter closes nothing. -/
theorem isCloser_of_plain (h : leaf.kind.isDelimiter = false) : leaf.kind.isCloser = false := by
  unfold TokenKind.isDelimiter at h
  exact (Bool.or_eq_false_iff.mp h).2

/-- No delimiter opens and closes. -/
theorem not_opener_closer {kind : TokenKind} (ho : kind.isOpener = true)
    (hc : kind.isCloser = true) : False := by
  cases kind <;> simp [TokenKind.isOpener, TokenKind.isCloser] at ho hc

/-- Pairs behind pairs. -/
theorem Paired.append (h : Paired fits leaves) (h' : Paired fits rest) :
    Paired fits (leaves ++ rest) := by
  induction h with
  | nil => exact h'
  | plain hplain _ ih => exact .plain hplain ih
  | group ho hc hfits hinner _ _ ih =>
    rw [List.cons_append, List.append_assoc, List.cons_append]
    exact .group ho hc hfits hinner ih

/-- Pairs that fit fit by any weaker measure. -/
theorem Paired.mono (himp : ∀ o c, fits o c → fits' o c) (h : Paired fits leaves) :
    Paired fits' leaves := by
  induction h with
  | nil => exact .nil
  | plain hplain _ ih => exact .plain hplain ih
  | group ho hc hfits _ _ ih ih' => exact .group ho hc (himp _ _ hfits) ih ih'

/-- Delimiters in pairs are level. -/
theorem Paired.level (h : Paired fits leaves) : Level leaves := h.mono fun _ _ _ => trivial

/-- Where there are no delimiters they come in pairs. -/
theorem paired_of_plain (h : ∀ leaf ∈ leaves, leaf.kind.isDelimiter = false) :
    Paired fits leaves := by
  induction leaves with
  | nil => exact .nil
  | cons leaf rest ih =>
    exact .plain (h leaf List.mem_cons_self) (ih fun x hx => h x (List.mem_cons_of_mem _ hx))

/-- A pair around others. -/
theorem Paired.enclose (ho : opener.kind.isOpener = true) (hc : closer.kind.isCloser = true)
    (hfits : fits opener.kind closer.kind) (h : Paired fits inner) :
    Paired fits (opener :: (inner ++ [closer])) := .group ho hc hfits h .nil

/-- The first leaf decides how the pairs begin. -/
theorem Paired.cases_cons (h : Paired fits (leaf :: rest)) :
    leaf.kind.isDelimiter = false ∧ Paired fits rest
      ∨ leaf.kind.isOpener = true ∧ ∃ inner closer more, rest = inner ++ closer :: more
        ∧ closer.kind.isCloser = true ∧ fits leaf.kind closer.kind ∧ Paired fits inner
        ∧ Paired fits more := by
  cases h with
  | plain hplain hrest => exact .inl ⟨hplain, hrest⟩
  | group ho hc hfits hinner hrest => exact .inr ⟨ho, _, _, _, rfl, hc, hfits, hinner, hrest⟩

/-- **A delimiter is closed in one place only**: behind level leaves, by the first that
    closes. -/
theorem Paired.unique (h : Level leaves) {leaves' more more' : List Leaf} (h' : Level leaves')
    {closer closer' : Leaf} (hc : closer.kind.isCloser = true)
    (hc' : closer'.kind.isCloser = true)
    (heq : leaves ++ closer :: more = leaves' ++ closer' :: more') :
    leaves = leaves' ∧ closer = closer' ∧ more = more' := by
  induction h generalizing leaves' more more' closer closer' with
  -- both begin with the same leaf, so they begin by the same rule
  | nil =>
    cases h' with
    | nil => exact ⟨rfl, List.cons.inj heq⟩
    | plain hplain _ =>
      obtain ⟨rfl, -⟩ := List.cons.inj heq
      rw [isCloser_of_plain hplain] at hc
      exact Bool.noConfusion hc
    | group ho _ _ _ _ =>
      obtain ⟨rfl, -⟩ := List.cons.inj heq
      exact (not_opener_closer ho hc).elim
  | plain hplain _ ih =>
    cases h' with
    | nil =>
      obtain ⟨rfl, -⟩ := List.cons.inj heq
      rw [isCloser_of_plain hplain] at hc'
      exact Bool.noConfusion hc'
    | plain _ hrest' =>
      obtain ⟨rfl, htail⟩ := List.cons.inj heq
      obtain ⟨rfl, hmore⟩ := ih hrest' hc hc' htail
      exact ⟨rfl, hmore⟩
    | group ho _ _ _ _ =>
      obtain ⟨rfl, -⟩ := List.cons.inj heq
      rw [isOpener_of_plain hplain] at ho
      exact Bool.noConfusion ho
  | group ho hin _ _ _ ih ih' =>
    cases h' with
    | nil =>
      obtain ⟨rfl, -⟩ := List.cons.inj heq
      exact (not_opener_closer ho hc').elim
    | plain hplain' _ =>
      obtain ⟨rfl, -⟩ := List.cons.inj heq
      rw [isOpener_of_plain hplain'] at ho
      exact Bool.noConfusion ho
    | group _ hin' _ hinner' hrest' =>
      simp only [List.cons_append, List.append_assoc, List.cons.injEq] at heq
      obtain ⟨rfl, htail⟩ := heq
      -- the inner leaves are the same, then their closers, and then the rest
      obtain ⟨rfl, rfl, hlast⟩ := ih hinner' hin hin' htail
      obtain ⟨rfl, hmore⟩ := ih' hrest' hc hc' hlast
      exact ⟨rfl, hmore⟩

/-- **Level leaves are cut off** without tearing a pair apart. -/
theorem Level.paired_append_iff (h : Level leaves) :
    Paired fits (leaves ++ rest) ↔ Paired fits leaves ∧ Paired fits rest := by
  refine ⟨fun hall => ?_, fun hboth => hboth.1.append hboth.2⟩
  induction h with
  | nil => exact ⟨.nil, hall⟩
  | plain hplain _ ih =>
    rcases hall.cases_cons with ⟨-, hmore⟩ | ⟨ho, -⟩
    · obtain ⟨hfirst, hlast⟩ := ih hmore
      exact ⟨.plain hplain hfirst, hlast⟩
    · rw [isOpener_of_plain hplain] at ho
      exact Bool.noConfusion ho
  | group ho hc _ hinner _ _ ih =>
    rw [List.cons_append, List.append_assoc, List.cons_append] at hall
    rcases hall.cases_cons with ⟨hplain, -⟩
      | ⟨-, inner', closer', more, heq, hc', hfits, hin, hmore⟩
    · rw [isOpener_of_plain hplain] at ho
      exact Bool.noConfusion ho
    -- both readings close the group at the same place, so it lies in the first part
    · obtain ⟨rfl, rfl, rfl⟩ := Paired.unique hinner hin.level hc hc' heq
      obtain ⟨hfirst, hlast⟩ := ih hmore
      exact ⟨.group ho hc hfits hin hfirst, hlast⟩

/-- A pair around level leaves. -/
theorem Level.paired_enclosed_iff (h : Level inner) (ho : opener.kind.isOpener = true)
    (hc : closer.kind.isCloser = true) :
    Paired fits (opener :: (inner ++ [closer]))
      ↔ fits opener.kind closer.kind ∧ Paired fits inner := by
  refine ⟨fun hall => ?_, fun hboth => hboth.2.enclose ho hc hboth.1⟩
  rcases hall.cases_cons with ⟨hplain, -⟩ | ⟨-, inner', closer', more, heq, hc', hfits, hin, -⟩
  · rw [isOpener_of_plain hplain] at ho
    exact Bool.noConfusion ho
  · obtain ⟨rfl, rfl, -⟩ := Paired.unique h hin.level hc hc' heq
    exact ⟨hfits, hin⟩

end Paired

/-! ## §2. What is left to be closed -/

/-- What is closed is an opener, and its counterpart closes. -/
theorem closer?_isCloser {kind closer : TokenKind} (h : kind.closer? = some closer) :
    kind.isOpener = true ∧ closer.isCloser = true := by
  cases kind <;> simp [TokenKind.closer?] at h <;> subst h <;> exact ⟨rfl, rfl⟩

/-- Only openers have a counterpart. -/
theorem closer?_eq_none {kind : TokenKind} : kind.closer? = none ↔ kind.isOpener = false := by
  cases kind <;> simp [TokenKind.closer?, TokenKind.isOpener]

/-- Every opener has a counterpart. -/
theorem exists_closer? {kind : TokenKind} (h : kind.isOpener = true) :
    ∃ closer, kind.closer? = some closer := by
  apply Option.ne_none_iff_exists'.mp
  intro hnone
  rw [closer?_eq_none.mp hnone] at h
  exact Bool.noConfusion h

/-- The delimiters left to be closed behind the leaves. -/
def nestAll (pending : List TokenKind) (leaves : List Leaf) :
    Except ParseFault (List TokenKind) :=
  leaves.foldlM (fun pending leaf => nest pending leaf.kind) pending

/-- What is no delimiter leaves pending what was. -/
theorem nest_plain {kind : TokenKind} (h : kind.isDelimiter = false) (pending : List TokenKind) :
    nest pending kind = .ok pending := by
  unfold TokenKind.isDelimiter at h
  obtain ⟨ho, hc⟩ := Bool.or_eq_false_iff.mp h
  unfold nest
  rw [closer?_eq_none.mpr ho, hc]
  rfl

/-- An opener has its counterpart pending before all others. -/
theorem nest_opener {kind closer : TokenKind} (h : kind.closer? = some closer)
    (pending : List TokenKind) : nest pending kind = .ok (closer :: pending) := by
  unfold nest
  rw [h]

/-- The counterpart of the last opener closes it. -/
theorem nest_closer {kind : TokenKind} (h : kind.isCloser = true) (pending : List TokenKind) :
    nest (kind :: pending) kind = .ok pending := by
  have hnone : kind.closer? = none := closer?_eq_none.mpr <| by
    cases ho : kind.isOpener with
    | false => rfl
    | true => exact (not_opener_closer ho h).elim
  unfold nest
  rw [hnone, h]
  simp

/-- **One leaf** is plain, or opens, or closes what was opened last. -/
theorem nest_ok {kind : TokenKind} {pending pending' : List TokenKind}
    (h : nest pending kind = .ok pending') :
    kind.isDelimiter = false ∧ pending' = pending
      ∨ (∃ closer, kind.closer? = some closer ∧ pending' = closer :: pending)
      ∨ kind.isCloser = true ∧ pending = kind :: pending' := by
  unfold nest at h
  cases hcloser : kind.closer? with
  | some closer =>
    rw [hcloser] at h
    exact .inr (.inl ⟨closer, rfl, (Except.ok.inj h).symm⟩)
  | none =>
    rw [hcloser] at h
    simp only at h
    split at h
    · rename_i hc
      cases pending with
      | nil => simp at h
      | cons expected outer =>
        simp only at h
        split at h
        · rename_i he
          exact .inr (.inr ⟨hc, by rw [he, Except.ok.inj h]⟩)
        · simp at h
    · rename_i hc
      refine .inl ⟨?_, (Except.ok.inj h).symm⟩
      unfold TokenKind.isDelimiter
      rw [closer?_eq_none.mp hcloser, Bool.eq_false_iff.mpr hc]
      rfl

theorem nestAll_cons (pending : List TokenKind) (leaf : Leaf) (leaves : List Leaf) :
    nestAll pending (leaf :: leaves)
      = (nest pending leaf.kind >>= fun pending => nestAll pending leaves) := rfl

/-- Leaves one behind the other. -/
theorem nestAll_append (pending : List TokenKind) (leaves rest : List Leaf) :
    nestAll pending (leaves ++ rest)
      = (nestAll pending leaves >>= fun pending => nestAll pending rest) :=
  List.foldlM_append

/-- Nested leaves leave to be closed what was left before. -/
theorem Nested.nestAll {leaves : List Leaf} (h : Nested leaves) (pending : List TokenKind) :
    nestAll pending leaves = .ok pending := by
  induction h generalizing pending with
  | nil => rfl
  | plain hplain _ ih =>
    rw [nestAll_cons, nest_plain hplain]
    exact ih pending
  | group _ hc hfits _ _ ih ih' =>
    rw [nestAll_cons, nest_opener hfits]
    show Outline.nestAll _ _ = _
    rw [nestAll_append, ih]
    show Outline.nestAll _ _ = _
    rw [nestAll_cons, nest_closer hc]
    exact ih' pending

/-- The leaves close what is pending, one after the other, and end with the last that
    closes. -/
inductive Closing : List TokenKind → List Leaf → Prop where
  | nil : Closing [] []
  | cons {inner rest : List Leaf} {closer : Leaf} {pending : List TokenKind} : Nested inner →
      closer.kind.isCloser = true → Closing pending rest →
      Closing (closer.kind :: pending) (inner ++ closer :: rest)

/-- Nested leaves in front do not count. -/
theorem Closing.prepend {kind : TokenKind} {pending : List TokenKind} {leaves rest : List Leaf}
    (h : Nested leaves) (hrest : Closing (kind :: pending) rest) :
    Closing (kind :: pending) (leaves ++ rest) := by
  cases hrest with
  | cons hinner hc hmore =>
    rw [← List.append_assoc]
    exact .cons (h.append hinner) hc hmore

/-- What closes an opener and all that was open before it, cut behind the counterpart of the
    opener. -/
theorem Nested.closing {kind : TokenKind} {opener : Leaf} {pending : List TokenKind}
    {leaves : List Leaf} (h : opener.kind.closer? = some kind)
    (hrest : Closing (kind :: pending) leaves) :
    ∃ group rest, leaves = group ++ rest ∧ Nested (opener :: group) ∧ Closing pending rest := by
  cases hrest with
  | @cons inner rest closer _ hinner hc hmore =>
    have hnested : Nested (opener :: (inner ++ [closer])) :=
      hinner.enclose (closer?_isCloser h).1 hc h
    exact ⟨inner ++ [closer], rest, by simp, hnested, hmore⟩

/-- **Leaves that leave nothing to be closed** close what was pending, and nested leaves
    follow. -/
theorem closing_of_nestAll {pending : List TokenKind} {leaves : List Leaf}
    (h : nestAll pending leaves = .ok []) :
    ∃ first rest, leaves = first ++ rest ∧ Closing pending first ∧ Nested rest := by
  induction leaves generalizing pending with
  | nil =>
    obtain rfl : pending = [] := Except.ok.inj h
    exact ⟨[], [], rfl, .nil, .nil⟩
  | cons leaf leaves ih =>
    rw [nestAll_cons] at h
    obtain ⟨pending', hstep, h⟩ := Step.except_bind_ok.mp h
    obtain ⟨first, rest, rfl, hfirst, hrest⟩ := ih h
    -- nested leaves come before what closes, or before the nested rest
    have hfront : ∀ group first : List Leaf, Nested group → Closing pending first →
        ∃ first' rest', group ++ (first ++ rest) = first' ++ rest' ∧ Closing pending first'
          ∧ Nested rest' := by
      intro group first hgroup hclosing
      cases pending with
      | nil =>
        cases hclosing
        exact ⟨[], group ++ rest, rfl, .nil, hgroup.append hrest⟩
      | cons kind pending =>
        exact ⟨group ++ first, rest, by simp, hclosing.prepend hgroup, hrest⟩
    rcases nest_ok hstep with ⟨hplain, rfl⟩ | ⟨closer, hcloser, rfl⟩ | ⟨hc, rfl⟩
    · exact hfront [leaf] first (.plain hplain .nil) hfirst
    · obtain ⟨group, first, rfl, hgroup, hfirst⟩ := Nested.closing hcloser hfirst
      simpa using hfront _ first hgroup hfirst
    · exact ⟨[] ++ leaf :: first, rest, rfl, .cons .nil hc hfirst, hrest⟩

/-- **Nested leaves** are those that leave nothing to be closed. -/
theorem nested_iff {leaves : List Leaf} : Nested leaves ↔ nestAll [] leaves = .ok [] := by
  refine ⟨fun h => h.nestAll [], fun h => ?_⟩
  obtain ⟨first, rest, rfl, hfirst, hrest⟩ := closing_of_nestAll h
  cases hfirst
  exact hrest

/-! ## §3. Readings that pass over nested leaves -/

/-- One delimiter, its counterpart and nested leaves between them. -/
def Group (leaves : List Leaf) : Prop :=
  ∃ opener inner closer, leaves = opener :: (inner ++ [closer])
    ∧ opener.kind.closer? = some closer.kind ∧ Nested inner

/-- A group is nested. -/
theorem Group.nested {leaves : List Leaf} (h : Group leaves) : Nested leaves := by
  obtain ⟨opener, inner, closer, rfl, hcloser, hinner⟩ := h
  have hkinds := closer?_isCloser hcloser
  exact hinner.enclose hkinds.1 hkinds.2 hcloser

/-- A reading keeps a list of the delimiters left to be closed while there are any, and is not
    `good` when the leaves run out or a delimiter does not fit. -/
structure Nests {ρ : Type} (read : List TokenKind → Option Leaf → List Leaf → ρ)
    (good : ρ → Prop) : Prop where
  finish : ∀ {kind pending last?}, ¬ good (read (kind :: pending) last? [])
  step : ∀ {kind pending last? leaf rest kind' pending'},
    nest (kind :: pending) leaf.kind = .ok (kind' :: pending') →
    read (kind :: pending) last? (leaf :: rest) = read (kind' :: pending') (some leaf) rest
  stuck : ∀ {kind pending last? leaf rest fault},
    nest (kind :: pending) leaf.kind = .error fault →
    ¬ good (read (kind :: pending) last? (leaf :: rest))

section Nests

variable {ρ : Type} {read : List TokenKind → Option Leaf → List Leaf → ρ} {good : ρ → Prop}

/-- The leaf read last, behind some more. -/
theorem getLast?_cons_or (leaf : Leaf) (leaves : List Leaf) (last? : Option Leaf) :
    (leaf :: leaves).getLast?.or last? = leaves.getLast?.or (some leaf) := by
  cases leaves with
  | nil => rfl
  | cons head tail =>
    rw [List.getLast?_cons_cons]
    simp [List.getLast?_eq_some_getLast]

/-- **Nested leaves** are passed over. -/
theorem Nests.pass (h : Nests read good) {leaves : List Leaf} (hnested : Nested leaves)
    (kind : TokenKind) (pending : List TokenKind) (last? : Option Leaf) (rest : List Leaf) :
    read (kind :: pending) last? (leaves ++ rest)
      = read (kind :: pending) (leaves.getLast?.or last?) rest := by
  induction hnested generalizing kind pending last? rest with
  | nil => rfl
  | plain hplain _ ih =>
    rw [List.cons_append, h.step (nest_plain hplain _), ih, getLast?_cons_or]
  | @group opener closer inner more _ hc hfits _ _ ih ih' =>
    rw [List.cons_append, List.append_assoc, List.cons_append, h.step (nest_opener hfits _), ih,
      h.step (nest_closer hc _), ih']
    rw [getLast?_cons_or opener, List.getLast?_append, Option.or_assoc, getLast?_cons_or closer]

/-- **A reading that goes well** takes nested leaves and the delimiter that closes behind
    them. -/
theorem Nests.closes (h : Nests read good) {leaves : List Leaf} {kind : TokenKind}
    {pending : List TokenKind} {last? : Option Leaf}
    (hgood : good (read (kind :: pending) last? leaves)) :
    ∃ inner closer rest, leaves = inner ++ closer :: rest ∧ Nested inner
      ∧ closer.kind.isCloser = true ∧ closer.kind = kind
      ∧ good (read (kind :: pending) (inner.getLast?.or last?) (closer :: rest)) := by
  -- by the number of leaves ahead, since behind a group the reading goes on further to the right
  induction hlen : leaves.length using Nat.strongRecOn
    generalizing leaves kind pending last? with
  | _ n ih =>
    subst hlen
    cases leaves with
    | nil => exact absurd hgood h.finish
    | cons leaf rest =>
      -- nested leaves were passed, and the reading goes on behind them
      have honward : ∀ group more, leaf :: rest = group ++ more → group ≠ [] → Nested group →
          ∃ inner closer rest', leaf :: rest = inner ++ closer :: rest' ∧ Nested inner
            ∧ closer.kind.isCloser = true ∧ closer.kind = kind
            ∧ good (read (kind :: pending) (inner.getLast?.or last?) (closer :: rest')) := by
        intro group more hsplit hne hgroup
        rw [hsplit, h.pass hgroup] at hgood
        have hlt : more.length < (leaf :: rest).length := by
          rw [hsplit, List.length_append]
          have := List.length_pos_iff.mpr hne
          omega
        obtain ⟨inner, closer, rest', rfl, hinner, hc, hk, hmore⟩ := ih _ hlt hgood rfl
        refine ⟨group ++ inner, closer, rest', by rw [hsplit]; simp, hgroup.append hinner, hc, hk,
          ?_⟩
        rwa [List.getLast?_append, Option.or_assoc]
      cases hstep : nest (kind :: pending) leaf.kind with
      | error fault => exact absurd hgood (h.stuck hstep)
      | ok pending' =>
        rcases nest_ok hstep with ⟨hplain, -⟩ | ⟨closer, hcloser, rfl⟩ | ⟨hc, heq⟩
        · exact honward [leaf] rest rfl (by simp) (.plain hplain .nil)
        · rw [h.step hstep] at hgood
          obtain ⟨inner, last, more, rfl, hinner, hc, rfl, -⟩ := ih _ (Nat.lt_succ_self _) hgood rfl
          refine honward (leaf :: (inner ++ [last])) more (by simp) (by simp) ?_
          exact hinner.enclose (closer?_isCloser hcloser).1 hc hcloser
        · obtain ⟨rfl, -⟩ := List.cons.inj heq
          exact ⟨[], leaf, rest, rfl, .nil, hc, rfl, hgood⟩

end Nests

/-- Reading a group goes well when it ends. -/
theorem nests_groupFrom (opened : Nat) :
    Nests (groupFrom opened) fun result => ∃ feed', result = .ok () feed' where
  finish := by
    rintro kind pending last? ⟨feed', h⟩
    unfold groupFrom at h
    exact failAtEnd_ne_ok h
  step := by
    intro kind pending last? leaf rest kind' pending' h
    conv_lhs => unfold groupFrom
    rw [h]
  stuck := by
    rintro kind pending last? leaf rest fault h ⟨feed', hok⟩
    unfold groupFrom at hok
    rw [h] at hok
    simp at hok

/-- A group ends with the counterpart of its opener. -/
theorem groupFrom_closer {opened : Nat} {last? : Option Leaf} {closer : Leaf} {rest : List Leaf}
    (h : closer.kind.isCloser = true) :
    groupFrom opened [closer.kind] last? (closer :: rest)
      = .ok () { rest, last? := some closer, opened } := by
  unfold groupFrom
  rw [nest_closer h]

/-- **Reading one group** takes a group, when a delimiter that opens is next. -/
theorem skipGroup_group {feed feed' : Feed} {opener : Leaf} {rest : List Leaf}
    (hrest : feed.rest = opener :: rest) (ho : opener.kind.isOpener = true)
    (h : skipGroup feed = .ok () feed') :
    ∃ leaves, Group leaves ∧ leaves.head? = some opener ∧ Consumed feed feed' leaves 0 := by
  obtain ⟨kind, hkind⟩ := exists_closer? ho
  unfold skipGroup at h
  rw [hrest] at h
  unfold groupFrom at h
  rw [nest_opener hkind] at h
  dsimp only at h
  obtain ⟨inner, closer, more, rfl, hinner, hc, rfl, feed'', hclose⟩ :=
    (nests_groupFrom feed.opened).closes ⟨feed', h⟩
  rw [(nests_groupFrom feed.opened).pass hinner, groupFrom_closer hc] at h
  obtain ⟨-, rfl⟩ := EStateM.Result.ok.inj h
  refine ⟨opener :: (inner ++ [closer]), ⟨opener, inner, closer, rfl, hkind, hinner⟩, rfl, ?_, ?_,
    rfl⟩
  · rw [hrest]
    simp
  · simp [List.getLast?_cons]

/-- **A group ahead** is read. -/
theorem skipGroup_of_group {feed : Feed} {leaves rest : List Leaf} (h : Group leaves)
    (hrest : feed.rest = leaves ++ rest) :
    ∃ feed', skipGroup feed = .ok () feed' ∧ Consumed feed feed' leaves 0 := by
  obtain ⟨opener, inner, closer, rfl, hcloser, hinner⟩ := h
  have hc := (closer?_isCloser hcloser).2
  refine ⟨{ rest, last? := some closer, opened := feed.opened }, ?_, hrest, ?_, rfl⟩
  · unfold skipGroup
    rw [hrest, List.cons_append, List.append_assoc]
    unfold groupFrom
    rw [nest_opener hcloser]
    exact ((nests_groupFrom feed.opened).pass hinner ..).trans (groupFrom_closer hc)
  · simp [List.getLast?_cons]

end Outline

end KernelPrep
