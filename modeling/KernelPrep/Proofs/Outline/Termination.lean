/-
  KernelPrep.Proofs.Outline.Termination — reading a file ends.

  The readers of constructs carry a bound on the depth of calls, and the loop over the items of
  a file one on their number.  Neither is ever met: the readers are the only ones that obey the
  rule by which each is made of those that it calls, and no bound is part of the rule.  For a
  call depends only on calls that have less to do, further on in the file or at the same place
  for a smaller construct, so that each cycle of calls takes a leaf.

  Main definitions:
    * `Outline.settled`  — the readers, with the bound that the leaves ahead give;
    * `Outline.Asks`     — the outcome of a call depends on that of another;
    * `Outline.parseAll` — the loop over the items of a file.

  Main statements:
    * `Outline.bounded_concur` — the bound does not matter once it is large enough;
    * `Outline.settled_rule`, `Outline.settled_unique` — the readers are what the rule says;
    * `Outline.took_of_cycle` — every cycle of calls takes a leaf;
    * `TokenList.parse_terminates` — reading a file ends.
-/
import Mathlib.Logic.Relation
import KernelPrep.Proofs.Outline.Leaves
import KernelPrep.Proofs.Outline.Progress

namespace KernelPrep

namespace Outline

/-! ## §1. Readers without a bound -/

/-- The readers, with the bound on the depth of calls that the leaves ahead give. -/
def settled : Readers := fun p feed => Readers.bounded (depthBound feed.rest.length) p feed

theorem cost_lt_depthBound (p : Production) (feed : Feed) :
    Call.cost (p, feed) < depthBound feed.rest.length := by
  have hheight := p.height_le
  show 8 * feed.rest.length + p.height < 8 * (feed.rest.length + 1)
  omega

/-- **The bound does not matter** once it is above what there is to do. -/
theorem bounded_concur {p : Production} {feed : Feed} {depth depth' : Nat}
    (h : Call.cost (p, feed) < depth) (h' : Call.cost (p, feed) < depth') :
    Concur (Readers.bounded depth p feed) (Readers.bounded depth' p feed)
      fun _ feed' => Took (p.least feed) feed feed' := by
  -- by what there is to do, which the bound stays above from one call to the next
  induction hn : Call.cost (p, feed) using Nat.strongRecOn generalizing p feed depth depth' with
  | _ n ih =>
    subst hn
    obtain ⟨d, rfl⟩ : ∃ d, depth = d + 1 := ⟨depth - 1, by omega⟩
    obtain ⟨d', rfl⟩ : ∃ d', depth' = d' + 1 := ⟨depth' - 1, by omega⟩
    obtain ⟨e, hle, he⟩ := Readers.bounded_rule d p
    obtain ⟨e', hle', he'⟩ := Readers.bounded_rule d' p
    rw [he, he']
    apply concur_rule
    intro q feed' hbefore
    have hlt := hbefore.2
    exact ih _ hlt (by omega) (by omega) rfl

/-- A production takes what it should. -/
theorem settled_took {p : Production} {feed feed' : Feed} {a : p.Yield}
    (h : settled p feed = .ok a feed') : Took (p.least feed) feed feed' :=
  (bounded_concur (cost_lt_depthBound p feed) (cost_lt_depthBound p feed)).ok h

/-- **The readers obey the rule**, in which there is no bound. -/
theorem settled_rule (p : Production) (feed : Feed) : settled p feed = settled.rule p feed := by
  have hcost := cost_lt_depthBound p feed
  unfold settled
  obtain ⟨d, hd⟩ : ∃ d, depthBound feed.rest.length = d + 1 :=
    ⟨_, (Nat.succ_pred_eq_of_pos (by omega)).symm⟩
  obtain ⟨e, hle, he⟩ := Readers.bounded_rule d p
  rw [hd] at hcost ⊢
  rw [he]
  -- where there is less to do, both bounds are large enough
  have hless : ConcurBefore (Readers.bounded e) settled (p, feed) := by
    intro q feed' hbefore
    have hlt := hbefore.2
    exact bounded_concur (by omega) (cost_lt_depthBound q feed')
  exact (concur_rule hless).same

/-- **No other readers obey the rule.** -/
theorem settled_unique {r : Readers} (hr : ∀ p feed, r p feed = r.rule p feed) : r = settled := by
  have hall : ∀ n p feed, Call.cost (p, feed) = n → Concur (r p feed) (settled p feed)
      fun _ feed' => Took (p.least feed) feed feed' := by
    intro n
    induction n using Nat.strongRecOn with
    | _ n ih =>
      intro p feed hn
      rw [hr, settled_rule]
      apply concur_rule
      intro q feed' hbefore
      exact ih _ (hn ▸ hbefore.2) q feed' rfl
  funext p feed
  exact (hall _ p feed rfl).same

/-! ## §2. Calls -/

/-- The outcome of the first call depends on that of the second: it is another one for readers
    that differ in the second call alone. -/
def Asks (call call' : Call) : Prop :=
  ∃ r : Readers, (∀ q feed, (q, feed) ≠ call' → r q feed = settled q feed)
    ∧ r.rule call.1 call.2 ≠ settled.rule call.1 call.2

/-- **A call depends only on calls that have less to do.** -/
theorem Asks.before {call call' : Call} (h : Asks call call') : call.Before call' := by
  obtain ⟨r, hsame, hdiffer⟩ := h
  by_contra hnot
  apply hdiffer
  -- readers that differ elsewhere only agree in all calls that have less to do
  have hconcur : ConcurBefore settled r call := by
    intro q feed' hbefore
    rw [hsame q feed' fun he => hnot (he ▸ hbefore)]
    exact Concur.self settled_took
  exact (concur_rule hconcur).same.symm

theorem Call.Before.trans {a b c : Call} (h : a.Before b) (h' : b.Before c) : a.Before c :=
  ⟨h'.1.trans h.1, Nat.lt_trans h'.2 h.2⟩

/-- Calls that lead from one to another, one or more. -/
theorem before_of_transGen {call call' : Call} (h : Relation.TransGen Asks call call') :
    call.Before call' := by
  induction h with
  | single hask => exact hask.before
  | tail _ hask ih => exact ih.trans hask.before

/-- Calls of one production, up to what it is told, are equally high. -/
theorem Production.height_eq {p q : Production} (h : p.ctorIdx = q.ctorIdx) :
    p.height = q.height := by
  cases p <;> cases q <;> first | rfl | exact absurd h (by simp [Production.ctorIdx])

/-- **Every cycle of calls takes a leaf.** -/
theorem took_of_cycle {call call' : Call} (h : Relation.TransGen Asks call call')
    (hsame : call.1.ctorIdx = call'.1.ctorIdx) : Took 1 call.2 call'.2 := by
  obtain ⟨⟨leaves, hleaves⟩, hlt⟩ := before_of_transGen h
  have hheight := Production.height_eq hsame
  refine ⟨leaves, hleaves.symm, ?_⟩
  unfold Call.cost at hlt
  rw [← hleaves, List.length_append] at hlt
  omega

theorem asks_wellFounded : WellFounded fun call' call => Asks call call' := by
  apply Subrelation.wf (r := InvImage (· < ·) Call.cost)
  · intro call' call h
    exact h.before.2
  · exact InvImage.wf _ Nat.lt_wfRel.wf

/-! ## §3. Files -/

/-- An item that was read takes a leaf. -/
theorem item_took {feed feed' : Feed} {child : Skeleton} (hne : feed.rest ≠ [])
    (h : settled .item feed = .ok child feed') : Took 1 feed feed' := by
  have htook := settled_took h
  unfold Production.least at htook
  rwa [List.isEmpty_eq_false_iff.mpr hne] at htook

/-- One item before others. -/
def Parsed.cons (child : Skeleton) (parsed : Parsed) : Parsed :=
  { parsed with items := child :: parsed.items }

/-- One more item, where leaves are ahead. -/
theorem parseFrom_succ (count : Nat) {feed : Feed} (hne : feed.rest ≠ []) :
    parseFrom (count + 1) feed = match settled .item feed with
      | .error error feed' => { opened := feed'.opened, error? := some error }
      | .ok child feed' => .cons child (parseFrom count feed') := by
  conv_lhs => unfold parseFrom
  rw [List.isEmpty_eq_false_iff.mpr hne]
  rfl

/-- As many items as there are leaves are enough. -/
theorem parseFrom_eq {count count' : Nat} {feed : Feed} (h : feed.rest.length ≤ count)
    (h' : feed.rest.length ≤ count') : parseFrom count feed = parseFrom count' feed := by
  induction count generalizing count' feed with
  | zero =>
    have hnil : feed.rest = [] := List.eq_nil_of_length_eq_zero (Nat.le_zero.mp h)
    cases count' with
    | zero => rfl
    | succ count' =>
      unfold parseFrom
      rw [hnil]
      rfl
  | succ count ih =>
    by_cases hnil : feed.rest = []
    · cases count' with
      | zero =>
        unfold parseFrom
        rw [hnil]
        rfl
      | succ count' =>
        unfold parseFrom
        rw [hnil]
        rfl
    · have hpos := List.length_pos_iff.mpr hnil
      obtain ⟨more, rfl⟩ : ∃ more, count' = more + 1 := ⟨count' - 1, by omega⟩
      rw [parseFrom_succ count hnil, parseFrom_succ more hnil]
      cases hitem : settled .item feed with
      | error error feed' => rfl
      | ok child feed' =>
        -- an item takes a leaf, so both bounds still suffice for the leaves behind it
        have hle := (item_took hnil hitem).length_le
        show Parsed.cons child (parseFrom count feed') = .cons child (parseFrom more feed')
        rw [@ih more feed' (by omega) (by omega)]

/-- Read items until the leaves run out. -/
def parseAll (feed : Feed) : Parsed := parseFrom feed.rest.length feed

/-- **The loop over the items** of a file, in which they are not counted. -/
theorem parseAll_eq (feed : Feed) :
    parseAll feed = if feed.rest.isEmpty then { opened := feed.opened }
      else match settled .item feed with
        | .error error feed' => { opened := feed'.opened, error? := some error }
        | .ok child feed' => .cons child (parseAll feed') := by
  by_cases hnil : feed.rest = []
  · unfold parseAll
    rw [hnil]
    rfl
  · rw [List.isEmpty_eq_false_iff.mpr hnil, if_neg Bool.false_ne_true]
    have hpos := List.length_pos_iff.mpr hnil
    obtain ⟨count, hcount⟩ : ∃ count, feed.rest.length = count + 1 :=
      ⟨feed.rest.length - 1, by omega⟩
    conv_lhs => unfold parseAll
    rw [hcount, parseFrom_succ count hnil]
    cases hitem : settled .item feed with
    | error error feed' => rfl
    | ok child feed' =>
      have hle := (item_took hnil hitem).length_le
      show Parsed.cons child (parseFrom count feed') = .cons child (parseFrom _ feed')
      have hcount' : feed'.rest.length ≤ count := by omega
      rw [parseFrom_eq hcount' (Nat.le_refl _)]

/-- **No more items are read than there are leaves.** -/
theorem length_items_le (count : Nat) (feed : Feed) :
    (parseFrom count feed).items.length ≤ feed.rest.length := by
  induction count generalizing feed with
  | zero =>
    unfold parseFrom
    exact Nat.zero_le _
  | succ count ih =>
    by_cases hnil : feed.rest = []
    · unfold parseFrom
      rw [hnil]
      exact Nat.le_refl 0
    · rw [parseFrom_succ count hnil]
      cases hitem : settled .item feed with
      | error error feed' => exact Nat.zero_le _
      | ok child feed' =>
        -- an item reads one leaf at least
        have hle := (item_took hnil hitem).length_le
        have hrest := ih feed'
        show (child :: (parseFrom count feed').items).length ≤ _
        rw [List.length_cons]
        omega

end Outline

open Outline in
/-- **Reading ends.**  The readers of constructs are the only ones that obey the rule by which
    each is made of those that it calls, so the bound on the depth of calls is never met, and the
    loop over the items of a file needs no count of them.  What a reader has done depends only on
    calls that have less to do, so calls go no deeper without end, and a cycle of calls, a loop
    being one, takes a leaf, as does every item; so there are no more items than significant
    tokens. -/
theorem TokenList.parse_terminates {source : String} {list : TokenList}
    (hlex : TokenList.lex source = .ok list) :
    ((∀ p feed, settled p feed = settled.rule p feed)
        ∧ ∀ r : Readers, (∀ p feed, r p feed = r.rule p feed) → r = settled)
      ∧ (∀ p feed a feed', settled p feed = .ok a feed' → Took (p.least feed) feed feed')
      ∧ (WellFounded fun call' call => Asks call call')
      ∧ (∀ call call', Relation.TransGen Asks call call' → call.1.ctorIdx = call'.1.ctorIdx →
          Took 1 call.2 call'.2)
      ∧ (∀ feed, parseAll feed = if feed.rest.isEmpty then { opened := feed.opened }
          else match settled .item feed with
            | .error error feed' => { opened := feed'.opened, error? := some error }
            | .ok child feed' => .cons child (parseAll feed'))
      ∧ Outline.parse list.leaves = parseAll { rest := list.leaves }
      ∧ (Outline.parse list.leaves).items.length
        ≤ (list.ids.filter list.isSignificant).length := by
  have hthreaded := (TokenList.lex_unedited hlex).wellFormed.threaded
  refine ⟨⟨settled_rule, fun r hr => settled_unique hr⟩, fun p feed a feed' => settled_took,
    asks_wellFounded, fun call call' => took_of_cycle, parseAll_eq, rfl, ?_⟩
  rw [← TokenList.leaves_ids hthreaded, List.length_map]
  exact length_items_le _ _

open Outline in
/-- A file that no outline is read from: reading ends there, too. -/
theorem TokenList.parse_terminates_unclosed :
    ∃ list, TokenList.lex "extern \"C\" \x7b int f(int a;" = .ok list
      ∧ (Outline.parse list.leaves).error?.isSome = true
      ∧ (Outline.parse list.leaves).items.length
        ≤ (list.ids.filter list.isSignificant).length := by
  have heval : (TokenList.lex "extern \"C\" \x7b int f(int a;").toOption.map
      (fun list => (Outline.parse list.leaves).error?.isSome) = some true := by decide +kernel
  obtain ⟨list, hlex, herror⟩ := Step.toOption_map_eq_some.mp heval
  obtain ⟨-, -, -, -, -, -, hle⟩ := TokenList.parse_terminates hlex
  exact ⟨list, hlex, herror, hle⟩

end KernelPrep
