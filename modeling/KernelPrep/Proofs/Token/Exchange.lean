/-
  KernelPrep.Proofs.Token.Exchange — what a run in place of another does to the file.

  A change sets four links at the borders, the two ends of the file and its count, one by
  one; and a run that is linked in may be the middle of a longer one whose outer links stay
  as they were.  Yet from outside it is one exchange in a sequence: of `front ++ old ++ back`
  the stretch `old` gives way to `new`.  The record of the change says so exactly, and the
  outline follows it blindly.

  Main definitions:
    * `TokenList.Exchanged` — a stretch of the file gave way to a run, and nothing else
      happened.

  Main statement: `TokenList.WellFormed.exchange_exact` — replacing and inserting go through
  on runs, do just this exchange and report it.
-/
import KernelPrep.Proofs.Token.Checking

namespace KernelPrep.TokenList

/-! ## §1. Seen from outside -/

/-- In `list'`, whose file is `front ++ new ++ back`, the run `new` stands where `old` stood in
    `list`.  The tokens of `old` are destroyed; every other token shows what it did. -/
structure Exchanged (list list' : TokenList) (front old new back : List TokenId) : Prop where
  ids : list'.ids = front ++ new ++ back
  length : list'.length + old.length = list.length + new.length
  text : list'.text = String.join (front.map list.textOf) ++ String.join (new.map list.textOf)
    ++ String.join (back.map list.textOf)
  destroyed : ∀ x, list'.get? x = none ↔ list.get? x = none ∨ x ∈ old
  unchanged : ∀ x, x ∉ old → list'.kind? x = list.kind? x ∧ list'.textOf x = list.textOf x
    ∧ list'.lineOf x = list.lineOf x ∧ list'.content? x = list.content? x
  wellFormed : list'.WellFormed

variable {list list' : TokenList} {front old new back : List TokenId}

theorem face?_eq_none {id : TokenId} : list.face? id = none ↔ list.get? id = none := by
  unfold face?
  exact Option.map_eq_none_iff

/-- A splice, seen from outside. -/
theorem Spliced.exchanged (h : Spliced list list' front old new back) :
    Exchanged list list' front old new back := by
  -- No token of the new file was cut out, so each shows what it showed before.
  have hout : ∀ x ∈ front ++ new ++ back, x ∉ old := by
    intro x hx hold
    obtain ⟨token, htoken, -⟩ := h.now.get?_of_mem hx
    rw [h.gone x hold] at htoken
    simp at htoken
  have htext : (front ++ new ++ back).map list'.textOf = (front ++ new ++ back).map list.textOf :=
    List.map_congr_left fun x hx => by
      exact textOf_congr (h.face x (hout x hx))
  refine ⟨h.now.ids_eq, ?_, ?_, fun x => ?_, fun x hx => ?_, h.now.wellFormed h.loose⟩
  · have hwas := h.was.length
    have hnow := h.now.length
    simp only [List.length_append] at hwas hnow
    omega
  · unfold text
    rw [h.now.ids_eq, htext, List.map_append, List.map_append, String.join_append,
      String.join_append]
  · by_cases hx : x ∈ old
    · simp [hx, h.gone x hx]
    · rw [← face?_eq_none, h.face x hx, face?_eq_none]
      simp [hx]
  · rw [kind?_congr (h.face x hx), textOf_congr (h.face x hx), lineOf_eq_face?, lineOf_eq_face?,
      content?_eq_face?, content?_eq_face?, h.face x hx]
    exact ⟨rfl, rfl, rfl, rfl⟩

/-! ## §2. Changes that go through -/

/-- A checked run takes the place of another one, and the answer names the neighbours. -/
theorem Threaded.replace_eq_ok {range : TokenRange} {new? : Option TokenRange}
    (h : list.Threaded (front ++ old ++ back)) (hends : range.Ends old)
    (hnew : list.walkNew new? = .ok new) :
    list.replace range new?
      = .ok ({ removed := old, inserted? := new?, before? := front.getLast?,
               after? := back.head? }, list.exchange range old new? new) := by
  obtain ⟨hprev, hnext⟩ := h.neighbours hends
  rw [replace_eq, h.walk_eq hends.1 hends.2, hnew, hprev, hnext]
  rfl

/-- A checked run is inserted before its anchor, and the answer names the neighbours. -/
theorem Threaded.insertBefore_eq_ok {anchor : TokenId} {run : TokenRange}
    (h : list.Threaded (front ++ back)) (hanchor : back.head? = some anchor)
    (hwalk : list.walk run false = .ok new) :
    list.insertBefore anchor run
      = .ok ({ removed := [], inserted? := some run, before? := front.getLast?,
               after? := some anchor }, list.linkRun front.getLast? back.head? run new) := by
  obtain ⟨after, rfl⟩ := List.head?_eq_some_iff.mp hanchor
  have hcheck : list.checkLinked anchor = .ok () :=
    checkLinked_resides (h.get?_of_mem (by simp))
  unfold insertBefore
  rw [hcheck, hwalk, h.prev?_eq rfl]
  rfl

/-- A checked run is inserted behind its anchor, and the answer names the neighbours. -/
theorem Threaded.insertAfter_eq_ok {anchor : TokenId} {run : TokenRange}
    (h : list.Threaded (front ++ back)) (hanchor : front.getLast? = some anchor)
    (hwalk : list.walk run false = .ok new) :
    list.insertAfter anchor run
      = .ok ({ removed := [], inserted? := some run, before? := some anchor,
               after? := back.head? }, list.linkRun front.getLast? back.head? run new) := by
  obtain ⟨before, rfl⟩ := List.getLast?_eq_some_iff.mp hanchor
  have hcheck : list.checkLinked anchor = .ok () :=
    checkLinked_resides (h.get?_of_mem (by simp))
  unfold insertAfter
  rw [hcheck, hwalk, h.next?_eq (List.append_assoc before [anchor] back), hanchor]
  rfl

/-- **The exchange, exactly.**  Where the file is `front ++ old ++ back`, replacing `old` by a
    detached run, or by nothing, goes through, exchanges it in the file and reports the tokens
    cut out, the run and both neighbours.  Where `old` is empty, so does inserting a run before
    the first token of `back` or after the last of `front`. -/
theorem WellFormed.exchange_exact (h : list.WellFormed) (hids : list.ids = front ++ old ++ back) :
    (∀ range new? new, range.Ends old → list.Provides new? new →
      ∃ list', Exchanged list list' front old new back
        ∧ list.replace range new?
          = .ok ({ removed := old, inserted? := new?,
                   before? := front.getLast?, after? := back.head? }, list'))
    ∧ (old = [] → ∀ run new, list.IsRun false run new →
      (∀ anchor, back.head? = some anchor →
        ∃ list', Exchanged list list' front [] new back
          ∧ list.insertBefore anchor run
            = .ok ({ removed := [], inserted? := some run,
                     before? := front.getLast?, after? := some anchor }, list'))
      ∧ ∀ anchor, front.getLast? = some anchor →
        ∃ list', Exchanged list list' front [] new back
          ∧ list.insertAfter anchor run
            = .ok ({ removed := [], inserted? := some run,
                     before? := some anchor, after? := back.head? }, list')) := by
  have hthread := h.threaded
  rw [hids] at hthread
  refine ⟨fun range new? new hends hnew => ?_, ?_⟩
  · have hwalkNew := h.walkNew_ok_iff.mpr hnew
    exact ⟨_, (exchange_spliced hthread h.loose hends hwalkNew).2.exchanged,
      hthread.replace_eq_ok hends hwalkNew⟩
  · rintro rfl run new hrun
    rw [List.append_nil] at hthread
    have hwalk := h.walk_ok_iff.mpr hrun
    have hexchanged := (linkRun_spliced hthread h.loose hwalk).2.exchanged
    exact ⟨fun anchor hanchor => ⟨_, hexchanged, hthread.insertBefore_eq_ok hanchor hwalk⟩,
      fun anchor hanchor => ⟨_, hexchanged, hthread.insertAfter_eq_ok hanchor hwalk⟩⟩

/-- The head of the file and the token linked in behind it give way to the end of the run which
    that token came from, whose backward link still leads to it.  The start of that run, whose
    forward link does so too, goes in behind it. -/
theorem WellFormed.exchange_exact_midLinked :
    midLinked.WellFormed
      ∧ midLinked.ids = [] ++ [⟨0⟩, ⟨3⟩] ++ [⟨1⟩]
      ∧ midLinked.IsRun false ⟨⟨4⟩, ⟨4⟩⟩ [⟨4⟩] ∧ midLinked.prev? ⟨4⟩ = some ⟨3⟩
      ∧ (∃ list', Exchanged midLinked list' [] [⟨0⟩, ⟨3⟩] [⟨4⟩] [⟨1⟩]
        ∧ midLinked.replace ⟨⟨0⟩, ⟨3⟩⟩ (some ⟨⟨4⟩, ⟨4⟩⟩)
          = .ok ({ removed := [⟨0⟩, ⟨3⟩], inserted? := some ⟨⟨4⟩, ⟨4⟩⟩,
                   before? := none, after? := some ⟨1⟩ }, list'))
      ∧ midLinked.ids = [⟨0⟩, ⟨3⟩] ++ [] ++ [⟨1⟩]
      ∧ midLinked.IsRun false ⟨⟨2⟩, ⟨2⟩⟩ [⟨2⟩] ∧ midLinked.next? ⟨2⟩ = some ⟨3⟩
      ∧ ∃ list', Exchanged midLinked list' [⟨0⟩, ⟨3⟩] [] [⟨2⟩] [⟨1⟩]
        ∧ midLinked.insertAfter ⟨3⟩ ⟨⟨2⟩, ⟨2⟩⟩
          = .ok ({ removed := [], inserted? := some ⟨⟨2⟩, ⟨2⟩⟩,
                   before? := some ⟨3⟩, after? := some ⟨1⟩ }, list') := by
  have hwf := midLinked_reached.wellFormed
  have hids : midLinked.ids = [] ++ [⟨0⟩, ⟨3⟩] ++ [⟨1⟩] := by decide
  have hids' : midLinked.ids = [⟨0⟩, ⟨3⟩] ++ [] ++ [⟨1⟩] := by decide
  have hend : midLinked.IsRun false ⟨⟨4⟩, ⟨4⟩⟩ [⟨4⟩] := hwf.walk_ok_iff.mp rfl
  have hstart : midLinked.IsRun false ⟨⟨2⟩, ⟨2⟩⟩ [⟨2⟩] := hwf.walk_ok_iff.mp rfl
  exact ⟨hwf, hids, hend, by decide,
    (hwf.exchange_exact hids).1 ⟨⟨0⟩, ⟨3⟩⟩ (some ⟨⟨4⟩, ⟨4⟩⟩) [⟨4⟩] ⟨rfl, rfl⟩ hend,
    hids', hstart, by decide,
    ((hwf.exchange_exact hids').2 rfl ⟨⟨2⟩, ⟨2⟩⟩ [⟨2⟩] hstart).2 ⟨3⟩ rfl⟩

end KernelPrep.TokenList
