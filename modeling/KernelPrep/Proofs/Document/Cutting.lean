/-
  KernelPrep.Proofs.Document.Cutting — replacing tokens under an outline.

  A run of the file is cut out, and another may come in its place.  A node that began in
  the cut now begins with the new run, or with what follows the cut; a node that ended in
  the cut now ends with the new run, or with what precedes the cut.  A node that lay in a
  cut without replacement is gone with everything below it.

  Main definitions:
    * `beginAfter`, `endAfter` — the places of a node after the cut.

  Main statements:
    * `Splice.moved?_places` — the record of a cut moves ranges to these places;
    * `Placed.cut`           — the outline after the cut lies over the new file.
-/
import KernelPrep.Proofs.Document.Layout

namespace KernelPrep

open NodeTree (Below Forest root)

/-! ## §1. Places after a cut -/

/-- Where a node begins after the `cut` tokens from place `start` on were replaced by `put`
    others. -/
def beginAfter (start cut put i : Nat) : Nat :=
  if i < start then i else if i < start + cut then start else i - cut + put

/-- Where a node ends after the `cut` tokens from place `start` on were replaced by `put`
    others. -/
def endAfter (start cut put i : Nat) : Nat :=
  if i < start then i else if i < start + cut then start + put - 1 else i - cut + put

/-- Where a range begins after a cut: before it, at it, or moved by it. -/
theorem beginAfter_cases (start cut put i : Nat) :
    (i < start ∧ beginAfter start cut put i = i)
      ∨ (start ≤ i ∧ i < start + cut ∧ beginAfter start cut put i = start)
      ∨ (start + cut ≤ i ∧ beginAfter start cut put i = i - cut + put) := by
  unfold beginAfter
  split
  · omega
  · split <;> omega

/-- Where a range ends after a cut: before it, at it, or moved by it. -/
theorem endAfter_cases (start cut put i : Nat) :
    (i < start ∧ endAfter start cut put i = i)
      ∨ (start ≤ i ∧ i < start + cut ∧ endAfter start cut put i = start + put - 1)
      ∨ (start + cut ≤ i ∧ endAfter start cut put i = i - cut + put) := by
  unfold endAfter
  split
  · omega
  · split <;> omega

section Places

variable {start cut put i j : Nat}

theorem beginAfter_mono (h : i ≤ j) :
    beginAfter start cut put i ≤ beginAfter start cut put j := by
  have hi := beginAfter_cases start cut put i
  have hj := beginAfter_cases start cut put j
  omega

theorem endAfter_mono (h : i ≤ j) : endAfter start cut put i ≤ endAfter start cut put j := by
  have hi := endAfter_cases start cut put i
  have hj := endAfter_cases start cut put j
  omega

/-- What is not in a cut without replacement still begins before it ends. -/
theorem beginAfter_le_endAfter (h : i ≤ j)
    (hkeep : ¬ (start ≤ i ∧ j < start + cut ∧ put = 0)) :
    beginAfter start cut put i ≤ endAfter start cut put j := by
  have hi := beginAfter_cases start cut put i
  have hj := endAfter_cases start cut put j
  omega

/-- What ends before something else begins still does, unless both reach into the cut. -/
theorem endAfter_lt_beginAfter {begin : Nat} (h : i < j)
    (hkeep : ¬ (start ≤ begin ∧ i < start + cut ∧ put = 0))
    (hapart : put = 0 ∨ ¬ (start ≤ i ∧ j < start + cut)) :
    endAfter start cut put i < beginAfter start cut put j := by
  have hi := endAfter_cases start cut put i
  have hj := beginAfter_cases start cut put j
  omega

end Places

section Lists

variable {before old new after : List TokenId}

/-- The tokens cut are those at the places of the cut. -/
theorem mem_old_iff (hnodup : (before ++ old ++ after).Nodup) {i : Nat} {x : TokenId}
    (hget : (before ++ old ++ after)[i]? = some x) :
    x ∈ old ↔ before.length ≤ i ∧ i < before.length + old.length := by
  constructor
  · intro hmem
    obtain ⟨j, hj, hx⟩ := List.getElem_of_mem hmem
    have hget' : (before ++ old ++ after)[before.length + j]? = some x := by
      rw [List.append_assoc, List.getElem?_append_right (by omega),
        List.getElem?_append_left (by omega)]
      rw [Nat.add_sub_cancel_left]
      exact List.getElem?_eq_some_iff.mpr ⟨hj, hx⟩
    have heq := (List.getElem?_inj (List.getElem?_eq_some_iff.mp hget).1 hnodup).mp
      (hget.trans hget'.symm)
    omega
  · rintro ⟨hle, hlt⟩
    rw [List.append_assoc, List.getElem?_append_right hle,
      List.getElem?_append_left (by omega)] at hget
    exact List.mem_of_getElem? hget

/-- Outside of the cut every token keeps its place, counted from its side. -/
theorem getElem?_splice {i : Nat}
    (hout : i < before.length ∨ before.length + old.length ≤ i) :
    (before ++ new ++ after)[if i < before.length then i else i - old.length + new.length]?
      = (before ++ old ++ after)[i]? := by
  rcases hout with hlt | hge
  · rw [if_pos hlt, List.append_assoc, List.append_assoc, List.getElem?_append_left hlt,
      List.getElem?_append_left hlt]
  · rw [if_neg (by omega), List.getElem?_append_right (by simp; omega),
      List.getElem?_append_right (by simp; omega)]
    congr 1
    simp only [List.length_append]
    omega

/-- Where the first token of a range is after a cut. -/
theorem Splice.moved_first (hnodup : (before ++ old ++ after).Nodup) {new? : Option TokenRange}
    (hnew : TokenList.Supplies new? new) {first : TokenId} {lo : Nat}
    (hfirst : (before ++ old ++ after)[lo]? = some first)
    (hkeep : first ∈ old → new = [] → after ≠ []) :
    ∃ first', (if old.contains first then (new?.map (·.first)).or after.head? else some first)
        = some first'
      ∧ (before ++ new ++ after)[beginAfter before.length old.length new.length lo]?
          = some first' := by
  have hfirstIn := mem_old_iff hnodup hfirst
  by_cases hin : first ∈ old
  -- the first token was cut out: what stands at the cut now is the run, or what was behind
  · have hplace := hfirstIn.mp hin
    rw [if_pos (by simpa using hin)]
    unfold beginAfter
    rw [if_neg (by omega), if_pos (by omega), List.append_assoc,
      List.getElem?_append_right (Nat.le_refl _), Nat.sub_self]
    cases new? with
    | none =>
      obtain rfl : new = [] := hnew
      have hpos := hkeep hin rfl
      exact ⟨after.head hpos, by simp [List.head?_eq_some_head hpos],
        by rw [List.nil_append, ← List.head?_eq_getElem?, List.head?_eq_some_head hpos]⟩
    | some run =>
      refine ⟨run.first, rfl, ?_⟩
      rw [← List.head?_eq_getElem?, List.head?_append, hnew.1]
      rfl
  · rw [if_neg (by simpa using hin)]
    refine ⟨first, rfl, ?_⟩
    -- a first token outside of the cut stays, moved on if it is behind
    have hout : lo < before.length ∨ before.length + old.length ≤ lo := by
      rw [hfirstIn] at hin
      omega
    have hsplice := @getElem?_splice before old new after lo hout
    rw [hfirst] at hsplice
    unfold beginAfter
    by_cases hlt : lo < before.length
    · rw [if_pos hlt] at hsplice ⊢
      exact hsplice
    · rw [if_neg hlt] at hsplice ⊢
      rw [if_neg (by omega)]
      exact hsplice

/-- Where the last token of a range is after a cut. -/
theorem Splice.moved_last (hnodup : (before ++ old ++ after).Nodup) {new? : Option TokenRange}
    (hnew : TokenList.Supplies new? new) {last : TokenId} {hi : Nat}
    (hlast : (before ++ old ++ after)[hi]? = some last)
    (hkeep : last ∈ old → new = [] → before ≠ []) :
    ∃ last', (if old.contains last then (new?.map (·.last)).or before.getLast? else some last)
        = some last'
      ∧ (before ++ new ++ after)[endAfter before.length old.length new.length hi]?
          = some last' := by
  have hlastIn := mem_old_iff hnodup hlast
  by_cases hin : last ∈ old
  · have hplace := hlastIn.mp hin
    rw [if_pos (by simpa using hin)]
    unfold endAfter
    rw [if_neg (by omega), if_pos (by omega)]
    -- what comes to stand right before the rest of the file
    have hlast' : ∀ ids : List TokenId, ids ≠ [] → ids = before ++ new →
        (before ++ new ++ after)[before.length + new.length - 1]? = ids.getLast? := by
      rintro ids hne rfl
      have hpos := List.length_pos_iff.mpr hne
      simp only [List.length_append] at hpos
      rw [List.getElem?_append_left (by simp; omega), List.getLast?_eq_getElem?]
      simp
    cases new? with
    -- nothing took the place: the end moves to the token before the cut
    | none =>
      obtain rfl : new = [] := hnew
      have hpos := hkeep hin rfl
      rw [hlast' before hpos (by simp)]
      exact ⟨before.getLast hpos, by simp [List.getLast?_eq_some_getLast hpos],
        List.getLast?_eq_some_getLast hpos⟩
    -- a run took the place: the end is that of the run
    | some run =>
      have hne : new ≠ [] := by
        intro he
        have := hnew.1
        simp [he] at this
      refine ⟨run.last, rfl, ?_⟩
      rw [hlast' (before ++ new) (by simp [hne]) rfl, List.getLast?_append_of_ne_nil _ hne]
      exact hnew.2
  · rw [if_neg (by simpa using hin)]
    refine ⟨last, rfl, ?_⟩
    -- an end outside of the cut stays, on either side of it
    have hout : hi < before.length ∨ before.length + old.length ≤ hi := by
      rw [hlastIn] at hin
      omega
    have hsplice := @getElem?_splice before old new after hi hout
    rw [hlast] at hsplice
    unfold endAfter
    by_cases hlt : hi < before.length
    · rw [if_pos hlt] at hsplice ⊢
      exact hsplice
    · rw [if_neg hlt] at hsplice ⊢
      rw [if_neg (by omega)]
      exact hsplice

/-- **The record of a cut moves ranges** to the places after it. -/
theorem Splice.moved?_places (hnodup : (before ++ old ++ after).Nodup)
    {new? : Option TokenRange} (hnew : TokenList.Supplies new? new) {range : TokenRange}
    {lo hi : Nat} (hfirst : (before ++ old ++ after)[lo]? = some range.first)
    (hlast : (before ++ old ++ after)[hi]? = some range.last)
    (hkeep : ¬ (before.length ≤ lo ∧ hi < before.length + old.length ∧ new = [])) :
    ∃ range', Splice.moved? ⟨old, new?, before.getLast?, after.head?⟩ range = some range'
      ∧ (before ++ new ++ after)[beginAfter before.length old.length new.length lo]?
          = some range'.first
      ∧ (before ++ new ++ after)[endAfter before.length old.length new.length hi]?
          = some range'.last := by
  have hfirstIn := mem_old_iff hnodup hfirst
  have hlastIn := mem_old_iff hnodup hlast
  obtain ⟨hhi, -⟩ := List.getElem?_eq_some_iff.mp hlast
  have hlen : hi < before.length + old.length + after.length := by
    simpa [Nat.add_assoc] using hhi
  have hafter : range.first ∈ old → new = [] → after ≠ [] := by
    rintro hin hempty rfl
    simp only [List.length_nil] at hlen
    exact hkeep ⟨(hfirstIn.mp hin).1, by omega, hempty⟩
  have hbefore : range.last ∈ old → new = [] → before ≠ [] := by
    rintro hin hempty rfl
    exact hkeep ⟨Nat.zero_le _, (hlastIn.mp hin).2, hempty⟩
  -- the two ends move on their own
  obtain ⟨first, hfirst', hplaceFirst⟩ := Splice.moved_first hnodup hnew hfirst hafter
  obtain ⟨last, hlast', hplaceLast⟩ := Splice.moved_last hnodup hnew hlast hbefore
  refine ⟨⟨first, last⟩, ?_, hplaceFirst, hplaceLast⟩
  unfold Splice.moved?
  have hwhole : ¬ ((old.contains range.first && old.contains range.last && new?.isNone)
      = true) := by
    intro hall
    simp only [Bool.and_eq_true, List.contains_iff_mem, Option.isNone_iff_eq_none] at hall
    obtain ⟨⟨hf, hl⟩, rfl⟩ := hall
    exact hkeep ⟨(hfirstIn.mp hf).1, (hlastIn.mp hl).2, hnew⟩
  simp only [hfirst', hlast']
  rw [if_neg hwhole]

/-- A range that lies in a cut without replacement is gone. -/
theorem Splice.moved?_eq_none (hnodup : (before ++ old ++ after).Nodup)
    {new? : Option TokenRange} (hnew : TokenList.Supplies new? new) {range : TokenRange}
    {lo hi : Nat} (hle : lo ≤ hi) (hfirst : (before ++ old ++ after)[lo]? = some range.first)
    (hlast : (before ++ old ++ after)[hi]? = some range.last)
    (hin : before.length ≤ lo ∧ hi < before.length + old.length ∧ new = []) :
    Splice.moved? ⟨old, new?, before.getLast?, after.head?⟩ range = none := by
  obtain ⟨hlo, hhi, rfl⟩ := hin
  have hf := (mem_old_iff hnodup hfirst).mpr ⟨hlo, by omega⟩
  have hl := (mem_old_iff hnodup hlast).mpr ⟨by omega, hhi⟩
  cases new? with
  | none =>
    unfold Splice.moved?
    simp [hf, hl]
  | some run =>
    have hhead := hnew.1
    simp at hhead

end Lists

/-! ## §2. The outline after a cut -/

section Outline

variable {tree : NodeTree} {kids : NodeId → List NodeId} {lo hi : NodeId → Nat}
  {before old new after : List TokenId} {new? : Option TokenRange}

/-- The node lies in the cut, and nothing comes in its place. -/
def Swallowed (before old new : List TokenId) (lo hi : NodeId → Nat) (id : NodeId) : Prop :=
  before.length ≤ lo id ∧ hi id < before.length + old.length ∧ new = []

/-- When nothing is left of the file, every node was in the cut. -/
theorem Placed.swallowed_of_bare
    (hplaced : Placed tree.tokens? (before ++ old ++ after) kids lo hi) (hold : old ≠ [])
    (hbare : before ++ new ++ after = []) {id : NodeId} (hid : Below kids root id) :
    Swallowed before old new lo hi id := by
  simp only [List.append_eq_nil_iff] at hbare
  obtain ⟨⟨rfl, rfl⟩, rfl⟩ := hbare
  have hnest := hplaced.nested_below Relation.ReflTransGen.refl hid
  have hroot := hplaced.hi_root
  have hcut := List.length_pos_iff.mpr hold
  simp only [List.nil_append, List.append_nil] at hroot
  exact ⟨Nat.zero_le _, by simp only [List.length_nil]; omega, rfl⟩

/-- When something is left of the file, no node of the tree after the cut was in the cut. -/
theorem Placed.not_swallowed
    (hplaced : Placed tree.tokens? (before ++ old ++ after) kids lo hi) (hold : old ≠ [])
    (hne : before ++ new ++ after ≠ []) {id : NodeId}
    (hkeep : id = root ∨ ¬ Swallowed before old new lo hi id) :
    ¬ Swallowed before old new lo hi id := by
  refine hkeep.elim ?_ fun hkeep => hkeep
  -- the root begins and ends with the file
  rintro rfl ⟨hlo, hhi, rfl⟩
  rw [hplaced.lo_root] at hlo
  rw [hplaced.hi_root] at hhi
  have hpos := List.length_pos_iff.mpr hne
  have hcut := List.length_pos_iff.mpr hold
  simp only [List.length_append, List.length_nil] at hhi hpos
  omega

variable (hforest : tree.Forest kids)
  (hplaced : Placed tree.tokens? (before ++ old ++ after) kids lo hi)
  (hnodup : (before ++ old ++ after).Nodup) (hold : old ≠ [])
  (hnew : TokenList.Supplies new? new)

include hplaced hnodup hold hnew

/-- The nodes of the tree that lose their tokens are those in the cut. -/
theorem Placed.emptied_iff {id : NodeId} (hid : Below kids root id) :
    tree.Emptied ⟨old, new?, before.getLast?, after.head?⟩ id
      ↔ Swallowed before old new lo hi id := by
  have hne : before ++ old ++ after ≠ [] := by simp [hold]
  obtain ⟨range, hrange, hfirst, hlast⟩ := hplaced.range hne id hid
  have horder := hplaced.order hne id hid
  constructor
  · rintro ⟨range', hrange', hgone⟩
    rw [hrange] at hrange'
    obtain rfl := Option.some.inj hrange'
    by_contra hkeep
    obtain ⟨range', hmoved, -⟩ := Splice.moved?_places hnodup hnew hfirst hlast hkeep
    rw [hmoved] at hgone
    simp at hgone
  · intro hin
    exact ⟨range, hrange, Splice.moved?_eq_none hnodup hnew horder hfirst hlast hin⟩

include hforest

/-- Of the nodes of the tree the root survives, and those that are not in the cut: a node
    inside one that is in the cut is in the cut itself. -/
theorem Placed.survives_iff {id : NodeId} (hid : Below kids root id) :
    tree.Survives kids ⟨old, new?, before.getLast?, after.head?⟩ id
      ↔ id = root ∨ ¬ Swallowed before old new lo hi id := by
  have hne : before ++ old ++ after ≠ [] := by simp [hold]
  constructor
  · intro hsurvives
    by_cases hroot : id = root
    · exact Or.inl hroot
    · refine Or.inr fun hin => ?_
      have hempty := (hplaced.emptied_iff hnodup hold hnew hid).mpr hin
      exact hsurvives id hempty hroot Relation.ReflTransGen.refl
  · intro hkeep e he hroot hb
    rcases hforest.below_total hid hb with hre | her
    · have hin := (hplaced.emptied_iff hnodup hold hnew hre).mp he
      have hnest := hplaced.nested_below hre hb
      have horder := hplaced.order hne id hid
      rcases hkeep with rfl | hkeep
      · exact hforest.not_below_root hroot hb
      -- it would lie in the cut along with the node above it
      · refine hkeep ⟨?_, ?_, hin.2.2⟩
        · exact Nat.le_trans hin.1 hnest.1
        · exact Nat.lt_of_le_of_lt hnest.2 hin.2.1
    · exact hforest.not_below_root hroot her

/-- The nodes of the tree after the cut are nodes of the tree before it; but for the root none
    of them is in the cut. -/
theorem Placed.below_survivors {id : NodeId}
    (hid : Below (NodeTree.restrict kids
      (tree.Survives kids ⟨old, new?, before.getLast?, after.head?⟩)) root id) :
    Below kids root id ∧ (id = root ∨ ¬ Swallowed before old new lo hi id) := by
  have hid' : Below kids root id :=
    Relation.ReflTransGen.mono (fun _ _ hc => (NodeTree.mem_restrict.mp hc).1) _ _ hid
  refine ⟨hid', ?_⟩
  rcases Relation.ReflTransGen.cases_tail hid with heq | ⟨mid, -, hstep⟩
  · exact Or.inl heq
  · exact (hplaced.survives_iff hforest hnodup hold hnew hid').mp (NodeTree.mem_restrict.mp hstep).2

/-- Children that survive are not in the cut. -/
theorem Placed.child_not_swallowed {parent child : NodeId}
    (hparent : Below (NodeTree.restrict kids
      (tree.Survives kids ⟨old, new?, before.getLast?, after.head?⟩)) root parent)
    (hchild : child ∈ NodeTree.restrict kids
      (tree.Survives kids ⟨old, new?, before.getLast?, after.head?⟩) parent) :
    ¬ Swallowed before old new lo hi child := by
  refine (hplaced.below_survivors hforest hnodup hold hnew (hparent.tail hchild)).2.resolve_left ?_
  exact hforest.child_ne_root (NodeTree.mem_restrict.mp hchild).1

/-- When nothing is left of the file, the root has no range and no children. -/
theorem Placed.cut_bare (hbare : before ++ new ++ after = []) :
    (tree.remap ⟨old, new?, before.getLast?, after.head?⟩).tokens? root = none
      ∧ NodeTree.restrict kids
        (tree.Survives kids ⟨old, new?, before.getLast?, after.head?⟩) root = [] := by
  have hne : before ++ old ++ after ≠ [] := by simp [hold]
  have hroot : Below kids root root := Relation.ReflTransGen.refl
  have hsurvives := fun {id} (hid : Below kids root id) =>
    hplaced.survives_iff hforest hnodup hold hnew hid
  constructor
  · obtain ⟨range, hrange, hfirst, hlast⟩ := hplaced.range hne root hroot
    rw [(NodeTree.Forest.remap hforest hold).tokens root ((hsurvives hroot).mpr (Or.inl rfl)),
      NodeTree.tokens?_movedBy, hrange]
    exact Splice.moved?_eq_none hnodup hnew (hplaced.order hne root hroot) hfirst hlast
      (hplaced.swallowed_of_bare hold hbare hroot)
  · refine NodeTree.restrict_eq_nil fun c hc hs => ?_
    have hcr : Below kids root c := Relation.ReflTransGen.single hc
    rcases (hsurvives hcr).mp hs with rfl | hkeep
    · exact hforest.notMem_self _ hc
    · exact hkeep (hplaced.swallowed_of_bare hold hbare hcr)

/-- A node that is not in the cut has its range where it now begins and ends. -/
theorem Placed.cut_range {id : NodeId} (hid : Below kids root id)
    (hkeep : ¬ Swallowed before old new lo hi id) :
    ∃ range, (tree.remap ⟨old, new?, before.getLast?, after.head?⟩).tokens? id = some range
      ∧ (before ++ new ++ after)[beginAfter before.length old.length new.length (lo id)]?
          = some range.first
      ∧ (before ++ new ++ after)[endAfter before.length old.length new.length (hi id)]?
          = some range.last := by
  have hne : before ++ old ++ after ≠ [] := by simp [hold]
  obtain ⟨range, hrange, hfirst, hlast⟩ := hplaced.range hne id hid
  obtain ⟨range', hmoved, hplaces⟩ := Splice.moved?_places hnodup hnew hfirst hlast hkeep
  refine ⟨range', ?_, hplaces⟩
  have hsurvives := (hplaced.survives_iff hforest hnodup hold hnew hid).mpr (Or.inr hkeep)
  rw [(NodeTree.Forest.remap hforest hold).tokens id hsurvives, NodeTree.tokens?_movedBy, hrange]
  exact hmoved

/-- **The outline after a cut.**  Two siblings may both reach into the cut only if nothing
    comes in its place. -/
theorem Placed.cut
    (hapart : new = [] ∨ ∀ parent, Below kids root parent → (kids parent).Pairwise fun a b =>
      ¬ (before.length ≤ hi a ∧ lo b < before.length + old.length)) :
    Placed (tree.remap ⟨old, new?, before.getLast?, after.head?⟩).tokens?
      (before ++ new ++ after)
      (NodeTree.restrict kids (tree.Survives kids ⟨old, new?, before.getLast?, after.head?⟩))
      (fun id => beginAfter before.length old.length new.length (lo id))
      (fun id => endAfter before.length old.length new.length (hi id)) := by
  have hne : before ++ old ++ after ≠ [] := by simp [hold]
  have hcut : 0 < old.length := List.length_pos_iff.mpr hold
  -- the nodes of the new tree are nodes of the old one that survive
  have hwas := fun {id : NodeId} (hid : Below _ root id) =>
    hplaced.below_survivors hforest hnodup hold hnew hid
  have hempty : new.length = 0 → new = [] := List.length_eq_zero_iff.mp
  constructor
  case bare => exact hplaced.cut_bare hforest hnodup hold hnew
  case lo_root =>
    have hb := beginAfter_cases before.length old.length new.length (lo root)
    have hroot := hplaced.lo_root
    omega
  case hi_root =>
    have he := endAfter_cases before.length old.length new.length (hi root)
    have hroot := hplaced.hi_root
    simp only [List.length_append] at hroot ⊢
    omega
  case order =>
    intro hne' id hid
    obtain ⟨hid', hkeep⟩ := hwas hid
    have hkeep' := hplaced.not_swallowed hold hne' hkeep
    exact beginAfter_le_endAfter (hplaced.order hne id hid')
      fun ⟨hlo, hhi, hnil⟩ => hkeep' ⟨hlo, hhi, hempty hnil⟩
  case range =>
    intro hne' id hid
    obtain ⟨hid', hkeep⟩ := hwas hid
    exact hplaced.cut_range hforest hnodup hold hnew hid'
      (hplaced.not_swallowed hold hne' hkeep)
  case nested =>
    intro parent child hparent hchild
    have hnest := hplaced.nested parent child (hwas hparent).1 (NodeTree.mem_restrict.mp hchild).1
    exact ⟨beginAfter_mono hnest.1, endAfter_mono hnest.2⟩
  case apart =>
    intro parent hparent
    have hboth : (kids parent).Pairwise fun a b => hi a < lo b ∧
        (new = [] ∨ ¬ (before.length ≤ hi a ∧ lo b < before.length + old.length)) := by
      refine (hplaced.apart parent (hwas hparent).1).and ?_
      rcases hapart with hempty | hapart
      · exact List.pairwise_of_forall fun _ _ => Or.inl hempty
      · exact (hapart parent (hwas hparent).1).imp fun hab => Or.inr hab
    refine (hboth.filter _).imp_of_mem fun {a b} ha _ hab => ?_
    have hkeep := hplaced.child_not_swallowed hforest hnodup hold hnew hparent ha
    exact endAfter_lt_beginAfter hab.1
      (fun ⟨hlo, hhi, hnil⟩ => hkeep ⟨hlo, hhi, hempty hnil⟩)
      (hab.2.imp_left fun hnil => by rw [hnil, List.length_nil])

end Outline

end KernelPrep
