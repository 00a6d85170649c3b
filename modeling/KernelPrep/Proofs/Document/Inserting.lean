/-
  KernelPrep.Proofs.Document.Inserting — putting a run into a file as a node of its own.

  A run comes in at one place of the file, and a new node for it comes in among the
  children of another.  What lies behind the place moves on; of the nodes that merely touch
  the place, those above the new node grow around it and the others stay as they are.

  Main definitions:
    * `beginShifted`, `endShifted` — the places of a node after the run came in;
    * `Regrown`                    — its range, grown around the run or as it was.

  Main statements:
    * `Edit.widenAll_spec`   — widening changes ranges up to the first that declines;
    * `Placed.insert`        — the outline with the new node lies over the new file.
-/
import KernelPrep.Document
import KernelPrep.Proofs.Document.Layout

namespace KernelPrep

open NodeTree (Below Forest root)

/-! ## §1. Widening -/

/-- One range set: no other node changes. -/
theorem NodeTree.get?_setTokens (tree : NodeTree) (id x : NodeId) (range? : Option TokenRange) :
    (tree.setTokens id range?).get? x
      = if x = id then (tree.get? x).map fun node => { node with tokens? := range? }
        else tree.get? x :=
  tree.get?_modify id x _

/-- Every other node keeps its range. -/
theorem NodeTree.tokens?_setTokens_of_ne {tree : NodeTree} {id x : NodeId}
    {range? : Option TokenRange} (hne : x ≠ id) :
    (tree.setTokens id range?).tokens? x = tree.tokens? x := by
  unfold tokens?
  rw [get?_setTokens, if_neg hne]

/-- The node has the range that was set. -/
theorem NodeTree.tokens?_setTokens_self {tree : NodeTree} {id : NodeId}
    {old : TokenRange} (range? : Option TokenRange) (hold : tree.tokens? id = some old) :
    (tree.setTokens id range?).tokens? id = range? := by
  unfold tokens? at hold ⊢
  rw [get?_setTokens, if_pos rfl]
  obtain ⟨node, hnode, -⟩ := Option.bind_eq_some_iff.mp hold
  rw [hnode]
  rfl

/-- What a change of ranges leaves alone: the kind and the links of every node. -/
def NodeTree.SameFrame (tree tree' : NodeTree) : Prop :=
  (∀ x, (tree'.get? x).map (fun n => { n with tokens? := none })
    = (tree.get? x).map fun n => { n with tokens? := none })
    ∧ tree'.nodes.size = tree.nodes.size

/-- Setting a range leaves kinds and links alone. -/
theorem NodeTree.sameFrame_setTokens (tree : NodeTree) (id : NodeId)
    (range? : Option TokenRange) : tree.SameFrame (tree.setTokens id range?) := by
  refine ⟨fun x => ?_, tree.size_modify id _⟩
  rw [get?_setTokens]
  split
  · rw [Option.map_map]
    rfl
  · rfl

/-- One change of ranges after another. -/
theorem NodeTree.SameFrame.trans {tree₁ tree₂ tree₃ : NodeTree} (h : tree₁.SameFrame tree₂)
    (h' : tree₂.SameFrame tree₃) : tree₁.SameFrame tree₃ :=
  ⟨fun x => (h'.1 x).trans (h.1 x), h'.2.trans h.2⟩

/-- The kinds are as they were. -/
theorem NodeTree.SameFrame.kind? {tree tree' : NodeTree} (h : tree.SameFrame tree')
    (x : NodeId) : tree'.kind? x = tree.kind? x := by
  have hx := congrArg (Option.map Node.kind) (h.1 x)
  rw [Option.map_map, Option.map_map] at hx
  exact hx

/-- The lists of children are as they were. -/
theorem NodeTree.SameFrame.forest {tree tree' : NodeTree} {kids : NodeId → List NodeId}
    (h : tree.SameFrame tree') (hforest : tree.Forest kids) : tree'.Forest kids := by
  refine hforest.congr fun x => ?_
  have hx := congrArg (Option.map fun n : Node =>
    (n.parent?, n.firstChild?, n.lastChild?, n.nextSibling?)) (h.1 x)
  rw [Option.map_map, Option.map_map] at hx
  exact hx

/-- The parents are as they were. -/
theorem NodeTree.SameFrame.parent? {tree tree' : NodeTree} (h : tree.SameFrame tree')
    (x : NodeId) : tree'.parent? x = tree.parent? x := by
  have hx := congrArg (Option.bind · Node.parent?) (h.1 x)
  rw [Option.bind_map, Option.bind_map] at hx
  exact hx

namespace Edit

/-- Widening touches the ranges of the given nodes only. -/
theorem widenAll_frame (widen : TokenRange → Option TokenRange) (tree : NodeTree)
    (ids : List NodeId) :
    tree.SameFrame (widenAll widen tree ids)
      ∧ ∀ x ∉ ids, (widenAll widen tree ids).tokens? x = tree.tokens? x := by
  induction ids generalizing tree with
  | nil => exact ⟨⟨fun _ => rfl, rfl⟩, fun _ _ => rfl⟩
  | cons id rest ih =>
    rw [widenAll]
    cases (tree.tokens? id).bind widen with
    | none => exact ⟨⟨fun _ => rfl, rfl⟩, fun _ _ => rfl⟩
    | some range =>
      obtain ⟨hframe, hout⟩ := ih (tree.setTokens id (some range))
      refine ⟨(tree.sameFrame_setTokens id (some range)).trans hframe, fun x hx => ?_⟩
      rw [hout x fun hr => hx (List.mem_cons_of_mem _ hr)]
      exact NodeTree.tokens?_setTokens_of_ne (List.ne_of_not_mem_cons hx)

/-- **Widening** goes through the given nodes up to the first whose range declines.  When with
    one node all later ones decline, every node that does not decline is widened. -/
theorem widenAll_spec {widen : TokenRange → Option TokenRange} {tree : NodeTree}
    {ids : List NodeId} (hnodup : ids.Nodup)
    (hdecline : ids.Pairwise fun x y => (tree.tokens? x).bind widen = none →
      (tree.tokens? y).bind widen = none) :
    tree.SameFrame (widenAll widen tree ids) ∧
      (∀ x ∉ ids, (widenAll widen tree ids).tokens? x = tree.tokens? x) ∧
      (∀ x ∈ ids, (widenAll widen tree ids).tokens? x
        = ((tree.tokens? x).bind widen).or (tree.tokens? x)) := by
  obtain ⟨hframe, hout⟩ := widenAll_frame widen tree ids
  refine ⟨hframe, hout, ?_⟩
  clear hframe hout
  induction ids generalizing tree with
  | nil => simp
  | cons id rest ih =>
    obtain ⟨hnot, hnodup'⟩ := List.nodup_cons.mp hnodup
    obtain ⟨hfirst, hdecline'⟩ := List.pairwise_cons.mp hdecline
    intro x hx
    rw [widenAll]
    cases hwiden : (tree.tokens? id).bind widen with
    | none =>
      -- the others decline, too, so that nothing changes at all
      rcases List.mem_cons.mp hx with rfl | hx
      · rw [hwiden]
        rfl
      · rw [hfirst x hx hwiden]
        rfl
    | some range =>
      have hsame : ∀ y ∈ rest, (tree.setTokens id (some range)).tokens? y = tree.tokens? y := by
        intro y hy
        apply NodeTree.tokens?_setTokens_of_ne
        rintro rfl
        exact hnot hy
      have hrest : rest.Pairwise fun y z =>
          ((tree.setTokens id (some range)).tokens? y).bind widen = none →
            ((tree.setTokens id (some range)).tokens? z).bind widen = none := by
        refine hdecline'.imp_of_mem fun {y z} hy hz hyz => ?_
        rw [hsame y hy, hsame z hz]
        exact hyz
      rcases List.mem_cons.mp hx with rfl | hx
      · obtain ⟨old, hold, -⟩ := Option.bind_eq_some_iff.mp hwiden
        obtain ⟨-, hout⟩ := widenAll_frame widen (tree.setTokens x (some range)) rest
        rw [hout x hnot, NodeTree.tokens?_setTokens_self (some range) hold, hwiden]
        rfl
      · rw [ih hnodup' hrest x hx, hsame x hx]

end Edit

/-! ## §2. Places after a run came in -/

open Classical in
/-- Where a node begins after `put` tokens came in at place `start`.  A node above the new one
    that began there takes the new tokens in. -/
noncomputable def beginShifted (start put : Nat) (above : Prop) (i : Nat) : Nat :=
  if i < start ∨ (i = start ∧ above) then i else i + put

open Classical in
/-- Where a node ends after `put` tokens came in at place `start`.  A node above the new one
    that ended right before takes the new tokens in. -/
noncomputable def endShifted (start put : Nat) (above : Prop) (i : Nat) : Nat :=
  if start ≤ i ∨ (i + 1 = start ∧ above) then i + put else i

section Shifted

variable {start put i : Nat} {above : Prop}

/-- A node above the new one that begins at the place begins with the run. -/
theorem beginShifted_of_above (h : above) :
    (i ≤ start ∧ beginShifted start put above i = i)
      ∨ (start < i ∧ beginShifted start put above i = i + put) := by
  unfold beginShifted
  simp only [h, and_true]
  split <;> omega

/-- Any other node that begins at the place begins behind the run. -/
theorem beginShifted_of_not (h : ¬ above) :
    (i < start ∧ beginShifted start put above i = i)
      ∨ (start ≤ i ∧ beginShifted start put above i = i + put) := by
  unfold beginShifted
  simp only [h, and_false, or_false]
  split <;> omega

/-- A node above the new one that ends right before the place ends with the run. -/
theorem endShifted_of_above (h : above) :
    (start ≤ i + 1 ∧ endShifted start put above i = i + put)
      ∨ (i + 1 < start ∧ endShifted start put above i = i) := by
  unfold endShifted
  simp only [h, and_true]
  split <;> omega

/-- Any other node that ends right before the place ends where it did. -/
theorem endShifted_of_not (h : ¬ above) :
    (start ≤ i ∧ endShifted start put above i = i + put)
      ∨ (i < start ∧ endShifted start put above i = i) := by
  unfold endShifted
  simp only [h, and_false, or_false]
  split <;> omega

/-- A node that was not empty is not empty. -/
theorem beginShifted_le_endShifted {j : Nat} (hle : i ≤ j) :
    beginShifted start put above i ≤ endShifted start put above j := by
  by_cases ha : above
  · have hb := @beginShifted_of_above start put i _ ha
    have he := @endShifted_of_above start put j _ ha
    omega
  · have hb := @beginShifted_of_not start put i _ ha
    have he := @endShifted_of_not start put j _ ha
    omega

/-- What begins inside of a node goes on doing so.  What is above a child is above its parent
    too. -/
theorem beginShifted_mono {j : Nat} {above' : Prop} (hle : i ≤ j) (habove : above' → above) :
    beginShifted start put above i ≤ beginShifted start put above' j := by
  by_cases ha' : above'
  · have hb := @beginShifted_of_above start put i _ (habove ha')
    have hb' := @beginShifted_of_above start put j _ ha'
    omega
  · have hb' := @beginShifted_of_not start put j _ ha'
    by_cases ha : above
    · have hb := @beginShifted_of_above start put i _ ha
      omega
    · have hb := @beginShifted_of_not start put i _ ha
      omega

/-- What ends inside of a node goes on doing so. -/
theorem endShifted_mono {j : Nat} {above' : Prop} (hle : i ≤ j) (habove : above → above') :
    endShifted start put above i ≤ endShifted start put above' j := by
  by_cases ha : above
  · have he := @endShifted_of_above start put i _ ha
    have he' := @endShifted_of_above start put j _ (habove ha)
    omega
  · have he := @endShifted_of_not start put i _ ha
    by_cases ha' : above'
    · have he' := @endShifted_of_above start put j _ ha'
      omega
    · have he' := @endShifted_of_not start put j _ ha'
      omega

/-- Of two nodes behind each other at most one is above the new one, and they stay apart. -/
theorem endShifted_lt_beginShifted {j : Nat} {above' : Prop} (hlt : i < j)
    (hnot : above → ¬ above') :
    endShifted start put above i < beginShifted start put above' j := by
  by_cases ha : above
  · have he := @endShifted_of_above start put i _ ha
    have hb := @beginShifted_of_not start put j _ (hnot ha)
    omega
  · have he := @endShifted_of_not start put i _ ha
    by_cases ha' : above'
    · have hb := @beginShifted_of_above start put j _ ha'
      omega
    · have hb := @beginShifted_of_not start put j _ ha'
      omega

/-- A node above the new one that begins at the place or before does not begin behind the run. -/
theorem beginShifted_le_start (habove : above) (hle : i ≤ start) :
    beginShifted start put above i ≤ start := by
  have hb := @beginShifted_of_above start put i _ habove
  omega

/-- A node above the new one that reaches up to the place or over it reaches over the run. -/
theorem le_endShifted (habove : above) (hle : start ≤ i + 1) :
    start + put - 1 ≤ endShifted start put above i := by
  have he := @endShifted_of_above start put i _ habove
  omega

end Shifted

/-- A range that begins or ends with the run where it touched the place of the run, and with what
    it did before elsewhere. -/
structure Regrown (run range range' : TokenRange) (atFirst atLast : Prop) : Prop where
  first : atFirst → range'.first = run.first
  first_same : ¬ atFirst → range'.first = range.first
  last : atLast → range'.last = run.last
  last_same : ¬ atLast → range'.last = range.last

/-- A range that did not touch the place is the same. -/
theorem Regrown.same {run range : TokenRange} {atFirst atLast : Prop} (hfirst : ¬ atFirst)
    (hlast : ¬ atLast) : Regrown run range range atFirst atLast :=
  ⟨fun h => absurd h hfirst, fun _ => rfl, fun h => absurd h hlast, fun _ => rfl⟩

section Insert

variable {tree : NodeTree} {kids : NodeId → List NodeId} {lo hi : NodeId → Nat}
  {before new after : List TokenId} {run : TokenRange} {parent node : NodeId}
  {left right : List NodeId} {tokens? : NodeId → Option TokenRange}

/-- Before the place every token stands where it did. -/
theorem getElem?_insert_of_lt {i : Nat} (hlt : i < before.length) :
    (before ++ new ++ after)[i]? = (before ++ after)[i]? := by
  rw [List.append_assoc, List.getElem?_append_left hlt, List.getElem?_append_left hlt]

/-- Behind the place every token has moved on. -/
theorem getElem?_insert_of_le {i : Nat} (hle : before.length ≤ i) :
    (before ++ new ++ after)[i + new.length]? = (before ++ after)[i]? := by
  rw [List.getElem?_append_right (by simp; omega), List.getElem?_append_right hle]
  congr 1
  simp only [List.length_append]
  omega

/-- The run begins at the place. -/
theorem getElem?_insert_first (hends : run.Ends new) :
    (before ++ new ++ after)[before.length]? = some run.first := by
  rw [List.append_assoc, List.getElem?_append_right (Nat.le_refl _), Nat.sub_self,
    ← List.head?_eq_getElem?, List.head?_append, hends.1]
  rfl

/-- The run ends right before what stood at the place. -/
theorem getElem?_insert_last (hends : run.Ends new) :
    (before ++ new ++ after)[before.length + new.length - 1]? = some run.last := by
  have hne := hends.ne_nil
  have hpos := List.length_pos_iff.mpr hne
  rw [List.getElem?_append_left (by simp; omega)]
  have hlast : (before ++ new).getLast? = some run.last := by
    rw [List.getLast?_append_of_ne_nil _ hne]
    exact hends.2
  rw [List.getLast?_eq_getElem?, List.length_append] at hlast
  exact hlast

/-- A node that did not begin at the place, or is not above the new one, begins with the token it
    began with. -/
theorem getElem?_beginShifted {i : Nat} {above : Prop} (h : ¬ (above ∧ i = before.length)) :
    (before ++ new ++ after)[beginShifted before.length new.length above i]?
      = (before ++ after)[i]? := by
  have hshift : (i < before.length ∧ beginShifted before.length new.length above i = i)
      ∨ (before.length ≤ i
        ∧ beginShifted before.length new.length above i = i + new.length) := by
    by_cases ha : above
    · have hb := @beginShifted_of_above before.length new.length i _ ha
      have hne : i ≠ before.length := fun he => h ⟨ha, he⟩
      omega
    · exact beginShifted_of_not ha
  rcases hshift with ⟨hlt, heq⟩ | ⟨hle, heq⟩
  · rw [heq]
    exact getElem?_insert_of_lt hlt
  · rw [heq]
    exact getElem?_insert_of_le hle

/-- A node that did not end right before the place, or is not above the new one, ends with the
    token it ended with. -/
theorem getElem?_endShifted {i : Nat} {above : Prop} (h : ¬ (above ∧ i + 1 = before.length)) :
    (before ++ new ++ after)[endShifted before.length new.length above i]?
      = (before ++ after)[i]? := by
  have hshift : (before.length ≤ i
        ∧ endShifted before.length new.length above i = i + new.length)
      ∨ (i < before.length ∧ endShifted before.length new.length above i = i) := by
    by_cases ha : above
    · have he := @endShifted_of_above before.length new.length i _ ha
      have hne : i + 1 ≠ before.length := fun he => h ⟨ha, he⟩
      omega
    · exact endShifted_of_not ha
  rcases hshift with ⟨hle, heq⟩ | ⟨hlt, heq⟩
  · rw [heq]
    exact getElem?_insert_of_le hle
  · rw [heq]
    exact getElem?_insert_of_lt hlt

/-- The children once the node is put in. -/
theorem mem_update {p c : NodeId} (hkids : kids parent = left ++ right)
    (hc : c ∈ Function.update kids parent (left ++ node :: right) p) :
    (c = node ∧ p = parent) ∨ c ∈ kids p := by
  by_cases hp : p = parent
  · subst hp
    rw [Function.update_self] at hc
    rw [hkids]
    simp only [List.mem_append, List.mem_cons] at hc ⊢
    tauto
  · rw [Function.update_of_ne hp] at hc
    exact Or.inr hc

/-- The node that came in is the only new one below any node. -/
theorem below_update (hkids : kids parent = left ++ right) (hnode : kids node = [])
    {top id : NodeId}
    (hid : Below (Function.update kids parent (left ++ node :: right)) top id) :
    id = node ∨ Below kids top id := by
  induction hid with
  | refl => exact Or.inr Relation.ReflTransGen.refl
  | tail _ hstep ih =>
    rcases mem_update hkids hstep with ⟨rfl, -⟩ | hchild
    · exact Or.inl rfl
    · rcases ih with rfl | ih
      · rw [hnode] at hchild
        simp at hchild
      · exact Or.inr (ih.tail hchild)

/-- What was below a node still is. -/
theorem Below.update (hkids : kids parent = left ++ right) {top id : NodeId}
    (hid : Below kids top id) :
    Below (Function.update kids parent (left ++ node :: right)) top id := by
  refine Relation.ReflTransGen.mono (fun p c hc => ?_) _ _ hid
  by_cases hp : p = parent
  · subst hp
    rw [hkids] at hc
    rw [Function.update_self]
    simp only [List.mem_append, List.mem_cons] at hc ⊢
    tauto
  · rw [Function.update_of_ne hp]
    exact hc

/-- The range of a node after the run came in. -/
theorem Placed.insert_range (hplaced : Placed tree.tokens? (before ++ after) kids lo hi)
    (hne : before ++ after ≠ []) (hends : run.Ends new) {id : NodeId} (hid : Below kids root id)
    (hrange : ∀ range, tree.tokens? id = some range →
      ∃ range', tokens? id = some range' ∧ Regrown run range range'
        (Below kids id parent ∧ lo id = before.length)
        (Below kids id parent ∧ hi id + 1 = before.length)) :
    ∃ range, tokens? id = some range
      ∧ (before ++ new ++ after)[beginShifted before.length new.length (Below kids id parent)
          (lo id)]? = some range.first
      ∧ (before ++ new ++ after)[endShifted before.length new.length (Below kids id parent)
          (hi id)]? = some range.last := by
  obtain ⟨range, hget, hfirst, hlast⟩ := hplaced.range hne id hid
  obtain ⟨range', hget', hgrown⟩ := hrange range hget
  -- an end moves only where the range borders on the run and is above its parent
  refine ⟨range', hget', ?_, ?_⟩
  · by_cases ha : Below kids id parent ∧ lo id = before.length
    · obtain ⟨hle, heq⟩ | ⟨hlt, -⟩ :=
        @beginShifted_of_above before.length new.length (lo id) _ ha.1
      · rw [heq, ha.2, hgrown.first ha]
        exact getElem?_insert_first hends
      · omega
    · rw [hgrown.first_same ha, ← hfirst]
      exact getElem?_beginShifted ha
  · by_cases ha : Below kids id parent ∧ hi id + 1 = before.length
    · obtain ⟨hle, heq⟩ | ⟨hlt, -⟩ :=
        @endShifted_of_above before.length new.length (hi id) _ ha.1
      · rw [heq, hgrown.last ha, ← getElem?_insert_last hends]
        congr 1
        omega
      · omega
    · rw [hgrown.last_same ha, ← hlast]
      exact getElem?_endShifted ha

/-- The children of a node stay apart when the new one comes in among them. -/
theorem Placed.insert_apart (hforest : tree.Forest kids)
    (hplaced : Placed tree.tokens? (before ++ after) kids lo hi) (hne : before ++ after ≠ [])
    (hkids : kids parent = left ++ right) (hout : ¬ Below kids root node) (hput : 0 < new.length)
    (hleft : ∀ c ∈ left, hi c < before.length) (hright : ∀ c ∈ right, before.length ≤ lo c)
    {p : NodeId} (hp : Below kids root p) :
    (Function.update kids parent (left ++ node :: right) p).Pairwise fun a b =>
      (if a = node then before.length + new.length - 1
        else endShifted before.length new.length (Below kids a parent) (hi a))
      < (if b = node then before.length
        else beginShifted before.length new.length (Below kids b parent) (lo b)) := by
  have hchild : ∀ c ∈ kids p, c ≠ node := by
    rintro c hc rfl
    exact hout (hp.tail hc)
  -- the children there were stay apart: both ends move by the same rule
  have hold : (kids p).Pairwise fun a b =>
      (if a = node then before.length + new.length - 1
        else endShifted before.length new.length (Below kids a parent) (hi a))
      < (if b = node then before.length
        else beginShifted before.length new.length (Below kids b parent) (lo b)) := by
    refine (hplaced.apart p hp).imp_of_mem fun {a b} ha hb hlt => ?_
    rw [if_neg (hchild a ha), if_neg (hchild b hb)]
    refine endShifted_lt_beginShifted hlt (hforest.siblings_disjoint ha hb ?_)
    rintro rfl
    have horder := hplaced.order hne a (hp.tail ha)
    omega
  by_cases hpp : p = parent
  -- the new node comes behind the children on its left and before those on its right
  · subst hpp
    rw [Function.update_self]
    rw [hkids] at hold
    obtain ⟨hl, hr, hlr⟩ := List.pairwise_append.mp hold
    refine List.pairwise_append.mpr ⟨hl, List.pairwise_cons.mpr ⟨?_, hr⟩, ?_⟩
    · intro b hb
      have hmem : b ∈ kids p := by simp [hkids, hb]
      have hnot := hforest.not_below_parent hmem
      have hbg := @beginShifted_of_not before.length new.length (lo b) _ hnot
      have hplace := hright b hb
      rw [if_pos rfl, if_neg (hchild b hmem)]
      omega
    · intro a ha b hb
      rcases List.mem_cons.mp hb with rfl | hb
      · have hmem : a ∈ kids p := by simp [hkids, ha]
        have hnot := hforest.not_below_parent hmem
        have he := @endShifted_of_not before.length new.length (hi a) _ hnot
        have hplace := hleft a ha
        rw [if_neg (hchild a hmem), if_pos rfl]
        omega
      · exact hlr a ha b hb
  · rw [Function.update_of_ne hpp]
    exact hold

/-- The root still reaches from the first token to the last. -/
theorem Placed.insert_root (hplaced : Placed tree.tokens? (before ++ after) kids lo hi)
    (hne : before ++ after ≠ []) (hparent : Below kids root parent) :
    beginShifted before.length new.length (Below kids root parent) (lo root) = 0
      ∧ endShifted before.length new.length (Below kids root parent) (hi root)
        = (before ++ new ++ after).length - 1 := by
  have hlo := hplaced.lo_root
  have hhi := hplaced.hi_root
  have hpos := List.length_pos_iff.mpr hne
  have hb := @beginShifted_of_above before.length new.length (lo root) _ hparent
  have he := @endShifted_of_above before.length new.length (hi root) _ hparent
  simp only [List.length_append] at hhi hpos ⊢
  omega

/-- The children of a node lie inside of it when the new one is among them. -/
theorem Placed.insert_nested (hplaced : Placed tree.tokens? (before ++ after) kids lo hi)
    (hkids : kids parent = left ++ right) (hout : ¬ Below kids root node)
    (hlo : lo parent ≤ before.length) (hhi : before.length ≤ hi parent + 1) {p c : NodeId}
    (hp : Below kids root p) (hc : c ∈ Function.update kids parent (left ++ node :: right) p) :
    beginShifted before.length new.length (Below kids p parent) (lo p)
        ≤ (if c = node then before.length
          else beginShifted before.length new.length (Below kids c parent) (lo c))
      ∧ (if c = node then before.length + new.length - 1
          else endShifted before.length new.length (Below kids c parent) (hi c))
        ≤ endShifted before.length new.length (Below kids p parent) (hi p) := by
  rcases mem_update hkids hc with ⟨rfl, rfl⟩ | hchild
  · -- the new node lies at the place, which is inside its parent
    have hself : Below kids p p := Relation.ReflTransGen.refl
    rw [if_pos rfl, if_pos rfl]
    exact ⟨beginShifted_le_start hself hlo, le_endShifted hself hhi⟩
  · have hne : c ≠ node := by
      rintro rfl
      exact hout (hp.tail hchild)
    obtain ⟨hlo', hhi'⟩ := hplaced.nested p c hp hchild
    rw [if_neg hne, if_neg hne]
    -- what is above the child is above its parent too
    exact ⟨beginShifted_mono hlo' (Relation.ReflTransGen.head hchild),
      endShifted_mono hhi' (Relation.ReflTransGen.head hchild)⟩

/-- **The outline with a new node.**  The run comes in at a place inside `parent` or at one of
    its edges, behind the children on the left and before those on the right. -/
theorem Placed.insert (hforest : tree.Forest kids)
    (hplaced : Placed tree.tokens? (before ++ after) kids lo hi) (hne : before ++ after ≠ [])
    (hparent : Below kids root parent) (hkids : kids parent = left ++ right)
    (hnode : kids node = []) (hout : ¬ Below kids root node) (hends : run.Ends new)
    (hlo : lo parent ≤ before.length) (hhi : before.length ≤ hi parent + 1)
    (hleft : ∀ c ∈ left, hi c < before.length) (hright : ∀ c ∈ right, before.length ≤ lo c)
    (hself : tokens? node = some run)
    (hrange : ∀ x range, Below kids root x → tree.tokens? x = some range →
      ∃ range', tokens? x = some range' ∧ Regrown run range range'
        (Below kids x parent ∧ lo x = before.length)
        (Below kids x parent ∧ hi x + 1 = before.length)) :
    Placed tokens? (before ++ new ++ after)
      (Function.update kids parent (left ++ node :: right))
      (fun x => if x = node then before.length
        else beginShifted before.length new.length (Below kids x parent) (lo x))
      (fun x => if x = node then before.length + new.length - 1
        else endShifted before.length new.length (Below kids x parent) (hi x)) := by
  have hput : 0 < new.length := List.length_pos_iff.mpr hends.ne_nil
  have hold : ∀ {x}, Below kids root x → x ≠ node := by
    rintro x hx rfl
    exact hout hx
  have hrootne : root ≠ node := hold Relation.ReflTransGen.refl
  -- the new node has no children, and every other node was there before
  have hchildless : Function.update kids parent (left ++ node :: right) node = [] := by
    rw [Function.update_of_ne (hold hparent).symm, hnode]
  have hknown : ∀ {x}, Below (Function.update kids parent (left ++ node :: right)) root x →
      x ≠ node → Below kids root x :=
    fun hx hxne => (below_update hkids hnode hx).resolve_left hxne
  constructor
  case bare =>
    intro hnil
    simp [hends.ne_nil] at hnil
  case lo_root =>
    rw [if_neg hrootne]
    exact (hplaced.insert_root hne hparent).1
  case hi_root =>
    rw [if_neg hrootne]
    exact (hplaced.insert_root hne hparent).2
  case order =>
    intro _ id hid
    by_cases hidne : id = node
    · rw [if_pos hidne, if_pos hidne]
      omega
    · rw [if_neg hidne, if_neg hidne]
      exact beginShifted_le_endShifted (hplaced.order hne id (hknown hid hidne))
  case range =>
    intro _ id hid
    by_cases hidne : id = node
    · refine ⟨run, hidne ▸ hself, ?_, ?_⟩
      · rw [if_pos hidne]
        exact getElem?_insert_first hends
      · rw [if_pos hidne]
        exact getElem?_insert_last hends
    · rw [if_neg hidne, if_neg hidne]
      have hid' := hknown hid hidne
      exact hplaced.insert_range hne hends hid' (hrange id · hid')
  case nested =>
    intro p c hp hc
    have hpne : p ≠ node := by
      rintro rfl
      simp [hchildless] at hc
    rw [if_neg hpne, if_neg hpne]
    exact hplaced.insert_nested hkids hout hlo hhi (hknown hp hpne) hc
  case apart =>
    intro p hp
    by_cases hpne : p = node
    · rw [hpne, hchildless]
      exact List.Pairwise.nil
    · exact hplaced.insert_apart hforest hne hkids hout hput hleft hright (hknown hp hpne)

/-! ## §3. The new node -/

/-- Everything above a node of the tree is a node of the tree. -/
theorem NodeTree.Forest.below_root_of_above (h : tree.Forest kids) {x id : NodeId}
    (hid : Below kids root id) (hx : Below kids x id) : Below kids root x := by
  rcases h.below_total hid hx with hb | hb
  · exact hb
  · by_cases hroot : x = root
    · rw [hroot]
      exact Relation.ReflTransGen.refl
    · exact absurd hb (h.not_below_root hroot)

namespace NodeTree.Inserted

variable {tree₂ : NodeTree} {x : NodeId}

/-- A node that was just made has its run for tokens; the others have theirs. -/
theorem tokens?_fresh (h : Inserted (tree.alloc .userTokens (some run)).2 tree₂ kids parent left
    tree.nextId right) (x : NodeId) :
    tree₂.tokens? x = if x = tree.nextId then some run else tree.tokens? x := by
  rw [h.tokens, NodeTree.tokens?_alloc]

/-- The nodes above a node that was just made: its parent, and so on. -/
theorem lineage_fresh (h : Inserted (tree.alloc .userTokens (some run)).2 tree₂ kids parent left
    tree.nextId right) : Lineage tree₂ (some parent) (tree₂.ancestors tree.nextId) := by
  have hlineage := h.forest.lineage tree.nextId
  rwa [h.parent, if_pos rfl] at hlineage

/-- Above the new node stands what is its parent or above that. -/
theorem mem_ancestors_fresh (hforest : tree.Forest kids) (hkids : kids parent = left ++ right)
    (hpn : parent ≠ tree.nextId)
    (h : Inserted (tree.alloc .userTokens (some run)).2 tree₂ kids parent left tree.nextId right) :
    x ∈ tree₂.ancestors tree.nextId ↔ Below kids x parent := by
  have hnode : kids tree.nextId = [] := hforest.kids_eq_nil tree.get?_nextId
  rw [Lineage.mem_iff h.forest h.lineage_fresh]
  constructor
  · rintro ⟨id, hid, hb⟩
    obtain rfl := Option.some.inj hid
    exact (below_update hkids hnode hb).resolve_left hpn
  · intro hb
    exact ⟨parent, rfl, Below.update hkids hb⟩

end NodeTree.Inserted

/-- A node that is still to be made is not a node of the tree. -/
theorem NodeTree.Forest.nextId_not_below (h : tree.Forest kids) :
    ¬ Below kids root tree.nextId := by
  intro hb
  exact NodeTree.ne_nextId (h.live_of_attached (h.attached_iff.mpr hb)) rfl

/-- Of the nodes above the new one, once one does not touch the place, no node above it does. -/
theorem Placed.widen_declines (hforest : tree.Forest kids)
    (hplaced : Placed tree.tokens? (before ++ after) kids lo hi) (hne : before ++ after ≠ [])
    (hparent : Below kids root parent) (hlo : lo parent ≤ before.length)
    (hhi : before.length ≤ hi parent + 1) {widen : TokenRange → Option TokenRange}
    (hwiden : ∀ x range, Below kids root x → Below kids x parent →
      tree.tokens? x = some range → widen range
        = if lo x = before.length then some ⟨run.first, range.last⟩
          else if hi x + 1 = before.length then some ⟨range.first, run.last⟩ else none)
    {x y : NodeId} (hx : Below kids x parent) (hy : Below kids y x)
    (hnone : (tree.tokens? x).bind widen = none) : (tree.tokens? y).bind widen = none := by
  have hroot : ∀ {x}, Below kids x parent → Below kids root x :=
    fun hx => hforest.below_root_of_above hparent hx
  have hyp := hy.trans hx
  obtain ⟨rx, hrx, -⟩ := hplaced.range hne x (hroot hx)
  obtain ⟨ry, hry, -⟩ := hplaced.range hne y (hroot hyp)
  have hnestx := hplaced.nested_below (hroot hx) hx
  have hnesty := hplaced.nested_below (hroot hyp) hy
  rw [hrx, Option.bind_some, hwiden x rx (hroot hx) hx hrx] at hnone
  rw [hry, Option.bind_some, hwiden y ry (hroot hyp) hyp hry]
  have hbegin : lo x ≠ before.length := by
    intro he
    rw [if_pos he] at hnone
    simp at hnone
  rw [if_neg hbegin] at hnone
  have hend : hi x + 1 ≠ before.length := by
    intro he
    rw [if_pos he] at hnone
    simp at hnone
  -- `y` is around `x`, whose ends are clear of the run on both sides
  rw [if_neg (by omega), if_neg (by omega)]

/-- **A run that came in gets its node**, and the nodes above it that touch the run grow around
    it.  `attach` is any way to put the new node between `left` and `right`. -/
theorem Placed.addUserNode (hforest : tree.Forest kids)
    (hplaced : Placed tree.tokens? (before ++ after) kids lo hi) (hne : before ++ after ≠ [])
    (hparent : Below kids root parent) (hkids : kids parent = left ++ right)
    (hends : run.Ends new) (hlo : lo parent ≤ before.length)
    (hhi : before.length ≤ hi parent + 1)
    (hleft : ∀ c ∈ left, hi c < before.length) (hright : ∀ c ∈ right, before.length ≤ lo c)
    {attach : NodeTree → NodeId → NodeTree} {widen : TokenRange → Option TokenRange}
    (hattach : NodeTree.Inserted (tree.alloc .userTokens (some run)).2
      (attach (tree.alloc .userTokens (some run)).2 tree.nextId) kids parent left tree.nextId
      right)
    (hwiden : ∀ x range, Below kids root x → Below kids x parent →
      tree.tokens? x = some range → widen range
        = if lo x = before.length then some ⟨run.first, range.last⟩
          else if hi x + 1 = before.length then some ⟨range.first, run.last⟩ else none) :
    ∃ kids' lo' hi' tree', (∀ doc : Document, doc.tree = tree →
        Edit.addUserNode run attach widen doc = .ok tree.nextId { doc with tree := tree' })
      ∧ tree'.Forest kids' ∧ Placed tree'.tokens? (before ++ new ++ after) kids' lo' hi' := by
  have hnode : kids tree.nextId = [] := hforest.kids_eq_nil tree.get?_nextId
  have hout := hforest.nextId_not_below
  have hpn : parent ≠ tree.nextId := fun he => hout (he ▸ hparent)
  generalize hinserted : attach (tree.alloc .userTokens (some run)).2 tree.nextId = tree₂
    at hattach
  have hmem := fun x => hattach.mem_ancestors_fresh hforest hkids hpn (x := x)
  have hroot : ∀ {x}, Below kids x parent → Below kids root x :=
    fun hx => hforest.below_root_of_above hparent hx
  have hold : ∀ {x}, Below kids root x → tree₂.tokens? x = tree.tokens? x := by
    intro x hx
    rw [hattach.tokens?_fresh, if_neg]
    rintro rfl
    exact hout hx
  have hpairs := NodeTree.Lineage.pairwise hattach.forest hattach.lineage_fresh
  have hdecline : (tree₂.ancestors tree.nextId).Pairwise fun x y =>
      (tree₂.tokens? x).bind widen = none → (tree₂.tokens? y).bind widen = none := by
    refine hpairs.imp_of_mem fun {x y} hx hy hxy => ?_
    have hxp := (hmem x).mp hx
    have hxne : x ≠ tree.nextId := fun he => hout (he ▸ hroot hxp)
    have hyx : Below kids y x := (below_update hkids hnode hxy.1).resolve_left hxne
    rw [hold (hroot hxp), hold (hroot (hyx.trans hxp))]
    exact hplaced.widen_declines hforest hne hparent hlo hhi hwiden hxp hyx
  obtain ⟨hframe, hother, hwidened⟩ := Edit.widenAll_spec (hpairs.imp fun hxy => hxy.2) hdecline
  refine ⟨_, _, _, Edit.widenAll widen tree₂ (tree₂.ancestors tree.nextId), ?_,
    hframe.forest hattach.forest,
    Placed.insert hforest hplaced hne hparent hkids hnode hout hends hlo hhi hleft hright ?_ ?_⟩
  · rintro doc rfl
    rw [← hinserted]
    rfl
  · rw [hother, hattach.tokens?_fresh, if_pos rfl]
    rw [hmem]
    exact fun hb => hout (hroot hb)
  · intro x range hx hrange
    by_cases hxp : Below kids x parent
    · have hnest := hplaced.nested_below hx hxp
      have horder := hplaced.order hne x hx
      rw [hwidened x ((hmem x).mpr hxp), hold hx, hrange, Option.bind_some,
        hwiden x range hx hxp hrange]
      -- it begins at the place, ends right before it, or does not touch it
      by_cases hbegin : lo x = before.length
      · refine ⟨⟨run.first, range.last⟩, by rw [if_pos hbegin]; rfl, fun _ => rfl,
          absurd ⟨hxp, hbegin⟩, fun hend => ?_, fun _ => rfl⟩
        omega
      · by_cases hend : hi x + 1 = before.length
        · exact ⟨⟨range.first, run.last⟩, by rw [if_neg hbegin, if_pos hend]; rfl,
            fun h => absurd h.2 hbegin, fun _ => rfl, fun _ => rfl, absurd ⟨hxp, hend⟩⟩
        · exact ⟨range, by rw [if_neg hbegin, if_neg hend]; rfl,
            .same (fun h => hbegin h.2) fun h => hend h.2⟩
    · refine ⟨range, ?_, .same (fun h => hxp h.1) fun h => hxp h.1⟩
      rw [hother x (fun hm => hxp ((hmem x).mp hm)), hold hx, hrange]

end Insert

end KernelPrep
