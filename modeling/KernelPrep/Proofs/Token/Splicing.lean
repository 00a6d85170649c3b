/-
  KernelPrep.Proofs.Token.Splicing — what the operations do to the file and to the runs.

  Every operation that links or cuts is one splice of sequences: in a file
  `before ++ old ++ after` the stretch `old` gives way to a run `new`, where either may be
  empty.  `Threaded.splice` proves that once, from the token of each handle afterwards;
  the operations are instances of it.

  Main definitions:
    * `TokenList.face?`     — the kind, text and line of a token, which no operation changes;
    * `TokenList.Resplices` — the slots and ends of a list whose file was spliced;
    * `TokenList.Spliced`   — a splice of the file, with what it leaves alone.

  Main statements:
    * `TokenList.linkRun_spliced`, `TokenList.exchange_spliced` — linking a checked run in,
      and replacing a checked stretch, splice the file;
    * `TokenList.replace_ok`, `TokenList.insertBefore_ok`, `TokenList.insertAfter_ok` — a
      successful change of a well-formed list is a splice of its file.
-/
import KernelPrep.Proofs.Token.Thread
import KernelPrep.Proofs.Step

namespace KernelPrep

/-- `ids` runs from one end of a range to the other. -/
def TokenRange.Ends (range : TokenRange) (ids : List TokenId) : Prop :=
  ids.head? = some range.first ∧ ids.getLast? = some range.last

/-- From one end of a range to the other there is at least one token. -/
theorem TokenRange.Ends.ne_nil {range : TokenRange} {ids : List TokenId} (h : range.Ends ids) :
    ids ≠ [] := by
  rintro rfl
  simp [Ends] at h

namespace TokenList

/-! ## §1. What a token shows -/

/-- The kind, text and line of a token. -/
def face? (list : TokenList) (id : TokenId) : Option (TokenKind × String × Nat) :=
  (list.get? id).map fun token => (token.kind, token.text, token.line)

/-- The kind is part of what a token shows. -/
theorem kind?_eq_face? (list : TokenList) (id : TokenId) :
    list.kind? id = (list.face? id).map (·.1) := by
  unfold kind? face?
  cases list.get? id <;> rfl

/-- The text is part of what a token shows. -/
theorem textOf_eq_face? (list : TokenList) (id : TokenId) :
    list.textOf id = ((list.face? id).map (·.2.1)).getD "" := by
  unfold textOf face?
  cases list.get? id <;> rfl

/-- The line is part of what a token shows. -/
theorem lineOf_eq_face? (list : TokenList) (id : TokenId) :
    list.lineOf id = ((list.face? id).map (·.2.2)).getD 0 := by
  unfold lineOf face?
  cases list.get? id <;> rfl

theorem content?_eq_face? (list : TokenList) (id : TokenId) :
    list.content? id
      = (list.face? id).bind fun face => if face.1.isNamed then some face.2.1 else none := by
  unfold content? face?
  cases list.get? id <;> rfl

/-- Tokens that show the same are of one kind. -/
theorem kind?_congr {list list' : TokenList} {id : TokenId} (h : list'.face? id = list.face? id) :
    list'.kind? id = list.kind? id := by
  rw [kind?_eq_face?, kind?_eq_face?, h]

/-- Tokens that show the same spell the same. -/
theorem textOf_congr {list list' : TokenList} {id : TokenId}
    (h : list'.face? id = list.face? id) : list'.textOf id = list.textOf id := by
  rw [textOf_eq_face?, textOf_eq_face?, h]

theorem hash?_eq_content? [ContentHash] (list : TokenList) (id : TokenId) :
    list.hash? id = (list.content? id).map ContentHash.ofText := by
  unfold hash? content?
  cases list.get? id <;> rfl

/-- Tokens that show the same have one hash. -/
theorem hash?_congr [ContentHash] {list list' : TokenList} {id : TokenId}
    (h : list'.face? id = list.face? id) : list'.hash? id = list.hash? id := by
  rw [hash?_eq_content?, hash?_eq_content?, content?_eq_face?, content?_eq_face?, h]

/-! ## §2. Splicing a file -/

/-- A token after `run` was linked between `before?` and `after?`. -/
def respliced (before? : Option TokenId) (run : List TokenId) (after? : Option TokenId)
    (id : TokenId) (token : Token) : Token :=
  { token with
    next? := if run.getLast? = some id then after?
      else if before? = some id then run.head?.or after? else token.next?
    prev? := if after? = some id then run.getLast?.or before?
      else if run.head? = some id then before? else token.prev?
    linked := token.linked || run.contains id }

/-- What is in the first of two rows is not the last of the second. -/
theorem ne_of_getLast?_append {xs ys : List TokenId} (hnodup : (xs ++ ys).Nodup) {x : TokenId}
    (hx : x ∈ xs) : ¬ ys.getLast? = some x := by
  intro h
  exact (List.nodup_append.mp hnodup).2.2 x hx x (List.mem_of_getLast? h) rfl

/-- What is in the first of two rows is not the first of the second. -/
theorem ne_of_head?_append {xs ys : List TokenId} (hnodup : (xs ++ ys).Nodup) {x : TokenId}
    (hx : x ∈ xs) : ¬ ys.head? = some x := by
  intro h
  exact (List.nodup_append.mp hnodup).2.2 x hx x (List.mem_of_head? h) rfl

/-- What is in the second of two rows is not the first of the first. -/
theorem head?_ne_of_mem {xs ys : List TokenId} (hnodup : (xs ++ ys).Nodup) {x : TokenId}
    (hx : x ∈ ys) : ¬ xs.head? = some x := by
  intro h
  exact (List.nodup_append.mp hnodup).2.2 x (List.mem_of_head? h) x hx rfl

/-- What is in the second of two rows is not the last of the first. -/
theorem getLast?_ne_of_mem {xs ys : List TokenId} (hnodup : (xs ++ ys).Nodup) {x : TokenId}
    (hx : x ∈ ys) : ¬ xs.getLast? = some x := by
  intro h
  exact (List.nodup_append.mp hnodup).2.2 x (List.mem_of_getLast? h) x hx rfl

section Splice

variable {list list' : TokenList} {before old new after : List TokenId}
  {left? right? : Option TokenId}

/-- The tokens of the spliced file are still listed once each. -/
theorem Threaded.nodup_splice (h : list.Threaded (before ++ old ++ after))
    (hdet : ∀ x ∈ new, list.IsDetached x) (hnew : new.Nodup) :
    (before ++ new ++ after).Nodup := by
  have hout : ∀ x ∈ new, x ∉ before ++ old ++ after := fun x hx =>
    h.notMem_of_isDetached (hdet x hx)
  obtain ⟨hleft, hafter, hla⟩ := List.nodup_append.mp h.nodup
  obtain ⟨hbefore, -, -⟩ := List.nodup_append.mp hleft
  refine List.nodup_append.mpr ⟨List.nodup_append.mpr ⟨hbefore, hnew, ?_⟩, hafter, ?_⟩
  · intro a ha b hb hab
    exact hout b hb (by simp [← hab, ha])
  · intro a ha b hb hab
    rcases List.mem_append.mp ha with ha | ha
    · exact hla a (List.mem_append_left _ ha) b hb hab
    · exact hout a ha (by simp [hab, hb])

section Links

variable (h : list.Threaded (before ++ old ++ after)) (hdet : ∀ x ∈ new, list.IsDetached x)
  (hget : ∀ x, list'.get? x = if x ∈ old then none
    else (list.get? x).map (respliced before.getLast? new after.head? x))

include h hdet hget

/-- No token of the new file was cut out, so each has its token with new links. -/
theorem Threaded.get?_splice {x : TokenId} (hx : x ∈ before ++ new ++ after) :
    ∃ token, list.get? x = some token
      ∧ list'.get? x = some (respliced before.getLast? new after.head? x token) ∧ x ∉ old := by
  have hnodup := h.nodup
  rcases List.mem_append.mp hx with hx' | hx'
  · rcases List.mem_append.mp hx' with hb | hn
    · have hfile : x ∈ before ++ old ++ after := by simp [hb]
      obtain ⟨token, htoken, -⟩ := h.get?_of_mem hfile
      have hold : x ∉ old := fun ho =>
        (List.nodup_append.mp (List.nodup_append.mp hnodup).1).2.2 x hb x ho rfl
      exact ⟨token, htoken, by rw [hget, if_neg hold, htoken]; rfl, hold⟩
    · obtain ⟨token, htoken, -⟩ := hdet x hn
      have hold : x ∉ old := fun ho =>
        h.notMem_of_isDetached (hdet x hn) (by simp [ho])
      exact ⟨token, htoken, by rw [hget, if_neg hold, htoken]; rfl, hold⟩
  · have hfile : x ∈ before ++ old ++ after := by simp [hx']
    obtain ⟨token, htoken, -⟩ := h.get?_of_mem hfile
    have hold : x ∉ old := fun ho =>
      (List.nodup_append.mp hnodup).2.2 x (by simp [ho]) x hx' rfl
    exact ⟨token, htoken, by rw [hget, if_neg hold, htoken]; rfl, hold⟩

/-- The forward links once the run is in. -/
theorem Threaded.next?_splice {x : TokenId} (hx : x ∈ before ++ new ++ after) :
    list'.next? x = if new.getLast? = some x then after.head?
      else if before.getLast? = some x then new.head?.or after.head? else list.next? x := by
  obtain ⟨token, htoken, htoken', -⟩ := h.get?_splice hdet hget hx
  rw [list'.next?_eq, list.next?_eq, htoken, htoken']
  rfl

/-- The backward links once the run is in. -/
theorem Threaded.prev?_splice {x : TokenId} (hx : x ∈ before ++ new ++ after) :
    list'.prev? x = if after.head? = some x then new.getLast?.or before.getLast?
      else if new.head? = some x then before.getLast? else list.prev? x := by
  obtain ⟨token, htoken, htoken', -⟩ := h.get?_splice hdet hget hx
  rw [list'.prev?_eq, list.prev?_eq, htoken, htoken']
  rfl

/-- The tokens of the new file are those that are linked. -/
theorem Threaded.isLinked_splice (x : TokenId) :
    list'.isLinked x = true ↔ x ∈ before ++ new ++ after := by
  constructor
  · intro hx
    obtain ⟨token', htoken', hlinked⟩ := isLinked_iff.mp hx
    rw [hget] at htoken'
    split at htoken'
    · simp at htoken'
    · rename_i hold
      obtain ⟨token, htoken, rfl⟩ := Option.map_eq_some_iff.mp htoken'
      -- a token that is left is linked because it was, or because it is new
      have hcase : token.linked = true ∨ x ∈ new := by
        simpa [respliced] using hlinked
      rcases hcase with hl | hn
      · have hmem := h.mem_of_get? htoken hl
        simp only [List.mem_append] at hmem ⊢
        tauto
      · simp [hn]
  · intro hx
    obtain ⟨token, htoken, htoken', hold⟩ := h.get?_splice hdet hget hx
    refine isLinked_iff.mpr ⟨_, htoken', ?_⟩
    by_cases hn : x ∈ new
    · simp [respliced, hn]
    · have hmem : x ∈ before ++ old ++ after := by
        simp only [List.mem_append] at hx ⊢
        tauto
      obtain ⟨token₂, htoken₂, hlinked⟩ := h.get?_of_mem hmem
      rw [htoken] at htoken₂
      rw [Option.some.inj htoken₂]
      simp [respliced, hlinked]

/-- The links of the new file spell it. -/
theorem Threaded.strung_splice (hnew : new.Nodup) (hrun : list.Strung left? new right?) :
    list'.Strung none (before ++ new ++ after) none := by
  have hnodup := h.nodup_splice hdet hnew
  have hnodup' : (before ++ (new ++ after)).Nodup := by rwa [List.append_assoc] at hnodup
  have hnodupS : (new ++ after).Nodup := (List.nodup_append.mp hnodup').2.1
  have hnodupB : (before ++ new).Nodup := (List.nodup_append.mp hnodup).1
  -- all links of the new file are known; it remains to compare them, stretch by stretch
  have hnext := fun x => @Threaded.next?_splice _ _ _ _ _ _ h hdet hget x
  have hprev := fun x => @Threaded.prev?_splice _ _ _ _ _ _ h hdet hget x
  have hstrung := h.strung
  rw [strung_append, strung_append] at hstrung
  obtain ⟨⟨hsb, -⟩, hsa⟩ := hstrung
  rw [strung_append, strung_append]
  refine ⟨⟨?_, ?_⟩, ?_⟩
  · -- before the splice only the last forward link changes
    refine hsb.reseat (List.nodup_append.mp hnodupB).1 ?_ ?_
    · intro x hx
      rw [hprev x (by simp [hx]),
        if_neg (fun he => (List.nodup_append.mp hnodup).2.2 x (by simp [hx]) x
          (List.mem_of_head? he) rfl),
        if_neg (ne_of_head?_append hnodupB hx)]
      by_cases hfirst : before.head? = some x
      · rw [if_pos hfirst]
        cases hb : before with
        | nil => simp [hb] at hx
        | cons y rest =>
          rw [hb] at hfirst hsb
          obtain rfl := Option.some.inj hfirst
          exact hsb.1
      · rw [if_neg hfirst]
    · intro x hx
      rw [hnext x (by simp [hx]), if_neg (ne_of_getLast?_append hnodupB hx), Option.or_none]
  -- within the run the links are as they were
  · refine hrun.reseat hnew ?_ ?_
    · intro x hx
      rw [hprev x (by simp [hx]), if_neg (ne_of_head?_append hnodupS hx), Option.or_none]
    · intro x hx
      rw [hnext x (by simp [hx]), if_neg (getLast?_ne_of_mem hnodupB hx), Option.or_none]
  -- behind the splice only the first backward link changes
  · refine hsa.reseat (List.nodup_append.mp hnodupS).2.1 ?_ ?_
    · intro x hx
      rw [hprev x (by simp [hx]), if_neg (head?_ne_of_mem hnodupS hx), Option.or_none,
        List.getLast?_append]
    · intro x hx
      have hbx : ¬ before.getLast? = some x := fun he =>
        (List.nodup_append.mp hnodup).2.2 x
          (List.mem_append_left _ (List.mem_of_getLast? he)) x hx rfl
      rw [hnext x (by simp [hx]), if_neg (getLast?_ne_of_mem hnodupS hx), if_neg hbx]
      by_cases hlast : after.getLast? = some x
      · rw [if_pos hlast]
        obtain ⟨front, rfl⟩ := List.getLast?_eq_some_iff.mp hlast
        rw [hsa.next?_eq]
        rfl
      · rw [if_neg hlast]

end Links

/-- **A stretch of the file gives way to a run.**  It is enough to know the token of each
    handle afterwards and the three numbers kept beside the slots. -/
theorem Threaded.splice (h : list.Threaded (before ++ old ++ after))
    (hdet : ∀ x ∈ new, list.IsDetached x) (hnew : new.Nodup)
    (hrun : list.Strung left? new right?)
    (hget : ∀ x, list'.get? x = if x ∈ old then none
      else (list.get? x).map (respliced before.getLast? new after.head? x))
    (hhead : list'.head? = (before ++ new ++ after).head?)
    (htail : list'.tail? = (before ++ new ++ after).getLast?)
    (hlength : list'.length + old.length = list.length + new.length) :
    list'.Threaded (before ++ new ++ after) := by
  refine ⟨h.nodup_splice hdet hnew, h.isLinked_splice hdet hget,
    h.strung_splice hdet hget hnew hrun, hhead, htail, ?_⟩
  have hlen := h.length
  simp only [List.length_append] at hlen ⊢
  omega

/-- `list'` is `list` with the stretch `old` of its file replaced by the run `new`. -/
structure Spliced (list list' : TokenList) (before old new after : List TokenId) : Prop where
  was : list.Threaded (before ++ old ++ after)
  now : list'.Threaded (before ++ new ++ after)
  loose : list'.Loose
  keeps : list.KeepsRuns list'
  detached : ∀ x ∈ new, list.IsDetached x
  gone : ∀ x ∈ old, list'.get? x = none
  face : ∀ x, x ∉ old → list'.face? x = list.face? x
  size : list'.slots.size = list.slots.size

/-- The splice in full, with what it leaves alone. -/
theorem Threaded.spliced (h : list.Threaded (before ++ old ++ after)) (hloose : list.Loose)
    (hdet : ∀ x ∈ new, list.IsDetached x) (hnew : new.Nodup)
    (hrun : list.Strung left? new right?)
    (hget : ∀ x, list'.get? x = if x ∈ old then none
      else (list.get? x).map (respliced before.getLast? new after.head? x))
    (hhead : list'.head? = (before ++ new ++ after).head?)
    (htail : list'.tail? = (before ++ new ++ after).getLast?)
    (hlength : list'.length + old.length = list.length + new.length)
    (hsize : list'.slots.size = list.slots.size) :
    Spliced list list' before old new after := by
  have hkeep : list.KeepsRuns list' := by
    rintro x ⟨token', htoken', hlinked⟩
    rw [hget] at htoken'
    split at htoken'
    · simp at htoken'
    · obtain ⟨token, htoken, rfl⟩ := Option.map_eq_some_iff.mp htoken'
      have hboth : token.linked = false ∧ x ∉ new := by
        simpa [respliced] using hlinked
      obtain ⟨hfalse, hnot⟩ := hboth
      -- A token that stays detached is neither in the file nor in the run.
      have hfile := h.notMem_of_isDetached ⟨token, htoken, hfalse⟩
      simp only [List.mem_append, not_or] at hfile
      have hget' := hget x
      rw [if_neg hfile.1.2, htoken, Option.map_some] at hget'
      refine ⟨⟨token, htoken, hfalse⟩, ?_, ?_⟩
      · rw [list'.next?_eq, list.next?_eq, hget', htoken]
        simp only [Option.bind_some, respliced]
        rw [if_neg (fun he => hnot (List.mem_of_getLast? he)),
          if_neg (fun he => hfile.1.1 (List.mem_of_getLast? he))]
      · rw [list'.prev?_eq, list.prev?_eq, hget', htoken]
        simp only [Option.bind_some, respliced]
        rw [if_neg (fun he => hfile.2 (List.mem_of_head? he)),
          if_neg (fun he => hnot (List.mem_of_head? he))]
  refine ⟨h, h.splice hdet hnew hrun hget hhead htail hlength,
    hloose.mono (Nat.le_of_eq hsize.symm) hkeep, hkeep, hdet, ?_, ?_, hsize⟩
  · intro x hx
    rw [hget, if_pos hx]
  · intro x hx
    unfold face?
    rw [hget, if_neg hx]
    cases list.get? x <;> rfl

end Splice

/-! ## §3. Linking, replacing and cutting -/

/-- Without a run the two neighbours are linked to each other. -/
theorem respliced_nil (before? after? : Option TokenId) (x : TokenId) :
    respliced before? [] after? x = relink before? after? x := by
  funext token
  unfold respliced relink
  simp

/-- Linking a run sets four links; none of them is set twice. -/
theorem respliced_run {before? after? : Option TokenId} {run : TokenRange}
    {ids : List TokenId} (hends : run.Ends ids) (x : TokenId) :
    (fun token => mark ids x (relink (some run.last) after? x
        (relink before? (some run.first) x token)))
      = respliced before? ids after? x := by
  funext token
  unfold respliced mark relink
  rw [hends.1, hends.2]
  simp

variable {list list' : TokenList} {file before old new after : List TokenId}

/-- What a run that is linked in, or its absence, says about the tokens linked in. -/
def Supplies : Option TokenRange → List TokenId → Prop
  | none, ids => ids = []
  | some run, ids => run.Ends ids

/-- Each slot, both ends and the counts once the stretch `old` gave way to the run `new`. -/
structure Resplices (list list' : TokenList) (before old new after : List TokenId) : Prop where
  get? : ∀ x, list'.get? x = if x ∈ old then none
    else (list.get? x).map (respliced before.getLast? new after.head? x)
  head : list'.head? = (before ++ new ++ after).head?
  tail : list'.tail? = (before ++ new ++ after).getLast?
  length : list'.length + old.length = list.length + new.length
  size : list'.slots.size = list.slots.size

/-- Linking a run between two neighbours in the file. -/
theorem linkRun_resplices {run : TokenRange} (h : list.Threaded (before ++ after))
    (hends : run.Ends new) :
    Resplices list (list.linkRun before.getLast? after.head? run new) before [] new after := by
  refine ⟨fun x => ?_, ?_, ?_, length_linkRun .., size_linkRun ..⟩
  · rw [get?_linkRun, respliced_run hends, if_neg List.not_mem_nil]
  · rw [head?_linkRun, h.head]
    cases before <;> simp [hends.1]
  · rw [tail?_linkRun, h.tail]
    cases after <;> simp [List.getLast?_append, List.getLast?_cons, hends.2]

/-- The neighbours of a stretch of the file are the ends of what surrounds it. -/
theorem Threaded.neighbours {range : TokenRange} (h : list.Threaded (before ++ old ++ after))
    (hends : range.Ends old) :
    list.prev? range.first = before.getLast? ∧ list.next? range.last = after.head? := by
  obtain ⟨rest, hrest⟩ := List.head?_eq_some_iff.mp hends.1
  obtain ⟨front, hfront⟩ := List.getLast?_eq_some_iff.mp hends.2
  have hfirst : before ++ old ++ after = before ++ range.first :: (rest ++ after) := by
    rw [hrest]
    simp
  have hlast : before ++ old ++ after = (before ++ front) ++ range.last :: after := by
    rw [hfront]
    simp
  exact ⟨h.prev?_eq hfirst, h.next?_eq hlast⟩

/-- The tokens of a run that is to be linked in, checked; without a run there are none. -/
def walkNew (list : TokenList) : Option TokenRange → Except SpliceError (List TokenId)
  | some run => list.walk run false
  | none => .ok []

/-- The list once `removed`, the checked tokens of `old`, gave way to `inserted`, those of
    `new?`. -/
def exchange (list : TokenList) (old : TokenRange) (removed : List TokenId)
    (new? : Option TokenRange) (inserted : List TokenId) : TokenList :=
  let relinked := match new? with
    | some run => list.linkRun (list.prev? old.first) (list.next? old.last) run inserted
    | none => list.link (list.prev? old.first) (list.next? old.last)
  let cut := relinked.destroy removed
  { cut with length := cut.length - removed.length }

/-- A replacement checks the old run, then the new one, and only then touches a link. -/
theorem replace_eq (list : TokenList) (old : TokenRange) (new? : Option TokenRange) :
    list.replace old new? = (do
      let removed ← list.walk old true
      let inserted ← list.walkNew new?
      return ({ removed, inserted? := new?, before? := list.prev? old.first,
                after? := list.next? old.last }, list.exchange old removed new? inserted)) := by
  cases new? <;> rfl

/-- **Replacing is splicing**, slot by slot. -/
theorem exchange_resplices {range : TokenRange} {new? : Option TokenRange}
    (h : list.Threaded (before ++ old ++ after)) (hold : range.Ends old)
    (hnew : Supplies new? new) :
    Resplices list (list.exchange range old new? new) before old new after := by
  obtain ⟨hprev, hnext⟩ := h.neighbours hold
  have hlen := h.length
  simp only [List.length_append] at hlen
  unfold exchange
  rw [hprev, hnext]
  cases new? with
  -- nothing comes in: the two neighbours are linked, and the slots emptied
  | none =>
    obtain rfl : new = [] := hnew
    refine ⟨fun x => ?_, ?_, ?_, ?_, ?_⟩
    · show ((list.link _ _).destroy old).get? x = _
      rw [get?_destroy, get?_link, respliced_nil]
    · show ((list.link _ _).destroy old).head? = _
      rw [head?_destroy, head?_link, h.head]
      cases before <;> simp
    · show ((list.link _ _).destroy old).tail? = _
      rw [tail?_destroy, tail?_link, h.tail]
      cases after <;> simp [List.getLast?_append, List.getLast?_cons]
    · show ((list.link _ _).destroy old).length - old.length + _ = _
      rw [length_destroy, length_link, List.length_nil]
      omega
    · show ((list.link _ _).destroy old).slots.size = _
      rw [size_destroy, size_link]
  -- a run comes in between the two neighbours, and then the slots are emptied
  | some run =>
    have hends : run.Ends new := hnew
    refine ⟨fun x => ?_, ?_, ?_, ?_, ?_⟩
    · show ((list.linkRun _ _ run new).destroy old).get? x = _
      rw [get?_destroy, get?_linkRun, respliced_run hends]
    · show ((list.linkRun _ _ run new).destroy old).head? = _
      rw [head?_destroy, head?_linkRun, h.head]
      cases before <;> simp [hends.1]
    · show ((list.linkRun _ _ run new).destroy old).tail? = _
      rw [tail?_destroy, tail?_linkRun, h.tail]
      cases after <;> simp [List.getLast?_append, List.getLast?_cons, hends.2]
    · show ((list.linkRun _ _ run new).destroy old).length - old.length + _ = _
      rw [length_destroy, length_linkRun]
      omega
    · show ((list.linkRun _ _ run new).destroy old).slots.size = _
      rw [size_destroy, size_linkRun]

/-- A run linked between two neighbours in the file. -/
theorem linkRun_spliced {ids : List TokenId} {run : TokenRange}
    (h : list.Threaded (before ++ after)) (hloose : list.Loose)
    (hwalk : list.walk run false = .ok ids) :
    run.Ends ids
      ∧ Spliced list (list.linkRun before.getLast? after.head? run ids) before [] ids after := by
  obtain ⟨hfirst, hlast, hdet, hnodup, hrun⟩ := walk_detached hloose hwalk
  have h' : list.Threaded (before ++ [] ++ after) := by simpa using h
  have hnow := linkRun_resplices h ⟨hfirst, hlast⟩
  exact ⟨⟨hfirst, hlast⟩, h'.spliced hloose hdet hnodup hrun hnow.get? hnow.head hnow.tail
    hnow.length hnow.size⟩

/-- A checked stretch of the file gives way to a checked run, or to nothing. -/
theorem exchange_spliced {range : TokenRange} {new? : Option TokenRange}
    (h : list.Threaded (before ++ old ++ after)) (hloose : list.Loose) (hold : range.Ends old)
    (hwalk : list.walkNew new? = .ok new) :
    Supplies new? new
      ∧ Spliced list (list.exchange range old new? new) before old new after := by
  cases new? with
  | none =>
    obtain rfl : [] = new := Except.ok.inj hwalk
    have hnow := exchange_resplices h hold (show Supplies none [] from rfl)
    have hnil : list.Strung none [] none := trivial
    exact ⟨rfl, h.spliced hloose (by simp) List.nodup_nil hnil hnow.get? hnow.head hnow.tail
      hnow.length hnow.size⟩
  | some run =>
    obtain ⟨hfirst, hlast, hdet, hnodup, hrun⟩ := walk_detached hloose hwalk
    have hends : Supplies (some run) new := ⟨hfirst, hlast⟩
    have hnow := exchange_resplices h hold hends
    exact ⟨hends, h.spliced hloose hdet hnodup hrun hnow.get? hnow.head hnow.tail
      hnow.length hnow.size⟩

/-- An anchor that is accepted is a token of the file. -/
theorem Threaded.mem_of_checkLinked (h : list.Threaded file) {id : TokenId} {u : Unit}
    (hcheck : list.checkLinked id = .ok u) : id ∈ file := by
  unfold checkLinked at hcheck
  cases hget : list.get? id with
  | none => simp [hget] at hcheck
  | some token =>
    refine h.mem_of_get? hget ?_
    by_contra hfalse
    simp [hget, hfalse] at hcheck

/-- A run that was put before an anchor stands between it and what was before. -/
theorem insertBefore_ok {anchor : TokenId} {run : TokenRange} {splice : Splice}
    (h : list.Threaded file) (hloose : list.Loose)
    (heq : list.insertBefore anchor run = .ok (splice, list')) :
    ∃ before new after, file = before ++ anchor :: after ∧ run.Ends new
      ∧ list.walk run false = .ok new ∧ Spliced list list' before [] new (anchor :: after) := by
  unfold insertBefore at heq
  cases hcheck : list.checkLinked anchor with
  | error e => simp [hcheck, bind, Except.bind] at heq
  | ok u =>
    cases hwalk : list.walk run false with
    | error e => simp [hcheck, hwalk, bind, Except.bind] at heq
    | ok ids =>
      simp only [hcheck, hwalk, bind, Except.bind, pure, Except.pure, Except.ok.injEq,
        Prod.mk.injEq] at heq
      obtain ⟨-, rfl⟩ := heq
      obtain ⟨before, after, rfl⟩ := List.append_of_mem (h.mem_of_checkLinked hcheck)
      obtain ⟨hends, hspliced⟩ := linkRun_spliced h hloose hwalk
      rw [h.prev?_eq rfl]
      exact ⟨before, ids, after, rfl, hends, rfl, hspliced⟩

/-- A run that was put behind an anchor stands between it and what was behind. -/
theorem insertAfter_ok {anchor : TokenId} {run : TokenRange} {splice : Splice}
    (h : list.Threaded file) (hloose : list.Loose)
    (heq : list.insertAfter anchor run = .ok (splice, list')) :
    ∃ before new after, file = before ++ anchor :: after ∧ run.Ends new
      ∧ list.walk run false = .ok new ∧ Spliced list list' (before ++ [anchor]) [] new after := by
  unfold insertAfter at heq
  cases hcheck : list.checkLinked anchor with
  | error e => simp [hcheck, bind, Except.bind] at heq
  | ok u =>
    cases hwalk : list.walk run false with
    | error e => simp [hcheck, hwalk, bind, Except.bind] at heq
    | ok ids =>
      simp only [hcheck, hwalk, bind, Except.bind, pure, Except.pure, Except.ok.injEq,
        Prod.mk.injEq] at heq
      obtain ⟨-, rfl⟩ := heq
      obtain ⟨before, after, rfl⟩ := List.append_of_mem (h.mem_of_checkLinked hcheck)
      have h' : list.Threaded ((before ++ [anchor]) ++ after) := by simpa using h
      obtain ⟨hends, hspliced⟩ := linkRun_spliced h' hloose hwalk
      rw [List.getLast?_concat] at hspliced
      rw [h.next?_eq rfl]
      exact ⟨before, ids, after, rfl, hends, rfl, hspliced⟩

/-- What was replaced was a stretch of the file, and the run, if any, stands in its place. -/
theorem replace_ok {old : TokenRange} {new? : Option TokenRange} {splice : Splice}
    (h : list.Threaded file) (hloose : list.Loose)
    (heq : list.replace old new? = .ok (splice, list')) :
    ∃ before new after, file = before ++ splice.removed ++ after ∧ old.Ends splice.removed
      ∧ Supplies new? new ∧ (∀ run, new? = some run → list.walk run false = .ok new)
      ∧ splice = { removed := splice.removed, inserted? := new?, before? := before.getLast?,
                   after? := after.head? }
      ∧ Spliced list list' before splice.removed new after := by
  rw [replace_eq] at heq
  obtain ⟨removed, hwalk, heq⟩ := Step.except_bind_ok.mp heq
  obtain ⟨inserted, hnew, heq⟩ := Step.except_bind_ok.mp heq
  obtain ⟨rfl, rfl⟩ := Prod.mk.inj (Except.ok.inj heq)
  obtain ⟨hfirst, hlast, before, after, rfl⟩ := walk_linked h hwalk
  obtain ⟨hprev, hnext⟩ := h.neighbours ⟨hfirst, hlast⟩
  obtain ⟨hsupplies, hspliced⟩ := exchange_spliced h hloose ⟨hfirst, hlast⟩ hnew
  refine ⟨before, inserted, after, rfl, ⟨hfirst, hlast⟩, hsupplies, ?_, ?_, hspliced⟩
  · rintro run rfl
    exact hnew
  · rw [hprev, hnext]

end TokenList

end KernelPrep
