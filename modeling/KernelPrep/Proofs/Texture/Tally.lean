/-
  KernelPrep.Proofs.Texture.Tally — the prepared file while it is being made.

  Types come first, one by one, and uses after them in source order.  For the types declared
  and the uses done so far, what stands around and in place of a token is a prefix of what
  will stand there in the end.

  Main definitions:
    * `Weave.weft`   — what stands around and in place of a token so far;
    * `Weave.labels` — the lines added so far.

  Main statements:
    * `Weave.weft_type`   — one more type;
    * `Weave.core?_none`  — a token stands for itself outside of the uses done;
    * `Weave.weft_use`    — one more use.
-/
import KernelPrep.Proofs.Texture.Found
import KernelPrep.Proofs.Texture.Woven

namespace KernelPrep.Weave

variable {doc : Document} {head : TokenId → Spelling} {types : List Declared}
  {done : List (Declared × Occurrence)} {type : Declared} {use : Occurrence} {id : TokenId}

/-- What stands at a token, for the types declared and the uses done, when `head` stood before
    the tokens from the start. -/
def weft (doc : Document) (head : TokenId → Spelling) (types : List Declared)
    (done : List (Declared × Occurrence)) (id : TokenId) : Weft where
  lead := head id ++ typeLines doc types id ++ kernelLines doc some (globalLine doc) done id
  core? := core? doc done id
  trail := kernelLines doc (Outline.functionBody? doc.tree) (bindLine doc) done id

/-- The lines that a use adds in a kernel definition, in the order in which they are added. -/
def useLines (doc : Document) (use : Declared × Occurrence) : List Spelling :=
  match kernel? use.2 with
  | some (function, name, param) =>
    if doc.config.platform.bindsGlobals then
      [globalLine doc use.1 function name param, bindLine doc use.1 function name param]
    else []
  | none => []

/-- All lines added, in order, when those of `pre` were there from the start. -/
def labels (doc : Document) (pre : List Spelling) (types : List Declared)
    (done : List (Declared × Occurrence)) : List Spelling :=
  pre ++ types.map (typeLine doc) ++ done.flatMap (useLines doc)

/-- **When all uses are done**, the file is the prepared one. -/
theorem spelling_eq (doc : Document) (groups : List (List Occurrence)) :
    spelling doc groups = doc.tokens.ids.flatMap fun id =>
      (weft doc (includeLine doc) (declareAll doc groups) (uses (declareAll doc groups))
        id).spelling (doc.tokens.spells [id]) := rfl

/-! ## §1. Types -/

/-- The type of one more group. -/
theorem declareAll_concat (doc : Document) (groups : List (List Occurrence))
    (refs : List Occurrence) :
    declareAll doc (groups ++ [refs])
      = declareAll doc groups ++ (declare? doc (declareAll doc groups) refs).toList := by
  show (groups ++ [refs]).foldl _ [] = _
  rw [List.foldl_append]
  rfl

theorem startsAt_iff {node : NodeId} (h : doc.Starts node id) (x : TokenId) :
    startsAt doc (some node) x = true ↔ x = id := by
  obtain ⟨range, hrange, rfl⟩ := h
  unfold startsAt
  rw [Option.bind_some, hrange, Option.any_some, beq_iff_eq]
  exact eq_comm

theorem kernelLines_nil (doc : Document) (mark : NodeId → Option NodeId)
    (line : Declared → NodeId → String → String → Spelling) (id : TokenId) :
    kernelLines doc mark line [] id = [] := by
  unfold kernelLines
  split <;> rfl

/-- **One more type**, declared before the construct at file scope that holds its first use. -/
theorem weft_type {construct : NodeId}
    (hcontainer : doc.tree.container? type.first.node = some construct)
    (hstarts : doc.Starts construct id) (x : TokenId) :
    weft doc head (types ++ [type]) [] x
      = Function.update (weft doc head types []) id
          { weft doc head types [] id with
            lead := (weft doc head types [] id).lead ++ typeLine doc type } x := by
  have hiff := startsAt_iff hstarts x
  have hlines : typeLines doc (types ++ [type]) x
      = typeLines doc types x ++ if x = id then typeLine doc type else [] := by
    unfold typeLines
    rw [List.filter_append, List.flatMap_append, List.filter_singleton, hcontainer]
    congr 1
    by_cases hx : x = id
    · rw [if_pos hx, hiff.mpr hx]
      simp
    · have hfalse : startsAt doc (some construct) x = false := by
        simpa using mt hiff.mp hx
      rw [if_neg hx, hfalse]
      rfl
  by_cases hx : x = id
  · rw [hx] at hlines ⊢
    rw [Function.update_self]
    unfold weft
    rw [hlines, if_pos rfl, kernelLines_nil, List.append_nil, List.append_nil,
      List.append_assoc]
  · rw [Function.update_of_ne hx]
    unfold weft
    rw [hlines, if_neg hx, List.append_nil]

/-! ## §2. The tokens of a use -/

theorem cut_first (use : Occurrence) : (cut use).first = use.keyword := by
  unfold cut
  split <;> rfl

/-- A cut ends at an own token of the node of its use. -/
theorem cut_last_own (h : Occurrence.Found doc use) :
    (cut use).last ∈ doc.ownTokens use.node := by
  have hentries := Occurrence.entries_sublist doc use.node
  unfold cut
  split
  · rename_i param _ hparam
    exact hentries.subset ((h.own.param param hparam).subset (by simp))
  · rcases h.own.stop with he | hsub
    · rw [he]
      exact h.keyword_mem
    · exact hentries.subset (hsub.subset (by simp))

/-- The tokens of a use run forward. -/
theorem cut_forward (h₀ : Loaded doc) (h : Occurrence.Found doc use) :
    use.keyword.index ≤ (cut use).last.index := by
  obtain ⟨hstop, hparam⟩ := h.forward h₀
  unfold cut
  split
  · rename_i param _ hp
    exact Nat.le_of_lt (hparam param hp)
  · exact hstop

/-- **A use lies in its node**, from its keyword through its last token. -/
theorem cut_between (h₀ : Loaded doc) (h : Occurrence.Found doc use) :
    (use.keyword ∈ doc.tokens.ids ∧ doc.start use.node ≤ use.keyword.index)
      ∧ (cut use).last ∈ doc.tokens.ids ∧ (cut use).last.index ≤ doc.stop use.node := by
  have hplain := (h₀.plain_of_searched h.searched).1
  obtain ⟨hmem, hlow, -⟩ := h₀.mem_ownTokens hplain h.keyword_mem
  obtain ⟨hlast, -, hhigh⟩ := h₀.mem_ownTokens hplain (cut_last_own h)
  exact ⟨⟨hmem, hlow⟩, hlast, hhigh⟩

/-- A cut takes the tokens from the keyword through its last one. -/
theorem mem_cut_iff (h₀ : Loaded doc) (h : Occurrence.Found doc use) (x : TokenId) :
    x ∈ doc.tokens.range (cut use)
      ↔ use.keyword.index ≤ x.index ∧ x.index ≤ (cut use).last.index := by
  have hle : (cut use).first.index ≤ (cut use).last.index := by
    rw [cut_first]
    exact cut_forward h₀ h
  obtain ⟨-, -, -, -, hmem⟩ :=
    h₀.unedited.range_eq (cut_between h₀ h).2.1 hle
  rw [hmem, cut_first]

/-- **A token stands for itself** outside of the uses done. -/
theorem core?_none (h₀ : Loaded doc) (hdone : ∀ u ∈ done, Occurrence.Found doc u.2) (x : TokenId) :
    core? doc done x = none
      ↔ ∀ u ∈ done, ¬ (u.2.keyword.index ≤ x.index ∧ x.index ≤ (cut u.2).last.index) := by
  unfold core?
  constructor
  · intro hnone u hu hin
    split at hnone
    · simp at hnone
    · split at hnone
      · simp at hnone
      · rename_i hany
        refine hany (List.any_eq_true.mpr ⟨u, hu, ?_⟩)
        rw [List.contains_iff_mem, mem_cut_iff h₀ (hdone u hu)]
        exact hin
  · intro hout
    -- a keyword is in its own cut, so no use begins with a token outside of all cuts
    have hfind : done.find? (·.2.keyword == x) = none := by
      rw [List.find?_eq_none]
      intro u hu he
      have he : u.2.keyword = x := by simpa using he
      refine hout u hu ?_
      rw [← he]
      exact ⟨Nat.le_refl _, cut_forward h₀ (hdone u hu)⟩
    have hany : ¬ (done.any fun u => (doc.tokens.range (cut u.2)).contains x) = true := by
      intro hany
      obtain ⟨u, hu, hcontains⟩ := List.any_eq_true.mp hany
      rw [List.contains_iff_mem, mem_cut_iff h₀ (hdone u hu)] at hcontains
      exact hout u hu hcontains
    rw [hfind]
    exact if_neg hany

/-- **A token** stands for itself, is the keyword of a use, or is gone with a use. -/
theorem core?_cases (h₀ : Loaded doc) (hdone : ∀ u ∈ done, Occurrence.Found doc u.2)
    (id : TokenId) :
    (core? doc done id = none ∧ ∀ u ∈ done,
      ¬ (u.2.keyword.index ≤ id.index ∧ id.index ≤ (cut u.2).last.index))
    ∨ (∃ u ∈ done, u.2.keyword = id ∧ core? doc done id = some (replacement doc u.1 u.2))
    ∨ (core? doc done id = some [] ∧ ∃ u ∈ done,
      u.2.keyword.index < id.index ∧ id.index ≤ (cut u.2).last.index) := by
  by_cases hnone : core? doc done id = none
  · exact Or.inl ⟨hnone, (core?_none h₀ hdone id).mp hnone⟩
  · right
    unfold core? at hnone ⊢
    split at hnone
    · rename_i type use hfind
      left
      exact ⟨(type, use), List.mem_of_find?_eq_some hfind, by simpa using List.find?_some hfind,
        rfl⟩
    · rename_i hfind
      split at hnone
      · rename_i hany
        right
        obtain ⟨u, hu, hin⟩ := List.any_eq_true.mp hany
        rw [List.contains_iff_mem, mem_cut_iff h₀ (hdone u hu)] at hin
        -- its keyword is none of the tokens looked up, so it comes strictly before
        refine ⟨if_pos hany, u, hu, Nat.lt_of_le_of_ne hin.1 fun he => ?_, hin.2⟩
        have hmiss := List.find?_eq_none.mp hfind u hu
        exact hmiss (beq_iff_eq.mpr (TokenId.ext_index he))
      · exact absurd rfl hnone

/-! ## §3. One more use -/

/-- What stands in place of the tokens after one more use, all of whose tokens stood for
    themselves. -/
theorem core?_use {rest : List TokenId}
    (hcut : doc.tokens.range (cut use) = use.keyword :: rest)
    (hself : ∀ x ∈ use.keyword :: rest, core? doc done x = none) (x : TokenId) :
    core? doc (done ++ [(type, use)]) x
      = if x = use.keyword then some (replacement doc type use)
        else if x ∈ rest then some [] else core? doc done x := by
  -- no use done has its keyword here
  have hfresh : ∀ x ∈ use.keyword :: rest, done.find? (·.2.keyword == x) = none
      ∧ (done.any fun u => (doc.tokens.range (cut u.2)).contains x) = false := by
    intro x hx
    have hnone := hself x hx
    unfold core? at hnone
    split at hnone
    · simp at hnone
    · rename_i hfind
      refine ⟨hfind, ?_⟩
      by_contra hany
      rw [if_pos (by simpa using hany)] at hnone
      simp at hnone
  unfold core?
  rw [List.find?_append, List.any_append]
  by_cases hx : x = use.keyword
  · rw [if_pos hx, (hfresh x (by simp [hx])).1]
    simp [hx]
  · have hkey : [(type, use)].find? (·.2.keyword == x) = none := by
      simpa using Ne.symm hx
    rw [if_neg hx, hkey, Option.or_none]
    by_cases hrest : x ∈ rest
    · obtain ⟨hfind, -⟩ := hfresh x (List.mem_cons_of_mem _ hrest)
      rw [if_pos hrest, hfind]
      simp [hcut, hrest]
    · have hout : ([(type, use)].any fun u => (doc.tokens.range (cut u.2)).contains x)
          = false := by
        simp [hcut, hx, hrest]
      rw [if_neg hrest, hout, Bool.or_false]

/-- The lines of one more use come behind those before it. -/
theorem kernelLines_append (doc : Document) (mark : NodeId → Option NodeId)
    (line : Declared → NodeId → String → String → Spelling) (type : Declared) (use : Occurrence)
    (x : TokenId) :
    kernelLines doc mark line (done ++ [(type, use)]) x
      = kernelLines doc mark line done x ++ kernelLines doc mark line [(type, use)] x := by
  unfold kernelLines
  split
  · rw [List.flatMap_append]
  · rfl

/-- A use that needs no variable adds no line. -/
theorem kernelLines_idle (hidle : doc.config.platform.bindsGlobals = false ∨ kernel? use = none)
    (mark : NodeId → Option NodeId) (line : Declared → NodeId → String → String → Spelling)
    (x : TokenId) : kernelLines doc mark line [(type, use)] x = [] := by
  unfold kernelLines
  rcases hidle with hoff | hnone
  · rw [hoff]
    rfl
  · split
    · simp [hnone]
    · rfl

/-- A use that needs a variable adds one line, where the marked node starts. -/
theorem kernelLines_one {function node : NodeId} {name param : String}
    (hon : doc.config.platform.bindsGlobals = true)
    (hkernel : kernel? use = some (function, name, param)) {mark : NodeId → Option NodeId}
    (hmark : mark function = some node) (hstarts : doc.Starts node id)
    (line : Declared → NodeId → String → String → Spelling) (x : TokenId) :
    kernelLines doc mark line [(type, use)] x
      = if x = id then line type function name param else [] := by
  have hiff := startsAt_iff hstarts x
  unfold kernelLines
  rw [if_pos hon]
  by_cases hx : x = id
  · obtain rfl := hx
    have htrue : startsAt doc (some node) x = true := hiff.mpr rfl
    simp [hkernel, hmark, htrue]
  · have hfalse : startsAt doc (some node) x = false := by simpa using mt hiff.mp hx
    simp [hkernel, hmark, hfalse, hx]

section Use

variable {rest : List TokenId} (hcut : doc.tokens.range (cut use) = use.keyword :: rest)
  (hself : ∀ x ∈ use.keyword :: rest, core? doc done x = none)

include hcut hself

/-- **One more use** that needs no variable: only its own tokens change. -/
theorem weft_use (hidle : doc.config.platform.bindsGlobals = false ∨ kernel? use = none)
    (x : TokenId) :
    weft doc head types (done ++ [(type, use)]) x
      = Weft.recut (weft doc head types done) use.keyword rest (replacement doc type use) x := by
  unfold weft
  rw [core?_use hcut hself, kernelLines_append, kernelLines_append, kernelLines_idle hidle,
    kernelLines_idle hidle, List.append_nil, List.append_nil]
  unfold Weft.recut
  split
  · rfl
  · split
    · rfl
    · rfl

/-- **One more use** in a kernel: its tokens change, and there is a line before the kernel and
    one behind the first token of its body. -/
theorem weft_use_kernel {function body : NodeId} {name param : String} {first open' : TokenId}
    (hon : doc.config.platform.bindsGlobals = true)
    (hkernel : kernel? use = some (function, name, param)) (hfirst : doc.Starts function first)
    (hbody : Outline.functionBody? doc.tree function = some body)
    (hopen : doc.Starts body open') {w₁ w₂ : TokenId → Weft}
    (hw₁ : w₁ = Weft.recut (weft doc head types done) use.keyword rest (replacement doc type use))
    (hw₂ : w₂ = Function.update w₁ first
      { w₁ first with lead := (w₁ first).lead ++ globalLine doc type function name param })
    (x : TokenId) :
    weft doc head types (done ++ [(type, use)]) x
      = Function.update w₂ open'
          { w₂ open' with
            trail := (w₂ open').trail ++ bindLine doc type function name param } x := by
  -- what each of the writes leaves of the parts, and then the parts that one more use adds to
  have hlead₁ : ∀ y, (w₁ y).lead = (weft doc head types done y).lead := fun y => by
    rw [hw₁, Weft.recut_lead]
  have htrail₁ : ∀ y, (w₁ y).trail = (weft doc head types done y).trail := fun y => by
    rw [hw₁, Weft.recut_trail]
  have hcore₁ : ∀ y, (w₁ y).core? = core? doc (done ++ [(type, use)]) y := fun y => by
    rw [hw₁, Weft.recut_core?, core?_use hcut hself]
    rfl
  have hlead₂ : ∀ y, (w₂ y).lead = (weft doc head types done y).lead
      ++ if y = first then globalLine doc type function name param else [] := by
    intro y
    rw [hw₂]
    by_cases hy : y = first
    · rw [hy, Function.update_self, if_pos rfl, hlead₁]
    · rw [Function.update_of_ne hy, if_neg hy, List.append_nil, hlead₁]
  have hsame₂ : ∀ y, (w₂ y).core? = (w₁ y).core? ∧ (w₂ y).trail = (w₁ y).trail := fun y => by
    rw [hw₂]
    exact ⟨update_proj Weft.core? (by rfl) y, update_proj Weft.trail (by rfl) y⟩
  have hlines : ∀ y, (weft doc head types (done ++ [(type, use)]) y).lead = (w₂ y).lead := by
    intro y
    rw [hlead₂]
    show head y ++ typeLines doc types y ++ kernelLines doc some _ _ y
      = head y ++ typeLines doc types y ++ kernelLines doc some _ _ y ++ _
    rw [kernelLines_append, kernelLines_one hon hkernel rfl hfirst, ← List.append_assoc]
  have hbinds : ∀ y, (weft doc head types (done ++ [(type, use)]) y).trail
      = (w₁ y).trail ++ if y = open' then bindLine doc type function name param else [] := by
    intro y
    rw [htrail₁]
    show kernelLines doc _ _ _ y = kernelLines doc _ _ _ y ++ _
    rw [kernelLines_append, kernelLines_one hon hkernel hbody hopen]
  have hcores : ∀ y, (weft doc head types (done ++ [(type, use)]) y).core? = (w₂ y).core? := by
    intro y
    rw [(hsame₂ y).1, hcore₁]
    rfl
  by_cases hx : x = open'
  · rw [hx, Function.update_self]
    refine Weft.ext (hlines _) (hcores _) ?_
    rw [hbinds, if_pos rfl, (hsame₂ _).2]
  · rw [Function.update_of_ne hx]
    refine Weft.ext (hlines _) (hcores _) ?_
    rw [hbinds, if_neg hx, List.append_nil, (hsame₂ _).2]

end Use

end KernelPrep.Weave
