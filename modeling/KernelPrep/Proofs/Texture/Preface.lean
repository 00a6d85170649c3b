/-
  KernelPrep.Proofs.Texture.Preface — the uses of textures behind a line put first.

  The line that includes the header comes before the first significant token of the file.
  Nothing that is looked at to find uses of textures goes back that far, so the same uses
  are found as before.

  Main definitions:
    * `Prefaced` — a run was put before the first significant token.

  Main statements:
    * `Prefaced.paramContext_eq` — a parameter list belongs to the same kernel;
    * `Prefaced.scan_eq`         — the uses in one node;
    * `Prefaced.discover_eq`     — all uses.
-/
import KernelPrep.Proofs.Texture.Census
import KernelPrep.Proofs.Texture.Growth

namespace KernelPrep

open NodeTree (Below Forest root)

/-- What is found going back is in the file. -/
theorem TokenList.Threaded.mem_prevSignificant? {list : TokenList} {file : List TokenId}
    (h : list.Threaded file) {x u : TokenId} (hx : x ∈ file)
    (hu : list.prevSignificant? x = some u) : u ∈ file := by
  obtain ⟨a, b, hfile⟩ := List.append_of_mem hx
  rw [h.prevSignificant?_eq hfile] at hu
  rw [hfile]
  exact List.mem_append_left _ (List.mem_reverse.mp (List.mem_of_find?_eq_some hu))

/-- A symbol found going back is in the file. -/
theorem TokenList.Threaded.mem_symbolBefore? {list : TokenList} {file : List TokenId}
    (h : list.Threaded file) {start name : TokenId} {fuel : Nat} {id? : Option TokenId}
    (hid : ∀ id, id? = some id → id ∈ file)
    (heq : Outline.symbolBefore? list start fuel id? = some name) : name ∈ file := by
  induction fuel generalizing id? with
  | zero => simp [Outline.symbolBefore?] at heq
  | succ fuel ih =>
    cases id? with
    | none => simp [Outline.symbolBefore?] at heq
    | some id =>
      rw [Outline.symbolBefore?] at heq
      split at heq
      · exact hid name heq
      · split at heq
        · simp at heq
        · exact ih (fun u hu => h.mem_prevSignificant? (hid id rfl) hu) heq

/-- The name of a function is a token of the file. -/
theorem Loaded.mem_functionName? {doc : Document} (h : Loaded doc) {function : NodeId}
    (hfunction : Below doc.tree.children root function) {name : TokenId}
    (hname : Outline.functionName? doc.tokens doc.tree function = some name) :
    name ∈ doc.tokens.ids := by
  unfold Outline.functionName? at hname
  obtain ⟨params, hparams, hname⟩ := Option.bind_eq_some_iff.mp hname
  obtain ⟨inner, hinner, hname⟩ := Option.bind_eq_some_iff.mp hname
  obtain ⟨outer, -, hname⟩ := Option.bind_eq_some_iff.mp hname
  have hchild := List.mem_of_find?_eq_some hparams
  refine h.threaded.mem_symbolBefore? (fun u hu => ?_) hname
  refine h.threaded.mem_prevSignificant? ?_ hu
  exact (h.starts (hfunction.tail hchild) (h.forest.child_ne_root hchild) ⟨inner, hinner, rfl⟩).1

/-- The document `doc'` is `doc` with a run before the first significant token and a node for
    it before the first construct. -/
structure Prefaced (doc doc' : Document) (before run : List TokenId) (first : TokenId)
    (after : List TokenId) : Prop where
  was : doc.tokens.ids = before ++ first :: after
  now : doc'.tokens.Threaded (before ++ run ++ first :: after)
  face : ∀ x ∈ doc.tokens.ids, doc'.tokens.face? x = doc.tokens.face? x
  trivia : ∀ x ∈ before, doc.tokens.isSignificant x = false
  significant : doc.tokens.isSignificant first = true
  sprouted : ∃ range, doc.tree.Sprouted doc'.tree root range (· = root)

/-- Looking back from a token finds no later token than it and no earlier one than a significant
    token before it. -/
theorem Loaded.prevSignificant?_between {doc : Document} (h : Loaded doc) {x start : TokenId}
    (hx : x ∈ doc.tokens.ids) (hstart : start ∈ doc.tokens.ids)
    (hsig : doc.tokens.isSignificant start = true) (hlt : start.index < x.index) :
    ∃ u, doc.tokens.prevSignificant? x = some u ∧ u ∈ doc.tokens.ids
      ∧ doc.tokens.isSignificant u = true ∧ start.index ≤ u.index ∧ u.index < x.index := by
  obtain ⟨a, b, hfile⟩ := List.append_of_mem hx
  have hpair := h.unedited.pairwise_index
  rw [hfile] at hpair hstart
  obtain ⟨hapair, hbpair, hab⟩ := List.pairwise_append.mp hpair
  have hstart : start ∈ a := by
    rcases List.mem_append.mp hstart with hin | hin
    · exact hin
    · rcases List.mem_cons.mp hin with rfl | hin
      · exact absurd hlt (Nat.lt_irrefl _)
      · exact absurd hlt (Nat.lt_asymm ((List.pairwise_cons.mp hbpair).1 start hin))
  rw [h.threaded.prevSignificant?_eq hfile]
  -- the search finds something, since the start is on its way
  obtain ⟨u, hu⟩ := Option.isSome_iff_exists.mp
    (List.find?_isSome.mpr ⟨start, List.mem_reverse.mpr hstart, hsig⟩)
  have hua : u ∈ a := List.mem_reverse.mp (List.mem_of_find?_eq_some hu)
  refine ⟨u, hu, ?_, List.find?_some hu, ?_, hab u hua x List.mem_cons_self⟩
  · rw [hfile]
    exact List.mem_append_left _ hua
  · obtain ⟨-, late, early, hsplit, hnone⟩ := List.find?_eq_some_iff_append.mp hu
    have ha : a = early.reverse ++ u :: late.reverse := by
      rw [← List.reverse_reverse a, hsplit]
      simp
    rw [ha] at hapair hstart
    obtain ⟨-, -, hearly⟩ := List.pairwise_append.mp hapair
    rcases List.mem_append.mp hstart with hin | hin
    · exact Nat.le_of_lt (hearly start hin u List.mem_cons_self)
    · rcases List.mem_cons.mp hin with rfl | hin
      · exact Nat.le_refl _
      · have hfalse := hnone start (List.mem_reverse.mp hin)
        rw [hsig] at hfalse
        exact Bool.noConfusion hfalse

namespace Prefaced

variable {doc doc' : Document} {before run : List TokenId} {first : TokenId}
  {after : List TokenId}

/-! ## §1. Tokens -/

section Tokens

variable {x : TokenId}

/-- The tokens of the file have the kinds they had. -/
theorem kind?_eq (h : Prefaced doc doc' before run first after) (hx : x ∈ doc.tokens.ids) :
    doc'.tokens.kind? x = doc.tokens.kind? x :=
  TokenList.kind?_congr (h.face x hx)

/-- The tokens of the file have the texts they had. -/
theorem textOf_eq (h : Prefaced doc doc' before run first after) (hx : x ∈ doc.tokens.ids) :
    doc'.tokens.textOf x = doc.tokens.textOf x :=
  TokenList.textOf_congr (h.face x hx)

/-- The tokens of the file have the lines they had. -/
theorem lineOf_eq (h : Prefaced doc doc' before run first after) (hx : x ∈ doc.tokens.ids) :
    doc'.tokens.lineOf x = doc.tokens.lineOf x := by
  rw [TokenList.lineOf_eq_face?, TokenList.lineOf_eq_face?, h.face x hx]

/-- The tokens of the file count as they did. -/
theorem isSignificant_eq (h : Prefaced doc doc' before run first after)
    (hx : x ∈ doc.tokens.ids) : doc'.tokens.isSignificant x = doc.tokens.isSignificant x := by
  unfold TokenList.isSignificant
  rw [h.kind?_eq hx]

/-- A stretch that begins with a significant token lies behind the run. -/
theorem behind (h : Prefaced doc doc' before run first after) {a middle b : List TokenId}
    (hfile : doc.tokens.ids = a ++ middle ++ b) (hhead : middle.head? = some x)
    (hx : doc.tokens.isSignificant x = true) :
    ∃ c, a = before ++ c ∧ first :: after = c ++ middle ++ b := by
  rw [h.was, List.append_assoc] at hfile
  rcases List.append_eq_append_iff.mp hfile with ⟨c, ha, hc⟩ | ⟨c, hbefore, hc⟩
  · exact ⟨c, ha, by rw [hc, List.append_assoc]⟩
  · cases c with
    | nil =>
      rw [List.append_nil] at hbefore
      rw [List.nil_append] at hc
      exact ⟨[], by simp [hbefore], by rw [← hc]; rfl⟩
    | cons y c =>
      obtain ⟨middle', rfl⟩ := List.head?_eq_some_iff.mp hhead
      obtain rfl : x = y := by
        rw [List.cons_append, List.cons_append] at hc
        exact (List.cons.inj hc).1
      have htrivia := h.trivia x (by simp [hbefore])
      rw [hx] at htrivia
      exact Bool.noConfusion htrivia

/-- What counts does not stand before the first that counts. -/
theorem first_le (h : Prefaced doc doc' before run first after) (h₀ : Loaded doc)
    (hmem : x ∈ doc.tokens.ids) (hx : doc.tokens.isSignificant x = true) :
    first.index ≤ x.index := by
  have hpair := h₀.unedited.pairwise_index
  rw [h.was] at hpair hmem
  rcases List.mem_append.mp hmem with hin | hin
  · have htrivia := h.trivia x hin
    rw [hx] at htrivia
    exact Bool.noConfusion htrivia
  · rcases List.mem_cons.mp hin with rfl | hin
    · exact Nat.le_refl _
    · have hafter := (List.pairwise_append.mp hpair).2.1
      exact Nat.le_of_lt ((List.pairwise_cons.mp hafter).1 x hin)

/-- A search in the file finds what it did. -/
theorem find?_eq (h : Prefaced doc doc' before run first after) {ids : List TokenId}
    (hids : ∀ y ∈ ids, y ∈ doc.tokens.ids) :
    ids.find? doc'.tokens.isSignificant = ids.find? doc.tokens.isSignificant :=
  List.find?_congr fun y hy => h.isSignificant_eq (hids y hy)

/-- Going on from a token that counts is going on as before. -/
theorem nextSignificant?_eq (h : Prefaced doc doc' before run first after) (h₀ : Loaded doc)
    (hmem : x ∈ doc.tokens.ids) (hx : doc.tokens.isSignificant x = true) :
    doc'.tokens.nextSignificant? x = doc.tokens.nextSignificant? x := by
  obtain ⟨a, b, hfile⟩ := List.append_of_mem hmem
  have hsplit : doc.tokens.ids = a ++ [x] ++ b := by simp [hfile]
  obtain ⟨c, rfl, hc⟩ := h.behind hsplit rfl hx
  have hnow : before ++ run ++ first :: after = (before ++ run ++ c) ++ x :: b := by
    rw [hc]
    simp
  rw [h.now.nextSignificant?_eq hnow, h₀.threaded.nextSignificant?_eq hfile]
  exact h.find?_eq fun y hy => by simp [hfile, hy]

/-- Behind the first significant token nothing looks back beyond it. -/
theorem prevSignificant?_eq (h : Prefaced doc doc' before run first after) (h₀ : Loaded doc)
    (hmem : x ∈ doc.tokens.ids) (hx : doc.tokens.isSignificant x = true) (hne : x ≠ first) :
    doc'.tokens.prevSignificant? x = doc.tokens.prevSignificant? x := by
  obtain ⟨a, b, hfile⟩ := List.append_of_mem hmem
  have hsplit : doc.tokens.ids = a ++ [x] ++ b := by simp [hfile]
  obtain ⟨c, rfl, hc⟩ := h.behind hsplit rfl hx
  have hnow : before ++ run ++ first :: after = (before ++ run ++ c) ++ x :: b := by
    rw [hc]
    simp
  rw [h.now.prevSignificant?_eq hnow, h₀.threaded.prevSignificant?_eq hfile]
  cases c with
  | nil => exact absurd (List.cons.inj hc).1.symm hne
  | cons y c =>
    obtain ⟨rfl, -⟩ := List.cons.inj hc
    -- the walk finds the first significant token at the latest
    have hfound : ∃ u, (first :: c).reverse.find? doc.tokens.isSignificant = some u :=
      Option.isSome_iff_exists.mp (List.find?_isSome.mpr ⟨first, by simp, h.significant⟩)
    obtain ⟨u, hu⟩ := hfound
    have hu' : (first :: c).reverse.find? doc'.tokens.isSignificant = some u := by
      rw [h.find?_eq fun y hy => ?_, hu]
      rw [hfile]
      simp only [List.mem_reverse, List.mem_cons] at hy
      simp only [List.mem_append, List.mem_cons]
      tauto
    have hlate : (before ++ first :: c).reverse.find? doc.tokens.isSignificant = some u := by
      rw [List.reverse_append, List.find?_append, hu, Option.some_or]
    rw [hlate, List.reverse_append, List.find?_append, hu', Option.some_or]

end Tokens

/-! ## §2. Functions -/

section Outline

variable {x function node : NodeId}

/-- The tree has only grown. -/
theorem grown (h : Prefaced doc doc' before run first after) (h₀ : Loaded doc) :
    doc.tree.Overgrown doc'.tree := by
  obtain ⟨range, hsprouted⟩ := h.sprouted
  exact (NodeTree.Overgrown.refl h₀.forest).sprout hsprouted

/-- The nodes below the root have the ranges they had. -/
theorem tokens?_eq (h : Prefaced doc doc' before run first after) (h₀ : Loaded doc)
    (hx : Below doc.tree.children root x) (hne : x ≠ root) :
    doc'.tree.tokens? x = doc.tree.tokens? x := by
  obtain ⟨range, hsprouted⟩ := h.sprouted
  refine hsprouted.tokens x ?_ hne
  rintro rfl
  exact absurd (h₀.index_lt hx) (Nat.lt_irrefl _)

/-- The first words of a function are where they were. -/
theorem isKernel_eq (h : Prefaced doc doc' before run first after) (h₀ : Loaded doc)
    (hx : Below doc.tree.children root function) :
    Outline.isKernel doc'.tokens doc'.tree function
      = Outline.isKernel doc.tokens doc.tree function := by
  have hkind := (h.grown h₀).kind function (h₀.index_lt hx)
  obtain ⟨n, hn⟩ := h₀.forest.live_of_attached (h₀.forest.attached_iff.mpr hx)
  have hkind₀ : doc.tree.kind? function = some n.kind := by
    unfold NodeTree.kind?
    rw [hn]
    rfl
  rw [hkind₀] at hkind
  obtain ⟨n', hn', hsame⟩ := Option.map_eq_some_iff.mp hkind
  unfold Outline.isKernel
  rw [hn, hn']
  dsimp only
  rw [hsame]
  cases hfun : n.kind.isFunction with
  | false =>
    cases n.tokens? <;> cases n'.tokens? <;> rfl
  | true =>
    obtain ⟨hplain, -⟩ := h₀.plain_of_isFunction hkind₀ hfun
    obtain ⟨range, hrange, ⟨hmem, hsig, -⟩, -⟩ := h₀.range hplain.below hplain.ne_root
    have hrange' := (h.tokens?_eq h₀ hplain.below hplain.ne_root).trans hrange
    have htokens : n.tokens? = some range := by
      unfold NodeTree.tokens? at hrange
      rw [hn] at hrange
      exact hrange
    have htokens' : n'.tokens? = some range := by
      unfold NodeTree.tokens? at hrange'
      rw [hn'] at hrange'
      exact hrange'
    rw [htokens, htokens']
    dsimp only
    rw [h.textOf_eq hmem, h.nextSignificant?_eq h₀ hmem hsig]
    cases hnext : doc.tokens.nextSignificant? range.first with
    | none => rfl
    | some linkage =>
      -- the tokens behind are significant ones of the file, too
      have hfound : ∀ {a b}, doc.tokens.nextSignificant? a = some b → a ∈ doc.tokens.ids →
          b ∈ doc.tokens.ids ∧ doc.tokens.isSignificant b = true := by
        intro a b hab ha
        obtain ⟨l, r, hfile⟩ := List.append_of_mem ha
        rw [h₀.threaded.nextSignificant?_eq hfile] at hab
        refine ⟨?_, List.find?_some hab⟩
        rw [hfile]
        exact List.mem_append_right _ (List.mem_cons_of_mem _ (List.mem_of_find?_eq_some hab))
      obtain ⟨hlmem, hlsig⟩ := hfound hnext hmem
      dsimp only
      rw [h.kind?_eq hlmem, h.textOf_eq hlmem, h.nextSignificant?_eq h₀ hlmem hlsig]
      cases hthird : doc.tokens.nextSignificant? linkage with
      | none => rfl
      | some third =>
        rw [Option.any_some, Option.any_some, h.textOf_eq (hfound hthird hlmem).1]

/-- The nearest symbol is looked for between two significant tokens of the file, so that the
    run plays no part; nor do the bounds of the walks. -/
theorem symbolBefore?_eq (h : Prefaced doc doc' before run first after) (h₀ : Loaded doc)
    {start token : TokenId} {fuel fuel' : Nat} (hstart : start ∈ doc.tokens.ids)
    (hsig : doc.tokens.isSignificant start = true) (hmem : token ∈ doc.tokens.ids)
    (htoken : doc.tokens.isSignificant token = true) (hle : start.index ≤ token.index)
    (hfuel : token.index < fuel) (hfuel' : token.index < fuel') :
    Outline.symbolBefore? doc'.tokens start fuel' (some token)
      = Outline.symbolBefore? doc.tokens start fuel (some token) := by
  induction fuel generalizing token fuel' with
  | zero => omega
  | succ fuel ih =>
    cases fuel' with
    | zero => omega
    | succ fuel' =>
      rw [Outline.symbolBefore?, Outline.symbolBefore?, h.kind?_eq hmem]
      by_cases he : token = start
      · rw [if_pos he, if_pos he]
      · have hlt : start.index < token.index := by
          rcases Nat.lt_or_eq_of_le hle with hlt | heq
          · exact hlt
          · exact absurd (TokenId.ext_index heq.symm) he
        obtain ⟨u, hu, humem, husig, hlow, hhigh⟩ :=
          h₀.prevSignificant?_between hmem hstart hsig hlt
        -- the way back stops at the start of the function, so it does not reach the new line
        have hne : token ≠ first := by
          rintro rfl
          exact absurd (h.first_le h₀ hstart hsig) (Nat.not_le_of_lt hlt)
        rw [if_neg he, if_neg he, h.prevSignificant?_eq h₀ hmem htoken hne, hu,
          ih humem husig hlow (by omega) (by omega)]

/-- The name of a function stands between its first token and its parameter list. -/
theorem functionName?_eq (h : Prefaced doc doc' before run first after) (h₀ : Loaded doc)
    (hfun : doc.Plain function) (hkind : doc.tree.kind? function ≠ some .statement) :
    Outline.functionName? doc'.tokens doc'.tree function
      = Outline.functionName? doc.tokens doc.tree function := by
  have hparams : Outline.functionParams? doc'.tree function
      = Outline.functionParams? doc.tree function :=
    (h.grown h₀).childOfKind?_eq (h₀.index_lt hfun.below) (by simp)
  unfold Outline.functionName?
  rw [hparams]
  cases hp : Outline.functionParams? doc.tree function with
  | none => rfl
  | some params =>
    unfold Outline.functionParams? Outline.childOfKind? at hp
    have hchild := List.mem_of_find?_eq_some hp
    have hbelow := hfun.below.tail hchild
    have hne := h₀.forest.child_ne_root hchild
    obtain ⟨inner, hinner, ⟨hin, hinsig, hinner₁⟩, -⟩ := h₀.range hbelow hne
    obtain ⟨outer, houter, ⟨hout, houtsig, houter₁⟩, -⟩ := h₀.range hfun.below hfun.ne_root
    -- a function begins before its parameter list, so the walk back stays behind its start
    have hlead := (h₀.sheltered hfun.below hfun.ne_root).lead hkind params hchild
    have hlt : outer.first.index < inner.first.index := by
      rw [houter₁, hinner₁]
      exact hlead
    obtain ⟨u, hu, humem, husig, hlow, -⟩ := h₀.prevSignificant?_between hin hout houtsig hlt
    have hfirst : inner.first ≠ first := by
      intro he
      have hle := h.first_le h₀ hout houtsig
      rw [← he] at hle
      omega
    have hsize := h₀.unedited.mem_ids_iff.mp humem
    have hsize' : u.index < doc'.tokens.slots.size := by
      obtain ⟨token, htoken, -⟩ := h.now.get?_of_mem (show u ∈ _ by
        rw [h.was] at humem
        simp only [List.mem_append] at humem ⊢
        tauto)
      exact TokenList.index_lt_of_get? htoken
    simp only [Option.bind_eq_bind, Option.bind_some, h.tokens?_eq h₀ hbelow hne, hinner,
      h.tokens?_eq h₀ hfun.below hfun.ne_root, houter]
    rw [h.prevSignificant?_eq h₀ hin hinsig hfirst, hu]
    exact h.symbolBefore?_eq h₀ hout houtsig humem husig hlow (Nat.lt_succ_of_lt hsize)
      (Nat.lt_succ_of_lt hsize')

/-- **A parameter list** belongs to the same kernel. -/
theorem paramContext_eq (h : Prefaced doc doc' before run first after) (h₀ : Loaded doc)
    (hnode : doc.Plain node) :
    Occurrence.paramContext doc' node = Occurrence.paramContext doc node := by
  unfold Occurrence.paramContext
  rw [(h.grown h₀).parent node (h₀.index_lt hnode.below)]
  cases hp : doc.tree.parent? node with
  | none => rfl
  | some function =>
    obtain ⟨n, hn⟩ := h₀.forest.live_parent ((h₀.forest.parent_iff _ _).mp hp)
    have hbelow := h₀.below_root (NodeTree.index_lt_of_get? hn)
    dsimp only
    rw [h.isKernel_eq h₀ hbelow]
    -- only what is said of a kernel looks at its tokens
    cases hkernel : Outline.isKernel doc.tokens doc.tree function with
    | false => rfl
    | true =>
      obtain ⟨kind, -, hkind, hfunction, -⟩ := Loaded.isKernel_inv hkernel
      obtain ⟨hplain, hstatement⟩ := h₀.plain_of_isFunction hkind hfunction
      rw [h.functionName?_eq h₀ hplain hstatement]
      rw [if_pos rfl, if_pos rfl, (h.grown h₀).kind function (h₀.index_lt hbelow)]
      cases hname : Outline.functionName? doc.tokens doc.tree function with
      | none =>
        obtain ⟨range, hrange, ⟨hmem, -, -⟩, -⟩ := h₀.range hplain.below hplain.ne_root
        dsimp only
        rw [h.tokens?_eq h₀ hplain.below hplain.ne_root, hrange, Option.map_some, Option.map_some,
          h.lineOf_eq hmem]
      | some name =>
        have hmem := h₀.mem_functionName? hbelow hname
        dsimp only
        rw [h.textOf_eq hmem]

end Outline

/-! ## §3. Uses -/

section Uses

variable {node : NodeId}

/-- The nodes other than the root have the children they had. -/
theorem children_eq (h : Prefaced doc doc' before run first after) (hne : node ≠ root) :
    doc'.tree.children node = doc.tree.children node := by
  obtain ⟨range, hsprouted⟩ := h.sprouted
  rw [← hsprouted.children node, eq_comm, List.filter_eq_self]
  intro child hchild
  have hup := (hsprouted.forest.parent_iff _ _).mpr hchild
  have hold : child ≠ doc.tree.nextId := by
    rintro rfl
    rw [hsprouted.parent, if_pos rfl] at hup
    exact hne (Option.some.inj hup).symm
  simpa using hold

/-- The own tokens of a node are what they were. -/
theorem ownTokens_eq (h : Prefaced doc doc' before run first after) (h₀ : Loaded doc)
    (hnode : doc.Plain node) : doc'.ownTokens node = doc.ownTokens node := by
  obtain ⟨range, hrange, ⟨hmem, hsig, hstart⟩, hlast, hstop⟩ :=
    h₀.range hnode.below hnode.ne_root
  have hle : range.first.index ≤ range.last.index := by
    rw [hstart, hstop]
    exact h₀.start_le_stop hnode.below hnode.ne_root
  obtain ⟨a, b, hfile, hends, -⟩ := h₀.unedited.range_eq hlast hle
  -- the whole node is behind the run
  obtain ⟨c, rfl, hc⟩ := h.behind hfile hends.1 hsig
  have hnow : before ++ run ++ first :: after
      = (before ++ run ++ c) ++ doc.tokens.range range ++ b := by
    rw [hc]
    simp
  have hrange' : doc'.tokens.range range = doc.tokens.range range :=
    (hnow ▸ h.now).range_eq hends.1 hends.2
  have hchildren : (doc.tree.children node).filterMap doc'.tree.tokens?
      = (doc.tree.children node).filterMap doc.tree.tokens? := by
    refine List.filterMap_congr fun child hchild => ?_
    exact h.tokens?_eq h₀ (hnode.below.tail hchild) (h₀.forest.child_ne_root hchild)
  unfold Document.ownTokens
  rw [h.tokens?_eq h₀ hnode.below hnode.ne_root, hrange]
  dsimp only
  rw [h.children_eq hnode.ne_root, hchildren, hrange']
  refine Document.ownFrom_congr (fun x hx => h.isSignificant_eq ?_) _ _
  rw [hfile]
  exact List.mem_append_left _ (List.mem_append_right _ hx)

/-- **The uses in a node** are the same. -/
theorem scan_eq (h : Prefaced doc doc' before run first after) (h₀ : Loaded doc)
    (hnode : doc.Plain node) : Occurrence.scan doc' node = Occurrence.scan doc node := by
  unfold Occurrence.scan
  rw [(h.grown h₀).kind node (h₀.index_lt hnode.below), h.ownTokens_eq h₀ hnode,
    Occurrence.scanFrom_congr (h.paramContext_eq h₀ hnode)]
  -- the tokens are the same up to their links, which a scan does not read
  refine (Occurrence.scanFrom_bare ..).symm.trans (Eq.trans ?_ (Occurrence.scanFrom_bare ..))
  congr 1
  rw [List.map_filterMap, List.map_filterMap]
  refine List.filterMap_congr fun x hx => ?_
  have hface := h.face x (h₀.mem_ownTokens hnode hx).1
  unfold TokenList.face? at hface
  cases hget : doc.tokens.get? x with
  | none =>
    rw [hget] at hface
    cases hget' : doc'.tokens.get? x with
    | none => rfl
    | some token' => simp [hget'] at hface
  | some token =>
    rw [hget] at hface
    obtain ⟨token', hget', he⟩ := Option.map_eq_some_iff.mp hface
    obtain ⟨hk, htext, hline⟩ : token'.kind = token.kind ∧ token'.text = token.text
        ∧ token'.line = token.line := by simpa using he
    rw [hget']
    simp [Occurrence.bare, hk, htext, hline]

/-- The nodes that are searched are what they were. -/
theorem candidates_eq (h : Prefaced doc doc' before run first after) (h₀ : Loaded doc) :
    Occurrence.candidates doc' = Occurrence.candidates doc := by
  obtain ⟨range, hsprouted⟩ := h.sprouted
  unfold Occurrence.candidates
  rw [← hsprouted.preOrder h₀.forest h₀.forest.root_live, List.filter_filter]
  refine List.filter_congr fun x _ => ?_
  rw [hsprouted.kind]
  by_cases hx : x = doc.tree.nextId
  · simp [hx, Occurrence.isSearched]
  · simp [hx]

/-- Groups depend on the keys of the uses only. -/
theorem groupAll_congr [ContentHash] {list list' : TokenList} {found : List Occurrence}
    (h : ∀ o ∈ found, Occurrence.key list' o = Occurrence.key list o) :
    Occurrence.groupAll list' found = Occurrence.groupAll list found := by
  rw [Occurrence.groupAll_eq, Occurrence.groupAll_eq, List.map_congr_left h]
  refine List.map_congr_left fun k _ => List.filter_congr fun o ho => ?_
  rw [h o ho]

/-- **All uses** are the same. -/
theorem discover_eq [ContentHash] (h : Prefaced doc doc' before run first after)
    (h₀ : Loaded doc) :
    Occurrence.discover doc' = Occurrence.discover doc := by
  have hscan : ∀ nodes : List NodeId, (∀ node ∈ nodes, node ∈ Occurrence.candidates doc) →
      nodes.mapM (Occurrence.scan doc') = nodes.mapM (Occurrence.scan doc) := by
    intro nodes hnodes
    induction nodes with
    | nil => rfl
    | cons node rest ih =>
      have hnode := (List.mem_filter.mp (hnodes node List.mem_cons_self)).2
      rw [List.mapM_cons, List.mapM_cons, h.scan_eq h₀ (h₀.plain_of_searched hnode).1,
        ih fun x hx => hnodes x (List.mem_cons_of_mem _ hx)]
  have hall : Occurrence.findAll doc' = Occurrence.findAll doc := by
    unfold Occurrence.findAll
    rw [h.candidates_eq h₀, hscan _ fun _ hn => hn]
  rw [Occurrence.discover_eq, Occurrence.discover_eq, hall]
  cases hfound : Occurrence.findAll doc with
  | error error => rfl
  | ok found =>
    show Except.ok _ = Except.ok _
    congr 1
    -- the keys are made of words of the file, which are what they were
    refine groupAll_congr fun o ho => ?_
    have hf := (Occurrence.findAll_ok hfound).1 o ho
    have hplain := (h₀.plain_of_searched hf.searched).1
    unfold Occurrence.key
    refine congrArg ContentHash.combine (List.map_congr_left fun x hx => ?_)
    refine congrArg (Option.getD · 0) (TokenList.hash?_congr (h.face x ?_))
    rcases List.mem_cons.mp hx with rfl | hx
    · exact (h₀.mem_ownTokens hplain hf.keyword_mem).1
    · exact (h₀.mem_ownTokens hplain (hf.texel_mem hx)).1

end Uses

end Prefaced

end KernelPrep
