/-
  KernelPrep.Proofs.Outline.SetOff — nodes within statements, type definitions and parameters.

  A statement and a type definition have tokens of their own before, between and behind the
  nodes in them.  Most of these nodes are in braces.  The others are the names behind the body
  of a struct: a word is a name only where an initialiser is over and no group is open, so that
  a comma or a closing delimiter sets it off from the words before it.

  Main definitions:
    * `Branch.SetOff` — each node among the parts is in braces or set off;
    * `Branch.Parted` — so are those in a node of one of these kinds.

  Main statement: `Outline.Reads.parted` — all nodes that are read are parted so.
-/
import KernelPrep.Proofs.Outline.Branching

namespace KernelPrep

open Branch (leavesAll nodesAll)

namespace Branch

/-- There is a brace among the leaves. -/
def Braced (leaves : List Leaf) : Prop := ∃ brace ∈ leaves, brace.kind = .lbrace

/-- Behind each word comes a comma or a closing delimiter. -/
def Ended (parts : List Branch) : Prop :=
  ∀ before word behind, parts = before ++ .leaf word :: behind → word.kind = .symbol →
    ∃ mark, .leaf mark ∈ behind ∧ (mark.kind = .comma ∨ mark.kind.isCloser = true)

/-- Each node among the parts is in braces, or the words before it are ended. -/
def SetOff (parts : List Branch) : Prop :=
  ∀ before kind inside behind, parts = before ++ .node kind inside :: behind →
    Braced (leavesAll inside) ∨ Ended before

/-- The kinds of constructs with tokens of their own between nodes. -/
def isParted : NodeKind → Bool
  | .statement | .functionParams | .typedef => true
  | _ => false

/-- A node of one of these kinds has its nodes set off. -/
def Parted : Branch → Prop
  | .leaf _ => True
  | .node kind parts => isParted kind = true → SetOff parts

theorem setOff_leaves (leaves : List Leaf) : SetOff (leaves.map .leaf) := by
  intro before kind inside behind hparts
  have hin : Branch.node kind inside ∈ leaves.map .leaf := by
    rw [hparts]
    simp
  simp at hin

theorem parted_of_kind {kind : NodeKind} (h : isParted kind = false) (parts : List Branch) :
    Parted (.node kind parts) := by
  intro hkind
  rw [h] at hkind
  exact Bool.noConfusion hkind

/-- Nothing has to be set off from a leaf that is no word. -/
theorem Ended.cons {x : Leaf} {parts : List Branch} (hx : x.kind ≠ .symbol) (h : Ended parts) :
    Ended (.leaf x :: parts) := by
  intro before word behind hparts hword
  cases before with
  | nil =>
    obtain ⟨hsame, -⟩ := List.cons.inj hparts
    obtain rfl := Branch.leaf.inj hsame
    exact absurd hword hx
  | cons first before => exact h before word behind (List.cons.inj hparts).2 hword

/-- A mark ends the words before it. -/
theorem Ended.of_mark {parts : List Branch} {mark : Leaf} (hmem : .leaf mark ∈ parts)
    (hmark : mark.kind = .comma ∨ mark.kind.isCloser = true) (h : Ended parts) {x : Branch} :
    Ended (x :: parts) := by
  intro before word behind hparts hword
  cases before with
  | nil =>
    obtain ⟨-, rfl⟩ := List.cons.inj hparts
    exact ⟨mark, hmem, hmark⟩
  | cons first before => exact h before word behind (List.cons.inj hparts).2 hword

theorem ended_nil : Ended [] := by
  intro before word behind hparts
  simp at hparts

/-- A group is ended by its closing delimiter. -/
theorem Ended.group {leaves : List Leaf} {parts : List Branch} (hgroup : Outline.Group leaves)
    (h : Ended parts) : Ended (leaves.map .leaf ++ parts) := by
  obtain ⟨opener, inner, closer, rfl, hcloser, -⟩ := hgroup
  obtain ⟨hopens, hcloses⟩ := Outline.closer?_isCloser hcloser
  have hlast : Ended (.leaf closer :: parts) := h.cons fun hk => by
    rw [hk] at hcloses
    exact Bool.noConfusion hcloses
  have hinner : Ended (inner.map .leaf ++ .leaf closer :: parts) := by
    clear hopens hcloser
    induction inner with
    | nil => exact hlast
    | cons x inner ih => exact Ended.of_mark (by simp) (.inr hcloses) ih
  have hall : (opener :: (inner ++ [closer])).map Branch.leaf ++ parts
      = .leaf opener :: (inner.map .leaf ++ .leaf closer :: parts) := by
    simp
  rw [hall]
  exact hinner.cons fun hk => by
    rw [hk] at hopens
    exact Bool.noConfusion hopens

/-- Splitting at a node passes over leaves. -/
theorem split_leaf {x : Leaf} {parts before behind : List Branch} {kind : NodeKind}
    {inside : List Branch} (h : .leaf x :: parts = before ++ .node kind inside :: behind) :
    ∃ before', before = .leaf x :: before' ∧ parts = before' ++ .node kind inside :: behind := by
  cases before with
  | nil => exact Branch.noConfusion (List.cons.inj h).1
  | cons first before =>
    obtain ⟨rfl, hparts⟩ := List.cons.inj h
    exact ⟨before, rfl, hparts⟩

/-- A node behind plain leaves is among the parts behind them. -/
theorem split_leaves {leaves : List Leaf} {parts before behind : List Branch} {kind : NodeKind}
    {inside : List Branch}
    (h : leaves.map .leaf ++ parts = before ++ .node kind inside :: behind) :
    ∃ before', before = leaves.map .leaf ++ before'
      ∧ parts = before' ++ .node kind inside :: behind := by
  induction leaves generalizing before with
  | nil => exact ⟨before, rfl, h⟩
  | cons x leaves ih =>
    rw [List.map_cons, List.cons_append] at h
    obtain ⟨front, rfl, hfront⟩ := split_leaf h
    obtain ⟨before', rfl, hrest⟩ := ih hfront
    exact ⟨before', rfl, hrest⟩

/-- One leaf before parts with their nodes set off. -/
theorem SetOff.cons {x : Leaf} {parts : List Branch} (hx : x.kind ≠ .symbol)
    (h : SetOff parts) : SetOff (.leaf x :: parts) := by
  intro before kind inside behind hparts
  obtain ⟨before, rfl, hrest⟩ := split_leaf hparts
  exact (h before kind inside behind hrest).imp_right fun hended => hended.cons hx

end Branch

namespace Outline

open Branch (SetOff Parted Ended Braced split_leaf split_leaves)

/-- **A name** is set off from the words before it, and from the initialiser, if it is behind
    one. -/
theorem Declarators.ended {initialiser : Bool} {parts : List Branch}
    (h : Declarators initialiser parts) {before behind : List Branch} {kind : NodeKind}
    {inside : List Branch} (hparts : parts = before ++ .node kind inside :: behind) :
    Ended before ∧ (initialiser = true → ∃ mark, .leaf mark ∈ before ∧ mark.kind = .comma) := by
  induction h generalizing before with
  | finish =>
    obtain ⟨before', -, hrest⟩ := split_leaf hparts
    simp at hrest
  | group hgroup _ ih =>
    obtain ⟨before, rfl, hrest⟩ := split_leaves hparts
    obtain ⟨hended, hmark⟩ := ih hrest
    refine ⟨hended.group hgroup, fun hon => ?_⟩
    obtain ⟨mark, hin, hcomma⟩ := hmark hon
    exact ⟨mark, List.mem_append_right _ hin, hcomma⟩
  -- a name ends no initialiser, and what is before it is no node
  | @name leaf rest hsymbol _ ih =>
    cases before with
    | nil => exact ⟨Branch.ended_nil, fun hon => Bool.noConfusion hon⟩
    | cons first before =>
      obtain ⟨rfl, hrest⟩ := List.cons.inj hparts
      refine ⟨?_, fun hon => Bool.noConfusion hon⟩
      intro a word b hsplit hword
      cases a with
      | nil => exact Branch.noConfusion (List.cons.inj hsplit).1
      | cons _ a => exact (ih hrest).1 a word b (List.cons.inj hsplit).2 hword
  -- a word belongs to an initialiser, which a comma ends before the next name
  | word _ _ ih =>
    obtain ⟨before, rfl, hrest⟩ := split_leaf hparts
    obtain ⟨hended, hmark⟩ := ih hrest
    obtain ⟨mark, hin, hcomma⟩ := hmark rfl
    exact ⟨Ended.of_mark hin (.inl hcomma) hended,
      fun _ => ⟨mark, List.mem_cons_of_mem _ hin, hcomma⟩⟩
  | assign hassign _ ih =>
    obtain ⟨before, rfl, hrest⟩ := split_leaf hparts
    obtain ⟨hended, hmark⟩ := ih hrest
    obtain ⟨mark, hin, hcomma⟩ := hmark rfl
    exact ⟨hended.cons (by simp [hassign]), fun _ => ⟨mark, List.mem_cons_of_mem _ hin, hcomma⟩⟩
  | comma hcomma _ ih =>
    obtain ⟨before, rfl, hrest⟩ := split_leaf hparts
    exact ⟨(ih hrest).1.cons (by simp [hcomma]), fun _ => ⟨_, List.mem_cons_self, hcomma⟩⟩
  | other _ hsymbol _ _ ih =>
    obtain ⟨before, rfl, hrest⟩ := split_leaf hparts
    obtain ⟨hended, hmark⟩ := ih hrest
    refine ⟨hended.cons hsymbol, fun hon => ?_⟩
    obtain ⟨mark, hin, hcomma⟩ := hmark hon
    exact ⟨mark, List.mem_cons_of_mem _ hin, hcomma⟩

theorem Reads.block_braced {block : Branch} {rest : List Leaf} (h : Reads .block [block] rest) :
    Braced block.leaves := by
  obtain ⟨opener, parts, closer, heq, hopener, -⟩ := h.block_inv
  obtain ⟨rfl, -⟩ := List.cons.inj heq
  exact ⟨opener, by simp, hopener⟩

/-- The nodes in a statement are in braces. -/
theorem Reads.tail_braced {goesOn : Bool} {parts : List Branch} {rest : List Leaf}
    (h : Reads (.tail goesOn) parts rest) {kind : NodeKind} {inside : List Branch}
    (hnode : .node kind inside ∈ parts) : Braced (leavesAll inside) := by
  generalize hpart : Part.tail goesOn = part at h
  -- by induction on the tail: its only nodes are blocks
  induction h generalizing goesOn with
  | tailEnd => simp at hnode
  | tailSemicolon => simp at hnode
  | tailBlock hblock =>
    have hbraced := hblock.block_braced
    rw [← List.mem_singleton.mp hnode] at hbraced
    simpa using hbraced
  | tailBlockOn hblock _ _ ih =>
    rcases List.mem_cons.mp hnode with rfl | hnode
    · simpa using hblock.block_braced
    · exact ih hnode rfl
  | tailGroup _ _ _ _ ih =>
    have hnode := (List.mem_append.mp hnode).resolve_left (by simp)
    exact ih hnode rfl
  | tailAssign _ _ ih => exact ih (by simpa using hnode) rfl
  | tailWord _ _ ih => exact ih (by simpa using hnode) rfl
  | _ => exact Part.noConfusion hpart

theorem Reads.tail_setOff {goesOn : Bool} {parts : List Branch} {rest : List Leaf}
    (h : Reads (.tail goesOn) parts rest) : SetOff parts := by
  rintro before kind inside behind rfl
  exact .inl (h.tail_braced (List.mem_append_right _ List.mem_cons_self))

/-- An aggregate is set off by braces. -/
theorem Reads.aggregate_braced {parts : List Branch} {rest : List Leaf}
    (h : Reads .aggregate parts rest) : Braced (leavesAll parts) := by
  cases h with
  | struct _ hblock =>
    obtain ⟨brace, hin, hbrace⟩ := hblock.block_braced
    exact ⟨brace, by simp [hin], hbrace⟩
  | structTagged _ _ hblock =>
    obtain ⟨brace, hin, hbrace⟩ := hblock.block_braced
    exact ⟨brace, by simp [hin], hbrace⟩

/-- The names behind the body of a struct are set off, and the body is in braces. -/
theorem Declarators.setOff {names inside : List Branch} {kind : NodeKind}
    (h : Declarators false names) (hbraced : Braced (leavesAll inside)) :
    SetOff (.node kind inside :: names) := by
  intro before kind' inside' behind hparts
  cases before with
  | nil =>
    obtain ⟨hsame, -⟩ := List.cons.inj hparts
    obtain ⟨-, rfl⟩ := Branch.node.inj hsame
    exact .inl hbraced
  | cons first before =>
    obtain ⟨rfl, hrest⟩ := List.cons.inj hparts
    refine .inr ?_
    intro a word b hsplit hword
    cases a with
    | nil => exact Branch.noConfusion (List.cons.inj hsplit).1
    | cons _ a => exact (h.ended hrest).1 a word b (List.cons.inj hsplit).2 hword

/-- A node of the grammar has its nodes set off, where it has tokens of its own between
    these. -/
theorem Formed.parted {node : Branch} (h : Formed node) : Parted node := by
  cases h with
  | block => exact Branch.parted_of_kind rfl _
  | directive => exact Branch.parted_of_kind rfl _
  | single hkind =>
    simp only [List.mem_cons, List.not_mem_nil, or_false] at hkind
    rcases hkind with rfl | rfl | rfl <;> exact Branch.parted_of_kind rfl _
  | statement _ htail => exact fun _ => htail.tail_setOff
  | typedef hfirst htail => exact fun _ => SetOff.cons (by simp [hfirst]) htail.tail_setOff
  | typedefStruct hfirst hstruct hnames =>
    exact fun _ => SetOff.cons (by simp [hfirst]) (hnames.setOff hstruct.aggregate_braced)
  | structDecl => exact Branch.parted_of_kind rfl _
  | structDefn => exact Branch.parted_of_kind rfl _
  | params => exact fun _ => Branch.setOff_leaves _
  | @function kind _ _ _ hkind =>
    cases kind <;> first | exact Branch.parted_of_kind rfl _ | cases hkind
  | linkage => exact Branch.parted_of_kind rfl _

/-- **The nodes that are read** have their nodes set off. -/
theorem Reads.parted {part : Part} {branches : List Branch} {rest : List Leaf}
    (h : Reads part branches rest) : ∀ node ∈ nodesAll branches, Parted node :=
  fun node hnode => (h.formed node hnode).parted

end Outline

end KernelPrep
