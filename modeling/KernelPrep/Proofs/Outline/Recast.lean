/-
  KernelPrep.Proofs.Outline.Recast — an outline of leaves that took the place of others.

  When a file is worked on, a leaf stays what it is, or another takes its place, or it is gone,
  and lines are put before it or behind it.  The new leaves have an outline if the changes
  respect the nodes of the old one: outside of statements and parameter lists every leaf has
  one in its place; a statement may lose words and whole blocks, but never the first leaf and
  never the last block; a parameter list keeps its parentheses and stays nested between them;
  and lines stand where a construct may begin.

  Main definitions:
    * `Outline.CallLine`, `Outline.ScopeLine` — lines that are put in;
    * `Recast`         — what becomes of each leaf;
    * `Recast.Soft`    — the parts of a statement, of which some are gone;
    * `Recast.Fit`     — the changes respect a node;
    * `Recast.Frees`   — what may stand before a part that is gone.

  Main statements:
    * `Outline.Preface.items`, `Outline.Calls.body` — lines are constructs;
    * `Recast.recasts_block` and so on — one rule of the grammar, for the new leaves;
    * `Outline.Reads.recast_nested` — what nests is made of the new leaves as of the old ones;
    * `Recast.soft_of_parts` — the parts of a statement, part by part.
-/
import KernelPrep.Proofs.Outline.Declaring

namespace KernelPrep

open Outline (Nested Like Reads)
open Branch (leavesAll nodesAll)

/-! ## §1. Lines put in -/

namespace Outline

/-- A call as a line: a word, arguments in parentheses and a `;`. -/
def CallLine (leaves : List Leaf) : Prop :=
  ∃ word opener arguments closer last, leaves = word :: opener :: (arguments ++ [closer, last])
    ∧ word.kind = .symbol ∧ opener.kind = .lparen ∧ closer.kind = .rparen ∧ Nested arguments
    ∧ last.kind = .semicolon

/-- A line that may be put before a construct at file scope: a directive, a type definition by a
    macro, or a call. -/
inductive ScopeLine : List Leaf → Prop where
  | directive {hash : Leaf} {body : List Leaf} : hash.kind = .hash →
      (∀ leaf ∈ body, leaf.startsLine = false) → ScopeLine (hash :: body)
  | typedef {first opener closer name last word : Leaf} {arguments : List Leaf} :
      first.kind = .typedef → word.kind = .symbol → opener.kind = .lparen →
      closer.kind = .rparen → Nested arguments → name.kind = .symbol → last.kind = .semicolon →
      ScopeLine (first :: word :: opener :: (arguments ++ [closer, name, last]))
  | call {leaves : List Leaf} : CallLine leaves → ScopeLine leaves

/-- The rest of a statement that is a call. -/
theorem CallLine.reads_tail {leaves : List Leaf} (h : CallLine leaves) (goesOn : Bool)
    (rest : List Leaf) : Reads (.tail goesOn) (leaves.map .leaf) rest := by
  obtain ⟨word, opener, arguments, closer, last, rfl, hword, ho, hc, harguments, hlast⟩ := h
  have hgroup : Group (opener :: (arguments ++ [closer])) :=
    ⟨opener, arguments, closer, rfl, by rw [ho, hc]; rfl, harguments⟩
  have hsplit : (word :: opener :: (arguments ++ [closer, last])).map Branch.leaf
      = .leaf word :: ((opener :: (arguments ++ [closer])).map .leaf ++ [.leaf last]) := by simp
  rw [hsplit]
  exact .tailWord (by rw [hword]; rfl) (.tailGroup hgroup rfl (.inl ho) (.tailSemicolon hlast))

/-- **A line at file scope** is read as one construct before a leaf that starts a line. -/
theorem ScopeLine.item {leaves rest : List Leaf} (h : ScopeLine leaves)
    (hrest : ∀ leaf ∈ rest.head?, leaf.startsLine = true) (hwords : ∀ leaf ∈ leaves,
      leaf.text = "extern" → leaf.kind = .symbol) :
    ∃ branch, branch.leaves = leaves ∧ Reads .item [branch] rest := by
  -- a construct that does not begin with a symbol opens no linkage block
  have hlinkage : ∀ {first : Leaf} {more : List Leaf}, leaves = first :: more →
      first.kind ≠ .symbol → atLinkageBlock { rest := leaves ++ rest } = false := by
    rintro first more rfl hk
    unfold atLinkageBlock
    have htext : first.text ≠ "extern" := fun htext => hk (hwords first List.mem_cons_self htext)
    simp [htext]
  cases h with
  | @directive hash body hk hbody =>
    refine ⟨.node .directive ((hash :: body).map .leaf), by simp, .construct ?_
      (.directive ⟨hash, body, rfl, hk, hbody, hrest⟩)⟩
    rw [Branch.leaves_node, Branch.leavesAll_map_leaf]
    exact hlinkage rfl (by simp [hk])
  | @typedef first opener closer name last word arguments hk hword ho hc harguments hname hlast =>
    have hgroup : Group (opener :: (arguments ++ [closer])) :=
      ⟨opener, arguments, closer, rfl, by rw [ho, hc]; rfl, harguments⟩
    have htail : Reads (.tail true) (.leaf word :: ((opener :: (arguments ++ [closer])).map .leaf
        ++ [.leaf name, .leaf last])) rest :=
      .tailWord (by rw [hword]; rfl) (.tailGroup hgroup rfl (.inl ho)
        (.tailWord (by rw [hname]; rfl) (.tailSemicolon hlast)))
    refine ⟨_, ?_, .construct ?_ (.typedef hk ?_ htail)⟩
    · simp
    · simpa using hlinkage rfl (by simp [hk])
    · unfold atStructBody Feed.kindAt?
      simp [hword]
  | call hcall =>
    have htail := hcall.reads_tail
    obtain ⟨word, opener, arguments, closer, last, rfl, hword, ho, -⟩ := hcall
    obtain ⟨branch, hleaves, hreads⟩ := (htail (isAggregate word) rest).construct_of_tail
      (by simp) (by simp [hword]) fun _ => ⟨_, rfl⟩
    rw [Branch.leavesAll_map_leaf] at hleaves
    refine ⟨branch, hleaves, .construct ?_ hreads⟩
    rw [hleaves]
    unfold atLinkageBlock Feed.kindAt?
    simp [ho]

/-- Lines before a construct at file scope, each of which but perhaps the first starts a line. -/
inductive Preface : List Leaf → Prop where
  | nil : Preface []
  | cons {line more : List Leaf} : ScopeLine line → Preface more →
      (∀ leaf ∈ more.head?, leaf.startsLine = true) → Preface (line ++ more)

/-- **Lines before constructs** are constructs themselves. -/
theorem Preface.items {leaves : List Leaf} (h : Preface leaves) {more : List Branch}
    {rest : List Leaf} (hwords : ∀ leaf ∈ leaves, leaf.text = "extern" → leaf.kind = .symbol)
    (hline : ∀ leaf ∈ (leavesAll more ++ rest).head?, leaf.startsLine = true)
    (hmore : Reads .items more rest) :
    ∃ branches, leavesAll branches = leaves ++ leavesAll more ∧ Reads .items branches rest := by
  induction h with
  | nil => exact ⟨more, rfl, hmore⟩
  | @cons line lines hscope _ hstarts ih =>
    obtain ⟨branches, hleaves, hreads⟩ := ih fun leaf hleaf => hwords leaf (by simp [hleaf])
    have hahead : ∀ leaf ∈ (leavesAll branches ++ rest).head?, leaf.startsLine = true := by
      rw [hleaves]
      cases lines with
      | nil => simpa using hline
      | cons first lines => simpa using hstarts
    obtain ⟨branch, hbranch, hitem⟩ := hscope.item hahead fun leaf hleaf =>
      hwords leaf (by simp [hleaf])
    exact ⟨branch :: branches, by rw [Branch.leavesAll_cons, hbranch, hleaves, List.append_assoc],
      .itemsCons hitem hreads⟩

/-- Calls at the top of a block. -/
inductive Calls : List Leaf → Prop where
  | nil : Calls []
  | cons {line more : List Leaf} : CallLine line → Calls more → Calls (line ++ more)

/-- **Calls at the top of a block** are statements of it. -/
theorem Calls.body {leaves : List Leaf} (h : Calls leaves) {more : List Branch} {rest : List Leaf}
    (hmore : Reads .body more rest) :
    ∃ branches, leavesAll branches = leaves ++ leavesAll more ∧ Reads .body branches rest := by
  induction h with
  | nil => exact ⟨more, rfl, hmore⟩
  | cons hcall _ ih =>
    obtain ⟨branches, hleaves, hreads⟩ := ih
    have htail := hcall.reads_tail
    obtain ⟨word, opener, arguments, closer, last, rfl, hword, -⟩ := hcall
    refine ⟨.node .statement ((word :: opener :: (arguments ++ [closer, last])).map .leaf)
      :: branches, ?_, .bodyStatement (by simp; rfl) (by simp [hword]) (htail _ _) hreads⟩
    rw [Branch.leavesAll_cons, Branch.leaves_node, Branch.leavesAll_map_leaf, hleaves,
      List.append_assoc]

end Outline

/-! ## §2. What becomes of leaves -/

/-- What becomes of each leaf: the leaves put before it, those in its place and those put behind
    it. -/
structure Recast where
  lead : Leaf → List Leaf
  core : Leaf → List Leaf
  trail : Leaf → List Leaf

namespace Recast

variable (r : Recast)

/-- What stands in place of a leaf and behind it. -/
def bare (x : Leaf) : List Leaf := r.core x ++ r.trail x

/-- All that becomes of a leaf. -/
def chunk (x : Leaf) : List Leaf := r.lead x ++ r.bare x

/-- The leaf in place of another. -/
def image (x : Leaf) : Leaf := (r.core x).headD x

/-- One leaf is in place of another. -/
structure Stands (x : Leaf) : Prop where
  core : r.core x = [r.image x]
  like : Like x (r.image x)

/-- One leaf is in place of another, and none behind it. -/
structure Keeps (x : Leaf) : Prop extends r.Stands x where
  trail : r.trail x = []

/-- The leaf is gone.  It belonged to the brackets of a type. -/
structure Drops (x : Leaf) : Prop where
  bare : r.bare x = []
  kind : x.kind ∈ [.less, .symbol, .greater]

/-- All leaves are gone. -/
def Gone (branch : Branch) : Prop := ∀ x ∈ branch.leaves, r.bare x = []

/-- The parts of a node, of which none is gone. -/
structure Firm (parts : List Branch) : Prop where
  keeps : ∀ x, .leaf x ∈ parts → r.Keeps x
  stays : ∀ kind more, .node kind more ∈ parts → ¬ r.Gone (.node kind more)

/-- The parts of a statement, of which some are gone.  `free` tells whether the first may be: a
    part that is gone is behind a word or another that is gone, and is not the last node. -/
inductive Soft : Bool → List Branch → Prop where
  | nil {free : Bool} : Soft free []
  | keep {free : Bool} {x : Leaf} {more : List Branch} : r.Keeps x →
      Soft (x.kind == .symbol && x.text != "extern") more → Soft free (.leaf x :: more)
  | drop {x : Leaf} {more : List Branch} : r.Drops x → Soft true more →
      Soft true (.leaf x :: more)
  | stay {free : Bool} {kind : NodeKind} {parts more : List Branch} :
      ¬ r.Gone (.node kind parts) → Soft false more → Soft free (.node kind parts :: more)
  | gone {kind : NodeKind} {parts more : List Branch} : r.Gone (.node kind parts) → more ≠ [] →
      Soft true more → Soft true (.node kind parts :: more)

/-- **The changes respect a node** of the kind with the parts. -/
structure Fit (kind : NodeKind) (parts : List Branch) : Prop where
  head : ∀ x ∈ (leavesAll parts).head?, r.Stands x
  firm : kind ∉ [.statement, .typedef, .functionParams, .statementBlock] → r.Firm parts
  soft : kind = .statement ∨ kind = .typedef → r.Soft false parts
  params : kind = .functionParams → ∀ opener inner closer,
    leavesAll parts = opener :: (inner ++ [closer]) → r.Keeps opener ∧ r.Keeps closer
      ∧ Nested (inner.flatMap r.bare)
      ∧ ((inner ++ [closer]).head?.any (fun x => x.kind == .star || x.kind == .caret) = false →
        (inner.flatMap r.bare ++ [r.image closer]).head?.any
          (fun y => y.kind == .star || y.kind == .caret) = false)
  block : kind = .statementBlock → ∀ opener more, parts = .leaf opener :: more →
    r.Stands opener ∧ Outline.Calls (r.trail opener) ∧ r.Firm more
  directive : kind = .directive → ∀ x ∈ (leavesAll parts).tail, (r.image x).startsLine = false

/-- The changes respect all nodes that are not gone. -/
def Fits (branches : List Branch) : Prop :=
  ∀ kind parts, .node kind parts ∈ nodesAll branches → ¬ r.Gone (.node kind parts) →
    r.Fit kind parts

end Recast

/-! ## §3. Leaves in place of others -/

namespace Recast

variable {r : Recast} {x : Leaf} {leaves rest rest' : List Leaf} {kind : NodeKind}
  {parts more branches : List Branch} {free : Bool}

/-- In place of a leaf stands its image, and behind it what is put there. -/
theorem Stands.bare_eq (h : r.Stands x) : r.bare x = r.image x :: r.trail x := by
  unfold bare
  rw [h.core]
  rfl

/-- A leaf that is kept is one leaf still. -/
theorem Keeps.bare_eq (h : r.Keeps x) : r.bare x = [r.image x] := by
  rw [h.toStands.bare_eq, h.trail]

/-- Leaves that are kept are as many as they were. -/
theorem flatMap_bare_of_keeps (h : ∀ x ∈ leaves, r.Keeps x) :
    leaves.flatMap r.bare = leaves.map r.image := by
  induction leaves with
  | nil => rfl
  | cons x leaves ih =>
    rw [List.flatMap_cons, (h x List.mem_cons_self).bare_eq,
      ih fun y hy => h y (List.mem_cons_of_mem _ hy)]
    rfl

/-- Nothing is left of leaves that are gone. -/
theorem Gone.flatMap_bare {branch : Branch} (h : r.Gone branch) :
    branch.leaves.flatMap r.bare = [] := List.flatMap_eq_nil_iff.mpr h

/-- What fits fits the first node, what is below it, and what is behind it. -/
theorem Fits.node (h : r.Fits (.node kind parts :: more)) :
    (¬ r.Gone (.node kind parts) → r.Fit kind parts) ∧ r.Fits parts ∧ r.Fits more := by
  refine ⟨h kind parts (by simp), fun kind' parts' hmem => h kind' parts' ?_,
    fun kind' parts' hmem => h kind' parts' ?_⟩
  · simp [hmem]
  · simp [hmem]

/-- What fits fits what is behind a leaf. -/
theorem Fits.leaf (h : r.Fits (.leaf x :: more)) : r.Fits more := by
  intro kind parts hmem
  exact h kind parts (by simpa using hmem)

/-- What fits fits the first branch and the others. -/
theorem Fits.cons {branch : Branch} (h : r.Fits (branch :: more)) :
    r.Fits [branch] ∧ r.Fits more := by
  refine ⟨fun kind parts hmem => h kind parts ?_, fun kind parts hmem => h kind parts ?_⟩
  · rw [Branch.nodesAll_cons, Branch.nodesAll_nil, List.append_nil] at hmem
    simp [hmem]
  · simp [hmem]

/-- What fits two rows of branches fits each of them. -/
theorem fits_append : r.Fits (branches ++ more) ↔ r.Fits branches ∧ r.Fits more := by
  unfold Fits
  simp only [Branch.nodesAll_append, List.mem_append]
  constructor
  · intro h
    exact ⟨fun kind parts hmem => h kind parts (.inl hmem),
      fun kind parts hmem => h kind parts (.inr hmem)⟩
  · rintro ⟨h, h'⟩ kind parts (hmem | hmem)
    · exact h kind parts hmem
    · exact h' kind parts hmem

/-- The first leaf of firm parts is kept. -/
theorem Firm.leaf (h : r.Firm (.leaf x :: more)) : r.Keeps x ∧ r.Firm more :=
  ⟨h.keeps x List.mem_cons_self, fun y hy => h.keeps y (List.mem_cons_of_mem _ hy),
    fun kind parts hmem => h.stays kind parts (List.mem_cons_of_mem _ hmem)⟩

/-- The first node of firm parts is not gone. -/
theorem Firm.node (h : r.Firm (.node kind parts :: more)) :
    ¬ r.Gone (.node kind parts) ∧ r.Firm more :=
  ⟨h.stays kind parts List.mem_cons_self, fun y hy => h.keeps y (List.mem_cons_of_mem _ hy),
    fun kind parts hmem => h.stays kind parts (List.mem_cons_of_mem _ hmem)⟩

/-- Parts are firm if and only if the first and the others are. -/
theorem firm_append : r.Firm (branches ++ more) ↔ r.Firm branches ∧ r.Firm more := by
  constructor
  · intro h
    exact ⟨⟨fun y hy => h.keeps y (by simp [hy]), fun kind parts hmem =>
        h.stays kind parts (by simp [hmem])⟩,
      ⟨fun y hy => h.keeps y (by simp [hy]), fun kind parts hmem =>
        h.stays kind parts (by simp [hmem])⟩⟩
  · rintro ⟨h, h'⟩
    refine ⟨fun y hy => ?_, fun kind parts hmem => ?_⟩
    · exact (List.mem_append.mp hy).elim (h.keeps y) (h'.keeps y)
    · exact (List.mem_append.mp hmem).elim (h.stays kind parts) (h'.stays kind parts)

/-- The first of firm parts, and the others. -/
theorem Firm.cons {branch : Branch} (h : r.Firm (branch :: more)) :
    r.Firm [branch] ∧ r.Firm more := firm_append.mp h

/-- A node that is not gone is a firm part. -/
theorem firm_single (h : ¬ r.Gone (.node kind parts)) : r.Firm [.node kind parts] := by
  refine ⟨by simp, fun kind' parts' hmem => ?_⟩
  rw [List.mem_singleton.mp hmem]
  exact h

/-- Firm leaves are kept. -/
theorem Firm.map_leaf (h : r.Firm (leaves.map .leaf)) : ∀ x ∈ leaves, r.Keeps x :=
  fun x hx => h.keeps x (List.mem_map_of_mem hx)

/-- A node that is not gone begins with a leaf that has one in its place. -/
theorem Fit.exists_head (h : r.Fit kind parts) (hstays : ¬ r.Gone (.node kind parts)) :
    ∃ x xs, leavesAll parts = x :: xs ∧ r.Stands x := by
  cases hleaves : leavesAll parts with
  | nil =>
    refine absurd ?_ hstays
    intro x hx
    rw [Branch.leaves_node, hleaves] at hx
    simp at hx
  | cons x xs => exact ⟨x, xs, rfl, h.head x (by rw [hleaves]; rfl)⟩

/-- What comes behind goes on as before: it ends where it did, a brace that closes is one in the
    new leaves, and a line starts where one did. -/
inductive Follows : List Leaf → List Leaf → Prop where
  | nil : Follows [] []
  | cons {x y : Leaf} {xs ys : List Leaf} : (x.kind = .rbrace → y.kind = .rbrace) →
      (x.startsLine = true → y.startsLine = true) → Follows (x :: xs) (y :: ys)

/-- Where the old leaves end or close a block, the new ones do. -/
theorem Follows.closes (h : Follows rest rest')
    (hrest : ∀ leaf ∈ rest.head?, leaf.kind = .rbrace) :
    ∀ leaf ∈ rest'.head?, leaf.kind = .rbrace := by
  cases h with
  | nil => simp
  | cons hkind _ =>
    rintro leaf ⟨⟩
    exact hkind (hrest _ rfl)

/-- Where the old leaves start a line, the new ones do. -/
theorem Follows.lines (h : Follows rest rest')
    (hrest : ∀ leaf ∈ rest.head?, leaf.startsLine = true) :
    ∀ leaf ∈ rest'.head?, leaf.startsLine = true := by
  cases h with
  | nil => simp
  | cons _ hline =>
    rintro leaf ⟨⟩
    exact hline (hrest _ rfl)

/-- What stands for a leaf goes on as that leaf does. -/
theorem Stands.follows (h : r.Stands x) (xs ys : List Leaf) :
    Follows (x :: xs) (r.image x :: ys) :=
  .cons (fun hk => by rw [h.like.kind, hk]) h.like.line

/-- Parts none of which is gone begin as they did. -/
theorem Firm.follows (h : r.Firm branches) (hfits : r.Fits branches) (hrest : Follows rest rest') :
    Follows (leavesAll branches ++ rest) ((leavesAll branches).flatMap r.bare ++ rest') := by
  cases branches with
  | nil => exact hrest
  | cons branch more =>
    rw [Branch.leavesAll_cons, List.flatMap_append, List.append_assoc, List.append_assoc]
    cases branch with
    | leaf x =>
      have hkeeps := h.leaf.1
      rw [Branch.leaves_leaf, List.flatMap_singleton, hkeeps.bare_eq]
      exact hkeeps.toStands.follows _ _
    | node kind parts =>
      obtain ⟨x, xs, hleaves, hstands⟩ := (hfits.node.1 h.node.1).exists_head h.node.1
      rw [Branch.leaves_node, hleaves, List.flatMap_cons, hstands.bare_eq]
      exact hstands.follows _ _

/-! ## §4. Parts of a statement -/

/-- A leaf among the parts of a statement stands for itself or is gone. -/
theorem Soft.leaf (h : r.Soft free (.leaf x :: more)) :
    (r.Keeps x ∨ r.Drops x) ∧ ∃ free', r.Soft free' more := by
  cases h with
  | keep hkeeps hmore => exact ⟨.inl hkeeps, _, hmore⟩
  | drop hdrops hmore => exact ⟨.inr hdrops, _, hmore⟩

/-- Leaves of a statement are kept or dropped, whatever else becomes of it. -/
theorem Soft.split (h : r.Soft free (leaves.map .leaf ++ more)) :
    (∀ x ∈ leaves, r.Keeps x ∨ r.Drops x) ∧ ∃ free', r.Soft free' more := by
  induction leaves generalizing free with
  | nil => exact ⟨by simp, free, h⟩
  | cons x leaves ih =>
    obtain ⟨hx, free', hmore⟩ := Soft.leaf h
    obtain ⟨hleaves, hsoft⟩ := ih hmore
    exact ⟨List.forall_mem_cons.mpr ⟨hx, hleaves⟩, hsoft⟩

/-- Parts none of which is gone are parts of which some may be gone. -/
theorem Firm.soft (h : r.Firm parts) (free : Bool) : r.Soft free parts := by
  induction parts generalizing free with
  | nil => exact .nil
  | cons part parts ih =>
    cases part with
    | leaf x => exact .keep h.leaf.1 (ih h.leaf.2 _)
    | node kind more => exact .stay h.node.1 (ih h.node.2 _)

/-- No delimiter is dropped. -/
theorem Drops.not_delimiter (h : r.Drops x) : x.kind.isDelimiter = false := by
  have hkind := h.kind
  simp only [List.mem_cons, List.not_mem_nil, or_false] at hkind
  rcases hkind with hk | hk | hk <;> rw [hk] <;> rfl

/-- A leaf that is no part of a type's brackets stands for itself. -/
theorem keeps_of_kind (h : r.Keeps x ∨ r.Drops x) (hkind : x.kind ∉ [.less, .symbol, .greater]) :
    r.Keeps x := h.resolve_right fun hdrops => hkind hdrops.kind

/-- Delimiters come in pairs as before when words are gone. -/
theorem paired_flatMap {fits : TokenKind → TokenKind → Prop} (h : Outline.Paired fits leaves)
    (hsoft : ∀ x ∈ leaves, r.Keeps x ∨ r.Drops x) :
    Outline.Paired fits (leaves.flatMap r.bare) := by
  -- delimiters are never dropped, and so the pairs stay
  have hdelimiter : ∀ x ∈ leaves, x.kind.isDelimiter = true → r.Keeps x := by
    intro x hx hk
    refine (hsoft x hx).resolve_right fun hdrops => ?_
    rw [hdrops.not_delimiter] at hk
    exact Bool.noConfusion hk
  induction h with
  | nil => exact .nil
  | @plain leaf rest hplain _ ih =>
    have hrest := ih (fun x hx => hsoft x (List.mem_cons_of_mem _ hx))
      fun x hx => hdelimiter x (List.mem_cons_of_mem _ hx)
    rw [List.flatMap_cons]
    rcases hsoft leaf List.mem_cons_self with hkeeps | hdrops
    · rw [hkeeps.bare_eq]
      exact .plain (by rw [hkeeps.like.kind, hplain]) hrest
    · rw [hdrops.bare]
      exact hrest
  | @group opener closer inner rest ho hc hfits _ _ ih ih' =>
    have hopener := hdelimiter opener List.mem_cons_self (by simp [TokenKind.isDelimiter, ho])
    have hcloser := hdelimiter closer (by simp) (by simp [TokenKind.isDelimiter, hc])
    rw [List.flatMap_cons, List.flatMap_append, List.flatMap_cons, hopener.bare_eq,
      hcloser.bare_eq]
    exact .group (by rw [hopener.like.kind, ho]) (by rw [hcloser.like.kind, hc])
      (by rw [hopener.like.kind, hcloser.like.kind]; exact hfits)
      (ih (fun x hx => hsoft x (by simp [hx])) fun x hx => hdelimiter x (by simp [hx]))
      (ih' (fun x hx => hsoft x (by simp [hx])) fun x hx => hdelimiter x (by simp [hx]))

/-! ## §5. Constructs that nest -/

/-- What the grammar makes of the new leaves, for what nests.  The rest of a statement without
    blocks has none in the new leaves. -/
def Recasts (r : Recast) (part : Outline.Part) (branches : List Branch) (rest : List Leaf) : Prop :=
  r.Fits branches → ∀ rest',
    match part with
    | .block => r.Firm branches → ∃ block,
        block.leaves = (leavesAll branches).flatMap r.bare ∧ Reads .block [block] rest'
    | .aggregate => r.Firm branches → ∃ branches',
        leavesAll branches' = (leavesAll branches).flatMap r.bare ∧ Reads part branches' rest'
    | .body => Follows rest rest' → r.Firm branches → ∃ branches',
        leavesAll branches' = (leavesAll branches).flatMap r.bare ∧ Reads part branches' rest'
    | .tail _ => Follows rest rest' → ∀ free, r.Soft free branches → ∃ branches',
        leavesAll branches' = (leavesAll branches).flatMap r.bare ∧ Reads part branches' rest'
          ∧ ∀ leaves : List Leaf, branches = leaves.map .leaf →
            ∃ leaves' : List Leaf, branches' = leaves'.map .leaf
    | .construct | .item | .items => True

/-- A directive goes on to the end of its line. -/
theorem recast_directive (hfit : r.Fit .directive (leaves.map .leaf))
    (h : Outline.Directive leaves rest) (hrest : Follows rest rest') :
    Outline.Directive (leaves.map r.image) rest' ∧ leaves.flatMap r.bare = leaves.map r.image := by
  have hkeeps := (hfit.firm (by simp)).map_leaf
  obtain ⟨hash, body, rfl, hk, -, hline⟩ := h
  refine ⟨⟨r.image hash, body.map r.image, rfl, ?_, ?_, hrest.lines hline⟩,
    flatMap_bare_of_keeps hkeeps⟩
  · rw [(hkeeps hash List.mem_cons_self).like.kind, hk]
  · intro y hy
    obtain ⟨x, hx, rfl⟩ := List.mem_map.mp hy
    exact hfit.directive rfl x (by simpa using hx)

/-- A block, with calls at its top. -/
theorem recast_block {opener closer : Leaf}
    (hfit : r.Fit .statementBlock (.leaf opener :: (parts ++ [.leaf closer])))
    (ho : opener.kind = .lbrace) (hc : closer.kind = .rbrace)
    (hbody : r.Firm parts → ∃ parts', leavesAll parts' = (leavesAll parts).flatMap r.bare
      ∧ Reads .body parts' (r.image closer :: rest')) :
    ∃ block, block.leaves
        = (leavesAll (.leaf opener :: (parts ++ [.leaf closer]))).flatMap r.bare
      ∧ Reads .block [block] rest' := by
  obtain ⟨hopener, hcalls, hfirm⟩ := hfit.block rfl opener _ rfl
  obtain ⟨hparts, hlast⟩ := firm_append.mp hfirm
  have hcloser := hlast.keeps closer List.mem_cons_self
  obtain ⟨parts', hleaves, hreads⟩ := hbody hparts
  obtain ⟨all, hall, hreads⟩ := hcalls.body hreads
  refine ⟨_, ?_, .block (by rw [hopener.like.kind, ho]) (by rw [hcloser.like.kind, hc]) hreads⟩
  simp [hall, hleaves, hopener.bare_eq, hcloser.bare_eq]

/-- A group, in which words may be gone. -/
theorem recast_group {opener : Leaf} (h : Outline.Group leaves)
    (hhead : leaves.head? = some opener) (hsoft : ∀ x ∈ leaves, r.Keeps x ∨ r.Drops x) :
    r.Keeps opener ∧ Outline.Group (leaves.flatMap r.bare)
      ∧ (leaves.flatMap r.bare).head? = some (r.image opener) := by
  obtain ⟨opener', inner, closer, rfl, hcloser, hinner⟩ := h
  obtain rfl := Option.some.inj hhead
  -- delimiters are never gone
  have hdelimiter : ∀ x ∈ opener' :: (inner ++ [closer]), x.kind.isDelimiter = true →
      r.Keeps x := by
    intro x hx hk
    refine (hsoft x hx).resolve_right fun hdrops => ?_
    rw [hdrops.not_delimiter] at hk
    exact Bool.noConfusion hk
  have hkinds := Outline.closer?_isCloser hcloser
  have hopen := hdelimiter opener' (by simp) (by simp [TokenKind.isDelimiter, hkinds.1])
  have hclose := hdelimiter closer (by simp) (by simp [TokenKind.isDelimiter, hkinds.2])
  have hleaves : (opener' :: (inner ++ [closer])).flatMap r.bare
      = r.image opener' :: (inner.flatMap r.bare ++ [r.image closer]) := by
    simp [hopen.bare_eq, hclose.bare_eq]
  rw [hleaves]
  refine ⟨hopen, ⟨_, _, _, rfl, ?_, paired_flatMap hinner fun x hx => hsoft x (by simp [hx])⟩, rfl⟩
  rw [hopen.like.kind, hclose.like.kind, hcloser]

/-- A statement, by its first leaf and the rest. -/
theorem Fit.first_leaf {first : Leaf} (h : r.Fit kind parts)
    (hfirst : (leavesAll parts).head? = some first) {parts' : List Branch}
    (hleaves : leavesAll parts' = (leavesAll parts).flatMap r.bare) :
    r.Stands first ∧ (leavesAll parts').head? = some (r.image first) := by
  have hstands := h.head first hfirst
  obtain ⟨xs, hxs⟩ := List.head?_eq_some_iff.mp hfirst
  refine ⟨hstands, ?_⟩
  rw [hleaves, hxs, List.flatMap_cons, hstands.bare_eq]
  rfl

/-- Leaves in front of the rest of a statement without blocks have no blocks either. -/
theorem leaves_of_append {more more' : List Branch} (leaves leaves' : List Leaf)
    (honly : ∀ last : List Leaf, more = last.map .leaf →
      ∃ last' : List Leaf, more' = last'.map .leaf)
    (all : List Leaf) (hall : leaves.map .leaf ++ more = all.map .leaf) :
    ∃ all' : List Leaf, leaves'.map .leaf ++ more' = all'.map .leaf := by
  obtain ⟨first, last, -, -, hlast⟩ := List.append_eq_map_iff.mp hall
  obtain ⟨last', rfl⟩ := honly last hlast.symm
  exact ⟨leaves' ++ last', by simp⟩

section Rules

variable {first opener closer tag leaf : Leaf} {group : List Leaf} {block : Branch}
  {goesOn : Bool}

/-- Rule: a block keeps its braces. -/
theorem recasts_block (ho : opener.kind = .lbrace) (hc : closer.kind = .rbrace)
    (ih : r.Recasts .body parts (closer :: rest)) :
    r.Recasts .block [.node .statementBlock (.leaf opener :: (parts ++ [.leaf closer]))] rest := by
  intro hfits rest' hfirm
  obtain ⟨hfit, hparts, -⟩ := hfits.node
  have hfit := hfit hfirm.node.1
  have hparts := (fits_append.mp hparts.leaf).1
  have hcloser := (hfit.block rfl opener _ rfl).2.2.keeps closer (by simp)
  rw [Branch.leavesAll_cons, Branch.leavesAll_nil, List.append_nil, Branch.leaves_node]
  exact recast_block hfit ho hc (ih hparts _ (hcloser.toStands.follows _ _))

/-- Rule: the end of a body. -/
theorem recasts_bodyEnd (hc : closer.kind = .rbrace) : r.Recasts .body [] (closer :: rest) := by
  intro _ rest' hfollows _
  refine ⟨[], by simp, ?_⟩
  cases hfollows with
  | cons hkind _ => exact .bodyEnd (hkind hc)

/-- Rule: a directive in a body stands as it did. -/
theorem recasts_bodyDirective (hdir : Outline.Directive leaves (leavesAll more ++ rest))
    (ih : r.Recasts .body more rest) :
    r.Recasts .body (.node .directive (leaves.map .leaf) :: more) rest := by
  intro hfits rest' hfollows hfirm
  obtain ⟨hfit, -, hmore⟩ := hfits.node
  obtain ⟨more', hleaves, hreads⟩ := ih hmore rest' hfollows hfirm.node.2
  obtain ⟨hdir', hsame⟩ := recast_directive (hfit hfirm.node.1) hdir
    (hfirm.node.2.follows hmore hfollows)
  rw [← hleaves] at hdir'
  refine ⟨.node .directive ((leaves.map r.image).map .leaf) :: more', ?_,
    .bodyDirective hdir' hreads⟩
  simp only [Branch.leavesAll_cons, Branch.leaves_node, Branch.leavesAll_map_leaf,
    List.flatMap_append, hsame, hleaves]

/-- Rule: a block in a body. -/
theorem recasts_bodyBlock (ih : r.Recasts .block [block] (leavesAll more ++ rest))
    (ih' : r.Recasts .body more rest) : r.Recasts .body (block :: more) rest := by
  intro hfits rest' hfollows hfirm
  obtain ⟨hfits, hmore⟩ := hfits.cons
  obtain ⟨hfirm, hfirmMore⟩ := hfirm.cons
  obtain ⟨more', hleaves', hreads'⟩ := ih' hmore rest' hfollows hfirmMore
  obtain ⟨block', hleaves, hreads⟩ := ih hfits (leavesAll more' ++ rest') hfirm
  refine ⟨block' :: more', ?_, .bodyBlock hreads hreads'⟩
  rw [Branch.leavesAll_cons, hleaves, hleaves', Branch.leavesAll_cons, List.flatMap_append]
  simp

/-- Rule: a `;` on its own in a body. -/
theorem recasts_bodyLone (hk : leaf.kind = .semicolon) (ih : r.Recasts .body more rest) :
    r.Recasts .body (.node .token [.leaf leaf] :: more) rest := by
  intro hfits rest' hfollows hfirm
  obtain ⟨hfit, -, hmore⟩ := hfits.node
  obtain ⟨more', hleaves, hreads⟩ := ih hmore rest' hfollows hfirm.node.2
  have hkeeps := ((hfit hfirm.node.1).firm (by simp)).keeps leaf (by simp)
  refine ⟨.node .token [.leaf (r.image leaf)] :: more', ?_,
    .bodyLone (by rw [hkeeps.like.kind, hk]) hreads⟩
  simp [hkeeps.bare_eq, hleaves]

/-- Rule: a statement in a body, whose first leaf is kept, by the rest of it. -/
theorem recasts_bodyStatement (hfirst : (leavesAll parts).head? = some first)
    (hkind : first.kind ∉ [.hash, .lbrace, .semicolon, .rparen, .rbracket, .rbrace])
    (ih : r.Recasts (.tail (Outline.isAggregate first)) parts (leavesAll more ++ rest))
    (ih' : r.Recasts .body more rest) :
    r.Recasts .body (.node .statement parts :: more) rest := by
  intro hfits rest' hfollows hfirm
  obtain ⟨hfit, hparts, hmore⟩ := hfits.node
  have hfit := hfit hfirm.node.1
  obtain ⟨more', hleaves', hreads'⟩ := ih' hmore rest' hfollows hfirm.node.2
  obtain ⟨parts', hleaves, hreads, -⟩ := ih hparts _ (hfirm.node.2.follows hmore hfollows)
    false (hfit.soft (.inl rfl))
  obtain ⟨hstands, hhead⟩ := hfit.first_leaf hfirst hleaves
  rw [← hstands.like.isAggregate_eq, ← hleaves'] at hreads
  refine ⟨.node .statement parts' :: more', ?_,
    .bodyStatement hhead (by rw [hstands.like.kind]; exact hkind) hreads hreads'⟩
  simp [hleaves, hleaves']

/-- Rule: a statement that a closing brace ends. -/
theorem recasts_tailEnd (hend : ∀ leaf ∈ rest.head?, leaf.kind = .rbrace) :
    r.Recasts (.tail goesOn) [] rest := by
  intro _ rest' hfollows free _
  exact ⟨[], by simp, .tailEnd (hfollows.closes hend), fun _ _ => ⟨[], rfl⟩⟩

/-- Rule: a statement that its `;` ends. -/
theorem recasts_tailSemicolon (hk : leaf.kind = .semicolon) :
    r.Recasts (.tail goesOn) [.leaf leaf] rest := by
  intro _ rest' _ free hsoft
  have hkeeps := keeps_of_kind hsoft.leaf.1 (by simp [hk])
  exact ⟨[.leaf (r.image leaf)], by simp [hkeeps.bare_eq],
    .tailSemicolon (by rw [hkeeps.like.kind, hk]), fun _ _ => ⟨[r.image leaf], rfl⟩⟩

/-- A statement keeps its last block. -/
theorem recasts_tailBlock (hblock : Reads .block [block] rest)
    (ih : r.Recasts .block [block] rest) :
    r.Recasts (.tail false) [block] rest := by
  intro hfits rest' hfollows free hsoft
  cases hsoft with
  | keep => cases hblock
  | drop => cases hblock
  | stay hstays _ =>
    obtain ⟨block', hleaves, hreads⟩ := ih hfits rest' (firm_single hstays)
    refine ⟨[block'], by simpa using hleaves, .tailBlock hreads, fun leaves hmap => ?_⟩
    cases leaves <;> simp at hmap
  | gone _ hne _ => exact absurd rfl hne

/-- Another block of a statement may be gone. -/
theorem recasts_tailBlockOn (hblock : Reads .block [block] (leavesAll more ++ rest))
    (ih : r.Recasts .block [block] (leavesAll more ++ rest))
    (ih' : r.Recasts (.tail true) more rest) : r.Recasts (.tail true) (block :: more) rest := by
  intro hfits rest' hfollows free hsoft
  obtain ⟨hfits, hmore⟩ := hfits.cons
  cases hsoft with
  | keep => cases hblock
  | drop => cases hblock
  | @stay _ kind parts _ hstays hsoft =>
    obtain ⟨more', hleaves', hreads', -⟩ := ih' hmore rest' hfollows _ hsoft
    obtain ⟨block', hleaves, hreads⟩ :=
      ih hfits (leavesAll more' ++ rest') (firm_single hstays)
    refine ⟨block' :: more', ?_, .tailBlockOn hreads hreads', fun leaves hmap => ?_⟩
    · rw [Branch.leavesAll_cons, hleaves, hleaves', Branch.leavesAll_cons _ more,
        List.flatMap_append]
      simp
    · cases leaves <;> simp at hmap
  -- a block that goes with a use is no more, and the rest goes on in its place
  | @gone kind parts _ hgone _ hsoft =>
    obtain ⟨more', hleaves', hreads', -⟩ := ih' hmore rest' hfollows _ hsoft
    refine ⟨more', ?_, hreads', fun leaves hmap => ?_⟩
    · rw [Branch.leavesAll_cons, List.flatMap_append, hgone.flatMap_bare, hleaves']
      rfl
    · cases leaves <;> simp at hmap

/-- Rule: a group within a statement, which stays balanced. -/
theorem recasts_tailGroup (hgroup : Outline.Group group) (hhead : group.head? = some opener)
    (ho : opener.kind = .lparen ∨ opener.kind = .lbracket)
    (ih : r.Recasts (.tail goesOn) more rest) :
    r.Recasts (.tail goesOn) (group.map .leaf ++ more) rest := by
  intro hfits rest' hfollows free hsoft
  obtain ⟨hleaves, free', hsoft⟩ := hsoft.split
  obtain ⟨more', hmore', hreads, honly⟩ :=
    ih (fits_append.mp hfits).2 rest' hfollows free' hsoft
  obtain ⟨hkeeps, hgroup', hhead'⟩ := recast_group hgroup hhead hleaves
  refine ⟨(group.flatMap r.bare).map .leaf ++ more', ?_,
    .tailGroup hgroup' hhead' (by rw [hkeeps.like.kind]; exact ho) hreads,
    leaves_of_append group _ honly⟩
  simp [hmore', List.flatMap_append]

/-- Rule: an `=` within a statement, which stays one. -/
theorem recasts_tailAssign (hk : leaf.kind = .assign) (ih : r.Recasts (.tail true) more rest) :
    r.Recasts (.tail goesOn) (.leaf leaf :: more) rest := by
  intro hfits rest' hfollows free hsoft
  obtain ⟨hleaf, free', hsoft⟩ := hsoft.leaf
  have hkeeps := keeps_of_kind hleaf (by simp [hk])
  obtain ⟨more', hmore', hreads, honly⟩ := ih hfits.leaf rest' hfollows free' hsoft
  exact ⟨.leaf (r.image leaf) :: more', by simp [hkeeps.bare_eq, hmore'],
    .tailAssign (by rw [hkeeps.like.kind, hk]) hreads,
    leaves_of_append [leaf] [r.image leaf] honly⟩

/-- A word of a statement may be gone. -/
theorem recasts_tailWord (hplain : leaf.kind.isPlain = true)
    (ih : r.Recasts (.tail goesOn) more rest) :
    r.Recasts (.tail goesOn) (.leaf leaf :: more) rest := by
  intro hfits rest' hfollows free hsoft
  obtain ⟨hleaf, free', hsoft⟩ := hsoft.leaf
  obtain ⟨more', hmore', hreads, honly⟩ := ih hfits.leaf rest' hfollows free' hsoft
  rcases hleaf with hkeeps | hdrops
  · exact ⟨.leaf (r.image leaf) :: more', by simp [hkeeps.bare_eq, hmore'],
      .tailWord (by rw [hkeeps.like.kind, hplain]) hreads,
      leaves_of_append [leaf] [r.image leaf] honly⟩
  · exact ⟨more', by simp [hdrops.bare, hmore'], hreads,
      leaves_of_append [leaf] [] honly⟩

/-- Rule: an aggregate without a tag. -/
theorem recasts_struct (hk : first.kind = .struct) (ih : r.Recasts .block [block] rest) :
    r.Recasts .aggregate [.leaf first, block] rest := by
  intro hfits rest' hfirm
  obtain ⟨hkeeps, hfirm⟩ := hfirm.leaf
  obtain ⟨block', hleaves, hreads⟩ := ih hfits.leaf rest' hfirm
  refine ⟨[.leaf (r.image first), block'], ?_, .struct (by rw [hkeeps.like.kind, hk]) hreads⟩
  simpa [hkeeps.bare_eq] using hleaves

/-- Rule: an aggregate with a tag. -/
theorem recasts_structTagged (hk : first.kind = .struct) (htag : tag.kind = .symbol)
    (ih : r.Recasts .block [block] rest) :
    r.Recasts .aggregate [.leaf first, .node .structTag [.leaf tag], block] rest := by
  intro hfits rest' hfirm
  obtain ⟨hkeeps, hfirm⟩ := hfirm.leaf
  obtain ⟨hfit, -, hfits⟩ := hfits.leaf.node
  have htag' := ((hfit hfirm.node.1).firm (by simp)).keeps tag (by simp)
  obtain ⟨block', hleaves, hreads⟩ := ih hfits rest' hfirm.node.2
  refine ⟨[.leaf (r.image first), .node .structTag [.leaf (r.image tag)], block'], ?_,
    .structTagged (by rw [hkeeps.like.kind, hk]) (by rw [htag'.like.kind, htag]) hreads⟩
  simpa [hkeeps.bare_eq, htag'.bare_eq] using hleaves

end Rules

end Recast

open Recast in
/-- **What nests** is made of the new leaves as it was made of the old ones. -/
theorem Outline.Reads.recast_nested {r : Recast} {part : Part} {branches : List Branch}
    {rest : List Leaf} (h : Reads part branches rest) : r.Recasts part branches rest := by
  induction h with
  | block ho hc _ ih => exact recasts_block ho hc ih
  | bodyEnd hc => exact recasts_bodyEnd hc
  | bodyDirective hdir _ ih => exact recasts_bodyDirective hdir ih
  | bodyBlock _ _ ih ih' => exact recasts_bodyBlock ih ih'
  | bodyLone hk _ ih => exact recasts_bodyLone hk ih
  | bodyStatement hfirst hkind _ _ ih ih' => exact recasts_bodyStatement hfirst hkind ih ih'
  | tailEnd hend => exact recasts_tailEnd hend
  | tailSemicolon hk => exact recasts_tailSemicolon hk
  | tailBlock hblock ih => exact recasts_tailBlock hblock ih
  | tailBlockOn hblock _ ih ih' => exact recasts_tailBlockOn hblock ih ih'
  | tailGroup hgroup hhead ho _ ih => exact recasts_tailGroup hgroup hhead ho ih
  | tailAssign hk _ ih => exact recasts_tailAssign hk ih
  | tailWord hplain _ ih => exact recasts_tailWord hplain ih
  | struct hk _ ih => exact recasts_struct hk ih
  | structTagged hk htag _ ih => exact recasts_structTagged hk htag ih
  -- constructs at file scope may turn out to be others
  | _ => exact fun _ _ => trivial

/-! ## §6. Parts of a statement, part by part -/

namespace Recast

variable {r : Recast} {parts : List Branch}

/-- What may stand before a part that is gone: a word, or another such part. -/
def Frees (r : Recast) (part : Branch) : Prop :=
  r.Gone part ∨ ∃ x, part = .leaf x ∧ x.kind = .symbol ∧ x.text ≠ "extern"

/-- **The parts of a statement, part by part**: what is gone is behind a word or behind another
    part that is gone, and is not the last node. -/
theorem soft_of_parts (hleaf : ∀ x, .leaf x ∈ parts → r.Keeps x ∨ r.Drops x)
    (hprev : ∀ before part after, parts = before ++ part :: after → r.Gone part →
      ∃ prev, before.getLast? = some prev ∧ r.Frees prev)
    (hlast : ∀ before kind inside after, parts = before ++ .node kind inside :: after →
      r.Gone (.node kind inside) → after ≠ []) : r.Soft false parts := by
  -- from each part on, `free` being true if the part before it frees it
  have hfrom : ∀ rest before free, parts = before ++ rest →
      (∀ prev, before.getLast? = some prev → r.Frees prev → free = true) → r.Soft free rest := by
    intro rest
    induction rest with
    | nil => exact fun _ _ _ _ => .nil
    | cons part rest ih =>
      intro before free hsplit hfree
      have hgone : r.Gone part → free = true := by
        intro hgone
        obtain ⟨prev, hbefore, hfrees⟩ := hprev before part rest hsplit hgone
        exact hfree prev hbefore hfrees
      have hnext : ∀ free', (r.Frees part → free' = true) → r.Soft free' rest := by
        intro free' hpart
        refine ih (before ++ [part]) free' (by simp [hsplit]) fun prev hprev hfrees => ?_
        rw [List.getLast?_concat, Option.some.injEq] at hprev
        subst hprev
        exact hpart hfrees
      cases part with
      | leaf x =>
        rcases hleaf x (by simp [hsplit]) with hkeeps | hdrops
        · refine .keep hkeeps (hnext _ ?_)
          rintro (hnone | ⟨y, he, hkind, htext⟩)
          · have hbare := hnone x (by simp)
            rw [hkeeps.bare_eq] at hbare
            simp at hbare
          · obtain rfl := Branch.leaf.inj he
            simp [hkind, htext]
        · obtain rfl := hgone fun y hy => by
            rw [Branch.leaves_leaf, List.mem_singleton] at hy
            rw [hy, hdrops.bare]
          exact .drop hdrops (hnext true fun _ => rfl)
      | node kind inside =>
        by_cases hnone : r.Gone (.node kind inside)
        · obtain rfl := hgone hnone
          exact .gone hnone (hlast before kind inside rest hsplit hnone) (hnext true fun _ => rfl)
        · refine .stay hnone (hnext false ?_)
          rintro (hgone' | ⟨y, he, -⟩)
          · exact absurd hgone' hnone
          · exact Branch.noConfusion he
  exact hfrom parts [] false rfl (by simp)

end Recast

end KernelPrep
