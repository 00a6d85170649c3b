/-
  KernelPrep.Proofs.Texture.SourceOrder — uses in the order of the file.

  The walk over the outline meets the nodes in the order of their first tokens, and the uses
  come as their nodes do.  Two constructs at file scope never share a token.  So the use on
  the lowest line, the first found of those, lies in the first construct that holds any of
  them: a use in an earlier construct would be on no later line, and would be found earlier.

  Main definitions:
    * `Occurrence.usesIn` — the uses in a node.

  Main statements:
    * `Loaded.preOrder_sorted`        — nodes come in the order of their first tokens;
    * `Loaded.scope_apart`            — constructs at file scope share no token;
    * `Occurrence.findAll_eq`         — all uses, node by node;
    * `Lowering.earliest_container_le` — the construct of the earliest use is the first.
-/
import KernelPrep.Proofs.Texture.Outcome
import KernelPrep.Proofs.Texture.Wording
import KernelPrep.Proofs.Token.Lines

namespace KernelPrep

open NodeTree (Below Forest root)
open Step (except_bind_ok)

/-! ## §1. Nodes -/

namespace Loaded

variable {doc : Document} {a b id : NodeId}

/-- A node below a child of another ends before the next child begins. -/
theorem listing_sorted (h : Loaded doc) {depth : Nat} (hid : Below doc.tree.children root id) :
    (NodeTree.listing doc.tree.children depth id).Pairwise
      fun a b => doc.start a ≤ doc.start b := by
  induction depth generalizing id with
  | zero => exact List.Pairwise.nil
  | succ depth ih =>
    -- what is below a child starts within it
    have hbelow : ∀ {child x}, child ∈ doc.tree.children id →
        x ∈ NodeTree.listing doc.tree.children depth child →
        doc.start child ≤ doc.start x ∧ doc.start x ≤ doc.stop child := by
      intro child x hchild hx
      have hb := NodeTree.below_of_mem_listing hx
      have hnest := h.placed.nested_below (hid.tail hchild) hb
      have hne : x ≠ root := by
        rintro rfl
        exact h.forest.not_below_root (h.forest.child_ne_root hchild) hb
      exact ⟨hnest.1, Nat.le_trans (h.start_le_stop ((hid.tail hchild).trans hb) hne) hnest.2⟩
    rw [NodeTree.listing, List.pairwise_cons, List.pairwise_flatMap]
    refine ⟨?_, fun child hchild => ih (hid.tail hchild), ?_⟩
    · intro x hx
      obtain ⟨child, hchild, hx⟩ := List.mem_flatMap.mp hx
      exact Nat.le_trans (h.placed.nested _ _ hid hchild).1 (hbelow hchild hx).1
    · refine (h.placed.apart id hid).imp_of_mem fun {a b} ha hb hlt x hx y hy => ?_
      exact Nat.le_trans (hbelow ha hx).2 (Nat.le_trans (Nat.le_of_lt hlt) (hbelow hb hy).1)

/-- **The walk over the outline** meets the nodes in the order of their first tokens. -/
theorem preOrder_sorted (h : Loaded doc) :
    doc.tree.preOrder.Pairwise fun a b => doc.start a ≤ doc.start b := by
  rw [h.forest.preOrder_eq]
  exact h.listing_sorted Relation.ReflTransGen.refl

/-- **Two constructs at file scope** share no token. -/
theorem scope_apart (h : Loaded doc) (ha : doc.Plain a) (hb : doc.Plain b)
    (hscope : doc.AtScope a) (hscope' : doc.AtScope b) (hne : a ≠ b) :
    doc.stop a < doc.start b ∨ doc.stop b < doc.start a := by
  rcases h.placed.laminar ha.below hb.below with hab | hba | hlt | hlt
  · exact absurd hscope' (h.not_atScope_below ha hab (Ne.symm hne))
  · exact absurd hscope (h.not_atScope_below hb hba hne)
  · exact Or.inl hlt
  · exact Or.inr hlt

/-- What the search for a container finds is above. -/
theorem below?_above (h : Loaded doc) {stop : NodeId → Bool} {fuel : Nat} {top : NodeId}
    (htop : doc.tree.below? stop fuel id = some top) : Below doc.tree.children top id := by
  induction fuel generalizing id with
  | zero => simp [NodeTree.below?] at htop
  | succ fuel ih =>
    unfold NodeTree.below? at htop
    split at htop
    · simp at htop
    · rename_i parent hparent
      split at htop
      · rw [Option.some.inj htop]
        exact Relation.ReflTransGen.refl
      · exact (ih htop).tail ((h.forest.parent_iff _ _).mp hparent)

/-- A node lies in the construct that holds it. -/
theorem container_around (h : Loaded doc) {construct : NodeId} (hid : doc.Plain id)
    (hc : doc.tree.container? id = some construct) :
    doc.start construct ≤ doc.start id ∧ doc.stop id ≤ doc.stop construct :=
  h.placed.nested_below (h.container hid hc).1.below (h.below?_above hc)

/-- A node below a construct at file scope is held by it. -/
theorem container_eq (h : Loaded doc) {construct : NodeId} (hid : doc.Plain id)
    (hscope : doc.AtScope construct) (hplain : doc.Plain construct)
    (hb : Below doc.tree.children construct id) : doc.tree.container? id = some construct := by
  obtain ⟨other, hother⟩ := h.exists_container hid
  obtain ⟨hoplain, hoscope⟩ := h.container hid hother
  by_cases he : other = construct
  · rw [hother, he]
  · -- both lie around the node
    have hnest := h.placed.nested_below hplain.below hb
    have haround := h.container_around hid hother
    have horder := h.start_le_stop hid.below hid.ne_root
    rcases h.scope_apart hoplain hplain hoscope hscope he with hlt | hlt
    · omega
    · omega

end Loaded

/-! ## §2. Uses, node by node -/

theorem Step.mapM_forall₂ {ε α β : Type} {f : α → Except ε β} {items : List α} {results : List β}
    (h : items.mapM f = .ok results) : List.Forall₂ (fun a b => f a = .ok b) items results := by
  induction items generalizing results with
  | nil =>
    obtain rfl : results = [] := (Except.ok.inj h).symm
    exact .nil
  | cons item rest ih =>
    rw [List.mapM_cons] at h
    obtain ⟨first, hfirst, h⟩ := except_bind_ok.mp h
    obtain ⟨others, hothers, h⟩ := except_bind_ok.mp h
    obtain rfl := Except.ok.inj h
    exact .cons hfirst (ih hothers)

namespace Occurrence

variable {doc : Document} {found : List Occurrence}

/-- The uses in a node, if they are found. -/
def usesIn (doc : Document) (node : NodeId) : List Occurrence := (scan doc node).toOption.getD []

/-- **All uses of a document** are those of the nodes searched, one node after the other. -/
theorem findAll_eq (h : findAll doc = .ok found) :
    found = (candidates doc).flatMap (usesIn doc)
      ∧ ∀ node ∈ candidates doc, scan doc node = .ok (usesIn doc node) := by
  unfold findAll at h
  obtain ⟨lists, hlists, hdone⟩ := except_bind_ok.mp h
  obtain rfl := Except.ok.inj hdone
  have hall := Step.mapM_forall₂ hlists
  clear h hlists hdone
  generalize candidates doc = nodes at hall ⊢
  induction hall with
  | nil => exact ⟨rfl, by simp⟩
  | @cons node list nodes lists hscan hall ih =>
    obtain ⟨ih, hnodes⟩ := ih
    have hown : scan doc node = .ok (usesIn doc node) := by
      unfold usesIn
      rw [hscan]
      rfl
    have hlist : list = usesIn doc node := Except.ok.inj (hscan.symm.trans hown)
    exact ⟨by rw [List.flatten_cons, ih, List.flatMap_cons, hlist],
      List.forall_mem_cons.mpr ⟨hown, hnodes⟩⟩

/-- The uses in a node name it as theirs. -/
theorem node_of_mem_usesIn {node : NodeId} {o : Occurrence} (h : o ∈ usesIn doc node) :
    o.node = node := by
  unfold usesIn at h
  cases hscan : scan doc node with
  | error error =>
    rw [hscan] at h
    simp [Except.toOption] at h
  | ok uses =>
    rw [hscan] at h
    exact ((scanFrom_ok hscan).1 o h).node

/-- **Uses are found** in the order of the nodes they are in. -/
theorem findAll_sorted (h₀ : Loaded doc) (h : findAll doc = .ok found) :
    found.Pairwise fun a b => doc.start a.node ≤ doc.start b.node := by
  rw [(findAll_eq h).1, List.pairwise_flatMap]
  refine ⟨?_, ?_⟩
  · intro node _
    refine List.pairwise_of_forall_mem_list fun a ha b hb => ?_
    rw [node_of_mem_usesIn ha, node_of_mem_usesIn hb]
  · unfold candidates
    refine (h₀.preOrder_sorted.filter _).imp fun hle a ha b hb => ?_
    rw [node_of_mem_usesIn ha, node_of_mem_usesIn hb]
    exact hle

/-- The line of a use is that of its keyword. -/
theorem line_eq (h : findAll doc = .ok found) {o : Occurrence} (ho : o ∈ found) :
    o.line = doc.tokens.lineOf o.keyword := by
  obtain ⟨rfl, hscan⟩ := findAll_eq h
  obtain ⟨node, hnode, ho⟩ := List.mem_flatMap.mp ho
  obtain ⟨id, token, rest, signature, n, hsuffix, -, hread⟩ := scanFrom_read (hscan node hnode) ho
  have htoken := (mem_entries.mp (hsuffix.subset List.mem_cons_self)).2
  have hline : doc.tokens.lineOf id = token.line := by
    unfold TokenList.lineOf
    rw [htoken]
    rfl
  obtain ⟨tail, -, -, hplace⟩ := read_inv hread
  rcases hplace with rfl | ⟨-, param, context, -, -, rfl⟩
  · exact hline.symm
  · exact hline.symm

end Occurrence

/-! ## §3. The earliest use -/

namespace Lowering

/-- **The earliest use** is on the lowest line, and those before it are on later ones. -/
theorem earliest?_split {refs : List Occurrence} {first : Occurrence}
    (h : earliest? refs = some first) :
    ∃ a b, refs = a ++ first :: b ∧ (∀ u ∈ a, first.line < u.line)
      ∧ ∀ u ∈ b, first.line ≤ u.line := by
  induction refs generalizing first with
  | nil => simp [earliest?] at h
  | cons found rest ih =>
    unfold earliest? at h
    split at h
    · rename_i hnone
      obtain rfl := Option.some.inj h
      have hrest : rest = [] := by
        by_contra hne
        obtain ⟨other, hother⟩ := exists_earliest hne
        rw [hnone] at hother
        simp at hother
      exact ⟨[], [], by rw [hrest]; rfl, by simp, by simp⟩
    · rename_i other hother
      obtain ⟨a, b, rfl, ha, hb⟩ := ih hother
      obtain rfl := Option.some.inj h
      split
      -- an earlier line wins, and on one line the occurrence that comes first
      · rename_i hlt
        exact ⟨found :: a, b, rfl, List.forall_mem_cons.mpr ⟨hlt, ha⟩, hb⟩
      · rename_i hle
        have hle := Nat.le_of_not_lt hle
        refine ⟨[], a ++ other :: b, rfl, by simp, ?_⟩
        intro u hu
        rcases List.mem_append.mp hu with hu | hu
        · exact Nat.le_trans hle (Nat.le_of_lt (ha u hu))
        · rcases List.mem_cons.mp hu with rfl | hu
          · exact hle
          · exact Nat.le_trans hle (hb u hu)

/-- **The construct of the earliest use** begins before those of the others, or is the same. -/
theorem earliest_container_le {config : Config} {source : String} {doc : Document}
    (hload : Document.load config source = .ok doc) {found refs : List Occurrence}
    (hfound : Occurrence.findAll doc = .ok found) (hsub : refs.Sublist found)
    {first use : Occurrence} (hfirst : earliest? refs = some first) (huse : use ∈ refs)
    {c d : NodeId} (hc : doc.tree.container? first.node = some c)
    (hd : doc.tree.container? use.node = some d) : doc.start c ≤ doc.start d := by
  have h₀ := Document.load_loaded hload
  have hfirstmem := hsub.subset (mem_of_earliest? hfirst)
  have hall := fun {o} ho => (Occurrence.findAll_ok hfound).1 o ho
  have hplain := fun {o} ho => (h₀.plain_of_searched (hall (o := o) ho).searched).1
  obtain ⟨hcplain, hcscope⟩ := h₀.container (hplain hfirstmem) hc
  obtain ⟨hdplain, hdscope⟩ := h₀.container (hplain (hsub.subset huse)) hd
  have hcaround := h₀.container_around (hplain hfirstmem) hc
  have hdaround := h₀.container_around (hplain (hsub.subset huse)) hd
  by_contra hlt
  have hlt := Nat.lt_of_not_le hlt
  have hne : c ≠ d := by
    rintro rfl
    exact Nat.lt_irrefl _ hlt
  -- the other construct ends before that of the earliest use begins
  have hapart : doc.stop d < doc.start c := by
    rcases h₀.scope_apart hcplain hdplain hcscope hdscope hne with hbefore | hbefore
    · have horder := h₀.start_le_stop hcplain.below hcplain.ne_root
      omega
    · exact hbefore
  obtain ⟨hkey, hlow, -⟩ := h₀.mem_ownTokens (hplain hfirstmem) (hall hfirstmem).keyword_mem
  obtain ⟨-, -, hhigh⟩ := h₀.mem_ownTokens (hplain (hsub.subset huse))
    (hall (hsub.subset huse)).keyword_mem
  have hline : use.line ≤ first.line := by
    rw [Occurrence.line_eq hfound hfirstmem, Occurrence.line_eq hfound (hsub.subset huse)]
    exact TokenList.lex_lineOf_le (Document.load_ok hload).1 (by omega) hkey
  -- so it is on the same line, and was found no earlier
  obtain ⟨a, b, rfl, ha, -⟩ := earliest?_split hfirst
  have hsorted := (Occurrence.findAll_sorted h₀ hfound).sublist hsub
  have hstart := h₀.start_le_stop (hplain (hsub.subset huse)).below
    (hplain (hsub.subset huse)).ne_root
  rcases List.mem_append.mp huse with hin | hin
  · have := ha use hin
    omega
  · rcases List.mem_cons.mp hin with rfl | hin
    · rw [hc] at hd
      exact hne (Option.some.inj hd)
    · have hbehind := (List.pairwise_cons.mp (List.pairwise_append.mp hsorted).2.1).1 use hin
      omega

end Lowering

end KernelPrep
