/-
  KernelPrep.Proofs.Texture.Opening — what stands right before a construct.

  Lines are put before constructs at file scope.  The token right before the first one of such
  a construct is a blank, a comment, a line end, a `;` or a brace, none of which runs together
  with what is put behind it.

  Main statements:
    * `Document.load_fresh`   — constructs at file scope begin where they may;
    * `Document.before_scope` — the token right before one.
-/
import KernelPrep.Proofs.Outline.Fresh
import KernelPrep.Proofs.Texture.Scope
import KernelPrep.Proofs.Token.Lexing

namespace KernelPrep

open NodeTree (Below root)
open Skeleton (PlantedAt PlantedAllAt tops scopeStarts scopeStartsAll)

/-! ## §1. Leaves and tokens -/

namespace Leaf

/-- A token that is no formatting is the next leaf. -/
theorem ofTokensFrom_cons {id : TokenId} {token : Token} (h : token.kind.isTrivia = false)
    (escaped broken : Bool) (rest : List (TokenId × Token)) :
    ofTokensFrom escaped broken ((id, token) :: rest)
      = { id, kind := token.kind, text := token.text, line := token.line, startsLine := broken }
        :: ofTokensFrom (token.kind == .backslash) false rest := by
  conv => lhs; unfold ofTokensFrom
  split
  · rename_i hkind
    rw [hkind] at h
    exact Bool.noConfusion h
  · rename_i hkind
    rw [hkind] at h
    exact Bool.noConfusion h
  · rename_i hkind
    rw [hkind] at h
    exact Bool.noConfusion h
  · rfl

/-- The first token becomes a leaf or leaves no trace but in how the others are read. -/
theorem ofTokensFrom_step (id : TokenId) (token : Token) (escaped broken : Bool) :
    ∃ own escaped' broken', ∀ rest, ofTokensFrom escaped broken ((id, token) :: rest)
      = own ++ ofTokensFrom escaped' broken' rest := by
  cases htrivia : token.kind.isTrivia with
  | false => exact ⟨[_], _, _, ofTokensFrom_cons htrivia escaped broken⟩
  | true =>
    unfold TokenKind.isTrivia at htrivia
    split at htrivia
    · rename_i hkind
      exact ⟨[], escaped, broken, fun rest => by simp only [ofTokensFrom, hkind]; rfl⟩
    · rename_i hkind
      exact ⟨[], false, broken || !escaped, fun rest => by simp only [ofTokensFrom, hkind]; rfl⟩
    · rename_i hkind
      exact ⟨[], false, broken, fun rest => by simp only [ofTokensFrom, hkind]; rfl⟩
    · exact Bool.noConfusion htrivia

/-- The leaves of joined tokens are those of the two parts, the second read in some margin. -/
theorem ofTokensFrom_append (before behind : List (TokenId × Token)) (escaped broken : Bool) :
    ∃ escaped' broken', ofTokensFrom escaped broken (before ++ behind)
      = ofTokensFrom escaped broken before ++ ofTokensFrom escaped' broken' behind := by
  induction before generalizing escaped broken with
  | nil => exact ⟨escaped, broken, rfl⟩
  | cons entry rest ih =>
    obtain ⟨id, token⟩ := entry
    obtain ⟨own, escaped₁, broken₁, hstep⟩ := ofTokensFrom_step id token escaped broken
    obtain ⟨escaped', broken', heq⟩ := ih escaped₁ broken₁
    refine ⟨escaped', broken', ?_⟩
    rw [List.cons_append, hstep, hstep, heq, List.append_assoc]

end Leaf

namespace TokenList

variable {list : TokenList} {file : List TokenId}

/-- **Right before a fresh leaf** there is no significant token but a `;` or a brace. -/
theorem before_fresh (h : list.Threaded file) {a b : List TokenId} {p id : TokenId}
    (hfile : file = a ++ p :: id :: b) (hfresh : Outline.FreshAt list.leaves id)
    (hp : list.isSignificant p = true) :
    ∃ kind, list.kind? p = some kind ∧ kind ∈ [.semicolon, .rbrace, .lbrace] := by
  obtain ⟨before, leaf, behind, hleaves, hid, hleaf⟩ := hfresh
  have hsig : list.isSignificant id = true :=
    ((mem_leaves_iff h).mp ⟨leaf, by simp [hleaves], hid⟩).2
  obtain ⟨token, htoken, -⟩ := h.get?_of_mem (show p ∈ file by simp [hfile])
  obtain ⟨token', htoken', -⟩ := h.get?_of_mem (show id ∈ file by simp [hfile])
  rw [isSignificant_of_get? htoken, Bool.not_eq_true'] at hp
  rw [isSignificant_of_get? htoken', Bool.not_eq_true'] at hsig
  -- both tokens are leaves, with no line end between them
  have hentries : list.entries = (a.filterMap fun x => (list.get? x).map (x, ·))
      ++ (p, token) :: (id, token') :: b.filterMap fun x => (list.get? x).map (x, ·) := by
    unfold entries
    rw [h.ids_eq, hfile, List.filterMap_append, List.filterMap_cons, htoken, Option.map_some,
      List.filterMap_cons, htoken']
    rfl
  obtain ⟨escaped, broken, hsplit⟩ := Leaf.ofTokensFrom_append
    (a.filterMap fun x => (list.get? x).map (x, ·))
    ((p, token) :: (id, token') :: b.filterMap fun x => (list.get? x).map (x, ·)) false false
  rw [← hentries, Leaf.ofTokensFrom_cons hp, Leaf.ofTokensFrom_cons hsig] at hsplit
  have hnodup := leaves_nodup h
  rw [hleaves] at hnodup
  obtain ⟨hbefore, rfl⟩ := split_unique hnodup
    (hleaves.symm.trans (hsplit.trans (List.append_cons _ _ _))) hid
  rcases hleaf with hline | hkind
  · exact Bool.noConfusion hline
  · refine ⟨token.kind, kind?_of_get? htoken, ?_⟩
    have hlast := hkind _ (by rw [hbefore, List.getLast?_concat])
    simpa using hlast

end TokenList

/-! ## §2. Constructs in the tree -/

namespace Skeleton

variable {tree : NodeTree} {kids : NodeId → List NodeId}

/-- The top of a planted skeleton is one of those planted. -/
theorem PlantedAllAt.exists_mem {n : Nat} {ss : List Skeleton} {id : NodeId}
    (h : PlantedAllAt tree kids n ss) (hid : id ∈ tops n ss) :
    ∃ s ∈ ss, s.PlantedAt tree kids id.index := by
  induction ss generalizing n with
  | nil => simp [tops] at hid
  | cons s rest ih =>
    unfold PlantedAllAt at h
    unfold tops at hid
    rcases List.mem_cons.mp hid with rfl | hid
    · exact ⟨s, List.mem_cons_self, h.1⟩
    · obtain ⟨s', hs', hplanted⟩ := ih h.2 hid
      exact ⟨s', List.mem_cons_of_mem _ hs', hplanted⟩

theorem scopeStarts_subset {s : Skeleton} {ss : List Skeleton} (h : s ∈ ss) :
    s.scopeStarts ⊆ scopeStartsAll ss := by
  induction ss with
  | nil => simp at h
  | cons s' rest ih =>
    unfold scopeStartsAll
    rcases List.mem_cons.mp h with rfl | h
    · exact List.subset_append_left _ _
    · exact List.Subset.trans (ih h) (List.subset_append_right _ _)

end Skeleton

/-- A construct at file scope is one of those whose beginnings are listed. -/
theorem Outlined.planted_scope {doc : Document} {items : List Skeleton} (h₀ : Loaded doc)
    (h : Outlined doc.tokens doc.tree doc.tree.children items) {id : NodeId}
    (hb : Below doc.tree.children root id) (hscope : doc.AtScope id) :
    ∃ s : Skeleton, s.PlantedAt doc.tree doc.tree.children id.index
      ∧ s.scopeStarts ⊆ scopeStartsAll items := by
  induction hb with
  | refl => exact absurd rfl (h₀.below_of_atScope hscope).2
  | @tail parent child hparent hstep ih =>
    obtain ⟨parent', hup, hkind⟩ := hscope
    rw [(h₀.forest.parent_iff parent child).mpr hstep] at hup
    obtain rfl := Option.some.inj hup
    -- a construct at file scope is a child of the root, or of a linkage block
    rcases hkind with rfl | hlink
    · have htop : child ∈ tops 1 items := by
        rw [← h.kids_root]
        exact hstep
      obtain ⟨s, hs, hplanted⟩ := h.planted.exists_mem htop
      exact ⟨s, hplanted, Skeleton.scopeStarts_subset hs⟩
    · -- inside of a linkage block, which stands at file scope itself
      have hne : parent ≠ root := by
        rintro rfl
        rw [h.kind_root] at hlink
        simp at hlink
      obtain ⟨⟨kind, range, children⟩, hplanted, hsub⟩ :=
        ih (h₀.atScope_of_isScoped hparent hne hlink rfl)
      unfold PlantedAt at hplanted
      obtain ⟨hpkind, -, hkids, hall⟩ := hplanted
      obtain rfl : kind = .linkageBlock := Option.some.inj (hpkind.symm.trans hlink)
      have htop : child ∈ tops (parent.index + 1) children := by
        rw [← hkids]
        exact hstep
      obtain ⟨s, hs, hin⟩ := hall.exists_mem htop
      refine ⟨s, hin,
        List.Subset.trans (Skeleton.scopeStarts_subset hs) (List.Subset.trans ?_ hsub)⟩
      unfold scopeStarts
      rw [if_pos rfl]
      exact List.subset_cons_self _ _

/-- **Constructs at file scope** of a loaded document begin where they may. -/
theorem Document.load_fresh {config : Config} {source : String} {doc : Document}
    (hload : Document.load config source = .ok doc) {construct : NodeId} {id : TokenId}
    (hscope : doc.AtScope construct) (hstarts : doc.Starts construct id) :
    Outline.FreshAt doc.tokens.leaves id := by
  have h₀ := Document.load_loaded hload
  obtain ⟨hlex, hparse, -, -⟩ := Document.load_ok hload
  obtain ⟨htree, -⟩ := TokenList.parse_eq_ok hparse
  obtain ⟨kids, hout⟩ := TokenList.outline_outlined h₀.threaded
  rw [← htree] at hout
  obtain rfl : doc.tree.children = kids := funext hout.forest.children_eq
  obtain ⟨hb, -⟩ := h₀.below_of_atScope hscope
  obtain ⟨s, hplanted, hsub⟩ := hout.planted_scope h₀ hb hscope
  have hfirst : id ∈ s.scopeStarts := by
    obtain ⟨range, hrange, rfl⟩ := hstarts
    obtain ⟨kind, range', children⟩ := s
    unfold PlantedAt at hplanted
    obtain rfl : range' = range := Option.some.inj (hplanted.2.1.symm.trans hrange)
    unfold scopeStarts
    exact List.mem_cons_self
  refine Outline.parse_fresh (TokenList.leaves_nodup h₀.threaded) (fun leaf hleaf htext => ?_)
    id (hsub hfirst)
  rw [TokenList.kind_of_start (TokenList.lex_reads hlex).1 hleaf (by rw [htext]; decide),
    htext]
  decide

/-- **The token right before a construct** at file scope is a blank, a comment, a line end, a
    `;` or a brace. -/
theorem Document.before_scope {config : Config} {source : String} {doc : Document}
    (hload : Document.load config source = .ok doc) {construct : NodeId} {p id : TokenId}
    {a b : List TokenId} (hfile : doc.tokens.ids = a ++ p :: id :: b)
    (hscope : doc.AtScope construct) (hstarts : doc.Starts construct id) :
    ∃ kind, doc.tokens.kind? p = some kind
      ∧ (kind.isTrivia = true ∨ kind ∈ [.semicolon, .rbrace, .lbrace]) := by
  have h₀ := Document.load_loaded hload
  obtain ⟨token, htoken, -⟩ := h₀.threaded.get?_of_mem (show p ∈ doc.tokens.ids by simp [hfile])
  cases hp : doc.tokens.isSignificant p with
  | false =>
    refine ⟨token.kind, TokenList.kind?_of_get? htoken, Or.inl ?_⟩
    rw [TokenList.isSignificant_of_get? htoken] at hp
    simpa using hp
  | true =>
    obtain ⟨kind, hkind, hin⟩ := TokenList.before_fresh h₀.threaded hfile
      (Document.load_fresh hload hscope hstarts) hp
    exact ⟨kind, hkind, Or.inr hin⟩

end KernelPrep
