/-
  KernelPrep.Proofs.Texture.Standing — where nodes stand once textures are lowered.

  Lowering cuts out the tokens of uses, and the ends of a node move with them: a node that
  ended inside of a use ends with what stands for the use.  As long as no node begins inside of
  a use, every node still begins with what stands for its first token, and the tokens that a
  node had for itself are outside of its children as before.

  Main definitions:
    * `Strand.Spans`       — a range of the lowered file, by tokens of the loaded one;
    * `Lowering.Unbroken`  — lowering that went through, with no use broken by a brace.

  Main statements:
    * `Lowering.Unbroken.spans`      — where a node stands;
    * `Lowering.Unbroken.exists_own` — what the own tokens of a node stand for.
-/
import KernelPrep.Proofs.Texture.Cuts
import KernelPrep.Proofs.Texture.DefinedFirst

namespace KernelPrep

open Strand (lay)

/-! ## §1. Places in a file laid out -/

/-- The range goes from the first token that stands for `first` through the last one that
    stands for `last`. -/
structure Strand.Spans (strand : TokenId → Strand) (range : TokenRange) (first last : TokenId) :
    Prop where
  head : (strand first).core.head? = some range.first
  tail : (strand last).core.getLast? = some range.last

namespace Laid

variable {list₀ list : TokenList} {strand : TokenId → Strand} {s t x y first last : TokenId}
  {range : TokenRange}

/-- What stands for a token or around it is before what stands for a later one. -/
theorem place_lt (h : Laid list₀ list strand) (h₀ : list₀.Unedited) (hs : s ∈ list₀.ids)
    (ht : t ∈ list₀.ids) (hlt : s.index < t.index) (hx : x ∈ (strand s).ids)
    (hy : y ∈ (strand t).ids) : list.place x < list.place y := by
  obtain ⟨a, b, hsplit⟩ := List.append_of_mem hs
  have hpair := h₀.pairwise_index
  rw [hsplit] at hpair ht
  have hb : t ∈ b := by
    rcases List.mem_append.mp ht with hin | hin
    · have hgt := (List.pairwise_append.mp hpair).2.2 t hin s List.mem_cons_self
      omega
    · refine (List.mem_cons.mp hin).resolve_left ?_
      rintro rfl
      exact Nat.lt_irrefl _ hlt
  have hplace := h.threaded.pairwise_place
  rw [hsplit, Strand.lay_append, Strand.lay_cons] at hplace
  exact (List.pairwise_append.mp (List.pairwise_append.mp hplace).2.1).2.2 x hx y
    (Strand.mem_lay.mpr ⟨t, hb, hy⟩)

/-- What stands around a token and in place of it comes in order. -/
theorem pairwise_strand (h : Laid list₀ list strand) (hs : s ∈ list₀.ids) :
    (strand s).ids.Pairwise fun a b => list.place a < list.place b := by
  obtain ⟨a, b, hsplit⟩ := List.append_of_mem hs
  have hplace := h.threaded.pairwise_place
  rw [hsplit, Strand.lay_append, Strand.lay_cons] at hplace
  exact (List.pairwise_append.mp (List.pairwise_append.mp hplace).2.1).1

/-- What stands for a token comes behind what leads it and before what trails it. -/
theorem place_around (h : Laid list₀ list strand) (hs : s ∈ list₀.ids) (hx : x ∈ (strand s).core) :
    (∀ y ∈ (strand s).lead, list.place y < list.place x)
      ∧ ∀ y ∈ (strand s).trail, list.place x < list.place y := by
  have hpair := h.pairwise_strand hs
  unfold Strand.ids at hpair
  obtain ⟨hfront, -, hbehind⟩ := List.pairwise_append.mp hpair
  exact ⟨fun y hy => (List.pairwise_append.mp hfront).2.2 y hy x hx,
    fun y hy => hbehind x (List.mem_append_right _ hx) y hy⟩

theorem mem_ids_of_core (hx : x ∈ (strand s).core) : x ∈ (strand s).ids := by
  simp [Strand.ids, hx]

/-- **What stands for tokens of a stretch** is in the range that the stretch has become. -/
theorem place_between (h : Laid list₀ list strand) (h₀ : list₀.Unedited)
    (hspans : Strand.Spans strand range first last) (hfirst : first ∈ list₀.ids)
    (hlast : last ∈ list₀.ids) (hs : s ∈ list₀.ids) (hlow : first.index ≤ s.index)
    (hhigh : s.index ≤ last.index) (hx : x ∈ (strand s).core) :
    list.place range.first ≤ list.place x ∧ list.place x ≤ list.place range.last := by
  -- within one strand the core is in order; between strands the tokens of the source are
  have hpair : (strand s).core.Pairwise fun a b => list.place a < list.place b := by
    have hpair := h.pairwise_strand hs
    unfold Strand.ids at hpair
    exact (List.pairwise_append.mp (List.pairwise_append.mp hpair).1).2.1
  constructor
  · rcases Nat.lt_or_eq_of_le hlow with hlt | he
    · exact Nat.le_of_lt (h.place_lt h₀ hfirst hs hlt
        (mem_ids_of_core (List.mem_of_head? hspans.head)) (mem_ids_of_core hx))
    · obtain rfl := TokenId.ext_index he
      obtain ⟨rest, hrest⟩ := List.head?_eq_some_iff.mp hspans.head
      rw [hrest] at hx hpair
      rcases List.mem_cons.mp hx with rfl | hx
      · exact Nat.le_refl _
      · exact Nat.le_of_lt ((List.pairwise_cons.mp hpair).1 x hx)
  · rcases Nat.lt_or_eq_of_le hhigh with hlt | he
    · exact Nat.le_of_lt (h.place_lt h₀ hs hlast hlt (mem_ids_of_core hx)
        (mem_ids_of_core (List.mem_of_getLast? hspans.tail)))
    · obtain rfl := TokenId.ext_index he
      obtain ⟨front, hfront⟩ := List.getLast?_eq_some_iff.mp hspans.tail
      rw [hfront] at hx hpair
      rcases List.mem_append.mp hx with hx | hx
      · exact Nat.le_of_lt ((List.pairwise_append.mp hpair).2.2 x hx _ List.mem_cons_self)
      · rw [List.mem_singleton.mp hx]

/-- **What is in the range that a stretch has become** stands for tokens of the stretch, or
    around them. -/
theorem between_of_place (h : Laid list₀ list strand) (h₀ : list₀.Unedited)
    (hspans : Strand.Spans strand range first last) (hfirst : first ∈ list₀.ids)
    (hlast : last ∈ list₀.ids) (hs : s ∈ list₀.ids) (hx : x ∈ (strand s).ids)
    (hlow : list.place range.first ≤ list.place x)
    (hhigh : list.place x ≤ list.place range.last) :
    (first.index ≤ s.index ∧ s.index ≤ last.index)
      ∧ (x ∈ (strand s).lead → first.index < s.index)
      ∧ (x ∈ (strand s).trail → s.index < last.index) := by
  have hhead := List.mem_of_head? hspans.head
  have htail := List.mem_of_getLast? hspans.tail
  have hle : first.index ≤ s.index := by
    by_contra hlt
    have := h.place_lt h₀ hs hfirst (by omega) hx (mem_ids_of_core hhead)
    omega
  have hge : s.index ≤ last.index := by
    by_contra hlt
    have := h.place_lt h₀ hlast hs (by omega) (mem_ids_of_core htail) hx
    omega
  refine ⟨⟨hle, hge⟩, fun hlead => ?_, fun htrail => ?_⟩
  · refine Nat.lt_of_le_of_ne hle fun he => ?_
    obtain rfl := TokenId.ext_index he
    have := (h.place_around hfirst hhead).1 x hlead
    omega
  · refine Nat.lt_of_le_of_ne hge fun he => ?_
    obtain rfl := TokenId.ext_index he
    have := (h.place_around hs htail).2 x htrail
    omega

end Laid

/-! ## §2. Nodes of the lowered file -/

/-- Of the tokens through the place `p`, `t` is the last one for which anything stands. -/
structure Strand.LastTo (strand : TokenId → Strand) (file : List TokenId) (p : Nat)
    (t : TokenId) : Prop where
  mem : t ∈ file
  le : t.index ≤ p
  empty : ∀ s ∈ file, t.index < s.index → s.index ≤ p → (strand s).core = []

/-- A token for which something stands is not behind the last one. -/
theorem Strand.LastTo.le_of_mem {strand : TokenId → Strand} {file : List TokenId} {p : Nat}
    {s t x : TokenId} (h : Strand.LastTo strand file p t) (hs : s ∈ file) (hle : s.index ≤ p)
    (hx : x ∈ (strand s).core) : s.index ≤ t.index := by
  by_contra hlt
  rw [h.empty s hs (by omega) hle] at hx
  simp at hx

namespace Woven

variable {doc₀ doc : Document} {strand : TokenId → Strand} {weft : TokenId → Weft}
  {id x t : TokenId} {node : NodeId}

/-- Nothing stands for a token that is gone. -/
theorem core_nil (h : Woven doc₀ doc strand weft) (hid : id ∈ doc₀.tokens.ids)
    (hcore : (weft id).core? = some []) : (strand id).core = [] := by
  have hspells := ((h.reads id hid).other [] hcore).2
  refine List.eq_nil_iff_forall_not_mem.mpr fun y hy => ?_
  have hlinked := h.isLinked hid (Laid.mem_ids_of_core hy)
  obtain ⟨token, htoken, -⟩ := TokenList.isLinked_iff.mp hlinked
  have hin : (token.kind, token.text) ∈ doc.tokens.spells (strand id).core :=
    List.mem_filterMap.mpr ⟨y, hy, by rw [htoken]; rfl⟩
  rw [hspells] at hin
  simp at hin

/-- The seat of a token is the last place up to it: nothing stands for what is between. -/
theorem lastTo_of_seat (h : Woven doc₀ doc strand weft) (h₀ : Loaded doc₀)
    (hx : x ∈ doc₀.tokens.ids) (hseat : Weft.Seat weft doc₀.tokens.ids x t) :
    Strand.LastTo strand doc₀.tokens.ids x.index t := by
  refine ⟨hseat.mem hx, ?_, ?_⟩
  · rcases hseat with rfl | ⟨-, a, rest, b, hfile, hin, -⟩
    · exact Nat.le_refl _
    · have hpair := h₀.unedited.pairwise_index
      rw [hfile] at hpair
      have hcut := (List.pairwise_append.mp (List.pairwise_append.mp hpair).1).2.1
      exact Nat.le_of_lt ((List.pairwise_cons.mp hcut).1 x hin)
  · intro s hs hlow hhigh
    rcases hseat with rfl | ⟨-, a, rest, b, hfile, hin, hempty⟩
    · omega
    · refine h.core_nil hs (hempty s ?_)
      -- between the seat and the token are only tokens that are gone
      have hpair := h₀.unedited.pairwise_index
      rw [hfile] at hpair hs
      obtain ⟨hfront, -, hbehind⟩ := List.pairwise_append.mp hpair
      obtain ⟨-, -, hbefore⟩ := List.pairwise_append.mp hfront
      rcases List.mem_append.mp hs with hs | hs
      · rcases List.mem_append.mp hs with hs | hs
        · have hlt := hbefore s hs t List.mem_cons_self
          omega
        · refine (List.mem_cons.mp hs).resolve_left ?_
          rintro rfl
          exact Nat.lt_irrefl _ hlow
      · have hlt := hbehind x (by simp [hin]) s hs
        omega

/-- **A node stands** from what stands for its first token through what stands for its last. -/
theorem exists_spans (h : Woven doc₀ doc strand weft) (h₀ : Loaded doc₀)
    (hnode : doc₀.Plain node) :
    ∃ range first last, doc.tree.tokens? node = some range
      ∧ Strand.LastTo strand doc₀.tokens.ids (doc₀.start node) first
      ∧ Strand.LastTo strand doc₀.tokens.ids (doc₀.stop node) last
      ∧ Strand.Spans strand range first last := by
  obtain ⟨range₀, hrange₀, ⟨hfirstmem, -, hstart⟩, hlastmem, hstop⟩ :=
    h₀.range hnode.below hnode.ne_root
  obtain ⟨range, hrange, ⟨first, hfirst, hhead⟩, last, hlast, htail⟩ :=
    h.seats node range₀ hnode hrange₀
  refine ⟨range, first, last, hrange, ?_, ?_, hhead, htail⟩
  · rw [← hstart]
    exact h.lastTo_of_seat h₀ hfirstmem hfirst
  · rw [← hstop]
    exact h.lastTo_of_seat h₀ hlastmem hlast

/-- Nodes that are searched get no children. -/
theorem children_eq (h : Woven doc₀ doc strand weft) (h₀ : Loaded doc₀)
    (hnode : (doc₀.tree.kind? node).any Occurrence.isSearched = true) :
    doc.tree.children node = doc₀.tree.children node := by
  obtain ⟨hplain, -, hblock⟩ := h₀.plain_of_searched hnode
  rw [← h.grown.children node (h₀.index_lt hplain.below)]
  refine (List.filter_eq_self.mpr fun c hc => ?_).symm
  by_contra hnew
  have hparent := (h.grown.forest.parent_iff _ _).mpr hc
  rcases h.bearers c node (by simpa using hnew) hparent with hnot | hkind
  · exact hnot hplain
  · exact hblock hkind

end Woven

namespace Lowering

/-- Lowering that went through, the strands of the lowered file and the parts of the outline,
    where no use is broken. -/
structure Unbroken [ContentHash] (doc : Document) (found : List Occurrence)
    (types : List Weave.Declared)
    (state : Lowering) (strand : TokenId → Strand) (branches : List Branch) : Prop where
  finished : Finished doc found types state
  woven : Woven doc state.document strand
    (Weave.weft doc (fun _ => []) types (Weave.uses types))
  branched : Outline.Branched doc.tokens doc.tree doc.tree.children branches
  unbroken : ∀ o ∈ found, o.IsUnbroken doc

/-- A node stands from what stands for `first` through what stands for `last`. -/
structure Stands (doc doc' : Document) (strand : TokenId → Strand) (node : NodeId)
    (range : TokenRange) (first last : TokenId) : Prop where
  tokens? : doc'.tree.tokens? node = some range
  first_mem : first ∈ doc.tokens.ids
  first_index : first.index = doc.start node
  last_to : Strand.LastTo strand doc.tokens.ids (doc.stop node) last
  order : first.index ≤ last.index
  spans : Strand.Spans strand range first last

namespace Stands

variable {doc doc' : Document} {strand : TokenId → Strand} {node node' : NodeId}
  {range range' : TokenRange} {first last first' last' x s : TokenId}

theorem head_mem (h : Stands doc doc' strand node range first last) :
    range.first ∈ (strand first).core := List.mem_of_head? h.spans.head

theorem tail_mem (h : Stands doc doc' strand node range first last) :
    range.last ∈ (strand last).core := List.mem_of_getLast? h.spans.tail

/-- What stands for the tokens of a node is in the range of the node. -/
theorem place_between (h : Stands doc doc' strand node range first last) (h₀ : Loaded doc)
    (hlaid : Laid doc.tokens doc'.tokens strand) (hs : s ∈ doc.tokens.ids)
    (hlow : doc.start node ≤ s.index) (hhigh : s.index ≤ doc.stop node)
    (hx : x ∈ (strand s).core) :
    doc'.tokens.place range.first ≤ doc'.tokens.place x
      ∧ doc'.tokens.place x ≤ doc'.tokens.place range.last :=
  hlaid.place_between h₀.unedited h.spans h.first_mem h.last_to.mem hs
    (by rw [h.first_index]; exact hlow) (h.last_to.le_of_mem hs hhigh hx) hx

/-- The ends of a node are in the file, in order. -/
theorem ends (h : Stands doc doc' strand node range first last) (h₀ : Loaded doc)
    (hlaid : Laid doc.tokens doc'.tokens strand) :
    range.first ∈ lay strand doc.tokens.ids ∧ range.last ∈ lay strand doc.tokens.ids
      ∧ doc'.tokens.place range.first ≤ doc'.tokens.place range.last := by
  have hfirst := h.first_index
  have horder := h.order
  have hlast := h.last_to.le
  exact ⟨Strand.mem_lay.mpr ⟨_, h.first_mem, Laid.mem_ids_of_core h.head_mem⟩,
    Strand.mem_lay.mpr ⟨_, h.last_to.mem, Laid.mem_ids_of_core h.tail_mem⟩,
    (h.place_between h₀ hlaid h.first_mem (by omega) (by omega) h.head_mem).2⟩

/-- A node that is in another one stands in it. -/
theorem nested (h : Stands doc doc' strand node range first last)
    (h' : Stands doc doc' strand node' range' first' last') (h₀ : Loaded doc)
    (hlaid : Laid doc.tokens doc'.tokens strand)
    (hnested : doc.start node ≤ doc.start node' ∧ doc.stop node' ≤ doc.stop node) :
    doc'.tokens.place range.first ≤ doc'.tokens.place range'.first
      ∧ doc'.tokens.place range'.last ≤ doc'.tokens.place range.last := by
  obtain ⟨hlow, hhigh⟩ := hnested
  have hfirst := h'.first_index
  have horder := h'.order
  have hlast := h'.last_to.le
  exact ⟨(h.place_between h₀ hlaid h'.first_mem (by omega) (by omega) h'.head_mem).1,
    (h.place_between h₀ hlaid h'.last_to.mem (by omega) (by omega) h'.tail_mem).2⟩

/-- A node that ends before another one begins stands before it. -/
theorem apart (h : Stands doc doc' strand node range first last)
    (h' : Stands doc doc' strand node' range' first' last') (h₀ : Loaded doc)
    (hlaid : Laid doc.tokens doc'.tokens strand) (hlt : doc.stop node < doc.start node') :
    doc'.tokens.place range.last < doc'.tokens.place range'.first := by
  have hfirst := h'.first_index
  have hlast := h.last_to.le
  exact hlaid.place_lt h₀.unedited h.last_to.mem h'.first_mem (by omega)
    (Laid.mem_ids_of_core h.tail_mem) (Laid.mem_ids_of_core h'.head_mem)

end Stands

namespace Unbroken

variable {doc : Document} {found : List Occurrence} {types : List Weave.Declared}
  {state : Lowering} {strand : TokenId → Strand} {branches parts : List Branch} {n : NodeId}
  {kind : NodeKind} {s x : TokenId}

theorem loaded [ContentHash] (h : Unbroken doc found types state strand branches) : Loaded doc :=
  h.finished.grouped.loaded

theorem found_of_mem [ContentHash] (h : Unbroken doc found types state strand branches)
    {u : Weave.Declared × Occurrence} (hu : u ∈ Weave.uses types) :
    u.2 ∈ found ∧ Occurrence.Found doc u.2 := by
  obtain ⟨htype, huse⟩ := mem_uses.mp hu
  exact h.finished.grouped.found_of_mem htype huse

/-- **What stands for a token**: itself, what is made of a use, or nothing. -/
theorem core_cases [ContentHash] (h : Unbroken doc found types state strand branches)
    (hs : s ∈ doc.tokens.ids) :
    (Weave.core? doc (Weave.uses types) s = none ∧ (strand s).core = [s])
      ∨ (∃ u ∈ Weave.uses types, u.2.keyword = s
        ∧ state.document.tokens.spells (strand s).core = Weave.replacement doc u.1 u.2)
      ∨ ((strand s).core = [] ∧ ∃ u ∈ Weave.uses types, u.2.keyword.index < s.index
        ∧ s.index ≤ (Weave.cut u.2).last.index) := by
  have hreads := h.woven.reads s hs
  rcases Weave.core?_cases h.loaded (fun u hu => (h.found_of_mem hu).2) s with
    ⟨hnone, -⟩ | ⟨u, hu, hkey, hcore⟩ | ⟨hcore, hgone⟩
  · exact .inl ⟨hnone, hreads.self hnone⟩
  · exact .inr (.inl ⟨u, hu, hkey, (hreads.other _ hcore).2⟩)
  · exact .inr (.inr ⟨h.woven.core_nil hs hcore, hgone⟩)

/-- Something stands for the first token of a node. -/
theorem core_start [ContentHash] (h : Unbroken doc found types state strand branches)
    (hnode : doc.HasNode branches n kind parts) (hs : s ∈ doc.tokens.ids)
    (hstart : s.index = doc.start n) : (strand s).core ≠ [] := by
  rcases h.core_cases hs with ⟨-, hcore⟩ | ⟨u, hu, -, hspells⟩ | ⟨-, u, hu, hlow, hhigh⟩
  · rw [hcore]
    simp
  · intro hnil
    rw [hnil] at hspells
    unfold Weave.replacement at hspells
    split at hspells <;> simp [Weave.spelled, Piece.spell, TokenList.spells] at hspells
  · have houtside := hnode.start_outside h.finished.grouped.found_eq (h.found_of_mem hu).1
      (h.unbroken _ (h.found_of_mem hu).1)
    omega

/-- **Where a node stands** once all textures are lowered. -/
theorem stands [ContentHash] (h : Unbroken doc found types state strand branches)
    (hnode : doc.HasNode branches n kind parts) (hplain : doc.Plain n) :
    ∃ range first last, Stands doc state.document strand n range first last := by
  obtain ⟨range, first, last, hrange, hfirst, hlast, hspans⟩ :=
    h.woven.exists_spans h.loaded hplain
  obtain ⟨range₀, -, ⟨hmem, -, hstart⟩, -⟩ := h.loaded.range hplain.below hplain.ne_root
  have hcore := h.core_start hnode hmem hstart
  have horder := h.loaded.start_le_stop hplain.below hplain.ne_root
  have hle := hfirst.le
  have hsame : first.index = doc.start n := by
    by_contra hne
    exact hcore (hfirst.empty _ hmem (by omega) (by omega))
  refine ⟨range, first, last, hrange, hfirst.mem, hsame, hlast, ?_, hspans⟩
  by_contra hlt
  exact hcore (hlast.empty _ hmem (by omega) (by omega))

/-- **In the range of a node that is searched** nothing stands around a token: lines lead
    constructs at file scope and trail bodies, which begin elsewhere. -/
theorem mem_core [ContentHash] (h : Unbroken doc found types state strand branches)
    {range : TokenRange}
    {first last : TokenId} (hsearched : (doc.tree.kind? n).any Occurrence.isSearched = true)
    (hstands : Stands doc state.document strand n range first last) (hs : s ∈ doc.tokens.ids)
    (hx : x ∈ (strand s).ids)
    (hlow : state.document.tokens.place range.first ≤ state.document.tokens.place x)
    (hhigh : state.document.tokens.place x ≤ state.document.tokens.place range.last) :
    x ∈ (strand s).core ∧ doc.start n ≤ s.index ∧ s.index ≤ doc.stop n := by
  have h₀ := h.loaded
  obtain ⟨hplain, hnotfun, hnotblock⟩ := h₀.plain_of_searched hsearched
  obtain ⟨⟨hle, hge⟩, hlead, htrail⟩ := h.woven.laid.between_of_place h₀.unedited hstands.spans
    hstands.first_mem hstands.last_to.mem hs hx hlow hhigh
  rw [hstands.first_index] at hle hlead
  have hstop := Nat.le_trans hge hstands.last_to.le
  refine ⟨?_, hle, hstop⟩
  unfold Strand.ids at hx
  -- new text within the node would stand before a construct or behind a brace, and it has neither
  rcases List.mem_append.mp hx with hx | hx
  · refine (List.mem_append.mp hx).resolve_left fun hin => ?_
    obtain ⟨construct, hscope, hstarts⟩ := h.woven.led s hs (List.ne_nil_of_mem hin)
    obtain ⟨hbelow, hne⟩ := h₀.below_of_atScope hscope
    obtain ⟨-, -, hindex⟩ := h₀.starts hbelow hne hstarts
    have hfirst := h₀.scope_start hscope hplain (Nat.le_refl _) (Nat.le_refl _)
      (by omega) (by omega)
    have hlt := hlead hin
    omega
  · obtain ⟨function, body, hbody, hstarts⟩ := h.woven.trailed s hs (List.ne_nil_of_mem hx)
    have hbplain := h₀.plain_body hbody
    obtain ⟨-, -, hindex⟩ := h₀.starts hbplain.below hbplain.ne_root hstarts
    have haway := (h₀.body_outside hbody hplain hnotfun hnotblock).1
    omega

/-- **What the own tokens of a node stand for**: tokens of the node outside of its children. -/
theorem exists_own [ContentHash] (h : Unbroken doc found types state strand branches)
    (hnode : doc.HasNode branches n kind parts) (hsearched : Occurrence.isSearched kind = true)
    (hx : x ∈ state.document.ownTokens n) :
    ∃ s ∈ doc.tokens.ids, x ∈ (strand s).core
      ∧ (doc.start n ≤ s.index ∧ s.index ≤ doc.stop n)
      ∧ ∀ c ∈ doc.tree.children n, s.index < doc.start c ∨ doc.stop c < s.index := by
  have h₀ := h.loaded
  have hlaid := h.woven.laid
  have hany : (doc.tree.kind? n).any Occurrence.isSearched = true := by
    rw [hnode.kind?]
    exact hsearched
  obtain ⟨hplain, -⟩ := h₀.plain_of_searched hany
  have hkids := h.woven.children_eq h₀ hany
  have hsheltered := h₀.sheltered hplain.below hplain.ne_root
  -- the node and its children stand on ranges of the new file
  have hall : ∀ c ∈ n :: doc.tree.children n, ∃ range first last,
      Stands doc state.document strand c range first last := by
    intro c hc
    rcases List.mem_cons.mp hc with rfl | hc
    · exact h.stands hnode hplain
    · obtain ⟨_, _, -, hchild⟩ := hnode.part hc
      exact h.stands hchild (h₀.plain_child hplain hc)
  choose! range first last hstands using hall
  have hself := hstands n List.mem_cons_self
  have hchild := fun c (hc : c ∈ doc.tree.children n) => hstands c (List.mem_cons_of_mem _ hc)
  obtain ⟨⟨hin, hlow, hhigh⟩, hout, -⟩ := (Document.mem_ownTokens_iff hlaid.threaded hself.tokens?
    (fun c hc => have hc := hkids ▸ hc
      ⟨(hchild c hc).tokens?, hself.nested (hchild c hc) h₀ hlaid (hsheltered.nested c hc)⟩)
    (fun c hc => (hstands c (hkids ▸ hc)).ends h₀ hlaid)
    (by
      rw [hkids]
      exact hsheltered.apart.imp_of_mem fun ha hb hlt =>
        (hchild _ ha).apart (hchild _ hb) h₀ hlaid hlt)).mp hx
  obtain ⟨s, hs, hxs⟩ := Strand.mem_lay.mp hin
  obtain ⟨hcore, hle, hge⟩ := h.mem_core hany hself hs hxs hlow hhigh
  refine ⟨s, hs, hcore, ⟨hle, hge⟩, fun c hc => ?_⟩
  by_contra hwithin
  have hbetween := (hchild c hc).place_between h₀ hlaid hs (by omega) (by omega) hcore
  have haway := hout c (hkids ▸ hc)
  omega

end Unbroken

end Lowering

end KernelPrep
