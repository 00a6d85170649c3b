/-
  KernelPrep.Proofs.Texture.DefinedFirst — every type is defined before it is used.

  A type is defined before the construct of its earliest use, and every part that belongs to
  it stands in or around the construct of one of its uses.  No construct of a use begins
  before that of the earliest, so that nothing of a type stands before its definition.  The
  name of a type may be spelled there all the same, where a texel type or a kernel parameter
  of the file has that name: those words are repeated as they are.

  Main definitions:
    * `Weave.Grouped`          — types that are those of the uses found;
    * `Weave.usedParts`        — the parts that a use adds;
    * `Weave.DefinedBetween`   — what stands before a definition and behind it;
    * `Lowering.Finished`      — the state after lowering that went through;
    * `Lowering.DefinedFirst`  — every type is defined before it is used.

  Main statements:
    * `Weave.Grouped.start_le`      — nothing of a type stands before the construct of its
      earliest use;
    * `Lowering.run_definedFirst`   — lowering that goes through defines types first;
    * `Lowering.run_spelledBefore`  — a name that is spelled before its type is defined.
-/
import KernelPrep.Proofs.Texture.Parts

namespace KernelPrep

open NodeTree (Below root)

namespace Weave

variable {doc : Document} {found : List Occurrence} {types : List Declared} {type : Declared}
  {use : Occurrence} {id : TokenId}

/-! ## §1. Types and the uses found -/

/-- The types are those of the uses found in a loaded document. -/
structure Grouped [ContentHash] (doc : Document) (found : List Occurrence)
    (types : List Declared) : Prop where
  load : ∃ config source, Document.load config source = .ok doc
  found_eq : Occurrence.findAll doc = .ok found
  types_eq : types = declareAll doc (Occurrence.groupAll doc.tokens found)
  refs : types.map (·.refs) = Occurrence.groupAll doc.tokens found

namespace Grouped

theorem loaded [ContentHash] (h : Grouped doc found types) : Loaded doc := by
  obtain ⟨config, source, hload⟩ := h.load
  exact Document.load_loaded hload

theorem reads [ContentHash] (h : Grouped doc found types) :
    (doc.tokens.spells doc.tokens.ids).Reads [] := by
  obtain ⟨config, source, hload⟩ := h.load
  exact (TokenList.lex_reads (Document.load_ok hload).1).1

/-- The uses of a type are some of those found, and the earliest is the one on record. -/
theorem refs_sublist [ContentHash] (h : Grouped doc found types) (htype : type ∈ types) :
    type.refs.Sublist found ∧ Lowering.earliest? type.refs = some type.first := by
  refine ⟨?_, ?_⟩
  · have hgroup : type.refs ∈ Occurrence.groupAll doc.tokens found := by
      rw [← h.refs]
      exact List.mem_map_of_mem htype
    obtain ⟨key, hkey, -⟩ := Occurrence.mem_groupAll hgroup
    rw [hkey]
    exact List.filter_sublist
  · obtain ⟨i, hi⟩ := List.getElem?_of_mem htype
    rw [h.types_eq] at hi
    exact declare?_earliest (declareAll_get hi)

theorem found_of_mem [ContentHash] (h : Grouped doc found types) (htype : type ∈ types)
    (huse : use ∈ type.refs) : use ∈ found ∧ Occurrence.Found doc use := by
  have hmem := (h.refs_sublist htype).1.subset huse
  exact ⟨hmem, (Occurrence.findAll_ok h.found_eq).1 use hmem⟩

theorem plain [ContentHash] (h : Grouped doc found types) (htype : type ∈ types)
    (huse : use ∈ type.refs) : doc.Plain use.node :=
  (h.loaded.plain_of_searched (h.found_of_mem htype huse).2.searched).1

/-- The words of the types and uses are names. -/
theorem known [ContentHash] (h : Grouped doc found types) : Known doc types := by
  have h₀ := h.loaded
  have hdeclared : ∀ type ∈ types, ∃ before, declare? doc before type.refs = some type := by
    intro type htype
    obtain ⟨i, hi⟩ := List.getElem?_of_mem htype
    rw [h.types_eq] at hi
    exact ⟨_, declareAll_get hi⟩
  -- all words that lines are made of are words of the source or made from a counter
  have hworded : ∀ type ∈ types, ∀ use ∈ type.refs, Occurrence.Worded doc use := fun type htype
    use huse => Occurrence.findAll_worded h.found_eq (h.found_of_mem htype huse).1
  refine ⟨?_, ?_, ?_, ?_, ?_, ?_, ?_⟩
  · obtain ⟨config, source, hload⟩ := h.load
    rw [(Document.load_ok hload).2.2.2]
    exact TokenList.newline_formed h.reads
  · intro type htype
    obtain ⟨before, hbefore⟩ := hdeclared type htype
    exact ⟨_, (declare?_eq_some hbefore).2.2.2.2⟩
  · rw [h.types_eq]
    exact names_nodup doc _
  · intro type htype
    obtain ⟨before, hbefore⟩ := hdeclared type htype
    exact (declare?_eq_some hbefore).2.2.2.1
  · intro type htype x hx
    have hfirst := Lowering.mem_of_earliest? (h.refs_sublist htype).2
    exact h₀.isName h.reads ⟨x, (hworded type htype _ hfirst).texel x hx, rfl⟩
  · intro u hu function name definition hcontext
    obtain ⟨htype, huse⟩ := Lowering.mem_uses.mp hu
    exact h₀.isName h.reads ((hworded _ htype _ huse).function _ _ _ hcontext)
  · intro u hu param hparam
    obtain ⟨htype, huse⟩ := Lowering.mem_uses.mp hu
    exact h₀.isName h.reads ((hworded _ htype _ huse).param _ hparam)

/-- Where a use comes from a kernel definition, the construct that holds it is the kernel. -/
theorem kernel_container [ContentHash] (h : Grouped doc found types) (htype : type ∈ types)
    (huse : use ∈ type.refs) {function : NodeId} {name param : String}
    (hkernel : kernel? use = some (function, name, param)) :
    doc.tree.kind? function = some .functionDefn ∧ doc.Plain function
      ∧ doc.tree.container? use.node = some function := by
  have h₀ := h.loaded
  obtain ⟨-, hparent, hdef⟩ := (h.found_of_mem htype huse).2.own.definition function name
    (kernel?_eq_some hkernel).1
  have hplain := h₀.plain_of_kind? hdef (by simp) (by simp)
  refine ⟨hdef, hplain, h₀.container_eq (h.plain htype huse) (h₀.atScope_definition hdef) hplain ?_⟩
  exact Relation.ReflTransGen.single ((h₀.forest.parent_iff _ _).mp hparent)

/-- The token with which a node starts. -/
theorem index_eq_start [ContentHash] (h : Grouped doc found types) {node : NodeId}
    (hnode : doc.Plain node)
    (hstarts : startsAt doc (some node) id = true) : id.index = doc.start node := by
  obtain ⟨range, hrange, ⟨-, -, hindex⟩, -⟩ := h.loaded.range hnode.below hnode.ne_root
  rw [(startsAt_iff ⟨range, hrange, rfl⟩ id).mp hstarts, hindex]

/-- **Nothing of a type** stands before the construct of its earliest use. -/
theorem start_le [ContentHash] (h : Grouped doc found types) (htype : type ∈ types)
    {construct : NodeId}
    (hconstruct : doc.tree.container? type.first.node = some construct) {part : Part}
    (hpart : part ∈ partsAt doc types id) (hown : part.type? = some type) :
    doc.start construct ≤ id.index := by
  have h₀ := h.loaded
  obtain ⟨config, source, hload⟩ := h.load
  obtain ⟨hsub, hfirst⟩ := h.refs_sublist htype
  -- no use of the type stands in a construct before that of the earliest one
  have hle : ∀ {use d}, use ∈ type.refs → doc.tree.container? use.node = some d →
      doc.start construct ≤ doc.start d := fun huse hd =>
    Lowering.earliest_container_le hload h.found_eq hsub hfirst huse hconstruct hd
  rcases mem_partsAt.mp hpart with ⟨other, hother, rfl⟩ | hpart | hpart | hpart
  -- the line of the type itself, a variable, a use, and last a binding
  · obtain rfl := Option.some.inj hown
    have hplain := h₀.container (h.plain htype (Lowering.mem_of_earliest? hfirst)) hconstruct
    have hstarts := (List.mem_filter.mp hother).2
    rw [hconstruct] at hstarts
    exact Nat.le_of_eq (h.index_eq_start hplain.1 hstarts).symm
  · obtain ⟨-, u, hu, function, name, param, hkernel, hstarts, rfl⟩ := mem_kernelParts.mp hpart
    obtain rfl := Option.some.inj hown
    have huse := (Lowering.mem_uses.mp hu).2
    obtain ⟨-, hplain, hholds⟩ := h.kernel_container htype huse hkernel
    rw [h.index_eq_start hplain hstarts]
    exact hle huse hholds
  · rcases mem_coreParts.mp hpart with ⟨u, hfind, rfl⟩ | ⟨rfl, -⟩
    · obtain rfl := Option.some.inj hown
      have huse := (Lowering.mem_uses.mp (List.mem_of_find?_eq_some hfind)).2
      obtain ⟨d, hd⟩ := h₀.exists_container (h.plain htype huse)
      have hkeyword : u.2.keyword = id := by simpa using List.find?_some hfind
      have hlow := (h₀.mem_ownTokens (h.plain htype huse)
        (h.found_of_mem htype huse).2.keyword_mem).2.1
      have haround := (h₀.container_around (h.plain htype huse) hd).1
      have hbefore := hle huse hd
      rw [← hkeyword]
      omega
    · simp [Part.type?] at hown
  · obtain ⟨-, u, hu, function, name, param, hkernel, hstarts, rfl⟩ := mem_kernelParts.mp hpart
    obtain rfl := Option.some.inj hown
    have huse := (Lowering.mem_uses.mp hu).2
    obtain ⟨hdef, hplain, hholds⟩ := h.kernel_container htype huse hkernel
    obtain ⟨body, hbody⟩ := h₀.exists_body hdef
    rw [hbody.body] at hstarts
    rw [h.index_eq_start (h₀.plain_body hbody) hstarts]
    exact Nat.le_trans (hle huse hholds)
      (h₀.placed.nested _ _ hplain.below (Loaded.mem_of_functionBody? hbody.body).1).1

/-! ## §2. The parts of a use -/

end Grouped

/-- The parts that a use adds to the lowered file. -/
def usedParts (doc : Document) (type : Declared) (use : Occurrence) : List Part :=
  .form type use :: if doc.config.platform.bindsGlobals then
    match kernel? use with
    | some (function, name, param) =>
      [.global type function name param, .binding type function name param]
    | none => []
  else []

namespace Grouped

/-- A use is found again by its keyword. -/
theorem find?_keyword [ContentHash] (h : Grouped doc found types) {u : Declared × Occurrence}
    (hu : u ∈ uses types) : (uses types).find? (·.2.keyword == u.2.keyword) = some u := by
  have hperm := (Lowering.uses_perm h.refs).map (·.keyword)
  have hnodup := hperm.nodup_iff.mpr (h.loaded.keywords_nodup h.found_eq)
  rw [List.map_map] at hnodup
  cases hfind : (uses types).find? (·.2.keyword == u.2.keyword) with
  | none => exact absurd (beq_self_eq_true _) (List.find?_eq_none.mp hfind u hu)
  | some v =>
    have hkeyword : v.2.keyword = u.2.keyword := by simpa using List.find?_some hfind
    rw [List.inj_on_of_nodup_map hnodup (List.mem_of_find?_eq_some hfind) hu hkeyword]

theorem exists_start [ContentHash] (h : Grouped doc found types) {node : NodeId}
    (hnode : doc.Plain node) :
    ∃ id ∈ doc.tokens.ids, startsAt doc (some node) id = true := by
  obtain ⟨range, hrange, ⟨hmem, -, -⟩, -⟩ := h.loaded.range hnode.below hnode.ne_root
  exact ⟨range.first, hmem, (startsAt_iff ⟨range, hrange, rfl⟩ _).mpr rfl⟩

/-- **The parts of every use** are in the lowered file, and belong to its type. -/
theorem mem_parts [ContentHash] (h : Grouped doc found types) (htype : type ∈ types)
    (huse : use ∈ type.refs)
    {part : Part} (hpart : part ∈ usedParts doc type use) :
    part ∈ parts doc types ∧ part.type? = some type ∧ part ≠ .definition type := by
  have h₀ := h.loaded
  have hu : (type, use) ∈ uses types := Lowering.mem_uses.mpr ⟨htype, huse⟩
  unfold parts
  simp only [List.mem_flatMap, mem_partsAt]
  -- a use has its name in place of the keyword, and two lines if it is bound
  rcases List.mem_cons.mp hpart with rfl | hpart
  · refine ⟨⟨use.keyword, ?_, ?_⟩, rfl, by simp⟩
    · exact (h₀.mem_ownTokens (h.plain htype huse)
        (h.found_of_mem htype huse).2.keyword_mem).1
    · exact Or.inr (Or.inr (Or.inl (mem_coreParts.mpr (Or.inl ⟨_, h.find?_keyword hu, rfl⟩))))
  · split at hpart
    · rename_i hon
      split at hpart
      · rename_i function name param hkernel
        obtain ⟨hdef, hplain, -⟩ := h.kernel_container htype huse hkernel
        simp only [List.mem_cons, List.not_mem_nil, or_false] at hpart
        rcases hpart with rfl | rfl
        · obtain ⟨id, hid, hstarts⟩ := h.exists_start hplain
          exact ⟨⟨id, hid, Or.inr (Or.inl (mem_kernelParts.mpr ⟨hon, _, hu, _, _, _, hkernel,
            hstarts, rfl⟩))⟩, rfl, by simp⟩
        · obtain ⟨body, hbody⟩ := h₀.exists_body hdef
          obtain ⟨id, hid, hstarts⟩ := h.exists_start (h₀.plain_body hbody)
          exact ⟨⟨id, hid, Or.inr (Or.inr (Or.inr (mem_kernelParts.mpr ⟨hon, _, hu, _, _, _,
            hkernel, by rw [hbody.body]; exact hstarts, rfl⟩)))⟩, rfl, by simp⟩
      · simp at hpart
    · simp at hpart

/-- Definitions stand only where the types say. -/
theorem definition_mem_partsAt :
    Part.definition type ∈ partsAt doc types id ↔ type ∈ typesAt doc types id := by
  rw [mem_partsAt]
  constructor
  · rintro (⟨other, hother, he⟩ | hpart | hpart | hpart)
    · rwa [Part.definition.inj he]
    · simp [mem_kernelParts] at hpart
    · simp [mem_coreParts] at hpart
    · simp [mem_kernelParts] at hpart
  · intro htype
    exact Or.inl ⟨type, htype, rfl⟩

/-- **The definition of a type** splits the parts: nothing before it belongs to the type, and
    it is not repeated. -/
theorem split_parts [ContentHash] (h : Grouped doc found types) (htype : type ∈ types) :
    ∃ front behind, parts doc types = front ++ .definition type :: behind
      ∧ (∀ part ∈ front, part.type? ≠ some type) ∧ Part.definition type ∉ behind := by
  have h₀ := h.loaded
  have hfirst := Lowering.mem_of_earliest? (h.refs_sublist htype).2
  obtain ⟨construct, hconstruct⟩ := h₀.exists_container (h.plain htype hfirst)
  obtain ⟨hplain, -⟩ := h₀.container (h.plain htype hfirst) hconstruct
  obtain ⟨start, hstart, hstarts⟩ := h.exists_start hplain
  have hindex := h.index_eq_start hplain hstarts
  obtain ⟨a, b, hids⟩ := List.append_of_mem hstart
  have hpair := h₀.unedited.pairwise_index
  rw [hids] at hpair
  obtain ⟨-, hbehind, hbefore⟩ := List.pairwise_append.mp hpair
  -- of the types defined here, the given one is met once
  have hat : type ∈ typesAt doc types start :=
    List.mem_filter.mpr ⟨htype, by rw [hconstruct]; exact hstarts⟩
  have hnodup : (typesAt doc types start).Nodup := (List.Nodup.of_map _ h.known.distinct).filter _
  obtain ⟨others, later, hsplit⟩ := List.append_of_mem hat
  rw [hsplit, List.nodup_middle, List.nodup_cons, List.mem_append, not_or] at hnodup
  refine ⟨a.flatMap (partsAt doc types) ++ others.map .definition,
    later.map .definition ++ kernelParts doc some .global (uses types) start
      ++ coreParts doc types start ++ trailParts doc types start
      ++ b.flatMap (partsAt doc types), ?_, ?_, ?_⟩
  · unfold parts
    rw [hids, List.flatMap_append, List.flatMap_cons]
    unfold partsAt leadParts
    rw [hsplit]
    simp
  · intro part hpart hown
    rcases List.mem_append.mp hpart with hpart | hpart
    · obtain ⟨x, hx, hpart⟩ := List.mem_flatMap.mp hpart
      have hle := h.start_le htype hconstruct hpart hown
      have hlt := hbefore x hx start List.mem_cons_self
      omega
    · obtain ⟨other, hother, rfl⟩ := List.mem_map.mp hpart
      exact hnodup.1.1 (Option.some.inj hown ▸ hother)
  · intro hin
    rcases List.mem_append.mp hin with hin | hin
    · -- the other parts here are no definitions
      have hlater : type ∈ later := by
        simpa [trailParts, mem_kernelParts, mem_coreParts] using hin
      exact hnodup.1.2 hlater
    · obtain ⟨x, hx, hin⟩ := List.mem_flatMap.mp hin
      have hother := (List.mem_filter.mp (definition_mem_partsAt.mp hin)).2
      rw [hconstruct] at hother
      have heq := h.index_eq_start hplain hother
      have hlt := (List.pairwise_cons.mp hbehind).1 x hx
      omega

end Grouped

/-! ## §3. The lowered file -/

/-- What stands before the definition of a type and behind it: before, nothing belongs to the
    type and a new token that spells its name repeats a word of the file; behind are the parts
    of all its uses. -/
structure DefinedBetween (doc doc' : Document) (type : Declared)
    (front behind : List (Part × List TokenId)) : Prop where
  unused : ∀ piece ∈ front, piece.1.type? ≠ some type
  spelled : ∀ piece ∈ front, ∀ x ∈ piece.2, x ∉ doc.tokens.ids →
    doc'.tokens.textOf x = type.name → type.name ∈ piece.1.quoted doc
  used : ∀ use ∈ type.refs, ∀ part ∈ usedParts doc type use, part ∈ behind.map (·.1)
  once : Part.definition type ∉ behind.map (·.1)

end Weave

namespace Lowering

open Weave (Part IsPiece DefinedBetween)

/-- The state is what lowering a loaded document has left: the uses found are grouped, and all
    of them are done. -/
structure Finished [ContentHash] (doc : Document) (found : List Occurrence)
    (types : List Weave.Declared)
    (state : Lowering) : Prop where
  run : run doc = (.ok (), state)
  grouped : Weave.Grouped doc found types
  stage : Stage doc (fun _ => []) [] types (Weave.uses types) state

/-- **Lowering that goes through** finishes its work. -/
theorem run_finished [ContentHash] {config : Config} {source : String} {doc : Document}
    {state : Lowering}
    (hload : Document.load config source = .ok doc) (hrun : run doc = (.ok (), state)) :
    ∃ found types, Finished doc found types state := by
  have h₀ := Document.load_loaded hload
  have hstart : Fabric doc doc (Weave.weft doc (fun _ => []) [] []) [] [] :=
    (Fabric.start h₀).congr (Weave.weft_start doc _) rfl
  obtain ⟨groups, hgroups, hrefs, hstage⟩ := run_text h₀ hstart rfl hrun
  obtain ⟨found, hfound, rfl⟩ := Occurrence.discover_ok hgroups
  exact ⟨found, _, hrun, ⟨⟨config, source, hload⟩, hfound, rfl, hrefs⟩, hstage⟩

/-- The lowered file is made of parts, and each type is defined before it is used. -/
def DefinedFirst (doc : Document) (state : Lowering) : Prop :=
  ∃ pieces : List (Part × List TokenId), state.document.tokens.ids = pieces.flatMap (·.2)
    ∧ (∀ piece ∈ pieces, IsPiece doc state.document piece.1 piece.2)
    ∧ ∀ type ∈ state.types, ∃ declared front line behind,
      (declared.signature = type.signature ∧ declared.name = type.name
        ∧ declared.refs = type.refs)
      ∧ pieces = front ++ (.definition declared, line) :: behind
      ∧ DefinedBetween doc state.document declared front behind

/-- **Lowering that goes through** defines every type before it is used. -/
theorem run_definedFirst [ContentHash] {config : Config} {source : String} {doc : Document}
    {state : Lowering}
    (hload : Document.load config source = .ok doc) (hrun : run doc = (.ok (), state)) :
    DefinedFirst doc state := by
  obtain ⟨found, types, -, hgrouped, hstage⟩ := run_finished hload hrun
  obtain ⟨strand, hwoven, -⟩ := hstage.fabric
  obtain ⟨pieces, hparts, hids, hpieces⟩ := Weave.exists_pieces hwoven hgrouped.loaded
  refine ⟨pieces, hids, hpieces, fun type htype => ?_⟩
  obtain ⟨i, hi⟩ := List.getElem?_of_mem htype
  obtain ⟨declared, hdeclared, hsignature, hname, hown, -⟩ := hstage.declared_of_get hi
  have hmem := List.mem_of_getElem? hdeclared
  -- the pieces are split where the parts are
  obtain ⟨frontParts, behindParts, hsplit, hunused, honce⟩ := hgrouped.split_parts hmem
  rw [hsplit] at hparts
  obtain ⟨front, rest, rfl, rfl, hrest⟩ := List.map_eq_append_iff.mp hparts
  obtain ⟨⟨_, line⟩, behind, rfl, rfl, rfl⟩ := List.map_eq_cons_iff.mp hrest
  have hfront : ∀ piece ∈ front, piece.1.type? ≠ some declared := fun piece hpiece =>
    hunused piece.1 (List.mem_map_of_mem hpiece)
  refine ⟨declared, front, line, behind, ⟨hsignature, hname, hown⟩, rfl, hfront, ?_, ?_, honce⟩
  · intro piece hpiece x hx hnew htext
    have hin : piece ∈ front ++ (Part.definition declared, line) :: behind :=
      List.mem_append_left _ hpiece
    have hx' : x ∈ state.document.tokens.ids := by
      rw [hids]
      exact List.mem_flatMap.mpr ⟨piece, hin, hx⟩
    rw [hwoven.laid.threaded.ids_eq] at hx'
    obtain ⟨token, htoken, -⟩ := hwoven.laid.threaded.get?_of_mem hx'
    have hentry : (token.kind, token.text) ∈ piece.1.spelling doc := by
      rw [← (hpieces piece hin).spells]
      exact List.mem_filterMap.mpr ⟨x, hx, by rw [htoken]; rfl⟩
    have hnotown : ∀ y, piece.1 ≠ .own y := by
      intro y he
      obtain ⟨hone, hy⟩ := (hpieces piece hin).own y he
      rw [hone, List.mem_singleton] at hx
      exact hnew (hx ▸ hy)
    have hpart : piece.1 ∈ Weave.parts doc types := by
      rw [hsplit]
      exact List.mem_append_left _ (List.mem_map_of_mem hpiece)
    obtain ⟨y, -, hpart⟩ := List.mem_flatMap.mp hpart
    rw [TokenList.textOf_of_get? htoken] at htext
    exact (hgrouped.known.type_of_spelled hmem hpart hnotown hentry htext).resolve_left
      (hfront piece hpiece)
  · intro use huse part hpart
    obtain ⟨hin, htype, hne⟩ := hgrouped.mem_parts hmem huse hpart
    rw [hsplit] at hin
    rcases List.mem_append.mp hin with hin | hin
    · exact absurd htype (hunused part hin)
    · exact (List.mem_cons.mp hin).resolve_left hne

/-- A linkage block and a kernel on one line. -/
theorem run_definedFirst_oneLine :
    ∃ doc state, Document.load {}
        "extern \"C\" \x7b Surface2D a; \x7d kernel void k(Surface2D s) \x7b \x7d" = .ok doc
      ∧ run doc = (.ok (), state)
      ∧ state.types.map (fun type => (type.name, type.refs.length))
        = [("__SurfaceTypeName_0__", 2)]
      ∧ DefinedFirst doc state := by
  obtain ⟨doc, state, hload, hrun, htypes⟩ := run_of_eval {}
    "extern \"C\" \x7b Surface2D a; \x7d kernel void k(Surface2D s) \x7b \x7d"
    (fun _ state => state.types.map fun type => (type.name, type.refs.length))
    [("__SurfaceTypeName_0__", 2)] (by decide +kernel)
  exact ⟨doc, state, hload, hrun, htypes, run_definedFirst hload hrun⟩

/-- **A name spelled before its type is defined**: that of a kernel parameter, which is repeated
    in the macro that stands for the parameter. -/
theorem run_spelledBefore :
    ∃ doc state, Document.load {}
        "kernel void k(Surface2D __SurfaceTypeName_1__);\nSurface1D x;" = .ok doc
      ∧ run doc = (.ok (), state)
      ∧ ∃ type ∈ state.types, ∃ range,
        state.document.tree.tokens? type.declaration = some range
          ∧ ∃ x ∈ state.document.tokens.ids.takeWhile (· != range.first),
            x ∉ doc.tokens.ids ∧ state.document.tokens.textOf x = type.name := by
  obtain ⟨doc, state, hload, hrun, hany⟩ := run_of_eval {}
    "kernel void k(Surface2D __SurfaceTypeName_1__);\nSurface1D x;"
    (fun doc state => state.types.any fun type =>
      (state.document.tree.tokens? type.declaration).any fun range =>
        (state.document.tokens.ids.takeWhile (· != range.first)).any fun x =>
          !doc.tokens.ids.contains x && state.document.tokens.textOf x == type.name)
    true (by decide +kernel)
  obtain ⟨type, htype, hrange⟩ := List.any_eq_true.mp hany
  cases hsome : state.document.tree.tokens? type.declaration with
  | none => simp [hsome] at hrange
  | some range =>
    rw [hsome, Option.any_some] at hrange
    obtain ⟨x, hx, hspelled⟩ := List.any_eq_true.mp hrange
    refine ⟨doc, state, hload, hrun, type, htype, range, hsome, x, hx, ?_⟩
    simpa using hspelled

end Lowering

end KernelPrep
