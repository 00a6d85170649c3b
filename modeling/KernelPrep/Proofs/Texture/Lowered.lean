/-
  KernelPrep.Proofs.Texture.Lowered — lowering textures, step by step.

  Lowering works on the document in place: types are declared in the order of their groups,
  then all uses are rewritten in source order, and kernels get their variables and bindings
  on the way.  After each step the document is the loaded one with the tokens of the types
  declared and of the uses done so far woven in.  No step fails but one: the tokens of a use
  that begins inside of a use done before are gone when its turn comes.

  Main definitions:
    * `Lowering.Stage` — the state after some types and some uses.

  Main statements:
    * `Lowering.Stage.declareTypes` — all types;
    * `Lowering.Stage.lowerOne`     — one use;
    * `Lowering.lowerAll_cases`     — all of them.
-/
import KernelPrep.Proofs.Texture.Census
import KernelPrep.Proofs.Texture.Tally

namespace KernelPrep

open NodeTree (Below Forest root)
open Weave (Declared)

/-! ## §1. Reading the document under work -/

namespace Fabric

variable {doc₀ doc : Document} {weft : TokenId → Weft} {bindings : List (NodeId × NodeId)}
  {labels : List Spelling} {id : TokenId}

/-- Lowering does not change the configuration. -/
theorem config (h : Fabric doc₀ doc weft bindings labels) : doc.config = doc₀.config := by
  obtain ⟨strand, hwoven, -⟩ := h
  exact hwoven.config

/-- The tree has only grown. -/
theorem grown (h : Fabric doc₀ doc weft bindings labels) : doc₀.tree.Overgrown doc.tree := by
  obtain ⟨strand, hwoven, -⟩ := h
  exact hwoven.grown

/-- What is woven in may be said in another way. -/
theorem congr {weft' : TokenId → Weft} {labels' : List Spelling}
    (h : Fabric doc₀ doc weft bindings labels) (hweft : ∀ id, weft' id = weft id)
    (hlabels : labels' = labels) : Fabric doc₀ doc weft' bindings labels' := by
  obtain rfl : weft' = weft := funext hweft
  rw [hlabels]
  exact h

/-- The words of tokens that stand for themselves. -/
theorem textOf_eq (h : Fabric doc₀ doc weft bindings labels) (hid : id ∈ doc₀.tokens.ids)
    (hself : (weft id).core? = none) : doc.tokens.textOf id = doc₀.tokens.textOf id := by
  obtain ⟨strand, hwoven, -⟩ := h
  exact TokenList.textOf_congr (hwoven.laid.face id hid ((hwoven.reads id hid).self hself))

/-- A node still starts with its first token while that stands for itself. -/
theorem starts (h : Fabric doc₀ doc weft bindings labels) {node : NodeId}
    (hnode : doc₀.Plain node) (hstarts : doc₀.Starts node id) (hself : (weft id).core? = none) :
    doc.Starts node id := by
  obtain ⟨strand, hwoven, -⟩ := h
  obtain ⟨range₀, hrange₀, rfl⟩ := hstarts
  obtain ⟨range, hrange, hsame, -⟩ := hwoven.ends node range₀ hnode hrange₀
  exact ⟨range, hrange, hsame hself⟩

end Fabric

namespace Woven

variable {doc₀ doc : Document} {strand : TokenId → Strand} {weft : TokenId → Weft}
  {bindings : List (NodeId × NodeId)} {function body : NodeId}

/-- The token before one that nothing leads. -/
theorem prev?_eq (h : Woven doc₀ doc strand weft) {a b : List TokenId} {u x : TokenId}
    (hfile : doc₀.tokens.ids = (a ++ [u]) ++ x :: b) (hx : (weft x).core? = none)
    (hu : (weft u).core? = none) (hlead : (strand x).lead = []) :
    doc.tokens.prev? x = (strand u).trail.getLast?.or (some u) := by
  have hxmem : x ∈ doc₀.tokens.ids := by simp [hfile]
  have humem : u ∈ doc₀.tokens.ids := by simp [hfile]
  have hcore := (h.reads x hxmem).self hx
  have hcore' := (h.reads u humem).self hu
  rw [h.laid.threaded.prev?_eq (Laid.lay_split hfile hcore), hlead, List.append_nil,
    Strand.lay_append, Strand.lay_cons]
  unfold Strand.ids
  rw [hcore']
  simp [Strand.lay, List.getLast?_append, List.getLast?_cons]

/-- Runs lead constructs at file scope only, and so no statement of a body. -/
theorem lead_in_body (h : Woven doc₀ doc strand weft) (h₀ : Loaded doc₀)
    (hbody : doc₀.IsBody function body) {child : NodeId} (hmem : child ∈ doc₀.tree.children body)
    {x : TokenId} (hx : doc₀.Starts child x) : (strand x).lead = [] := by
  have hplain := h₀.plain_body hbody
  have hchild := h₀.plain_in_body hbody hmem
  have hblock := (Loaded.mem_of_functionBody? hbody.body).2
  have hsh := h₀.sheltered hplain.below hplain.ne_root
  have hbefore : doc₀.start body < doc₀.start child := hsh.lead (by rw [hblock]; simp) child hmem
  have hbehind : doc₀.stop child < doc₀.stop body := hsh.trail hblock child hmem
  have horder := h₀.start_le_stop hchild.below hchild.ne_root
  obtain ⟨hxmem, -, hxindex⟩ := h₀.starts hchild.below hchild.ne_root hx
  by_contra hne
  obtain ⟨construct, hscope, hstarts⟩ := h.led x hxmem hne
  obtain ⟨hcb, hcne⟩ := h₀.below_of_atScope hscope
  obtain ⟨-, -, hindex⟩ := h₀.starts hcb hcne hstarts
  have hsame : doc₀.start construct = doc₀.start child := hindex.symm.trans hxindex
  -- a construct at file scope that begins inside of the body begins where the body does
  have hstart := h₀.scope_start hscope hplain (Nat.le_refl _) (Nat.le_refl _) (by omega) (by omega)
  omega

/-- The braces that bindings follow are no blanks. -/
theorem kind?_of_trailed (h : Woven doc₀ doc strand weft) (h₀ : Loaded doc₀) {u : TokenId}
    (hu : u ∈ doc₀.tokens.ids) (hne : (strand u).trail ≠ []) :
    doc₀.tokens.kind? u ≠ some .whitespace := by
  obtain ⟨function, body, hbody, hstarts⟩ := h.trailed u hu hne
  have hplain := h₀.plain_body hbody
  obtain ⟨-, hsig, -⟩ := h₀.starts hplain.below hplain.ne_root hstarts
  intro hspace
  unfold TokenList.isSignificant at hsig
  simp [hspace, TokenKind.isTrivia] at hsig

/-- **The indentation of a body** is read off as it was in the loaded document, as long as no
    token from the start of the body on was cut. -/
theorem bodyIndent_eq (h : Woven doc₀ doc strand weft) (hb : Bound doc₀ doc strand bindings)
    (h₀ : Loaded doc₀) (hbody : doc₀.IsBody function body)
    (hself : ∀ x ∈ doc₀.tokens.ids, doc₀.start body ≤ x.index → (weft x).core? = none) :
    Lowering.bodyIndent doc body = Lowering.bodyIndent doc₀ body := by
  have hplain := h₀.plain_body hbody
  have hany : ∀ tree : NodeTree, tree.WellFormed →
      (tree.children body).filter (fun child => tree.kind? child != some .userTokens)
        = (tree.children body).filter fun child => (tree.kind? child).any (· != .userTokens) := by
    intro tree htree
    refine List.filter_congr fun child hchild => ?_
    obtain ⟨n, hn⟩ := htree.live_child hchild
    unfold NodeTree.kind?
    rw [hn]
    simp [bne]
  have hkids := h.grown.filter_children (h₀.index_lt hplain.below) (· != .userTokens) rfl
  unfold Lowering.bodyIndent
  rw [hany doc.tree h.grown.forest, hany doc₀.tree h₀.forest, hkids]
  cases hfirst : (doc₀.tree.children body).filter fun child =>
      (doc₀.tree.kind? child).any (· != .userTokens) with
  | nil => rfl
  | cons child more =>
    have hmem : child ∈ doc₀.tree.children body :=
      List.mem_of_mem_filter (hfirst ▸ List.mem_cons_self)
    have hchild := h₀.plain_in_body hbody hmem
    have hblock := (Loaded.mem_of_functionBody? hbody.body).2
    have hlead := (h₀.sheltered hplain.below hplain.ne_root).lead (by rw [hblock]; simp) child hmem
    obtain ⟨r₀, hr₀, ⟨hxmem, -, hxindex⟩, -⟩ := h₀.range hchild.below hchild.ne_root
    obtain ⟨r, hr, hrfirst, -⟩ := h.ends child r₀ hchild hr₀
    have hx := hself r₀.first hxmem (by rw [hxindex]; exact Nat.le_of_lt hlead)
    rw [List.findSome?_cons, List.findSome?_cons, hr, hr₀]
    dsimp only [Option.bind_some]
    rw [hrfirst hx]
    -- the token before the first statement
    obtain ⟨a, u, b, hfile, hlow, hhigh⟩ := h₀.before_in_body hbody hxmem
      (by rw [hxindex]; exact hlead)
    have humem : u ∈ doc₀.tokens.ids := by simp [hfile]
    have hu := hself u humem hlow
    have hnolead := h.lead_in_body h₀ hbody hmem ⟨r₀, hr₀, rfl⟩
    rw [h.prev?_eq hfile hx hu hnolead, h₀.threaded.prev?_eq hfile, List.getLast?_concat]
    cases hlast : (strand u).trail.getLast? with
    | none =>
      have hface := h.laid.face u humem ((h.reads u humem).self hu)
      dsimp only [Option.none_or]
      rw [TokenList.kind?_congr hface, TokenList.textOf_congr hface]
    | some last =>
      -- bindings stand there, behind the brace: neither is a blank
      have hne : (strand u).trail ≠ [] := by
        intro hnil
        simp [hnil] at hlast
      dsimp only [Option.some_or]
      rw [if_neg (hb.closed u humem last hlast), if_neg (h.kind?_of_trailed h₀ humem hne)]

end Woven

namespace Lowering

/-! ## §2. Stages -/

/-- An edit that goes through changes the document only. -/
theorem edit_of_ok {α : Type} {e : Edit α} {a : α} {state : Lowering} {doc : Document}
    (h : e state.document = .ok a doc) : edit e state = .ok a { state with document := doc } := by
  unfold edit
  rw [h]

/-- An edit that fails fails the step. -/
theorem edit_of_error {α : Type} {e : Edit α} {error : PassError} {state : Lowering}
    {doc : Document} (h : e state.document = .error error doc) :
    edit e state = .error error { state with document := doc } := by
  unfold edit
  rw [h]

/-- Asking for what is there goes through. -/
theorem need_of_some {α : Type} {what : String} {a? : Option α} {a : α} (h : a? = some a)
    (state : Lowering) : need what a? state = .ok a state := by
  rw [h]
  rfl

/-- The document is the loaded one with the tokens of `types` and `done` woven in, and the
    types recorded are those, in the order of their declarations. -/
structure Stage (doc₀ : Document) (head : TokenId → Spelling) (pre : List Spelling)
    (types : List Declared) (done : List (Declared × Occurrence)) (state : Lowering) :
    Prop where
  fabric : Fabric doc₀ state.document (Weave.weft doc₀ head types done) state.bindings
    (Weave.labels doc₀ pre types done)
  titles : state.types.map (fun type => (type.signature, type.name, type.refs))
    = types.map fun type => (type.signature, type.name, type.refs)
  texels : state.types.map (·.texel) = types.map (·.texel)
  declarations : state.types.map (·.declaration)
    = (List.range types.length).map fun i => ⟨doc₀.tree.nodes.size + pre.length + i⟩

/-- Adding a variable changes nothing about the types but their variables. -/
theorem map_addGlobal {β : Type} {f : TextureType → β}
    (hf : ∀ type globals, f { type with globals } = f type) (index : Nat) (var : GlobalVar)
    (types : List TextureType) : (addGlobal index var types).map f = types.map f := by
  refine List.ext_getElem? fun i => ?_
  unfold addGlobal
  rw [List.getElem?_map, List.getElem?_map, List.getElem?_modify]
  cases types[i]? with
  | none => rfl
  | some type =>
    by_cases hi : index = i
    · simp [hi, hf]
    · simp [hi]

/-! ## §3. Types -/

/-- The earliest use is one of the uses. -/
theorem mem_of_earliest? {refs : List Occurrence} {first : Occurrence}
    (h : earliest? refs = some first) : first ∈ refs := by
  induction refs generalizing first with
  | nil => simp [earliest?] at h
  | cons found rest ih =>
    unfold earliest? at h
    split at h
    · obtain rfl := Option.some.inj h
      exact List.mem_cons_self
    · rename_i other hother
      obtain rfl := Option.some.inj h
      split
      · exact List.mem_cons_of_mem _ (ih hother)
      · exact List.mem_cons_self

/-- Where there are uses there is an earliest one. -/
theorem exists_earliest {refs : List Occurrence} (h : refs ≠ []) :
    ∃ first, earliest? refs = some first := by
  cases refs with
  | nil => exact absurd rfl h
  | cons found rest =>
    unfold earliest?
    split
    · exact ⟨_, rfl⟩
    · exact ⟨_, rfl⟩

namespace Stage

variable {doc₀ : Document} {head : TokenId → Spelling} {pre : List Spelling}
  {types : List Declared} {done : List (Declared × Occurrence)} {state : Lowering}

/-- What is read off the titles of the types recorded is read off those of the types declared. -/
theorem map_title {α : Type} (h : Stage doc₀ head pre types done state)
    (f : Signature × String × List Occurrence → α) :
    state.types.map (fun type => f (type.signature, type.name, type.refs))
      = types.map fun type => f (type.signature, type.name, type.refs) := by
  have htitles := congrArg (List.map f) h.titles
  rwa [List.map_map, List.map_map] at htitles

/-- The next type of a kind is numbered by how many there are. -/
theorem typeName_eq (h : Stage doc₀ head pre types done state) (kind : TextureKind) :
    typeName state.types kind
      = "__" ++ kind.stem ++ "TypeName_" ++ toString (types.countP (·.signature.kind == kind))
        ++ "__" := by
  have hcount : state.types.countP (·.signature.kind == kind)
      = types.countP (·.signature.kind == kind) := by
    have htitles := congrArg (List.countP (·.1.kind == kind)) h.titles
    rw [List.countP_map, List.countP_map] at htitles
    exact htitles
  unfold typeName
  rw [hcount]

/-- **Declaring a type** adds its line before the construct that holds its earliest use. -/
theorem declareType {refs : List Occurrence} (h : Stage doc₀ head pre types [] state)
    (h₀ : Loaded doc₀) (hne : refs ≠ []) (hrefs : ∀ o ∈ refs, Occurrence.Found doc₀ o) :
    ∃ type state', Weave.declare? doc₀ types refs = some type ∧ type.refs = refs
      ∧ Lowering.declareType refs state = .ok () state'
      ∧ Stage doc₀ head pre (types ++ [type]) [] state' := by
  have hbare : ∀ x, (Weave.weft doc₀ head types [] x).core? = none := fun _ => rfl
  obtain ⟨first, hfirst⟩ := exists_earliest hne
  have hfound := hrefs first (mem_of_earliest? hfirst)
  have hplain := (h₀.plain_of_searched hfound.searched).1
  obtain ⟨signature, hsignature⟩ := hfound.signature
  obtain ⟨construct, hcontainer⟩ := h₀.exists_container hplain
  obtain ⟨hconstruct, hscope⟩ := h₀.container hplain hcontainer
  obtain ⟨range₀, hrange₀, -, -⟩ := h₀.range hconstruct.below hconstruct.ne_root
  have hstarts : doc₀.Starts construct range₀.first := ⟨range₀, hrange₀, rfl⟩
  -- the words of the earliest use are those of the loaded document
  have htext : ∀ x ∈ doc₀.ownTokens first.node,
      state.document.tokens.textOf x = doc₀.tokens.textOf x := fun x hx =>
    h.fabric.textOf_eq (h₀.mem_ownTokens hplain hx).1 (hbare x)
  have htexel : first.texel.map state.document.tokens.textOf
      = first.texel.map doc₀.tokens.textOf :=
    List.map_congr_left fun x hx => htext x (hfound.texel_mem hx)
  have hlive : ∃ n, doc₀.tree.get? first.node = some n :=
    h₀.forest.live_of_attached (h₀.forest.attached_iff.mpr hplain.below)
  let type : Declared := {
    signature
    texel := " ".intercalate (first.texel.map doc₀.tokens.textOf)
    name := "__" ++ signature.kind.stem ++ "TypeName_"
      ++ toString (types.countP (·.signature.kind == signature.kind)) ++ "__"
    first
    refs }
  obtain ⟨run, doc₁, hrun, hfabric₁, hready⟩ := h.fabric.newRun h₀ first.line
    (typePieces doc₀.config.vocabulary signature type.texel type.name)
    (by simp [typePieces, Piece.spell])
  obtain ⟨doc₂, hinsert, hfabric₂⟩ := hfabric₁.insertBefore h₀ hscope hstarts
    (hfabric₁.starts hconstruct hstarts (hbare _)) (hbare _) hready
  refine ⟨type, { state with document := doc₂, types := state.types ++ [{
      signature, texel := type.texel, name := type.name, refs,
      declaration := ⟨doc₀.tree.nodes.size + (Weave.labels doc₀ pre types []).length⟩ }] },
    ?_, rfl, ?_, ?_, ?_, ?_, ?_⟩
  · unfold Weave.declare?
    rw [hfirst, Option.bind_eq_bind, Option.bind_some, hsignature]
    rfl
  · unfold Lowering.declareType
    rw [Step.bind_of_ok (need_of_some hfirst state), Step.bind_get]
    dsimp only
    rw [htext _ hfound.keyword_mem, htexel, h.fabric.config,
      h.fabric.grown.container?_eq h₀.forest hlive, hcontainer,
      Step.bind_of_ok (need_of_some hsignature state)]
    dsimp only
    rw [Step.bind_get, h.typeName_eq,
      Step.bind_of_ok (edit_of_ok (Edit.newRun_of_addRun hrun)),
      Step.bind_of_ok (edit_of_ok hinsert)]
    rfl
  · refine hfabric₂.congr (Weave.weft_type hcontainer hstarts) ?_
    unfold Weave.labels
    simp
    rfl
  · show (state.types ++ [_]).map _ = _
    rw [List.map_append, List.map_append, h.titles]
    rfl
  · show (state.types ++ [_]).map _ = _
    rw [List.map_append, List.map_append, h.texels]
    rfl
  · show (state.types ++ [_]).map _ = _
    rw [List.map_append, h.declarations, List.length_append, List.length_singleton,
      List.range_succ, List.map_append]
    simp [Weave.labels, Nat.add_assoc]

/-- **Declaring all types**, in the order of their groups. -/
theorem declareTypes {groups : List (List Occurrence)} (h : Stage doc₀ head pre [] [] state)
    (h₀ : Loaded doc₀)
    (hgroups : ∀ refs ∈ groups, refs ≠ [] ∧ ∀ o ∈ refs, Occurrence.Found doc₀ o) :
    ∃ state', groups.forM Lowering.declareType state = .ok () state'
      ∧ (Weave.declareAll doc₀ groups).map (·.refs) = groups
      ∧ Stage doc₀ head pre (Weave.declareAll doc₀ groups) [] state' := by
  refine Step.forM_exists (P := fun done s => (Weave.declareAll doc₀ done).map (·.refs) = done
    ∧ Stage doc₀ head pre (Weave.declareAll doc₀ done) [] s) ?_ ⟨rfl, h⟩
  rintro done refs rest s hsplit ⟨hrefs, hstage⟩
  obtain ⟨hne, hfound⟩ := hgroups refs (by simp [hsplit])
  obtain ⟨type, s', htype, hown, hstep, hnext⟩ := hstage.declareType h₀ hne hfound
  have hall : Weave.declareAll doc₀ (done ++ [refs]) = Weave.declareAll doc₀ done ++ [type] := by
    rw [Weave.declareAll_concat, htype]
    rfl
  refine ⟨s', hstep, ?_, hall ▸ hnext⟩
  rw [hall, List.map_append, hrefs, List.map_singleton, hown]

end Stage

/-! ## §4. Kernels -/

section Kernel

variable {doc₀ : Document} {state : Lowering} {weft : TokenId → Weft} {labels : List Spelling}
  {function body : NodeId}

/-- **The variable of a kernel parameter** is declared before the kernel. -/
theorem declareGlobal_ok (type : TextureType) {first : TokenId}
    (h : Fabric doc₀ state.document weft state.bindings labels) (h₀ : Loaded doc₀)
    (hdef : doc₀.tree.kind? function = some .functionDefn)
    (hstarts : doc₀.Starts function first) (hself : (weft first).core? = none)
    (global : String) (line : Nat) (spelling : Spelling)
    (hspelling : spelling = Weave.spelled doc₀
      [.call (doc₀.config.vocabulary.globalWord type.signature.kind) [type.name, global],
        .punct .semicolon, .eol]) :
    ∃ doc, declareGlobal type function global line state = .ok () { state with document := doc }
      ∧ Fabric doc₀ doc (Function.update weft first
          { weft first with lead := (weft first).lead ++ spelling }) state.bindings
          (labels ++ [spelling]) := by
  have hplain := h₀.plain_of_kind? hdef (by simp) (by simp)
  have hscope := h₀.atScope_definition hdef
  have hlive : ∃ n, doc₀.tree.get? function = some n :=
    h₀.forest.live_of_attached (h₀.forest.attached_iff.mpr hplain.below)
  obtain ⟨run, doc₁, hrun, hfabric₁, hready⟩ := h.newRun h₀ line
    ([.call (doc₀.config.vocabulary.globalWord type.signature.kind)
      [type.name, global], .punct .semicolon, .eol]) (by simp [Piece.spell])
  obtain ⟨doc₂, hinsert, hfabric₂⟩ := hfabric₁.insertBefore h₀ hscope hstarts
    (hfabric₁.starts hplain hstarts hself) hself hready
  refine ⟨doc₂, ?_, hspelling ▸ hfabric₂⟩
  -- a definition is at file scope, and its own container
  have hcontainer : state.document.tree.container? function = some function := by
    rw [h.grown.container?_eq h₀.forest hlive, Loaded.container_self hscope]
  unfold declareGlobal
  rw [Step.bind_get]
  dsimp only
  rw [Step.bind_of_ok (need_of_some hcontainer state), h.config,
    Step.bind_of_ok (edit_of_ok (Edit.newRun_of_addRun hrun)),
    Step.bind_of_ok (edit_of_ok hinsert)]
  rfl

/-- **The binding of a kernel parameter** is put at the top of the body, behind those before. -/
theorem bindLocal_ok (type : TextureType) (state : Lowering) {brace : TokenId}
    (h : Fabric doc₀ state.document weft state.bindings labels) (h₀ : Loaded doc₀)
    (hbody : doc₀.IsBody function body) (hstarts : doc₀.Starts body brace)
    (hself : ∀ x ∈ doc₀.tokens.ids, doc₀.start body ≤ x.index → (weft x).core? = none)
    (param global : String) (line : Nat) (spelling : Spelling)
    (hspelling : spelling = Weave.spelled doc₀
      [.eol, .indent (bodyIndent doc₀ body),
        .call (doc₀.config.vocabulary.bindWord type.signature.kind) [type.name, param, global],
        .punct .semicolon]) :
    ∃ node doc, bindLocal type function param global line state
        = .ok () { state with document := doc, bindings := (function, node) :: state.bindings }
      ∧ Fabric doc₀ doc (Function.update weft brace
          { weft brace with trail := (weft brace).trail ++ spelling })
          ((function, node) :: state.bindings) (labels ++ [spelling]) := by
  have hfun := h₀.plain_of_kind? hbody.definition (by simp) (by simp)
  have hplain := h₀.plain_body hbody
  have hbody? : Outline.functionBody? state.document.tree function = some body := by
    rw [← hbody.body]
    exact h.grown.childOfKind?_eq (h₀.index_lt hfun.below) (by simp)
  have hindent : bodyIndent state.document body = bodyIndent doc₀ body := by
    obtain ⟨strand, hwoven, hbound, -⟩ := h
    exact hwoven.bodyIndent_eq hbound h₀ hbody hself
  obtain ⟨hbrace, -, hindex⟩ := h₀.starts hplain.below hplain.ne_root hstarts
  -- the run is made first, and only then is there a place to put it
  obtain ⟨run, doc₁, hrun, hfabric₁, hready⟩ := h.newRun h₀ line
    ([.eol, .indent (bodyIndent doc₀ body),
      .call (doc₀.config.vocabulary.bindWord type.signature.kind) [type.name, param, global],
      .punct .semicolon]) (by simp [Piece.spell])
  have hend : ∀ range₀, doc₀.tree.tokens? body = some range₀ →
      (weft range₀.last).core? = none := by
    intro range₀ hrange₀
    obtain ⟨r, hr, -, hlast, hlastindex⟩ := h₀.range hplain.below hplain.ne_root
    rw [hrange₀] at hr
    obtain rfl := Option.some.inj hr
    refine hself _ hlast ?_
    rw [hlastindex]
    exact h₀.start_le_stop hplain.below hplain.ne_root
  obtain ⟨node, doc₂, hput, hfabric₂⟩ := hfabric₁.bind h₀ hbody hstarts
    (hself brace hbrace (Nat.le_of_eq hindex.symm)) hend hready (by
      intro entry hentry
      have hlast : (Piece.punct .semicolon).spell doc₁.newline
          = [(.semicolon, TokenKind.semicolon.spelling?.getD "")] := rfl
      simp only [List.flatMap_cons, List.flatMap_nil, List.append_nil, List.getLast?_append,
        hlast, List.getLast?_singleton, Option.some_or] at hentry
      rw [← Option.some.inj hentry]
      simp)
  refine ⟨node, doc₂, ?_, hspelling ▸ hfabric₂⟩
  unfold bindLocal
  rw [Step.bind_get]
  dsimp only
  rw [Step.bind_of_ok (need_of_some hbody? state), h.config, hindent,
    Step.bind_of_ok (edit_of_ok (Edit.newRun_of_addRun hrun)), Step.bind_get]
  dsimp only
  cases hlookup : state.bindings.lookup function with
  | none =>
    rw [hlookup] at hput
    exact Step.bind_of_ok (edit_of_ok hput)
  | some last =>
    rw [hlookup] at hput
    exact Step.bind_of_ok (edit_of_ok hput)

end Kernel

/-! ## §5. One use -/

section Use

variable {doc₀ : Document} {head : TokenId → Spelling} {pre : List Spelling}
  {types : List Declared} {done : List (Declared × Occurrence)} {type : Declared}
  {use : Occurrence} {state : Lowering}

/-- In source order, no use done before has taken a token of a use whose keyword still
    stands. -/
theorem cut_uncut (h₀ : Loaded doc₀) (hdone : ∀ u ∈ done, Occurrence.Found doc₀ u.2)
    (hfound : Occurrence.Found doc₀ use)
    (hsorted : ∀ u ∈ done, u.2.keyword.index ≤ use.keyword.index)
    (hself : Weave.core? doc₀ done use.keyword = none) {x : TokenId}
    (hx : x ∈ doc₀.tokens.range (Weave.cut use)) : Weave.core? doc₀ done x = none := by
  have hlow := ((Weave.mem_cut_iff h₀ hfound x).mp hx).1
  rw [Weave.core?_none h₀ hdone]
  intro u hu hin
  -- a use that reaches this token has taken the keyword as well
  exact (Weave.core?_none h₀ hdone use.keyword).mp hself u hu
    ⟨hsorted u hu, Nat.le_trans hlow hin.2⟩

/-- No construct at file scope begins with a token of a use behind its keyword. -/
theorem scope_uncut (h₀ : Loaded doc₀) (hfound : Occurrence.Found doc₀ use) {construct : NodeId}
    (hscope : doc₀.AtScope construct) {x : TokenId} (hstarts : doc₀.Starts construct x)
    (hlow : use.keyword.index < x.index) : ¬ x.index ≤ (Weave.cut use).last.index := by
  intro hhigh
  obtain ⟨⟨-, hkey⟩, -, hlast⟩ := Weave.cut_between h₀ hfound
  obtain ⟨hplain, -⟩ := h₀.plain_of_searched hfound.searched
  obtain ⟨hb, hne⟩ := h₀.below_of_atScope hscope
  obtain ⟨-, -, hindex⟩ := h₀.starts hb hne hstarts
  have hstart := h₀.scope_start hscope hplain hkey hlast (hindex ▸ Nat.le_of_lt hlow)
    (hindex ▸ hhigh)
  omega

/-- No body of a function begins with a token of a use. -/
theorem start_uncut (h₀ : Loaded doc₀) (hfound : Occurrence.Found doc₀ use)
    {function body : NodeId} (hbody : doc₀.IsBody function body) {x : TokenId}
    (hstarts : doc₀.Starts body x) :
    ¬ (use.keyword.index ≤ x.index ∧ x.index ≤ (Weave.cut use).last.index) := by
  rintro ⟨hlow, hhigh⟩
  obtain ⟨⟨-, hkey⟩, -, hlast⟩ := Weave.cut_between h₀ hfound
  obtain ⟨hplain, hnotfun, hnotblock⟩ := h₀.plain_of_searched hfound.searched
  have hbplain := h₀.plain_body hbody
  obtain ⟨-, -, hindex⟩ := h₀.starts hbplain.below hbplain.ne_root hstarts
  rcases (h₀.body_outside hbody hplain hnotfun hnotblock).1 with hlt | hlt
  · omega
  · omega

/-- **The tokens of a use** give way to a run, if its keyword still stands. -/
theorem replace_ok {doc : Document} {run : TokenRange} {pieces : List Piece}
    {bindings : List (NodeId × NodeId)} {labels : List Spelling}
    (h : Fabric doc₀ doc (Weave.weft doc₀ head types done) bindings labels) (h₀ : Loaded doc₀)
    (hdone : ∀ u ∈ done, Occurrence.Found doc₀ u.2) (hfound : Occurrence.Found doc₀ use)
    (hsorted : ∀ u ∈ done, u.2.keyword.index ≤ use.keyword.index)
    (hself : Weave.core? doc₀ done use.keyword = none) (hready : Ready doc run pieces) :
    ∃ rest doc', doc₀.tokens.range (Weave.cut use) = use.keyword :: rest
      ∧ (∀ x ∈ use.keyword :: rest, Weave.core? doc₀ done x = none)
      ∧ Edit.replaceTokens (Weave.cut use) (some run) doc = .ok () doc'
      ∧ Fabric doc₀ doc' (Weft.recut (Weave.weft doc₀ head types done) use.keyword rest
          (Weave.spelled doc₀ pieces)) bindings labels := by
  have hlast := (Weave.cut_between h₀ hfound).2.1
  have hle : (Weave.cut use).first.index ≤ (Weave.cut use).last.index := by
    rw [Weave.cut_first]
    exact Weave.cut_forward h₀ hfound
  obtain ⟨a, b, hfile, hends, -⟩ := h₀.unedited.range_eq hlast hle
  obtain ⟨rest, hrange⟩ : ∃ rest, doc₀.tokens.range (Weave.cut use) = use.keyword :: rest := by
    have hhead := hends.1
    rw [Weave.cut_first] at hhead
    exact ⟨_, (List.head?_eq_some_iff.mp hhead).choose_spec⟩
  have hbetween : ∀ x ∈ use.keyword :: rest,
      use.keyword.index ≤ x.index ∧ x.index ≤ (Weave.cut use).last.index := by
    intro x hx
    rw [← hrange] at hx
    exact (Weave.mem_cut_iff h₀ hfound x).mp hx
  -- as long as its keyword stands, none of its tokens was taken by a use before
  have huncut : ∀ x ∈ use.keyword :: rest, Weave.core? doc₀ done x = none := by
    intro x hx
    exact cut_uncut h₀ hdone hfound hsorted hself (hrange ▸ hx)
  rw [hrange] at hfile hends
  have hpair := h₀.unedited.pairwise_index
  rw [hfile] at hpair
  obtain ⟨-, hstretch, -⟩ := List.pairwise_append.mp (List.pairwise_append.mp hpair).1
  have hbehind := (List.pairwise_cons.mp hstretch).1
  obtain ⟨doc', hreplace, hfabric⟩ := h.replace h₀ hfile hends huncut (by
    intro x hx construct hscope hstarts
    exact scope_uncut h₀ hfound hscope hstarts (hbehind x hx)
      (hbetween x (List.mem_cons_of_mem _ hx)).2) (by
    intro x hx function body hbody hstarts
    exact start_uncut h₀ hfound hbody hstarts (hbetween x hx)) hready
  exact ⟨rest, doc', hrange, huncut, hreplace, hfabric⟩

/-- The first token of a function stands for itself, whatever was rewritten. -/
theorem function_uncut (h₀ : Loaded doc₀) (hdone : ∀ u ∈ done, Occurrence.Found doc₀ u.2)
    {function : NodeId} (hdef : doc₀.tree.kind? function = some .functionDefn) {first : TokenId}
    (hstarts : doc₀.Starts function first) : Weave.core? doc₀ done first = none := by
  have hplain := h₀.plain_of_kind? hdef (by simp) (by simp)
  obtain ⟨-, -, hindex⟩ := h₀.starts hplain.below hplain.ne_root hstarts
  rw [Weave.core?_none h₀ hdone]
  rintro u hu ⟨hlow, hhigh⟩
  obtain ⟨⟨-, hkey⟩, -, hlast⟩ := Weave.cut_between h₀ (hdone u hu)
  obtain ⟨hnode, hnotfun, -⟩ := h₀.plain_of_searched (hdone u hu).searched
  rw [hindex] at hlow hhigh
  rcases h₀.function_outside hdef hnode hnotfun with hlt | hlt
  · exact absurd hlt (Nat.not_lt_of_le (Nat.le_trans hkey hlow))
  · exact absurd hlt (Nat.not_lt_of_le (Nat.le_trans hhigh hlast))

/-- The tokens from the start of a body on stand for themselves while the parameters are being
    rewritten. -/
theorem body_uncut (h₀ : Loaded doc₀) (hdone : ∀ u ∈ done, Occurrence.Found doc₀ u.2)
    {function body : NodeId} (hbody : doc₀.IsBody function body)
    (hparams : ∀ u ∈ done, u.2.keyword.index < doc₀.start body) {x : TokenId}
    (hx : doc₀.start body ≤ x.index) : Weave.core? doc₀ done x = none := by
  rw [Weave.core?_none h₀ hdone]
  rintro u hu ⟨-, hhigh⟩
  obtain ⟨⟨-, hkey⟩, -, hlast⟩ := Weave.cut_between h₀ (hdone u hu)
  obtain ⟨hnode, hnotfun, hnotblock⟩ := h₀.plain_of_searched (hdone u hu).searched
  have hbefore := hparams u hu
  rcases (h₀.body_outside hbody hnode hnotfun hnotblock).1 with hlt | hlt
  · exact absurd hlt (Nat.not_lt_of_le (Nat.le_of_lt (Nat.lt_of_le_of_lt hkey hbefore)))
  · have hle := Nat.le_trans hx (Nat.le_trans hhigh hlast)
    exact absurd hlt (Nat.not_lt_of_le hle)

/-- A parameter of a kernel stands before the body. -/
theorem param_before_body (h₀ : Loaded doc₀) (hfound : Occurrence.Found doc₀ use)
    {function body : NodeId} {name : String}
    (hcontext : use.context = .kernelParam function name true)
    (hbody : doc₀.IsBody function body) : use.keyword.index < doc₀.start body := by
  obtain ⟨hparams, hparent, -⟩ := hfound.own.definition function name hcontext
  have hplain := (h₀.plain_of_searched hfound.searched).1
  exact Nat.lt_of_le_of_lt (h₀.mem_ownTokens hplain hfound.keyword_mem).2.2
    (h₀.params_before_body hbody hparent (by simpa using hparams))

/-- What a token stands for once the tokens of one use more gave way. -/
theorem core?_recut {rest : List TokenId} {spelling : Spelling}
    (hcut : doc₀.tokens.range (Weave.cut use) = use.keyword :: rest)
    (hself : ∀ x ∈ use.keyword :: rest, Weave.core? doc₀ done x = none)
    (hspelling : spelling = Weave.replacement doc₀ type use) (x : TokenId) :
    (Weft.recut (Weave.weft doc₀ head types done) use.keyword rest spelling x).core?
      = Weave.core? doc₀ (done ++ [(type, use)]) x := by
  rw [Weave.core?_use hcut hself, hspelling]
  unfold Weft.recut
  split
  · rfl
  · split
    · rfl
    · rfl

/-- A use outside of kernel definitions puts in no node. -/
theorem labels_idle (hnone : Weave.kernel? use = none) :
    Weave.labels doc₀ pre types (done ++ [(type, use)]) = Weave.labels doc₀ pre types done := by
  simp [Weave.labels, Weave.useLines, hnone]

/-- A parameter of a kernel adds the line of a global and that of its binding. -/
theorem labels_kernel {function : NodeId} {name param : String}
    (hkernel : Weave.kernel? use = some (function, name, param)) :
    Weave.labels doc₀ pre types (done ++ [(type, use)])
      = Weave.labels doc₀ pre types done ++ if doc₀.config.platform.bindsGlobals then
          [Weave.globalLine doc₀ type function name param,
            Weave.bindLine doc₀ type function name param] else [] := by
  unfold Weave.labels
  rw [List.flatMap_append, ← List.append_assoc]
  simp [Weave.useLines, hkernel]

/-- In source order the uses up to that of a parameter stand before the body of its kernel. -/
theorem uses_before_body (h₀ : Loaded doc₀) (hfound : Occurrence.Found doc₀ use)
    (hsorted : ∀ u ∈ done, u.2.keyword.index ≤ use.keyword.index) {function body : NodeId}
    {name : String} (hcontext : use.context = .kernelParam function name true)
    (hbody : doc₀.IsBody function body) :
    ∀ u ∈ done ++ [(type, use)], u.2.keyword.index < doc₀.start body := by
  have huse := param_before_body h₀ hfound hcontext hbody
  intro u hu
  rcases List.mem_append.mp hu with hu | hu
  · exact Nat.lt_of_le_of_lt (hsorted u hu) huse
  · rw [List.mem_singleton.mp hu]
    exact huse

/-- **The two lines of a kernel parameter**, where globals are bound: that of the global before
    the kernel, then that of its binding at the top of the body. -/
theorem kernelLines_ok (state : Lowering) {function : NodeId} {name param : String}
    {rest : List TokenId} {recorded : TextureType}
    (hsignature : recorded.signature = type.signature) (hname : recorded.name = type.name)
    (h₀ : Loaded doc₀)
    (hdone : ∀ u ∈ done, Occurrence.Found doc₀ u.2) (hfound : Occurrence.Found doc₀ use)
    (hsorted : ∀ u ∈ done, u.2.keyword.index ≤ use.keyword.index)
    (hcontext : use.context = .kernelParam function name true)
    (hkernel : Weave.kernel? use = some (function, name, param))
    (hcut : doc₀.tokens.range (Weave.cut use) = use.keyword :: rest)
    (hself : ∀ x ∈ use.keyword :: rest, Weave.core? doc₀ done x = none)
    (hon : doc₀.config.platform.bindsGlobals = true)
    (h : Fabric doc₀ state.document (Weft.recut (Weave.weft doc₀ head types done) use.keyword rest
      (Weave.replacement doc₀ type use)) state.bindings (Weave.labels doc₀ pre types done))
    (line : Nat) :
    ∃ doc₁ node doc₂,
      declareGlobal recorded function (globalName recorded.signature.kind name param) line state
        = .ok () { state with document := doc₁ }
      ∧ bindLocal recorded function param (globalName recorded.signature.kind name param) line
          { state with document := doc₁ }
        = .ok () { state with document := doc₂, bindings := (function, node) :: state.bindings }
      ∧ Fabric doc₀ doc₂ (Weave.weft doc₀ head types (done ++ [(type, use)]))
          ((function, node) :: state.bindings)
          (Weave.labels doc₀ pre types (done ++ [(type, use)])) := by
  have hall : ∀ u ∈ done ++ [(type, use)], Occurrence.Found doc₀ u.2 :=
    List.forall_mem_append.mpr ⟨hdone, by simpa using hfound⟩
  obtain ⟨-, -, hdef⟩ := hfound.own.definition function name hcontext
  have hfun := h₀.plain_of_kind? hdef (by simp) (by simp)
  obtain ⟨body, hbody⟩ := h₀.exists_body hdef
  have hbplain := h₀.plain_body hbody
  obtain ⟨frange, hfrange, -, -⟩ := h₀.range hfun.below hfun.ne_root
  obtain ⟨brange, hbrange, -, -⟩ := h₀.range hbplain.below hbplain.ne_root
  have hfirst : doc₀.Starts function frange.first := ⟨frange, hfrange, rfl⟩
  have hopen : doc₀.Starts body brange.first := ⟨brange, hbrange, rfl⟩
  have hbefore : ∀ u ∈ done ++ [(type, use)], u.2.keyword.index < doc₀.start body :=
    uses_before_body h₀ hfound hsorted hcontext hbody
  -- the tokens that the lines are put next to still stand for themselves
  have hhead : (Weft.recut (Weave.weft doc₀ head types done) use.keyword rest
      (Weave.replacement doc₀ type use) frange.first).core? = none :=
    (core?_recut hcut hself rfl _).trans (function_uncut h₀ hall hdef hfirst)
  have hinside : ∀ x, doc₀.start body ≤ x.index →
      (Weft.recut (Weave.weft doc₀ head types done) use.keyword rest
        (Weave.replacement doc₀ type use) x).core? = none :=
    fun x hx => (core?_recut hcut hself rfl x).trans (body_uncut h₀ hall hbody hbefore hx)
  obtain ⟨doc₁, hglobal, hfabric₁⟩ := declareGlobal_ok recorded h h₀ hdef hfirst hhead
    (globalName recorded.signature.kind name param) line
    (Weave.globalLine doc₀ type function name param) (by rw [hsignature, hname]; rfl)
  obtain ⟨node, doc₂, hbind, hfabric₂⟩ := bindLocal_ok recorded
    { state with document := doc₁ } hfabric₁ h₀ hbody hopen (by
      intro x _ hx
      by_cases hxf : x = frange.first
      · rw [hxf, Function.update_self]
        exact hhead
      · rw [Function.update_of_ne hxf]
        exact hinside x hx)
    param (globalName recorded.signature.kind name param) line
    (Weave.bindLine doc₀ type function name param) (by
      unfold Weave.bindLine
      rw [hbody.body, hsignature, hname]
      rfl)
  refine ⟨doc₁, node, doc₂, hglobal, hbind, hfabric₂.congr (Weave.weft_use_kernel hcut hself hon
    hkernel hfirst hbody.body hopen rfl rfl) ?_⟩
  rw [labels_kernel hkernel, if_pos hon]
  simp

/-- **The lines of a kernel parameter**, after its tokens gave way. -/
theorem bindParam_ok (state : Lowering) {function : NodeId} {name : String}
    {param : Occurrence.Param} {rest : List TokenId} {recorded : TextureType}
    (hsignature : recorded.signature = type.signature) (hname : recorded.name = type.name)
    (h₀ : Loaded doc₀) (hdone : ∀ u ∈ done, Occurrence.Found doc₀ u.2)
    (hfound : Occurrence.Found doc₀ use)
    (hsorted : ∀ u ∈ done, u.2.keyword.index ≤ use.keyword.index)
    (hcontext : use.context = .kernelParam function name true) (hparam : use.param? = some param)
    (hcut : doc₀.tokens.range (Weave.cut use) = use.keyword :: rest)
    (hself : ∀ x ∈ use.keyword :: rest, Weave.core? doc₀ done x = none)
    (h : Fabric doc₀ state.document (Weft.recut (Weave.weft doc₀ head types done) use.keyword rest
      (Weave.replacement doc₀ type use)) state.bindings (Weave.labels doc₀ pre types done))
    (htitles : state.types.map (fun type => (type.signature, type.name, type.refs))
      = types.map fun type => (type.signature, type.name, type.refs))
    (htexels : state.types.map (·.texel) = types.map (·.texel))
    (hdeclarations : state.types.map (·.declaration)
      = (List.range types.length).map fun i => ⟨doc₀.tree.nodes.size + pre.length + i⟩)
    (index line : Nat) :
    ∃ state', bindParam index recorded function name param.text line state = .ok () state'
      ∧ Stage doc₀ head pre types (done ++ [(type, use)]) state' := by
  have hkernel : Weave.kernel? use = some (function, name, param.text) := by
    unfold Weave.kernel?
    rw [hcontext, hparam]
  unfold bindParam
  rw [Step.bind_get]
  dsimp only
  rw [h.config]
  by_cases hon : doc₀.config.platform.bindsGlobals = true
  · obtain ⟨doc₁, node, doc₂, hglobal, hbind, hfabric⟩ := kernelLines_ok state hsignature hname h₀
      hdone hfound hsorted hcontext hkernel hcut hself hon h line
    rw [if_pos hon, Step.bind_of_ok hglobal, Step.bind_of_ok hbind]
    refine ⟨_, rfl, hfabric, ?_, ?_, ?_⟩
    · exact (map_addGlobal (fun _ _ => rfl) _ _ _).trans htitles
    · exact (map_addGlobal (fun _ _ => rfl) _ _ _).trans htexels
    · exact (map_addGlobal (fun _ _ => rfl) _ _ _).trans hdeclarations
  · -- elsewhere the parameter is bound as it is, with no line
    have hoff : doc₀.config.platform.bindsGlobals = false := by simpa using hon
    rw [if_neg hon]
    refine ⟨_, rfl, ?_, htitles, htexels, hdeclarations⟩
    refine h.congr (Weave.weft_use hcut hself (Or.inl hoff)) ?_
    rw [labels_kernel hkernel, if_neg hon, List.append_nil]

/-- Whatever the pieces, they are put in place of the tokens of a use if and only if its keyword
    still stands. -/
theorem Stage.put (h : Stage doc₀ head pre types done state) (h₀ : Loaded doc₀)
    (hdone : ∀ u ∈ done, Occurrence.Found doc₀ u.2) (hfound : Occurrence.Found doc₀ use)
    (hsorted : ∀ u ∈ done, u.2.keyword.index ≤ use.keyword.index) {pieces : List Piece}
    (hne : pieces.flatMap (·.spell state.document.newline) ≠ []) :
    ∃ run doc₁, Edit.newRun use.line pieces state.document = .ok run doc₁
      ∧ (Weave.core? doc₀ done use.keyword = none → ∃ rest doc₂,
        doc₀.tokens.range (Weave.cut use) = use.keyword :: rest
          ∧ (∀ x ∈ use.keyword :: rest, Weave.core? doc₀ done x = none)
          ∧ Edit.replaceTokens (Weave.cut use) (some run) doc₁ = .ok () doc₂
          ∧ Fabric doc₀ doc₂ (Weft.recut (Weave.weft doc₀ head types done) use.keyword rest
              (Weave.spelled doc₀ pieces)) state.bindings (Weave.labels doc₀ pre types done))
      ∧ (Weave.core? doc₀ done use.keyword ≠ none →
        Edit.replaceTokens (Weave.cut use) (some run) doc₁
          = .error (.ofSplice (.missing use.keyword)) doc₁) := by
  obtain ⟨run, doc₁, hrun, hfabric, hready⟩ := h.fabric.newRun h₀ use.line pieces hne
  refine ⟨run, doc₁, Edit.newRun_of_addRun hrun, ?_, ?_⟩
  · intro hself
    exact replace_ok hfabric h₀ hdone hfound hsorted hself hready
  · intro hgone
    have hfirst := Weave.cut_first use
    rw [← hfirst] at hgone ⊢
    refine hfabric.replace_missing h₀ ?_ hgone (some run)
    rw [hfirst]
    exact (Weave.cut_between h₀ hfound).1.1

/-- Outside of kernels, the name of the type takes the place of the use. -/
theorem Stage.lowerNamed (h : Stage doc₀ head pre types done state) (h₀ : Loaded doc₀)
    (hdone : ∀ u ∈ done, Occurrence.Found doc₀ u.2) (hfound : Occurrence.Found doc₀ use)
    (hsorted : ∀ u ∈ done, u.2.keyword.index ≤ use.keyword.index)
    (hcut : Weave.cut use = ⟨use.keyword, use.stop⟩)
    (hspelled : Weave.replacement doc₀ type use = Weave.spelled doc₀ [.symbol type.name])
    (hnone : Weave.kernel? use = none) :
    (Weave.core? doc₀ done use.keyword = none → ∃ state',
        (do
          let run ← edit (Edit.newRun use.line [.symbol type.name])
          edit (Edit.replaceTokens ⟨use.keyword, use.stop⟩ (some run))) state = .ok () state'
          ∧ Stage doc₀ head pre types (done ++ [(type, use)]) state')
      ∧ (Weave.core? doc₀ done use.keyword ≠ none → ∃ state',
        (do
          let run ← edit (Edit.newRun use.line [.symbol type.name])
          edit (Edit.replaceTokens ⟨use.keyword, use.stop⟩ (some run))) state
            = .error (.ofSplice (.missing use.keyword)) state') := by
  obtain ⟨run, doc₁, hrun, hok, herror⟩ :=
    h.put h₀ hdone hfound hsorted
      (show [Piece.symbol type.name].flatMap (·.spell state.document.newline) ≠ [] by
        simp [Piece.spell])
  rw [← hspelled, hcut] at hok
  rw [hcut] at herror
  rw [Step.bind_of_ok (edit_of_ok hrun)]
  refine ⟨?_, fun hgone => ⟨_, edit_of_error (herror hgone)⟩⟩
  intro hself
  obtain ⟨rest, doc₂, hrange, huncut, hreplace, hfabric⟩ := hok hself
  refine ⟨_, edit_of_ok hreplace, ?_, h.titles, h.texels, h.declarations⟩
  exact hfabric.congr (Weave.weft_use (hcut ▸ hrange) huncut (Or.inr hnone)) (labels_idle hnone)

/-- A parameter of a kernel becomes what the platform reads from, and one of a kernel that is
    defined is bound. -/
theorem Stage.lowerParam (h : Stage doc₀ head pre types done state) (h₀ : Loaded doc₀)
    (hdone : ∀ u ∈ done, Occurrence.Found doc₀ u.2) (hfound : Occurrence.Found doc₀ use)
    (hsorted : ∀ u ∈ done, u.2.keyword.index ≤ use.keyword.index) {recorded : TextureType}
    (hsignature : recorded.signature = type.signature) (hname : recorded.name = type.name)
    {function : NodeId} {name : String} {definition : Bool} {param : Occurrence.Param}
    (hcontext : use.context = .kernelParam function name definition)
    (hparam : use.param? = some param) (index : Nat) :
    (Weave.core? doc₀ done use.keyword = none → ∃ state',
        (do
          let run ← edit (Edit.newRun use.line [.call (doc₀.config.vocabulary.paramWord
            recorded.signature.kind recorded.signature.mode)
            [toString recorded.signature.dims.toNat, param.text]])
          edit (Edit.replaceTokens ⟨use.keyword, param.last⟩ (some run))
          if definition then bindParam index recorded function name param.text use.line) state
          = .ok () state' ∧ Stage doc₀ head pre types (done ++ [(type, use)]) state')
      ∧ (Weave.core? doc₀ done use.keyword ≠ none → ∃ state',
        (do
          let run ← edit (Edit.newRun use.line [.call (doc₀.config.vocabulary.paramWord
            recorded.signature.kind recorded.signature.mode)
            [toString recorded.signature.dims.toNat, param.text]])
          edit (Edit.replaceTokens ⟨use.keyword, param.last⟩ (some run))
          if definition then bindParam index recorded function name param.text use.line) state
          = .error (.ofSplice (.missing use.keyword)) state') := by
  have hcut : Weave.cut use = ⟨use.keyword, param.last⟩ := by
    unfold Weave.cut
    rw [hcontext, hparam]
  have hspelled : Weave.spelled doc₀ [.call (doc₀.config.vocabulary.paramWord
      recorded.signature.kind recorded.signature.mode)
      [toString recorded.signature.dims.toNat, param.text]]
        = Weave.replacement doc₀ type use := by
    unfold Weave.replacement
    rw [hcontext, hparam, hsignature]
  obtain ⟨run, doc₁, hrun, hok, herror⟩ := h.put h₀ hdone hfound hsorted
    (show [Piece.call (doc₀.config.vocabulary.paramWord recorded.signature.kind
      recorded.signature.mode) [toString recorded.signature.dims.toNat, param.text]].flatMap
        (·.spell state.document.newline) ≠ [] by simp [Piece.spell])
  rw [hspelled, hcut] at hok
  rw [hcut] at herror
  rw [Step.bind_of_ok (edit_of_ok hrun)]
  refine ⟨?_, fun hgone => ⟨_, Step.bind_of_error (edit_of_error (herror hgone))⟩⟩
  intro hself
  obtain ⟨rest, doc₂, hrange, huncut, hreplace, hfabric⟩ := hok hself
  rw [Step.bind_of_ok (edit_of_ok hreplace)]
  cases definition with
  | true =>
    rw [if_pos rfl]
    exact bindParam_ok { state with document := doc₂ } hsignature hname h₀ hdone hfound hsorted
      hcontext hparam (hcut ▸ hrange) huncut hfabric h.titles h.texels h.declarations index
      use.line
  | false =>
    -- nothing is bound where the kernel is only declared
    have hnone : Weave.kernel? use = none := by
      unfold Weave.kernel?
      rw [hcontext]
    refine ⟨_, rfl, ?_, h.titles, h.texels, h.declarations⟩
    exact hfabric.congr (Weave.weft_use (hcut ▸ hrange) huncut (Or.inr hnone))
      (labels_idle hnone)

/-- **One use** goes through and takes its platform form, as long as its keyword still stands;
    a keyword that an earlier use has taken stops the work. -/
theorem Stage.lowerOne (h : Stage doc₀ head pre types done state) (h₀ : Loaded doc₀)
    {index : Nat} (htype : types[index]? = some type)
    (hdone : ∀ u ∈ done, Occurrence.Found doc₀ u.2) (hfound : Occurrence.Found doc₀ use)
    (hsorted : ∀ u ∈ done, u.2.keyword.index ≤ use.keyword.index) :
    (Weave.core? doc₀ done use.keyword = none → ∃ state',
        Lowering.lowerOne index use state = .ok () state'
          ∧ Stage doc₀ head pre types (done ++ [(type, use)]) state')
      ∧ (Weave.core? doc₀ done use.keyword ≠ none → ∃ state',
        Lowering.lowerOne index use state
          = .error (.ofSplice (.missing use.keyword)) state') := by
  -- the type recorded under the index is the one declared
  obtain ⟨recorded, hrecorded, htitle⟩ : ∃ recorded, state.types[index]? = some recorded
      ∧ (recorded.signature, recorded.name, recorded.refs)
        = (type.signature, type.name, type.refs) := by
    have hget := congrArg (·[index]?) h.titles
    simp only [List.getElem?_map, htype, Option.map_some] at hget
    exact Option.map_eq_some_iff.mp hget
  obtain ⟨hsignature, hname, -⟩ : recorded.signature = type.signature
      ∧ recorded.name = type.name ∧ recorded.refs = type.refs := by simpa using htitle
  unfold Lowering.lowerOne
  rw [Step.bind_get, Step.bind_of_ok (need_of_some hrecorded state), h.fabric.config]
  cases hcontext : use.context with
  | kernelParam function name definition =>
    obtain ⟨param, hparam⟩ :=
      Option.isSome_iff_exists.mp (hfound.own.named function name definition hcontext)
    dsimp only
    rw [Step.bind_of_ok (need_of_some hparam state)]
    exact h.lowerParam h₀ hdone hfound hsorted hsignature hname hcontext hparam index
  | declaration =>
    rw [hname]
    refine h.lowerNamed h₀ hdone hfound hsorted ?_ ?_ ?_
    · simp only [Weave.cut, hcontext]
    · simp only [Weave.replacement, hcontext]
    · simp only [Weave.kernel?, hcontext]
  | param =>
    rw [hname]
    refine h.lowerNamed h₀ hdone hfound hsorted ?_ ?_ ?_
    · simp only [Weave.cut, hcontext]
    · simp only [Weave.replacement, hcontext]
    · simp only [Weave.kernel?, hcontext]

end Use

/-! ## §6. All uses -/

section All

variable {doc₀ : Document} {head : TokenId → Spelling} {pre : List Spelling}

/-- The uses of the types recorded, by the types declared. -/
theorem inSourceOrder_eq {recorded : List TextureType} {types : List Declared}
    (h : recorded.map (fun type => (type.signature, type.name, type.refs))
      = types.map fun type => (type.signature, type.name, type.refs)) :
    (inSourceOrder recorded).map (fun x => (types[x.1]?, x.2))
      = (Weave.uses types).map fun x => (some x.1, x.2) := by
  -- sorting looks at the uses only
  have hsort : ∀ {γ : Type} (g : γ → Option Declared) (items : List (γ × Occurrence)),
      (items.mergeSort fun a b => decide (a.2.keyword.index ≤ b.2.keyword.index)).map
          (fun x => (g x.1, x.2))
        = (items.map fun x => (g x.1, x.2)).mergeSort fun a b =>
            decide (a.2.keyword.index ≤ b.2.keyword.index) := by
    intro γ g items
    exact List.map_mergeSort fun _ _ _ _ => rfl
  unfold inSourceOrder Weave.uses
  rw [hsort (types[·]?), hsort some]
  congr 1
  have hrefs : recorded.map (·.refs) = types.map (·.refs) := by
    have hthird := congrArg (List.map (·.2.2)) h
    rw [List.map_map, List.map_map] at hthird
    exact hthird
  -- both lists of uses are read off the lists of references, by index
  have hlists : ∀ {γ : Type} (refs : γ → List Occurrence) (items : List γ),
      (items.zipIdx.flatMap fun x => (refs x.1).map (x.2, ·))
        = (items.map refs).zipIdx.flatMap fun x => x.1.map (x.2, ·) := by
    intro γ refs items
    rw [List.zipIdx_map, List.flatMap_map]
    rfl
  show ((recorded.zipIdx.flatMap fun x => x.1.refs.map (x.2, ·)).map _) = _
  rw [hlists (·.refs) recorded, hrefs, ← hlists (·.refs) types, List.map_flatMap,
    List.map_flatMap]
  have hown : ∀ x ∈ types.zipIdx, types[x.2]? = some x.1 := fun x hx =>
    List.mem_zipIdx_iff_getElem?.mp hx
  calc _ = types.zipIdx.flatMap fun x => x.1.refs.map (some x.1, ·) := by
        refine List.flatMap_congr fun x hx => ?_
        rw [List.map_map, ← hown x hx]
        rfl
    _ = _ := by
        rw [← List.flatMap_map (f := Prod.fst) (g := fun type : Declared =>
          type.refs.map (some type, ·)), List.zipIdx_map_fst]
        refine List.flatMap_congr fun type _ => ?_
        rw [List.map_map]
        rfl

/-- The uses of all types, type by type. -/
theorem mem_uses {types : List Declared} {u : Declared × Occurrence} :
    u ∈ Weave.uses types ↔ u.1 ∈ types ∧ u.2 ∈ u.1.refs := by
  unfold Weave.uses
  rw [List.mem_mergeSort, List.mem_flatMap]
  constructor
  · rintro ⟨type, htype, hu⟩
    obtain ⟨o, ho, rfl⟩ := List.mem_map.mp hu
    exact ⟨htype, ho⟩
  · rintro ⟨htype, ho⟩
    exact ⟨u.1, htype, List.mem_map.mpr ⟨u.2, ho, rfl⟩⟩

/-- The uses come in source order. -/
theorem uses_sorted (types : List Declared) :
    (Weave.uses types).Pairwise fun u v => u.2.keyword.index ≤ v.2.keyword.index := by
  have htrans : ∀ a b c : Declared × Occurrence,
      decide (a.2.keyword.index ≤ b.2.keyword.index) = true →
      decide (b.2.keyword.index ≤ c.2.keyword.index) = true →
      decide (a.2.keyword.index ≤ c.2.keyword.index) = true := by
    intro a b c hab hbc
    simp only [decide_eq_true_eq] at hab hbc ⊢
    omega
  have htotal : ∀ a b : Declared × Occurrence,
      (decide (a.2.keyword.index ≤ b.2.keyword.index)
        || decide (b.2.keyword.index ≤ a.2.keyword.index)) = true := by
    intro a b
    simp only [Bool.or_eq_true, decide_eq_true_eq]
    omega
  exact (List.pairwise_mergeSort htrans htotal _).imp fun h => by simpa using h

/-- No use begins inside of one before it. -/
def Apart (doc : Document) (uses : List (Declared × Occurrence)) : Prop :=
  uses.Pairwise fun u v => v.2.keyword ∉ doc.tokens.range (Weave.cut u.2)

/-- The first use that begins inside of one before it. -/
def Stops (doc : Document) (uses : List (Declared × Occurrence)) (inner : Declared × Occurrence) :
    Prop :=
  ∃ front more, uses = front ++ inner :: more ∧ Apart doc front
    ∧ ∃ outer ∈ front, inner.2.keyword ∈ doc.tokens.range (Weave.cut outer.2)

/-- A use at which lowering stops begins inside of one before it. -/
theorem Stops.exists_outer {uses : List (Declared × Occurrence)} {inner : Declared × Occurrence}
    (h : Stops doc₀ uses inner) :
    ∃ outer, [outer, inner].Sublist uses
      ∧ inner.2.keyword ∈ doc₀.tokens.range (Weave.cut outer.2) := by
  obtain ⟨front, more, rfl, -, outer, houter, hin⟩ := h
  exact ⟨outer, (List.singleton_sublist.mpr houter).append
    (List.singleton_sublist.mpr List.mem_cons_self), hin⟩

/-- Then the uses are not apart. -/
theorem Stops.not_apart {uses : List (Declared × Occurrence)} {inner : Declared × Occurrence}
    (h : Stops doc₀ uses inner) : ¬ Apart doc₀ uses := by
  obtain ⟨outer, hsub, hin⟩ := h.exists_outer
  exact fun hapart => List.pairwise_iff_forall_sublist.mp hapart hsub hin

/-- There is one first use only. -/
theorem Stops.unique {uses : List (Declared × Occurrence)} {u v : Declared × Occurrence}
    (hu : Stops doc₀ uses u) (hv : Stops doc₀ uses v) : u = v := by
  obtain ⟨front, more, rfl, hapart, outer, houter, hin⟩ := hu
  obtain ⟨front', more', he, hapart', outer', houter', hin'⟩ := hv
  have hnot : ∀ {l middle : List (Declared × Occurrence)} {w outer : Declared × Occurrence},
      Apart doc₀ (l ++ w :: middle) → outer ∈ l →
      w.2.keyword ∉ doc₀.tokens.range (Weave.cut outer.2) := fun h houter =>
    (List.pairwise_append.mp h).2.2 _ houter _ List.mem_cons_self
  rcases List.append_eq_append_iff.mp he with ⟨middle, rfl, hrest⟩ | ⟨middle, rfl, hrest⟩
  · cases middle with
    | nil => exact (List.cons.inj hrest).1
    | cons w middle =>
      obtain ⟨rfl, -⟩ := List.cons.inj hrest
      exact absurd hin (hnot hapart' houter)
  · cases middle with
    | nil => exact (List.cons.inj hrest).1.symm
    | cons w middle =>
      obtain ⟨rfl, -⟩ := List.cons.inj hrest
      exact absurd hin' (hnot hapart houter')

/-- The uses are those that the items list by the indices of their types. -/
def Indexed (types : List Declared) (uses : List (Declared × Occurrence))
    (items : List (Nat × Occurrence)) : Prop :=
  items.map (fun x => (types[x.1]?, x.2)) = uses.map fun u => (some u.1, u.2)

/-- The indices tell which uses are meant. -/
theorem Indexed.unique {types : List Declared} {uses uses' : List (Declared × Occurrence)}
    {items : List (Nat × Occurrence)} (h : Indexed types uses items)
    (h' : Indexed types uses' items) : uses = uses' := by
  have hinj : Function.Injective fun u : Declared × Occurrence => (some u.1, u.2) := by
    rintro ⟨a, b⟩ ⟨c, d⟩ he
    simpa using he
  exact hinj.list_map (h.symm.trans h')

/-- One more use. -/
theorem Indexed.concat {types : List Declared} {uses : List (Declared × Occurrence)}
    {items : List (Nat × Occurrence)} (h : Indexed types uses items) {item : Nat × Occurrence}
    {type : Declared} (htype : types[item.1]? = some type) :
    Indexed types (uses ++ [(type, item.2)]) (items ++ [item]) := by
  unfold Indexed at h ⊢
  rw [List.map_append, List.map_append, h]
  simp [htype]

/-- The use of an item follows those of the items before it. -/
theorem Indexed.next {types : List Declared} {all uses : List (Declared × Occurrence)}
    {done rest : List (Nat × Occurrence)} {item : Nat × Occurrence}
    (h : Indexed types all (done ++ item :: rest)) (hdone : Indexed types uses done) :
    ∃ type more, all = uses ++ (type, item.2) :: more ∧ types[item.1]? = some type := by
  unfold Indexed at h
  rw [List.map_append, List.map_cons] at h
  obtain ⟨front, back, hall, hfront, hback⟩ := List.map_eq_append_iff.mp h.symm
  obtain ⟨u, more, rfl, hu, -⟩ := List.map_eq_cons_iff.mp hback
  have hsame : front = uses := Indexed.unique hfront.symm hdone
  obtain ⟨htype, ho⟩ := Prod.mk.inj hu
  refine ⟨u.1, more, ?_, htype.symm⟩
  rw [hall, hsame, ← ho]

/-- **One more use** goes through, or it is the first that begins inside of another. -/
theorem Stage.lowerNext {types : List Declared} {uses more : List (Declared × Occurrence)}
    {type : Declared} {item : Nat × Occurrence} {state : Lowering}
    (h : Stage doc₀ head pre types uses state) (h₀ : Loaded doc₀)
    (htype : types[item.1]? = some type)
    (hall : Weave.uses types = uses ++ (type, item.2) :: more)
    (hfound : ∀ u ∈ Weave.uses types, Occurrence.Found doc₀ u.2) (hapart : Apart doc₀ uses) :
    (∃ state', Lowering.lowerOne item.1 item.2 state = .ok () state'
        ∧ Apart doc₀ (uses ++ [(type, item.2)])
        ∧ Stage doc₀ head pre types (uses ++ [(type, item.2)]) state')
      ∨ ∃ state', Lowering.lowerOne item.1 item.2 state
            = .error (.ofSplice (.missing item.2.keyword)) state'
          ∧ Stops doc₀ (Weave.uses types) (type, item.2) := by
  have hsorted := uses_sorted types
  have hbefore : ∀ u ∈ uses, Occurrence.Found doc₀ u.2
      ∧ u.2.keyword.index ≤ item.2.keyword.index := by
    intro u hu
    refine ⟨hfound u (by simp [hall, hu]), ?_⟩
    rw [hall] at hsorted
    exact (List.pairwise_append.mp hsorted).2.2 u hu _ List.mem_cons_self
  obtain ⟨hok, herror⟩ := h.lowerOne h₀ htype (fun u hu => (hbefore u hu).1)
    (hfound (type, item.2) (by simp [hall])) fun u hu => (hbefore u hu).2
  -- the keyword stands unless the cut of a use before reaches it
  have hnone := Weave.core?_none h₀ (fun u hu => (hbefore u hu).1) item.2.keyword
  by_cases hself : Weave.core? doc₀ uses item.2.keyword = none
  · obtain ⟨s', hstep, hnext⟩ := hok hself
    refine Or.inl ⟨s', hstep, ?_, hnext⟩
    refine List.pairwise_append.mpr ⟨hapart, List.pairwise_singleton _ _, ?_⟩
    intro u hu v hv
    rw [List.mem_singleton.mp hv, Weave.mem_cut_iff h₀ (hbefore u hu).1]
    exact hnone.mp hself u hu
  · -- the keyword went with a use before it
    obtain ⟨s', hstep⟩ := herror hself
    rw [hnone] at hself
    push Not at hself
    obtain ⟨outer, houter, hin⟩ := hself
    refine Or.inr ⟨s', hstep, uses, more, hall, hapart, outer, houter, ?_⟩
    rw [Weave.mem_cut_iff h₀ (hbefore outer houter).1]
    exact hin

/-- **Lowering all textures** goes through when no use begins inside of another, and stops at
    the keyword of the first that does. -/
theorem lowerAll_cases [ContentHash] {doc : Document} {groups : List (List Occurrence)}
    (h₀ : Loaded doc₀)
    (hstart : Stage doc₀ head pre [] [] { document := doc })
    (hdoc : Occurrence.discover doc = .ok groups)
    (hdoc₀ : Occurrence.discover doc₀ = .ok groups) {types : List Declared}
    (htypes : types = Weave.declareAll doc₀ groups) :
    types.map (·.refs) = groups
      ∧ ((Apart doc₀ (Weave.uses types) ∧ ∃ state, lowerAll { document := doc } = .ok () state
          ∧ Stage doc₀ head pre types (Weave.uses types) state)
        ∨ ∃ inner, Stops doc₀ (Weave.uses types) inner
          ∧ ∃ state, lowerAll { document := doc }
            = .error (.ofSplice (.missing inner.2.keyword)) state) := by
  have hgroups : ∀ refs ∈ groups, refs ≠ [] ∧ ∀ o ∈ refs, Occurrence.Found doc₀ o := by
    intro refs hrefs
    refine ⟨?_, Occurrence.discover_found hdoc₀ refs hrefs⟩
    obtain ⟨found, -, rfl⟩ := Occurrence.discover_ok hdoc₀
    obtain ⟨k, -, hne⟩ := Occurrence.mem_groupAll hrefs
    exact hne
  obtain ⟨state₁, hdeclare, hrefs, hstage⟩ := hstart.declareTypes h₀ hgroups
  subst htypes
  refine ⟨hrefs, ?_⟩
  have hfound : ∀ u ∈ Weave.uses (Weave.declareAll doc₀ groups), Occurrence.Found doc₀ u.2 := by
    intro u hu
    obtain ⟨htype, ho⟩ := mem_uses.mp hu
    refine (hgroups u.1.refs ?_).2 u.2 ho
    rw [← hrefs]
    exact List.mem_map_of_mem htype
  have hitems : Indexed (Weave.declareAll doc₀ groups)
      (Weave.uses (Weave.declareAll doc₀ groups)) (inSourceOrder state₁.types) :=
    inSourceOrder_eq hstage.titles
  generalize Weave.declareAll doc₀ groups = types at *
  -- the loop has lowered the uses before the current one, and these are apart from each other
  have hloop := Step.forM_cases (inSourceOrder state₁.types) (s := state₁)
    (f := fun x => Lowering.lowerOne x.1 x.2)
    (P := fun done s => ∃ uses, Indexed types uses done ∧ Apart doc₀ uses
      ∧ Stage doc₀ head pre types uses s)
    (Q := fun _ _ e => ∃ inner, Stops doc₀ (Weave.uses types) inner
      ∧ e = .ofSplice (.missing inner.2.keyword))
    (by
      rintro done item rest s hdone ⟨uses, huses, hapart, hs⟩
      rw [hdone] at hitems
      obtain ⟨type, more, hall, htype⟩ := Indexed.next hitems huses
      rcases hs.lowerNext h₀ htype hall hfound hapart with ⟨s', hstep, hapart', hnext⟩
        | ⟨s', hstep, hstops⟩
      · exact Or.inl ⟨s', hstep, uses ++ [(type, item.2)], huses.concat htype, hapart', hnext⟩
      · exact Or.inr ⟨_, s', hstep, (type, item.2), hstops, rfl⟩)
    ⟨[], rfl, List.Pairwise.nil, hstage⟩
  have hrun : lowerAll { document := doc }
      = (inSourceOrder state₁.types).forM (fun x => Lowering.lowerOne x.1 x.2) state₁ := by
    unfold lowerAll
    rw [Step.bind_get]
    dsimp only
    rw [hdoc]
    dsimp only
    rw [Step.bind_of_ok hdeclare, Step.bind_get]
  rw [hrun]
  rcases hloop with ⟨s', hforM, uses, huses, hapart, hs⟩
    | ⟨done, item, rest, e, s', -, hforM, inner, hstops, rfl⟩
  · have hsame : uses = Weave.uses types := huses.unique hitems
    rw [hsame] at hapart hs
    exact Or.inl ⟨hapart, s', hforM, hs⟩
  · exact Or.inr ⟨inner, hstops, s', hforM⟩

end All

end Lowering

end KernelPrep
