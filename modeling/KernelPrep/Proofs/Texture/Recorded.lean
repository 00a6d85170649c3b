/-
  KernelPrep.Proofs.Texture.Recorded — what lowering knows of the textures of a file.

  Beside the changed document, lowering leaves behind its types, each with its name, its
  declaration and its uses.  That record can be checked against the loaded document alone.
  Every texture keyword there is the keyword of one use, unless it is the texel type of
  another; uses are of one type when they have one key, and so when they are spelled alike,
  unless the hash mistakes some for others; the types are numbered in the order in which they
  were found, textures and surfaces apart; and of the lines put into the file, one defines each
  type.

  Main definitions:
    * `Document.IsKeyword`   — a texture keyword where textures are looked for;
    * `Document.definesType` — a line put in that defines a type;
    * `Lowering.Keyed`       — the record is right, by the keys of uses;
    * `Lowering.Recorded`    — the record is right.

  Main statements:
    * `Weave.declareAll_get`  — each type, when those before it are declared;
    * `Weave.names_nodup`     — no two types share a name;
    * `Fabric.mem_preOrder`   — the nodes put in are those of the lines;
    * `Lowering.run_keyed`    — lowering that goes through leaves a record by keys;
    * `Lowering.run_recorded` — and one that is right, if the hash mistakes no uses for others.
-/
import KernelPrep.Proofs.Texture.Outcome

namespace KernelPrep

open NodeTree (Below Forest root)
open Weave (Declared)

/-! ## §1. Types and their names -/

namespace Weave

variable {doc : Document} {groups : List (List Occurrence)} {type : Declared}

/-- What is declared for a group. -/
theorem declare?_eq_some {before : List Declared} {refs : List Occurrence}
    (h : declare? doc before refs = some type) :
    type.refs = refs ∧ type.first ∈ refs
      ∧ Signature.ofKeyword? (doc.tokens.textOf type.first.keyword) = some type.signature
      ∧ type.texel = " ".intercalate (type.first.texel.map doc.tokens.textOf)
      ∧ type.name = "__" ++ type.signature.kind.stem ++ "TypeName_"
        ++ toString (before.countP (·.signature.kind == type.signature.kind)) ++ "__" := by
  unfold declare? at h
  obtain ⟨first, hfirst, h⟩ := Option.bind_eq_some_iff.mp h
  obtain ⟨signature, hsignature, h⟩ := Option.bind_eq_some_iff.mp h
  obtain rfl := Option.some.inj h
  exact ⟨rfl, Lowering.mem_of_earliest? hfirst, hsignature, rfl, rfl⟩

/-- The use on record for a type is the earliest. -/
theorem declare?_earliest {before : List Declared} {refs : List Occurrence}
    (h : declare? doc before refs = some type) : Lowering.earliest? refs = some type.first := by
  unfold declare? at h
  obtain ⟨first, hfirst, h⟩ := Option.bind_eq_some_iff.mp h
  obtain ⟨signature, hsignature, h⟩ := Option.bind_eq_some_iff.mp h
  obtain rfl := Option.some.inj h
  exact hfirst

/-- **Each type** is declared when those before it are. -/
theorem declareAll_get {i : Nat} (h : (declareAll doc groups)[i]? = some type) :
    declare? doc ((declareAll doc groups).take i) type.refs = some type := by
  induction groups using List.reverseRecOn with
  | nil => simp [declareAll] at h
  | append_singleton groups refs ih =>
    rw [declareAll_concat] at h ⊢
    -- the groups before this one have the types that they had
    cases hlast : declare? doc (declareAll doc groups) refs with
    | none =>
      rw [hlast, Option.toList_none, List.append_nil] at h
      rw [Option.toList_none, List.append_nil]
      exact ih h
    | some last =>
      rw [hlast, Option.toList_some] at h
      rw [Option.toList_some]
      rcases getElem?_concat_cases h with ⟨hlt, h⟩ | ⟨rfl, rfl⟩
      · rw [List.take_append_of_le_length (Nat.le_of_lt hlt)]
        exact ih h
      · rw [List.take_left, (declare?_eq_some hlast).1]
        exact hlast

/-- A name tells the kind and the number of its type. -/
theorem name_inj {k k' : TextureKind} {n n' : Nat}
    (h : "__" ++ k.stem ++ "TypeName_" ++ toString n ++ "__"
      = "__" ++ k'.stem ++ "TypeName_" ++ toString n' ++ "__") : k = k' ∧ n = n' := by
  have hlist := congrArg String.toList h
  simp only [String.toList_append, List.append_assoc, List.append_cancel_left_eq] at hlist
  have hkind : k = k' := by
    cases k <;> cases k' <;> simp_all [TextureKind.stem]
  subst hkind
  refine ⟨rfl, ?_⟩
  rw [List.append_cancel_left_eq, List.append_cancel_left_eq, List.append_cancel_right_eq] at hlist
  have hdigits : Nat.toDigits 10 n = Nat.toDigits 10 n' := by
    rw [← Nat.toList_repr, ← Nat.toList_repr]
    exact hlist
  rw [← Nat.ofDigitChars_ten_toDigits (n := n), hdigits, Nat.ofDigitChars_ten_toDigits]

/-- **No two types share a name.** -/
theorem names_nodup (doc : Document) (groups : List (List Occurrence)) :
    ((declareAll doc groups).map (·.name)).Nodup := by
  rw [List.Nodup, List.pairwise_map, List.pairwise_iff_getElem]
  intro i j hi hj hij he
  have hother := declareAll_get (List.getElem?_eq_getElem hi)
  have hlater := declareAll_get (List.getElem?_eq_getElem hj)
  rw [(declare?_eq_some hother).2.2.2.2, (declare?_eq_some hlater).2.2.2.2] at he
  obtain ⟨hkind, hcount⟩ := name_inj he
  -- the later type counts the earlier one
  have hmore : ((declareAll doc groups).take i ++ [(declareAll doc groups)[i]]).Sublist
      ((declareAll doc groups).take j) := by
    rw [List.take_append_getElem]
    exact List.take_sublist_take_left hij
  have hle := hmore.countP_le
    (p := fun t => t.signature.kind == (declareAll doc groups)[j].signature.kind)
  rw [List.countP_append, ← hcount, hkind, List.countP_singleton, if_pos (by simp [hkind])] at hle
  omega

end Weave

/-! ## §2. The nodes put in -/

/-- The tokens of a node, by kind and text. -/
def Document.spelling (doc : Document) (node : NodeId) : Spelling :=
  doc.tokens.spells (((doc.tree.tokens? node).map doc.tokens.range).getD [])

/-- Whether a line begins with `typedef` and its last symbol is the name. -/
def Spelling.definesType (line : Spelling) (name : String) : Bool :=
  line.head? == some (.typedef, "typedef")
    && (line.filter (·.1 == .symbol)).getLast? == some (.symbol, name)

/-- Whether the node was put in by a pass and defines a type of the name. -/
def Document.definesType (doc : Document) (name : String) (node : NodeId) : Bool :=
  doc.tree.kind? node == some .userTokens && (doc.spelling node).definesType name

namespace Weave

/-- The arguments with which a type is declared. -/
def typeArgs (doc : Document) (type : Declared) : List String :=
  match type.signature.kind with
  | .texture => [type.texel, toString type.signature.dims.toNat,
      doc.config.vocabulary.readMode type.signature.mode]
  | .surface => [toString type.signature.dims.toNat]

/-- The declaration of a type, token by token. -/
theorem typeLine_eq (doc : Document) (type : Declared) :
    typeLine doc type = (.typedef, "typedef") :: (.whitespace, " ")
      :: ((Piece.call (doc.config.vocabulary.typeWord type.signature.kind)
          (typeArgs doc type)).spell doc.newline
        ++ [(.whitespace, " "), (.symbol, type.name), (.semicolon, ";"), (.eol, doc.newline)]) :=
  rfl

theorem typeLine_definesType (doc : Document) (type : Declared) (name : String) :
    (typeLine doc type).definesType name = (type.name == name) := by
  unfold Spelling.definesType
  rw [typeLine_eq]
  simp [List.getLast?_append]

/-- The other lines define no type. -/
theorem useLines_definesType {doc : Document} {use : Declared × Occurrence} {line : Spelling}
    (h : line ∈ useLines doc use) (name : String) : line.definesType name = false := by
  unfold useLines at h
  split at h
  · split at h
    · rcases List.mem_cons.mp h with rfl | h
      · rfl
      · obtain rfl := List.mem_singleton.mp h
        rfl
    · simp at h
  · simp at h

end Weave

namespace Fabric

variable {doc₀ doc : Document} {weft : TokenId → Weft} {bindings : List (NodeId × NodeId)}
  {labels : List Spelling}

/-- The node of each line spells it. -/
theorem spelling_eq (h : Fabric doc₀ doc weft bindings labels) {k : Nat} {label : Spelling}
    (hk : labels[k]? = some label) : doc.spelling ⟨doc₀.tree.nodes.size + k⟩ = label := by
  obtain ⟨strand, hwoven, -, hlabelled⟩ := h
  obtain ⟨parent, range, ids, -, -, -, hrange, hends, ⟨t, ht, hin⟩, hspells⟩ :=
    hlabelled.each k label hk
  -- the tokens of a line are one stretch of a strand, and so of the file
  have hinfix : ids <:+: Strand.lay strand doc₀.tokens.ids := by
    obtain ⟨a, b, hsplit⟩ := List.append_of_mem ht
    have hown : ids <:+: (strand t).ids := by
      unfold Strand.ids
      rcases hin with hin | hin
      · exact hin.trans ((List.prefix_append _ _).trans (List.prefix_append _ _)).isInfix
      · exact hin.trans (List.suffix_append _ _).isInfix
    refine hown.trans ⟨Strand.lay strand a, Strand.lay strand b, ?_⟩
    rw [hsplit, Strand.lay_append, Strand.lay_cons, List.append_assoc]
  obtain ⟨before, after, hfile⟩ := hinfix
  have hthreaded := hwoven.laid.threaded
  rw [← hfile] at hthreaded
  unfold Document.spelling
  rw [hrange, ← hspells]
  exact congrArg doc.tokens.spells (hthreaded.range_eq hends.1 hends.2)

/-- **The nodes put in** are those of the lines. -/
theorem mem_preOrder (h : Fabric doc₀ doc weft bindings labels) (h₀ : Loaded doc₀) {x : NodeId} :
    (x ∈ doc.tree.preOrder ∧ doc.tree.kind? x = some .userTokens)
      ↔ ∃ k < labels.length, x = ⟨doc₀.tree.nodes.size + k⟩ := by
  obtain ⟨strand, hwoven, -, hlabelled⟩ := h
  have hgrown := hwoven.grown
  constructor
  · rintro ⟨-, hkind⟩
    have hnew : doc₀.tree.nodes.size ≤ x.index := by
      by_contra hlt
      rw [hgrown.kind x (Nat.lt_of_not_le hlt)] at hkind
      exact h₀.kind_ne hkind
    obtain ⟨n, hn⟩ := NodeTree.live_of_kind? hkind
    have hlt := NodeTree.index_lt_of_get? hn
    rw [hlabelled.size] at hlt
    refine ⟨x.index - doc₀.tree.nodes.size, by omega, ?_⟩
    rw [Nat.add_sub_cancel' hnew]
  -- a new node hangs below an old one, which is below the root
  · rintro ⟨k, hk, rfl⟩
    obtain ⟨parent, range, ids, hkind, hparent, hold, -⟩ :=
      hlabelled.each k _ (List.getElem?_eq_getElem hk)
    refine ⟨?_, hkind⟩
    rw [hgrown.forest.mem_preOrder]
    have hstep := (hgrown.forest.parent_iff parent _).mp hparent
    exact (hgrown.below h₀.forest (h₀.below_root hold)).tail hstep

end Fabric

/-! ## §3. The record -/

/-- The token is a symbol spelled as a texture keyword, among the own tokens of a statement, a
    type definition or a parameter list. -/
def Document.IsKeyword (doc : Document) (id : TokenId) : Prop :=
  ∃ node kind token, doc.tree.kind? node = some kind
    ∧ kind ∈ [.statement, .typedef, .functionParams]
    ∧ id ∈ doc.ownTokens node ∧ doc.tokens.get? id = some token ∧ token.kind = .symbol
    ∧ (Signature.ofKeyword? token.text).isSome = true

theorem Occurrence.signature?_isSome {token : Token} :
    (signature? token).isSome = true
      ↔ token.kind = .symbol ∧ (Signature.ofKeyword? token.text).isSome = true := by
  unfold signature?
  by_cases hkind : token.kind = .symbol
  · simp [hkind]
  · simp [hkind]

namespace Lowering

/-- All uses recorded, type by type. -/
def recorded (state : Lowering) : List Occurrence := state.types.flatMap (·.refs)

/-- The types of lowering are right for the document it began with, as far as the keys of uses
    tell.  This is so for every hash: uses with other words may have the same key, and then the
    earliest of them speaks for all. -/
structure Keyed [ContentHash] (doc : Document) (state : Lowering) : Prop where
  /-- A keyword that is no texel type is the keyword of one use. -/
  once : ∀ id, doc.IsKeyword id → (∀ use ∈ state.recorded, id ∉ use.texel) →
    state.recorded.countP (·.keyword = id) = 1
  /-- Nothing else is recorded. -/
  only : ∀ use ∈ state.recorded, doc.IsKeyword use.keyword
    ∧ ∀ other ∈ state.recorded, use.keyword ∉ other.texel
  /-- Uses are of one type when they have one key. -/
  same : ∀ (i j : Nat) (type other : TextureType), state.types[i]? = some type →
    state.types[j]? = some other → ∀ use ∈ type.refs, ∀ use' ∈ other.refs,
      (i = j ↔ Occurrence.key doc.tokens use = Occurrence.key doc.tokens use')
  /-- All uses found are recorded, the types in the order of their first uses. -/
  order : ∃ found, Occurrence.findAll doc = .ok found ∧ state.recorded.Perm found
    ∧ state.types.map (·.refs.head?)
      = (found.map (Occurrence.key doc.tokens)).eraseDups.map fun key =>
        found.find? (Occurrence.key doc.tokens · = key)
  /-- A type, and the line that defines it, is what the earliest of its uses says. -/
  earliest : ∀ type ∈ state.types, ∃ first, earliest? type.refs = some first
    ∧ Signature.ofKeyword? (doc.tokens.textOf first.keyword) = some type.signature
    ∧ state.document.spelling type.declaration
      = Weave.spelled doc (typePieces doc.config.vocabulary type.signature
        (" ".intercalate (first.texel.map doc.tokens.textOf)) type.name)
  /-- Types are numbered, those of each kind on their own. -/
  name : ∀ (i : Nat) (type : TextureType), state.types[i]? = some type →
    type.name = "__" ++ type.signature.kind.stem ++ "TypeName_"
      ++ toString ((state.types.take i).countP (·.signature.kind = type.signature.kind)) ++ "__"
  distinct : (state.types.map (·.name)).Nodup
  /-- One node defines each type. -/
  defined : ∀ type ∈ state.types,
    state.document.tree.preOrder.filter (state.document.definesType type.name)
      = [type.declaration]

/-- The types of lowering are right for the document it began with. -/
structure Recorded [ContentHash] (doc : Document) (state : Lowering) : Prop where
  /-- A keyword that is no texel type is the keyword of one use. -/
  once : ∀ id, doc.IsKeyword id → (∀ use ∈ state.recorded, id ∉ use.texel) →
    state.recorded.countP (·.keyword = id) = 1
  /-- Nothing else is recorded. -/
  only : ∀ use ∈ state.recorded, doc.IsKeyword use.keyword
    ∧ ∀ other ∈ state.recorded, use.keyword ∉ other.texel
  /-- Uses are of one type when their words are the same. -/
  same : ∀ (i j : Nat) (type other : TextureType), state.types[i]? = some type →
    state.types[j]? = some other → ∀ use ∈ type.refs, ∀ use' ∈ other.refs,
      (i = j ↔ doc.tokens.textOf use.keyword = doc.tokens.textOf use'.keyword
        ∧ use.texel.map doc.tokens.textOf = use'.texel.map doc.tokens.textOf)
  /-- Types come in the order in which their first uses were found. -/
  order : ∃ found, Occurrence.findAll doc = .ok found
    ∧ state.types.map (·.refs.head?)
      = (found.map (Occurrence.key doc.tokens)).eraseDups.map fun key =>
        found.find? (Occurrence.key doc.tokens · = key)
  /-- A type is what its keyword says. -/
  signature : ∀ type ∈ state.types, ∀ use ∈ type.refs,
    Signature.ofKeyword? (doc.tokens.textOf use.keyword) = some type.signature
  /-- Types are numbered, those of each kind on their own. -/
  name : ∀ (i : Nat) (type : TextureType), state.types[i]? = some type →
    type.name = "__" ++ type.signature.kind.stem ++ "TypeName_"
      ++ toString ((state.types.take i).countP (·.signature.kind = type.signature.kind)) ++ "__"
  distinct : (state.types.map (·.name)).Nodup
  /-- One node defines each type, and says what its uses say. -/
  definition : ∀ type ∈ state.types,
    state.document.tree.preOrder.filter (state.document.definesType type.name)
      = [type.declaration]
    ∧ ∀ use ∈ type.refs, state.document.spelling type.declaration
      = Weave.spelled doc (typePieces doc.config.vocabulary type.signature
        (" ".intercalate (use.texel.map doc.tokens.textOf)) type.name)

section Groups

variable {doc : Document} {state : Lowering} {found : List Occurrence}

/-- Every use found is recorded once. -/
theorem recorded_perm [ContentHash]
    (h : state.types.map (·.refs) = Occurrence.groupAll doc.tokens found) :
    state.recorded.Perm found := by
  unfold recorded
  rw [List.flatMap_def, h]
  exact Occurrence.groupAll_perm doc.tokens found

/-- The uses of a type are those found with its key. -/
theorem refs_of_get [ContentHash]
    (h : state.types.map (·.refs) = Occurrence.groupAll doc.tokens found)
    {i : Nat} {type : TextureType} (htype : state.types[i]? = some type) :
    ∃ key, (found.map (Occurrence.key doc.tokens)).eraseDups[i]? = some key
      ∧ type.refs = found.filter (Occurrence.key doc.tokens · = key) := by
  have hget : (state.types.map (·.refs))[i]? = some type.refs := by
    rw [List.getElem?_map, htype]
    rfl
  rw [h, Occurrence.groupAll_eq, List.getElem?_map] at hget
  obtain ⟨key, hkey, he⟩ := Option.map_eq_some_iff.mp hget
  exact ⟨key, hkey, he.symm⟩

/-- Two uses are of one type when they have one key. -/
theorem index_eq_iff [ContentHash]
    (h : state.types.map (·.refs) = Occurrence.groupAll doc.tokens found)
    {i j : Nat} {type other : TextureType} (htype : state.types[i]? = some type)
    (hother : state.types[j]? = some other) {use use' : Occurrence} (huse : use ∈ type.refs)
    (huse' : use' ∈ other.refs) :
    i = j ↔ Occurrence.key doc.tokens use = Occurrence.key doc.tokens use' := by
  obtain ⟨key, hkey, htypeRefs⟩ := refs_of_get h htype
  obtain ⟨key', hkey', hotherRefs⟩ := refs_of_get h hother
  rw [htypeRefs, List.mem_filter, decide_eq_true_iff] at huse
  rw [hotherRefs, List.mem_filter, decide_eq_true_iff] at huse'
  rw [huse.2, huse'.2,
    ← List.getElem?_inj (List.getElem?_eq_some_iff.mp hkey).1 (Occurrence.nodup_eraseDups _),
    hkey, hkey', Option.some.injEq]

/-- The first use of each type is the first one found with its key. -/
theorem heads_eq [ContentHash]
    (h : state.types.map (·.refs) = Occurrence.groupAll doc.tokens found) :
    state.types.map (·.refs.head?)
      = (found.map (Occurrence.key doc.tokens)).eraseDups.map fun key =>
        found.find? (Occurrence.key doc.tokens · = key) := by
  have hheads := congrArg (List.map List.head?) h
  rw [Occurrence.groupAll_eq, List.map_map, List.map_map] at hheads
  exact hheads.trans (List.map_congr_left fun key _ => List.head?_filter)

/-- The keywords are those that the search looks at. -/
theorem isKeyword_iff (h₀ : Loaded doc) {id : TokenId} :
    doc.IsKeyword id ↔ ∃ node ∈ Occurrence.candidates doc,
      ∃ token, (id, token) ∈ Occurrence.entries doc node
        ∧ (Occurrence.signature? token).isSome = true := by
  have hkinds : ∀ node, (doc.tree.kind? node).any Occurrence.isSearched = true
      ↔ ∃ kind, doc.tree.kind? node = some kind
        ∧ kind ∈ [NodeKind.statement, .typedef, .functionParams] := by
    intro node
    cases doc.tree.kind? node with
    | none => simp
    | some kind => cases kind <;> simp [Occurrence.isSearched]
  constructor
  · rintro ⟨node, kind, token, hkind, hsearched, hown, htoken, hword⟩
    exact ⟨node, h₀.mem_candidates.mpr ((hkinds node).mpr ⟨kind, hkind, hsearched⟩), token,
      Occurrence.mem_entries.mpr ⟨hown, htoken⟩, Occurrence.signature?_isSome.mpr hword⟩
  · rintro ⟨node, hnode, token, hentry, hword⟩
    obtain ⟨kind, hkind, hsearched⟩ := (hkinds node).mp (h₀.mem_candidates.mp hnode)
    obtain ⟨hown, htoken⟩ := Occurrence.mem_entries.mp hentry
    exact ⟨node, kind, token, hkind, hsearched, hown, htoken, Occurrence.signature?_isSome.mp hword⟩

/-- A keyword is the keyword of one of the uses found, or a texel type. -/
theorem countP_keyword (h₀ : Loaded doc) (hfound : Occurrence.findAll doc = .ok found)
    {id : TokenId} (hid : doc.IsKeyword id) (htexel : ∀ use ∈ found, id ∉ use.texel) :
    found.countP (·.keyword = id) = 1 := by
  obtain ⟨node, hnode, token, hentry, hword⟩ := (isKeyword_iff h₀).mp hid
  have hmem := (Occurrence.findAll_ok hfound).2.2 node hnode _ hentry hword
  obtain ⟨use, huse, hid⟩ := List.mem_flatMap.mp hmem
  have hkeyword : use.keyword = id := by
    rcases List.mem_cons.mp hid with he | he
    · exact he.symm
    · exact absurd he (htexel use huse)
  have hone := List.count_eq_one_of_mem (h₀.keywords_nodup hfound)
    (List.mem_map.mpr ⟨use, huse, hkeyword⟩)
  rw [List.count, List.countP_map] at hone
  rw [← hone]
  refine List.countP_congr fun use _ => ?_
  simp

/-- The keyword of one use is no texel type of another. -/
theorem keyword_notMem_texel (h₀ : Loaded doc) (hfound : Occurrence.findAll doc = .ok found)
    {use other : Occurrence} (huse : use ∈ found) (hother : other ∈ found) :
    use.keyword ∉ other.texel := by
  intro hin
  have hnodup := List.nodup_flatMap.mp (h₀.words_nodup hfound)
  by_cases he : use = other
  · rw [he] at hin
    exact (List.nodup_cons.mp (hnodup.1 other hother)).1 hin
  · have hsymm : Std.Symm (Function.onFun List.Disjoint Occurrence.words) :=
      ⟨fun _ _ h _ hx hy => h hy hx⟩
    have hdisjoint : List.Disjoint (Occurrence.words use) (Occurrence.words other) :=
      hnodup.2.forall huse hother he
    exact hdisjoint List.mem_cons_self (List.mem_cons_of_mem _ hin)

end Groups

/-- What a stage says of a type. -/
theorem Stage.declared_of_get {doc₀ : Document} {head : TokenId → Spelling} {pre : List Spelling}
    {types : List Declared} {done : List (Declared × Occurrence)} {state : Lowering}
    (h : Stage doc₀ head pre types done state) {i : Nat} {type : TextureType}
    (htype : state.types[i]? = some type) :
    ∃ declared, types[i]? = some declared ∧ declared.signature = type.signature
      ∧ declared.name = type.name ∧ declared.refs = type.refs
      ∧ type.declaration = ⟨doc₀.tree.nodes.size + pre.length + i⟩ := by
  have htitle : (state.types.map _)[i]? = _ := congrArg (·[i]?) h.titles
  rw [List.getElem?_map, List.getElem?_map, htype] at htitle
  obtain ⟨declared, hdeclared, he⟩ := Option.map_eq_some_iff.mp htitle.symm
  obtain ⟨hsignature, hrest⟩ := Prod.mk.inj he
  obtain ⟨hname, hrefs⟩ := Prod.mk.inj hrest
  have hplace : (state.types.map _)[i]? = _ := congrArg (·[i]?) h.declarations
  have hlt := (List.getElem?_eq_some_iff.mp hdeclared).1
  rw [List.getElem?_map, List.getElem?_map, htype, List.getElem?_range hlt] at hplace
  exact ⟨declared, hdeclared, hsignature, hname, hrefs, Option.some.inj hplace⟩

/-- What a stage says of a type, when the types declared are those of some groups. -/
theorem Stage.declare_of_get {doc₀ : Document} {head : TokenId → Spelling}
    {groups : List (List Occurrence)} {done : List (Declared × Occurrence)} {state : Lowering}
    (h : Stage doc₀ head [] (Weave.declareAll doc₀ groups) done state) {i : Nat}
    {type : TextureType} (htype : state.types[i]? = some type) :
    ∃ declared, (Weave.declareAll doc₀ groups)[i]? = some declared
      ∧ declared.signature = type.signature ∧ declared.name = type.name
      ∧ type.declaration = ⟨doc₀.tree.nodes.size + i⟩
      ∧ Weave.declare? doc₀ ((Weave.declareAll doc₀ groups).take i) type.refs
        = some declared := by
  obtain ⟨declared, hdeclared, hsignature, hname, hrefs, hnode⟩ := h.declared_of_get htype
  have hone := Weave.declareAll_get hdeclared
  rw [hrefs] at hone
  exact ⟨declared, hdeclared, hsignature, hname, hnode, hone⟩

/-- Before any place as many types of a kind are recorded as were declared. -/
theorem Stage.countP_take {doc₀ : Document} {head : TokenId → Spelling} {pre : List Spelling}
    {types : List Declared} {done : List (Declared × Occurrence)} {state : Lowering}
    (h : Stage doc₀ head pre types done state) (kind : TextureKind) (i : Nat) :
    (types.take i).countP (·.signature.kind == kind)
      = (state.types.take i).countP (·.signature.kind = kind) := by
  have hkinds := congrArg (fun kinds => (List.take i kinds).countP (· == kind))
    (h.map_title (·.1.kind))
  rw [← List.map_take, ← List.map_take, List.countP_map, List.countP_map] at hkinds
  exact hkinds.symm

/-- **The lines that define a type**, when no other type has its name. -/
theorem Stage.definition {doc₀ : Document} {head : TokenId → Spelling}
    {types : List Declared} {done : List (Declared × Occurrence)} {state : Lowering}
    (h : Stage doc₀ head [] types done state) (h₀ : Loaded doc₀)
    (hnames : (types.map (·.name)).Nodup) {i : Nat} {declared : Declared}
    (hdeclared : types[i]? = some declared) :
    state.document.tree.preOrder.filter (state.document.definesType declared.name)
        = [⟨doc₀.tree.nodes.size + i⟩]
      ∧ state.document.spelling ⟨doc₀.tree.nodes.size + i⟩ = Weave.typeLine doc₀ declared := by
  have hlabel : ∀ k : Nat, (Weave.labels doc₀ [] types done)[k]?
      = (types.map (Weave.typeLine doc₀) ++ done.flatMap (Weave.useLines doc₀))[k]? :=
    fun _ => rfl
  have hlt := (List.getElem?_eq_some_iff.mp hdeclared).1
  have hline : (Weave.labels doc₀ [] types done)[i]? = some (Weave.typeLine doc₀ declared) := by
    rw [hlabel, List.getElem?_append_left (by simpa using hlt), List.getElem?_map, hdeclared]
    rfl
  -- the nodes put in are told by their labels: first the lines of the types, then those of the uses
  refine ⟨?_, h.fabric.spelling_eq hline⟩
  have hnodup := h.fabric.grown.forest.nodup_preOrder
  refine List.perm_singleton.mp ((List.perm_ext_iff_of_nodup (hnodup.filter _)
    (List.nodup_singleton _)).mpr fun x => ?_)
  rw [List.mem_filter, List.mem_singleton]
  unfold Document.definesType
  rw [Bool.and_eq_true, beq_iff_eq, ← and_assoc, h.fabric.mem_preOrder h₀]
  constructor
  · rintro ⟨⟨k, hk, rfl⟩, hdefines⟩
    have hget := List.getElem?_eq_getElem hk
    rw [h.fabric.spelling_eq hget] at hdefines
    rw [hlabel] at hget
    by_cases htypes : k < types.length
    · -- the line of a type, which has the name of the given one
      rw [List.getElem?_append_left (by simpa using htypes), List.getElem?_map,
        List.getElem?_eq_getElem htypes] at hget
      rw [← Option.some.inj hget, Weave.typeLine_definesType, beq_iff_eq] at hdefines
      have hname : (types.map (·.name))[k]? = (types.map (·.name))[i]? := by
        rw [List.getElem?_map, List.getElem?_map, List.getElem?_eq_getElem htypes, hdeclared]
        exact congrArg some hdefines
      rw [(List.getElem?_inj (by simpa using htypes) hnames).mp hname]
    · -- a line of a kernel
      rw [List.getElem?_append_right (by simpa using htypes)] at hget
      obtain ⟨use, -, hin⟩ := List.mem_flatMap.mp (List.mem_of_getElem? hget)
      rw [Weave.useLines_definesType hin] at hdefines
      simp at hdefines
  -- the node of the type itself
  · rintro rfl
    refine ⟨⟨i, (List.getElem?_eq_some_iff.mp hline).1, rfl⟩, ?_⟩
    rw [h.fabric.spelling_eq hline, Weave.typeLine_definesType, beq_self_eq_true]

/-- **Lowering that goes through** leaves a record of all textures of the file, by their keys. -/
theorem run_keyed [ContentHash] {config : Config} {source : String} {doc : Document}
    {state : Lowering} (hload : Document.load config source = .ok doc)
    (hrun : run doc = (.ok (), state)) : Keyed doc state := by
  have h₀ := Document.load_loaded hload
  have hstart : Fabric doc doc (Weave.weft doc (fun _ => []) [] []) [] [] :=
    (Fabric.start h₀).congr (Weave.weft_start doc _) rfl
  obtain ⟨groups, hgroups, hall, hstage⟩ := run_text h₀ hstart rfl hrun
  obtain ⟨found, hfound, hgrouped⟩ := Occurrence.discover_ok hgroups
  -- there is one type recorded for each group, in their order
  have hrefs : state.types.map (·.refs) = Occurrence.groupAll doc.tokens found := by
    rw [hstage.map_title (·.2.2), hall, hgrouped]
  have hperm := recorded_perm hrefs
  have hnames := Weave.names_nodup doc groups
  constructor
  case once =>
    intro id hid htexel
    rw [hperm.countP_eq]
    exact countP_keyword h₀ hfound hid fun use huse => htexel use (hperm.mem_iff.mpr huse)
  case only =>
    intro use huse
    have hmem := hperm.mem_iff.mp huse
    obtain ⟨token, hentry, hword⟩ := ((Occurrence.findAll_ok hfound).1 use hmem).own.keyword
    refine ⟨(isKeyword_iff h₀).mpr ⟨use.node, h₀.mem_candidates.mpr
      ((Occurrence.findAll_ok hfound).1 use hmem).searched, token, hentry, hword⟩, ?_⟩
    intro other hother
    exact keyword_notMem_texel h₀ hfound hmem (hperm.mem_iff.mp hother)
  case same =>
    intro i j type other htype hother use huse use' huse'
    exact index_eq_iff hrefs htype hother huse huse'
  case order => exact ⟨found, hfound, hperm, heads_eq hrefs⟩
  case earliest =>
    intro type htype
    obtain ⟨i, hi⟩ := List.getElem?_of_mem htype
    obtain ⟨declared, hdeclared, hsignature, hname, hnode, hone⟩ := hstage.declare_of_get hi
    obtain ⟨-, -, hkeyword, htexel, -⟩ := Weave.declare?_eq_some hone
    obtain ⟨-, hspelling⟩ := hstage.definition h₀ hnames hdeclared
    rw [hsignature] at hkeyword
    refine ⟨declared.first, Weave.declare?_earliest hone, hkeyword, ?_⟩
    rw [hnode, hspelling]
    unfold Weave.typeLine
    rw [hsignature, hname, htexel]
  case name =>
    intro i type htype
    obtain ⟨declared, -, hsignature, hname, -, hone⟩ := hstage.declare_of_get htype
    rw [← hname, (Weave.declare?_eq_some hone).2.2.2.2, hsignature, hstage.countP_take]
  case distinct =>
    rw [hstage.map_title (·.2.1)]
    exact hnames
  case defined =>
    intro type htype
    obtain ⟨i, hi⟩ := List.getElem?_of_mem htype
    obtain ⟨declared, hdeclared, -, hname, hnode, -⟩ := hstage.declare_of_get hi
    obtain ⟨hdefinition, -⟩ := hstage.definition h₀ hnames hdeclared
    rw [hname] at hdefinition
    rw [hnode, hdefinition]

/-- **A record by keys** is one by words if the hash keeps apart what is found. -/
theorem Keyed.recorded [ContentHash] {doc : Document} {state : Lowering} (h : Keyed doc state)
    (hapart : ∀ found, Occurrence.findAll doc = .ok found →
      ContentHash.Separates (found.map (Occurrence.spelled doc.tokens))) :
    Recorded doc state := by
  obtain ⟨found, hfound, hperm, horder⟩ := h.order
  have hmem : ∀ {type : TextureType} {use : Occurrence}, type ∈ state.types → use ∈ type.refs →
      use ∈ found := fun htype huse =>
    hperm.mem_iff.mp (List.mem_flatMap.mpr ⟨_, htype, huse⟩)
  have hwords : ∀ (i j : Nat) (type other : TextureType), state.types[i]? = some type →
      state.types[j]? = some other → ∀ use ∈ type.refs, ∀ use' ∈ other.refs,
        (i = j ↔ Occurrence.spelled doc.tokens use = Occurrence.spelled doc.tokens use') := by
    intro i j type other htype hother use huse use' huse'
    rw [h.same i j type other htype hother use huse use' huse']
    exact Occurrence.key_eq_iff hfound (hapart found hfound)
      (hmem (List.mem_of_getElem? htype) huse) (hmem (List.mem_of_getElem? hother) huse')
  -- the uses of a type have the words of the earliest
  have hfirst : ∀ type ∈ state.types, ∀ use ∈ type.refs, ∀ first,
      earliest? type.refs = some first →
        Occurrence.spelled doc.tokens use = Occurrence.spelled doc.tokens first := by
    intro type htype use huse first hearliest
    obtain ⟨i, hi⟩ := List.getElem?_of_mem htype
    exact (hwords i i type type hi hi use huse first (mem_of_earliest? hearliest)).mp rfl
  constructor
  case once => exact h.once
  case only => exact h.only
  case same =>
    intro i j type other htype hother use huse use' huse'
    rw [hwords i j type other htype hother use huse use' huse', Occurrence.spelled_eq_iff]
  case order => exact ⟨found, hfound, horder⟩
  case signature =>
    intro type htype use huse
    obtain ⟨first, hearliest, hkeyword, -⟩ := h.earliest type htype
    rw [(Occurrence.spelled_eq_iff.mp (hfirst type htype use huse first hearliest)).1, hkeyword]
  case name => exact h.name
  case distinct => exact h.distinct
  case definition =>
    intro type htype
    obtain ⟨first, hearliest, -, hspelling⟩ := h.earliest type htype
    refine ⟨h.defined type htype, fun use huse => ?_⟩
    rw [(Occurrence.spelled_eq_iff.mp (hfirst type htype use huse first hearliest)).2, hspelling]

/-- **Lowering that goes through** leaves a record of all textures of the file. -/
theorem run_recorded [ContentHash] {config : Config} {source : String} {doc : Document}
    {state : Lowering} (hload : Document.load config source = .ok doc)
    (hapart : ∀ found, Occurrence.findAll doc = .ok found →
      ContentHash.Separates (found.map (Occurrence.spelled doc.tokens)))
    (hrun : run doc = (.ok (), state)) : Recorded doc state :=
  (run_keyed hload hrun).recorded hapart

/-- A keyword that is the texel type of another one is no use of its own. -/
theorem run_recorded_keywordTexel :
    ∃ doc state, Document.load {} "void f(Texture2Du<Texture1Dn> a, Texture1Dn<float> b);" = .ok doc
      ∧ run doc = (.ok (), state)
      ∧ (∀ found, Occurrence.findAll doc = .ok found →
        ContentHash.Separates (found.map (Occurrence.spelled doc.tokens)))
      ∧ state.types.map (fun type => (type.name, type.texel, type.refs.length))
        = [("__TextureTypeName_0__", "Texture1Dn", 1), ("__TextureTypeName_1__", "float", 1)]
      ∧ Recorded doc state := by
  obtain ⟨doc, state, hload, hrun, heval⟩ := run_of_eval {}
    "void f(Texture2Du<Texture1Dn> a, Texture1Dn<float> b);"
    (fun doc state => (state.types.map fun type => (type.name, type.texel, type.refs.length),
      (Occurrence.findAll doc).toOption.map fun found =>
        decide (ContentHash.Separates (found.map (Occurrence.spelled doc.tokens)))))
    ([("__TextureTypeName_0__", "Texture1Dn", 1), ("__TextureTypeName_1__", "float", 1)],
      some true)
    (by decide +kernel)
  obtain ⟨htypes, hdecided⟩ := Prod.mk.inj heval
  have hapart : ∀ found, Occurrence.findAll doc = .ok found →
      ContentHash.Separates (found.map (Occurrence.spelled doc.tokens)) := by
    intro found hfound
    rw [hfound] at hdecided
    exact of_decide_eq_true (Option.some.inj hdecided)
  exact ⟨doc, state, hload, hrun, hapart, htypes, run_recorded hload hapart hrun⟩

end Lowering

end KernelPrep
