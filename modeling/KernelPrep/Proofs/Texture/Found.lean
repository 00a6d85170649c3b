/-
  KernelPrep.Proofs.Texture.Found — what is known of the uses that were found.

  A use is read off the own tokens of one node, so that all its tokens lie in the range of
  that node; and it reads kinds, texts and lines only, never the links of a token.

  Main definitions:
    * `Occurrence.Found` — a use as it is found in a document.

  Main statements:
    * `Loaded.mem_ownTokens_iff`    — which tokens a node has for itself;
    * `Occurrence.scanFrom_bare`    — links play no part;
    * `Occurrence.discover_found`   — all uses are as they should be.
-/
import KernelPrep.Proofs.Document.Ownership
import KernelPrep.Proofs.Step
import KernelPrep.Proofs.Texture.Scope
import KernelPrep.Proofs.Token.Splicing
import KernelPrep.Texture.Occurrence

namespace KernelPrep

open NodeTree (Below Forest root)
open Step (except_bind_ok mapError_ok)

/-! ## §1. Own tokens -/

/-- The range of a node is the stretch of the file between its places. -/
theorem Loaded.stretch {doc : Document} (h : Loaded doc) {node : NodeId}
    (hnode : doc.Plain node) :
    ∃ range, doc.tree.tokens? node = some range
      ∧ (doc.tokens.range range).Sublist doc.tokens.ids
      ∧ ∀ x, x ∈ doc.tokens.range range ↔ doc.start node ≤ x.index ∧ x.index ≤ doc.stop node := by
  obtain ⟨range, hrange, ⟨-, -, hstart⟩, hlast, hstop⟩ := h.range hnode.below hnode.ne_root
  have hle : range.first.index ≤ range.last.index := by
    rw [hstart, hstop]
    exact h.start_le_stop hnode.below hnode.ne_root
  obtain ⟨before, after, hsplit, -, hmem⟩ := h.unedited.range_eq hlast hle
  refine ⟨range, hrange, ?_, fun x => ?_⟩
  · rw [hsplit, List.append_assoc]
    exact (List.sublist_append_left _ _).trans (List.sublist_append_right _ _)
  · rw [hmem, hstart, hstop]

/-- The range of a child has its ends where its places are. -/
theorem Loaded.ends_of_child {doc : Document} (h : Loaded doc) {node child : NodeId}
    (hnode : doc.Plain node) (hchild : child ∈ doc.tree.children node) {range : TokenRange}
    (hrange : doc.tree.tokens? child = some range) :
    range.first.index = doc.start child ∧ range.last.index = doc.stop child := by
  obtain ⟨r, hr, ⟨-, -, hs⟩, -, he⟩ :=
    h.range (hnode.below.tail hchild) (h.forest.child_ne_root hchild)
  rw [hrange] at hr
  obtain rfl := Option.some.inj hr
  exact ⟨hs, he⟩

/-- The ranges of the children are ahead in the range of a node. -/
theorem Loaded.ahead {doc : Document} (h : Loaded doc) {node : NodeId}
    (hnode : doc.Plain node) {range : TokenRange}
    (hmem : ∀ x, x ∈ doc.tokens.range range
      ↔ doc.start node ≤ x.index ∧ x.index ≤ doc.stop node) :
    Document.Ahead TokenId.index (doc.tokens.range range) none
      ((doc.tree.children node).filterMap doc.tree.tokens?) := by
  have hsheltered := h.sheltered hnode.below hnode.ne_root
  constructor
  case stop => simp
  case beyond => simp
  case ends =>
    intro r hr
    obtain ⟨c, hc, hcr⟩ := List.mem_filterMap.mp hr
    obtain ⟨hs, he⟩ := h.ends_of_child hnode hc hcr
    have hnest : doc.start node ≤ doc.start c ∧ doc.stop c ≤ doc.stop node :=
      hsheltered.nested c hc
    -- a child lies within its parent, so that its ends are met
    have horder := h.start_le_stop (hnode.below.tail hc) (h.forest.child_ne_root hc)
    rw [hmem, hmem]
    omega
  case apart =>
    rw [List.pairwise_filterMap]
    refine hsheltered.apart.imp_of_mem fun {a b} ha hb hlt ra hra rb hrb => ?_
    rw [(h.ends_of_child hnode ha hra).2, (h.ends_of_child hnode hb hrb).1]
    exact hlt

/-- **The own tokens of a node** are the significant ones between its ends and outside of its
    children. -/
theorem Loaded.mem_ownTokens_iff {doc : Document} (h : Loaded doc) {node : NodeId}
    (hnode : doc.Plain node) {id : TokenId} :
    id ∈ doc.ownTokens node
      ↔ (doc.start node ≤ id.index ∧ id.index ≤ doc.stop node)
        ∧ doc.tokens.isSignificant id = true
        ∧ ∀ c ∈ doc.tree.children node, id.index < doc.start c ∨ doc.stop c < id.index := by
  obtain ⟨range, hrange, hsub, hmem⟩ := h.stretch hnode
  have hpair := h.unedited.pairwise_index.sublist hsub
  unfold Document.ownTokens
  rw [hrange]
  dsimp only
  rw [Document.mem_ownFrom_iff TokenId.index hpair (h.ahead hnode hmem), hmem]
  refine and_congr_right fun _ => and_congr_right fun _ => ?_
  rw [and_iff_right (by simp)]
  constructor
  · intro hout c hc
    obtain ⟨r, hr, -⟩ := h.range (hnode.below.tail hc) (h.forest.child_ne_root hc)
    rw [← (h.ends_of_child hnode hc hr).1, ← (h.ends_of_child hnode hc hr).2]
    exact hout r (List.mem_filterMap.mpr ⟨c, hc, hr⟩)
  · intro hout r hr
    obtain ⟨c, hc, hcr⟩ := List.mem_filterMap.mp hr
    rw [(h.ends_of_child hnode hc hcr).1, (h.ends_of_child hnode hc hcr).2]
    exact hout c hc

/-- The own tokens of a node lie between its first token and its last. -/
theorem Loaded.mem_ownTokens {doc : Document} (h : Loaded doc) {node : NodeId}
    (hnode : doc.Plain node) {id : TokenId} (hid : id ∈ doc.ownTokens node) :
    id ∈ doc.tokens.ids ∧ doc.start node ≤ id.index ∧ id.index ≤ doc.stop node := by
  obtain ⟨range, hrange, hsub, hmem⟩ := h.stretch hnode
  unfold Document.ownTokens at hid
  rw [hrange] at hid
  have hin := (Document.ownFrom_sublist _ _ _ _).subset hid
  exact ⟨hsub.subset hin, (hmem id).mp hin⟩

/-- Own tokens come in the order of the file. -/
theorem Loaded.ownTokens_pairwise {doc : Document} (h : Loaded doc) {node : NodeId}
    (hnode : doc.Plain node) : (doc.ownTokens node).Pairwise fun a b => a.index < b.index := by
  obtain ⟨range, hrange, hsub, -⟩ := h.stretch hnode
  unfold Document.ownTokens
  rw [hrange]
  exact (h.unedited.pairwise_index.sublist hsub).sublist (Document.ownFrom_sublist _ _ _ _)

/-- **No token is the own token of two nodes.** -/
theorem Loaded.ownTokens_disjoint {doc : Document} (h : Loaded doc) {a b : NodeId}
    (ha : doc.Plain a) (hb : doc.Plain b) (hne : a ≠ b) {id : TokenId}
    (hid : id ∈ doc.ownTokens a) : id ∉ doc.ownTokens b := by
  -- a token of the lower node is inside of a child of the upper one
  have hbelow : ∀ {a b}, doc.Plain a → doc.Plain b → a ≠ b → Below doc.tree.children a b →
      id ∈ doc.ownTokens a → id ∉ doc.ownTokens b := by
    intro a b ha hb hne hbelow hid hid'
    rcases Relation.ReflTransGen.cases_head hbelow with he | ⟨c, hc, hcb⟩
    · exact hne he
    have hnest : doc.start c ≤ doc.start b ∧ doc.stop b ≤ doc.stop c :=
      h.placed.nested_below (ha.below.tail hc) hcb
    obtain ⟨-, hlow, hhigh⟩ := h.mem_ownTokens hb hid'
    rcases ((h.mem_ownTokens_iff ha).mp hid).2.2 c hc with hlt | hlt
    · omega
    · omega
  intro hid'
  obtain ⟨-, hlow, hhigh⟩ := h.mem_ownTokens ha hid
  obtain ⟨-, hlow', hhigh'⟩ := h.mem_ownTokens hb hid'
  rcases h.placed.laminar ha.below hb.below with hab | hba | hlt | hlt
  · exact hbelow ha hb hne hab hid hid'
  · exact hbelow hb ha (Ne.symm hne) hba hid' hid
  · omega
  · omega

/-- Nodes that are searched are plain ones, and neither functions nor blocks. -/
theorem Loaded.plain_of_searched {doc : Document} (h : Loaded doc) {node : NodeId}
    (hnode : (doc.tree.kind? node).any Occurrence.isSearched = true) :
    doc.Plain node ∧ doc.tree.kind? node ≠ some .functionDefn
      ∧ doc.tree.kind? node ≠ some .statementBlock := by
  cases hkind : doc.tree.kind? node with
  | none => simp [hkind] at hnode
  | some kind =>
    rw [hkind, Option.any_some] at hnode
    have hother : ∀ other, Occurrence.isSearched other = false → kind ≠ other := by
      rintro other hfalse rfl
      rw [hnode] at hfalse
      exact Bool.noConfusion hfalse
    exact ⟨h.plain_of_kind? hkind (hother _ rfl) (hother _ rfl), by simpa using hother _ rfl,
      by simpa using hother _ rfl⟩

/-! ## §2. Reading without links -/

namespace Occurrence

/-- A token without its place and links. -/
def bare (entry : TokenId × Token) : TokenId × Token :=
  (entry.1, { kind := entry.2.kind, text := entry.2.text, line := entry.2.line })

/-- A texel type is read without looking at links. -/
theorem texelType_bare (keyword : String) (tokens : List (TokenId × Token)) :
    texelType keyword (tokens.map bare) = texelType keyword tokens := by
  -- no more than four tokens are looked at
  rcases tokens with _ | ⟨angle, _ | ⟨word, _ | ⟨word', _ | ⟨close, rest⟩⟩⟩⟩ <;> rfl

/-- A parameter is read without looking at links. -/
theorem paramFrom_bare (tokens : List (TokenId × Token)) (depth : Nat) (param : Param) :
    paramFrom depth param (tokens.map bare) = paramFrom depth param tokens := by
  induction tokens generalizing depth param with
  | nil => rfl
  | cons entry rest ih =>
    obtain ⟨id, token⟩ := entry
    simp only [List.map_cons, bare, paramFrom, ih]

/-- The name of a parameter is read without looking at links. -/
theorem paramName_bare (keyword : String) (tokens : List (TokenId × Token)) :
    paramName keyword (tokens.map bare) = paramName keyword tokens := by
  cases tokens with
  | nil => rfl
  | cons entry rest => simp only [List.map_cons, bare, paramName, paramFrom_bare]

/-- **The uses in a node** do not depend on the links of its tokens. -/
theorem scanFrom_bare (doc : Document) (node : NodeId) (isParams : Bool)
    (tokens : List (TokenId × Token)) (skip : Nat) :
    scanFrom doc node isParams skip (tokens.map bare)
      = scanFrom doc node isParams skip tokens := by
  induction tokens generalizing skip with
  | nil => cases skip <;> rfl
  | cons entry rest ih =>
    obtain ⟨id, token⟩ := entry
    cases skip with
    | succ skip => exact ih skip
    | zero =>
      -- a use is read from the kinds and texts ahead, and not from their links
      have hread : ∀ kind, read doc node isParams kind id (bare (id, token)).2 (rest.map bare)
          = read doc node isParams kind id token rest := by
        intro kind
        unfold read
        simp only [bare, texelType_bare, ← List.map_drop, paramName_bare]
      have hsig : signature? (bare (id, token)).2 = signature? token := rfl
      rw [List.map_cons]
      show scanFrom doc node isParams 0 ((id, (bare (id, token)).2) :: rest.map bare) = _
      unfold scanFrom
      rw [hsig]
      cases signature? token with
      | none => exact ih 0
      | some signature =>
        dsimp only
        rw [hread]
        simp only [ih]

/-- Of the document, only the context of a parameter list is looked at. -/
theorem scanFrom_congr {doc doc' : Document} {node : NodeId}
    (h : paramContext doc' node = paramContext doc node) (isParams : Bool)
    (tokens : List (TokenId × Token)) (skip : Nat) :
    scanFrom doc' node isParams skip tokens = scanFrom doc node isParams skip tokens := by
  have hread : ∀ kind id keyword rest, read doc' node isParams kind id keyword rest
      = read doc node isParams kind id keyword rest := by
    intro kind id keyword rest
    unfold read
    rw [h]
  induction tokens generalizing skip with
  | nil => cases skip <;> rfl
  | cons entry rest ih =>
    cases skip with
    | succ skip => exact ih skip
    | zero =>
      unfold scanFrom
      simp only [hread, ih]

/-! ## §3. What is read -/

/-- The sign that ends a texel type. -/
theorem closeAngle_ok {keyword : String} {words : List (TokenId × Token)}
    {rest : List (TokenId × Token)} {tail : TypeTail}
    (h : closeAngle keyword (words.map (·.1)) rest = .ok tail) :
    ∃ close more, rest = close :: more ∧ close.2.kind = .greater
      ∧ tail = ⟨words.map (·.1), close.1, words.length + 2⟩ := by
  cases rest with
  | nil => simp [closeAngle] at h
  | cons entry more =>
    obtain ⟨id, token⟩ := entry
    simp only [closeAngle] at h
    split at h
    · rename_i hkind
      obtain rfl := Except.ok.inj h
      exact ⟨_, more, rfl, hkind, by simp⟩
    · simp at h

/-- **A texel type** is one or two symbols in angle brackets. -/
theorem texelType_ok {keyword : String} {tokens : List (TokenId × Token)} {tail : TypeTail}
    (h : texelType keyword tokens = .ok tail) :
    ∃ angle words close rest, tokens = angle :: (words ++ close :: rest)
      ∧ angle.2.kind = .less ∧ words ≠ [] ∧ (∀ word ∈ words, word.2.kind = .symbol)
      ∧ close.2.kind = .greater
      ∧ tail = ⟨words.map (·.1), close.1, words.length + 2⟩ := by
  rcases tokens with _ | ⟨angle, _ | ⟨⟨id, word⟩, rest⟩⟩
  · simp [texelType] at h
  · simp only [texelType] at h
    split at h <;> simp at h
  · simp only [texelType] at h
    split at h
    · simp at h
    rename_i hless
    have hless : angle.2.kind = .less := by simpa using hless
    split at h
    · simp at h
    rename_i hword
    have hword : word.kind = .symbol := by simpa using hword
    split at h
    · -- a word for the sign has another one behind it
      split at h
      · simp at h
      rename_i id' word' more
      split at h
      · simp at h
      rename_i hword'
      have hword' : word'.kind = .symbol := by simpa using hword'
      split at h
      · simp at h
      obtain ⟨close, rest, rfl, hgreater, htail⟩ :=
        @closeAngle_ok _ [(id, word), (id', word')] _ _ h
      refine ⟨angle, [(id, word), (id', word')], close, rest, rfl, hless, by simp, ?_, hgreater,
        htail⟩
      simp [hword, hword']
    -- a word of any other spelling is the whole type
    · obtain ⟨close, rest, rfl, hgreater, htail⟩ := @closeAngle_ok _ [(id, word)] _ _ h
      refine ⟨angle, [(id, word)], close, rest, rfl, hless, by simp, ?_, hgreater, htail⟩
      simp [hword]

/-- What holds of a parameter when it starts, when it takes a symbol for its name and when it
    goes on with a token holds in the end. -/
theorem paramFrom_keeps {P : Param → Prop} {tokens : List (TokenId × Token)}
    (hnamed : ∀ entry ∈ tokens, entry.2.kind = .symbol → P ⟨entry.1, entry.2.text, entry.1⟩)
    (honward : ∀ entry ∈ tokens, ∀ param, P param → P { param with last := entry.1 })
    {depth : Nat} {param : Param} (h : P param) : P (paramFrom depth param tokens) := by
  induction tokens generalizing depth param with
  | nil => exact h
  | cons entry rest ih =>
    have ih : ∀ {depth param}, P param → P (paramFrom depth param rest) := fun h =>
      ih (fun e he => hnamed e (List.mem_cons_of_mem _ he))
        (fun e he => honward e (List.mem_cons_of_mem _ he)) h
    obtain ⟨id, token⟩ := entry
    -- every token either ends the declarator, or is its last, or names it
    have hmove := honward (id, token) List.mem_cons_self param h
    unfold paramFrom
    dsimp only
    split
    · exact ih hmove
    · exact ih hmove
    · split
      · exact h
      · exact ih hmove
    · split
      · exact h
      · exact ih hmove
    · split
      · exact h
      · exact ih hmove
    · rename_i hsymbol
      split
      · exact ih (hnamed (id, token) List.mem_cons_self hsymbol)
      · exact ih hmove
    · exact ih hmove

/-- **The parameter behind a type** ends with a token ahead and takes a symbol for its name. -/
theorem paramName_ok {keyword : String} {tokens : List (TokenId × Token)} {param : Param}
    (h : paramName keyword tokens = .ok param) :
    param.last ∈ tokens.map (·.1)
      ∧ ∃ entry ∈ tokens, entry.2.kind = .symbol ∧ entry.2.text = param.text := by
  cases tokens with
  | nil => simp [paramName] at h
  | cons entry rest =>
    obtain ⟨id, token⟩ := entry
    simp only [paramName] at h
    split at h
    · rename_i hsymbol
      obtain rfl := Except.ok.inj h
      refine paramFrom_keeps (P := fun param => param.last ∈ ((id, token) :: rest).map (·.1)
        ∧ ∃ entry ∈ (id, token) :: rest, entry.2.kind = .symbol ∧ entry.2.text = param.text)
        (fun entry hentry hkind => ?_) (fun entry hentry param hparam => ?_) ?_
      · have hin := List.mem_cons_of_mem (id, token) hentry
        exact ⟨List.mem_map_of_mem hin, entry, hin, hkind, rfl⟩
      · exact ⟨List.mem_map_of_mem (List.mem_cons_of_mem _ hentry), hparam.2⟩
      · exact ⟨List.mem_cons_self, (id, token), List.mem_cons_self, hsymbol, rfl⟩
    · simp at h

/-- The parameters of a kernel definition are in its parameter list. -/
theorem paramContext_ok {doc : Document} {node function : NodeId} {name : String}
    (h : paramContext doc node = .ok (.kernelParam function name true)) :
    doc.tree.parent? node = some function ∧ doc.tree.kind? function = some .functionDefn := by
  unfold paramContext at h
  split at h
  · simp at h
  · rename_i parent hparent
    split at h
    · split at h
      · simp only [Except.ok.injEq, Context.kernelParam.injEq] at h
        obtain ⟨rfl, -, hkind⟩ := h
        exact ⟨hparent, by simpa using hkind⟩
      · simp at h
    · simp at h

/-- The use was read off the given tokens of a node. -/
structure From (doc : Document) (place : NodeId) (isParams : Bool)
    (entries : List (TokenId × Token)) (o : Occurrence) : Prop where
  node : o.node = place
  keyword : ∃ token, (o.keyword, token) ∈ entries ∧ (signature? token).isSome = true
  stop : o.stop = o.keyword ∨ [o.keyword, o.stop].Sublist (entries.map (·.1))
  texel : ∀ id ∈ o.texel, ∃ token, (id, token) ∈ entries ∧ token.kind = .symbol
  param : ∀ param, o.param? = some param →
    [o.keyword, param.last].Sublist (entries.map (·.1))
  named : ∀ function name definition, o.context = .kernelParam function name definition →
    o.param?.isSome = true
  definition : ∀ function name, o.context = .kernelParam function name true →
    isParams = true ∧ doc.tree.parent? place = some function
      ∧ doc.tree.kind? function = some .functionDefn

/-- A use that was read off some tokens was read off more. -/
theorem From.mono {doc : Document} {node : NodeId} {isParams : Bool}
    {entries entries' : List (TokenId × Token)} {o : Occurrence}
    (h : From doc node isParams entries o) (hsub : entries.Sublist entries') :
    From doc node isParams entries' o where
  node := h.node
  keyword := by
    obtain ⟨token, hmem, hsig⟩ := h.keyword
    exact ⟨token, hsub.subset hmem, hsig⟩
  stop := h.stop.imp_right fun hs => hs.trans (hsub.map _)
  texel id hid := by
    obtain ⟨token, hmem, hkind⟩ := h.texel id hid
    exact ⟨token, hsub.subset hmem, hkind⟩
  param := fun param hparam => (h.param param hparam).trans (hsub.map _)
  named := h.named
  definition := h.definition

/-- **What a use is read from**: a type behind the keyword, and in a parameter list the name and
    the context of the parameter. -/
theorem read_inv {doc : Document} {node : NodeId} {isParams : Bool} {kind : TextureKind}
    {id : TokenId} {keyword : Token} {rest : List (TokenId × Token)} {o : Occurrence} {n : Nat}
    (h : read doc node isParams kind id keyword rest = .ok (o, n)) :
    ∃ tail : TypeTail, n = tail.length
      ∧ (kind = .texture ∧ texelType keyword.text rest = .ok tail
        ∨ kind = .surface ∧ tail = ⟨[], id, 0⟩)
      ∧ (o = ⟨kind, node, keyword.line, id, tail.texel, tail.stop, .declaration, none⟩
        ∨ isParams = true ∧ ∃ param context,
          paramName keyword.text (rest.drop tail.length) = .ok param
          ∧ paramContext doc node = .ok context
          ∧ o = ⟨kind, node, keyword.line, id, tail.texel, tail.stop, context, some param⟩) := by
  unfold read at h
  extract_lets onward at h
  -- the type comes first, and is empty behind the keyword of a surface
  obtain ⟨tail, htail, h⟩ : ∃ tail : TypeTail,
      (kind = .texture ∧ texelType keyword.text rest = .ok tail
        ∨ kind = .surface ∧ tail = ⟨[], id, 0⟩) ∧ onward tail = .ok (o, n) := by
    cases kind with
    | texture =>
      obtain ⟨tail, htail, h⟩ := except_bind_ok.mp h
      exact ⟨tail, Or.inl ⟨rfl, mapError_ok.mp htail⟩, h⟩
    | surface => exact ⟨_, Or.inr ⟨rfl, rfl⟩, h⟩
  simp only [onward] at h
  split at h
  · rename_i hparams
    obtain ⟨param, hparam, h⟩ := except_bind_ok.mp h
    obtain ⟨context, hcontext, h⟩ := except_bind_ok.mp h
    obtain ⟨rfl, rfl⟩ := Prod.mk.inj (Except.ok.inj h)
    exact ⟨tail, rfl, htail,
      Or.inr ⟨hparams, param, context, mapError_ok.mp hparam, hcontext, rfl⟩⟩
  · obtain ⟨rfl, rfl⟩ := Prod.mk.inj (Except.ok.inj h)
    exact ⟨tail, rfl, htail, Or.inl rfl⟩

/-- The words of a texel type are symbols behind the keyword. -/
theorem texelType_words {keyword : String} {rest : List (TokenId × Token)} {tail : TypeTail}
    (h : texelType keyword rest = .ok tail) {x : TokenId} (hx : x ∈ tail.texel) :
    ∃ token, (x, token) ∈ rest ∧ token.kind = .symbol := by
  obtain ⟨angle, words, close, more, rfl, -, -, hwords, -, rfl⟩ := texelType_ok h
  obtain ⟨word, hword, rfl⟩ := List.mem_map.mp hx
  exact ⟨word.2, by simp [hword], hwords word hword⟩

/-- The tokens that a texel type takes: all symbols among them are texel words. -/
theorem texelType_take {keyword : String} {rest : List (TokenId × Token)} {tail : TypeTail}
    (h : texelType keyword rest = .ok tail) :
    tail.stop ∈ rest.map (·.1) ∧ tail.texel.Sublist ((rest.take tail.length).map (·.1))
      ∧ ∀ entry ∈ rest.take tail.length, entry.2.kind = .symbol → entry.1 ∈ tail.texel := by
  obtain ⟨angle, words, close, more, rfl, hless, -, -, hgreater, rfl⟩ := texelType_ok h
  have htake : (angle :: (words ++ close :: more)).take (words.length + 2)
      = angle :: (words ++ [close]) := by
    simp [List.take_append]
  dsimp only
  rw [htake]
  refine ⟨by simp, ?_, ?_⟩
  · rw [List.map_cons, List.map_append]
    exact (List.sublist_append_left _ _).cons _
  · intro entry hentry hkind
    rcases List.mem_cons.mp hentry with rfl | hentry
    · simp [hless] at hkind
    rcases List.mem_append.mp hentry with hin | hin
    · exact List.mem_map_of_mem hin
    · rw [List.mem_singleton.mp hin, hgreater] at hkind
      simp at hkind

/-- **A use at a keyword** and the tokens behind the keyword that its type takes. -/
theorem read_ok {doc : Document} {node : NodeId} {isParams : Bool} {kind : TextureKind}
    {id : TokenId} {keyword : Token} {rest : List (TokenId × Token)} {o : Occurrence} {n : Nat}
    (hsig : (signature? keyword).isSome = true)
    (h : read doc node isParams kind id keyword rest = .ok (o, n)) :
    From doc node isParams ((id, keyword) :: rest) o ∧ o.keyword = id
      ∧ o.texel.Sublist ((rest.take n).map (·.1))
      ∧ ∀ entry ∈ rest.take n, entry.2.kind = .symbol → entry.1 ∈ o.texel := by
  obtain ⟨tail, rfl, htail, hplace⟩ := read_inv h
  have hbehind : ∀ {x}, x ∈ rest.map (·.1) →
      [id, x].Sublist (((id, keyword) :: rest).map (·.1)) := fun hx =>
    (List.singleton_sublist.mpr hx).cons_cons id
  have hkeyword : ∃ token, (id, token) ∈ (id, keyword) :: rest
      ∧ (signature? token).isSome = true := ⟨keyword, List.mem_cons_self, hsig⟩
  obtain ⟨hstop, htexel, hsymbol⟩ : (tail.stop = id ∨ tail.stop ∈ rest.map (·.1))
      ∧ tail.texel.Sublist ((rest.take tail.length).map (·.1))
      ∧ ∀ entry ∈ rest.take tail.length, entry.2.kind = .symbol → entry.1 ∈ tail.texel := by
    -- the tail is an angle bracket with words, or nothing at all
    rcases htail with ⟨-, htexel⟩ | ⟨-, rfl⟩
    · exact ⟨Or.inr (texelType_take htexel).1, (texelType_take htexel).2⟩
    · exact ⟨Or.inl rfl, by simp, by simp⟩
  have hin : ∀ x ∈ tail.texel, ∃ token, (x, token) ∈ (id, keyword) :: rest
      ∧ token.kind = .symbol := by
    intro x hx
    rcases htail with ⟨-, htype⟩ | ⟨-, rfl⟩
    · obtain ⟨token, hmem, hkind⟩ := texelType_words htype hx
      exact ⟨token, List.mem_cons_of_mem _ hmem, hkind⟩
    · simp at hx
  have hstop := hstop.imp_right hbehind
  rcases hplace with rfl | ⟨hparams, param, context, hparam, hcontext, rfl⟩
  · exact ⟨⟨rfl, hkeyword, hstop, hin, by simp, by simp, by simp⟩, rfl, htexel, hsymbol⟩
  · have hlast := (paramName_ok hparam).1
    rw [List.map_drop] at hlast
    refine ⟨⟨rfl, hkeyword, hstop, hin, ?_, fun _ _ _ _ => rfl, ?_⟩, rfl, htexel, hsymbol⟩
    · intro param' he
      obtain rfl := Option.some.inj he
      exact hbehind (List.mem_of_mem_drop hlast)
    · rintro function name rfl
      exact ⟨hparams, paramContext_ok hcontext⟩

/-! ## §4. What is found -/

/-- The handles that a use takes as words: its keyword and its texel type. -/
def words (o : Occurrence) : List TokenId := o.keyword :: o.texel

/-- **The uses among the tokens of a node** are read off different tokens from left to right,
    and no keyword is missed. -/
theorem scanFrom_ok {doc : Document} {node : NodeId} {isParams : Bool}
    {entries : List (TokenId × Token)} {skip : Nat} {found : List Occurrence}
    (h : scanFrom doc node isParams skip entries = .ok found) :
    (∀ o ∈ found, From doc node isParams entries o)
      ∧ (found.flatMap words).Sublist ((entries.drop skip).map (·.1))
      ∧ ∀ entry ∈ entries.drop skip, (signature? entry.2).isSome = true →
        entry.1 ∈ found.flatMap words := by
  induction entries generalizing skip found with
  | nil =>
    have hnil : found = [] := by
      cases skip <;> exact (Except.ok.inj h).symm
    simp [hnil]
  | cons entry rest ih =>
    obtain ⟨id, token⟩ := entry
    have hrest : ∀ {skip found}, scanFrom doc node isParams skip rest = .ok found →
        ∀ o ∈ found, From doc node isParams ((id, token) :: rest) o :=
      fun hscan o ho => ((ih hscan).1 o ho).mono (List.sublist_cons_self _ _)
    cases skip with
    | succ skip => exact ⟨hrest h, (ih h).2⟩
    | zero =>
      -- an entry is passed over, or it is a keyword whose use takes the next `n` entries as well
      unfold scanFrom at h
      split at h
      · rename_i hnone
        obtain ⟨-, hsub, hall⟩ := ih h
        refine ⟨hrest h, hsub.cons _, ?_⟩
        intro entry hentry hsig
        rcases List.mem_cons.mp hentry with rfl | hentry
        · simp [hnone] at hsig
        · exact hall entry hentry hsig
      · rename_i signature hsome
        obtain ⟨⟨o, n⟩, hread, h⟩ := except_bind_ok.mp h
        obtain ⟨os, hscan, h⟩ := except_bind_ok.mp h
        obtain rfl := Except.ok.inj h
        obtain ⟨hfrom, hkey, htexel, hsymbol⟩ := read_ok (by simp [hsome]) hread
        obtain ⟨-, hsub, hall⟩ := ih hscan
        have hsplit : rest = rest.take n ++ rest.drop n := (List.take_append_drop n rest).symm
        refine ⟨?_, ?_, ?_⟩
        · intro o' ho'
          rcases List.mem_cons.mp ho' with rfl | ho'
          · exact hfrom
          · exact hrest hscan o' ho'
        · have htokens : (((id, token) :: rest).drop 0).map (·.1)
              = id :: ((rest.take n).map (·.1) ++ (rest.drop n).map (·.1)) := by
            rw [← List.map_append, ← hsplit]
            rfl
          rw [htokens, List.flatMap_cons]
          unfold words at hsub ⊢
          rw [hkey]
          exact (htexel.append hsub).cons_cons id
        · intro entry hentry hsig
          rw [List.flatMap_cons, List.mem_append]
          rcases List.mem_cons.mp hentry with rfl | hentry
          · exact Or.inl (by simp [words, hkey])
          · rw [hsplit] at hentry
            rcases List.mem_append.mp hentry with hin | hin
            · -- a keyword among the entries of the use is its texel type
              have hkind : entry.2.kind = .symbol := by
                unfold signature? at hsig
                by_contra hne
                simp [hne] at hsig
              exact Or.inl (List.mem_cons_of_mem _ (hsymbol entry hin hkind))
            · exact Or.inr (hall entry hin hsig)

/-- The own tokens of a node. -/
def entries (doc : Document) (node : NodeId) : List (TokenId × Token) :=
  (doc.ownTokens node).filterMap fun id => (doc.tokens.get? id).map (id, ·)

/-- The entries of a node are its own tokens. -/
theorem mem_entries {doc : Document} {node : NodeId} {entry : TokenId × Token} :
    entry ∈ entries doc node
      ↔ entry.1 ∈ doc.ownTokens node ∧ doc.tokens.get? entry.1 = some entry.2 := by
  unfold entries
  rw [List.mem_filterMap]
  constructor
  · rintro ⟨id, hid, he⟩
    obtain ⟨token, htoken, rfl⟩ := Option.map_eq_some_iff.mp he
    exact ⟨hid, htoken⟩
  · rintro ⟨hid, htoken⟩
    exact ⟨entry.1, hid, by rw [htoken]; rfl⟩

/-- The entries come in the order of the own tokens. -/
theorem entries_sublist (doc : Document) (node : NodeId) :
    ((entries doc node).map (·.1)).Sublist (doc.ownTokens node) := by
  unfold entries
  induction doc.ownTokens node with
  | nil => exact List.Sublist.refl _
  | cons id rest ih =>
    rw [List.filterMap_cons]
    cases doc.tokens.get? id with
    | none => exact ih.cons id
    | some token => exact ih.cons_cons id

/-- A use as it is found in a document. -/
structure Found (doc : Document) (o : Occurrence) : Prop where
  searched : (doc.tree.kind? o.node).any isSearched = true
  own : From doc o.node (doc.tree.kind? o.node == some .functionParams) (entries doc o.node) o

namespace Found

variable {doc : Document} {o : Occurrence}

/-- The keyword is an own token of the node. -/
theorem keyword_mem (h : Found doc o) : o.keyword ∈ doc.ownTokens o.node := by
  obtain ⟨token, hmem, -⟩ := h.own.keyword
  exact (mem_entries.mp hmem).1

/-- The texel type is made of own tokens of the node. -/
theorem texel_mem (h : Found doc o) {x : TokenId} (hx : x ∈ o.texel) :
    x ∈ doc.ownTokens o.node := by
  obtain ⟨token, hmem, -⟩ := h.own.texel x hx
  exact (mem_entries.mp hmem).1

/-- The keyword and the words of the texel type are symbols. -/
theorem word_symbol (h : Found doc o) {x : TokenId} (hx : x ∈ o.words) :
    ∃ token, doc.tokens.get? x = some token ∧ token.kind = .symbol := by
  rcases List.mem_cons.mp hx with rfl | hx
  · obtain ⟨token, hmem, hsig⟩ := h.own.keyword
    refine ⟨token, (mem_entries.mp hmem).2, ?_⟩
    unfold signature? at hsig
    by_contra hne
    rw [if_neg hne] at hsig
    simp at hsig
  · obtain ⟨token, hmem, hkind⟩ := h.own.texel x hx
    exact ⟨token, (mem_entries.mp hmem).2, hkind⟩

/-- A use reads forward. -/
theorem forward (h : Found doc o) (h₀ : Loaded doc) :
    o.keyword.index ≤ o.stop.index
      ∧ ∀ param, o.param? = some param → o.keyword.index < param.last.index := by
  have hplain := (h₀.plain_of_searched h.searched).1
  have hpair := (h₀.ownTokens_pairwise hplain).sublist (entries_sublist doc o.node)
  have hbehind : ∀ {x}, [o.keyword, x].Sublist ((entries doc o.node).map (·.1)) →
      o.keyword.index < x.index := fun hsub =>
    (List.pairwise_cons.mp (hpair.sublist hsub)).1 _ List.mem_cons_self
  refine ⟨?_, fun param hparam => hbehind (h.own.param param hparam)⟩
  rcases h.own.stop with he | hsub
  · rw [he]
  · exact Nat.le_of_lt (hbehind hsub)

/-- The word of the keyword says what the type is. -/
theorem signature (h : Found doc o) :
    ∃ signature, Signature.ofKeyword? (doc.tokens.textOf o.keyword) = some signature := by
  obtain ⟨token, hmem, hsig⟩ := h.own.keyword
  unfold signature? at hsig
  split at hsig
  · rw [TokenList.textOf_of_get? (mem_entries.mp hmem).2]
    exact Option.isSome_iff_exists.mp hsig
  · simp at hsig

end Found

/-- All uses in a document, in the order in which they are found. -/
def findAll (doc : Document) : Except PassError (List Occurrence) := do
  return (← (candidates doc).mapM (scan doc)).flatten

/-- The uses by group, in the order of the first of each. -/
def groupAll [ContentHash] (list : TokenList) (found : List Occurrence) : List (List Occurrence) :=
  found.foldl (fun groups o => addToGroup list o groups) []

/-- Discovering is finding and grouping. -/
theorem discover_eq [ContentHash] (doc : Document) :
    discover doc = (findAll doc).map (groupAll doc.tokens) := by
  unfold discover findAll
  cases (candidates doc).mapM (scan doc) with
  | error e => rfl
  | ok found => rfl

/-- The nodes searched so far and what was found in them. -/
theorem mapM_scan_ok {doc : Document} {nodes : List NodeId} {found : List (List Occurrence)}
    (hnodes : ∀ node ∈ nodes, node ∈ candidates doc) (h : nodes.mapM (scan doc) = .ok found) :
    (∀ o ∈ found.flatten, Found doc o)
      ∧ (found.flatten.flatMap words).Sublist (nodes.flatMap doc.ownTokens)
      ∧ ∀ node ∈ nodes, ∀ entry ∈ entries doc node, (signature? entry.2).isSome = true →
        entry.1 ∈ found.flatten.flatMap words := by
  induction nodes generalizing found with
  | nil =>
    obtain rfl : found = [] := (Except.ok.inj h).symm
    simp
  | cons node rest ih =>
    rw [List.mapM_cons] at h
    obtain ⟨first, hfirst, h⟩ := except_bind_ok.mp h
    obtain ⟨more, hmore, h⟩ := except_bind_ok.mp h
    obtain rfl := Except.ok.inj h
    obtain ⟨hfound, hsub, hall⟩ := ih (fun x hx => hnodes x (List.mem_cons_of_mem _ hx)) hmore
    -- what is found in the first node, and in those behind it
    obtain ⟨hfound', hsub', hall'⟩ := scanFrom_ok hfirst
    rw [List.drop_zero] at hsub' hall'
    rw [List.flatten_cons, List.flatMap_append, List.flatMap_cons]
    refine ⟨?_, (hsub'.trans (entries_sublist doc node)).append hsub, ?_⟩
    · intro o ho
      rcases List.mem_append.mp ho with ho | ho
      · have hfrom := hfound' o ho
        obtain rfl := hfrom.node
        exact ⟨(List.mem_filter.mp (hnodes _ List.mem_cons_self)).2, hfrom⟩
      · exact hfound o ho
    · intro x hx entry hentry hsig
      rcases List.mem_cons.mp hx with rfl | hx
      · exact List.mem_append_left _ (hall' entry hentry hsig)
      · exact List.mem_append_right _ (hall x hx entry hentry hsig)

/-- **The uses of a document** are read off different own tokens of the nodes searched, and no
    keyword among them is missed. -/
theorem findAll_ok {doc : Document} {found : List Occurrence} (h : findAll doc = .ok found) :
    (∀ o ∈ found, Found doc o)
      ∧ (found.flatMap words).Sublist ((candidates doc).flatMap doc.ownTokens)
      ∧ ∀ node ∈ candidates doc, ∀ entry ∈ entries doc node,
        (signature? entry.2).isSome = true → entry.1 ∈ found.flatMap words := by
  unfold findAll at h
  obtain ⟨lists, hlists, h⟩ := except_bind_ok.mp h
  obtain rfl := Except.ok.inj h
  exact mapM_scan_ok (fun _ hn => hn) hlists

end Occurrence

end KernelPrep
