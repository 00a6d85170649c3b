/-
  KernelPrep.Proofs.Texture.Remnant — what the uses leave of a node.

  A use takes tokens of its own node and the nodes between them.  A statement or a type
  definition keeps its other tokens.  A kernel parameter takes what is behind its type up to
  the `,` or `)` that ends the parameter, and counts parentheses and brackets to find it, but
  not braces: it never takes the parenthesis behind the list, but it may take a brace and leave
  its counterpart.

  Main definitions:
    * `Branch.own`           — the leaves among the parts of a node;
    * `Occurrence.left`      — what the uses leave between the parentheses of a parameter list;
    * `Occurrence.inHeading` — a use between the word for an aggregate and its braces;
    * `Document.Tidy`        — the uses leave a file that can be read again.

  Main statements:
    * `Document.HasNode.ownTokens_eq` — own tokens are the leaves among the parts, in order;
    * `Document.HasNode.own_cut`, `Document.HasNode.child_cut` — a use that takes a part of a
      node is one in the node, or takes all of it;
    * `Occurrence.LaidOut.closer_uncut` — no use takes the end of a parameter list.
-/
import KernelPrep.Proofs.Outline.Nesting
import KernelPrep.Proofs.Texture.Cuts

namespace KernelPrep

open NodeTree (Below)
open Branch (leavesAll nodesAll)
open Step (except_bind_ok)

/-! ## §1. Own tokens in order -/

/-- Handles in order are told by which they are. -/
theorem TokenId.eq_of_ascending {ids ids' : List TokenId}
    (h : ids.Pairwise fun a b => a.index < b.index)
    (h' : ids'.Pairwise fun a b => a.index < b.index) (hmem : ∀ id, id ∈ ids ↔ id ∈ ids') :
    ids = ids' := by
  have hnodup : ∀ {ids : List TokenId}, (ids.Pairwise fun a b => a.index < b.index) →
      ids.Nodup := fun hids => hids.imp fun hlt he => by
    rw [he] at hlt
    exact Nat.lt_irrefl _ hlt
  exact ((List.perm_ext_iff_of_nodup (hnodup h) (hnodup h')).mpr hmem).eq_of_pairwise
    (fun a b _ _ hab hba => absurd hab (Nat.lt_asymm hba)) h h'

namespace Branch

/-- The leaves among the parts. -/
def own (parts : List Branch) : List Leaf :=
  parts.filterMap fun
    | .leaf x => some x
    | .node _ _ => none

/-- The own leaves of parts are those that stand among them directly. -/
theorem mem_own {parts : List Branch} {x : Leaf} : x ∈ own parts ↔ .leaf x ∈ parts := by
  unfold own
  rw [List.mem_filterMap]
  constructor
  · rintro ⟨part, hpart, hx⟩
    cases part with
    | leaf y =>
      obtain rfl := Option.some.inj hx
      exact hpart
    | node kind inside => simp at hx
  · intro hx
    exact ⟨.leaf x, hx, rfl⟩

theorem own_map_leaf (leaves : List Leaf) : own (leaves.map .leaf) = leaves := by
  unfold own
  rw [List.filterMap_map]
  exact List.filterMap_some

/-- Own leaves come in the order of all leaves. -/
theorem own_sublist (parts : List Branch) : (own parts).Sublist (leavesAll parts) := by
  unfold own
  induction parts with
  | nil => simp
  | cons part parts ih =>
    cases part with
    | leaf x => simpa using ih
    | node kind inside =>
      rw [leavesAll_cons]
      exact ih.trans (List.sublist_append_right _ _)

end Branch

namespace Document.HasNode

variable {doc : Document} {branches parts : List Branch} {n : NodeId} {kind : NodeKind}
  {o : Occurrence} {x : Leaf}

/-- **The own tokens of a node** are the leaves among its parts, in order. -/
theorem ownTokens_eq (h : doc.HasNode branches n kind parts) (hplain : doc.Plain n) :
    doc.ownTokens n = (Branch.own parts).map (·.id) := by
  have hpair := h.loaded.ownTokens_pairwise hplain
  have hpair' : ((Branch.own parts).map (·.id)).Pairwise fun a b => a.index < b.index :=
    List.pairwise_map.mpr
      ((h.branched.ascends.stretch h.stretch).sublist (Branch.own_sublist parts))
  refine TokenId.eq_of_ascending hpair hpair' fun id => ?_
  rw [h.owns_iff hplain, List.mem_map]
  simp only [Branch.mem_own]

/-- So are the entries that are searched. -/
theorem entries_kinds (h : doc.HasNode branches n kind parts) (hplain : doc.Plain n) :
    (Occurrence.entries doc n).map (fun entry => (entry.1, entry.2.kind))
      = (Branch.own parts).map fun x => (x.id, x.kind) := by
  unfold Occurrence.entries
  rw [h.ownTokens_eq hplain, List.filterMap_map, List.map_filterMap]
  rw [← List.filterMap_eq_map]
  refine List.filterMap_congr fun x hx => ?_
  have hleaf := h.stretch.subset (Branch.mem_leavesAll_of_leaf (Branch.mem_own.mp hx))
  obtain ⟨token, htoken, hkind, -⟩ := TokenList.get?_of_kind? (TokenList.leaf_token hleaf).2.1
  simp [htoken, hkind]

/-! ## §2. Parts that go with a use -/

/-- **A node that begins behind the keyword** of a use goes with it as a whole. -/
theorem covers_of_start (h : doc.HasNode branches n kind parts) (ho : Occurrence.Found doc o)
    (hlow : o.keyword.index < doc.start n) (hhigh : doc.start n ≤ (Weave.cut o).last.index) :
    o.Covers doc n := by
  have horder := h.loaded.start_le_stop h.below h.ne_root
  rcases h.cut_cases ho with hin | ⟨-, hcovers⟩ | hlt | hlt
  · have hnest : doc.start n ≤ doc.start o.node ∧ doc.stop o.node ≤ doc.stop n :=
      h.loaded.placed.nested_below h.below hin
    have hkey := (Weave.cut_between h.loaded ho).1.2
    omega
  · exact hcovers
  · omega
  · omega

/-- **An own leaf that a use takes** goes with the whole node, or the use is one in the node. -/
theorem own_cut (h : doc.HasNode branches n kind parts) (hx : .leaf x ∈ parts)
    (ho : Occurrence.Found doc o) (hlow : o.keyword.index < x.id.index)
    (hhigh : x.id.index ≤ (Weave.cut o).last.index) : o.node = n ∨ o.Covers doc n := by
  have hplace := h.between (Branch.mem_leavesAll_of_leaf hx)
  rcases h.cut_cases ho with hin | ⟨-, hcovers⟩ | hlt | hlt
  · rcases Relation.ReflTransGen.cases_head hin with he | ⟨c, hc, hcn⟩
    · exact .inl he.symm
    have hnest : doc.start c ≤ doc.start o.node ∧ doc.stop o.node ≤ doc.stop c :=
      h.loaded.placed.nested_below (h.below.tail hc) hcn
    obtain ⟨⟨-, hkey⟩, -, hlast⟩ := Weave.cut_between h.loaded ho
    have haway := h.outside hx hc
    omega
  · exact .inr hcovers
  · omega
  · omega

/-- **A child that a use takes** goes with the whole node, or the use is one in the node. -/
theorem child_cut (h : doc.HasNode branches n kind parts) {c : NodeId}
    (hc : c ∈ doc.tree.children n) (ho : Occurrence.Found doc o) (hcovers : o.Covers doc c) :
    o.node = n ∨ o.Covers doc n := by
  obtain ⟨kind', inside, -, hchild⟩ := h.part hc
  have horder := h.loaded.start_le_stop hchild.below hchild.ne_root
  have hsh := h.loaded.sheltered h.below h.ne_root
  have hwithin : doc.start n ≤ doc.start c ∧ doc.stop c ≤ doc.stop n := hsh.nested c hc
  obtain ⟨⟨-, hkey⟩, -, hlast⟩ := Weave.cut_between h.loaded ho
  obtain ⟨hlow, hhigh⟩ := hcovers
  rcases h.cut_cases ho with hin | ⟨-, hcovers⟩ | hlt | hlt
  · rcases Relation.ReflTransGen.cases_head hin with he | ⟨d, hd, hdn⟩
    · exact .inl he.symm
    -- the use is in another child, which is apart from this one
    have hnest : doc.start d ≤ doc.start o.node ∧ doc.stop o.node ≤ doc.stop d :=
      h.loaded.placed.nested_below (h.below.tail hd) hdn
    by_cases hsame : d = c
    · subst hsame
      omega
    · have hsymm : Std.Symm fun a b => doc.stop a < doc.start b ∨ doc.stop b < doc.start a :=
        ⟨fun _ _ => Or.symm⟩
      have hapart := (hsh.apart.imp fun {a b} (hlt : doc.stop a < doc.start b) =>
        (Or.inl hlt : _ ∨ doc.stop b < doc.start a)).forall hd hc hsame
      omega
  · exact .inr hcovers
  · omega
  · omega

/-- The keyword of a use is an own leaf of the node of the use alone. -/
theorem node_of_keyword (h : doc.HasNode branches n kind parts) (hx : .leaf x ∈ parts)
    (ho : Occurrence.Found doc o) (hkey : o.keyword = x.id) : o.node = n := by
  obtain ⟨kind', parts', hnode, -, ⟨y, hy, hyx⟩, -⟩ := ho.hasNode h.loaded h.branched
  rw [hkey] at hyx
  have hsame : y = x := h.branched.ascends.eq_of_id
    (hnode.stretch.subset (Branch.mem_leavesAll_of_leaf hy))
    (h.stretch.subset (Branch.mem_leavesAll_of_leaf hx)) hyx
  subst hsame
  exact (hnode.owns hy).unique (h.owns hx)

end Document.HasNode

/-! ## §3. The end of a parameter list -/

namespace Occurrence

/-- The delimiters to be closed that a parameter counts: it does not look at braces. -/
def counted (pending : List TokenKind) : Nat :=
  pending.countP fun kind => kind == .rparen || kind == .rbracket

/-- One step of nesting opens a group, closes one, or does neither. -/
theorem counted_nest {pending pending' : List TokenKind} {kind : TokenKind}
    (h : Outline.nest pending kind = .ok pending') :
    (kind = .lparen ∨ kind = .lbracket → counted pending' = counted pending + 1)
      ∧ (kind = .rparen ∨ kind = .rbracket → counted pending = counted pending' + 1)
      ∧ (kind ∉ [.lparen, .lbracket, .rparen, .rbracket] →
        counted pending' = counted pending) := by
  unfold counted
  rcases Outline.nest_ok h with ⟨hplain, rfl⟩ | ⟨closer, hopens, rfl⟩ | ⟨hcloses, rfl⟩
  · refine ⟨?_, ?_, fun _ => rfl⟩ <;> rintro (rfl | rfl) <;> exact Bool.noConfusion hplain
  · cases kind <;> simp [TokenKind.closer?] at hopens <;> subst hopens <;> simp
  · cases kind <;> simp [TokenKind.isCloser] at hcloses <;> simp

/-- **A parameter does not take the parenthesis behind the list**: what it counts as open is
    among the delimiters that are, and these are closed before. -/
theorem paramFrom_closer {tokens : List (TokenId × Token)} {closer : TokenId × Token}
    (hcloser : closer.2.kind = .rparen) {pending : List TokenKind} {depth : Nat} {param : Param}
    (hnest : (tokens.map (·.2.kind)).foldlM Outline.nest pending = .ok [])
    (hdepth : depth ≤ counted pending) :
    paramFrom depth param (tokens ++ [closer]) = paramFrom depth param tokens := by
  induction tokens generalizing pending depth param with
  | nil =>
    obtain rfl : pending = [] := Except.ok.inj hnest
    obtain rfl : depth = 0 := Nat.le_zero.mp hdepth
    rw [List.nil_append]
    unfold paramFrom
    rw [hcloser]
    rfl
  | cons entry rest ih =>
    obtain ⟨id, token⟩ := entry
    rw [List.map_cons, List.foldlM_cons] at hnest
    obtain ⟨pending', hstep, hrest⟩ := except_bind_ok.mp hnest
    obtain ⟨hopens, hcloses, hother⟩ := counted_nest hstep
    -- both sides pass the token on with one depth, which stays below the number of open ones
    rw [List.cons_append]
    unfold paramFrom
    dsimp only at hopens hcloses hother ⊢
    split
    · rename_i hkind
      exact ih hrest (by have := hopens (.inl hkind); omega)
    · rename_i hkind
      exact ih hrest (by have := hopens (.inr hkind); omega)
    · rename_i hkind
      have hone := hcloses (.inl hkind)
      split
      · rfl
      · exact ih hrest (by omega)
    · rename_i hkind
      have hone := hcloses (.inr hkind)
      split
      · rfl
      · exact ih hrest (by omega)
    · rename_i hkind
      have hsame := hother (by simp [hkind])
      split
      · rfl
      · exact ih hrest (by omega)
    · rename_i hkind
      have hsame := hother (by simp [hkind])
      split
      · exact ih hrest (Nat.zero_le _)
      · exact ih hrest (by omega)
    · rename_i hlparen hlbracket hrparen hrbracket _ _
      have hsame := hother (by
        simpa using ⟨hlparen, hlbracket, hrparen, hrbracket⟩)
      exact ih hrest (by omega)

/-- So does the parameter behind a type. -/
theorem paramName_closer {keyword : String} {tokens : List (TokenId × Token)}
    {closer : TokenId × Token} (hcloser : closer.2.kind = .rparen) {pending : List TokenKind}
    (hnest : (tokens.map (·.2.kind)).foldlM Outline.nest pending = .ok []) :
    paramName keyword (tokens ++ [closer]) = paramName keyword tokens := by
  cases tokens with
  | nil => simp [paramName, hcloser]
  | cons entry rest =>
    obtain ⟨id, token⟩ := entry
    rw [List.map_cons, List.foldlM_cons] at hnest
    obtain ⟨pending', -, hrest⟩ := except_bind_ok.mp hnest
    simp only [List.cons_append, paramName, paramFrom_closer hcloser hrest (Nat.zero_le _)]

namespace LaidOut

variable {doc : Document} {branches parts : List Branch} {kind : NodeKind} {o : Occurrence}
  {before type rest : List (TokenId × Token)} {token : Token} {x : Leaf}

/-- A keyword is a symbol. -/
theorem keyword_kind (h : LaidOut doc o before token type rest) (hx : x ∈ doc.tokens.leaves)
    (hkey : o.keyword = x.id) : x.kind = .symbol := by
  have hentry : (o.keyword, token) ∈ Occurrence.entries doc o.node := by
    rw [h.entries]
    simp
  have hkind := (TokenList.leaf_token hx).2.1
  rw [← hkey, TokenList.kind?_of_get? (mem_entries.mp hentry).2] at hkind
  rw [← Option.some.inj hkind]
  exact h.word

/-- The own tokens of a parameter list end behind the type of a use. -/
theorem rest_closer (h : LaidOut doc o before token type rest) {opener closer : Leaf}
    {inner : List Leaf} (ho : Found doc o)
    (hnode : doc.HasNode branches o.node .functionParams
      ((opener :: (inner ++ [closer])).map .leaf)) (hcloser : closer.kind = .rparen) :
    ∃ front last, rest = front ++ [last] ∧ last.1 = closer.id ∧ last.2.kind = .rparen
      ∧ (before ++ (o.keyword, token) :: (type ++ front)).map (fun entry => entry.2.kind)
        = (opener :: inner).map (·.kind) := by
  obtain ⟨hplain, -⟩ := hnode.loaded.plain_of_searched ho.searched
  have hkinds := hnode.entries_kinds hplain
  rw [Branch.own_map_leaf, h.entries] at hkinds
  change _ = ((opener :: inner) ++ [closer]).map _ at hkinds
  -- the last token and the others
  have hends : ∀ front last, before ++ (o.keyword, token) :: (type ++ rest) = front ++ [last] →
      (last.1 = closer.id ∧ last.2.kind = .rparen)
        ∧ front.map (fun entry => entry.2.kind) = (opener :: inner).map (·.kind) := by
    intro front last hsplit
    rw [hsplit, List.map_append, List.map_append] at hkinds
    obtain ⟨hfront, hlast⟩ := List.append_inj' hkinds rfl
    obtain ⟨hid, hkind⟩ := Prod.mk.inj (List.singleton_inj.mp hlast)
    refine ⟨⟨hid, hkind.trans hcloser⟩, ?_⟩
    have hkinds := congrArg (List.map Prod.snd) hfront
    rwa [List.map_map, List.map_map] at hkinds
  rcases List.eq_nil_or_concat' rest with rfl | ⟨front, last, rfl⟩
  · -- no token of a type is a parenthesis
    obtain ⟨front, last, hsplit⟩ :=
      (List.eq_nil_or_concat' ((o.keyword, token) :: type)).resolve_left
      (List.cons_ne_nil _ _)
    obtain ⟨⟨-, hkind⟩, -⟩ := hends (before ++ front) last (by
      rw [List.append_nil, hsplit, List.append_assoc])
    have hmem : last ∈ (o.keyword, token) :: type := by
      rw [hsplit]
      simp
    rcases List.mem_cons.mp hmem with rfl | hmem
    · rw [h.word] at hkind
      exact TokenKind.noConfusion hkind
    · have hin := h.kinds last hmem
      rw [hkind] at hin
      simp at hin
  · obtain ⟨⟨hid, hkind⟩, hfront⟩ := hends (before ++ (o.keyword, token) :: (type ++ front)) last
      (by simp)
    exact ⟨front, last, rfl, hid, hkind, hfront⟩

/-- **No use takes the end of a parameter list.** -/
theorem closer_uncut (h : LaidOut doc o before token type rest) {opener closer : Leaf}
    {inner : List Leaf} (ho : Found doc o)
    (hnode : doc.HasNode branches o.node .functionParams
      ((opener :: (inner ++ [closer])).map .leaf))
    (hopener : opener.kind = .lparen) (hcloser : closer.kind = .rparen)
    (hinner : Outline.Nested inner) : (Weave.cut o).last ≠ closer.id := by
  intro hlast
  obtain ⟨front, last, rfl, hid, hkind, hkinds⟩ := h.rest_closer ho hnode hcloser
  have hpair := (List.pairwise_append.mp (h.pairwise hnode.loaded ho)).2.1
  rw [List.map_append] at hpair
  obtain ⟨-, hrest, htype⟩ := List.pairwise_append.mp hpair
  rcases h.cut_last with ⟨-, hstop⟩ | ⟨-, param, hparam, hend⟩
  · -- a type ends before the parenthesis
    have hmem := List.mem_of_getLast? h.stop
    rw [List.map_cons] at hmem
    have hlt := htype o.stop hmem last.1 (by simp)
    rw [hid, ← hlast, hstop] at hlt
    exact Nat.lt_irrefl _ hlt
  · -- what is pending behind the type is closed before the parenthesis
    cases before with
    | nil =>
      have hword : token.kind = opener.kind := (List.cons.inj hkinds).1
      rw [hopener, h.word] at hword
      exact TokenKind.noConfusion hword
    | cons first before =>
      have hsame : (before ++ (o.keyword, token) :: (type ++ front)).map (fun entry => entry.2.kind)
          = inner.map (·.kind) := (List.cons.inj hkinds).2
      have hnest : (inner.map (·.kind)).foldlM Outline.nest [] = .ok [] := by
        rw [List.foldlM_map]
        exact hinner.nestAll []
      have hsplit : before ++ (o.keyword, token) :: (type ++ front)
          = (before ++ (o.keyword, token) :: type) ++ front := by
        simp
      rw [← hsame, hsplit, List.map_append, List.foldlM_append] at hnest
      obtain ⟨pending, -, hfront⟩ := except_bind_ok.mp hnest
      rw [paramName_closer hkind hfront] at hparam
      have hlt := (List.pairwise_append.mp hrest).2.2 _ (paramName_ok hparam).1 last.1 (by simp)
      rw [hid, ← hlast, hend] at hlt
      exact Nat.lt_irrefl _ hlt

end LaidOut

/-! ## §4. What has to be left -/

/-- The tokens between the parentheses of a parameter list that no use takes up. -/
def left (doc : Document) (found : List Occurrence) (n : NodeId) : List TokenId :=
  (doc.ownTokens n).tail.dropLast.filter fun id =>
    !found.any fun use => (doc.tokens.range (Weave.cut use)).contains id

/-- The delimiters that the uses leave in a parameter list are nested. -/
def leavesNested (doc : Document) (found : List Occurrence) (n : NodeId) : Bool :=
  match ((left doc found n).filterMap doc.tokens.kind?).foldlM Outline.nest [] with
  | .ok [] => true
  | _ => false

theorem foldlM_left {doc : Document} {found : List Occurrence} {n : NodeId}
    (h : leavesNested doc found n = true) :
    ((left doc found n).filterMap doc.tokens.kind?).foldlM Outline.nest [] = .ok [] := by
  unfold leavesNested at h
  split at h
  · assumption
  · exact Bool.noConfusion h

/-- What is left, by the leaves between the parentheses. -/
theorem left_kinds {doc : Document} {branches : List Branch} {found : List Occurrence}
    {n : NodeId} {opener closer : Leaf} {inner : List Leaf}
    (h : doc.HasNode branches n .functionParams ((opener :: (inner ++ [closer])).map .leaf)) :
    (left doc found n).filterMap doc.tokens.kind?
      = (inner.filter fun x => !found.any fun use =>
          (doc.tokens.range (Weave.cut use)).contains x.id).map (·.kind) := by
  have hplain := h.loaded.plain_of_kind? h.kind? (by simp) (by simp)
  unfold left
  rw [h.ownTokens_eq hplain, Branch.own_map_leaf, List.map_cons, List.tail_cons, List.map_append,
    List.map_singleton, List.dropLast_concat, List.filter_map, List.filterMap_map,
    ← List.filterMap_eq_map]
  refine List.filterMap_congr fun x hx => ?_
  have hmem : x ∈ opener :: (inner ++ [closer]) := by simp [(List.mem_filter.mp hx).1]
  have hleaf := h.stretch.subset (Branch.mem_leavesAll_of_leaf (List.mem_map_of_mem hmem))
  exact (TokenList.leaf_token hleaf).2.1

/-- The token is a word that begins the definition of an aggregate. -/
def isAggregateWord (doc : Document) (id : TokenId) : Bool :=
  doc.tokens.kind? id == some .struct || Outline.aggregateWords.contains (doc.tokens.textOf id)

/-- The use has a texel type and stands, in a construct at file scope, between the word for an
    aggregate and the first braces. -/
def inHeading (doc : Document) (use : Occurrence) : Bool :=
  use.keyword != use.stop && doc.tree.container? use.node == some use.node
    && (doc.ownTokens use.node).any (fun id =>
      decide (id.index < use.keyword.index) && isAggregateWord doc id)
    && !(doc.tree.children use.node).isEmpty
    && (doc.tree.children use.node).all fun child =>
      (doc.tree.tokens? child).all fun range => decide (use.keyword.index < range.first.index)

end Occurrence

/-- **The uses leave a file that can be read again**: no name of a type runs into the word
    behind it, no type stands in the heading of an aggregate, and the delimiters of parameter
    lists stay nested. -/
structure Document.Tidy (doc : Document) (found : List Occurrence) : Prop where
  apart : ∀ use ∈ found, use.runsOn doc = false
  outside : ∀ use ∈ found, use.inHeading doc = false
  nested : ∀ n ∈ Occurrence.candidates doc, doc.tree.kind? n = some .functionParams →
    Occurrence.leavesNested doc found n = true

instance (doc : Document) (found : List Occurrence) : Decidable (doc.Tidy found) :=
  decidable_of_iff ((∀ use ∈ found, use.runsOn doc = false)
      ∧ (∀ use ∈ found, use.inHeading doc = false)
      ∧ ∀ n ∈ Occurrence.candidates doc, doc.tree.kind? n = some .functionParams →
        Occurrence.leavesNested doc found n = true)
    ⟨fun ⟨hapart, houtside, hnested⟩ => ⟨hapart, houtside, hnested⟩,
      fun h => ⟨h.apart, h.outside, h.nested⟩⟩

end KernelPrep
