/-
  KernelPrep.Proofs.Texture.Reach — what lies between a keyword and the end of its type.

  A type is matched against the own tokens of a node, from which its children are left out, but
  a use that becomes a name takes all tokens of the file from its keyword to the end of the type.
  The two differ where a child of the node stands between two tokens that were matched: it is in
  braces, and it goes as a whole.

  Main definitions:
    * `Occurrence.between` — the significant tokens from the keyword to the end of the type;
    * `Occurrence.Reading` — a use with the tokens that were matched;
    * `Occurrence.Takes`   — what a use takes, all in all.

  Main statements:
    * `Occurrence.Reading.own_between`    — of the own tokens, just those matched lie between;
    * `Occurrence.Reading.between_cases`  — what else lies between is in a child;
    * `Occurrence.Reading.between_eq_iff` — nothing else does unless there is an opening brace;
    * `Lowering.run_removes`              — lowering removes what uses take;
    * `Occurrence.discover_reach`         — the uses of a document.
-/
import KernelPrep.Proofs.Texture.Declarator
import KernelPrep.Proofs.Texture.DefinedFirst

namespace KernelPrep

open Occurrence.Grammar (TypeOf Recorded)

namespace Occurrence

/-! ## §1. Uses with their tokens -/

/-- The significant tokens from the keyword to the end of the type. -/
def between (doc : Document) (o : Occurrence) : List TokenId :=
  (doc.tokens.range ⟨o.keyword, o.stop⟩).filter doc.tokens.isSignificant

/-- A use that becomes a name, with the tokens that were matched: the keyword and its type. -/
structure Reading (doc : Document) (branches : List Branch) (found : List Occurrence)
    (o : Occurrence) (word : TokenId × Token) (type : List (TokenId × Token)) : Prop where
  loaded : Loaded doc
  branched : Outline.Branched doc.tokens doc.tree doc.tree.children branches
  finds : findAll doc = .ok found
  mem : o ∈ found
  named : o.isNamed = true
  recorded : Recorded o.node word o.kind type o
  typed : TypeOf o.kind type
  symbol : word.2.kind = .symbol
  stretch : word :: type <:+: entries doc o.node

/-- **Every use** outside of the parameters of kernels has been matched. -/
theorem exists_reading {config : Config} {source : String} {doc : Document}
    {found : List Occurrence} {o : Occurrence} (hload : Document.load config source = .ok doc)
    (hfound : findAll doc = .ok found) (ho : o ∈ found) (hnamed : o.isNamed = true) :
    ∃ branches word type, Reading doc branches found o word type := by
  have h₀ := Document.load_loaded hload
  have hreads := (TokenList.lex_reads (Document.load_ok hload).1).1
  obtain ⟨branches, hbranched⟩ := exists_branches hload
  obtain ⟨hall, hscan⟩ := findAll_eq hfound
  rw [hall] at ho
  obtain ⟨node, hnode, ho'⟩ := List.mem_flatMap.mp ho
  have hcontext : (doc.tree.kind? node == some .functionParams) = true →
      ∃ context, paramContext doc node = .ok context :=
    fun hparams => h₀.exists_paramContext hreads (by simpa using hparams)
  obtain ⟨word, signature, type, behind, hat, hwell, hrecorded, -⟩ :=
    Grammar.readAt_of_scanFrom hcontext (hscan node hnode) ho'
  obtain rfl := hrecorded.node
  -- what the scan has passed is in front of the keyword
  obtain ⟨before, hsplit⟩ := hat.reaches.suffix
  have hkind := hrecorded.kind
  rw [← hkind] at hrecorded hwell
  refine ⟨branches, word, type, h₀, hbranched, hfound, hall ▸ ho, hnamed, hrecorded, hwell.type, ?_,
    before, behind, by rw [List.append_assoc, List.cons_append]; exact hsplit⟩
  by_contra hne
  have hsignature := hat.signature
  simp [signature?, hne] at hsignature

theorem significant_of_lbrace {list : TokenList} {id : TokenId}
    (h : list.kind? id = some .lbrace) : list.isSignificant id = true := by
  unfold TokenList.isSignificant
  rw [h]
  rfl

namespace Reading

variable {doc : Document} {branches : List Branch} {found : List Occurrence} {o : Occurrence}
  {word : TokenId × Token} {type : List (TokenId × Token)} {id : TokenId}

theorem use (h : Reading doc branches found o word type) : Found doc o :=
  (findAll_ok h.finds).1 o h.mem

theorem cut_eq (h : Reading doc branches found o word type) :
    Weave.cut o = ⟨o.keyword, o.stop⟩ := by
  obtain ⟨_, _, _, _, hlaid⟩ := findAll_laidOut h.finds h.mem
  rcases hlaid.cut_last with ⟨-, hlast⟩ | ⟨hunnamed, -⟩
  · rw [← hlast, ← Weave.cut_first o]
  · exact Bool.noConfusion (h.named.symm.trans hunnamed)

theorem mem_between (h : Reading doc branches found o word type) :
    id ∈ between doc o ↔ (o.keyword.index ≤ id.index ∧ id.index ≤ o.stop.index)
      ∧ doc.tokens.isSignificant id = true := by
  unfold between
  rw [List.mem_filter, ← h.cut_eq, Weave.mem_cut_iff h.loaded h.use, h.cut_eq]

/-- The tokens between the ends of a cut are in the order of the file. -/
theorem between_pairwise (h : Reading doc branches found o word type) :
    (between doc o).Pairwise fun a b => a.index < b.index := by
  obtain ⟨-, hlast, -⟩ := Weave.cut_between h.loaded h.use
  rw [h.cut_eq] at hlast
  obtain ⟨before, after, hsplit, -⟩ :=
    h.loaded.unedited.range_eq hlast (h.use.forward h.loaded).1
  have hpair := h.loaded.unedited.pairwise_index
  rw [hsplit] at hpair
  exact ((List.pairwise_append.mp (List.pairwise_append.mp hpair).1).2.1).sublist
    List.filter_sublist

/-- The tokens matched are own ones of the node, one behind the other. -/
theorem own_split (h : Reading doc branches found o word type) :
    ∃ before behind, doc.ownTokens o.node
      = before ++ ((word :: type).map (·.1) ++ behind) := by
  obtain ⟨kind, parts, hnode, -⟩ := h.use.hasNode h.loaded h.branched
  obtain ⟨hplain, -⟩ := h.loaded.plain_of_searched h.use.searched
  obtain ⟨before, behind, hsplit⟩ := h.stretch
  refine ⟨before.map (·.1), behind.map (·.1), ?_⟩
  rw [← Grammar.entries_ids hnode hplain, ← hsplit]
  simp

/-- **Of the own tokens** of the node, just those matched lie between. -/
theorem own_between (h : Reading doc branches found o word type)
    (hown : id ∈ doc.ownTokens o.node) :
    id ∈ between doc o ↔ id ∈ (word :: type).map (·.1) := by
  obtain ⟨hplain, -⟩ := h.loaded.plain_of_searched h.use.searched
  obtain ⟨before, behind, hsplit⟩ := h.own_split
  have hpair := h.loaded.ownTokens_pairwise hplain
  rw [hsplit] at hpair hown
  -- own tokens before the keyword are not reached, nor are those behind the last one taken
  obtain ⟨-, hrest, hbefore⟩ := List.pairwise_append.mp hpair
  obtain ⟨hmatched, -, hbehind⟩ := List.pairwise_append.mp hrest
  have hkeyword : o.keyword ∈ (word :: type).map (·.1) := by
    rw [h.recorded.keyword]
    exact List.mem_cons_self
  have hstop := List.mem_of_getLast? h.recorded.stop
  rw [h.mem_between]
  constructor
  · rintro ⟨⟨hlow, hhigh⟩, -⟩
    rcases List.mem_append.mp hown with hin | hin
    · have hlt := hbefore id hin o.keyword (List.mem_append_left _ hkeyword)
      omega
    rcases List.mem_append.mp hin with hin | hin
    · exact hin
    · have hlt := hbehind _ hstop id hin
      omega
  · intro hin
    refine ⟨⟨?_, ?_⟩, ?_⟩
    · rw [h.recorded.keyword]
      rcases List.mem_cons.mp hin with rfl | hin
      · exact Nat.le_refl _
      · exact Nat.le_of_lt ((List.pairwise_cons.mp hmatched).1 id hin)
    · obtain ⟨front, hfront⟩ := List.getLast?_eq_some_iff.mp h.recorded.stop
      rw [hfront] at hin hmatched
      rcases List.mem_append.mp hin with hin | hin
      · exact Nat.le_of_lt ((List.pairwise_append.mp hmatched).2.2 id hin _ List.mem_cons_self)
      · rw [List.mem_singleton.mp hin]
    · exact Document.HasNode.significant_of_own (hsplit ▸ hown)

theorem own_of_matched (h : Reading doc branches found o word type)
    (hid : id ∈ (word :: type).map (·.1)) : id ∈ doc.ownTokens o.node := by
  obtain ⟨before, behind, hsplit⟩ := h.own_split
  rw [hsplit]
  exact List.mem_append_right _ (List.mem_append_left _ hid)

/-- So they are what is left of those between, when other tokens are left out. -/
theorem filter_own (h : Reading doc branches found o word type) :
    (between doc o).filter (· ∈ doc.ownTokens o.node) = (word :: type).map (·.1) := by
  obtain ⟨hplain, -⟩ := h.loaded.plain_of_searched h.use.searched
  obtain ⟨before, behind, hsplit⟩ := h.own_split
  have hpair := h.loaded.ownTokens_pairwise hplain
  rw [hsplit] at hpair
  refine TokenId.eq_of_ascending (h.between_pairwise.sublist List.filter_sublist)
    (List.pairwise_append.mp (List.pairwise_append.mp hpair).2.1).1 fun id => ?_
  rw [List.mem_filter, decide_eq_true_eq]
  constructor
  · rintro ⟨hin, hown⟩
    exact (h.own_between hown).mp hin
  · intro hid
    exact ⟨(h.own_between (h.own_of_matched hid)).mpr hid, h.own_of_matched hid⟩

/-- The tokens matched are words and angle brackets. -/
theorem matched_kinds (h : Reading doc branches found o word type)
    (hid : id ∈ (word :: type).map (·.1)) :
    ∃ kind ∈ [TokenKind.symbol, .less, .greater], doc.tokens.kind? id = some kind := by
  obtain ⟨entry, hentry, rfl⟩ := List.mem_map.mp hid
  refine ⟨entry.2.kind, ?_, TokenList.kind?_of_get?
    (mem_entries.mp (h.stretch.subset hentry)).2⟩
  rcases List.mem_cons.mp hentry with rfl | hin
  · simp [h.symbol]
  · exact h.typed.kinds entry hin

/-! ## §2. What else lies between -/

/-- **What else lies between** is in a child of the node, which goes as a whole. -/
theorem between_cases (h : Reading doc branches found o word type) (hid : id ∈ between doc o) :
    id ∈ (word :: type).map (·.1) ∨ ∃ child ∈ doc.tree.children o.node, o.Covers doc child
      ∧ doc.start child ≤ id.index ∧ id.index ≤ doc.stop child := by
  obtain ⟨hplain, -⟩ := h.loaded.plain_of_searched h.use.searched
  obtain ⟨kind, parts, hnode, -, ⟨key, hkey, hkeyword⟩, last, hlast, hend⟩ :=
    h.use.hasNode h.loaded h.branched
  obtain ⟨⟨hlow, hhigh⟩, hsignificant⟩ := h.mem_between.mp hid
  have hend : last.id = o.stop := by rw [hend, h.cut_eq]
  have hids : id ∈ doc.tokens.ids := by
    obtain ⟨-, hlast, -⟩ := Weave.cut_between h.loaded h.use
    rw [h.cut_eq, h.loaded.unedited.mem_ids_iff] at hlast
    exact h.loaded.unedited.mem_ids_iff.mpr (Nat.lt_of_le_of_lt hhigh hlast)
  have hfirst := hnode.between (Branch.mem_leavesAll_of_leaf hkey)
  have hstop := hnode.between (Branch.mem_leavesAll_of_leaf hlast)
  rw [hkeyword] at hfirst
  rw [hend] at hstop
  obtain ⟨x, hx, rfl⟩ := (TokenList.mem_leaves_iff h.loaded.threaded).mpr
    ⟨hids, hsignificant⟩
  -- a leaf of the node is an own token, or inside of a child, which then is between the ends
  rcases Branch.mem_leavesAll_cases ((hnode.mem_iff hx).mpr ⟨by omega, by omega⟩) with
    hleaf | ⟨kind', inside, hpart, hin⟩
  · exact .inl ((h.own_between ((hnode.owns_iff hplain).mpr ⟨x, hleaf, rfl⟩)).mp hid)
  · obtain ⟨c, hc, hchild⟩ := hnode.child hpart
    have hplace := hchild.between hin
    have hbefore := hnode.outside hkey hc
    have hbehind := hnode.outside hlast hc
    rw [hkeyword] at hbefore
    rw [hend] at hbehind
    refine .inr ⟨c, hc, ?_, hplace⟩
    have hcovers : o.keyword.index < doc.start c ∧ doc.stop c < o.stop.index := by omega
    unfold Occurrence.Covers
    rwa [h.cut_eq]

/-- A child that goes with the use has its brace between. -/
theorem exists_brace (h : Reading doc branches found o word type) {child : NodeId}
    (hchild : child ∈ doc.tree.children o.node) (hcovers : o.Covers doc child) :
    ∃ brace ∈ between doc o, doc.tokens.kind? brace = some .lbrace
      ∧ doc.start child ≤ brace.index ∧ brace.index ≤ doc.stop child := by
  obtain ⟨brace, hleaf, hkind, hplace⟩ :=
    Document.HasNode.braced_of_covers h.loaded h.branched h.finds h.mem hchild hcovers
  obtain ⟨hlow, hhigh⟩ := hcovers
  rw [h.cut_eq] at hhigh
  have hhigh : doc.stop child < o.stop.index := hhigh
  have hsignificant := ((TokenList.mem_leaves_iff h.loaded.threaded).mp ⟨brace, hleaf, rfl⟩).2
  refine ⟨brace.id, h.mem_between.mpr ⟨⟨by omega, by omega⟩, hsignificant⟩, ?_, hplace⟩
  rw [(TokenList.leaf_token hleaf).2.1, hkind]

/-- Without a child that goes with it, a use is unbroken. -/
theorem unbroken_of_uncovered (h : Reading doc branches found o word type)
    (hnone : ∀ child ∈ doc.tree.children o.node, ¬ o.Covers doc child) : o.IsUnbroken doc := by
  intro id hid hbrace
  have hin : id ∈ between doc o := List.mem_filter.mpr ⟨hid, significant_of_lbrace hbrace⟩
  rcases h.between_cases hin with hmatched | ⟨child, hchild, hcovers, -⟩
  · obtain ⟨kind, hkind, he⟩ := h.matched_kinds hmatched
    rw [hbrace] at he
    obtain rfl := Option.some.inj he
    exact absurd hkind (by decide)
  · exact hnone child hchild hcovers

/-- A surface is its keyword alone. -/
theorem unbroken_of_surface (h : Reading doc branches found o word type)
    (hsurface : o.kind = .surface) : o.IsUnbroken doc := by
  have hstop := h.recorded.stop
  have htype := h.typed
  rw [hsurface] at htype
  cases htype
  have hlast : word.1 = o.stop := Option.some.inj hstop
  refine h.unbroken_of_uncovered fun child hchild hcovers => ?_
  obtain ⟨brace, hin, -, hlow, hhigh⟩ := h.exists_brace hchild hcovers
  obtain ⟨hstart, hend⟩ := hcovers
  rw [h.cut_eq] at hend
  have hend : doc.stop child < o.stop.index := hend
  have hkeyword := congrArg TokenId.index (h.recorded.keyword.trans hlast)
  omega

/-- A parameter list has no children. -/
theorem unbroken_of_params (h : Reading doc branches found o word type)
    (hparams : doc.tree.kind? o.node = some .functionParams) : o.IsUnbroken doc := by
  obtain ⟨kind, parts, hnode, -⟩ := h.use.hasNode h.loaded h.branched
  rw [hnode.kind?] at hparams
  obtain rfl := Option.some.inj hparams
  obtain ⟨opener, inner, closer, rfl, -⟩ := (h.branched.reads.made _ hnode.mem).params_inv
  refine h.unbroken_of_uncovered fun child hchild _ => ?_
  obtain ⟨kind', inside, hpart, -⟩ := hnode.part hchild
  simp at hpart

/-- **Nothing else lies between** exactly when there is no opening brace. -/
theorem between_eq_iff (h : Reading doc branches found o word type) :
    between doc o = (word :: type).map (·.1) ↔ o.IsUnbroken doc := by
  constructor
  · intro heq id hid hbrace
    have hin : id ∈ between doc o := List.mem_filter.mpr ⟨hid, significant_of_lbrace hbrace⟩
    obtain ⟨kind, hkind, he⟩ := h.matched_kinds (heq ▸ hin)
    rw [hbrace] at he
    obtain rfl := Option.some.inj he
    exact absurd hkind (by decide)
  · intro hunbroken
    rw [← h.filter_own, eq_comm, List.filter_eq_self]
    intro id hid
    refine decide_eq_true (h.own_of_matched ((h.between_cases hid).resolve_right ?_))
    rintro ⟨child, hchild, hcovers, -⟩
    obtain ⟨brace, hin, hkind, -⟩ := h.exists_brace hchild hcovers
    exact hunbroken brace (List.mem_filter.mp hin).1 hkind

end Reading

end Occurrence

/-! ## §3. What lowering removes -/

/-- **A token is gone** from the lowered file exactly when a use has taken it up. -/
theorem Lowering.run_removes [ContentHash] {config : Config} {source : String} {doc : Document}
    {groups : List (List Occurrence)} {state : Lowering} {id : TokenId}
    (hload : Document.load config source = .ok doc)
    (hdiscover : Occurrence.discover doc = .ok groups) (hrun : run doc = (.ok (), state))
    (hid : id ∈ doc.tokens.ids) :
    id ∉ state.document.tokens.ids
      ↔ ∃ use ∈ groups.flatten, id ∈ doc.tokens.range (Weave.cut use) := by
  have h₀ := Document.load_loaded hload
  obtain ⟨found, types, -, hgrouped, hstage⟩ := run_finished hload hrun
  obtain ⟨strand, hwoven, -⟩ := hstage.fabric
  obtain ⟨found', hfound, rfl⟩ := Occurrence.discover_ok hdiscover
  obtain rfl := Except.ok.inj (hfound.symm.trans hgrouped.found_eq)
  have hperm := (uses_perm hgrouped.refs).trans (Occurrence.groupAll_perm doc.tokens _).symm
  have hall : ∀ u ∈ Weave.uses types, Occurrence.Found doc u.2 := by
    intro u hu
    obtain ⟨htype, hmem⟩ := mem_uses.mp hu
    exact (hgrouped.found_of_mem htype hmem).2
  have hreads := hwoven.reads id hid
  -- a token that is still there stands for itself, so no use has taken it up
  have hstays : id ∈ state.document.tokens.ids
      ↔ Weave.core? doc (Weave.uses types) id = none := by
    rw [hwoven.laid.threaded.ids_eq, hwoven.laid.mem_iff h₀.unedited hid]
    exact ⟨hreads.core?_eq_none, hreads.self⟩
  rw [hstays, Weave.core?_none h₀ hall]
  push Not
  constructor
  · rintro ⟨u, hu, hin⟩
    exact ⟨u.2, hperm.subset (List.mem_map_of_mem hu),
      (Weave.mem_cut_iff h₀ (hall u hu) id).mpr hin⟩
  · rintro ⟨use, huse, hin⟩
    obtain ⟨u, hu, rfl⟩ := List.mem_map.mp (hperm.symm.subset huse)
    exact ⟨u, hu, (Weave.mem_cut_iff h₀ (hall u hu) id).mp hin⟩

namespace Occurrence

/-- What a use takes where it becomes a name: the keyword and its type, which are all of the own
    tokens of its node in its range, and whatever is in braces between them. -/
structure Takes (doc : Document) (o : Occurrence) (word : TokenId × Token)
    (type : List (TokenId × Token)) : Prop where
  stretch : word :: type <:+: entries doc o.node
  recorded : Recorded o.node word o.kind type o
  typed : TypeOf o.kind type
  range : Weave.cut o = ⟨o.keyword, o.stop⟩
  own : (between doc o).filter (· ∈ doc.ownTokens o.node) = (word :: type).map (·.1)
  exact_iff : between doc o = (word :: type).map (·.1) ↔ o.IsUnbroken doc
  other : ∀ id ∈ between doc o, id ∉ (word :: type).map (·.1) →
    ∃ child ∈ doc.tree.children o.node, o.Covers doc child
      ∧ (doc.start child ≤ id.index ∧ id.index ≤ doc.stop child)
      ∧ ∃ brace ∈ between doc o, doc.tokens.kind? brace = some .lbrace
        ∧ doc.start child ≤ brace.index ∧ brace.index ≤ doc.stop child
  unbroken : o.kind = .surface ∨ doc.tree.kind? o.node = some .functionParams → o.IsUnbroken doc

/-- A use that was read takes its keyword and its type. -/
theorem Reading.takes {doc : Document} {branches : List Branch} {found : List Occurrence}
    {o : Occurrence} {word : TokenId × Token} {type : List (TokenId × Token)}
    (h : Reading doc branches found o word type) : Takes doc o word type where
  stretch := h.stretch
  recorded := h.recorded
  typed := h.typed
  range := h.cut_eq
  own := h.filter_own
  exact_iff := h.between_eq_iff
  other := by
    intro id hid hnot
    obtain ⟨child, hchild, hcovers, hplace⟩ := (h.between_cases hid).resolve_left hnot
    exact ⟨child, hchild, hcovers, hplace, h.exists_brace hchild hcovers⟩
  unbroken := by
    rintro (hsurface | hparams)
    · exact h.unbroken_of_surface hsurface
    · exact h.unbroken_of_params hparams

/-- **What the uses take.**  From the keyword of a use that becomes a name to the end of its type
    are the keyword and its type, and nothing else unless there is an opening brace between them:
    then there are children of the node there, each with its braces, but not for surfaces and not
    for the parameters of functions.  Lowering removes all that is taken and nothing else. -/
theorem discover_reach [ContentHash] {config : Config} {source : String} {doc : Document}
    {groups : List (List Occurrence)} (hload : Document.load config source = .ok doc)
    (hdiscover : discover doc = .ok groups) :
    (∀ o ∈ groups.flatten, o.isNamed = true → ∃ word type, Takes doc o word type)
      ∧ ∀ state, Lowering.run doc = (.ok (), state) → ∀ id ∈ doc.tokens.ids,
        (id ∉ state.document.tokens.ids
          ↔ ∃ use ∈ groups.flatten, id ∈ doc.tokens.range (Weave.cut use)) := by
  refine ⟨fun o ho hnamed => ?_, fun state hrun id hid =>
    Lowering.run_removes hload hdiscover hrun hid⟩
  obtain ⟨found, hfound, rfl⟩ := discover_ok hdiscover
  have hmem : o ∈ found := (groupAll_perm doc.tokens found).mem_iff.mp ho
  obtain ⟨branches, word, type, h⟩ := exists_reading hload hfound hmem hnamed
  exact ⟨word, type, h.takes⟩

/-- The body of an enumeration stands between a keyword and its type, and is removed with them. -/
theorem discover_reach_enum :
    ∃ doc state groups, Document.load {} "enum Texture2Du \x7b A \x7d <float> x;" = .ok doc
      ∧ Lowering.run doc = (.ok (), state) ∧ discover doc = .ok groups
      ∧ ∃ o ∈ groups.flatten, ∃ word type, Takes doc o word type
        ∧ between doc o ≠ (word :: type).map (·.1)
        ∧ ∃ id ∈ between doc o, doc.tokens.textOf id = "A"
          ∧ id ∉ state.document.tokens.ids := by
  obtain ⟨doc, state, hload, hrun, heval⟩ := Lowering.run_of_eval {}
    "enum Texture2Du \x7b A \x7d <float> x;"
    (fun (doc : Document) (_ : Lowering) =>
      (discover doc).toOption.map fun groups : List (List Occurrence) =>
        decide (∃ o ∈ groups.flatten, o.isNamed = true ∧ ¬ o.IsUnbroken doc
          ∧ ∃ id ∈ between doc o, id ∈ doc.tokens.ids ∧ doc.tokens.textOf id = "A"))
    (some true) (by decide +kernel)
  cases hdiscover : discover doc with
  | error error => simp [hdiscover, Except.toOption] at heval
  | ok groups =>
    rw [hdiscover] at heval
    obtain ⟨o, ho, hnamed, hbroken, id, hin, hid, htext⟩ :=
      of_decide_eq_true (Option.some.inj heval)
    -- the theorem names the type, and what is cut with it
    obtain ⟨htakes, hremoves⟩ := discover_reach hload hdiscover
    obtain ⟨word, type, ht⟩ := htakes o ho hnamed
    have hrange : id ∈ doc.tokens.range (Weave.cut o) := by
      rw [ht.range]
      exact (List.mem_filter.mp hin).1
    exact ⟨doc, state, groups, hload, hrun, hdiscover, o, ho, word, type, ht,
      mt ht.exact_iff.mp hbroken, id, hin, htext, (hremoves state hrun id hid).mpr ⟨o, ho, hrange⟩⟩

end Occurrence

end KernelPrep
