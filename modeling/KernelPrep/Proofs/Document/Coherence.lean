/-
  KernelPrep.Proofs.Document.Coherence — edits keep list and outline together.

  An edit either refuses, and then nothing has changed, or it goes through, and then the
  token list and the outline still fit together: no matter whether the cut runs through
  several nodes, swallows whole subtrees or takes the whole file, and no matter how deep
  the node lies beside which a run is put in.

  Main definitions:
    * `Change`          — the edits of a document;
    * `Change.Allowed`  — where each of them is promised to work.

  Main statements:
    * `Change.apply_coherent`   — one edit;
    * `Change.applyAll_coherent` — a series of edits.
-/
import KernelPrep.Proofs.Document.Cutting
import KernelPrep.Proofs.Document.Inserting
import KernelPrep.Proofs.Outline.Soundness
import KernelPrep.Proofs.Step

namespace KernelPrep

open NodeTree (Below Forest root)

/-! ## §1. The edits -/

/-- A loaded document holds the tokens of its source and their outline. -/
theorem Document.load_ok {config : Config} {source : String} {doc : Document}
    (h : Document.load config source = .ok doc) :
    TokenList.lex source = .ok doc.tokens ∧ doc.tokens.parse = .ok doc.tree
      ∧ doc.config = config ∧ doc.newline = doc.tokens.newline := by
  unfold Document.load at h
  obtain ⟨tokens, hlex, h⟩ := Step.except_bind_ok.mp h
  obtain ⟨tree, hparse, h⟩ := Step.except_bind_ok.mp h
  obtain rfl := Except.ok.inj h
  exact ⟨Step.mapError_ok.mp hlex, Step.mapError_ok.mp hparse, rfl, rfl⟩

/-- What was loaded is coherent. -/
theorem Document.load_coherent {config : Config} {source : String} {doc : Document}
    (h : Document.load config source = .ok doc) : Coherent doc.tokens doc.tree := by
  obtain ⟨hlex, hparse, -, -⟩ := Document.load_ok h
  rw [(TokenList.parse_eq_ok hparse).1]
  exact TokenList.outline_coherent hlex

/-- An edit of a document. -/
inductive Change where
  /-- Cut a linked run out. -/
  | cut (old : TokenRange)
  /-- Put a detached run in place of a linked one. -/
  | replace (old new : TokenRange)
  /-- Put a detached run before a node. -/
  | before (node : NodeId) (run : TokenRange)
  /-- Put a detached run after a node. -/
  | after (node : NodeId) (run : TokenRange)
  /-- Put a detached run into a node, as its first child. -/
  | firstChild (node : NodeId) (run : TokenRange)

/-- Do an edit, leaving aside the handle of the node it makes. -/
def Change.apply : Change → Edit Unit
  | .cut old => Edit.replaceTokens old none
  | .replace old new => Edit.replaceTokens old (some new)
  | .before node run => discard (Edit.insertBefore node run)
  | .after node run => discard (Edit.insertAfter node run)
  | .firstChild node run => discard (Edit.insertFirstChild node run)

/-- The tokens `ids` are those of a linked run. -/
def TokenList.IsLinkedRun (list : TokenList) (run : TokenRange) (ids : List TokenId) : Prop :=
  list.walk run true = .ok ids

/-- The range is a run of detached tokens. -/
def TokenList.IsDetachedRun (list : TokenList) (run : TokenRange) : Prop :=
  ∃ ids, list.walk run false = .ok ids

/-- One of the tokens lies in the range of the node. -/
def Document.Meets (doc : Document) (node : NodeId) (ids : List TokenId) : Prop :=
  ∃ range, doc.tree.tokens? node = some range ∧ ∃ id ∈ ids,
    doc.tokens.place range.first ≤ doc.tokens.place id
      ∧ doc.tokens.place id ≤ doc.tokens.place range.last

/-- Where an edit is promised to work. -/
def Change.Allowed (doc : Document) : Change → Prop
  | .cut old => ∃ ids, doc.tokens.IsLinkedRun old ids
  | .replace old new => doc.tokens.IsDetachedRun new ∧ ∃ ids, doc.tokens.IsLinkedRun old ids ∧
      -- no two siblings both reach into the run cut out
      ∀ parent a b, doc.tree.Attached parent → doc.tree.parent? a = some parent →
        doc.tree.parent? b = some parent → a ≠ b → ¬ (doc.Meets a ids ∧ doc.Meets b ids)
  | .before node run | .after node run =>
    doc.tokens.IsDetachedRun run ∧ doc.tree.Attached node ∧ node ≠ root
  | .firstChild node run => doc.tokens.IsDetachedRun run ∧ doc.tree.Attached node ∧
      ∃ range, doc.tree.tokens? node = some range ∧
        ∀ child inner, doc.tree.firstChild? node = some child →
          doc.tree.tokens? child = some inner → inner.first ≠ range.first

/-! ## §2. Refused edits -/

/-- Replacing, by what the list answers. -/
theorem Edit.replaceTokens_eq (old : TokenRange) (new? : Option TokenRange) (doc : Document) :
    Edit.replaceTokens old new? doc = match doc.tokens.replace old new? with
      | .ok (splice, tokens) => .ok () { doc with tokens, tree := doc.tree.remap splice }
      | .error error => .error (.ofSplice error) doc := rfl

/-- The three ways to put a run beside a token: find the anchor, link the run, make the
    node. -/
def Edit.insertWith (node : NodeId) (run : TokenRange) (anchor : TokenRange → TokenId)
    (link : TokenId → TokenList → Except SpliceError (Splice × TokenList))
    (attach : NodeTree → NodeId → NodeTree)
    (widen : TokenId → TokenRange → Option TokenRange) : Edit NodeId := do
  let anchor := anchor (← Edit.nodeRange node)
  Edit.linkRun (link anchor)
  Edit.addUserNode run attach (widen anchor)

/-- Putting a node in, by what the list answers. -/
theorem Edit.insertWith_eq (node : NodeId) (run : TokenRange) (anchor : TokenRange → TokenId)
    (link : TokenId → TokenList → Except SpliceError (Splice × TokenList))
    (attach : NodeTree → NodeId → NodeTree)
    (widen : TokenId → TokenRange → Option TokenRange) (doc : Document) :
    Edit.insertWith node run anchor link attach widen doc
      = match doc.tree.tokens? node with
        | none => .error (.internal "node spans no tokens") doc
        | some range => match link (anchor range) doc.tokens with
          | .error error => .error (.ofSplice error) doc
          | .ok (_, tokens) =>
            Edit.addUserNode run attach (widen (anchor range)) { doc with tokens } := by
  cases htokens : doc.tree.tokens? node with
  | none => simp [Edit.insertWith, Edit.nodeRange, bind, EStateM.bind, htokens]
  | some range =>
    cases hlink : link (anchor range) doc.tokens with
    | error error =>
      simp [Edit.insertWith, Edit.nodeRange, Edit.linkRun, bind, EStateM.bind, htokens, hlink]
    | ok result =>
      simp [Edit.insertWith, Edit.nodeRange, Edit.linkRun, bind, EStateM.bind, htokens, hlink]

/-- A refused insertion has changed nothing. -/
theorem Edit.insertWith_error {node : NodeId} {run : TokenRange} {anchor : TokenRange → TokenId}
    {link : TokenId → TokenList → Except SpliceError (Splice × TokenList)}
    {attach : NodeTree → NodeId → NodeTree}
    {widen : TokenId → TokenRange → Option TokenRange} {doc doc' : Document}
    {error : PassError}
    (h : Edit.insertWith node run anchor link attach widen doc = .error error doc') :
    doc' = doc := by
  rw [Edit.insertWith_eq] at h
  split at h
  · exact (EStateM.Result.error.inj h).2.symm
  · split at h
    · exact (EStateM.Result.error.inj h).2.symm
    · simp [Edit.addUserNode] at h

/-- Before a node: the anchor is its first token. -/
theorem Edit.insertBefore_eq (node : NodeId) (run : TokenRange) :
    Edit.insertBefore node run = Edit.insertWith node run (·.first)
      (fun anchor tokens => tokens.insertBefore anchor run)
      (fun tree id => tree.insertBefore node id)
      (fun anchor range =>
        if range.first = anchor then some ⟨run.first, range.last⟩ else none) := rfl

/-- Behind a node: the anchor is its last token. -/
theorem Edit.insertAfter_eq (node : NodeId) (run : TokenRange) :
    Edit.insertAfter node run = Edit.insertWith node run (·.last)
      (fun anchor tokens => tokens.insertAfter anchor run)
      (fun tree id => tree.insertAfter node id)
      (fun anchor range =>
        if range.last = anchor then some ⟨range.first, run.last⟩ else none) := rfl

/-- At the top of a node: the anchor is its first token, and the run comes behind it. -/
theorem Edit.insertFirstChild_eq (node : NodeId) (run : TokenRange) :
    Edit.insertFirstChild node run = Edit.insertWith node run (·.first)
      (fun anchor tokens => tokens.insertAfter anchor run)
      (fun tree id => tree.prependChild node id)
      (fun anchor range =>
        if range.last = anchor then some ⟨range.first, run.last⟩ else none) := rfl

/-- The handle of the new node is left aside. -/
theorem Edit.discard_eq {α : Type} (edit : Edit α) (doc : Document) :
    (discard edit : Edit Unit) doc = match edit doc with
      | .ok _ doc' => .ok () doc'
      | .error error doc' => .error error doc' := by
  show EStateM.map _ edit doc = _
  unfold EStateM.map
  cases edit doc <;> rfl

/-- An edit fails whether its handle is wanted or not. -/
theorem Edit.discard_error {α : Type} {edit : Edit α} {doc doc' : Document} {error : PassError}
    (h : (discard edit : Edit Unit) doc = .error error doc') : edit doc = .error error doc' := by
  rw [Edit.discard_eq] at h
  cases hedit : edit doc with
  | ok a d => simp [hedit] at h
  | error e d =>
    rw [hedit] at h
    obtain ⟨rfl, rfl⟩ := EStateM.Result.error.inj h
    rfl

/-- **A refused edit changes nothing.** -/
theorem Change.apply_error (change : Change) {doc doc' : Document} {error : PassError}
    (h : change.apply doc = .error error doc') : doc' = doc := by
  have hreplace : ∀ {old new?}, Edit.replaceTokens old new? doc = .error error doc' →
      doc' = doc := by
    intro old new? hr
    unfold Edit.replaceTokens at hr
    split at hr
    · simp at hr
    · exact (EStateM.Result.error.inj hr).2.symm
  -- an insertion fails on its anchor or its run, before the tree is touched
  cases change with
  | cut old => exact hreplace h
  | replace old new => exact hreplace h
  | before node run =>
    have hedit := Edit.discard_error h
    rw [Edit.insertBefore_eq] at hedit
    exact Edit.insertWith_error hedit
  | after node run =>
    have hedit := Edit.discard_error h
    rw [Edit.insertAfter_eq] at hedit
    exact Edit.insertWith_error hedit
  | firstChild node run =>
    have hedit := Edit.discard_error h
    rw [Edit.insertFirstChild_eq] at hedit
    exact Edit.insertWith_error hedit

/-! ## §3. Replacing -/

/-- Replacing goes through for a linked run, and nothing or a detached run in its place. -/
theorem TokenList.replace_of_walk {list : TokenList} {old : TokenRange}
    {new? : Option TokenRange} {removed : List TokenId} (hold : list.IsLinkedRun old removed)
    (hnew : ∀ run, new? = some run → list.IsDetachedRun run) :
    ∃ splice list', list.replace old new? = .ok (splice, list') ∧ splice.removed = removed := by
  unfold TokenList.IsLinkedRun at hold
  unfold TokenList.replace
  cases new? with
  | none => simp [hold, bind, Except.bind, pure, Except.pure]
  | some run =>
    obtain ⟨ids, hids⟩ := hnew run rfl
    simp [hold, hids, bind, Except.bind, pure, Except.pure]

/-- **Cutting and replacing** keep list and outline together. -/
theorem Edit.replaceTokens_coherent {doc : Document} (h : Coherent doc.tokens doc.tree)
    {old : TokenRange} {new? : Option TokenRange} {removed : List TokenId}
    (hold : doc.tokens.IsLinkedRun old removed)
    (hnew : ∀ run, new? = some run → doc.tokens.IsDetachedRun run)
    (hapart : new? = none ∨ ∀ parent a b, doc.tree.Attached parent →
      doc.tree.parent? a = some parent → doc.tree.parent? b = some parent → a ≠ b →
      ¬ (doc.Meets a removed ∧ doc.Meets b removed)) :
    ∃ doc', Edit.replaceTokens old new? doc = .ok () doc' ∧ Coherent doc'.tokens doc'.tree := by
  have hlist := h.tokens.threaded
  have hforest : doc.tree.Forest doc.tree.children := h.links
  have hplaced := h.placed
  obtain ⟨splice, tokens, hreplace, rfl⟩ := TokenList.replace_of_walk hold hnew
  obtain ⟨before, new, after, hfile, hends, hsupplies, -, hsplice, hspliced⟩ :=
    TokenList.replace_ok hlist h.tokens.loose hreplace
  have hne := hends.ne_nil
  have hnodup := hlist.nodup
  have hne' : before ++ splice.removed ++ after ≠ [] := by simp [hne]
  rw [hfile] at hplaced hnodup hlist
  -- a node that reaches over a place of the cut meets the tokens cut out
  have hmeets : ∀ {c j}, Below doc.tree.children root c →
      firstPlace doc.tokens doc.tree c ≤ j → j ≤ lastPlace doc.tokens doc.tree c →
      before.length ≤ j → j < before.length + splice.removed.length →
      doc.Meets c splice.removed := by
    intro c j hc hlo hhi hge hlt
    obtain ⟨range, hrange, hfirst, hlast⟩ := hplaced.range hne' c hc
    have hj : j < (before ++ splice.removed ++ after).length := by
      simp only [List.length_append]
      omega
    have hget := List.getElem?_eq_getElem hj
    refine ⟨range, hrange, _, (mem_old_iff hnodup hget).mpr ⟨hge, hlt⟩, ?_⟩
    rw [hlist.place_eq hfirst, hlist.place_eq hlast, hlist.place_eq hget]
    exact ⟨hlo, hhi⟩
  have hcut := hplaced.cut hforest hnodup hne hsupplies (by
    rcases hapart with rfl | hapart
    · exact Or.inl hsupplies
    · refine Or.inr fun parent hp => ?_
      refine (hplaced.apart parent hp).imp_of_mem fun {a b} ha hb hlt hboth => ?_
      have hra : Below doc.tree.children root a := hp.tail ha
      have hrb : Below doc.tree.children root b := hp.tail hb
      have hoa := hplaced.order hne' a hra
      have hob := hplaced.order hne' b hrb
      have hab : a ≠ b := by
        rintro rfl
        omega
      refine hapart parent a b (hforest.attached_iff.mpr hp) ((hforest.parent_iff _ _).mpr ha)
        ((hforest.parent_iff _ _).mpr hb) hab ⟨?_, ?_⟩
      · exact hmeets hra (Nat.le_max_right before.length _) (by omega) (Nat.le_max_left _ _)
          (by omega)
      · exact hmeets hrb (Nat.le_refl _) hob (by omega) hboth.2)
  refine ⟨{ doc with tokens, tree := doc.tree.remap splice }, ?_, ?_⟩
  · unfold Edit.replaceTokens
    rw [hreplace]
  · have hforest' := (hforest.remap hne).forest
    rw [← hsplice] at hcut
    exact hcut.coherent hspliced.now hspliced.loose hforest'

/-! ## §4. Inserting -/

/-- A token of the file is accepted as an anchor. -/
theorem TokenList.checkLinked_ok {list : TokenList} {id : TokenId}
    (h : list.isLinked id = true) : list.checkLinked id = .ok () := by
  obtain ⟨token, hget, hlinked⟩ := TokenList.isLinked_iff.mp h
  unfold TokenList.checkLinked
  simp [hget, hlinked]

/-- Putting a detached run before an anchor goes through. -/
theorem TokenList.insertBefore_of_walk {list : TokenList} {anchor : TokenId}
    {run : TokenRange} (hanchor : list.isLinked anchor = true)
    (hrun : list.IsDetachedRun run) :
    ∃ splice list', list.insertBefore anchor run = .ok (splice, list') := by
  obtain ⟨ids, hids⟩ := hrun
  unfold TokenList.insertBefore
  simp [TokenList.checkLinked_ok hanchor, hids, bind, Except.bind, pure, Except.pure]

/-- Putting a detached run behind an anchor goes through. -/
theorem TokenList.insertAfter_of_walk {list : TokenList} {anchor : TokenId}
    {run : TokenRange} (hanchor : list.isLinked anchor = true)
    (hrun : list.IsDetachedRun run) :
    ∃ splice list', list.insertAfter anchor run = .ok (splice, list') := by
  obtain ⟨ids, hids⟩ := hrun
  unfold TokenList.insertAfter
  simp [TokenList.checkLinked_ok hanchor, hids, bind, Except.bind, pure, Except.pure]

section Insert

variable {doc : Document}

/-- The new node is loose when it is put into the tree. -/
theorem alloc_loose_node {tree : NodeTree} {kids : NodeId → List NodeId}
    (hforest : tree.Forest kids) (run : TokenRange) {parent : NodeId}
    (hparent : ∃ n, tree.get? parent = some n) :
    (tree.alloc .userTokens (some run)).2.Forest kids ∧
      (∃ n, (tree.alloc .userTokens (some run)).2.get? tree.nextId = some n) ∧
      (tree.alloc .userTokens (some run)).2.parent? tree.nextId = none ∧
      tree.nextId ≠ root ∧ ¬ Below kids tree.nextId parent ∧
      ∃ n, (tree.alloc .userTokens (some run)).2.get? parent = some n := by
  have hnil := hforest.kids_eq_nil tree.get?_nextId
  have hne : parent ≠ tree.nextId := NodeTree.ne_nextId hparent
  have hroot : root ≠ tree.nextId := NodeTree.ne_nextId hforest.root_live
  refine ⟨hforest.alloc _ _, ⟨_, by rw [NodeTree.get?_alloc, if_pos rfl]⟩, ?_, hroot.symm, ?_,
    ?_⟩
  · unfold NodeTree.parent?
    rw [NodeTree.get?_alloc, if_pos rfl]
    rfl
  · intro hb
    rcases Relation.ReflTransGen.cases_head hb with he | ⟨c, hc, -⟩
    · exact hne he.symm
    · rw [hnil] at hc
      simp at hc
  · obtain ⟨n, hn⟩ := hparent
    exact ⟨n, by rw [NodeTree.get?_alloc, if_neg hne, hn]⟩

/-- Where the place of the run and that of its node agree, putting the run in keeps list and
    outline together. -/
theorem Edit.insertWith_coherent {kids : NodeId → List NodeId} {lo hi : NodeId → Nat}
    {before new after : List TokenId} {node parent : NodeId} {left right : List NodeId}
    {run range : TokenRange} {anchor : TokenRange → TokenId}
    {link : TokenId → TokenList → Except SpliceError (Splice × TokenList)}
    {attach : NodeTree → NodeId → NodeTree}
    {widen : TokenId → TokenRange → Option TokenRange} {splice : Splice} {tokens : TokenList}
    (hforest : doc.tree.Forest kids)
    (hplaced : Placed doc.tree.tokens? (before ++ after) kids lo hi)
    (hrange : doc.tree.tokens? node = some range)
    (hlink : link (anchor range) doc.tokens = .ok (splice, tokens))
    (hspliced : TokenList.Spliced doc.tokens tokens before [] new after)
    (hne : before ++ after ≠ []) (hparent : Below kids root parent)
    (hkids : kids parent = left ++ right) (hends : run.Ends new)
    (hlo : lo parent ≤ before.length) (hhi : before.length ≤ hi parent + 1)
    (hleft : ∀ c ∈ left, hi c < before.length) (hright : ∀ c ∈ right, before.length ≤ lo c)
    (hattach : NodeTree.Inserted (doc.tree.alloc .userTokens (some run)).2
      (attach (doc.tree.alloc .userTokens (some run)).2 doc.tree.nextId) kids parent left
      doc.tree.nextId right)
    (hwiden : ∀ x r, Below kids root x → Below kids x parent → doc.tree.tokens? x = some r →
      widen (anchor range) r
        = if lo x = before.length then some ⟨run.first, r.last⟩
          else if hi x + 1 = before.length then some ⟨r.first, run.last⟩ else none) :
    ∃ doc', (discard (Edit.insertWith node run anchor link attach widen) : Edit Unit) doc
        = .ok () doc' ∧ Coherent doc'.tokens doc'.tree := by
  obtain ⟨kids', lo', hi', tree', hadd, hforest', hplaced'⟩ := hplaced.addUserNode hforest hne
    hparent hkids hends hlo hhi hleft hright hattach hwiden
  refine ⟨{ doc with tokens, tree := tree' }, ?_, ?_⟩
  · rw [Edit.discard_eq, Edit.insertWith_eq, hrange]
    simp only [hlink]
    rw [hadd { doc with tokens } rfl]
  · exact hplaced'.coherent hspliced.now hspliced.loose hforest'

/-- A node of the tree other than the root stands among the children of one. -/
theorem among_siblings {kids : NodeId → List NodeId} {id : NodeId} (hid : Below kids root id)
    (hroot : id ≠ root) :
    ∃ parent left right, Below kids root parent ∧ kids parent = left ++ id :: right := by
  rcases Relation.ReflTransGen.cases_tail hid with he | ⟨parent, hparent, hmem⟩
  · exact absurd he hroot
  · obtain ⟨left, right, hkids⟩ := List.append_of_mem hmem
    exact ⟨parent, left, right, hparent, hkids⟩

/-- Two tokens of the file are one if they have one place. -/
theorem TokenList.Threaded.eq_iff_place {list : TokenList} {file : List TokenId}
    (h : list.Threaded file) {i j : Nat} {x y : TokenId} (hx : file[i]? = some x)
    (hy : file[j]? = some y) : x = y ↔ i = j := by
  constructor
  · rintro rfl
    rw [← h.place_eq hx, ← h.place_eq hy]
  · rintro rfl
    exact Option.some.inj (hx.symm.trans hy)

/-- The entry between two rows. -/
theorem getElem?_middle (before after : List TokenId) (x : TokenId) :
    (before ++ x :: after)[before.length]? = some x := by
  rw [List.getElem?_append_right (Nat.le_refl _), Nat.sub_self]
  rfl

/-- A line before a node goes through and keeps the document coherent. -/
theorem Edit.insertBefore_coherent (h : Coherent doc.tokens doc.tree) {node : NodeId}
    {run : TokenRange} (hrun : doc.tokens.IsDetachedRun run) (hnode : doc.tree.Attached node)
    (hroot : node ≠ root) :
    ∃ doc', (discard (Edit.insertBefore node run) : Edit Unit) doc = .ok () doc'
      ∧ Coherent doc'.tokens doc'.tree := by
  have hlist := h.tokens.threaded
  have hforest : doc.tree.Forest doc.tree.children := h.links
  have hplaced := h.placed
  have hid := hforest.attached_iff.mp hnode
  obtain ⟨parent, left, right, hparent, hkids⟩ := among_siblings hid hroot
  obtain ⟨range, hrange, hspan⟩ := h.spans node hnode hroot
  obtain ⟨splice, tokens, hlink⟩ := TokenList.insertBefore_of_walk hspan.1 hrun
  obtain ⟨before, new, after, hfile, hends, -, hspliced⟩ :=
    TokenList.insertBefore_ok hlist h.tokens.loose hlink
  rw [hfile] at hplaced hlist
  have hne : before ++ range.first :: after ≠ [] := by simp
  have hanchor := getElem?_middle before after range.first
  -- the anchor is the first token of the node
  obtain ⟨range', hrange', hfirst, -⟩ := hplaced.range hne node hid
  rw [hrange] at hrange'
  obtain rfl := Option.some.inj hrange'
  have hplace := (hlist.eq_iff_place hfirst hanchor).mp rfl
  have horder := hplaced.order hne node hid
  have hmem : node ∈ doc.tree.children parent := by simp [hkids]
  have hnest := hplaced.nested parent node hparent hmem
  have hapart := hplaced.apart parent hparent
  rw [hkids] at hapart
  obtain ⟨-, hrightApart, hleftApart⟩ := List.pairwise_append.mp hapart
  obtain ⟨hloose, hlive, hfree, hnewroot, hout, -⟩ :=
    alloc_loose_node hforest run (hforest.live_parent hmem)
  rw [Edit.insertBefore_eq]
  refine Edit.insertWith_coherent hforest hplaced hrange hlink hspliced hne hparent hkids hends
    (by omega) (by omega) ?_ ?_ (hloose.insertBefore hlive hfree hnewroot hout hkids) ?_
  · intro c hc
    have := hleftApart c hc node List.mem_cons_self
    omega
  · intro c hc
    rcases List.mem_cons.mp hc with rfl | hc
    · omega
    · have := (List.pairwise_cons.mp hrightApart).1 c hc
      omega
  · intro x r hx hxp hr
    obtain ⟨r', hr', hfirst', -⟩ := hplaced.range hne x hx
    rw [hr] at hr'
    obtain rfl := Option.some.inj hr'
    have hxn := hplaced.nested_below hx hxp
    have hiff := hlist.eq_iff_place hfirst' hanchor
    by_cases he : r.first = range.first
    · rw [if_pos he, if_pos (hiff.mp he)]
    · rw [if_neg he, if_neg (fun hp => he (hiff.mpr hp)), if_neg (by omega)]

/-- Putting a run behind a token that lies in `parent`, behind the children on the left and
    before those on the right. -/
theorem Edit.insertWith_after_coherent (h : Coherent doc.tokens doc.tree)
    {node parent : NodeId} {left right : List NodeId} {run range : TokenRange}
    {anchor : TokenRange → TokenId} {attach : NodeTree → NodeId → NodeTree}
    (hrun : doc.tokens.IsDetachedRun run) (hrange : doc.tree.tokens? node = some range)
    (hanchor : doc.tokens.isLinked (anchor range) = true)
    (hparent : Below doc.tree.children root parent)
    (hkids : doc.tree.children parent = left ++ right)
    (hlo : firstPlace doc.tokens doc.tree parent ≤ doc.tokens.place (anchor range))
    (hhi : doc.tokens.place (anchor range) ≤ lastPlace doc.tokens doc.tree parent)
    (hleft : ∀ c ∈ left, lastPlace doc.tokens doc.tree c ≤ doc.tokens.place (anchor range))
    (hright : ∀ c ∈ right, doc.tokens.place (anchor range) < firstPlace doc.tokens doc.tree c)
    (hattach : NodeTree.Inserted (doc.tree.alloc .userTokens (some run)).2
      (attach (doc.tree.alloc .userTokens (some run)).2 doc.tree.nextId) doc.tree.children
      parent left doc.tree.nextId right) :
    ∃ doc', (discard (Edit.insertWith node run anchor
        (fun anchor tokens => tokens.insertAfter anchor run) attach
        (fun anchor range => if range.last = anchor then some ⟨range.first, run.last⟩
          else none)) : Edit Unit) doc = .ok () doc'
      ∧ Coherent doc'.tokens doc'.tree := by
  have hlist := h.tokens.threaded
  have hforest : doc.tree.Forest doc.tree.children := h.links
  have hplaced := h.placed
  obtain ⟨splice, tokens, hlink⟩ := TokenList.insertAfter_of_walk hanchor hrun
  obtain ⟨before, new, after, hfile, hends, -, hspliced⟩ :=
    TokenList.insertAfter_ok hlist h.tokens.loose hlink
  have hfile' : doc.tokens.ids = (before ++ [anchor range]) ++ after := by simp [hfile]
  have hmiddle := getElem?_middle before after (anchor range)
  rw [hfile] at hlist
  rw [hfile'] at hplaced
  have hplace := hlist.place_eq hmiddle
  have hne : (before ++ [anchor range]) ++ after ≠ [] := by simp
  have hlen : (before ++ [anchor range]).length = before.length + 1 := by simp
  rw [hplace] at hlo hhi hleft hright
  refine Edit.insertWith_coherent hforest hplaced hrange hlink hspliced hne hparent hkids hends
    (by omega) (by omega) ?_ ?_ hattach ?_
  · intro c hc
    have := hleft c hc
    omega
  · intro c hc
    have := hright c hc
    omega
  · intro x r hx hxp hr
    have hnest := hplaced.nested_below hx hxp
    obtain ⟨r', hr', -, hlast⟩ := hplaced.range hne x hx
    rw [hr] at hr'
    obtain rfl := Option.some.inj hr'
    rw [List.append_assoc] at hlast
    -- a range is widened if it ends with the anchor, which can be told by its place
    have hiff := hlist.eq_iff_place hlast hmiddle
    by_cases he : r.last = anchor range
    · have heq := hiff.mp he
      rw [if_pos he, if_neg (by omega), if_pos (by omega)]
    · have hne' : lastPlace doc.tokens doc.tree x ≠ before.length := fun hp => he (hiff.mpr hp)
      rw [if_neg he, if_neg (by omega), if_neg (by omega)]

/-- What the two ends of a node say of its places. -/
theorem places_of_tokens? {range : TokenRange} {id : NodeId}
    (hrange : doc.tree.tokens? id = some range) :
    firstPlace doc.tokens doc.tree id = doc.tokens.place range.first
      ∧ lastPlace doc.tokens doc.tree id = doc.tokens.place range.last := by
  unfold firstPlace lastPlace
  rw [hrange]
  exact ⟨rfl, rfl⟩

/-- A line behind a node goes through and keeps the document coherent. -/
theorem Edit.insertAfter_coherent (h : Coherent doc.tokens doc.tree) {node : NodeId}
    {run : TokenRange} (hrun : doc.tokens.IsDetachedRun run) (hnode : doc.tree.Attached node)
    (hroot : node ≠ root) :
    ∃ doc', (discard (Edit.insertAfter node run) : Edit Unit) doc = .ok () doc'
      ∧ Coherent doc'.tokens doc'.tree := by
  have hforest : doc.tree.Forest doc.tree.children := h.links
  have hplaced := h.placed
  have hid := hforest.attached_iff.mp hnode
  obtain ⟨parent, left, right, hparent, hkids⟩ := among_siblings hid hroot
  obtain ⟨range, hrange, hspan⟩ := h.spans node hnode hroot
  have hplace := (places_of_tokens? hrange).2
  have hmem : node ∈ doc.tree.children parent := by simp [hkids]
  have hne : doc.tokens.ids ≠ [] :=
    List.ne_nil_of_mem ((h.tokens.threaded.linked_iff _).mp hspan.1)
  have horder := hplaced.order hne node hid
  have hnest := hplaced.nested parent node hparent hmem
  have hapart := hplaced.apart parent hparent
  rw [hkids] at hapart
  obtain ⟨-, hrightApart, hleftApart⟩ := List.pairwise_append.mp hapart
  obtain ⟨hloose, hlive, hfree, hnewroot, hout, -⟩ :=
    alloc_loose_node hforest run (hforest.live_parent hmem)
  rw [Edit.insertAfter_eq]
  -- the place is behind the node: its left siblings end before it, the right ones begin behind
  refine Edit.insertWith_after_coherent h hrun hrange hspan.2.1 hparent
    (show doc.tree.children parent = (left ++ [node]) ++ right by simp [hkids])
    (by omega) (by omega) ?_ ?_ (hloose.insertAfter hlive hfree hnewroot hout hkids)
  · intro c hc
    rcases List.mem_append.mp hc with hc | hc
    · have := hleftApart c hc node List.mem_cons_self
      omega
    · obtain rfl := List.mem_singleton.mp hc
      omega
  · intro c hc
    have := (List.pairwise_cons.mp hrightApart).1 c hc
    omega

/-- A line at the top of a node goes through and keeps the document coherent, unless the first
    child begins with the node. -/
theorem Edit.insertFirstChild_coherent (h : Coherent doc.tokens doc.tree) {node : NodeId}
    {run range : TokenRange} (hrun : doc.tokens.IsDetachedRun run)
    (hnode : doc.tree.Attached node) (hrange : doc.tree.tokens? node = some range)
    (hchild : ∀ child inner, doc.tree.firstChild? node = some child →
      doc.tree.tokens? child = some inner → inner.first ≠ range.first) :
    ∃ doc', (discard (Edit.insertFirstChild node run) : Edit Unit) doc = .ok () doc'
      ∧ Coherent doc'.tokens doc'.tree := by
  have hlist := h.tokens.threaded
  have hforest : doc.tree.Forest doc.tree.children := h.links
  have hplaced := h.placed
  have hid := hforest.attached_iff.mp hnode
  have hplace := (places_of_tokens? hrange).1
  have hne : doc.tokens.ids ≠ [] := by
    intro hnil
    rcases Relation.ReflTransGen.cases_head hid with rfl | ⟨c, hc, -⟩
    · rw [(hplaced.bare hnil).1] at hrange
      simp at hrange
    · rw [(hplaced.bare hnil).2] at hc
      simp at hc
  have horder := hplaced.order hne node hid
  obtain ⟨range', hrange', hfirst, -⟩ := hplaced.range hne node hid
  rw [hrange] at hrange'
  obtain rfl := Option.some.inj hrange'
  have hlinked : doc.tokens.isLinked range.first = true :=
    (hlist.linked_iff _).mpr (List.mem_of_getElem? hfirst)
  obtain ⟨hloose, hlive, hfree, hnewroot, hout, hparent⟩ :=
    alloc_loose_node hforest run (hforest.live_of_attached hnode)
  rw [Edit.insertFirstChild_eq]
  refine Edit.insertWith_after_coherent h hrun hrange hlinked hid
    (show doc.tree.children node = [] ++ doc.tree.children node from rfl)
    (by omega) (by omega) (by simp) ?_
    (hloose.prependChild hlive hfree hnewroot hout hparent)
  intro c hc
  -- the first child begins behind the first token of the node, and the others behind it
  cases hk : doc.tree.children node with
  | nil =>
    rw [hk] at hc
    simp at hc
  | cons first rest =>
    have hmem : first ∈ doc.tree.children node := by simp [hk]
    have hb := hid.tail hmem
    obtain ⟨inner, hinner, hinnerFirst, -⟩ := hplaced.range hne first hb
    have hnest := hplaced.nested node first hid hmem
    have hfirst? : doc.tree.firstChild? node = some first := by
      rw [hforest.first, hk]
      rfl
    have hdiff : firstPlace doc.tokens doc.tree first ≠ firstPlace doc.tokens doc.tree node :=
      fun he => hchild first inner hfirst? hinner ((hlist.eq_iff_place hinnerFirst hfirst).mpr he)
    have hof := hplaced.order hne first hb
    rw [hk] at hc
    rcases List.mem_cons.mp hc with rfl | hc
    · omega
    · have hapart := hplaced.apart node hid
      rw [hk] at hapart
      have := (List.pairwise_cons.mp hapart).1 c hc
      omega

end Insert

/-! ## §5. Every edit, and every series of edits -/

/-- An edit that is promised to work goes through and leaves a coherent document. -/
theorem Change.coherent_of_allowed {change : Change} {doc : Document}
    (h : Coherent doc.tokens doc.tree) (hallowed : change.Allowed doc) :
    ∃ doc', change.apply doc = .ok () doc' ∧ Coherent doc'.tokens doc'.tree := by
  cases change with
  | cut old =>
    obtain ⟨ids, hids⟩ := hallowed
    exact Edit.replaceTokens_coherent h hids (by simp) (Or.inl rfl)
  | replace old new =>
    obtain ⟨hnew, ids, hids, hapart⟩ := hallowed
    refine Edit.replaceTokens_coherent h hids ?_ (Or.inr hapart)
    intro run he
    obtain rfl := Option.some.inj he
    exact hnew
  | before node run =>
    obtain ⟨hrun, hnode, hroot⟩ := hallowed
    exact Edit.insertBefore_coherent h hrun hnode hroot
  | after node run =>
    obtain ⟨hrun, hnode, hroot⟩ := hallowed
    exact Edit.insertAfter_coherent h hrun hnode hroot
  | firstChild node run =>
    obtain ⟨hrun, hnode, range, hrange, hchild⟩ := hallowed
    exact Edit.insertFirstChild_coherent h hrun hnode hrange hchild

/-- **Edits keep list and outline together.**  Where an edit is promised to work it goes
    through, and the document it leaves is coherent again; and an edit that is refused, in
    whatever document, leaves that document as it was. -/
theorem Change.apply_coherent (change : Change) (doc : Document) :
    (Coherent doc.tokens doc.tree → change.Allowed doc →
      ∃ doc', change.apply doc = .ok () doc' ∧ Coherent doc'.tokens doc'.tree) ∧
    (∀ error doc', change.apply doc = .error error doc' →
      doc'.tokens = doc.tokens ∧ doc'.tree = doc.tree) := by
  refine ⟨Change.coherent_of_allowed, ?_⟩
  intro error doc' herror
  rw [change.apply_error herror]
  exact ⟨rfl, rfl⟩

/-- Two statements, cut from the name in the first through the type in the second. -/
theorem Change.apply_coherent_twoStatements :
    ∃ doc doc', Document.load {} "int a; int b;" = .ok doc
      ∧ (Change.cut ⟨⟨2⟩, ⟨5⟩⟩).apply doc = .ok () doc' ∧ Coherent doc'.tokens doc'.tree := by
  have heval : (Document.load {} "int a; int b;").toOption.map
      (fun doc => (doc.tokens.walk ⟨⟨2⟩, ⟨5⟩⟩ true).toOption)
        = some (some [⟨2⟩, ⟨3⟩, ⟨4⟩, ⟨5⟩]) := by decide +kernel
  cases hload : Document.load {} "int a; int b;" with
  | error error =>
    rw [hload] at heval
    simp [Except.toOption] at heval
  | ok doc =>
    rw [hload] at heval
    cases hwalk : doc.tokens.walk ⟨⟨2⟩, ⟨5⟩⟩ true with
    | error error => simp [Except.toOption, hwalk] at heval
    | ok ids =>
      obtain ⟨doc', happly, hcoherent⟩ := (Change.apply_coherent (.cut ⟨⟨2⟩, ⟨5⟩⟩) doc).1
        (Document.load_coherent hload) ⟨ids, hwalk⟩
      exact ⟨doc, doc', rfl, happly, hcoherent⟩

/-- The document after a series of edits, those that are refused included. -/
def Change.applyAll : List Change → Document → Document
  | [], doc => doc
  | change :: rest, doc =>
    match change.apply doc with
    | .ok _ doc' => applyAll rest doc'
    | .error _ doc' => applyAll rest doc'

/-- Each edit of a series is refused or promised to work where its turn comes. -/
def Change.AllAllowed : List Change → Document → Prop
  | [], _ => True
  | change :: rest, doc =>
    match change.apply doc with
    | .ok _ doc' => change.Allowed doc ∧ AllAllowed rest doc'
    | .error _ doc' => AllAllowed rest doc'

/-- A series of edits keeps list and outline together. -/
theorem Change.applyAll_coherent {changes : List Change} {doc : Document}
    (h : Coherent doc.tokens doc.tree) (hallowed : Change.AllAllowed changes doc) :
    Coherent (Change.applyAll changes doc).tokens (Change.applyAll changes doc).tree := by
  induction changes generalizing doc with
  | nil => exact h
  | cons change rest ih =>
    rw [Change.AllAllowed] at hallowed
    rw [Change.applyAll]
    cases happly : change.apply doc with
    | ok u doc' =>
      rw [happly] at hallowed
      obtain ⟨doc'', happly', hcoherent⟩ := Change.coherent_of_allowed h hallowed.1
      rw [happly] at happly'
      obtain ⟨-, rfl⟩ := EStateM.Result.ok.inj happly'
      exact ih hcoherent hallowed.2
    | error error doc' =>
      rw [happly] at hallowed
      have hsame := change.apply_error happly
      rw [hsame] at hallowed ⊢
      exact ih h hallowed

end KernelPrep
