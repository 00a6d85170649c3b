/-
  KernelPrep.Proofs.Outline.Formatting — the outline does not depend on the formatting.

  Files that agree but for blanks have the same outline, and files without directives do so when
  they agree but for blanks, line ends and comments.  The trees have the same nodes with the same
  handles and links, and the range of every node but the root runs from and to tokens that
  correspond.  The root spans the whole file, with the blanks at its ends.

  Main definitions:
    * `NodeTree.Alike`       — trees that differ in the handles of tokens only;
    * `TokenList.shown`      — the tokens of a file of some kinds;
    * `TokenList.Partners`   — tokens that stand at the same place among these;
    * `TokenList.ReadAlike`  — corresponding trees, or the same error.

  Main statements:
    * `NodeTree.ofSkeletons_alike` — the trees made of what was read;
    * `TokenList.parse_formatting` — files that differ in their formatting.
-/
import KernelPrep.Proofs.Node.Forest
import KernelPrep.Proofs.Outline.Leaves
import KernelPrep.Proofs.Outline.Lockstep

namespace KernelPrep

variable {p : Pairing}

/-! ## §1. Trees -/

/-- A node without its tokens: its kind and its links. -/
def Node.bare (node : Node) : Node := { node with tokens? := none }

namespace NodeTree

/-- Trees with the same handles, kinds and links, over corresponding tokens below the root. -/
structure Alike (pairs : TokenId → TokenId → Prop) (tree tree' : NodeTree) : Prop where
  size : tree.nodes.size = tree'.nodes.size
  bare : ∀ id, (tree.get? id).map Node.bare = (tree'.get? id).map Node.bare
  tokens : ∀ id, id ≠ root → Option.Rel
    (fun range range' => pairs range.first range'.first ∧ pairs range.last range'.last)
    (tree.tokens? id) (tree'.tokens? id)

namespace Alike

variable {pairs : TokenId → TokenId → Prop} {tree tree' : NodeTree}

/-- The links of a node are the same. -/
theorem link_eq {α : Type} (h : tree.Alike pairs tree') (id : NodeId) {f : Node → Option α}
    (hf : ∀ node, f node.bare = f node) : (tree.get? id).bind f = (tree'.get? id).bind f := by
  have hbare := h.bare id
  cases hnode : tree.get? id with
  | none =>
    rw [hnode, Option.map_none] at hbare
    rw [Option.map_eq_none_iff.mp hbare.symm]
  | some node =>
    rw [hnode, Option.map_some] at hbare
    obtain ⟨node', hnode', hsame⟩ := Option.map_eq_some_iff.mp hbare.symm
    rw [hnode', Option.bind_some, Option.bind_some, ← hf node, ← hf node', hsame]

/-- Links are set alike. -/
theorem modify (h : tree.Alike pairs tree') (id : NodeId) {f : Node → Node}
    (hbare : ∀ node, (f node).bare = f node.bare)
    (htokens : ∀ node, (f node).tokens? = node.tokens?) :
    (tree.modify id f).Alike pairs (tree'.modify id f) := by
  have hmap : ∀ node? : Option Node, (node?.map f).map Node.bare = (node?.map Node.bare).map f := by
    intro node?
    cases node? with
    | none => rfl
    | some node => exact congrArg some (hbare node)
  have hrange : ∀ (tree : NodeTree) (x : NodeId),
      (tree.modify id f).tokens? x = tree.tokens? x := by
    intro tree x
    unfold tokens?
    rw [get?_modify]
    split
    · cases tree.get? x with
      | none => rfl
      | some node => exact htokens node
    · rfl
  refine ⟨by rw [size_modify, size_modify, h.size], fun x => ?_, fun x hx => ?_⟩
  · rw [get?_modify, get?_modify]
    split
    · rw [hmap, hmap, h.bare]
    · exact h.bare x
  · rw [hrange, hrange]
    exact h.tokens x hx

/-- New nodes over matching tokens keep two trees alike. -/
theorem alloc (h : tree.Alike pairs tree') (kind : NodeKind) {range range' : TokenRange}
    (hfirst : pairs range.first range'.first) (hlast : pairs range.last range'.last) :
    (tree.alloc kind (some range)).2.Alike pairs (tree'.alloc kind (some range')).2 := by
  have hnext : tree.nextId = tree'.nextId := congrArg NodeId.mk h.size
  refine ⟨?_, fun x => ?_, fun x hx => ?_⟩
  · show (tree.nodes.push _).size = (tree'.nodes.push _).size
    rw [Array.size_push, Array.size_push, h.size]
  · rw [get?_alloc, get?_alloc, hnext]
    split
    · rfl
    · exact h.bare x
  · rw [tokens?_alloc, tokens?_alloc, hnext]
    split
    · exact .some ⟨hfirst, hlast⟩
    · exact h.tokens x hx

/-- Appending the same child keeps two trees alike. -/
theorem appendChild (h : tree.Alike pairs tree') (parent child : NodeId) :
    (tree.appendChild parent child).Alike pairs (tree'.appendChild parent child) := by
  have hlast : tree.lastChild? parent = tree'.lastChild? parent := h.link_eq parent fun _ => rfl
  have hchild := h.modify child (f := fun node =>
    { node with parent? := some parent, nextSibling? := none }) (fun _ => rfl) fun _ => rfl
  unfold NodeTree.appendChild
  rw [← hlast]
  dsimp only
  cases tree.lastChild? parent with
  | none =>
    refine Alike.modify (Alike.modify hchild parent ?_ ?_) parent ?_ ?_
    all_goals exact fun _ => rfl
  | some last =>
    refine Alike.modify (Alike.modify hchild last ?_ ?_) parent ?_ ?_
    all_goals exact fun _ => rfl

end Alike

open Skeleton (AlikeAll)

mutual

/-- **Skeletons that correspond** are grafted alike, by induction on the first. -/
theorem graft_alike {tree tree' : NodeTree} (parent : NodeId) : (s : Skeleton) →
    {s' : Skeleton} → tree.Alike p.pairs tree' → s.Alike p s' →
    (tree.graft parent s).Alike p.pairs (tree'.graft parent s')
  | .node kind range children, .node kind' range' children', h, hs => by
    unfold Skeleton.Alike at hs
    obtain ⟨rfl, hrange, hchildren⟩ := hs
    unfold graft
    have hid : (tree.alloc kind (some range)).1 = (tree'.alloc kind (some range')).1 :=
      congrArg NodeId.mk h.size
    have hnew := (h.alloc kind hrange.first hrange.last).appendChild parent
      (tree.alloc kind (some range)).1
    dsimp only
    rw [← hid]
    exact graftAll_alike _ children hnew hchildren

/-- Grafting like skeletons keeps two trees alike. -/
theorem graftAll_alike {tree tree' : NodeTree} (parent : NodeId) : (ss : List Skeleton) →
    {ss' : List Skeleton} → tree.Alike p.pairs tree' → AlikeAll p ss ss' →
    (tree.graftAll parent ss).Alike p.pairs (tree'.graftAll parent ss')
  | [], [], h, _ => by
    unfold graftAll
    exact h
  | s :: rest, s' :: rest', h, hs => by
    unfold AlikeAll at hs
    unfold graftAll
    exact graftAll_alike parent rest (graft_alike parent s h hs.1) hs.2
  | [], _ :: _, _, hs => by simp [AlikeAll] at hs
  | _ :: _, [], _, hs => by simp [AlikeAll] at hs

end

/-- **The trees of items that correspond**, whatever the files span. -/
theorem ofSkeletons_alike (whole? whole?' : Option TokenRange) {items items' : List Skeleton}
    (h : AlikeAll p items items') :
    (ofSkeletons whole? items).Alike p.pairs (ofSkeletons whole?' items') := by
  refine graftAll_alike root items ⟨rfl, fun id => ?_, fun id hid => ?_⟩ h
  · obtain ⟨i⟩ := id
    cases i with
    | zero => rfl
    | succ i => rfl
  · obtain ⟨i⟩ := id
    cases i with
    | zero => exact absurd rfl hid
    | succ i => exact .none

end NodeTree

/-! ## §2. Leaves of two files -/

namespace Leaf

/-- Blanks make no leaves. -/
theorem ofTokensFrom_visible (escaped broken : Bool) (entries : List (TokenId × Token)) :
    ofTokensFrom escaped broken (entries.filter fun entry => entry.2.kind != .whitespace)
      = ofTokensFrom escaped broken entries := by
  induction entries generalizing escaped broken with
  | nil => rfl
  | cons entry rest ih =>
    obtain ⟨id, token⟩ := entry
    by_cases hblank : token.kind = .whitespace
    · rw [List.filter_cons_of_neg (by simp [hblank]), ih]
      conv_rhs => unfold ofTokensFrom
      rw [hblank]
    · rw [List.filter_cons_of_pos (by simp [hblank])]
      unfold ofTokensFrom
      simp only [ih]

/-- What a token says, apart from its handle. -/
def said (entry : TokenId × Token) : TokenKind × String × Nat :=
  (entry.2.kind, entry.2.text, entry.2.line)

/-- **Tokens that correspond** make leaves that do, when the line ends are among them. -/
theorem ofTokensFrom_alike (hlines : p.lines = true) {entries entries' : List (TokenId × Token)}
    (h : List.Forall₂ (fun entry entry' => p.pairs entry.1 entry'.1 ∧ said entry = said entry')
      entries entries') (escaped broken : Bool) :
    List.Forall₂ (Leaf.Alike p) (ofTokensFrom escaped broken entries)
      (ofTokensFrom escaped broken entries') := by
  induction h generalizing escaped broken with
  | nil => exact .nil
  | @cons entry entry' rest rest' hentry hrest ih =>
    obtain ⟨id, token⟩ := entry
    obtain ⟨id', token'⟩ := entry'
    obtain ⟨hid, hsaid⟩ := hentry
    obtain ⟨hkind, htext, hline⟩ : token.kind = token'.kind ∧ token.text = token'.text
        ∧ token.line = token'.line := by simpa [said] using hsaid
    unfold ofTokensFrom
    rw [← hkind]
    split
    · exact ih _ _
    · exact ih _ _
    · exact ih _ _
    · exact .cons ⟨hid, rfl, htext, hline, fun _ => rfl, fun hno => by simp [hlines] at hno⟩
        (ih _ _)

/-- The leaves of a file say what its significant tokens do. -/
theorem ofTokensFrom_said (escaped broken : Bool) (entries : List (TokenId × Token)) :
    (ofTokensFrom escaped broken entries).map
        (fun leaf => (leaf.id, leaf.kind, leaf.text, leaf.line))
      = (entries.filter fun entry => !entry.2.kind.isTrivia).map
          fun entry => (entry.1, said entry) := by
  induction entries generalizing escaped broken with
  | nil => rfl
  | cons entry rest ih =>
    obtain ⟨id, token⟩ := entry
    unfold ofTokensFrom
    split
    · rename_i hkind
      rw [List.filter_cons_of_neg (by simp [hkind, TokenKind.isTrivia]), ih]
    · rename_i hkind
      rw [List.filter_cons_of_neg (by simp [hkind, TokenKind.isTrivia]), ih]
    · rename_i hkind
      rw [List.filter_cons_of_neg (by simp [hkind, TokenKind.isTrivia]), ih]
    · rename_i hblank heol hcomment
      have hsig : token.kind.isTrivia = false := by
        cases hk : token.kind <;> simp_all [TokenKind.isTrivia]
      rw [List.filter_cons_of_pos (by simp [hsig]), List.map_cons, List.map_cons, ih]
      rfl

end Leaf

namespace TokenList

variable {list list' : TokenList} {keep : TokenKind → Bool}

/-- The tokens of a file that are of the kinds to keep. -/
def shown (list : TokenList) (keep : TokenKind → Bool) : List (TokenId × Token) :=
  list.entries.filter fun entry => keep entry.2.kind

/-- Tokens that stand at the same place among those shown. -/
def Partners (keep : TokenKind → Bool) (list list' : TokenList) (a a' : TokenId) : Prop :=
  ∃ i : Nat, ((list.shown keep).map (·.1))[i]? = some a
    ∧ ((list'.shown keep).map (·.1))[i]? = some a'

/-- Outcomes that correspond: trees that are alike, or the same error. -/
def OutcomeAlike (pairs : TokenId → TokenId → Prop) :
    Except ParseError NodeTree → Except ParseError NodeTree → Prop
  | .ok tree, .ok tree' => tree.Alike pairs tree'
  | .error error, .error error' => error = error'
  | _, _ => False

/-- **Two files with the same outline.**  If it is an error, as many nodes were begun. -/
structure ReadAlike (pairs : TokenId → TokenId → Prop) (list list' : TokenList) : Prop where
  outcome : OutcomeAlike pairs list.parse list'.parse
  nodeCount : (Outline.parse list.leaves).nodeCount = (Outline.parse list'.leaves).nodeCount

/-- **Leaves that correspond** make files with the same outline. -/
theorem readAlike_of_leaves (h : List.Forall₂ (Leaf.Alike p) list.leaves list'.leaves) :
    ReadAlike p.pairs list list' := by
  obtain ⟨hitems, hopened, herror⟩ := Outline.parse_alike h
  refine ⟨?_, congrArg (· + 1) hopened⟩
  unfold parse
  dsimp only
  rw [← herror]
  cases (Outline.parse list.leaves).error? with
  | none => exact NodeTree.ofSkeletons_alike _ _ hitems
  | some error => rfl

/-! ## §3. Places among the tokens shown -/

/-- The entries of a list are those of its tokens. -/
theorem entries_ids (h : list.WellFormed) : list.entries.map (·.1) = list.ids := by
  unfold entries
  have hlive : ∀ ids : List TokenId, (∀ id ∈ ids, ∃ token, list.get? id = some token) →
      (ids.filterMap fun id => (list.get? id).map (id, ·)).map (·.1) = ids := by
    intro ids hids
    induction ids with
    | nil => rfl
    | cons id rest ih =>
      obtain ⟨token, htoken⟩ := hids id List.mem_cons_self
      rw [List.filterMap_cons, htoken]
      exact congrArg (id :: ·) (ih fun x hx => hids x (List.mem_cons_of_mem _ hx))
  refine hlive _ fun id hid => ?_
  obtain ⟨token, htoken, -⟩ := h.threaded.get?_of_mem hid
  exact ⟨token, htoken⟩

theorem shown_nodup (h : list.WellFormed) (keep : TokenKind → Bool) :
    ((list.shown keep).map (·.1)).Nodup := by
  refine List.Nodup.sublist (List.filter_sublist.map _) ?_
  rw [entries_ids h]
  exact h.threaded.nodup

/-- A token stands at one place only, so it has one partner. -/
def pairing (h : list.WellFormed) (h' : list'.WellFormed) (keep : TokenKind → Bool)
    (lines : Bool) : Pairing where
  pairs := Partners keep list list'
  unique := by
    have hplace : ∀ {ids : List TokenId}, ids.Nodup → ∀ {i j : Nat} {a : TokenId},
        ids[i]? = some a → ids[j]? = some a → i = j := by
      intro ids hnodup i j a hi hj
      exact (List.getElem?_inj (List.getElem?_eq_some_iff.mp hi).1 hnodup).mp (hi.trans hj.symm)
    rintro a b a' b' ⟨i, ha, ha'⟩ ⟨j, hb, hb'⟩
    constructor
    · rintro rfl
      obtain rfl := hplace (shown_nodup h keep) ha hb
      exact Option.some.inj (ha'.symm.trans hb')
    · rintro rfl
      obtain rfl := hplace (shown_nodup h' keep) ha' hb'
      exact Option.some.inj (ha.symm.trans hb)
  lines := lines

/-- **Tokens shown that say the same** stand at the same places. -/
theorem shown_alike
    (hsaid : (list.shown keep).map Leaf.said = (list'.shown keep).map Leaf.said) :
    List.Forall₂ (fun entry entry' =>
        Partners keep list list' entry.1 entry'.1 ∧ Leaf.said entry = Leaf.said entry')
      (list.shown keep) (list'.shown keep) := by
  have hlength : (list.shown keep).length = (list'.shown keep).length := by
    rw [← List.length_map Leaf.said, hsaid, List.length_map]
  refine List.forall₂_iff_get.mpr ⟨hlength, fun i hi hi' => ⟨⟨i, ?_, ?_⟩, ?_⟩⟩
  · rw [List.getElem?_map, List.getElem?_eq_getElem hi]
    rfl
  · rw [List.getElem?_map, List.getElem?_eq_getElem hi']
    rfl
  · have hat : ((list.shown keep).map Leaf.said)[i]? = ((list'.shown keep).map Leaf.said)[i]? := by
      rw [hsaid]
    rw [List.getElem?_map, List.getElem?_map, List.getElem?_eq_getElem hi,
      List.getElem?_eq_getElem hi'] at hat
    exact Option.some.inj hat

/-! ## §4. Formatting -/

/-- Files that agree but for blanks have the same outline. -/
theorem parse_blanks (h : list.WellFormed) (h' : list'.WellFormed)
    (hsaid : (list.shown (· != .whitespace)).map Leaf.said
      = (list'.shown (· != .whitespace)).map Leaf.said) :
    ReadAlike (Partners (· != .whitespace) list list') list list' := by
  refine readAlike_of_leaves (p := pairing h h' (· != .whitespace) true) ?_
  unfold leaves Leaf.ofTokens
  rw [← Leaf.ofTokensFrom_visible, ← Leaf.ofTokensFrom_visible _ _ list'.entries]
  exact Leaf.ofTokensFrom_alike rfl (shown_alike hsaid) false false

/-- Files without directives that agree but for trivia have the same outline. -/
theorem parse_trivia (h : list.WellFormed) (h' : list'.WellFormed)
    (hhash : ∀ id ∈ list.ids, list.kind? id ≠ some .hash)
    (hsaid : (list.shown (!·.isTrivia)).map Leaf.said
      = (list'.shown (!·.isTrivia)).map Leaf.said) :
    ReadAlike (Partners (!·.isTrivia) list list') list list' := by
  refine readAlike_of_leaves (p := pairing h h' (!·.isTrivia) false) ?_
  have hkinds : ∀ leaf ∈ list.leaves, leaf.kind ≠ .hash := by
    intro leaf hleaf hkind
    obtain ⟨hid, hsame, -⟩ := leaf_token hleaf
    exact hhash _ hid (by rw [hsame, hkind])
  -- both lists of leaves say what the tokens shown do
  have htold : List.Forall₂
      (fun told told' => Partners (!·.isTrivia) list list' told.1 told'.1 ∧ told.2 = told'.2)
      (list.leaves.map fun leaf => (leaf.id, leaf.kind, leaf.text, leaf.line))
      (list'.leaves.map fun leaf => (leaf.id, leaf.kind, leaf.text, leaf.line)) := by
    unfold leaves Leaf.ofTokens
    rw [Leaf.ofTokensFrom_said, Leaf.ofTokensFrom_said, List.forall₂_map_left_iff,
      List.forall₂_map_right_iff]
    exact shown_alike hsaid
  rw [List.forall₂_map_left_iff, List.forall₂_map_right_iff] at htold
  refine ((List.forall₂_and_left _ _).mpr ⟨hkinds, htold⟩).imp ?_
  rintro leaf leaf' ⟨hkind, hid, hsame⟩
  obtain ⟨hsame, htext, hline⟩ := by simpa using hsame
  exact ⟨hid, hsame, htext, hline, fun hlines => Bool.noConfusion hlines, fun _ => hkind⟩

/-- **The outline does not depend on the formatting.**  Blanks never matter, and line ends and
    comments do so in files with directives only. -/
theorem parse_formatting (h : list.WellFormed) (h' : list'.WellFormed) :
    ((list.shown (· != .whitespace)).map Leaf.said
        = (list'.shown (· != .whitespace)).map Leaf.said →
      ReadAlike (Partners (· != .whitespace) list list') list list')
    ∧ ((∀ id ∈ list.ids, list.kind? id ≠ some .hash) →
      (list.shown (!·.isTrivia)).map Leaf.said = (list'.shown (!·.isTrivia)).map Leaf.said →
      ReadAlike (Partners (!·.isTrivia) list list') list list') :=
  ⟨parse_blanks h h', parse_trivia h h'⟩

/-- A call with blanks and without, and one with a comment behind it. -/
theorem parse_formatting_call :
    ∃ list blanks comment, TokenList.lex "f(a);" = .ok list
      ∧ TokenList.lex "f ( a ) ;" = .ok blanks ∧ TokenList.lex "f(a); // b" = .ok comment
      ∧ (∃ tree, list.parse = .ok tree)
      ∧ ReadAlike (Partners (· != .whitespace) list blanks) list blanks
      ∧ ReadAlike (Partners (!·.isTrivia) list comment) list comment := by
  have hread : ∀ source : String, (TokenList.lex source).isOk = true →
      ∃ list, TokenList.lex source = .ok list ∧ list.WellFormed := by
    intro source hok
    cases hlex : TokenList.lex source with
    | ok list => exact ⟨list, rfl, (lex_unedited hlex).wellFormed⟩
    | error error => simp [hlex, Except.isOk, Except.toBool] at hok
  obtain ⟨list, hlist, hwell⟩ := hread "f(a);" (by decide)
  obtain ⟨blanks, hblanks, hwell'⟩ := hread "f ( a ) ;" (by decide)
  obtain ⟨comment, hcomment, hwell''⟩ := hread "f(a); // b" (by decide)
  -- what follows from evaluating the files
  have hvalue : ∀ (f : TokenList → Bool) {source : String} {list : TokenList},
      TokenList.lex source = .ok list → (TokenList.lex source).toOption.map f = some true →
      f list = true := by
    intro f source list hlex heval
    rw [hlex] at heval
    exact Option.some.inj heval
  have hsaid : ∀ (keep : TokenKind → Bool) {source source' : String} {list list' : TokenList},
      TokenList.lex source = .ok list → TokenList.lex source' = .ok list' →
      (TokenList.lex source).toOption.map (fun list => (list.shown keep).map Leaf.said)
        = (TokenList.lex source').toOption.map (fun list => (list.shown keep).map Leaf.said) →
      (list.shown keep).map Leaf.said = (list'.shown keep).map Leaf.said := by
    intro keep source source' list list' hlex hlex' heval
    rw [hlex, hlex'] at heval
    exact Option.some.inj heval
  refine ⟨list, blanks, comment, hlist, hblanks, hcomment, ?_, ?_, ?_⟩
  · have hparse := hvalue (fun list => list.parse.toOption.isSome) hlist (by decide)
    obtain ⟨tree, htree⟩ := Option.isSome_iff_exists.mp hparse
    cases hout : list.parse with
    | ok tree => exact ⟨tree, rfl⟩
    | error error => simp [hout, Except.toOption] at htree
  · exact (parse_formatting hwell hwell').1 (hsaid _ hlist hblanks (by decide +kernel))
  · refine (parse_formatting hwell hwell'').2 ?_ (hsaid _ hlist hcomment (by decide +kernel))
    have hhash := hvalue (fun list => list.ids.all fun id => list.kind? id != some .hash)
      hlist (by decide)
    intro id hid
    simpa using List.all_eq_true.mp hhash id hid

end TokenList

end KernelPrep
