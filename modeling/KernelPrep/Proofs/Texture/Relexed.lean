/-
  KernelPrep.Proofs.Texture.Relexed — the leaves of a prepared file.

  When a prepared file is read again, its tokens fall into those put before each token of the
  loaded file, those in its place and those put behind it, and so do its leaves.  A leaf that
  stands for another starts a line if that one did: line ends are lost only between the tokens
  of a use, and lines put in end with one.

  Main definitions:
    * `Weave.Relexed` — the tokens of a prepared file that was read again;
    * `Weave.Relexed.recast` — what becomes of each leaf;
    * `Weave.Within`  — a place between the tokens of a use.

  Main statements:
    * `Weave.Relexed.leaves_eq`  — the leaves of the prepared file;
    * `Weave.Done.margin_under`  — where lines start in the two files;
    * `Weave.Relexed.stands_self`, `Weave.Relexed.stands_named` — leaves in place of others;
    * `Weave.Relexed.led` — the lines put in.
-/
import KernelPrep.Proofs.Outline.Rescope
import KernelPrep.Proofs.Texture.Inserted
import KernelPrep.Proofs.Texture.Owned

namespace KernelPrep

open Weave (Declared)

/-! ## §1. Tokens in groups -/

/-- Entries whose faces fall into parts fall into the entries of each part. -/
theorem exists_parts {α β γ : Type} [DecidableEq α] {items : List α} (hnodup : items.Nodup)
    {entries : List γ} {face : γ → β} {part : α → List β}
    (h : entries.map face = items.flatMap part) :
    ∃ own : α → List γ, entries = items.flatMap own
      ∧ ∀ item ∈ items, (own item).map face = part item := by
  induction items generalizing entries with
  | nil => exact ⟨fun _ => [], List.map_eq_nil_iff.mp h, by simp⟩
  | cons first items ih =>
    obtain ⟨hfirst, hnodup⟩ := List.nodup_cons.mp hnodup
    rw [List.flatMap_cons] at h
    obtain ⟨head, tail, rfl, hhead, htail⟩ := List.map_eq_append_iff.mp h
    obtain ⟨own, rfl, hown⟩ := ih hnodup htail
    have hother : ∀ item ∈ items, Function.update own first head item = own item :=
      fun item hitem => Function.update_of_ne (fun he : item = first => hfirst (he ▸ hitem)) _ _
    refine ⟨Function.update own first head, ?_, List.forall_mem_cons.mpr ⟨?_, ?_⟩⟩
    · rw [List.flatMap_cons, Function.update_self, List.flatMap_congr hother]
    · rw [Function.update_self, hhead]
    · intro item hitem
      rw [hother item hitem, hown item hitem]

namespace TokenList

theorem flatMap_spells (list : TokenList) (ids : List TokenId) :
    ids.flatMap (fun id => list.spells [id]) = list.spells ids := by
  induction ids with
  | nil => rfl
  | cons id ids ih =>
    rw [List.flatMap_cons, ih, ← spells_append]
    rfl

theorem faces_entries (list : TokenList) : Token.faces list.entries = list.spells list.ids := by
  unfold Token.faces entries spells
  rw [List.map_filterMap]
  refine List.filterMap_congr fun id _ => ?_
  rw [Option.map_map]
  rfl

end TokenList

/-! ## §2. The tokens of a prepared file -/

namespace Weave

/-- The tokens of a prepared file that was read again, by the tokens of the loaded one. -/
structure Relexed (doc : Document) (types : List Declared) (new : TokenList) where
  lead : TokenId → List (TokenId × Token)
  core : TokenId → List (TokenId × Token)
  trail : TokenId → List (TokenId × Token)
  entries_eq : new.entries = doc.tokens.ids.flatMap fun id => lead id ++ (core id ++ trail id)
  lead_faces : ∀ id ∈ doc.tokens.ids, Token.faces (lead id) = (final doc types id).lead
  core_faces : ∀ id ∈ doc.tokens.ids,
    Token.faces (core id) = (final doc types id).core?.getD (doc.tokens.spells [id])
  trail_faces : ∀ id ∈ doc.tokens.ids, Token.faces (trail id) = (final doc types id).trail

/-- The margin of the prepared file before what became of a token. -/
def margin (doc : Document) (types : List Declared) (id : TokenId) : Margin :=
  Margin.start.behind (woven doc types (doc.tokens.ids.takeWhile (· ≠ id)))

/-- The margin of the prepared file before what stands in place of a token. -/
def inset (doc : Document) (types : List Declared) (id : TokenId) : Margin :=
  (margin doc types id).behind (final doc types id).lead

/-- The margin of the prepared file before what stands behind a token. -/
def outset (doc : Document) (types : List Declared) (id : TokenId) : Margin :=
  (inset doc types id).behind ((final doc types id).core?.getD (doc.tokens.spells [id]))

/-- **A file that reads as the prepared one** falls into what became of each token. -/
theorem exists_relexed {doc : Document} {types : List Declared} {new : TokenList}
    (hnodup : doc.tokens.ids.Nodup)
    (h : new.spells new.ids = woven doc types doc.tokens.ids) :
    Nonempty (Relexed doc types new) := by
  have hfaces := new.faces_entries.trans h
  obtain ⟨own, hentries, hown⟩ := exists_parts hnodup hfaces
  -- each part falls into three
  have hthree : ∀ id, ∃ lead core trail, id ∈ doc.tokens.ids →
      own id = lead ++ (core ++ trail) ∧ Token.faces lead = (final doc types id).lead
        ∧ Token.faces core = (final doc types id).core?.getD (doc.tokens.spells [id])
        ∧ Token.faces trail = (final doc types id).trail := by
    intro id
    by_cases hid : id ∈ doc.tokens.ids
    · have hpart := hown id hid
      unfold Weft.spelling at hpart
      rw [List.append_assoc] at hpart
      obtain ⟨lead, more, hlead, hleadFaces, hmore⟩ := List.map_eq_append_iff.mp hpart
      obtain ⟨core, trail, rfl, hcore, htrail⟩ := List.map_eq_append_iff.mp hmore
      exact ⟨lead, core, trail, fun _ => ⟨hlead, hleadFaces, hcore, htrail⟩⟩
    · exact ⟨[], [], [], fun hin => absurd hin hid⟩
  choose lead core trail hparts using hthree
  refine ⟨⟨lead, core, trail, ?_, fun id hid => (hparts id hid).2.1,
    fun id hid => (hparts id hid).2.2.1, fun id hid => (hparts id hid).2.2.2⟩⟩
  rw [hentries]
  exact List.flatMap_congr fun id hid => (hparts id hid).1

namespace Relexed

variable {doc : Document} {types : List Declared} {new : TokenList} (r : Relexed doc types new)

/-- What becomes of each leaf. -/
def recast : Recast where
  lead leaf := (margin doc types leaf.id).leaves (r.lead leaf.id)
  core leaf := (inset doc types leaf.id).leaves (r.core leaf.id)
  trail leaf := (outset doc types leaf.id).leaves (r.trail leaf.id)

/-- The leaves of what became of a token. -/
def chunkAt (id : TokenId) : List Leaf :=
  (margin doc types id).leaves (r.lead id)
    ++ ((inset doc types id).leaves (r.core id) ++ (outset doc types id).leaves (r.trail id))

/-- The leaves of the result are the chunks of the tokens of the source, one behind the other. -/
theorem leaves_chunkAt (hnodup : doc.tokens.ids.Nodup) :
    new.leaves = doc.tokens.ids.flatMap r.chunkAt := by
  show Margin.start.leaves new.entries = _
  rw [r.entries_eq, Margin.leaves_flatMap hnodup]
  refine List.flatMap_congr fun id hid => ?_
  have hbefore : Token.faces ((doc.tokens.ids.takeWhile (· ≠ id)).flatMap
      fun id => r.lead id ++ (r.core id ++ r.trail id))
        = woven doc types (doc.tokens.ids.takeWhile (· ≠ id)) := by
    unfold Token.faces woven
    rw [List.map_flatMap]
    refine List.flatMap_congr fun x hx => ?_
    have hx := (List.takeWhile_sublist _).subset hx
    show Token.faces _ = _
    unfold Weft.spelling
    rw [Token.faces_append, Token.faces_append, r.lead_faces x hx, r.core_faces x hx,
      r.trail_faces x hx, List.append_assoc]
  rw [hbefore, Margin.leaves_append, Margin.leaves_append, r.lead_faces id hid, r.core_faces id hid]
  rfl

end Relexed

/-! ## §3. Where lines start -/

/-- The place before the token of the number is between the tokens of a use. -/
def Within (types : List Declared) (place : Nat) : Prop :=
  ∃ u ∈ uses types, u.2.keyword.index < place ∧ place ≤ (cut u.2).last.index

namespace Done

variable {doc : Document} {types : List Declared} {a b : List TokenId} {id : TokenId}

theorem margin_eq (h : Done doc types) (hids : doc.tokens.ids = a ++ id :: b) :
    margin doc types id = Margin.start.behind (woven doc types a) := by
  unfold margin
  rw [takeWhile_ne_eq h.loaded.threaded.nodup hids]

theorem woven_concat (doc : Document) (types : List Declared) (a : List TokenId) (id : TokenId) :
    woven doc types (a ++ [id])
      = woven doc types a ++ (final doc types id).spelling (doc.tokens.spells [id]) := by
  unfold woven
  rw [List.flatMap_append, List.flatMap_singleton]

/-- Behind what became of a token comes the next margin. -/
theorem behind_concat (doc : Document) (types : List Declared) (a : List TokenId) (id : TokenId) :
    Margin.start.behind (woven doc types (a ++ [id]))
      = (((Margin.start.behind (woven doc types a)).behind (final doc types id).lead).behind
        ((final doc types id).core?.getD (doc.tokens.spells [id]))).behind
          (final doc types id).trail := by
  rw [woven_concat, Margin.behind_append]
  unfold Weft.spelling
  rw [Margin.behind_append, Margin.behind_append]

/-- Lines put in leave a margin under which a line starts. -/
theorem under_lead (doc : Document) (types : List Declared) (id : TokenId) {m m' : Margin}
    (h : m.Under m') : m.Under (m'.behind (final doc types id).lead) := by
  by_cases hlead : (final doc types id).lead = []
  · rw [hlead]
    exact h
  · rw [(lead_lines doc types id).behind_eq hlead]
    exact m.under_newLine

/-- Tokens of the file are significant where something is put before or behind them. -/
theorem significant (h : Done doc types) (hid : id ∈ doc.tokens.ids)
    (hput : (final doc types id).lead ≠ [] ∨ (final doc types id).trail ≠ []) :
    doc.tokens.isSignificant id = true := by
  rcases hput with hlead | htrail
  · obtain ⟨construct, hscope, hstarts⟩ := h.led id hid hlead
    obtain ⟨hbelow, hne⟩ := h.loaded.below_of_atScope hscope
    exact (h.loaded.starts hbelow hne hstarts).2.1
  · obtain ⟨function, body, hbody, hstarts⟩ := h.trailed id hid htrail
    have hplain := h.loaded.plain_body hbody
    exact (h.loaded.starts hplain.below hplain.ne_root hstarts).2.1

/-- Nothing stands around trivia. -/
theorem bare_trivia (h : Done doc types) (hid : id ∈ doc.tokens.ids)
    (htrivia : doc.tokens.isSignificant id = false) :
    (final doc types id).lead = [] ∧ (final doc types id).trail = [] := by
  constructor
  · by_contra hne
    rw [h.significant hid (.inl hne)] at htrivia
    exact Bool.noConfusion htrivia
  · by_contra hne
    rw [h.significant hid (.inr hne)] at htrivia
    exact Bool.noConfusion htrivia

/-- Lines are put before no token behind the keyword of a use. -/
theorem lead_not_within (h : Done doc types) (hid : id ∈ doc.tokens.ids)
    (hlead : (final doc types id).lead ≠ []) : ¬ Within types id.index := by
  rintro ⟨u, hu, hlow, hhigh⟩
  obtain ⟨construct, hscope, hstarts⟩ := h.led id hid hlead
  exact Lowering.scope_uncut h.loaded (h.found u hu) hscope hstarts hlow hhigh

/-- The last token of a use is significant. -/
theorem cut_significant (h : Done doc types) {u : Declared × Occurrence} (hu : u ∈ uses types) :
    doc.tokens.isSignificant (cut u.2).last = true :=
  Document.HasNode.significant_of_own (cut_last_own (h.found u hu))

/-- **Where lines start in the two files**: nothing is left of a line end between the tokens of a
    use, and elsewhere a line of the prepared file starts where one of the loaded file does. -/
theorem margin_under (h : Done doc types) (hids : doc.tokens.ids = a ++ b) :
    (Within types a.length → Margin.start.behind (woven doc types a) = .start)
      ∧ (¬ Within types a.length →
        (Margin.start.behind (doc.tokens.spells a)).Under
          (Margin.start.behind (woven doc types a))) := by
  induction a using List.reverseRecOn generalizing b with
  | nil =>
    refine ⟨?_, fun _ => .refl _⟩
    rintro ⟨u, -, hlow, -⟩
    simp at hlow
  | append_singleton a id ih =>
    have hfile : doc.tokens.ids = a ++ id :: b := by simpa using hids
    have hid : id ∈ doc.tokens.ids := by simp [hfile]
    obtain ⟨hin, hout⟩ := ih hfile
    have hindex := h.loaded.unedited.index_eq hfile
    obtain ⟨token, htoken, -⟩ := h.loaded.threaded.get?_of_mem hid
    have hspells : doc.tokens.spells [id] = [(token.kind, token.text)] := by
      rw [TokenList.spells_cons htoken]
      rfl
    have hold : Margin.start.behind (doc.tokens.spells (a ++ [id]))
        = (Margin.start.behind (doc.tokens.spells a)).step token.kind := by
      rw [TokenList.spells_append, Margin.behind_append, hspells]
      rfl
    rw [behind_concat, hold, List.length_append, List.length_singleton]
    rcases h.core?_cases id with ⟨hself, houtside⟩ | ⟨u, hu, rfl, hcore⟩ | ⟨-, u, hu, hlow, hhigh⟩
    · -- the token stands for itself
      have hnot : ∀ place, id.index ≤ place → place ≤ id.index + 1 → ¬ Within types place := by
        rintro place hlow hhigh ⟨u, hu, hkey, hlast⟩
        exact houtside u hu ⟨by omega, by omega⟩
      refine ⟨fun hwithin => absurd hwithin (hnot _ (by omega) (by omega)), fun _ => ?_⟩
      have hunder := (under_lead doc types id (hout (hnot _ (by omega) (by omega)))).step token.kind
      rw [show (final doc types id).core? = none from hself, Option.getD_none, hspells]
      by_cases htrail : (final doc types id).trail = []
      · rw [htrail]
        exact hunder
      · -- bindings stand behind a brace
        have hsig := h.significant hid (.inr htrail)
        rw [TokenList.isSignificant_of_get? htoken, Bool.not_eq_true'] at hsig
        rw [(trail_bindings doc types id).behind_eq htrail, Margin.step_of_leaf hsig]
        exact ⟨fun hbroken => Bool.noConfusion hbroken, fun hescaped => Bool.noConfusion hescaped⟩
    · -- a use begins
      have hsymbol : token.kind = .symbol := by
        have hkind := (h.worded u hu).keyword
        rw [TokenList.kind?_of_get? htoken] at hkind
        exact Option.some.inj hkind
      have htrail : (final doc types u.2.keyword).trail = [] := by
        by_contra hne
        obtain ⟨function, body, hbody, hstarts⟩ := h.trailed _ hid hne
        exact Lowering.start_uncut h.loaded (h.found u hu) hbody hstarts
          ⟨Nat.le_refl _, cut_forward h.loaded (h.found u hu)⟩
      rw [show (final doc types u.2.keyword).core? = _ from hcore, Option.getD_some, htrail,
        Margin.behind_nil, behind_replacement, hsymbol]
      exact ⟨fun _ => rfl, fun _ => .refl _⟩
    · -- the token is gone
      have hnil := h.spelling_inside hu hid hlow hhigh (doc.tokens.spells [id])
      have hnone := hin ⟨u, hu, by omega, by omega⟩
      rw [← behind_concat, woven_concat, hnil, List.append_nil, hnone]
      refine ⟨fun _ => rfl, fun hwithin => ?_⟩
      -- it is the last of the use
      have hlast : (cut u.2).last = id := by
        refine TokenId.ext_index (Nat.le_antisymm ?_ hhigh)
        by_contra hlt
        exact hwithin ⟨u, hu, by omega, by omega⟩
      have hsig := h.cut_significant hu
      rw [hlast, TokenList.isSignificant_of_get? htoken, Bool.not_eq_true'] at hsig
      rw [Margin.step_of_leaf hsig]
      exact ⟨fun hbroken => Bool.noConfusion hbroken, fun hescaped => Bool.noConfusion hescaped⟩

end Done

/-! ## §4. What becomes of a leaf -/

namespace Relexed

variable {doc : Document} {types : List Declared} {new : TokenList} (r : Relexed doc types new)
  {x : Leaf} {u : Declared × Occurrence}

/-- A leaf and what is behind it, as tokens. -/
theorem spells_leaf {list : TokenList} (hx : x ∈ list.leaves) (ids : List TokenId) :
    list.spells (x.id :: ids) = (x.kind, x.text) :: list.spells ids := by
  obtain ⟨-, hkind, htext⟩ := TokenList.leaf_token hx
  obtain ⟨token, htoken, hsame, htext'⟩ := TokenList.get?_of_kind? hkind
  rw [TokenList.spells_cons htoken, hsame, htext', htext]

/-- A leaf is a token of the file that is not formatting. -/
theorem leaf_significant (h : Done doc types) (hx : x ∈ doc.tokens.leaves) :
    x.id ∈ doc.tokens.ids ∧ x.kind.isTrivia = false := by
  obtain ⟨hid, hsig⟩ := (TokenList.mem_leaves_iff h.loaded.threaded).mp ⟨x, hx, rfl⟩
  obtain ⟨-, hkind, -⟩ := TokenList.leaf_token hx
  obtain ⟨token, htoken, hsame, -⟩ := TokenList.get?_of_kind? hkind
  rw [TokenList.isSignificant_of_get? htoken, hsame] at hsig
  exact ⟨hid, by simpa using hsig⟩

/-- Nothing becomes of trivia. -/
theorem chunkAt_trivia (h : Done doc types) {id : TokenId} (hid : id ∈ doc.tokens.ids)
    (htrivia : doc.tokens.isSignificant id = false) : r.chunkAt id = [] := by
  have hbare := h.bare_trivia hid htrivia
  have hlead := r.lead_faces id hid
  have htrail := r.trail_faces id hid
  rw [hbare.1] at hlead
  rw [hbare.2] at htrail
  unfold chunkAt
  rw [List.map_eq_nil_iff.mp hlead, List.map_eq_nil_iff.mp htrail, Margin.leaves_nil,
    Margin.leaves_nil, List.nil_append, List.append_nil]
  have hcore := r.core_faces id hid
  obtain ⟨token, htoken, -⟩ := h.loaded.threaded.get?_of_mem hid
  rw [TokenList.isSignificant_of_get? htoken] at htrivia
  rcases h.core?_cases id with ⟨hself, -⟩ | ⟨u, hu, rfl, -⟩ | ⟨hgone, -⟩
  -- a token that is kept stands for itself, and formatting is no leaf
  · rw [show (final doc types id).core? = none from hself, Option.getD_none,
      TokenList.spells_cons htoken] at hcore
    obtain ⟨⟨id', token'⟩, hone, hface⟩ := List.map_eq_singleton_iff.mp hcore
    obtain ⟨hkind, -⟩ := Prod.mk.inj hface
    dsimp only at hkind
    rw [hone, Margin.leaves_cons, hkind, if_pos (by simpa using htrivia)]
    rfl
  -- a keyword is significant
  · have hkind := (h.worded u hu).keyword
    rw [TokenList.kind?_of_get? htoken] at hkind
    rw [Option.some.inj hkind] at htrivia
    exact Bool.noConfusion htrivia
  · rw [show (final doc types id).core? = some [] from hgone] at hcore
    rw [List.map_eq_nil_iff.mp hcore, Margin.leaves_nil]

/-- **The leaves of the prepared file** are what becomes of those of the loaded one. -/
theorem leaves_eq (h : Done doc types) :
    new.leaves = doc.tokens.leaves.flatMap r.recast.chunk := by
  have hlist := h.loaded.threaded
  have hkept : ∀ ids : List TokenId, (∀ id ∈ ids, id ∈ doc.tokens.ids) →
      ids.flatMap r.chunkAt = (ids.filter doc.tokens.isSignificant).flatMap r.chunkAt := by
    intro ids hids
    induction ids with
    | nil => rfl
    | cons id ids ih =>
      have ih := ih fun x hx => hids x (List.mem_cons_of_mem _ hx)
      cases hsig : doc.tokens.isSignificant id with
      | true => rw [List.filter_cons_of_pos hsig, List.flatMap_cons, List.flatMap_cons, ih]
      | false =>
        rw [List.filter_cons_of_neg (by simp [hsig]), List.flatMap_cons,
          r.chunkAt_trivia h (hids id List.mem_cons_self) hsig, List.nil_append, ih]
  rw [r.leaves_chunkAt hlist.nodup, hkept _ fun _ hid => hid, ← TokenList.leaves_ids hlist,
    List.flatMap_map]
  rfl

/-- One leaf in place of another, by the token that became of it. -/
theorem core_single (h : Done doc types) (hx : x ∈ doc.tokens.leaves) {kind : TokenKind}
    {text : String} (hkind : kind.isTrivia = false)
    (hcore : (final doc types x.id).core?.getD (doc.tokens.spells [x.id]) = [(kind, text)]) :
    r.recast.core x = [r.recast.image x] ∧ (r.recast.image x).kind = kind
      ∧ (r.recast.image x).text = text
      ∧ (r.recast.image x).startsLine = (inset doc types x.id).broken := by
  have hfaces := r.core_faces x.id (leaf_significant h hx).1
  rw [hcore] at hfaces
  obtain ⟨⟨id, token⟩, hone, hface⟩ := List.map_eq_singleton_iff.mp hfaces
  obtain ⟨rfl, rfl⟩ := Prod.mk.inj hface
  have hleaf : r.recast.core x = [⟨id, token.kind, token.text, token.line,
      (inset doc types x.id).broken⟩] := by
    show (inset doc types x.id).leaves (r.core x.id) = _
    rw [hone, Margin.leaves_cons, if_neg (by simp [hkind])]
    rfl
  unfold Recast.image
  rw [hleaf]
  exact ⟨rfl, rfl, rfl, rfl⟩

/-- A line starts in the prepared file where one does in the loaded file. -/
theorem inset_broken (h : Done doc types) (hx : x ∈ doc.tokens.leaves)
    (hplace : ¬ Within types x.id.index) (hline : x.startsLine = true) :
    (inset doc types x.id).broken = true := by
  obtain ⟨hid, -⟩ := leaf_significant h hx
  obtain ⟨a, b, hids⟩ := List.append_of_mem hid
  rw [TokenList.startsLine_eq h.loaded.threaded hx hids] at hline
  have hunder := (h.margin_under hids).2 (by rwa [← h.loaded.unedited.index_eq hids])
  unfold inset
  rw [h.margin_eq hids]
  exact (Done.under_lead doc types x.id hunder).broken hline

/-- Tokens that stand for themselves, and the keywords of uses, are not between the tokens of
    a use. -/
theorem not_within (h : Done doc types) {id : TokenId}
    (hstands : core? doc (uses types) id = none ∨ ∃ u ∈ uses types, u.2.keyword = id) :
    ¬ Within types id.index := by
  rintro ⟨v, hv, hlow, hhigh⟩
  rcases hstands with hself | ⟨u, hu, rfl⟩
  · exact (core?_none h.loaded h.found id).mp hself v hv ⟨Nat.le_of_lt hlow, hhigh⟩
  · have hsame := h.apart v hv u hu
      ((mem_cut_iff h.loaded (h.found v hv) _).mpr ⟨Nat.le_of_lt hlow, hhigh⟩)
    rw [hsame] at hlow
    exact Nat.lt_irrefl _ hlow

/-- **A leaf that was left alone** stands for itself. -/
theorem stands_self (h : Done doc types) (hx : x ∈ doc.tokens.leaves)
    (hself : core? doc (uses types) x.id = none) :
    r.recast.Stands x ∧ (r.recast.image x).text = x.text := by
  obtain ⟨hcore, hkind, htext, hline⟩ := r.core_single h hx (leaf_significant h hx).2 (by
    rw [show (final doc types x.id).core? = none from hself, Option.getD_none, spells_leaf hx]; rfl)
  refine ⟨⟨hcore, hkind, by rw [htext], by rw [htext], by rw [htext], fun hstarts => ?_⟩, htext⟩
  rw [hline]
  exact inset_broken h hx (not_within h (.inl hself)) hstarts

/-- Words that the outline knows are no names of types and no keywords of textures. -/
theorem known_words {word : String}
    (h : word ∈ "extern" :: (Outline.attributeWords ++ Outline.aggregateWords)) :
    (∀ kind n, typeName kind n ≠ word) ∧ Signature.ofKeyword? word = none := by
  have hall : ∀ word ∈ "extern" :: (Outline.attributeWords ++ Outline.aggregateWords),
      (word.toList[2]? ≠ some 'T' ∧ word.toList[2]? ≠ some 'S')
        ∧ Signature.ofKeyword? word = none := by decide
  obtain ⟨hchars, hnone⟩ := hall word h
  refine ⟨?_, hnone⟩
  rintro kind n rfl
  rcases (typeName_chars kind n).1 with he | he
  · exact hchars.1 he
  · exact hchars.2 he

/-- **The name of a type** stands for the keyword of a use. -/
theorem stands_named (h : Done doc types)
    (hmade : ∀ type ∈ types, ∃ kind n, type.name = typeName kind n)
    (hx : x ∈ doc.tokens.leaves) (hu : u ∈ uses types) (hkey : u.2.keyword = x.id)
    (hnamed : u.2.isNamed = true) : r.recast.Stands x ∧ x.kind = .symbol := by
  obtain ⟨v, hv, hsame, hcore⟩ := h.core?_keyword hu
  obtain ⟨-, ⟨hcall, -⟩ | ⟨-, hname, -⟩⟩ := h.legible.replacement_cases hv (h.found v hv)
  · rw [hsame, hnamed] at hcall
    exact Bool.noConfusion hcall
  rw [hname, hkey] at hcore
  obtain ⟨hcore, hkind, htext, hline⟩ := r.core_single h hx rfl (by
    rw [show (final doc types x.id).core? = _ from hcore, Option.getD_some])
  obtain ⟨-, hsymbol, hword⟩ := TokenList.leaf_token hx
  rw [← hkey, (h.worded u hu).keyword] at hsymbol
  have hsymbol : x.kind = .symbol := (Option.some.inj hsymbol).symm
  obtain ⟨kind, n, hmade⟩ := hmade v.1 (Lowering.mem_uses.mp hv).1
  obtain ⟨signature, hsignature⟩ := (h.found u hu).signature
  rw [hkey, hword] at hsignature
  -- neither the keyword nor the name is a word that the outline knows
  have hother : ∀ word ∈ "extern" :: (Outline.attributeWords ++ Outline.aggregateWords),
      (r.recast.image x).text ≠ word ∧ x.text ≠ word := by
    intro word hknown
    obtain ⟨hne, hnone⟩ := known_words hknown
    refine ⟨by rw [htext, hmade]; exact hne kind n, ?_⟩
    rintro rfl
    rw [hnone] at hsignature
    simp at hsignature
  have hlists : ∀ words : List String,
      (∀ word ∈ words, word ∈ "extern" :: (Outline.attributeWords ++ Outline.aggregateWords)) →
      words.contains (r.recast.image x).text = words.contains x.text := by
    intro words hwords
    have hnot : words.contains (r.recast.image x).text = false := by
      simpa using fun hin => (hother _ (hwords _ hin)).1 rfl
    have hnot' : words.contains x.text = false := by
      simpa using fun hin => (hother _ (hwords _ hin)).2 rfl
    rw [hnot, hnot']
  refine ⟨⟨hcore, by rw [hkind, hsymbol], hlists _ fun word hin => by simp [hin],
    hlists _ fun word hin => by simp [hin], ?_, fun hstarts => ?_⟩, hsymbol⟩
  · have hextern := hother "extern" List.mem_cons_self
    exact ⟨fun he => absurd he hextern.1, fun he => absurd he hextern.2⟩
  · rw [hline]
    exact inset_broken h hx (not_within h (.inr ⟨u, hu, hkey⟩)) hstarts

/-- Nothing becomes of a leaf behind the keyword of a use. -/
theorem bare_inside (h : Done doc types) (hx : x ∈ doc.tokens.leaves) (hu : u ∈ uses types)
    (hlow : u.2.keyword.index < x.id.index) (hhigh : x.id.index ≤ (cut u.2).last.index) :
    r.recast.bare x = [] := by
  obtain ⟨hid, -⟩ := leaf_significant h hx
  have hnil := h.spelling_inside hu hid hlow hhigh (doc.tokens.spells [x.id])
  unfold Weft.spelling at hnil
  obtain ⟨hboth, htrail⟩ := List.append_eq_nil_iff.mp hnil
  obtain ⟨-, hcore⟩ := List.append_eq_nil_iff.mp hboth
  have hcoreFaces := r.core_faces x.id hid
  have htrailFaces := r.trail_faces x.id hid
  rw [hcore] at hcoreFaces
  rw [htrail] at htrailFaces
  show (inset doc types x.id).leaves (r.core x.id)
    ++ (outset doc types x.id).leaves (r.trail x.id) = []
  rw [List.map_eq_nil_iff.mp hcoreFaces, List.map_eq_nil_iff.mp htrailFaces]
  rfl

/-- Nothing is put behind a leaf that no body starts with. -/
theorem trail_nil (h : Done doc types) (hx : x ∈ doc.tokens.leaves)
    (hnone : ∀ function body, doc.IsBody function body → ¬ doc.Starts body x.id) :
    r.recast.trail x = [] := by
  obtain ⟨hid, -⟩ := leaf_significant h hx
  have htrail : (final doc types x.id).trail = [] := by
    by_contra hne
    obtain ⟨function, body, hbody, hstarts⟩ := h.trailed _ hid hne
    exact hnone function body hbody hstarts
  have hfaces := r.trail_faces x.id hid
  rw [htrail] at hfaces
  show (outset doc types x.id).leaves (r.trail x.id) = []
  rw [List.map_eq_nil_iff.mp hfaces]
  rfl

theorem trail_calls (h : Done doc types) (hx : x ∈ doc.tokens.leaves) :
    Outline.Calls (r.recast.trail x) :=
  (trail_bindings doc types x.id).calls _ (r.trail_faces x.id (leaf_significant h hx).1)

/-- Nothing is put before a leaf that no construct at file scope starts with. -/
theorem lead_nil (h : Done doc types) (hx : x ∈ doc.tokens.leaves)
    (hnone : ∀ construct, doc.AtScope construct → ¬ doc.Starts construct x.id) :
    (final doc types x.id).lead = [] ∧ r.recast.lead x = [] := by
  obtain ⟨hid, -⟩ := leaf_significant h hx
  have hlead : (final doc types x.id).lead = [] := by
    by_contra hne
    obtain ⟨construct, hscope, hstarts⟩ := h.led _ hid hne
    exact hnone construct hscope hstarts
  have hfaces := r.lead_faces x.id hid
  rw [hlead] at hfaces
  refine ⟨hlead, ?_⟩
  show (margin doc types x.id).leaves (r.lead x.id) = []
  rw [List.map_eq_nil_iff.mp hfaces]
  rfl

/-- Outside of uses what stands in place of a leaf starts a line if the margin says so. -/
theorem image_startsLine (h : Done doc types) (hx : x ∈ doc.tokens.leaves)
    (hplace : ¬ Within types x.id.index) :
    (r.recast.image x).startsLine = (inset doc types x.id).broken := by
  obtain ⟨hid, htrivia⟩ := leaf_significant h hx
  -- in each case the core begins with a token that is no formatting
  obtain ⟨kind, text, rest, hcore, hkind⟩ : ∃ kind text rest,
      (final doc types x.id).core?.getD (doc.tokens.spells [x.id]) = (kind, text) :: rest
        ∧ kind.isTrivia = false := by
    rcases h.core?_cases x.id with ⟨hself, -⟩ | ⟨u, hu, hkey, hword⟩ | ⟨-, u, hu, hin⟩
    · rw [show (final doc types x.id).core? = none from hself, Option.getD_none, spells_leaf hx]
      exact ⟨_, _, _, rfl, htrivia⟩
    · rw [show (final doc types x.id).core? = _ from hword, Option.getD_some]
      unfold replacement
      split
      · exact ⟨_, _, _, rfl, rfl⟩
      · exact ⟨_, _, _, rfl, rfl⟩
    · exact absurd ⟨u, hu, hin⟩ hplace
  have hfaces := r.core_faces x.id hid
  rw [hcore] at hfaces
  obtain ⟨leaf, more, hleaves, hline, -⟩ := head_leaves (m := inset doc types x.id) hfaces hkind
  have hcore : r.recast.core x = leaf :: more := hleaves
  unfold Recast.image
  rw [hcore]
  exact hline

/-- **The lines put in** are constructs, and start lines where a line started before. -/
theorem led (h : Done doc types) (hreads : (new.spells new.ids).Reads []) :
    r.recast.Led doc.tokens.leaves where
  preface x hx := ((lead_lines doc types x.id).preface _
    (r.lead_faces x.id (leaf_significant h hx).1)).1
  words x hx y hy htext := by
    have hmem : y ∈ new.leaves := by
      rw [r.leaves_eq h]
      exact List.mem_flatMap.mpr ⟨x, hx, List.mem_append_left _ hy⟩
    rw [TokenList.kind_of_start hreads hmem (by rw [htext]; decide), htext]
    rfl
  first x hx hline y hy := by
    obtain ⟨hid, -⟩ := leaf_significant h hx
    have hfaces := r.lead_faces x.id hid
    -- some line is put there, so the token is in no use
    have hne : (final doc types x.id).lead ≠ [] := by
      intro hnil
      rw [hnil] at hfaces
      have hnone : r.recast.lead x = [] := by
        show (margin doc types x.id).leaves (r.lead x.id) = []
        rw [List.map_eq_nil_iff.mp hfaces]
        rfl
      rw [hnone] at hy
      simp at hy
    obtain ⟨a, b, hids⟩ := List.append_of_mem hid
    have hplace : ¬ Within types a.length := by
      rw [← h.loaded.unedited.index_eq hids]
      exact h.lead_not_within hid hne
    rw [TokenList.startsLine_eq h.loaded.threaded hx hids] at hline
    rw [((lead_lines doc types x.id).preface _ hfaces).2 y hy, h.margin_eq hids]
    exact ((h.margin_under hids).2 hplace).broken hline
  behind x hx hlead := by
    obtain ⟨hid, -⟩ := leaf_significant h hx
    have hne : (final doc types x.id).lead ≠ [] := by
      intro hnil
      have hfaces := r.lead_faces x.id hid
      rw [hnil] at hfaces
      refine hlead ?_
      show (margin doc types x.id).leaves (r.lead x.id) = []
      rw [List.map_eq_nil_iff.mp hfaces]
      rfl
    rw [r.image_startsLine h hx (h.lead_not_within hid hne)]
    unfold inset
    rw [(lead_lines doc types x.id).behind_eq hne]
    rfl

/-- Trivia behind a token that stands for itself does so as well. -/
theorem spelling_between (h : Done doc types) {a mid c : List TokenId} {id next : TokenId}
    (hids : doc.tokens.ids = a ++ id :: (mid ++ next :: c))
    (hmid : ∀ m ∈ mid, doc.tokens.isSignificant m = false)
    (hself : core? doc (uses types) id = none) :
    woven doc types mid = doc.tokens.spells mid := by
  have hpair := h.loaded.unedited.pairwise_index
  rw [hids, List.pairwise_append, List.pairwise_cons, List.pairwise_append] at hpair
  obtain ⟨-, ⟨hbehind, -, -, hlater⟩, hbefore⟩ := hpair
  have hown : ∀ m ∈ mid, (final doc types m).spelling (doc.tokens.spells [m])
      = doc.tokens.spells [m] := by
    intro m hm
    have hmem : m ∈ doc.tokens.ids := by simp [hids, hm]
    have hlead : (final doc types m).lead = [] := by
      by_contra hne
      have hsig := h.significant hmem (.inl hne)
      rw [hmid m hm] at hsig
      exact Bool.noConfusion hsig
    have htrail : (final doc types m).trail = [] := by
      by_contra hne
      have hsig := h.significant hmem (.inr hne)
      rw [hmid m hm] at hsig
      exact Bool.noConfusion hsig
    have hcore : (final doc types m).core? = none := by
      refine (core?_none h.loaded h.found m).mpr fun u hu hin => ?_
      -- the keyword of a use stands before the token that stands for itself, or behind
      have hout := (core?_none h.loaded h.found id).mp hself u hu
      have hlt := hbehind m (List.mem_append_left _ hm)
      have hkey := (cut_between h.loaded (h.found u hu)).1.1
      rw [hids] at hkey
      rcases List.mem_append.mp hkey with hkey | hkey
      · have := hbefore _ hkey id List.mem_cons_self
        omega
      · rcases List.mem_cons.mp hkey with hkey | hkey
        · rw [hkey] at hout
          omega
        · rcases List.mem_append.mp hkey with hkey | hkey
          · have hsig := (h.worded u hu).keyword
            have hnot := hmid _ hkey
            unfold TokenList.isSignificant at hnot
            rw [hsig] at hnot
            exact Bool.noConfusion hnot
          · have := hlater m hm _ hkey
            omega
    unfold Weft.spelling
    rw [hlead, htrail, hcore]
    simp
  unfold woven
  rw [List.flatMap_congr hown, TokenList.flatMap_spells]

/-- **Of two leaves side by side** that were left alone, the second starts a line if it did. -/
theorem startsLine_self (h : Done doc types) {y : Leaf} {before after : List Leaf}
    (hleaves : doc.tokens.leaves = before ++ x :: y :: after)
    (hself : core? doc (uses types) x.id = none) (htrail : (final doc types x.id).trail = [])
    (hnext : core? doc (uses types) y.id = none) (hlead : (final doc types y.id).lead = []) :
    (r.recast.image y).startsLine = y.startsLine := by
  have hlist := h.loaded.threaded
  have hx : x ∈ doc.tokens.leaves := by simp [hleaves]
  have hy : y ∈ doc.tokens.leaves := by simp [hleaves]
  -- only trivia stands between the two
  have hsplit := TokenList.leaves_ids hlist
  rw [hleaves, List.map_append, List.map_cons, List.map_cons] at hsplit
  obtain ⟨a, more, hids, -, hmore⟩ := List.filter_eq_append_iff.mp hsplit.symm
  obtain ⟨gap, more, rfl, -, -, hmore⟩ := List.filter_eq_cons_iff.mp hmore
  obtain ⟨mid, c, rfl, hmid, -, -⟩ := List.filter_eq_cons_iff.mp hmore
  have hfile : doc.tokens.ids = (a ++ gap) ++ x.id :: (mid ++ y.id :: c) := by
    rw [hids, List.append_assoc]
  have hfile' : doc.tokens.ids = ((a ++ gap) ++ x.id :: mid) ++ y.id :: c := by
    rw [hfile]
    simp
  rw [r.image_startsLine h hy (not_within h (.inl hnext)),
    TokenList.startsLine_eq hlist hy hfile']
  unfold inset
  rw [h.margin_eq hfile', hlead, Margin.behind_nil]
  have hwoven : woven doc types ((a ++ gap) ++ x.id :: mid)
      = woven doc types (a ++ gap) ++ ((final doc types x.id).lead
        ++ ((x.kind, x.text) :: doc.tokens.spells mid)) := by
    rw [← spelling_between h hfile (fun m hm => by simpa using hmid m hm) hself]
    unfold woven
    rw [List.flatMap_append, List.flatMap_cons]
    unfold Weft.spelling
    rw [show (final doc types x.id).core? = none from hself, htrail, Option.getD_none,
      spells_leaf hx, show doc.tokens.spells [] = [] from rfl]
    simp
  have hspells : doc.tokens.spells ((a ++ gap) ++ x.id :: mid)
      = doc.tokens.spells (a ++ gap) ++ ((x.kind, x.text) :: doc.tokens.spells mid) := by
    rw [TokenList.spells_append, spells_leaf hx]
  rw [hwoven, hspells, Margin.behind_append, Margin.behind_append, Margin.behind_append,
    Margin.behind_cons, Margin.behind_cons, Margin.step_of_leaf (leaf_significant h hx).2,
    Margin.step_of_leaf (leaf_significant h hx).2]

end Relexed

end Weave

end KernelPrep
