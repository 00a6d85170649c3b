/-
  KernelPrep.Proofs.Texture.Census — every use is found once and put into one group.

  The nodes that are searched share no own token, and the walk over the tree meets each of
  them once.  So the words of the uses are all different tokens.  Grouping goes over the uses
  in the order in which they were found and keeps that order: the groups come in the order of
  their first uses, and each holds all uses with its key.  The key of a use is a hash of its
  words, so that uses with the same words are in one group; those of a group have the same words
  as long as the hash does not mistake any words that were found for others.

  Main definitions:
    * `ContentHash.Separates`      — no words or rows of words are mistaken for others.

  Main statements:
    * `Loaded.candidates_nodup`    — no own token is met twice;
    * `Occurrence.groupAll_eq`     — the groups, by their keys;
    * `Occurrence.key_eq_iff`      — what uses with one key have in common;
    * `Occurrence.groupAll_perm`   — grouping neither adds nor loses a use;
    * `Loaded.keywords_nodup`      — no two uses share a keyword.
-/
import Mathlib.Data.List.Perm.Basic
import KernelPrep.Proofs.Texture.Found

namespace KernelPrep

open NodeTree (Below Forest root)

/-! ## §1. Every token once -/

theorem Occurrence.keywords_sublist (uses : List Occurrence) :
    (uses.map (·.keyword)).Sublist (uses.flatMap words) := by
  induction uses with
  | nil => exact List.Sublist.refl _
  | cons o rest ih =>
    rw [List.map_cons, List.flatMap_cons]
    exact ((List.nil_sublist o.texel).append ih).cons_cons o.keyword

namespace Loaded

variable {doc : Document}

/-- The nodes looked at are those of the kinds searched. -/
theorem mem_candidates (h : Loaded doc) {node : NodeId} :
    node ∈ Occurrence.candidates doc
      ↔ (doc.tree.kind? node).any Occurrence.isSearched = true := by
  unfold Occurrence.candidates
  rw [List.mem_filter, h.forest.mem_preOrder]
  constructor
  · rintro ⟨-, hkind⟩
    exact hkind
  · intro hkind
    exact ⟨(h.plain_of_searched hkind).1.below, hkind⟩

/-- **No own token is met twice** in the search of a document. -/
theorem candidates_nodup (h : Loaded doc) :
    ((Occurrence.candidates doc).flatMap doc.ownTokens).Nodup := by
  have hplain : ∀ node ∈ Occurrence.candidates doc, doc.Plain node := fun node hnode =>
    (h.plain_of_searched (h.mem_candidates.mp hnode)).1
  rw [List.nodup_flatMap]
  refine ⟨?_, ?_⟩
  · intro node hnode
    refine (h.ownTokens_pairwise (hplain node hnode)).imp ?_
    rintro a b hlt rfl
    exact Nat.lt_irrefl _ hlt
  · have hnodup : (Occurrence.candidates doc).Nodup := h.forest.nodup_preOrder.filter _
    refine hnodup.pairwise_of_forall_ne fun a ha b hb hne => ?_
    intro x hxa hxb
    exact h.ownTokens_disjoint (hplain a ha) (hplain b hb) hne hxa hxb

/-- The words of all uses are different tokens. -/
theorem words_nodup (h : Loaded doc) {found : List Occurrence}
    (hfound : Occurrence.findAll doc = .ok found) : (found.flatMap Occurrence.words).Nodup :=
  h.candidates_nodup.sublist (Occurrence.findAll_ok hfound).2.1

/-- **No two uses share a keyword.** -/
theorem keywords_nodup (h : Loaded doc) {found : List Occurrence}
    (hfound : Occurrence.findAll doc = .ok found) : (found.map (·.keyword)).Nodup :=
  (h.words_nodup hfound).sublist (Occurrence.keywords_sublist found)

end Loaded

/-! ## §2. Groups -/

namespace Occurrence

section Dups

variable {α : Type} [BEq α] [LawfulBEq α] {as : List α} {a : α}

theorem eraseDups_concat_of_mem (h : a ∈ as) : (as ++ [a]).eraseDups = as.eraseDups := by
  rw [List.eraseDups_append]
  simp [List.removeAll, h]

theorem eraseDups_concat_of_notMem (h : a ∉ as) :
    (as ++ [a]).eraseDups = as.eraseDups ++ [a] := by
  rw [List.eraseDups_append]
  simp [List.removeAll, h, List.eraseDups_cons]

theorem nodup_eraseDups (as : List α) : as.eraseDups.Nodup := by
  induction as using List.reverseRecOn with
  | nil => exact List.nodup_nil
  | append_singleton as a ih =>
    by_cases h : a ∈ as
    · rw [eraseDups_concat_of_mem h]
      exact ih
    · rw [eraseDups_concat_of_notMem h, ← List.concat_eq_append]
      exact ih.concat (mt List.mem_eraseDups.mp h)

end Dups

variable {list : TokenList}

/-- One more use, when there is one group for each of the given keys. -/
theorem addToGroup_map [ContentHash] {o : Occurrence} {keys : List UInt64}
    {group : UInt64 → List Occurrence} (hnodup : keys.Nodup)
    (hhead : ∀ k ∈ keys, (group k).head?.map (key list) = some k) :
    addToGroup list o (keys.map group)
      = if key list o ∈ keys then
          keys.map fun k => if k = key list o then group k ++ [o] else group k
        else keys.map group ++ [[o]] := by
  induction keys with
  | nil => rfl
  | cons k rest ih =>
    obtain ⟨hk, hrest⟩ := List.nodup_cons.mp hnodup
    have ih := ih hrest fun k' hk' => hhead k' (List.mem_cons_of_mem _ hk')
    rw [List.map_cons]
    unfold addToGroup
    rw [hhead k List.mem_cons_self]
    -- the groups have different keys, so that only one of them can take the use
    by_cases he : k = key list o
    · have hother : rest.map group
          = rest.map fun k' => if k' = key list o then group k' ++ [o] else group k' := by
        refine List.map_congr_left fun k' hk' => ?_
        rw [if_neg]
        rintro rfl
        exact hk (he ▸ hk')
      rw [if_pos (by rw [he]), if_pos (by simp [he]), List.map_cons, if_pos he, hother]
    · rw [if_neg (by simpa using he), ih]
      by_cases hin : key list o ∈ rest
      · rw [if_pos hin, if_pos (List.mem_cons_of_mem _ hin), List.map_cons, if_neg he]
      · rw [if_neg hin, if_neg (by simp [Ne.symm he, hin])]
        rfl

/-- **The groups** come in the order of their first uses, and each holds all uses of its key in
    the order in which they were found. -/
theorem groupAll_eq [ContentHash] (list : TokenList) (found : List Occurrence) :
    groupAll list found
      = (found.map (key list)).eraseDups.map fun k => found.filter (key list · = k) := by
  induction found using List.reverseRecOn with
  | nil => rfl
  | append_singleton found o ih =>
    -- the use that a group is known by has the key of the group
    have hhead : ∀ k ∈ (found.map (key list)).eraseDups,
        (found.filter (key list · = k)).head?.map (key list) = some k := by
      intro k hk
      rw [List.mem_eraseDups] at hk
      obtain ⟨u, hu, he⟩ := List.mem_map.mp hk
      rw [List.head?_filter]
      cases hfind : found.find? (key list · = k) with
      | none =>
        have hnone := List.find?_eq_none.mp hfind u hu
        simp [he] at hnone
      | some first => simpa using List.find?_some hfind
    unfold groupAll at ih ⊢
    rw [List.foldl_append, ih]
    show addToGroup list o _ = _
    rw [addToGroup_map (nodup_eraseDups _) hhead, List.map_append, List.map_singleton]
    by_cases hin : key list o ∈ found.map (key list)
    -- a key that was met: the use comes to its group
    · rw [if_pos (List.mem_eraseDups.mpr hin), eraseDups_concat_of_mem hin]
      refine List.map_congr_left fun k _ => ?_
      rw [List.filter_append, List.filter_singleton]
      by_cases he : k = key list o
      · simp [he]
      · simp [he, Ne.symm he]
    -- a new key: the use is a new group behind the others
    · rw [if_neg (mt List.mem_eraseDups.mp hin), eraseDups_concat_of_notMem hin, List.map_append,
        List.map_singleton]
      congr 1
      · refine List.map_congr_left fun k hk => ?_
        have hne : key list o ≠ k := by
          rintro rfl
          exact hin (List.mem_eraseDups.mp hk)
        rw [List.filter_append, List.filter_singleton]
        simp [hne]
      · have hnone : found.filter (key list · = key list o) = [] := by
          rw [List.filter_eq_nil_iff]
          intro u hu he
          exact hin (List.mem_map.mpr ⟨u, hu, by simpa using he⟩)
        rw [List.filter_append, hnone]
        simp

/-- A group holds the uses of one key. -/
theorem mem_groupAll [ContentHash] {found : List Occurrence} {group : List Occurrence}
    (hgroup : group ∈ groupAll list found) :
    ∃ k, group = found.filter (key list · = k) ∧ group ≠ [] := by
  rw [groupAll_eq] at hgroup
  obtain ⟨k, hk, rfl⟩ := List.mem_map.mp hgroup
  refine ⟨k, rfl, ?_⟩
  obtain ⟨u, hu, he⟩ := List.mem_map.mp (List.mem_eraseDups.mp hk)
  exact List.ne_nil_of_mem (List.mem_filter.mpr ⟨hu, by simpa using he⟩)

/-- **Grouping** neither adds nor loses a use. -/
theorem groupAll_perm [ContentHash] (list : TokenList) (found : List Occurrence) :
    (groupAll list found).flatten.Perm found := by
  unfold groupAll
  suffices h : ∀ groups : List (List Occurrence),
      (found.foldl (fun groups o => addToGroup list o groups) groups).flatten.Perm
        (groups.flatten ++ found) from h []
  -- one more occurrence is put into a group, or into one of its own behind them
  have hone : ∀ (o : Occurrence) (groups : List (List Occurrence)),
      (addToGroup list o groups).flatten.Perm (groups.flatten ++ [o]) := by
    intro o groups
    induction groups with
    | nil => exact List.Perm.refl _
    | cons group rest ih =>
      unfold addToGroup
      split
      · rw [List.flatten_cons, List.flatten_cons, List.append_assoc, List.append_assoc]
        exact List.perm_append_comm.append_left group
      · rw [List.flatten_cons, List.flatten_cons, List.append_assoc]
        exact ih.append_left group
  induction found with
  | nil => simp
  | cons o rest ih =>
    intro groups
    refine (ih (addToGroup list o groups)).trans ?_
    refine ((hone o groups).append_right rest).trans ?_
    rw [List.append_assoc]
    rfl

/-- The uses of a document by group: as they are found, and each once. -/
theorem discover_ok [ContentHash] {doc : Document} {groups : List (List Occurrence)}
    (h : discover doc = .ok groups) :
    ∃ found, findAll doc = .ok found ∧ groups = groupAll doc.tokens found := by
  rw [discover_eq] at h
  cases hfound : findAll doc with
  | error e => simp [hfound, Except.map] at h
  | ok found =>
    rw [hfound] at h
    exact ⟨found, rfl, (Except.ok.inj h).symm⟩

/-- **All uses of a document** are as they are found in its nodes. -/
theorem discover_found [ContentHash] {doc : Document} {groups : List (List Occurrence)}
    (h : discover doc = .ok groups) : ∀ group ∈ groups, ∀ o ∈ group, Found doc o := by
  obtain ⟨found, hfound, rfl⟩ := discover_ok h
  intro group hgroup o ho
  obtain ⟨k, rfl, -⟩ := mem_groupAll hgroup
  exact (findAll_ok hfound).1 o (List.mem_of_mem_filter ho)

end Occurrence

/-! ## §3. Uses kept apart -/

/-- The hash keeps the given rows of words apart: no two words in them have one hash, and no two
    rows of hashes made of them are combined to one. -/
structure ContentHash.Separates [ContentHash] (rows : List (List String)) : Prop where
  words : ∀ word ∈ rows.flatten, ∀ word' ∈ rows.flatten, ofText word = ofText word' →
    word = word'
  rows : ∀ row ∈ rows, ∀ row' ∈ rows, combine (row.map ofText) = combine (row'.map ofText) →
    row.map ofText = row'.map ofText

instance [ContentHash] (rows : List (List String)) : Decidable (ContentHash.Separates rows) :=
  decidable_of_iff _ ⟨fun h => ⟨h.1, h.2⟩, fun h => And.intro h.words h.rows⟩

/-- Lists with one image are the same where no two entries share an image. -/
theorem eq_of_map_eq {α β : Type} {f : α → β} {xs ys : List α}
    (hinj : ∀ x ∈ xs, ∀ y ∈ ys, f x = f y → x = y) (h : xs.map f = ys.map f) : xs = ys := by
  induction xs generalizing ys with
  | nil => exact (List.map_eq_nil_iff.mp h.symm).symm
  | cons x xs ih =>
    obtain ⟨y, ys, rfl, hhead, htail⟩ := List.map_eq_cons_iff.mp h.symm
    rw [hinj x List.mem_cons_self y List.mem_cons_self hhead.symm,
      ih (fun a ha b hb => hinj a (List.mem_cons_of_mem _ ha) b (List.mem_cons_of_mem _ hb))
        htail.symm]

/-- Rows that are combined to one hash are the same. -/
theorem ContentHash.Separates.row_eq [ContentHash] {rows : List (List String)}
    (h : Separates rows) {row row' : List String} (hrow : row ∈ rows) (hrow' : row' ∈ rows)
    (he : combine (row.map ofText) = combine (row'.map ofText)) : row = row' :=
  eq_of_map_eq
    (fun _ hx _ hy => h.words _ (List.mem_flatten_of_mem hrow hx) _
      (List.mem_flatten_of_mem hrow' hy))
    (h.rows row hrow row' hrow' he)

namespace Occurrence

/-- What the keyword and the texel type of a use spell. -/
def spelled (list : TokenList) (o : Occurrence) : List String := o.words.map list.textOf

theorem spelled_eq_iff {list : TokenList} {o o' : Occurrence} :
    spelled list o = spelled list o'
      ↔ list.textOf o.keyword = list.textOf o'.keyword
        ∧ o.texel.map list.textOf = o'.texel.map list.textOf := by
  unfold spelled words
  rw [List.map_cons, List.map_cons, List.cons.injEq]

/-- The key of a use is the hash of its words. -/
theorem Found.key_eq [ContentHash] {doc : Document} {o : Occurrence} (h : Found doc o) :
    key doc.tokens o = ContentHash.combine ((spelled doc.tokens o).map ContentHash.ofText) := by
  have hhash : ∀ x ∈ o.words,
      (doc.tokens.hash? x).getD 0 = ContentHash.ofText (doc.tokens.textOf x) := by
    intro x hx
    obtain ⟨token, htoken, hkind⟩ := h.word_symbol hx
    -- a symbol is hashed
    have hnamed : token.content? = some token.text := by
      unfold Token.content?
      rw [hkind]
      rfl
    rw [TokenList.hash?_eq_content?, TokenList.textOf_of_get? htoken]
    unfold TokenList.content?
    rw [htoken, Option.bind_some, hnamed]
    rfl
  unfold key spelled
  rw [List.map_map]
  exact congrArg ContentHash.combine (List.map_congr_left hhash)

/-- **Uses have one key** when their words are the same, if the hash keeps those found apart. -/
theorem key_eq_iff [ContentHash] {doc : Document} {found : List Occurrence}
    (hfound : findAll doc = .ok found)
    (hapart : ContentHash.Separates (found.map (spelled doc.tokens))) {o o' : Occurrence}
    (ho : o ∈ found) (ho' : o' ∈ found) :
    key doc.tokens o = key doc.tokens o' ↔ spelled doc.tokens o = spelled doc.tokens o' := by
  have hall := (findAll_ok hfound).1
  rw [(hall o ho).key_eq, (hall o' ho').key_eq]
  constructor
  · exact hapart.row_eq (List.mem_map_of_mem ho) (List.mem_map_of_mem ho')
  · exact congrArg fun row : List String => ContentHash.combine (row.map ContentHash.ofText)

end Occurrence

end KernelPrep
