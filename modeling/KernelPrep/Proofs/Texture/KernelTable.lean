/-
  KernelPrep.Proofs.Texture.KernelTable — the table of kernels.

  Uses are kept by type, but the table lists them by kernel.  It comes out right because the
  uses are lowered in source order and no two kernel definitions share a token: the uses in one
  parameter list come one after the other, from left to right, and the kernels come in the
  order in which they stand in the file, whatever their names and types are.  What the table
  says of a parameter is what its type says, and so what the earliest use with the same key
  says.  Uses of different keywords may have one key, as keys are hashes: the parameter is then
  entered with the dimensions and the read mode of the other keyword.

  Main definitions:
    * `Occurrence.kernelOf?`       — the kernel definition that a parameter list belongs to;
    * `Occurrence.representative?` — the use that stands for a use;
    * `Document.TakesTextures`     — a kernel definition with textures among its parameters;
    * `Lowering.IsBound`           — what the table says of a parameter;
    * `Lowering.IsEntry`           — what the table says of a kernel.

  Main statements:
    * `Loaded.kernelOf?_eq_some`    — the parameter lists of kernel definitions;
    * `Lowering.kernelUses_eq`      — the uses in kernel definitions, list by list;
    * `Lowering.foldl_write_lines`  — a table is read back from its lines;
    * `Lowering.run_table`          — the table of a file.
-/
import KernelPrep.Proofs.Texture.DefinedFirst
import KernelPrep.Proofs.Texture.Ledger

namespace KernelPrep

open Step (except_bind_ok)
open Weave (Declared)

/-! ## §1. The parameters of kernels -/

namespace Occurrence

variable {doc : Document} {node : NodeId} {uses : List Occurrence} {o : Occurrence}

/-- In a parameter list, a use has a name and the context of the list. -/
theorem read_param {kind : TextureKind} {id : TokenId} {keyword : Token}
    {rest : List (TokenId × Token)} {n : Nat}
    (h : read doc node true kind id keyword rest = .ok (o, n)) :
    ∃ param, o.param? = some param ∧ paramContext doc node = .ok o.context := by
  have hnamed : ∀ tail : TypeTail, ((do
      let param ← (paramName keyword.text (rest.drop tail.length)).mapError
        (PassError.mk keyword.line)
      let context ← paramContext doc node
      return ((⟨kind, node, keyword.line, id, tail.texel, tail.stop, context, some param⟩ :
        Occurrence), tail.length)) : Except PassError (Occurrence × Nat)) = .ok (o, n) →
      ∃ param, o.param? = some param ∧ paramContext doc node = .ok o.context := by
    intro tail h
    obtain ⟨param, -, h⟩ := except_bind_ok.mp h
    obtain ⟨context, hcontext, h⟩ := except_bind_ok.mp h
    obtain ⟨rfl, -⟩ := Prod.mk.inj (Except.ok.inj h)
    exact ⟨param, rfl, hcontext⟩
  cases kind with
  | texture =>
    obtain ⟨tail, -, h⟩ := except_bind_ok.mp h
    exact hnamed tail h
  | surface => exact hnamed _ h

theorem scan_param (hkind : doc.tree.kind? node = some .functionParams)
    (h : scan doc node = .ok uses) (ho : o ∈ uses) :
    ∃ param, o.param? = some param ∧ paramContext doc node = .ok o.context := by
  unfold scan at h
  rw [hkind, beq_self_eq_true] at h
  obtain ⟨id, token, rest, signature, n, -, -, hread⟩ := scanFrom_read h ho
  exact read_param hread

/-- **The uses in a node** come from left to right. -/
theorem scan_sorted (h₀ : Loaded doc) (hnode : doc.Plain node) (h : scan doc node = .ok uses) :
    uses.Pairwise fun a b => a.keyword.index < b.keyword.index := by
  have hwords := (scanFrom_ok h).2.1
  rw [List.drop_zero] at hwords
  have hown : (uses.map (·.keyword)).Sublist (doc.ownTokens node) :=
    (keywords_sublist uses).trans (hwords.trans (entries_sublist doc node))
  have hpair := (h₀.ownTokens_pairwise hnode).sublist hown
  rw [List.pairwise_map] at hpair
  exact hpair

/-- The kernel definition that the node is the parameter list of, with its name. -/
def kernelOf? (doc : Document) (node : NodeId) : Option (NodeId × String) :=
  if doc.tree.kind? node = some .functionParams then
    match paramContext doc node with
    | .ok (.kernelParam function name true) => some (function, name)
    | _ => none
  else none

/-- A use in the parameter list of a kernel definition. -/
theorem kernel?_of_kernelOf? {function : NodeId} {name : String}
    (hkernel : kernelOf? doc node = some (function, name)) (h : scan doc node = .ok uses)
    (ho : o ∈ uses) :
    ∃ param, o.param? = some param ∧ Weave.kernel? o = some (function, name, param.text) := by
  unfold kernelOf? at hkernel
  split at hkernel
  · rename_i hkind
    obtain ⟨param, hparam, hcontext⟩ := scan_param hkind h ho
    split at hkernel
    · rename_i hlist
      rw [hcontext] at hlist
      obtain ⟨rfl, rfl⟩ := Prod.mk.inj (Option.some.inj hkernel)
      refine ⟨param, hparam, ?_⟩
      unfold Weave.kernel?
      rw [Except.ok.inj hlist, hparam]
    · simp at hkernel
  · simp at hkernel

/-- A use in any other node. -/
theorem kernel?_of_not_kernelOf? (hkernel : kernelOf? doc node = none)
    (h : scan doc node = .ok uses) (ho : o ∈ uses) : Weave.kernel? o = none := by
  cases hk : Weave.kernel? o with
  | none => rfl
  | some kernel =>
    obtain ⟨function, name, text⟩ := kernel
    obtain ⟨hcontext, -⟩ := Weave.kernel?_eq_some hk
    obtain ⟨hparams, -⟩ := ((scanFrom_ok h).1 o ho).definition function name hcontext
    have hkind : doc.tree.kind? node = some .functionParams := by simpa using hparams
    obtain ⟨param, -, hlist⟩ := scan_param hkind h ho
    unfold kernelOf? at hkernel
    rw [if_pos hkind, hlist, hcontext] at hkernel
    simp at hkernel

end Occurrence

namespace Loaded

variable {doc : Document} {function params node : NodeId}

/-- A definition has one parameter list. -/
theorem functionParams?_eq_some (h : Loaded doc)
    (hdef : doc.tree.kind? function = some .functionDefn) :
    Outline.functionParams? doc.tree function = some params
      ↔ doc.tree.parent? params = some function
        ∧ doc.tree.kind? params = some .functionParams := by
  have hplain := h.plain_of_kind? hdef (by simp) (by simp)
  have hparts := (h.sheltered hplain.below hplain.ne_root).parts hdef
  -- the children are the parameter list and the body
  obtain ⟨first, rest, hchildren, hfirst, hrest⟩ := List.map_eq_cons_iff.mp hparts
  obtain ⟨body, rfl, hbody⟩ := List.map_eq_singleton_iff.mp hrest
  have hlist : Outline.functionParams? doc.tree function = some first := by
    unfold Outline.functionParams? Outline.childOfKind?
    rw [hchildren]
    exact List.find?_cons_of_pos (by simp [hfirst])
  rw [hlist, Option.some.injEq, h.forest.parent_iff, hchildren]
  constructor
  · rintro rfl
    exact ⟨List.mem_cons_self, hfirst⟩
  · rintro ⟨hmem, hkind⟩
    rcases List.mem_cons.mp hmem with he | he
    · exact he.symm
    · rw [List.mem_singleton.mp he, hbody] at hkind
      simp at hkind

/-- **The parameter lists of kernel definitions.** -/
theorem kernelOf?_eq_some (h : Loaded doc) {name : String} :
    Occurrence.kernelOf? doc node = some (function, name)
      ↔ (doc.tree.kind? function = some .functionDefn
          ∧ Outline.isKernel doc.tokens doc.tree function = true)
        ∧ Outline.functionParams? doc.tree function = some node
        ∧ ∃ id, Outline.functionName? doc.tokens doc.tree function = some id
          ∧ name = doc.tokens.textOf id := by
  unfold Occurrence.kernelOf?
  constructor
  · intro hkernel
    split at hkernel
    · rename_i hkind
      split at hkernel
      · rename_i hcontext
        obtain ⟨rfl, rfl⟩ := Prod.mk.inj (Option.some.inj hkernel)
        obtain ⟨hparent, hdef⟩ := Occurrence.paramContext_ok hcontext
        unfold Occurrence.paramContext at hcontext
        rw [hparent] at hcontext
        dsimp only at hcontext
        split at hcontext
        -- only a definition that is a kernel has parameters to be bound
        · rename_i hiskernel
          split at hcontext
          · rename_i id hid
            simp only [Except.ok.injEq, Occurrence.Context.kernelParam.injEq] at hcontext
            exact ⟨⟨hdef, hiskernel⟩, (h.functionParams?_eq_some hdef).mpr ⟨hparent, hkind⟩, id,
              hid, hcontext.2.1.symm⟩
          · simp at hcontext
        · simp at hcontext
      · simp at hkernel
    · simp at hkernel
  · rintro ⟨⟨hdef, hiskernel⟩, hparams, id, hid, rfl⟩
    obtain ⟨hparent, hkind⟩ := (h.functionParams?_eq_some hdef).mp hparams
    have hcontext : Occurrence.paramContext doc node
        = .ok (.kernelParam function (doc.tokens.textOf id) true) := by
      unfold Occurrence.paramContext
      rw [hparent]
      dsimp only
      rw [if_pos hiskernel, hid, hdef]
      rfl
    rw [if_pos hkind, hcontext]

end Loaded

/-! ## §2. The uses in kernel definitions -/

namespace Occurrence

/-- Whether the node is the parameter list of a kernel definition that takes textures. -/
def takesTextures (doc : Document) (node : NodeId) : Bool :=
  (kernelOf? doc node).isSome && !(usesIn doc node).isEmpty

/-- The parameter lists with textures of all kernel definitions. -/
def kernelLists (doc : Document) : List NodeId := (candidates doc).filter (takesTextures doc)

end Occurrence

namespace Loaded

open Occurrence (kernelOf? usesIn kernelLists candidates)

variable {doc : Document}

/-- A parameter list lies in its kernel. -/
theorem kernelOf?_around (h : Loaded doc) {node : NodeId} {kernel : NodeId × String}
    (hkernel : kernelOf? doc node = some kernel) :
    doc.Plain kernel.1 ∧ doc.AtScope kernel.1 ∧ doc.Plain node
      ∧ doc.start kernel.1 ≤ doc.start node ∧ doc.stop node ≤ doc.stop kernel.1 := by
  obtain ⟨⟨hdef, -⟩, hparams, -⟩ := h.kernelOf?_eq_some.mp hkernel
  obtain ⟨hparent, hkind⟩ := (h.functionParams?_eq_some hdef).mp hparams
  have hplain := h.plain_of_kind? hdef (by simp) (by simp)
  have hchild := (h.forest.parent_iff _ _).mp hparent
  exact ⟨hplain, h.atScope_definition hdef, h.plain_of_kind? hkind (by simp) (by simp),
    h.placed.nested _ _ hplain.below hchild⟩

/-- The kernels of two parameter lists share no token. -/
theorem kernelOf?_apart (h : Loaded doc) {a b : NodeId} {kernel kernel' : NodeId × String}
    (ha : kernelOf? doc a = some kernel) (hb : kernelOf? doc b = some kernel') (hne : a ≠ b) :
    doc.stop kernel.1 < doc.start kernel'.1 ∨ doc.stop kernel'.1 < doc.start kernel.1 := by
  obtain ⟨hplain, hscope, -⟩ := h.kernelOf?_around ha
  obtain ⟨hplain', hscope', -⟩ := h.kernelOf?_around hb
  refine h.scope_apart hplain hplain' hscope hscope' fun he => hne ?_
  have hlist := (h.kernelOf?_eq_some.mp ha).2.1
  have hlist' := (h.kernelOf?_eq_some.mp hb).2.1
  rw [he] at hlist
  exact Option.some.inj (hlist.symm.trans hlist')

/-- **The kernels that take textures** come one behind the other. -/
theorem kernelLists_sorted (h : Loaded doc) :
    (kernelLists doc).Pairwise fun a b => ∀ kernel kernel', kernelOf? doc a = some kernel →
      kernelOf? doc b = some kernel' → doc.stop kernel.1 < doc.start kernel'.1 := by
  have hsub : (kernelLists doc).Sublist doc.tree.preOrder :=
    List.filter_sublist.trans List.filter_sublist
  have hpair := (h.preOrder_sorted.and h.forest.nodup_preOrder).sublist hsub
  refine hpair.imp fun {a b} hab kernel kernel' ha hb => ?_
  obtain ⟨hle, hne⟩ := hab
  obtain ⟨-, -, hnode, hfirst, hlast⟩ := h.kernelOf?_around ha
  obtain ⟨-, -, hnode', hfirst', hlast'⟩ := h.kernelOf?_around hb
  have horder := h.start_le_stop hnode.below hnode.ne_root
  have horder' := h.start_le_stop hnode'.below hnode'.ne_root
  -- the walk meets the list of the kernel that stands first in the file first
  rcases h.kernelOf?_apart ha hb hne with hlt | hlt
  · exact hlt
  · omega

end Loaded

/-- The use that stands for a use found: the earliest of those with its key. -/
def Occurrence.representative? [ContentHash] (doc : Document) (found : List Occurrence)
    (use : Occurrence) : Option Occurrence :=
  Lowering.earliest? (found.filter (key doc.tokens · = key doc.tokens use))

/-- A type is what the use says that stands for any of its uses. -/
theorem Weave.Grouped.representative [ContentHash] {doc : Document} {found : List Occurrence}
    {types : List Declared} (h : Grouped doc found types) {type : Declared} (htype : type ∈ types)
    {use : Occurrence} (huse : use ∈ type.refs) :
    Occurrence.representative? doc found use = some type.first
      ∧ Signature.ofKeyword? (doc.tokens.textOf type.first.keyword) = some type.signature := by
  obtain ⟨i, hi⟩ := List.getElem?_of_mem htype
  rw [h.types_eq] at hi
  have hdeclared := declareAll_get hi
  refine ⟨?_, (declare?_eq_some hdeclared).2.2.1⟩
  have hgroup : type.refs ∈ Occurrence.groupAll doc.tokens found := by
    rw [← h.refs]
    exact List.mem_map_of_mem htype
  -- the uses of the type are all that have the key
  obtain ⟨key, hkey, -⟩ := Occurrence.mem_groupAll hgroup
  have huse' := huse
  rw [hkey, List.mem_filter, decide_eq_true_iff] at huse'
  unfold Occurrence.representative?
  rw [huse'.2, ← hkey]
  exact declare?_earliest hdeclared

namespace Lowering

open Occurrence (kernelOf? usesIn kernelLists candidates takesTextures)

variable {doc : Document} {found uses : List Occurrence}

/-- A parameter list that counts has uses, and belongs to a kernel. -/
theorem mem_kernelLists (hfound : Occurrence.findAll doc = .ok found) {node : NodeId}
    (hnode : node ∈ kernelLists doc) :
    Occurrence.scan doc node = .ok (usesIn doc node) ∧ usesIn doc node ≠ []
      ∧ ∃ kernel, kernelOf? doc node = some kernel := by
  obtain ⟨hcandidate, htakes⟩ := List.mem_filter.mp hnode
  unfold takesTextures at htakes
  rw [Bool.and_eq_true] at htakes
  exact ⟨(Occurrence.findAll_eq hfound).2 node hcandidate, by simpa using htakes.2,
    Option.isSome_iff_exists.mp htakes.1⟩

/-- The uses in kernel definitions, as they are found. -/
theorem filter_found (hfound : Occurrence.findAll doc = .ok found) :
    found.filter (fun o => (Weave.kernel? o).isSome) = (kernelLists doc).flatMap (usesIn doc) := by
  obtain ⟨rfl, hscan⟩ := Occurrence.findAll_eq hfound
  clear hfound
  unfold kernelLists
  generalize candidates doc = nodes at hscan ⊢
  -- one node after the other: all of its uses or none
  induction nodes with
  | nil => rfl
  | cons node rest ih =>
    rw [List.flatMap_cons, List.filter_append, ih fun x hx => hscan x (List.mem_cons_of_mem _ hx)]
    have hnode := hscan node List.mem_cons_self
    cases hkernel : kernelOf? doc node with
    | none =>
      have hnone : (usesIn doc node).filter (fun o => (Weave.kernel? o).isSome) = [] := by
        rw [List.filter_eq_nil_iff]
        intro o ho
        rw [Occurrence.kernel?_of_not_kernelOf? hkernel hnode ho]
        exact Bool.false_ne_true
      rw [hnone, List.nil_append, List.filter_cons_of_neg (by simp [takesTextures, hkernel])]
    | some kernel =>
      have hall : (usesIn doc node).filter (fun o => (Weave.kernel? o).isSome)
          = usesIn doc node := by
        rw [List.filter_eq_self]
        intro o ho
        obtain ⟨param, -, hk⟩ := Occurrence.kernel?_of_kernelOf? hkernel hnode ho
        rw [hk]
        rfl
      rw [hall]
      by_cases hempty : usesIn doc node = []
      · rw [List.filter_cons_of_neg (by simp [takesTextures, hempty]), hempty, List.nil_append]
      · rw [List.filter_cons_of_pos (by simp [takesTextures, hkernel, hempty]),
          List.flatMap_cons]

/-- The uses in kernel definitions come in source order, list by list. -/
theorem kernelUses_sorted (h₀ : Loaded doc) (hfound : Occurrence.findAll doc = .ok found) :
    ((kernelLists doc).flatMap (usesIn doc)).Pairwise fun a b =>
      a.keyword.index < b.keyword.index := by
  -- a use lies in its parameter list, and so in its kernel
  have hin : ∀ {node kernel}, node ∈ kernelLists doc → kernelOf? doc node = some kernel →
      ∀ o ∈ usesIn doc node,
        doc.start kernel.1 ≤ o.keyword.index ∧ o.keyword.index ≤ doc.stop kernel.1 := by
    intro node kernel hnode hkernel o ho
    obtain ⟨-, -, hplain, hfirst, hlast⟩ := h₀.kernelOf?_around hkernel
    obtain ⟨token, hentry, -⟩ :=
      ((Occurrence.scanFrom_ok (mem_kernelLists hfound hnode).1).1 o ho).keyword
    obtain ⟨-, hlow, hhigh⟩ := h₀.mem_ownTokens hplain (Occurrence.mem_entries.mp hentry).1
    exact ⟨Nat.le_trans hfirst hlow, Nat.le_trans hhigh hlast⟩
  rw [List.pairwise_flatMap]
  refine ⟨?_, ?_⟩
  · intro node hnode
    obtain ⟨hscan, -, kernel, hkernel⟩ := mem_kernelLists hfound hnode
    exact Occurrence.scan_sorted h₀ (h₀.kernelOf?_around hkernel).2.2.1 hscan
  · refine h₀.kernelLists_sorted.imp_of_mem fun {a b} ha hb hlt x hx y hy => ?_
    obtain ⟨-, -, kernel, hkernel⟩ := mem_kernelLists hfound ha
    obtain ⟨-, -, kernel', hkernel'⟩ := mem_kernelLists hfound hb
    have hapart := hlt kernel kernel' hkernel hkernel'
    have hx := (hin ha hkernel x hx).2
    have hy := (hin hb hkernel' y hy).1
    omega

/-- **The uses in kernel definitions**, in source order: list by list. -/
theorem kernelUses_eq (h₀ : Loaded doc) (hfound : Occurrence.findAll doc = .ok found)
    (hperm : uses.Perm found)
    (hsorted : uses.Pairwise fun a b => a.keyword.index ≤ b.keyword.index) :
    uses.filter (fun o => (Weave.kernel? o).isSome) = (kernelLists doc).flatMap (usesIn doc) := by
  have hlists : (uses.filter fun o => (Weave.kernel? o).isSome).Perm
      ((kernelLists doc).flatMap (usesIn doc)) := by
    rw [← filter_found hfound]
    exact hperm.filter _
  refine List.Perm.eq_of_pairwise (fun a b ha hb hab hba => ?_) (hsorted.filter _)
    ((kernelUses_sorted h₀ hfound).imp fun hlt => Nat.le_of_lt hlt) hlists
  -- two uses with the same keyword are the same
  have hmem := hperm.subset (List.mem_of_mem_filter ha)
  have hmem' := hperm.subset (List.mem_of_mem_filter (hlists.mem_iff.mpr hb))
  exact List.inj_on_of_nodup_map (h₀.keywords_nodup hfound) hmem hmem'
    (TokenId.ext_index (Nat.le_antisymm hab hba))

/-! ## §3. Tables from their lines -/

section Lines

variable {kernels rest : List (NodeId × KernelTextures)} {function : NodeId}

/-- The lines of a table: kernel, name and parameter. -/
def lines (kernels : List (NodeId × KernelTextures)) : List (NodeId × String × BoundParam) :=
  kernels.flatMap fun kernel => kernel.2.params.map (kernel.1, kernel.2.name, ·)

/-- Write a line into a table. -/
def write (kernels : List (NodeId × KernelTextures)) (line : NodeId × String × BoundParam) :
    List (NodeId × KernelTextures) :=
  addParam line.1 line.2.1 line.2.2 kernels

/-- A line goes behind the kernels that are others. -/
theorem addParam_append (h : function ∉ kernels.map (·.1)) (name : String) (param : BoundParam) :
    addParam function name param (kernels ++ rest)
      = kernels ++ addParam function name param rest := by
  induction kernels with
  | nil => rfl
  | cons kernel kernels ih =>
    rw [List.map_cons, List.mem_cons, not_or] at h
    rw [List.cons_append, addParam, if_neg (Ne.symm h.1), ih h.2, List.cons_append]

/-- The lines of one kernel make its entry. -/
theorem foldl_write_entry (h : function ∉ kernels.map (·.1)) (name : String)
    {params : List BoundParam} (hne : params ≠ []) :
    (params.map (function, name, ·)).foldl write kernels
      = kernels ++ [(function, ⟨name, params⟩)] := by
  induction params using List.reverseRecOn with
  | nil => exact absurd rfl hne
  | append_singleton params param ih =>
    rw [List.map_append, List.map_singleton, List.foldl_append, List.foldl_cons, List.foldl_nil]
    -- the first line makes the entry, the others find it at the end
    by_cases hempty : params = []
    · rw [hempty]
      have hfirst : addParam function name param (kernels ++ []) = _ :=
        addParam_append h name param
      rw [List.append_nil] at hfirst
      exact hfirst
    · rw [ih hempty]
      show addParam function name param _ = _
      rw [addParam_append h, addParam, if_pos rfl]

/-- **A table is read back from its lines.** -/
theorem foldl_write_lines (hnodup : (kernels.map (·.1)).Nodup)
    (hne : ∀ kernel ∈ kernels, kernel.2.params ≠ []) :
    (lines kernels).foldl write [] = kernels := by
  induction kernels using List.reverseRecOn with
  | nil => rfl
  | append_singleton kernels kernel ih =>
    obtain ⟨hold, -, hnew⟩ := List.nodup_append.mp (List.map_append ▸ hnodup)
    have hfresh : kernel.1 ∉ kernels.map (·.1) := by
      intro hin
      exact hnew _ hin _ (by simp) rfl
    unfold lines at ih ⊢
    rw [List.flatMap_append, List.flatMap_singleton, List.foldl_append,
      ih hold fun k hk => hne k (List.mem_append_left _ hk),
      foldl_write_entry hfresh _ (hne kernel (by simp))]

end Lines

/-! ## §4. The table of a file -/

/-- What the use says that stands for a use. -/
def signatureOf [ContentHash] (doc : Document) (found : List Occurrence) (use : Occurrence) :
    Signature :=
  ((Occurrence.representative? doc found use).bind fun first =>
    Signature.ofKeyword? (doc.tokens.textOf first.keyword)).getD default

/-- The line of the table for a use, if it is in a kernel definition. -/
def line? [ContentHash] (doc : Document) (found : List Occurrence) (use : Occurrence) :
    Option (NodeId × String × BoundParam) :=
  (Weave.kernel? use).map fun (function, name, param) =>
    (function, name, boundParam doc.config.platform (signatureOf doc found use) name param)

/-- The entry of the table for a parameter list, if it is that of a kernel definition. -/
def listed? [ContentHash] (doc : Document) (found : List Occurrence) (node : NodeId) :
    Option (NodeId × KernelTextures) :=
  (kernelOf? doc node).map fun (function, name) =>
    (function,
      { name
        params := (usesIn doc node).map fun use =>
          boundParam doc.config.platform (signatureOf doc found use) name
            ((use.param?.map (·.text)).getD "") })

/-- The lines of a kernel are those of its uses. -/
theorem filterMap_line? [ContentHash] (hfound : Occurrence.findAll doc = .ok found) {node : NodeId}
    (hnode : node ∈ kernelLists doc) :
    (usesIn doc node).filterMap (line? doc found) = lines (listed? doc found node).toList := by
  obtain ⟨hscan, -, ⟨function, name⟩, hkernel⟩ := mem_kernelLists hfound hnode
  unfold listed? lines
  rw [hkernel]
  simp only [Option.map_some, Option.toList_some, List.flatMap_singleton, List.map_map]
  rw [← List.filterMap_eq_map]
  refine List.filterMap_congr fun use huse => ?_
  obtain ⟨param, hparam, hk⟩ := Occurrence.kernel?_of_kernelOf? hkernel hscan huse
  unfold line?
  rw [hk]
  simp [hparam]

/-- The entries come in the order of their kernels. -/
theorem entries_sorted [ContentHash] (h₀ : Loaded doc) :
    ((kernelLists doc).filterMap (listed? doc found)).Pairwise fun a b =>
      doc.start a.1 < doc.start b.1 := by
  refine h₀.kernelLists_sorted.filterMap _ fun a b hlt x hx y hy => ?_
  obtain ⟨kernel, hkernel, rfl⟩ := Option.map_eq_some_iff.mp hx
  obtain ⟨kernel', hkernel', rfl⟩ := Option.map_eq_some_iff.mp hy
  obtain ⟨hplain, -⟩ := h₀.kernelOf?_around hkernel
  exact Nat.lt_of_le_of_lt (h₀.start_le_stop hplain.below hplain.ne_root)
    (hlt kernel kernel' hkernel hkernel')

/-- The signature of a use is that of its type. -/
theorem signatureOf_eq [ContentHash] {types : List Declared}
    (hgrouped : Weave.Grouped doc found types)
    {u : Declared × Occurrence} (hu : u ∈ Weave.uses types) :
    signatureOf doc found u.2 = u.1.signature := by
  obtain ⟨htype, huse⟩ := mem_uses.mp hu
  obtain ⟨hfirst, hsignature⟩ := hgrouped.representative htype huse
  unfold signatureOf
  rw [hfirst, Option.bind_some, hsignature]
  rfl

/-- What a use enters is its line of the table. -/
theorem enter_eq [ContentHash] {types : List Declared} (hgrouped : Weave.Grouped doc found types)
    {u : Declared × Occurrence} (hu : u ∈ Weave.uses types)
    (kernels : List (NodeId × KernelTextures)) :
    enter doc.config.platform u.1.signature u.2 kernels
      = (line? doc found u.2).elim kernels (write kernels) := by
  unfold enter line?
  rw [signatureOf_eq hgrouped hu]
  cases Weave.kernel? u.2 with
  | none => rfl
  | some kernel => rfl

/-- The lines of all uses are those of the kernels, one after the other. -/
theorem lines_eq [ContentHash] {types : List Declared} (hgrouped : Weave.Grouped doc found types) :
    ((Weave.uses types).map (·.2)).filterMap (line? doc found)
      = lines ((kernelLists doc).filterMap (listed? doc found)) := by
  have hsorted : ((Weave.uses types).map (·.2)).Pairwise fun a b =>
      a.keyword.index ≤ b.keyword.index := List.pairwise_map.mpr (uses_sorted types)
  have huses := kernelUses_eq hgrouped.loaded hgrouped.found_eq (uses_perm hgrouped.refs) hsorted
  calc ((Weave.uses types).map (·.2)).filterMap (line? doc found)
      = (((Weave.uses types).map (·.2)).filter fun o => (Weave.kernel? o).isSome).filterMap
          (line? doc found) := by
        rw [List.filterMap_filter]
        refine List.filterMap_congr fun use _ => ?_
        unfold line?
        cases Weave.kernel? use with
        | none => rfl
        | some kernel => rfl
    _ = (kernelLists doc).flatMap fun node => (usesIn doc node).filterMap (line? doc found) := by
        rw [huses, List.filterMap_flatMap]
    _ = (kernelLists doc).flatMap fun node => lines (listed? doc found node).toList :=
        List.flatMap_congr fun node hnode => filterMap_line? hgrouped.found_eq hnode
    _ = lines ((kernelLists doc).filterMap (listed? doc found)) := by
        unfold lines
        rw [List.filterMap_eq_flatMap_toList, List.flatMap_assoc]

/-- **The kernels of a file**, by their parameter lists. -/
theorem Finished.kernels_eq [ContentHash] {types : List Declared} {state : Lowering}
    (h : Finished doc found types state) :
    state.kernels = (kernelLists doc).filterMap (listed? doc found) := by
  have hnodup : (((kernelLists doc).filterMap (listed? doc found)).map (·.1)).Nodup := by
    refine List.pairwise_map.mpr ((entries_sorted h.grouped.loaded).imp fun hlt he => ?_)
    -- each kernel is listed once: its parameter list has a place of its own
    rw [he] at hlt
    exact Nat.lt_irrefl _ hlt
  have hne : ∀ kernel ∈ (kernelLists doc).filterMap (listed? doc found), kernel.2.params ≠ [] := by
    intro kernel hkernel
    obtain ⟨node, hnode, hentry⟩ := List.mem_filterMap.mp hkernel
    obtain ⟨-, hsome, -⟩ := mem_kernelLists h.grouped.found_eq hnode
    obtain ⟨-, -, rfl⟩ := Option.map_eq_some_iff.mp hentry
    simpa using hsome
  calc state.kernels
      = (((Weave.uses types).map (·.2)).filterMap (line? doc found)).foldl write [] := by
        rw [run_kernels h.run h.stage.titles, List.foldl_filterMap, List.foldl_map]
        refine List.foldl_ext _ _ _ fun kernels u hu => ?_
        rw [enter_eq h.grouped hu]
        cases line? doc found u.2 with
        | none => rfl
        | some line => rfl
    _ = _ := by rw [lines_eq h.grouped, foldl_write_lines hnodup hne]

end Lowering

/-! ## §5. What the table says -/

/-- The token is one of the node's own, and a symbol spelled as a texture keyword. -/
def Document.IsKeywordIn (doc : Document) (node : NodeId) (id : TokenId) : Prop :=
  id ∈ doc.ownTokens node ∧ ∃ token, doc.tokens.get? id = some token ∧ token.kind = .symbol
    ∧ (Signature.ofKeyword? token.text).isSome = true

/-- The function is a kernel with a body, and there is a texture keyword in its parameter
    list. -/
def Document.TakesTextures (doc : Document) (function : NodeId) : Prop :=
  (doc.tree.kind? function = some .functionDefn
      ∧ Outline.isKernel doc.tokens doc.tree function = true)
    ∧ ∃ params, Outline.functionParams? doc.tree function = some params
      ∧ ∃ id, doc.IsKeywordIn params id

/-- The keywords in a node are the tokens that say a signature. -/
theorem Occurrence.isKeywordIn_iff {doc : Document} {node : NodeId} {id : TokenId} :
    doc.IsKeywordIn node id
      ↔ ∃ token, (id, token) ∈ entries doc node ∧ (signature? token).isSome = true := by
  constructor
  · rintro ⟨hown, token, htoken, hword⟩
    exact ⟨token, mem_entries.mpr ⟨hown, htoken⟩, signature?_isSome.mpr hword⟩
  · rintro ⟨token, hentry, hword⟩
    obtain ⟨hown, htoken⟩ := mem_entries.mp hentry
    exact ⟨hown, token, htoken, signature?_isSome.mp hword⟩

namespace Lowering

open Occurrence (kernelOf? usesIn kernelLists)

/-- A parameter is entered as the keyword says of the earliest use with its key, and bound as
    the platform needs it: by the variable made for it, or by its own name.  Unless a use of
    another keyword has the same key, this is what its own keyword says. -/
structure IsBound [ContentHash] (doc : Document) (found : List Occurrence) (state : Lowering)
    (function : String) (use : Occurrence) (param : BoundParam) : Prop where
  signature : ∃ first, Occurrence.representative? doc found use = some first
    ∧ Signature.ofKeyword? (doc.tokens.textOf first.keyword)
      = some ⟨param.kind, param.dims, param.mode⟩
  spelled :
    (∀ other ∈ found, Occurrence.key doc.tokens other = Occurrence.key doc.tokens use →
      doc.tokens.textOf other.keyword = doc.tokens.textOf use.keyword) →
    Signature.ofKeyword? (doc.tokens.textOf use.keyword)
      = some ⟨param.kind, param.dims, param.mode⟩
  binding : ∃ name, use.param? = some name
    ∧ match doc.config.platform with
      | .cuda => param.binding = globalName param.kind function name.text
        ∧ ∃ type ∈ state.types, use ∈ type.refs
          ∧ ⟨function, name.text, param.binding⟩ ∈ type.globals
      | .openCl => param.binding = name.text

/-- Where the hashes keep the words of a file apart, a parameter is what its keyword says. -/
theorem IsBound.signature_eq [ContentHash] {doc : Document} {found : List Occurrence}
    {state : Lowering} {function : String} {use : Occurrence} {param : BoundParam}
    (h : IsBound doc found state function use param)
    (hfound : Occurrence.findAll doc = .ok found)
    (hapart : ContentHash.Separates (found.map (Occurrence.spelled doc.tokens)))
    (huse : use ∈ found) :
    Signature.ofKeyword? (doc.tokens.textOf use.keyword)
      = some ⟨param.kind, param.dims, param.mode⟩ := by
  refine h.spelled fun other hother hkey => ?_
  have hspelled := (Occurrence.key_eq_iff hfound hapart hother huse).mp hkey
  exact (Occurrence.spelled_eq_iff.mp hspelled).1

/-- The entry has the name of the function, and its parameters are the textures in the
    function's parameter list, from left to right. -/
structure IsEntry [ContentHash] (doc : Document) (found : List Occurrence) (state : Lowering)
    (function : NodeId) (entry : KernelTextures) : Prop where
  name : ∃ id, Outline.functionName? doc.tokens doc.tree function = some id
    ∧ entry.name = doc.tokens.textOf id
  params : ∃ node uses, Outline.functionParams? doc.tree function = some node
    ∧ Occurrence.scan doc node = .ok uses
    ∧ (uses.Pairwise fun a b => a.keyword.index < b.keyword.index)
    ∧ (∀ id, doc.IsKeywordIn node id → id ∈ uses.flatMap Occurrence.words)
    ∧ List.Forall₂ (IsBound doc found state entry.name) uses entry.params

section Table

variable {doc : Document} {found : List Occurrence} {types : List Declared} {state : Lowering}

/-- **The kernels of the table** are those that take textures. -/
theorem mem_entries_iff [ContentHash] (hgrouped : Weave.Grouped doc found types)
    {function : NodeId} :
    function ∈ ((kernelLists doc).filterMap (listed? doc found)).map (·.1)
      ↔ doc.TakesTextures function := by
  have h₀ := hgrouped.loaded
  have hfound := hgrouped.found_eq
  constructor
  · intro hin
    obtain ⟨entry, hentry, rfl⟩ := List.mem_map.mp hin
    obtain ⟨node, hnode, he⟩ := List.mem_filterMap.mp hentry
    obtain ⟨hscan, hsome, -⟩ := mem_kernelLists hfound hnode
    obtain ⟨kernel, hkernel, rfl⟩ := Option.map_eq_some_iff.mp he
    obtain ⟨hdef, hparams, -⟩ := h₀.kernelOf?_eq_some.mp hkernel
    obtain ⟨use, huse⟩ := List.exists_mem_of_ne_nil _ hsome
    exact ⟨hdef, node, hparams, use.keyword,
      Occurrence.isKeywordIn_iff.mpr ((Occurrence.scanFrom_ok hscan).1 use huse).keyword⟩
  · rintro ⟨hdef, params, hparams, id, hid⟩
    obtain ⟨hparent, hkind⟩ := (h₀.functionParams?_eq_some hdef.1).mp hparams
    obtain ⟨name, hname⟩ := h₀.exists_functionName hgrouped.reads hparent hkind hdef.2
    have hkernel := h₀.kernelOf?_eq_some.mpr ⟨hdef, hparams, name, hname, rfl⟩
    have hcandidate : params ∈ Occurrence.candidates doc := by
      rw [h₀.mem_candidates, hkind]
      rfl
    have hscan := (Occurrence.findAll_eq hfound).2 params hcandidate
    -- the keyword is a word of one of the uses
    have hsome : usesIn doc params ≠ [] := by
      intro hempty
      obtain ⟨token, hentry, hword⟩ := Occurrence.isKeywordIn_iff.mp hid
      have hin := (Occurrence.scanFrom_ok hscan).2.2 _ hentry hword
      rw [hempty] at hin
      simp at hin
    have hlist : params ∈ kernelLists doc :=
      List.mem_filter.mpr ⟨hcandidate, by simp [Occurrence.takesTextures, hkernel, hsome]⟩
    obtain ⟨entry, hentry, rfl⟩ : ∃ entry, listed? doc found params = some entry
        ∧ entry.1 = function := by
      unfold listed?
      rw [hkernel]
      exact ⟨_, rfl, rfl⟩
    exact List.mem_map_of_mem (List.mem_filterMap.mpr ⟨params, hlist, hentry⟩)

/-- Every use found is recorded with a type, which is what the use says that stands for it. -/
theorem Finished.exists_type [ContentHash] (h : Finished doc found types state) {use : Occurrence}
    (huse : use ∈ found) :
    ∃ type ∈ state.types, use ∈ type.refs ∧ ∃ first ∈ found,
      Occurrence.representative? doc found use = some first
        ∧ Occurrence.key doc.tokens first = Occurrence.key doc.tokens use
        ∧ Signature.ofKeyword? (doc.tokens.textOf first.keyword) = some type.signature := by
  obtain ⟨u, hu, rfl⟩ := List.mem_map.mp ((uses_perm h.grouped.refs).mem_iff.mpr huse)
  obtain ⟨hdeclared, hrefs⟩ := mem_uses.mp hu
  have htitle : (u.1.signature, u.1.name, u.1.refs)
      ∈ state.types.map fun type => (type.signature, type.name, type.refs) := by
    rw [h.stage.titles]
    exact List.mem_map.mpr ⟨u.1, hdeclared, rfl⟩
  -- what is recorded and what was declared have the same titles
  obtain ⟨type, htype, he⟩ := List.mem_map.mp htitle
  simp only [Prod.mk.injEq] at he
  obtain ⟨hfirst, hsignature⟩ := h.grouped.representative hdeclared hrefs
  obtain ⟨_, _, hsplit, -⟩ := earliest?_split hfirst
  obtain ⟨hmem, hkey⟩ := List.mem_filter.mp (hsplit ▸ List.mem_append_cons_self)
  exact ⟨type, htype, he.2.2 ▸ hrefs, u.1.first, hmem, hfirst, of_decide_eq_true hkey,
    he.1 ▸ hsignature⟩

/-- The parameters of an entry are bound as they are to be. -/
theorem Finished.isBound [ContentHash] (h : Finished doc found types state) {use : Occurrence}
    (huse : use ∈ found) {function : NodeId} {name : String}
    {param : Occurrence.Param} (hparam : use.param? = some param)
    (hkernel : Weave.kernel? use = some (function, name, param.text)) :
    IsBound doc found state name use
      (boundParam doc.config.platform (signatureOf doc found use) name param.text) := by
  obtain ⟨type, htype, hrefs, first, hfirst, hstands, hkey, hsignature⟩ := h.exists_type huse
  have hown : signatureOf doc found use = type.signature := by
    unfold signatureOf
    rw [hstands, Option.bind_some, hsignature]
    rfl
  rw [hown]
  refine ⟨⟨first, hstands, hsignature⟩, fun hsame => hsame first hfirst hkey ▸ hsignature,
    param, hparam, ?_⟩
  have hvariables := run_globals h.run htype
  -- only CUDA binds through variables, of which each type keeps a list
  cases hplatform : doc.config.platform with
  | cuda =>
    rw [hplatform] at hvariables
    refine ⟨rfl, type, htype, hrefs, hvariables.mem_iff.mpr ?_⟩
    refine List.mem_filterMap.mpr ⟨use, hrefs, ?_⟩
    unfold global?
    rw [hkernel]
    rfl
  | openCl => rfl

/-- **What an entry says.** -/
theorem Finished.isEntry [ContentHash] (h : Finished doc found types state)
    {entry : NodeId × KernelTextures}
    (hentry : entry ∈ (kernelLists doc).filterMap (listed? doc found)) :
    IsEntry doc found state entry.1 entry.2 := by
  have h₀ := h.grouped.loaded
  have hfound := h.grouped.found_eq
  obtain ⟨node, hnode, he⟩ := List.mem_filterMap.mp hentry
  obtain ⟨hscan, -, -⟩ := mem_kernelLists hfound hnode
  obtain ⟨⟨function, name⟩, hkernel, rfl⟩ := Option.map_eq_some_iff.mp he
  obtain ⟨hdef, hparams, hname⟩ := h₀.kernelOf?_eq_some.mp hkernel
  refine ⟨hname, node, usesIn doc node, hparams, hscan,
    Occurrence.scan_sorted h₀ (h₀.kernelOf?_around hkernel).2.2.1 hscan, ?_, ?_⟩
  · intro id hid
    obtain ⟨token, hin, hword⟩ := Occurrence.isKeywordIn_iff.mp hid
    exact (Occurrence.scanFrom_ok hscan).2.2 _ hin hword
  · refine List.forall₂_map_right_iff.mpr (List.forall₂_same.mpr fun use huse => ?_)
    obtain ⟨param, hparam, hk⟩ := Occurrence.kernel?_of_kernelOf? hkernel hscan huse
    have hmem : use ∈ found := by
      rw [(Occurrence.findAll_eq hfound).1]
      exact List.mem_flatMap.mpr ⟨node, List.mem_of_mem_filter hnode, huse⟩
    rw [hparam]
    exact h.isBound hmem hparam hk

end Table

/-- **The table of kernels**: one entry for each kernel definition that takes textures, in the
    order in which these stand in the file. -/
theorem run_table [ContentHash] {config : Config} {source : String} {doc : Document}
    {state : Lowering}
    (hload : Document.load config source = .ok doc) (hrun : run doc = (.ok (), state)) :
    ∃ found, Occurrence.findAll doc = .ok found
      ∧ ∃ functions : List NodeId,
        (functions.Pairwise fun a b => doc.start a < doc.start b)
        ∧ (∀ function, function ∈ functions ↔ doc.TakesTextures function)
        ∧ List.Forall₂ (IsEntry doc found state) functions state.table := by
  obtain ⟨found, types, h⟩ := run_finished hload hrun
  have hkernels := h.kernels_eq
  have hentries : ∀ entry ∈ state.kernels, IsEntry doc found state entry.1 entry.2 := by
    intro entry hentry
    exact h.isEntry (hkernels ▸ hentry)
  refine ⟨found, h.grouped.found_eq, state.kernels.map (·.1), ?_, ?_, ?_⟩
  · rw [hkernels]
    exact List.pairwise_map.mpr (entries_sorted h.grouped.loaded)
  · intro function
    rw [hkernels]
    exact mem_entries_iff h.grouped
  · unfold table
    rw [List.forall₂_map_left_iff, List.forall₂_map_right_iff]
    exact List.forall₂_same.mpr hentries

/-- Two signatures with one hash: the second parameter is entered with the dimensions and the
    read mode of the first. -/
theorem run_table_oneKey :
    ∃ doc state, Document.load {}
        "kernel void k(Texture2Du<hcpgceafcmjphbfk> a, Texture3Dn<cjgiikblgfkohfnk> b) \x7b \x7d"
        = .ok doc
      ∧ run doc = (.ok (), state)
      ∧ state.table = [⟨"k", [⟨"__TextureVar_k_a__", .texture, 2, .raw⟩,
          ⟨"__TextureVar_k_b__", .texture, 2, .raw⟩]⟩]
      ∧ Signature.ofKeyword? "Texture3Dn" = some ⟨.texture, 3, .normalized⟩
      ∧ ∃ found, Occurrence.findAll doc = .ok found
        ∧ ∃ functions : List NodeId,
          (functions.Pairwise fun a b => doc.start a < doc.start b)
          ∧ (∀ function, function ∈ functions ↔ doc.TakesTextures function)
          ∧ List.Forall₂ (IsEntry doc found state) functions state.table := by
  obtain ⟨doc, state, hload, hrun, htable⟩ := run_of_eval {}
    "kernel void k(Texture2Du<hcpgceafcmjphbfk> a, Texture3Dn<cjgiikblgfkohfnk> b) \x7b \x7d"
    (fun _ state => state.table)
    [⟨"k", [⟨"__TextureVar_k_a__", .texture, 2, .raw⟩,
      ⟨"__TextureVar_k_b__", .texture, 2, .raw⟩]⟩] (by decide +kernel)
  exact ⟨doc, state, hload, hrun, htable, rfl, run_table hload hrun⟩

end Lowering

end KernelPrep
