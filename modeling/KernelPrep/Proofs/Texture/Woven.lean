/-
  KernelPrep.Proofs.Texture.Woven — a document under work, against the one that was loaded.

  The passes edit list and outline in place, and the anchors of later edits are the ends of
  nodes as earlier ones have left them.  What ties a document under work to the loaded one is
  that its file is laid out in the strands of the loaded tokens, that each strand reads as
  expected, and that the nodes a pass works at still begin and end where they did as long as
  those tokens stand for themselves.

  Main definitions:
    * `Weft`  — what stands before, in place of and behind one token;
    * `Woven` — the document is the loaded one with the given tokens woven in;
    * `Bound` — the bindings recorded are those behind the first tokens of the bodies;
    * `Labelled` — the nodes put in, in order, and what each of them spells;
    * `Fabric` — all of this.

  Main statements:
    * `Fabric.newRun`, `Fabric.insertBefore`, `Fabric.bind`, `Fabric.replace` — what each edit
      adds;
    * `Woven.spells_eq` — the file that comes of it.
-/
import KernelPrep.Proofs.Step
import KernelPrep.Proofs.Texture.Growth
import KernelPrep.Proofs.Texture.Scope
import KernelPrep.Proofs.Texture.Strand
import KernelPrep.Proofs.Texture.Weave

namespace KernelPrep

open NodeTree (Below Forest root)
open Strand (lay)

/-! ## §1. Strands spelled out -/

/-- What stands around a token and in place of it; nothing is in its place while it stands
    for itself. -/
@[ext]
structure Weft where
  lead : Spelling
  core? : Option Spelling
  trail : Spelling

/-- Nothing but the token. -/
def Weft.bare : Weft := ⟨[], none, []⟩

/-- What stands for the token `x` is at the token `t`: at itself, or at the first of the tokens
    that something else took the place of, `x` being among the others. -/
def Weft.Seat (weft : TokenId → Weft) (file : List TokenId) (x t : TokenId) : Prop :=
  t = x ∨ (weft t).core? ≠ none ∧ ∃ a rest b, file = a ++ (t :: rest) ++ b ∧ x ∈ rest
    ∧ ∀ y ∈ rest, (weft y).core? = some []

/-- A token that is spelled `own` itself, with what is around it. -/
def Weft.spelling (w : Weft) (own : Spelling) : Spelling := w.lead ++ w.core?.getD own ++ w.trail

/-- The strand of the token reads as said. -/
structure Strand.Reads (list : TokenList) (id : TokenId) (s : Strand) (w : Weft) : Prop where
  lead : list.spells s.lead = w.lead
  self : w.core? = none → s.core = [id]
  other : ∀ spelling, w.core? = some spelling → id ∉ s.core ∧ list.spells s.core = spelling
  trail : list.spells s.trail = w.trail

namespace Strand.Reads

variable {list list' : TokenList} {id : TokenId} {s : Strand} {w : Weft}

/-- A strand reads as its tokens do. -/
theorem congr (h : s.Reads list id w) (hface : ∀ x ∈ s.ids, list'.face? x = list.face? x) :
    s.Reads list' id w where
  lead := by
    rw [← h.lead]
    exact TokenList.spells_congr fun x hx => hface x (by simp [Strand.ids, hx])
  self := h.self
  other := by
    intro spelling hspelling
    obtain ⟨hnot, hspells⟩ := h.other spelling hspelling
    refine ⟨hnot, ?_⟩
    rw [← hspells]
    exact TokenList.spells_congr fun x hx => hface x (by simp [Strand.ids, hx])
  trail := by
    rw [← h.trail]
    exact TokenList.spells_congr fun x hx => hface x (by simp [Strand.ids, hx])

/-- A token that is still there stands for itself. -/
theorem core?_eq_none (h : s.Reads list id w) (hcore : s.core = [id]) : w.core? = none := by
  cases hc : w.core? with
  | none => rfl
  | some spelling =>
    have hnot := (h.other spelling hc).1
    rw [hcore] at hnot
    simp at hnot

/-- A strand spells what its token is said to be woven into. -/
theorem spelling (h : s.Reads list id w) {own : Spelling}
    (hown : s.core = [id] → list.spells [id] = own) : list.spells s.ids = w.spelling own := by
  unfold Strand.ids Weft.spelling
  rw [TokenList.spells_append, TokenList.spells_append, h.lead, h.trail]
  congr 2
  cases hc : w.core? with
  | none =>
    have hcore := h.self hc
    rw [hcore, Option.getD_none, hown hcore]
  | some spelling => exact (h.other spelling hc).2

end Strand.Reads

/-! ## §2. The document under work -/

/-- The document is `doc₀` with the given tokens woven in.  Runs lead constructs at file scope
    only and follow the first tokens of function bodies only, and their nodes are put in at file
    scope and in blocks. -/
structure Woven (doc₀ doc : Document) (strand : TokenId → Strand) (weft : TokenId → Weft) :
    Prop where
  config : doc.config = doc₀.config
  newline : doc.newline = doc₀.newline
  laid : Laid doc₀.tokens doc.tokens strand
  grown : doc₀.tree.Overgrown doc.tree
  reads : ∀ id ∈ doc₀.tokens.ids, (strand id).Reads doc.tokens id (weft id)
  ends : ∀ node range₀, doc₀.Plain node → doc₀.tree.tokens? node = some range₀ →
    ∃ range, doc.tree.tokens? node = some range
      ∧ ((weft range₀.first).core? = none → range.first = range₀.first)
      ∧ ((weft range₀.last).core? = none → range.last = range₀.last)
  seats : ∀ node range₀, doc₀.Plain node → doc₀.tree.tokens? node = some range₀ →
    ∃ range, doc.tree.tokens? node = some range
      ∧ (∃ t, Weft.Seat weft doc₀.tokens.ids range₀.first t
        ∧ (strand t).core.head? = some range.first)
      ∧ ∃ t, Weft.Seat weft doc₀.tokens.ids range₀.last t
        ∧ (strand t).core.getLast? = some range.last
  led : ∀ id ∈ doc₀.tokens.ids, (strand id).lead ≠ [] →
    ∃ construct, doc₀.AtScope construct ∧ doc₀.Starts construct id
  trailed : ∀ id ∈ doc₀.tokens.ids, (strand id).trail ≠ [] →
    ∃ function body, doc₀.IsBody function body ∧ doc₀.Starts body id
  bearers : ∀ node parent, doc₀.tree.nodes.size ≤ node.index →
    doc.tree.parent? node = some parent →
    ¬ doc₀.Plain parent ∨ doc₀.tree.kind? parent = some .statementBlock

/-- The last binding of each kernel is the last run behind the first token of its body, and
    it does not end with a blank. -/
structure Bound (doc₀ doc : Document) (strand : TokenId → Strand)
    (bindings : List (NodeId × NodeId)) : Prop where
  missing : ∀ function body id, bindings.lookup function = none →
    doc₀.IsBody function body → doc₀.Starts body id → (strand id).trail = []
  last : ∀ function node, bindings.lookup function = some node →
    doc₀.tree.nodes.size ≤ node.index ∧ ∃ body id range, doc₀.IsBody function body
      ∧ doc₀.Starts body id ∧ doc.tree.parent? node = some body
      ∧ doc.tree.tokens? node = some range ∧ (strand id).trail.getLast? = some range.last
  closed : ∀ id ∈ doc₀.tokens.ids, ∀ x, (strand id).trail.getLast? = some x →
    doc.tokens.kind? x ≠ some .whitespace

/-- What stands around the original tokens, run by run: the node with the label `k` stands on
    `run k`; before the token `t` are the runs `front t`, and behind it the runs `back t`. -/
structure Seams (doc₀ doc : Document) (strand : TokenId → Strand) (labels : List Spelling)
    (run : Nat → List TokenId) (front back : TokenId → List Nat) : Prop where
  each : ∀ k label, labels[k]? = some label → ∃ range,
    doc.tree.tokens? ⟨doc₀.tree.nodes.size + k⟩ = some range ∧ range.Ends (run k)
      ∧ doc.tokens.spells (run k) = label
  lead : ∀ t ∈ doc₀.tokens.ids, (strand t).lead = (front t).flatMap run
  trail : ∀ t ∈ doc₀.tokens.ids, (strand t).trail = (back t).flatMap run
  bound : ∀ t ∈ doc₀.tokens.ids, ∀ k ∈ front t ++ back t, k < labels.length
  all : ∀ k < labels.length, ∃ t ∈ doc₀.tokens.ids, k ∈ front t ++ back t

/-- The nodes put in are those of the handles given out since loading, each for a run before or
    behind one original token that spells its label. -/
structure Labelled (doc₀ doc : Document) (strand : TokenId → Strand) (labels : List Spelling) :
    Prop where
  size : doc.tree.nodes.size = doc₀.tree.nodes.size + labels.length
  each : ∀ k label, labels[k]? = some label → ∃ parent range ids,
    doc.tree.kind? ⟨doc₀.tree.nodes.size + k⟩ = some .userTokens
      ∧ doc.tree.parent? ⟨doc₀.tree.nodes.size + k⟩ = some parent
      ∧ parent.index < doc₀.tree.nodes.size
      ∧ doc.tree.tokens? ⟨doc₀.tree.nodes.size + k⟩ = some range ∧ range.Ends ids
      ∧ (∃ t ∈ doc₀.tokens.ids, ids <:+: (strand t).lead ∨ ids <:+: (strand t).trail)
      ∧ doc.tokens.spells ids = label
  seams : ∃ run front back, Seams doc₀ doc strand labels run front back

/-- The document is `doc₀` with the given tokens woven in, with the bindings and the labels of
    the nodes put in. -/
def Fabric (doc₀ doc : Document) (weft : TokenId → Weft) (bindings : List (NodeId × NodeId))
    (labels : List Spelling) : Prop :=
  ∃ strand, Woven doc₀ doc strand weft ∧ Bound doc₀ doc strand bindings
    ∧ Labelled doc₀ doc strand labels

/-- The detached run spells the pieces. -/
def Ready (doc : Document) (run : TokenRange) (pieces : List Piece) : Prop :=
  ∃ ids line, doc.tokens.walk run false = .ok ids
    ∧ ids.map doc.tokens.face?
      = (pieces.flatMap (·.spell doc.newline)).map fun entry => some (entry.1, entry.2, line)

/-- Tokens that look like a spelling spell it. -/
theorem spells_of_faces {list : TokenList} {ids : List TokenId} {line : Nat}
    {spelling : Spelling}
    (h : ids.map list.face? = spelling.map fun entry => some (entry.1, entry.2, line)) :
    list.spells ids = spelling := by
  have hmap : list.spells ids
      = (ids.map list.face?).filterMap fun face? => face?.map fun face => (face.1, face.2.1) := by
    rw [List.filterMap_map]
    exact list.spells_eq_face? ids
  rw [hmap, h, List.filterMap_map]
  exact List.filterMap_some

namespace Woven

variable {doc₀ doc doc' : Document} {strand : TokenId → Strand} {weft : TokenId → Weft}
  {bindings : List (NodeId × NodeId)} {id : TokenId} {run : TokenRange} {pieces : List Piece}

/-- A document is itself with nothing woven in. -/
theorem start (h₀ : Loaded doc₀) : Woven doc₀ doc₀ Strand.whole fun _ => Weft.bare where
  config := rfl
  newline := rfl
  laid := Laid.start h₀.unedited
  grown := NodeTree.Overgrown.refl h₀.forest
  reads := fun _ _ => ⟨rfl, fun _ => rfl, by simp [Weft.bare], rfl⟩
  ends := fun _ range₀ _ hrange => ⟨range₀, hrange, fun _ => rfl, fun _ => rfl⟩
  seats := fun _ range₀ _ hrange =>
    ⟨range₀, hrange, ⟨_, Or.inl rfl, rfl⟩, _, Or.inl rfl, rfl⟩
  led := by simp [Strand.whole]
  trailed := by simp [Strand.whole]
  bearers := by
    intro node parent hnew hparent
    obtain ⟨n, hn⟩ := h₀.forest.live_child ((h₀.forest.parent_iff _ _).mp hparent)
    have hlt := NodeTree.index_lt_of_get? hn
    omega

theorem congr {weft' : TokenId → Weft} (h : Woven doc₀ doc strand weft)
    (hweft : ∀ id, weft' id = weft id) : Woven doc₀ doc strand weft' := by
  obtain rfl : weft' = weft := funext hweft
  exact h

/-- **The file of the document** is the loaded one with the given tokens woven in. -/
theorem spells_eq (h : Woven doc₀ doc strand weft) :
    doc.tokens.spells doc.tokens.ids
      = doc₀.tokens.ids.flatMap fun id => (weft id).spelling (doc₀.tokens.spells [id]) := by
  have hall : ∀ ids : List TokenId, (∀ id ∈ ids, id ∈ doc₀.tokens.ids) →
      doc.tokens.spells (lay strand ids)
        = ids.flatMap fun id => (weft id).spelling (doc₀.tokens.spells [id]) := by
    intro ids hids
    induction ids with
    | nil => rfl
    | cons id rest ih =>
      have hid := hids id List.mem_cons_self
      have hown : (strand id).core = [id] → doc.tokens.spells [id] = doc₀.tokens.spells [id] := by
        intro hcore
        refine TokenList.spells_congr fun x hx => ?_
        rw [List.mem_singleton.mp hx, h.laid.face id hid hcore]
      rw [Strand.lay_cons, TokenList.spells_append, (h.reads id hid).spelling hown,
        ih fun x hx => hids x (List.mem_cons_of_mem _ hx), List.flatMap_cons]
  have hfile := hall doc₀.tokens.ids fun _ hid => hid
  rw [← h.laid.threaded.ids_eq] at hfile
  exact hfile

end Woven

/-! ## §3. New runs -/

/-- A run that was added is a new run. -/
theorem Edit.newRun_of_addRun {doc doc' : Document} {line : Nat} {pieces : List Piece}
    {run : TokenRange} (h : Edit.addRun line pieces doc = .ok (some run) doc') :
    Edit.newRun line pieces doc = .ok run doc' :=
  Step.bind_ok.mpr ⟨some run, doc', h, rfl⟩

/-- An entry of a list with one more at its end is an old one or that one. -/
theorem getElem?_concat_cases {α : Type} {l : List α} {x y : α} {k : Nat}
    (h : (l ++ [x])[k]? = some y) : k < l.length ∧ l[k]? = some y ∨ k = l.length ∧ y = x := by
  rcases Nat.lt_or_ge k l.length with hlt | hge
  · rw [List.getElem?_append_left hlt] at h
    exact .inl ⟨hlt, h⟩
  · rw [List.getElem?_append_right hge, List.getElem?_singleton] at h
    split at h
    · exact .inr ⟨by omega, (Option.some.inj h).symm⟩
    · simp at h

/-- The run was put before the token, behind what stood there already, or behind all that stood
    behind the token. -/
inductive Strand.Put (strand : TokenId → Strand) (id : TokenId) (new : List TokenId) :
    (TokenId → Strand) → Prop
  | lead : Put strand id new
      (Function.update strand id { strand id with lead := (strand id).lead ++ new })
  | trail : Put strand id new
      (Function.update strand id { strand id with trail := (strand id).trail ++ new })

namespace Strand.Put

variable {strand strand' : TokenId → Strand} {id : TokenId} {new : List TokenId}

/-- What stood around the tokens is still there. -/
theorem keeps (h : Put strand id new strand') (t : TokenId) :
    (strand t).lead <+: (strand' t).lead ∧ (strand t).trail <+: (strand' t).trail := by
  by_cases ht : t = id
  · cases h with
    | lead =>
      rw [ht, Function.update_self]
      exact ⟨List.prefix_append _ _, List.prefix_rfl⟩
    | trail =>
      rw [ht, Function.update_self]
      exact ⟨List.prefix_rfl, List.prefix_append _ _⟩
  · cases h with
    | lead | trail =>
      rw [Function.update_of_ne ht]
      exact ⟨List.prefix_rfl, List.prefix_rfl⟩

/-- The run stands around the token. -/
theorem holds (h : Put strand id new strand') :
    new <:+: (strand' id).lead ∨ new <:+: (strand' id).trail := by
  cases h with
  | lead =>
    rw [Function.update_self]
    exact Or.inl (List.suffix_append _ _).isInfix
  | trail =>
    rw [Function.update_self]
    exact Or.inr (List.suffix_append _ _).isInfix

end Strand.Put

namespace Seams

variable {doc₀ doc doc' : Document} {strand strand' : TokenId → Strand} {labels : List Spelling}
  {run : Nat → List TokenId} {front back : TokenId → List Nat}

/-- The run of a label is around one original token. -/
theorem mem_strand (h : Seams doc₀ doc strand labels run front back) {t : TokenId}
    (ht : t ∈ doc₀.tokens.ids) {k : Nat} (hk : k ∈ front t ++ back t) {x : TokenId}
    (hx : x ∈ run k) : x ∈ (strand t).lead ++ (strand t).trail := by
  rw [h.lead t ht, h.trail t ht, ← List.flatMap_append]
  exact List.mem_flatMap.mpr ⟨k, hk, hx⟩

/-- The runs so far are those they were. -/
theorem flatMap_update {ks : List Nat} {n : Nat} (h : ∀ k ∈ ks, k < n) (new : List TokenId) :
    ks.flatMap (Function.update run n new) = ks.flatMap run :=
  List.flatMap_congr fun k hk => Function.update_of_ne (Nat.ne_of_lt (h k hk)) ..

/-- The new run is the last one on its side of the token. -/
theorem update_flatMap (stands : TokenId → List TokenId) {side : TokenId → List Nat} {n : Nat}
    {t : TokenId} (hside : ∀ k ∈ side t, k < n) (hstands : stands t = (side t).flatMap run)
    (id : TokenId) (new : List TokenId) :
    Function.update stands id (stands id ++ new) t
      = (Function.update side id (side id ++ [n]) t).flatMap (Function.update run n new) := by
  by_cases he : t = id
  · subst he
    rw [Function.update_self, Function.update_self, List.flatMap_append,
      flatMap_update hside, ← hstands, List.flatMap_cons, List.flatMap_nil,
      List.append_nil, Function.update_self]
  · rw [Function.update_of_ne he, Function.update_of_ne he, flatMap_update hside]
    exact hstands

/-- The node of a label so far is not the next one. -/
theorem label_ne_nextId {doc₀ doc : Document} {n k : Nat}
    (hsize : doc.tree.nodes.size = doc₀.tree.nodes.size + n) (hk : k < n) :
    (⟨doc₀.tree.nodes.size + k⟩ : NodeId) ≠ doc.tree.nextId := by
  intro he
  have hindex : doc₀.tree.nodes.size + k = doc.tree.nodes.size := congrArg NodeId.index he
  omega

/-- The runs so far spell their labels, and the new one spells its own. -/
theorem sprout_each (h : Seams doc₀ doc strand labels run front back)
    (hsize : doc.tree.nodes.size = doc₀.tree.nodes.size + labels.length) {parent : NodeId}
    {range : TokenRange} {touched : NodeId → Prop} {new : List TokenId}
    (hsprouted : doc.tree.Sprouted doc'.tree parent range touched)
    (huntouched : ∀ x : NodeId, doc₀.tree.nodes.size ≤ x.index → ¬ touched x)
    (hface : ∀ x, doc'.tokens.face? x = doc.tokens.face? x) (hends : range.Ends new) {k : Nat}
    {label : Spelling} (hk : (labels ++ [doc.tokens.spells new])[k]? = some label) :
    ∃ range, doc'.tree.tokens? ⟨doc₀.tree.nodes.size + k⟩ = some range
      ∧ range.Ends (Function.update run labels.length new k)
      ∧ doc'.tokens.spells (Function.update run labels.length new k) = label := by
  have hspells : ∀ ids, doc'.tokens.spells ids = doc.tokens.spells ids :=
    fun ids => TokenList.spells_congr fun x _ => hface x
  rcases getElem?_concat_cases hk with ⟨hlt, hk⟩ | ⟨rfl, rfl⟩
  · obtain ⟨range, hrange, hends, hlabel⟩ := h.each k label hk
    rw [Function.update_of_ne (Nat.ne_of_lt hlt), hsprouted.tokens _ (label_ne_nextId hsize hlt)
      (huntouched _ (Nat.le_add_right _ _)), hspells]
    exact ⟨range, hrange, hends, hlabel⟩
  · rw [Function.update_self, hspells, ← hsize]
    exact ⟨range, hsprouted.own, hends, rfl⟩

/-- The new run is the last one on the side of one token; all others stand where they stood. -/
theorem sprout_of_sides {front' back' : TokenId → List Nat}
    (h : Seams doc₀ doc strand labels run front back)
    (hsize : doc.tree.nodes.size = doc₀.tree.nodes.size + labels.length) {parent : NodeId}
    {range : TokenRange} {touched : NodeId → Prop} {id : TokenId} {new : List TokenId}
    (hsprouted : doc.tree.Sprouted doc'.tree parent range touched)
    (huntouched : ∀ x : NodeId, doc₀.tree.nodes.size ≤ x.index → ¬ touched x)
    (hface : ∀ x, doc'.tokens.face? x = doc.tokens.face? x) (hends : range.Ends new)
    (hid : id ∈ doc₀.tokens.ids)
    (hlead : ∀ t ∈ doc₀.tokens.ids, (strand' t).lead
      = (front' t).flatMap (Function.update run labels.length new))
    (htrail : ∀ t ∈ doc₀.tokens.ids, (strand' t).trail
      = (back' t).flatMap (Function.update run labels.length new))
    (hmem : ∀ t k, k ∈ front' t ++ back' t ↔ k ∈ front t ++ back t ∨ t = id ∧ k = labels.length) :
    Seams doc₀ doc' strand' (labels ++ [doc.tokens.spells new])
      (Function.update run labels.length new) front' back' := by
  have hmore : (labels ++ [doc.tokens.spells new]).length = labels.length + 1 := by simp
  constructor
  case each => exact fun k label hk => h.sprout_each hsize hsprouted huntouched hface hends hk
  case lead => exact hlead
  case trail => exact htrail
  case bound =>
    intro t ht k hk
    rw [hmore]
    rcases (hmem t k).mp hk with hk | ⟨-, rfl⟩
    · exact Nat.lt_succ_of_lt (h.bound t ht k hk)
    · exact Nat.lt_succ_self _
  case all =>
    intro k hk
    rw [hmore] at hk
    rcases Nat.lt_succ_iff_lt_or_eq.mp hk with hlt | rfl
    · obtain ⟨t, ht, hin⟩ := h.all k hlt
      exact ⟨t, ht, (hmem t k).mpr (Or.inl hin)⟩
    · exact ⟨id, hid, (hmem id _).mpr (Or.inr ⟨rfl, rfl⟩)⟩

/-- One more run, put before or behind an original token. -/
theorem sprout (h : Seams doc₀ doc strand labels run front back)
    (hsize : doc.tree.nodes.size = doc₀.tree.nodes.size + labels.length) {parent : NodeId}
    {range : TokenRange} {touched : NodeId → Prop} {id : TokenId} {new : List TokenId}
    (hsprouted : doc.tree.Sprouted doc'.tree parent range touched)
    (huntouched : ∀ x : NodeId, doc₀.tree.nodes.size ≤ x.index → ¬ touched x)
    (hface : ∀ x, doc'.tokens.face? x = doc.tokens.face? x)
    (hput : Strand.Put strand id new strand') (hends : range.Ends new)
    (hid : id ∈ doc₀.tokens.ids) :
    ∃ run front back,
      Seams doc₀ doc' strand' (labels ++ [doc.tokens.spells new]) run front back := by
  -- the labels there were are below the new one, so they are told apart from it
  have hfront : ∀ t ∈ doc₀.tokens.ids, ∀ k ∈ front t, k < labels.length :=
    fun t ht k hk => h.bound t ht k (List.mem_append_left _ hk)
  have hback : ∀ t ∈ doc₀.tokens.ids, ∀ k ∈ back t, k < labels.length :=
    fun t ht k hk => h.bound t ht k (List.mem_append_right _ hk)
  cases hput with
  | lead =>
    refine ⟨_, Function.update front id (front id ++ [labels.length]), back,
      h.sprout_of_sides hsize hsprouted huntouched hface hends hid (fun t ht => ?_)
        (fun t ht => ?_) (fun t k => ?_)⟩
    · rw [← update_flatMap (fun t => (strand t).lead) (hfront t ht) (h.lead t ht)]
      exact Function.apply_update (fun _ => Strand.lead) ..
    · rw [flatMap_update (hback t ht), ← h.trail t ht]
      exact update_proj Strand.trail (by rfl) t
    · by_cases he : t = id
      · rw [he, Function.update_self]
        simp only [List.mem_append, List.mem_singleton, true_and]
        exact or_right_comm
      · rw [Function.update_of_ne he]
        simp [he]
  | trail =>
    refine ⟨_, front, Function.update back id (back id ++ [labels.length]),
      h.sprout_of_sides hsize hsprouted huntouched hface hends hid (fun t ht => ?_)
        (fun t ht => ?_) (fun t k => ?_)⟩
    · rw [flatMap_update (hfront t ht), ← h.lead t ht]
      exact update_proj Strand.lead (by rfl) t
    · rw [← update_flatMap (fun t => (strand t).trail) (hback t ht) (h.trail t ht)]
      exact Function.apply_update (fun _ => Strand.trail) ..
    · by_cases he : t = id
      · rw [he, Function.update_self]
        simp only [List.mem_append, List.mem_singleton, true_and]
        exact (or_assoc).symm
      · rw [Function.update_of_ne he]
        simp [he]

end Seams

namespace Labelled

variable {doc₀ doc doc' : Document} {strand strand' : TokenId → Strand} {labels : List Spelling}

/-- Nothing has been put in at first. -/
theorem start (doc₀ : Document) : Labelled doc₀ doc₀ Strand.whole [] where
  size := rfl
  each := by simp
  seams := ⟨fun _ => [], fun _ => [], fun _ => [], by simp, fun _ _ => rfl, fun _ _ => rfl,
    by simp, by simp⟩

/-- The tokens of a label are in the strand of one original token. -/
theorem mem_strand {s : Strand} {ids : List TokenId} (h : ids <:+: s.lead ∨ ids <:+: s.trail)
    {x : TokenId} (hx : x ∈ ids) : x ∈ s.lead ++ s.trail := by
  rcases h with h | h
  · exact List.mem_append_left _ (h.subset hx)
  · exact List.mem_append_right _ (h.subset hx)

/-- A change of the file that leaves what stands around the original tokens as it was. -/
theorem congr (h : Labelled doc₀ doc strand labels)
    (hsize : doc'.tree.nodes.size = doc.tree.nodes.size)
    (hkind : ∀ x, doc'.tree.kind? x = doc.tree.kind? x)
    (hparent : ∀ x, doc'.tree.parent? x = doc.tree.parent? x)
    (htokens : ∀ x range, doc.tree.tokens? x = some range →
      (∀ t ∈ doc₀.tokens.ids, range.first ∈ (strand t).lead ++ (strand t).trail →
        range.last ∈ (strand t).lead ++ (strand t).trail → doc'.tree.tokens? x = some range))
    (hstrand : ∀ t ∈ doc₀.tokens.ids,
      (strand' t).lead = (strand t).lead ∧ (strand' t).trail = (strand t).trail)
    (hface : ∀ t ∈ doc₀.tokens.ids, ∀ x ∈ (strand t).lead ++ (strand t).trail,
      doc'.tokens.face? x = doc.tokens.face? x) : Labelled doc₀ doc' strand' labels where
  size := hsize.trans h.size
  each := by
    intro k label hk
    obtain ⟨parent, range, ids, hk', hp, hold, hr, hends, ⟨t, ht, hin⟩, hspells⟩ :=
      h.each k label hk
    have hmem : ∀ x ∈ ids, x ∈ (strand t).lead ++ (strand t).trail := fun x hx =>
      mem_strand hin hx
    refine ⟨parent, range, ids, by rw [hkind, hk'], by rw [hparent, hp], hold,
      htokens _ range hr t ht (hmem _ (List.mem_of_head? hends.1))
        (hmem _ (List.mem_of_getLast? hends.2)), hends, ⟨t, ht, ?_⟩, ?_⟩
    · rw [(hstrand t ht).1, (hstrand t ht).2]
      exact hin
    · rw [← hspells]
      exact TokenList.spells_congr fun x hx => hface t ht x (hmem x hx)
  seams := by
    obtain ⟨run, front, back, hseams⟩ := h.seams
    refine ⟨run, front, back, ?_, ?_, ?_, hseams.bound, hseams.all⟩
    · intro k label hk
      obtain ⟨range, hrange, hends, hspells⟩ := hseams.each k label hk
      obtain ⟨t, ht, hin⟩ := hseams.all k (List.getElem?_eq_some_iff.mp hk).1
      have hmem : ∀ x ∈ run k, x ∈ (strand t).lead ++ (strand t).trail := fun x hx =>
        hseams.mem_strand ht hin hx
      refine ⟨range, htokens _ range hrange t ht (hmem _ (List.mem_of_head? hends.1))
        (hmem _ (List.mem_of_getLast? hends.2)), hends, ?_⟩
      rw [← hspells]
      exact TokenList.spells_congr fun x hx => hface t ht x (hmem x hx)
    · intro t ht
      rw [(hstrand t ht).1]
      exact hseams.lead t ht
    · intro t ht
      rw [(hstrand t ht).2]
      exact hseams.trail t ht

/-- One more node, for a run put before or behind an original token. -/
theorem sprout {parent : NodeId} {run : TokenRange} {touched : NodeId → Prop} {id : TokenId}
    {new : List TokenId} (h : Labelled doc₀ doc strand labels)
    (hsprouted : doc.tree.Sprouted doc'.tree parent run touched)
    (hparent : parent.index < doc₀.tree.nodes.size)
    (huntouched : ∀ x : NodeId, doc₀.tree.nodes.size ≤ x.index → ¬ touched x)
    (hface : ∀ x, doc'.tokens.face? x = doc.tokens.face? x)
    (hput : Strand.Put strand id new strand') (hends : run.Ends new)
    (hid : id ∈ doc₀.tokens.ids) :
    Labelled doc₀ doc' strand' (labels ++ [doc.tokens.spells new]) where
  size := by
    rw [hsprouted.size, h.size, List.length_append]
    rfl
  each := by
    intro k label hk
    have hspells : ∀ ids, doc'.tokens.spells ids = doc.tokens.spells ids :=
      fun ids => TokenList.spells_congr fun x _ => hface x
    -- an older line keeps its node, and the new one is on the node that sprouted
    rcases getElem?_concat_cases hk with ⟨hlt, hk⟩ | ⟨rfl, rfl⟩
    · obtain ⟨p, range, ids, hk', hp, hold, hr, hends', ⟨t, ht, hin⟩, hl⟩ := h.each k label hk
      have hne := Seams.label_ne_nextId h.size hlt
      refine ⟨p, range, ids, ?_, ?_, hold, ?_, hends', ⟨t, ht, ?_⟩, ?_⟩
      · rw [hsprouted.kind, if_neg hne, hk']
      · rw [hsprouted.parent, if_neg hne, hp]
      · rw [hsprouted.tokens _ hne (huntouched _ (Nat.le_add_right _ _)), hr]
      · rcases hin with hin | hin
        · exact Or.inl (hin.trans (hput.keeps t).1.isInfix)
        · exact Or.inr (hin.trans (hput.keeps t).2.isInfix)
      · rw [hspells, hl]
    · rw [← h.size]
      refine ⟨parent, run, new, ?_, ?_, hparent, hsprouted.own, hends, ⟨id, hid, hput.holds⟩,
        hspells new⟩
      · exact (hsprouted.kind _).trans (if_pos rfl)
      · exact (hsprouted.parent _).trans (if_pos rfl)
  seams := by
    obtain ⟨runs, front, back, hseams⟩ := h.seams
    exact hseams.sprout h.size hsprouted huntouched hface hput hends hid

end Labelled

namespace Fabric

variable {doc₀ doc doc' : Document} {weft : TokenId → Weft}
  {bindings : List (NodeId × NodeId)} {labels : List Spelling}

/-- **A new run** changes neither the file nor the outline. -/
theorem newRun (h : Fabric doc₀ doc weft bindings labels) (h₀ : Loaded doc₀) (line : Nat)
    (pieces : List Piece) (hne : pieces.flatMap (·.spell doc.newline) ≠ []) :
    ∃ run doc', Edit.addRun line pieces doc = .ok (some run) doc'
      ∧ Fabric doc₀ doc' weft bindings labels ∧ Ready doc' run pieces := by
  obtain ⟨strand, h, hb, hl⟩ := h
  obtain ⟨run?, tokens, hadd⟩ :=
    TokenList.addRun_exists line doc.newline pieces h.laid.threaded h.laid.loose
  obtain ⟨run, ids, rfl, hnew⟩ := TokenList.addRun_ok h.laid.threaded h.laid.loose hadd hne
  refine ⟨run, { doc with tokens }, ?_, ?_⟩
  · unfold Edit.addRun
    rw [hadd]
  -- a token of the file is older than the new ones, so its face is the same
  have hold : ∀ {t x}, t ∈ doc₀.tokens.ids → x ∈ (strand t).ids →
      tokens.face? x = doc.tokens.face? x := by
    intro t x ht hx
    obtain ⟨token, htoken, -⟩ := h.laid.threaded.get?_of_mem (Strand.mem_lay.mpr ⟨t, ht, hx⟩)
    exact hnew.face x (TokenList.index_lt_of_get? htoken)
  refine ⟨⟨strand, ⟨h.config, h.newline, h.laid.newRun h₀.unedited rfl hnew, h.grown, ?_, h.ends,
    h.seats, h.led, h.trailed, h.bearers⟩, ⟨hb.missing, hb.last, ?_⟩, ?_⟩, ids, line, hnew.walk,
    ?_⟩
  · intro t ht
    exact (h.reads t ht).congr fun x hx => hold ht hx
  · intro t ht x hx
    have hin : x ∈ (strand t).ids := by
      simp [Strand.ids, List.mem_of_getLast? hx]
    rw [TokenList.kind?_congr (hold ht hin)]
    exact hb.closed t ht x hx
  · refine hl.congr rfl (fun _ => rfl) (fun _ => rfl) (fun _ _ hr _ _ _ _ => hr)
      (fun _ _ => ⟨rfl, rfl⟩) fun t ht x hx => hold ht ?_
    rw [Strand.ids]
    simp only [List.mem_append] at hx ⊢
    tauto
  · rw [hnew.faces, List.map_map]
    rfl

end Fabric

/-! ## §4. Runs put in -/

/-- A run that is ready spells its pieces. -/
theorem Ready.walk_eq {doc : Document} {run : TokenRange} {pieces : List Piece}
    (h : Ready doc run pieces) {new : List TokenId} (hwalk : doc.tokens.walk run false = .ok new) :
    doc.tokens.spells new = Weave.spelled doc pieces ∧ new.getLast? = some run.last
      ∧ ∃ line, new.map doc.tokens.face?
        = (pieces.flatMap (·.spell doc.newline)).map fun entry =>
            some (entry.1, entry.2, line) := by
  obtain ⟨ids, line, hids, hfaces⟩ := h
  rw [hids] at hwalk
  obtain rfl := Except.ok.inj hwalk
  exact ⟨spells_of_faces hfaces, (TokenList.walkFrom_ok hids).2.1, line, hfaces⟩

/-- A run that is ready is not part of the file. -/
theorem Ready.isDetachedRun {doc : Document} {run : TokenRange} {pieces : List Piece}
    (h : Ready doc run pieces) : doc.tokens.IsDetachedRun run := by
  obtain ⟨ids, -, hids, -⟩ := h
  exact ⟨ids, hids⟩

/-- A node with a run is put in where a node has a range and the run can be linked. -/
theorem Edit.insertWith_exists {doc : Document} {node : NodeId} {run range : TokenRange}
    {anchor : TokenRange → TokenId}
    {link : TokenId → TokenList → Except SpliceError (Splice × TokenList)}
    (attach : NodeTree → NodeId → NodeTree) (widen : TokenId → TokenRange → Option TokenRange)
    (hrange : doc.tree.tokens? node = some range)
    (hlink : ∃ splice tokens, link (anchor range) doc.tokens = .ok (splice, tokens)) :
    ∃ new doc', Edit.insertWith node run anchor link attach widen doc = .ok new doc' := by
  obtain ⟨splice, tokens, hlink⟩ := hlink
  rw [Edit.insertWith_eq, hrange]
  dsimp only
  rw [hlink]
  exact ⟨_, _, rfl⟩

namespace Woven

variable {doc₀ doc doc' : Document} {strand : TokenId → Strand} {weft : TokenId → Weft}
  {bindings : List (NodeId × NodeId)} {id : TokenId} {run : TokenRange} {pieces : List Piece}

/-- The line ends of a file do not change, and so new text is spelled as at first. -/
theorem spelled_eq (h : Woven doc₀ doc strand weft) (pieces : List Piece) :
    Weave.spelled doc pieces = Weave.spelled doc₀ pieces := by
  unfold Weave.spelled
  rw [h.newline]

/-- A run that came into the strand of a token, with a node that leaves the ranges of plain
    nodes alone. -/
theorem sprout {s : Strand} {parent : NodeId} {touched : NodeId → Prop}
    (h : Woven doc₀ doc strand weft) (hid : id ∈ doc₀.tokens.ids)
    (hconfig : doc'.config = doc.config) (hnewline : doc'.newline = doc.newline)
    (hlaid : Laid doc₀.tokens doc'.tokens (Function.update strand id s))
    (hface : ∀ x, doc'.tokens.face? x = doc.tokens.face? x) (hcore : s.core = (strand id).core)
    (hsprouted : doc.tree.Sprouted doc'.tree parent run touched)
    (hplain : ∀ x, doc₀.Plain x → x ≠ doc.tree.nextId ∧ ¬ touched x)
    (hled : s.lead ≠ [] → ∃ construct, doc₀.AtScope construct ∧ doc₀.Starts construct id)
    (htrailed : s.trail ≠ [] →
      ∃ function body, doc₀.IsBody function body ∧ doc₀.Starts body id)
    (hparent : ¬ doc₀.Plain parent ∨ doc₀.tree.kind? parent = some .statementBlock) :
    Woven doc₀ doc' (Function.update strand id s) (Function.update weft id
      ⟨doc.tokens.spells s.lead, (weft id).core?, doc.tokens.spells s.trail⟩) := by
  have hcore? : ∀ t, (Function.update weft id
      ⟨doc.tokens.spells s.lead, (weft id).core?, doc.tokens.spells s.trail⟩ t).core?
        = (weft t).core? := update_proj Weft.core? rfl
  have hcores : ∀ t, (Function.update strand id s t).core = (strand t).core :=
    update_proj Strand.core hcore
  have hspells : ∀ ids, doc'.tokens.spells ids = doc.tokens.spells ids :=
    fun ids => TokenList.spells_congr fun x _ => hface x
  -- the ranges of plain nodes are those they were
  have htokens : ∀ x, doc₀.Plain x → doc'.tree.tokens? x = doc.tree.tokens? x :=
    fun x hx => hsprouted.tokens x (hplain x hx).1 (hplain x hx).2
  constructor
  case config => exact hconfig.trans h.config
  case newline => exact hnewline.trans h.newline
  case laid => exact hlaid
  case grown => exact h.grown.sprout hsprouted
  case reads =>
    intro t ht
    by_cases he : t = id
    · subst he
      rw [Function.update_self, Function.update_self]
      have hreads := h.reads t ht
      refine ⟨hspells _, fun hc => hcore.trans (hreads.self hc), ?_, hspells _⟩
      intro spelling hspelling
      rw [hcore, hspells]
      exact hreads.other spelling hspelling
    · rw [Function.update_of_ne he, Function.update_of_ne he]
      exact (h.reads t ht).congr fun x _ => hface x
  case ends =>
    intro node range₀ hnode hrange₀
    rw [htokens node hnode, hcore?, hcore?]
    exact h.ends node range₀ hnode hrange₀
  case seats =>
    intro node range₀ hnode hrange₀
    unfold Weft.Seat
    simp only [htokens node hnode, hcore?, hcores]
    exact h.seats node range₀ hnode hrange₀
  case led =>
    intro t ht hlead
    by_cases he : t = id
    · subst he
      rw [Function.update_self] at hlead
      exact hled hlead
    · rw [Function.update_of_ne he] at hlead
      exact h.led t ht hlead
  case trailed =>
    intro t ht htrail
    by_cases he : t = id
    · subst he
      rw [Function.update_self] at htrail
      exact htrailed htrail
    · rw [Function.update_of_ne he] at htrail
      exact h.trailed t ht htrail
  case bearers =>
    intro node up hnew hup
    rw [hsprouted.parent] at hup
    split at hup
    · exact Option.some.inj hup ▸ hparent
    · exact h.bearers node up hnew hup

/-- A node that has a parent keeps it when another node comes in. -/
theorem keeps_node (h : Woven doc₀ doc strand weft) {node body parent : NodeId}
    {touched : NodeId → Prop} (hsprouted : doc.tree.Sprouted doc'.tree parent run touched)
    (hup : doc.tree.parent? node = some body) (huntouched : ¬ touched node) :
    doc'.tree.parent? node = some body ∧ doc'.tree.tokens? node = doc.tree.tokens? node := by
  have hfresh : node ≠ doc.tree.nextId :=
    NodeTree.ne_nextId (h.grown.forest.live_child ((h.grown.forest.parent_iff _ _).mp hup))
  refine ⟨?_, hsprouted.tokens node hfresh huntouched⟩
  rw [hsprouted.parent, if_neg hfresh]
  exact hup

/-- A run before a token leaves the bindings as they are. -/
theorem bound_of_sprouted {strand' : TokenId → Strand} {parent : NodeId}
    {touched : NodeId → Prop} (h : Woven doc₀ doc strand weft)
    (hb : Bound doc₀ doc strand bindings)
    (hsprouted : doc.tree.Sprouted doc'.tree parent run touched)
    (huntouched : ∀ x : NodeId, doc₀.tree.nodes.size ≤ x.index → ¬ touched x)
    (hface : ∀ x, doc'.tokens.face? x = doc.tokens.face? x)
    (htrail : ∀ t, (strand' t).trail = (strand t).trail) :
    Bound doc₀ doc' strand' bindings := by
  constructor
  case missing =>
    intro function body t hlookup hbody hstarts
    rw [htrail]
    exact hb.missing function body t hlookup hbody hstarts
  case last =>
    intro function binding hlookup
    obtain ⟨hnew, body, t, range, hbody, hstarts, hup, htokens, hlast⟩ :=
      hb.last function binding hlookup
    obtain ⟨hup', htokens'⟩ := h.keeps_node hsprouted hup (huntouched binding hnew)
    refine ⟨hnew, body, t, range, hbody, hstarts, hup', htokens'.trans htokens, ?_⟩
    rw [htrail]
    exact hlast
  case closed =>
    intro t ht x hx
    rw [htrail] at hx
    rw [TokenList.kind?_congr (hface x)]
    exact hb.closed t ht x hx

/-- A node of the loaded tree is never the next new one. -/
theorem ne_nextId (h : Woven doc₀ doc strand weft) (h₀ : Loaded doc₀) {node : NodeId}
    (hnode : Below doc₀.tree.children root node) : node ≠ doc.tree.nextId := by
  rintro rfl
  have hlt := h₀.index_lt hnode
  have hle := h.grown.size
  exact absurd (Nat.lt_of_lt_of_le hlt hle) (Nat.lt_irrefl _)

/-- The tokens of strands are linked. -/
theorem isLinked (h : Woven doc₀ doc strand weft) (hid : id ∈ doc₀.tokens.ids) {x : TokenId}
    (hx : x ∈ (strand id).ids) : doc.tokens.isLinked x = true :=
  (h.laid.threaded.linked_iff x).mpr (Strand.mem_lay.mpr ⟨id, hid, hx⟩)

end Woven

namespace Fabric

variable {doc₀ doc : Document} {weft : TokenId → Weft} {bindings : List (NodeId × NodeId)}
  {labels : List Spelling} {id : TokenId} {run : TokenRange} {pieces : List Piece}

/-- **A run before a construct** at file scope goes behind what leads its first token. -/
theorem insertBefore (h : Fabric doc₀ doc weft bindings labels) (h₀ : Loaded doc₀)
    {construct : NodeId} (hscope : doc₀.AtScope construct) (hstarts : doc₀.Starts construct id)
    (hnow : doc.Starts construct id) (hself : (weft id).core? = none)
    (hready : Ready doc run pieces) :
    ∃ doc', Edit.insertBefore construct run doc
        = .ok ⟨doc₀.tree.nodes.size + labels.length⟩ doc'
      ∧ Fabric doc₀ doc' (Function.update weft id
          { weft id with lead := (weft id).lead ++ Weave.spelled doc₀ pieces }) bindings
          (labels ++ [Weave.spelled doc₀ pieces]) := by
  obtain ⟨strand, h, hb, hl⟩ := h
  obtain ⟨hbelow, hne⟩ := h₀.below_of_atScope hscope
  obtain ⟨hid, -, -⟩ := h₀.starts hbelow hne hstarts
  have hplace : doc₀.AtScope construct := hscope
  obtain ⟨parent, hparent₀, hor⟩ := hplace
  have hparent : doc.tree.parent? construct = some parent := by
    rw [h.grown.parent construct (h₀.index_lt hbelow)]
    exact hparent₀
  obtain ⟨n, hn⟩ := h₀.forest.live_parent ((h₀.forest.parent_iff _ _).mp hparent₀)
  have hparentOld := NodeTree.index_lt_of_get? hn
  obtain ⟨range, hrange, hfirst⟩ := hnow
  have hreads := h.reads id hid
  have hcore := hreads.self hself
  have hlinked : doc.tokens.isLinked range.first = true := by
    rw [hfirst]
    exact h.isLinked hid (by simp [Strand.ids, hcore])
  obtain ⟨node, doc', heq⟩ : ∃ node doc', Edit.insertBefore construct run doc = .ok node doc' := by
    rw [Edit.insertBefore_eq]
    exact Edit.insertWith_exists _ _ hrange
      (TokenList.insertBefore_of_walk hlinked hready.isDetachedRun)
  obtain ⟨range', splice, hrange', hlink, hnode, hconfig, hnewline, hsprouted⟩ :=
    Edit.insertBefore_sprouted h.grown.forest hparent heq
  rw [hrange] at hrange'
  obtain rfl := Option.some.inj hrange'
  rw [hfirst] at hlink
  obtain ⟨new, hwalk, hlaid, hface⟩ := h.laid.insertBefore h₀.unedited hid hcore hlink
  obtain ⟨hspells, hlast, -⟩ := hready.walk_eq hwalk
  have hhead := (TokenList.walkFrom_ok hwalk).1
  have hbearer : ¬ doc₀.Plain parent := fun hplain =>
    hor.elim hplain.ne_root hplain.not_linkage
  -- above the construct there are nodes of the original outline only
  have huntouched : ∀ x : NodeId, doc₀.tree.nodes.size ≤ x.index →
      ¬ Below doc.tree.children x parent := by
    intro x hx habove
    have hold := (h.grown.above h₀.forest habove hparentOld).1
    omega
  refine ⟨doc', ?_, _, (h.sprout hid hconfig hnewline hlaid hface rfl hsprouted ?_ (fun _ =>
    ⟨construct, hscope, hstarts⟩) (h.trailed id hid) (Or.inl hbearer)).congr ?_, ?_, ?_⟩
  · rw [heq, hnode, ← hl.size]
    rfl
  · intro x hx
    refine ⟨h.ne_nextId h₀ hx.below, fun hup => ?_⟩
    exact h₀.not_above_scope hx hor (h.grown.above h₀.forest hup hparentOld).2
  · intro t
    rw [TokenList.spells_append, hreads.lead, hspells, h.spelled_eq, hreads.trail]
  · exact h.bound_of_sprouted hb hsprouted huntouched hface (update_proj Strand.trail rfl)
  · rw [← h.spelled_eq, ← hspells]
    exact hl.sprout hsprouted hparentOld huntouched hface .lead ⟨hhead, hlast⟩ hid

end Fabric

/-! ## §5. Bindings -/

/-- A function has one body. -/
theorem Document.IsBody.unique {doc : Document} {function body body' : NodeId}
    (h : doc.IsBody function body) (h' : doc.IsBody function body') : body = body' :=
  Option.some.inj (h.body.symm.trans h'.body)

/-- A node starts with one token. -/
theorem Document.Starts.unique {doc : Document} {node : NodeId} {a b : TokenId}
    (h : doc.Starts node a) (h' : doc.Starts node b) : a = b := by
  obtain ⟨range, hrange, rfl⟩ := h
  obtain ⟨range', hrange', rfl⟩ := h'
  rw [hrange] at hrange'
  rw [Option.some.inj hrange']

namespace Woven

variable {doc₀ doc doc' : Document} {strand : TokenId → Strand} {weft : TokenId → Weft}
  {bindings : List (NodeId × NodeId)} {id : TokenId} {run : TokenRange} {pieces : List Piece}

/-- The bindings after another one was put behind those at the first token of a body. -/
theorem bound_cons (h : Woven doc₀ doc strand weft) (hb : Bound doc₀ doc strand bindings)
    (h₀ : Loaded doc₀) {function body : NodeId} (hbody : doc₀.IsBody function body)
    (hstarts : doc₀.Starts body id) {new : List TokenId} {touched : NodeId → Prop}
    (hlast : new.getLast? = some run.last)
    (hclosed : doc.tokens.kind? run.last ≠ some .whitespace)
    (hface : ∀ x, doc'.tokens.face? x = doc.tokens.face? x)
    (hsprouted : doc.tree.Sprouted doc'.tree body run touched) (huntouched : ∀ x, ¬ touched x) :
    Bound doc₀ doc'
      (Function.update strand id { strand id with trail := (strand id).trail ++ new })
      ((function, doc.tree.nextId) :: bindings) := by
  have hbehind : ((strand id).trail ++ new).getLast? = some run.last := by
    rw [List.getLast?_append, hlast, Option.some_or]
  have hplain := h₀.plain_body hbody
  -- the bodies of other functions begin with other tokens
  have hother : ∀ {f b t}, f ≠ function → doc₀.IsBody f b → doc₀.Starts b t → t ≠ id := by
    rintro f b t hf hb' ht rfl
    have hplain' := h₀.plain_body hb'
    obtain ⟨-, -, hi⟩ := h₀.starts hplain.below hplain.ne_root hstarts
    obtain ⟨-, -, hi'⟩ := h₀.starts hplain'.below hplain'.ne_root ht
    have horder := h₀.start_le_stop hplain.below hplain.ne_root
    have hsame : doc₀.start b = doc₀.start body := hi'.symm.trans hi
    exact hf (h₀.function_eq_of_body hbody hb' (by rw [hsame]) (by rw [hsame]; exact horder)).symm
  refine ⟨?_, ?_, ?_⟩
  · intro f b t hlookup hb' ht
    rw [List.lookup_cons] at hlookup
    split at hlookup
    · simp at hlookup
    · rename_i hf
      rw [Function.update_of_ne (hother (by simpa using hf) hb' ht)]
      exact hb.missing f b t hlookup hb' ht
  · intro f node hlookup
    rw [List.lookup_cons] at hlookup
    split at hlookup
    · rename_i hf
      obtain rfl : f = function := by simpa using hf
      obtain rfl := Option.some.inj hlookup
      refine ⟨h.grown.size, body, id, run, hbody, hstarts, ?_, hsprouted.own, ?_⟩
      · rw [hsprouted.parent, if_pos rfl]
      · rw [Function.update_self]
        exact hbehind
    · rename_i hf
      obtain ⟨hnew, b, t, range, hb', ht, hup, htokens, htrail⟩ := hb.last f node hlookup
      obtain ⟨hup', htokens'⟩ := h.keeps_node hsprouted hup (huntouched node)
      refine ⟨hnew, b, t, range, hb', ht, hup', htokens'.trans htokens, ?_⟩
      rw [Function.update_of_ne (hother (by simpa using hf) hb' ht)]
      exact htrail
  · intro t ht x hx
    rw [TokenList.kind?_congr (hface x)]
    by_cases he : t = id
    · rw [he, Function.update_self, hbehind] at hx
      rw [← Option.some.inj hx]
      exact hclosed
    · rw [Function.update_of_ne he] at hx
      exact hb.closed t ht x hx

end Woven

namespace Fabric

variable {doc₀ doc : Document} {weft : TokenId → Weft} {bindings : List (NodeId × NodeId)}
  {labels : List Spelling} {id : TokenId} {run : TokenRange} {pieces : List Piece}

/-- A binding was put in behind the first token of the body, and no range changed. -/
theorem bind_of_sprouted {doc' : Document} {strand : TokenId → Strand}
    (h : Woven doc₀ doc strand weft) (hb : Bound doc₀ doc strand bindings)
    (hl : Labelled doc₀ doc strand labels) (h₀ : Loaded doc₀) {function body : NodeId}
    (hbody : doc₀.IsBody function body) (hstarts : doc₀.Starts body id)
    (hready : Ready doc run pieces)
    (hclosed : ∀ entry, (pieces.flatMap (·.spell doc.newline)).getLast? = some entry →
      entry.1 ≠ .whitespace)
    {new : List TokenId} {touched : NodeId → Prop} (hwalk : doc.tokens.walk run false = .ok new)
    (hlaid : Laid doc₀.tokens doc'.tokens (Function.update strand id
      { strand id with trail := (strand id).trail ++ new }))
    (hface : ∀ x, doc'.tokens.face? x = doc.tokens.face? x) (hconfig : doc'.config = doc.config)
    (hnewline : doc'.newline = doc.newline)
    (hsprouted : doc.tree.Sprouted doc'.tree body run touched) (huntouched : ∀ x, ¬ touched x) :
    Fabric doc₀ doc' (Function.update weft id
        { weft id with trail := (weft id).trail ++ Weave.spelled doc₀ pieces })
      ((function, doc.tree.nextId) :: bindings) (labels ++ [Weave.spelled doc₀ pieces]) := by
  have hplain := h₀.plain_body hbody
  obtain ⟨hid, -, -⟩ := h₀.starts hplain.below hplain.ne_root hstarts
  have hreads := h.reads id hid
  obtain ⟨hspells, hrun, line, hfaces⟩ := hready.walk_eq hwalk
  -- the run ends with no blank, which would be taken for the indentation of the body
  have hkind : doc.tokens.kind? run.last ≠ some .whitespace := by
    have hface? := congrArg List.getLast? hfaces
    rw [List.getLast?_map, hrun, Option.map_some, List.getLast?_map] at hface?
    obtain ⟨entry, hentry, he⟩ := Option.map_eq_some_iff.mp hface?.symm
    rw [TokenList.kind?_eq_face?, ← he]
    simpa using hclosed entry hentry
  have hwoven := h.sprout hid hconfig hnewline hlaid hface rfl hsprouted
    (fun x hx => ⟨h.ne_nextId h₀ hx.below, huntouched x⟩) (h.led id hid)
    (fun _ => ⟨function, body, hbody, hstarts⟩)
    (Or.inr (Loaded.mem_of_functionBody? hbody.body).2)
  refine ⟨_, hwoven.congr ?_,
    h.bound_cons hb h₀ hbody hstarts hrun hkind hface hsprouted huntouched, ?_⟩
  · intro t
    rw [TokenList.spells_append, hreads.trail, hspells, h.spelled_eq, hreads.lead]
  · rw [← h.spelled_eq, ← hspells]
    exact hl.sprout hsprouted (h₀.index_lt hplain.below) (fun x _ => huntouched x) hface .trail
      ⟨(TokenList.walkFrom_ok hwalk).1, hrun⟩ hid

/-- The body still begins and ends with tokens of its own, which are two. -/
theorem body_stands {strand : TokenId → Strand} (h : Woven doc₀ doc strand weft)
    (h₀ : Loaded doc₀) {function body : NodeId} (hbody : doc₀.IsBody function body)
    (hstarts : doc₀.Starts body id) (hself : (weft id).core? = none)
    (hend : ∀ range₀, doc₀.tree.tokens? body = some range₀ → (weft range₀.last).core? = none) :
    ∃ outer, doc.tree.tokens? body = some outer ∧ outer.first = id
      ∧ outer.last ∈ doc₀.tokens.ids ∧ outer.last ≠ id := by
  have hplain := h₀.plain_body hbody
  obtain ⟨-, -, hindex⟩ := h₀.starts hplain.below hplain.ne_root hstarts
  obtain ⟨range₀, hrange₀, hfirst₀⟩ := hstarts
  obtain ⟨outer, houter, hfirst, hlast⟩ := h.ends body range₀ hplain hrange₀
  have hlast := hlast (hend range₀ hrange₀)
  rw [hfirst₀] at hfirst
  obtain ⟨r, hr, -, hlastmem, hlastindex⟩ := h₀.range hplain.below hplain.ne_root
  rw [hrange₀] at hr
  obtain rfl := Option.some.inj hr
  have hwide := (h₀.sheltered hplain.below hplain.ne_root).wide
    (Loaded.mem_of_functionBody? hbody.body).2
  refine ⟨outer, houter, hfirst hself, hlast ▸ hlastmem, fun hsame => ?_⟩
  rw [← hlast, hsame, hindex] at hlastindex
  exact absurd hlastindex (Nat.ne_of_lt hwide)

/-- The first binding goes directly behind the first token of the body. -/
theorem bind_first {strand : TokenId → Strand} (h : Woven doc₀ doc strand weft)
    (hb : Bound doc₀ doc strand bindings) (hl : Labelled doc₀ doc strand labels)
    (h₀ : Loaded doc₀) {function body : NodeId} (hbody : doc₀.IsBody function body)
    (hstarts : doc₀.Starts body id) (hself : (weft id).core? = none) {outer : TokenRange}
    (houter : doc.tree.tokens? body = some outer) (hfirst : outer.first = id)
    (hwide : outer.last ≠ id) (hlookup : bindings.lookup function = none)
    (hready : Ready doc run pieces)
    (hclosed : ∀ entry, (pieces.flatMap (·.spell doc.newline)).getLast? = some entry →
      entry.1 ≠ .whitespace) :
    ∃ node doc', Edit.insertFirstChild body run doc = .ok node doc'
      ∧ Fabric doc₀ doc' (Function.update weft id
          { weft id with trail := (weft id).trail ++ Weave.spelled doc₀ pieces })
          ((function, node) :: bindings) (labels ++ [Weave.spelled doc₀ pieces]) := by
  have hplain := h₀.plain_body hbody
  obtain ⟨hid, -, -⟩ := h₀.starts hplain.below hplain.ne_root hstarts
  have hcore := (h.reads id hid).self hself
  have htrail := hb.missing function body id hlookup hbody hstarts
  have hlive : ∃ n, doc.tree.get? body = some n := by
    unfold NodeTree.tokens? at houter
    obtain ⟨n, hn, -⟩ := Option.bind_eq_some_iff.mp houter
    exact ⟨n, hn⟩
  have hlinked : doc.tokens.isLinked outer.first = true := by
    rw [hfirst]
    exact h.isLinked hid (by simp [Strand.ids, hcore])
  -- the brace that opens the body is in the file, so the run can be put behind it
  obtain ⟨node, doc', heq⟩ : ∃ node doc',
      Edit.insertFirstChild body run doc = .ok node doc' := by
    rw [Edit.insertFirstChild_eq]
    exact Edit.insertWith_exists _ _ houter
      (TokenList.insertAfter_of_walk hlinked hready.isDetachedRun)
  obtain ⟨range, splice, hrange, hlink, rfl, hconfig, hnewline, hsprouted⟩ :=
    Edit.insertFirstChild_sprouted h.grown.forest hlive heq
  rw [houter] at hrange
  obtain rfl := Option.some.inj hrange
  rw [hfirst] at hlink
  obtain ⟨new, hwalk, hlaid, hface⟩ := h.laid.insertAfter h₀.unedited hid hcore htrail hlink
  refine ⟨_, doc', heq, bind_of_sprouted h hb hl h₀ hbody hstarts hready hclosed hwalk hlaid
    hface hconfig hnewline hsprouted ?_⟩
  -- the body ends behind its brace, and so its range does not grow
  rintro x ⟨r, hr, hanchor⟩
  rw [houter] at hr
  obtain rfl := Option.some.inj hr
  exact hwide (hanchor.trans hfirst)

/-- Any other binding goes behind the one made before. -/
theorem bind_behind {strand : TokenId → Strand} (h : Woven doc₀ doc strand weft)
    (hb : Bound doc₀ doc strand bindings) (hl : Labelled doc₀ doc strand labels)
    (h₀ : Loaded doc₀) {function body binding : NodeId} (hbody : doc₀.IsBody function body)
    (hstarts : doc₀.Starts body id) {outer : TokenRange}
    (houter : doc.tree.tokens? body = some outer) (hlast : outer.last ∈ doc₀.tokens.ids)
    (hlookup : bindings.lookup function = some binding) (hready : Ready doc run pieces)
    (hclosed : ∀ entry, (pieces.flatMap (·.spell doc.newline)).getLast? = some entry →
      entry.1 ≠ .whitespace) :
    ∃ node doc', Edit.insertAfter binding run doc = .ok node doc'
      ∧ Fabric doc₀ doc' (Function.update weft id
          { weft id with trail := (weft id).trail ++ Weave.spelled doc₀ pieces })
          ((function, node) :: bindings) (labels ++ [Weave.spelled doc₀ pieces]) := by
  have hplain := h₀.plain_body hbody
  obtain ⟨hid, -, -⟩ := h₀.starts hplain.below hplain.ne_root hstarts
  obtain ⟨-, body', t, range', hbody', ht, hup, htokens, htrail⟩ :=
    hb.last function binding hlookup
  obtain rfl := hbody.unique hbody'
  obtain rfl := hstarts.unique ht
  have hlinked : doc.tokens.isLinked range'.last = true :=
    h.isLinked hid (by simp [Strand.ids, List.mem_of_getLast? htrail])
  obtain ⟨node, doc', heq⟩ : ∃ node doc', Edit.insertAfter binding run doc = .ok node doc' := by
    rw [Edit.insertAfter_eq]
    exact Edit.insertWith_exists _ _ htokens
      (TokenList.insertAfter_of_walk hlinked hready.isDetachedRun)
  obtain ⟨range, splice, hrange, hlink, rfl, hconfig, hnewline, hsprouted⟩ :=
    Edit.insertAfter_sprouted h.grown.forest hup heq
  rw [htokens] at hrange
  obtain rfl := Option.some.inj hrange
  obtain ⟨new, hwalk, hlaid, hface⟩ := h.laid.insertBehind h₀.unedited hid htrail hlink
  refine ⟨_, doc', heq, bind_of_sprouted h hb hl h₀ hbody hstarts hready hclosed hwalk hlaid
    hface hconfig hnewline hsprouted ?_⟩
  rintro x ⟨r, hr, hanchor⟩
  rw [houter] at hr
  obtain rfl := Option.some.inj hr
  -- the body ends with an original token, and a binding with one that was put in
  have hfresh := h.laid.added id hid range'.last
    (List.mem_append_right _ (List.mem_of_getLast? htrail))
  have hold := h₀.unedited.mem_ids_iff.mp hlast
  rw [hanchor] at hold
  omega

/-- **A binding** goes behind the first token of the body and the bindings made before. -/
theorem bind (h : Fabric doc₀ doc weft bindings labels) (h₀ : Loaded doc₀)
    {function body : NodeId} (hbody : doc₀.IsBody function body)
    (hstarts : doc₀.Starts body id) (hself : (weft id).core? = none)
    (hend : ∀ range₀, doc₀.tree.tokens? body = some range₀ → (weft range₀.last).core? = none)
    (hready : Ready doc run pieces)
    (hclosed : ∀ entry, (pieces.flatMap (·.spell doc.newline)).getLast? = some entry →
      entry.1 ≠ .whitespace) :
    ∃ node doc', (match bindings.lookup function with
        | some last => Edit.insertAfter last run
        | none => Edit.insertFirstChild body run) doc = .ok node doc'
      ∧ Fabric doc₀ doc' (Function.update weft id
          { weft id with trail := (weft id).trail ++ Weave.spelled doc₀ pieces })
          ((function, node) :: bindings) (labels ++ [Weave.spelled doc₀ pieces]) := by
  obtain ⟨strand, h, hb, hl⟩ := h
  obtain ⟨outer, houter, hfirst, hlast, hwide⟩ := body_stands h h₀ hbody hstarts hself hend
  cases hlookup : bindings.lookup function with
  | none =>
    exact bind_first h hb hl h₀ hbody hstarts hself houter hfirst hwide hlookup hready hclosed
  | some binding =>
    exact bind_behind h hb hl h₀ hbody hstarts houter hlast hlookup hready hclosed

end Fabric

/-! ## §6. Runs in place of others -/

/-- What is woven in after one spelling took the place of the token `id` and of those behind
    it. -/
def Weft.recut (weft : TokenId → Weft) (id : TokenId) (rest : List TokenId)
    (spelling : Spelling) (x : TokenId) : Weft :=
  if x = id then { weft x with core? := some spelling }
  else if x ∈ rest then { weft x with core? := some [] }
  else weft x

/-- What stands before a token is as it was. -/
theorem Weft.recut_lead (weft : TokenId → Weft) (id : TokenId) (rest : List TokenId)
    (spelling : Spelling) (x : TokenId) :
    (Weft.recut weft id rest spelling x).lead = (weft x).lead := by
  unfold Weft.recut
  rw [apply_ite Weft.lead, apply_ite Weft.lead, ite_self, ite_self]

/-- What stands behind a token is as it was. -/
theorem Weft.recut_trail (weft : TokenId → Weft) (id : TokenId) (rest : List TokenId)
    (spelling : Spelling) (x : TokenId) :
    (Weft.recut weft id rest spelling x).trail = (weft x).trail := by
  unfold Weft.recut
  rw [apply_ite Weft.trail, apply_ite Weft.trail, ite_self, ite_self]

/-- What stands in place of the tokens afterwards. -/
theorem Weft.recut_core? (weft : TokenId → Weft) (id : TokenId) (rest : List TokenId)
    (spelling : Spelling) (x : TokenId) :
    (Weft.recut weft id rest spelling x).core?
      = if x = id then some spelling else if x ∈ rest then some [] else (weft x).core? := by
  unfold Weft.recut
  rw [apply_ite Weft.core?, apply_ite Weft.core?]

/-- Around all other tokens nothing changes. -/
theorem Weft.recut_of_notMem {weft : TokenId → Weft} {id x : TokenId} {rest : List TokenId}
    (h : x ∉ id :: rest) (spelling : Spelling) : Weft.recut weft id rest spelling x = weft x := by
  simp only [List.mem_cons, not_or] at h
  unfold Weft.recut
  rw [if_neg h.1, if_neg h.2]

/-- What still stands for itself was not replaced. -/
theorem Weft.recut_none {weft : TokenId → Weft} {id x : TokenId} {rest : List TokenId}
    {spelling : Spelling} (h : (Weft.recut weft id rest spelling x).core? = none) :
    x ∉ id :: rest ∧ Weft.recut weft id rest spelling x = weft x := by
  have hnot : x ∉ id :: rest := by
    intro hmem
    unfold Weft.recut at h
    split at h
    · simp at h
    · rename_i hne
      rw [if_pos ((List.mem_cons.mp hmem).resolve_left hne)] at h
      simp at h
  exact ⟨hnot, Weft.recut_of_notMem hnot spelling⟩

/-- Who stands for a token of the file is one of its tokens. -/
theorem Weft.Seat.mem {weft : TokenId → Weft} {file : List TokenId} {x t : TokenId}
    (h : Weft.Seat weft file x t) (hx : x ∈ file) : t ∈ file := by
  rcases h with rfl | ⟨-, a, rest, b, rfl, -⟩
  · exact hx
  · simp

/-- What stands for a token among those cut out is at the first of them, and what stands for
    another one stays. -/
theorem Weft.Seat.recut {weft : TokenId → Weft} {file a rest b : List TokenId}
    {id x t : TokenId} (h : Weft.Seat weft file x t) (spelling : Spelling)
    (hfile : file = a ++ (id :: rest) ++ b) (hnodup : file.Nodup)
    (hself : ∀ y ∈ id :: rest, (weft y).core? = none) :
    ∃ t', Weft.Seat (Weft.recut weft id rest spelling) file x t'
      ∧ (t ∈ id :: rest ∧ t' = id ∨ t ∉ id :: rest ∧ t' = t) := by
  by_cases hcut : t ∈ id :: rest
  · -- the token stood for itself
    have htx : t = x := h.resolve_right fun hgone => hgone.1 (hself t hcut)
    subst htx
    refine ⟨id, ?_, Or.inl ⟨hcut, rfl⟩⟩
    rcases List.mem_cons.mp hcut with rfl | hin
    · exact Or.inl rfl
    by_cases hid : id = t
    · exact Or.inl hid
    refine Or.inr ⟨?_, a, rest, b, hfile, hin, fun y hy => ?_⟩
    · unfold Weft.recut
      rw [if_pos rfl]
      simp
    · have hne : y ≠ id := by
        rintro rfl
        rw [hfile] at hnodup
        have hcuts := (List.nodup_append.mp (List.nodup_append.mp hnodup).1).2.1
        exact (List.nodup_cons.mp hcuts).1 hy
      unfold Weft.recut
      rw [if_neg hne, if_pos hy]
  · refine ⟨t, ?_, Or.inr ⟨hcut, rfl⟩⟩
    refine h.imp_right fun ⟨hgone, a', rest', b', hfile', hin, hempty⟩ => ⟨?_, a', rest', b',
      hfile', hin, fun y hy => ?_⟩
    · rw [Weft.recut_of_notMem hcut]
      exact hgone
    · rw [Weft.recut_of_notMem fun hy' => ?_]
      · exact hempty y hy
      · have := hself y hy'
        simp [hempty y hy] at this

/-- The document `doc'` has the run of the tokens `new` in place of the original tokens
    `id :: rest`, which stood for themselves in `doc` with nothing between them. -/
structure Woven.Recut (doc₀ doc doc' : Document) (strand : TokenId → Strand) (id : TokenId)
    (rest new : List TokenId) (run : TokenRange) : Prop where
  mem : ∀ x ∈ id :: rest, x ∈ doc₀.tokens.ids
  core : ∀ x ∈ id :: rest, (strand x).core = [x]
  trail : ∀ x ∈ id :: rest, (strand x).trail = []
  lead : ∀ x ∈ rest, (strand x).lead = []
  fresh : ∀ x ∈ id :: rest, x ∉ new
  ends : run.Ends new
  face : ∀ x, x ∉ id :: rest → doc'.tokens.face? x = doc.tokens.face? x
  parent : ∀ x, doc'.tree.parent? x = doc.tree.parent? x
  kind : ∀ x, doc'.tree.kind? x = doc.tree.kind? x
  range : ∀ x range, doc.tree.tokens? x = some range → doc'.tree.tokens? x = some
    ⟨if range.first ∈ id :: rest then run.first else range.first,
      if range.last ∈ id :: rest then run.last else range.last⟩
  size : doc'.tree.nodes.size = doc.tree.nodes.size

namespace Woven.Recut

variable {doc₀ doc doc' : Document} {strand : TokenId → Strand} {weft : TokenId → Weft}
  {bindings : List (NodeId × NodeId)} {labels : List Spelling} {id : TokenId}
  {rest new : List TokenId} {run : TokenRange} {spelling : Spelling}

/-- The strands keep what stands behind their tokens. -/
theorem trail_eq (h : Recut doc₀ doc doc' strand id rest new run) (x : TokenId) :
    (Strand.recut strand (id :: rest) id new x).trail = (strand x).trail := by
  by_cases hx : x ∈ id :: rest
  · rw [h.trail x hx]
    by_cases hid : x = id
    · rw [hid, Strand.recut_self]
    · rw [Strand.recut_of_mem new hid hx]
      rfl
  · rw [Strand.recut_of_notMem new hx]

/-- The strands keep what stands before their tokens. -/
theorem lead_eq (h : Recut doc₀ doc doc' strand id rest new run) (x : TokenId) :
    (Strand.recut strand (id :: rest) id new x).lead = (strand x).lead := by
  by_cases hx : x ∈ id :: rest
  · by_cases hid : x = id
    · rw [hid, Strand.recut_self]
    · rw [Strand.recut_of_mem new hid hx, h.lead x ((List.mem_cons.mp hx).resolve_left hid)]
      rfl
  · rw [Strand.recut_of_notMem new hx]

/-- What stands around the original tokens is not cut out. -/
theorem added (h : Recut doc₀ doc doc' strand id rest new run) (hw : Woven doc₀ doc strand weft)
    (h₀ : Loaded doc₀) {t x : TokenId} (ht : t ∈ doc₀.tokens.ids)
    (hx : x ∈ (strand t).lead ++ (strand t).trail) : x ∉ id :: rest := by
  intro hin
  have hge := hw.laid.added t ht x hx
  have hlt := h₀.unedited.mem_ids_iff.mp (h.mem x hin)
  omega

/-- Of what stands for a token that was not cut out nothing is cut out. -/
theorem remains (h : Recut doc₀ doc doc' strand id rest new run) (hw : Woven doc₀ doc strand weft)
    (h₀ : Loaded doc₀) {t x : TokenId} (ht : t ∈ doc₀.tokens.ids) (hcut : t ∉ id :: rest)
    (hx : x ∈ (strand t).ids) : x ∉ id :: rest := by
  intro hin
  have hlt := h₀.unedited.mem_ids_iff.mp (h.mem x hin)
  exact hcut ((hw.laid.eq_of_mem ht hlt hx).1 ▸ hin)

/-- Each strand reads as it is said to once the run is in. -/
theorem reads (h : Recut doc₀ doc doc' strand id rest new run) (hw : Woven doc₀ doc strand weft)
    (h₀ : Loaded doc₀) (hspells : doc.tokens.spells new = spelling) {t : TokenId}
    (ht : t ∈ doc₀.tokens.ids) : (Strand.recut strand (id :: rest) id new t).Reads doc'.tokens t
      (Weft.recut weft id rest spelling t) := by
  have hreads := hw.reads t ht
  by_cases hcut : t ∈ id :: rest
  · have htrail : (weft t).trail = [] := by
      rw [← hreads.trail, h.trail t hcut]
      rfl
    unfold Strand.recut Weft.recut
    -- the first token of the cut carries the new words, the others nothing
    by_cases hid : t = id
    · subst hid
      rw [if_pos rfl, if_pos rfl]
      refine ⟨?_, by simp, ?_, htrail.symm⟩
      · rw [← hreads.lead]
        exact TokenList.spells_congr fun x hx =>
          h.face x (h.added hw h₀ ht (List.mem_append_left _ hx))
      · rintro _ ⟨⟩
        refine ⟨h.fresh t hcut, ?_⟩
        rw [← hspells]
        exact TokenList.spells_congr fun x hx => h.face x fun hin => h.fresh x hin hx
    · have hin := (List.mem_cons.mp hcut).resolve_left hid
      have hlead : (weft t).lead = [] := by
        rw [← hreads.lead, h.lead t hin]
        rfl
      rw [if_neg hid, if_pos hcut, if_neg hid, if_pos hin]
      refine ⟨hlead.symm, by simp, ?_, htrail.symm⟩
      rintro _ ⟨⟩
      exact ⟨by simp [Strand.empty], rfl⟩
  · rw [Strand.recut_of_notMem new hcut, Weft.recut_of_notMem hcut]
    exact hreads.congr fun x hx => h.face x (h.remains hw h₀ ht hcut hx)

/-- A node begins and ends where it did unless its ends were replaced. -/
theorem range_ends (h : Recut doc₀ doc doc' strand id rest new run)
    (hw : Woven doc₀ doc strand weft) {node : NodeId} {range₀ : TokenRange}
    (hnode : doc₀.Plain node) (hrange₀ : doc₀.tree.tokens? node = some range₀) :
    ∃ range, doc'.tree.tokens? node = some range
      ∧ ((Weft.recut weft id rest spelling range₀.first).core? = none →
        range.first = range₀.first)
      ∧ ((Weft.recut weft id rest spelling range₀.last).core? = none →
        range.last = range₀.last) := by
  obtain ⟨range, hrange, hfirst, hlast⟩ := hw.ends node range₀ hnode hrange₀
  refine ⟨_, h.range node range hrange, fun hnone => ?_, fun hnone => ?_⟩
  · obtain ⟨hnot, hweft⟩ := Weft.recut_none hnone
    have hsame := hfirst (hweft ▸ hnone)
    rw [← hsame] at hnot
    rw [if_neg hnot]
    exact hsame
  · obtain ⟨hnot, hweft⟩ := Weft.recut_none hnone
    have hsame := hlast (hweft ▸ hnone)
    rw [← hsame] at hnot
    rw [if_neg hnot]
    exact hsame

/-- An end of what stands for a token, the first or the last as `pick` says, after the cut. -/
theorem seat (h : Recut doc₀ doc doc' strand id rest new run) (hw : Woven doc₀ doc strand weft)
    (h₀ : Loaded doc₀) {a b : List TokenId} (hfile : doc₀.tokens.ids = a ++ (id :: rest) ++ b)
    (hself : ∀ x ∈ id :: rest, (weft x).core? = none) {pick : List TokenId → Option TokenId}
    (hone : ∀ y, pick [y] = some y) (hpick : ∀ {l y}, pick l = some y → y ∈ l) {stop : TokenId}
    (hstop : pick new = some stop) {x y t : TokenId} (hx : x ∈ doc₀.tokens.ids)
    (ht : Weft.Seat weft doc₀.tokens.ids x t) (hy : pick (strand t).core = some y) :
    ∃ t', Weft.Seat (Weft.recut weft id rest spelling) doc₀.tokens.ids x t'
      ∧ pick (Strand.recut strand (id :: rest) id new t').core
        = some (if y ∈ id :: rest then stop else y) := by
  obtain ⟨t', hseat, ⟨hcut, rfl⟩ | ⟨hcut, rfl⟩⟩ := ht.recut spelling hfile h₀.threaded.nodup hself
  · refine ⟨t', hseat, ?_⟩
    rw [h.core t hcut, hone] at hy
    rw [← Option.some.inj hy, if_pos hcut, Strand.recut_self]
    exact hstop
  · have hin : y ∈ (strand t').ids := by simp [Strand.ids, hpick hy]
    refine ⟨t', hseat, ?_⟩
    rw [if_neg (h.remains hw h₀ (ht.mem hx) hcut hin), Strand.recut_of_notMem new hcut]
    exact hy

/-- A node whose end was replaced begins or ends with the new run. -/
theorem seats (h : Recut doc₀ doc doc' strand id rest new run) (hw : Woven doc₀ doc strand weft)
    (h₀ : Loaded doc₀) {a b : List TokenId} (hfile : doc₀.tokens.ids = a ++ (id :: rest) ++ b)
    (hself : ∀ x ∈ id :: rest, (weft x).core? = none) {node : NodeId} {range₀ : TokenRange}
    (hnode : doc₀.Plain node) (hrange₀ : doc₀.tree.tokens? node = some range₀) :
    ∃ range, doc'.tree.tokens? node = some range
      ∧ (∃ t, Weft.Seat (Weft.recut weft id rest spelling) doc₀.tokens.ids range₀.first t
        ∧ (Strand.recut strand (id :: rest) id new t).core.head? = some range.first)
      ∧ ∃ t, Weft.Seat (Weft.recut weft id rest spelling) doc₀.tokens.ids range₀.last t
        ∧ (Strand.recut strand (id :: rest) id new t).core.getLast? = some range.last := by
  obtain ⟨range, hrange, ⟨t, ht, hfirst⟩, u, hu, hlast⟩ := hw.seats node range₀ hnode hrange₀
  obtain ⟨_, hsame, ⟨hmemfirst, -⟩, hmemlast, -⟩ := h₀.range hnode.below hnode.ne_root
  rw [hrange₀] at hsame
  obtain rfl := Option.some.inj hsame
  refine ⟨_, h.range node range hrange, ?_, ?_⟩
  · exact h.seat hw h₀ hfile hself (fun _ => List.head?_singleton) List.mem_of_head? h.ends.1
      hmemfirst ht hfirst
  · exact h.seat hw h₀ hfile hself (fun _ => List.getLast?_singleton) List.mem_of_getLast?
      h.ends.2 hmemlast hu hlast

/-- The bindings of functions stay where they were put. -/
theorem bound (h : Recut doc₀ doc doc' strand id rest new run) (hw : Woven doc₀ doc strand weft)
    (h₀ : Loaded doc₀) (hb : Bound doc₀ doc strand bindings) :
    Bound doc₀ doc' (Strand.recut strand (id :: rest) id new) bindings where
  missing := by
    intro function body t hlookup hbody hstarts
    rw [h.trail_eq]
    exact hb.missing function body t hlookup hbody hstarts
  last := by
    intro function node hlookup
    obtain ⟨hnew, body, t, range, hbody, hstarts, hup, hrange, hlast⟩ :=
      hb.last function node hlookup
    have hplain := h₀.plain_body hbody
    have ht := (h₀.starts hplain.below hplain.ne_root hstarts).1
    have hnot := h.added hw h₀ ht (List.mem_append_right _ (List.mem_of_getLast? hlast))
    refine ⟨hnew, body, t, _, hbody, hstarts, (h.parent node).trans hup, h.range node range hrange,
      ?_⟩
    rw [h.trail_eq, if_neg hnot]
    exact hlast
  closed := by
    intro t ht x hx
    rw [h.trail_eq] at hx
    have hnot := h.added hw h₀ ht (List.mem_append_right _ (List.mem_of_getLast? hx))
    rw [TokenList.kind?_congr (h.face x hnot)]
    exact hb.closed t ht x hx

/-- The runs that were put in stay where they were put. -/
theorem labelled (h : Recut doc₀ doc doc' strand id rest new run)
    (hw : Woven doc₀ doc strand weft) (h₀ : Loaded doc₀) (hl : Labelled doc₀ doc strand labels) :
    Labelled doc₀ doc' (Strand.recut strand (id :: rest) id new) labels := by
  refine hl.congr h.size h.kind h.parent ?_ (fun t _ => ⟨h.lead_eq t, h.trail_eq t⟩)
    fun t ht x hx => h.face x (h.added hw h₀ ht hx)
  intro x range hrange t ht hfirst hlast
  rw [h.range x range hrange, if_neg (h.added hw h₀ ht hfirst), if_neg (h.added hw h₀ ht hlast)]

/-- **What is woven in** after the run took the place of the original tokens. -/
theorem woven (h : Recut doc₀ doc doc' strand id rest new run) (hw : Woven doc₀ doc strand weft)
    (h₀ : Loaded doc₀) {a b : List TokenId} (hfile : doc₀.tokens.ids = a ++ (id :: rest) ++ b)
    (hself : ∀ x ∈ id :: rest, (weft x).core? = none) (hspells : doc.tokens.spells new = spelling)
    (hconfig : doc'.config = doc.config) (hnewline : doc'.newline = doc.newline)
    (hlaid : Laid doc₀.tokens doc'.tokens (Strand.recut strand (id :: rest) id new))
    (hgrown : doc₀.tree.Overgrown doc'.tree) :
    Woven doc₀ doc' (Strand.recut strand (id :: rest) id new)
      (Weft.recut weft id rest spelling) where
  config := hconfig.trans hw.config
  newline := hnewline.trans hw.newline
  laid := hlaid
  grown := hgrown
  reads := fun t ht => h.reads hw h₀ hspells ht
  ends := fun node range₀ hnode hrange₀ => h.range_ends hw hnode hrange₀
  seats := fun node range₀ hnode hrange₀ => h.seats hw h₀ hfile hself hnode hrange₀
  led := by
    intro t ht hne
    rw [h.lead_eq] at hne
    exact hw.led t ht hne
  trailed := by
    intro t ht hne
    rw [h.trail_eq] at hne
    exact hw.trailed t ht hne
  bearers := by
    intro node parent hnew hup
    rw [h.parent] at hup
    exact hw.bearers node parent hnew hup

end Woven.Recut

namespace Fabric

variable {doc₀ doc : Document} {weft : TokenId → Weft} {bindings : List (NodeId × NodeId)}
  {labels : List Spelling} {id : TokenId} {run : TokenRange} {pieces : List Piece}

/-- **Nothing is put in place of original tokens** the first of which is gone. -/
theorem replace_missing (h : Fabric doc₀ doc weft bindings labels) (h₀ : Loaded doc₀)
    {old : TokenRange} (hold : old.first ∈ doc₀.tokens.ids)
    (hgone : (weft old.first).core? ≠ none) (new? : Option TokenRange) :
    Edit.replaceTokens old new? doc = .error (.ofSplice (.missing old.first)) doc := by
  obtain ⟨strand, h, -⟩ := h
  have hreads := h.reads old.first hold
  have hnot : old.first ∉ lay strand doc₀.tokens.ids := by
    rw [h.laid.mem_iff h₀.unedited hold]
    exact fun hcore => hgone (hreads.core?_eq_none hcore)
  have hget : doc.tokens.get? old.first = none := by
    by_contra hne
    obtain ⟨token, htoken⟩ := Option.ne_none_iff_exists'.mp hne
    -- a linked token would be in the file, and the detached ones are newer than the source's
    cases hlinked : token.linked with
    | true =>
      refine hnot ((h.laid.threaded.linked_iff _).mp ?_)
      unfold TokenList.isLinked
      rw [htoken]
      exact hlinked
    | false =>
      have hge := h.laid.detached _ ⟨token, htoken, hlinked⟩
      have hlt := h₀.unedited.mem_ids_iff.mp hold
      omega
  have hwalk : doc.tokens.walk old true = .error (.missing old.first) := by
    unfold TokenList.walk TokenList.walkBound TokenList.walkFrom
    rw [hget]
  rw [Edit.replaceTokens_eq]
  unfold TokenList.replace
  rw [hwalk]
  rfl

/-- **A run in place of original tokens** that stand for themselves, where no construct begins
    behind the first of them and no body at any. -/
theorem replace (h : Fabric doc₀ doc weft bindings labels)
    (h₀ : Loaded doc₀) {old : TokenRange} {a rest b : List TokenId}
    (hfile : doc₀.tokens.ids = a ++ (id :: rest) ++ b) (hold : old.Ends (id :: rest))
    (hself : ∀ x ∈ id :: rest, (weft x).core? = none)
    (hscope : ∀ x ∈ rest, ∀ construct, doc₀.AtScope construct → ¬ doc₀.Starts construct x)
    (hbody : ∀ x ∈ id :: rest, ∀ function body, doc₀.IsBody function body →
      ¬ doc₀.Starts body x)
    (hready : Ready doc run pieces) :
    ∃ doc', Edit.replaceTokens old (some run) doc = .ok () doc'
      ∧ Fabric doc₀ doc' (Weft.recut weft id rest (Weave.spelled doc₀ pieces)) bindings
          labels := by
  obtain ⟨strand, h, hb, hl⟩ := h
  have hmem : ∀ x ∈ id :: rest, x ∈ doc₀.tokens.ids := by
    intro x hx
    rw [hfile]
    exact List.mem_append_left _ (List.mem_append_right _ hx)
  have hcore : ∀ x ∈ id :: rest, (strand x).core = [x] := fun x hx =>
    (h.reads x (hmem x hx)).self (hself x hx)
  have htrail : ∀ x ∈ id :: rest, (strand x).trail = [] := by
    intro x hx
    by_contra hne
    obtain ⟨function, body, hb', hs⟩ := h.trailed x (hmem x hx) hne
    exact hbody x hx function body hb' hs
  have hlead : ∀ x ∈ rest, (strand x).lead = [] := by
    intro x hx
    by_contra hne
    obtain ⟨construct, hc, hs⟩ := h.led x (hmem x (List.mem_cons_of_mem _ hx)) hne
    exact hscope x hx construct hc hs
  have hlay : lay strand doc₀.tokens.ids
      = (lay strand a ++ (strand id).lead) ++ (id :: rest) ++ lay strand b := by
    rw [hfile, Strand.lay_append, Strand.lay_append, Strand.lay_cut hcore htrail hlead]
    simp
  have hrun : doc.tokens.IsLinkedRun old (id :: rest) :=
    (hlay ▸ h.laid.threaded).walk_eq hold.1 hold.2
  have hdetached : ∀ r, some run = some r → doc.tokens.IsDetachedRun r := fun r hr =>
    Option.some.inj hr ▸ hready.isDetachedRun
  obtain ⟨splice, tokens, hreplace, -⟩ := TokenList.replace_of_walk hrun hdetached
  refine ⟨{ doc with tokens, tree := doc.tree.remap splice }, ?_, ?_⟩
  · rw [Edit.replaceTokens_eq, hreplace]
  obtain ⟨new, hwalk, hremoved, hinserted, hlaid, hface⟩ :=
    h.laid.replace h₀.unedited hfile hold hcore htrail hlead hreplace
  obtain ⟨hspells, -, -⟩ := hready.walk_eq hwalk
  have hne : splice.removed ≠ [] := by
    rw [hremoved]
    simp
  obtain ⟨hgrown, hparent, htokens, hsize⟩ := h.grown.remap hne hinserted
  -- what is new was never an original token
  have hnewfresh : ∀ x ∈ id :: rest, x ∉ new := by
    intro x hx hin
    have hdetached := (TokenList.walk_detached h.laid.loose hwalk).2.2.1 x hin
    have hge := h.laid.detached x hdetached
    have hlt := h₀.unedited.mem_ids_iff.mp (hmem x hx)
    omega
  have hends : run.Ends new :=
    ⟨(TokenList.walkFrom_ok hwalk).1, (TokenList.walkFrom_ok hwalk).2.1⟩
  have hrecut : Woven.Recut doc₀ doc { doc with tokens, tree := doc.tree.remap splice } strand id
      rest new run := by
    refine ⟨hmem, hcore, htrail, hlead, hnewfresh, hends, hface, hparent,
      (NodeTree.Forest.remap_all h.grown.forest hne hinserted).2.1, fun x range hrange => ?_,
      hsize⟩
    show (doc.tree.remap splice).tokens? x = _
    rw [htokens, hrange, Option.bind_some, NodeTree.moved?_isSome hinserted, hremoved]
    simp only [List.contains_iff_mem]
  exact ⟨_, hrecut.woven h h₀ hfile hself (hspells.trans (h.spelled_eq pieces)) rfl rfl hlaid
    hgrown, hrecut.bound h h₀ hb, hrecut.labelled h h₀ hl⟩

end Fabric

end KernelPrep
