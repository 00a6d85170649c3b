/-
  KernelPrep.Proofs.Outline.Cover — skeletons over the leaves they were read from.

  A skeleton covers a list of leaves when its range runs from the first of them through
  the last, and its children cover stretches of the list, one after the other, inside of
  what the node itself begins and ends with.

  Main definitions:
    * `Skeleton.Covers`, `Skeleton.FitIn` — a skeleton, or several in a row, over leaves;
    * `Outline.Consumed` — what a reading has taken from its feed.

  Main statements:
    * `Skeleton.FitIn.append` — rows of skeletons side by side;
    * `Outline.skipGroup_ok`, `Outline.expect_ok`, … — what each reading takes.
-/
import Mathlib.Data.List.Basic
import KernelPrep.Outline.Parse
import KernelPrep.Proofs.Step

namespace KernelPrep

/-! ## §1. Skeletons over leaves -/

/-- The range runs from the first of the leaves through the last. -/
def TokenRange.Bounds (range : TokenRange) (leaves : List Leaf) : Prop :=
  leaves.head?.map (·.id) = some range.first ∧ leaves.getLast?.map (·.id) = some range.last

/-- A range runs over leaves. -/
theorem TokenRange.Bounds.ne_nil {range : TokenRange} {leaves : List Leaf}
    (h : range.Bounds leaves) : leaves ≠ [] := by
  rintro rfl
  simp [TokenRange.Bounds] at h

/-- Constructs that stand only at file scope: in the file itself or in a linkage block. -/
def NodeKind.isScoped : NodeKind → Bool
  | .linkageBlock | .functionDefn | .functionDecl => true
  | _ => false

namespace Skeleton

mutual

/-- The skeleton runs over exactly these leaves.  It stands for a construct of the file.  All
    but statements begin with a leaf of their own, and blocks also end with one; a function
    with a body has its parameter list before the body. -/
def Covers : Skeleton → List Leaf → Prop
  | .node kind range children, leaves =>
    range.Bounds leaves ∧ kind ≠ .userTokens ∧
      (kind ≠ .linkageBlock → ∀ child ∈ children, child.kind.isScoped = false) ∧
      (kind = .functionDefn → children.map (·.kind) = [.functionParams, .statementBlock]) ∧
      ∃ lead inner trail, leaves = lead ++ inner ++ trail ∧ FitIn children inner ∧
        (kind ≠ .statement → lead ≠ []) ∧ (kind = .statementBlock → trail ≠ [])

/-- The skeletons run over stretches of the leaves, in order. -/
def FitIn : List Skeleton → List Leaf → Prop
  | [], _ => True
  | s :: rest, leaves =>
    ∃ gap own tail, leaves = gap ++ own ++ tail ∧ Covers s own ∧ FitIn rest tail

end

/-- No skeletons fit in any leaves. -/
theorem fitIn_nil (leaves : List Leaf) : FitIn [] leaves := by
  unfold FitIn
  trivial

/-- A skeleton's range runs from the first of its leaves through the last. -/
theorem Covers.bounds {s : Skeleton} {leaves : List Leaf} (h : s.Covers leaves) :
    s.range.Bounds leaves := by
  cases s with
  | node kind range children =>
    unfold Covers at h
    exact h.1

/-- What was read from the file was not put in by a pass. -/
theorem Covers.kind_ne {s : Skeleton} {leaves : List Leaf} (h : s.Covers leaves) :
    s.kind ≠ .userTokens := by
  cases s with
  | node kind range children =>
    unfold Covers at h
    exact h.2.1

/-- A skeleton has leaves. -/
theorem Covers.ne_nil {s : Skeleton} {leaves : List Leaf} (h : s.Covers leaves) :
    leaves ≠ [] := h.bounds.ne_nil

/-- What fits in some leaves fits in them with others before them. -/
theorem FitIn.prepend {ss : List Skeleton} {leaves : List Leaf} (h : FitIn ss leaves)
    (gap : List Leaf) : FitIn ss (gap ++ leaves) := by
  cases ss with
  | nil => exact fitIn_nil _
  | cons s rest =>
    unfold FitIn at h ⊢
    obtain ⟨gap', own, tail, rfl, hs, hrest⟩ := h
    exact ⟨gap ++ gap', own, tail, by simp, hs, hrest⟩

/-- Rows of skeletons side by side. -/
theorem FitIn.append {ss ss' : List Skeleton} {leaves leaves' : List Leaf}
    (h : FitIn ss leaves) (h' : FitIn ss' leaves') : FitIn (ss ++ ss') (leaves ++ leaves') := by
  induction ss generalizing leaves with
  | nil => exact h'.prepend leaves
  | cons s rest ih =>
    rw [List.cons_append]
    unfold FitIn at h ⊢
    obtain ⟨gap, own, tail, rfl, hs, hrest⟩ := h
    exact ⟨gap, own, tail ++ leaves', by simp, hs, ih hrest⟩

/-- What fits in some leaves fits in them with others behind them. -/
theorem FitIn.extend {ss : List Skeleton} {leaves : List Leaf} (h : FitIn ss leaves)
    (more : List Leaf) : FitIn ss (leaves ++ more) := by
  have happ := h.append (fitIn_nil more)
  rwa [List.append_nil] at happ

/-- A skeleton fits in its leaves. -/
theorem Covers.fitIn {s : Skeleton} {leaves : List Leaf} (h : s.Covers leaves) :
    FitIn [s] leaves := by
  unfold FitIn
  exact ⟨[], leaves, [], by simp, h, fitIn_nil _⟩

/-- One skeleton before others. -/
theorem FitIn.cons {s : Skeleton} {rest : List Skeleton} {own tail : List Leaf}
    (h : s.Covers own) (hrest : FitIn rest tail) : FitIn (s :: rest) (own ++ tail) :=
  h.fitIn.append hrest

/-- A node without children covers what it spans. -/
theorem covers_leaf {kind : NodeKind} {range : TokenRange} {leaves : List Leaf}
    (h : range.Bounds leaves) (hkind : kind ≠ .statementBlock) (hkind' : kind ≠ .functionDefn)
    (hread : kind ≠ .userTokens) : (Skeleton.leaf kind range).Covers leaves := by
  unfold Skeleton.leaf Covers
  exact ⟨h, hread, by simp, fun he => absurd he hkind', leaves, [], [], by simp, fitIn_nil _,
    fun _ => h.ne_nil, fun he => absurd he hkind⟩

end Skeleton

theorem TokenRange.bounds_single (leaf : Leaf) :
    (TokenRange.single leaf.id).Bounds [leaf] := ⟨rfl, rfl⟩

namespace Outline

/-! ## §2. What a reading takes -/

/-- The reading took `leaves` from the feed and began `nodes` nodes. -/
structure Consumed (feed feed' : Feed) (leaves : List Leaf) (nodes : Nat) : Prop where
  rest : feed.rest = leaves ++ feed'.rest
  last : feed'.last? = leaves.getLast?.or feed.last?
  opened : feed'.opened = feed.opened + nodes

namespace Consumed

variable {feed feed₁ feed₂ : Feed} {leaves leaves' : List Leaf} {n n' : Nat}

/-- Nothing was read. -/
theorem refl (feed : Feed) : Consumed feed feed [] 0 := ⟨rfl, rfl, rfl⟩

/-- One reading after the other. -/
theorem trans (h : Consumed feed feed₁ leaves n) (h' : Consumed feed₁ feed₂ leaves' n') :
    Consumed feed feed₂ (leaves ++ leaves') (n + n') := by
  refine ⟨?_, ?_, ?_⟩
  · rw [h.rest, h'.rest, List.append_assoc]
  · rw [h'.last, h.last, List.getLast?_append, Option.or_assoc]
  · rw [h'.opened, h.opened, Nat.add_assoc]

theorem congr (h : Consumed feed feed₁ leaves n) (hl : leaves = leaves') (hn : n = n') :
    Consumed feed feed₁ leaves' n' := hl ▸ hn ▸ h

/-- The range from the first leaf taken through the last. -/
theorem bounds {first : Leaf} (h : Consumed feed feed₁ (first :: leaves) n) :
    TokenRange.Bounds ⟨first.id, (feed₁.last?.getD first).id⟩ (first :: leaves) := by
  refine ⟨rfl, ?_⟩
  have hlast := h.last
  rw [List.getLast?_eq_some_getLast (List.cons_ne_nil first leaves), Option.some_or] at hlast
  rw [hlast, List.getLast?_eq_some_getLast (List.cons_ne_nil first leaves)]
  rfl

end Consumed

/-- An error is no result. -/
theorem failHere_ne_ok {α : Type} {fault : ParseFault} {feed feed' : Feed} {a : α} :
    failHere fault feed ≠ .ok a feed' := by
  unfold failHere
  simp

/-- An error at the end is no result. -/
theorem failAtEnd_ne_ok {α : Type} {expected : TokenKind} {feed feed' : Feed} {a : α} :
    failAtEnd expected feed ≠ .ok a feed' := by
  unfold failAtEnd
  simp

/-- Looking at the next kind leaves the feed as it is. -/
theorem peekKind?_ok {feed feed' : Feed} {kind? : Option TokenKind} :
    peekKind? feed = .ok kind? feed' ↔ kind? = feed.kindAt? 0 ∧ feed' = feed := by
  unfold peekKind?
  rw [EStateM.Result.ok.injEq]
  exact ⟨fun h => ⟨h.1.symm, h.2.symm⟩, fun h => ⟨h.1.symm, h.2.symm⟩⟩

/-- A range ends with the last leaf read. -/
theorem rangeFrom_ok {first : Leaf} {feed feed' : Feed} {range : TokenRange} :
    rangeFrom first feed = .ok range feed'
      ↔ range = ⟨first.id, (feed.last?.getD first).id⟩ ∧ feed' = feed := by
  unfold rangeFrom
  rw [EStateM.Result.ok.injEq]
  exact ⟨fun h => ⟨h.1.symm, h.2.symm⟩, fun h => ⟨h.1.symm, h.2.symm⟩⟩

/-- The first leaf is the one ahead. -/
theorem firstLeaf_ok {expected : TokenKind} {feed feed' : Feed} {leaf : Leaf}
    (h : firstLeaf expected feed = .ok leaf feed') :
    feed' = feed ∧ ∃ rest, feed.rest = leaf :: rest := by
  unfold firstLeaf at h
  split at h
  · exact absurd h failAtEnd_ne_ok
  · rename_i leaf' rest hrest
    obtain ⟨rfl, rfl⟩ := EStateM.Result.ok.inj h
    exact ⟨rfl, rest, hrest⟩

/-- One leaf is consumed. -/
theorem consumed_bump {feed : Feed} {leaf : Leaf} {rest : List Leaf}
    (h : feed.rest = leaf :: rest) : Consumed feed feed.bump [leaf] 0 := by
  unfold Feed.bump
  rw [h]
  exact ⟨h, rfl, rfl⟩

/-- Taking a leaf consumes it. -/
theorem bump_ok {feed feed' : Feed} {u : Unit} {leaf : Leaf} {rest : List Leaf}
    (h : bump feed = .ok u feed') (hrest : feed.rest = leaf :: rest) :
    Consumed feed feed' [leaf] 0 := by
  rw [Step.modify_ok.mp h]
  exact consumed_bump hrest

/-- Opening a node consumes nothing and begins one node. -/
theorem openNode_ok {feed feed' : Feed} {u : Unit} (h : openNode feed = .ok u feed') :
    Consumed feed feed' [] 1 := by
  rw [Step.modify_ok.mp h]
  exact ⟨rfl, rfl, rfl⟩

/-- An expected leaf is of its kind and is consumed. -/
theorem expect_ok {expected : TokenKind} {feed feed' : Feed} {leaf : Leaf}
    (h : expect expected feed = .ok leaf feed') :
    leaf.kind = expected ∧ Consumed feed feed' [leaf] 0 := by
  unfold expect at h
  split at h
  · exact absurd h failAtEnd_ne_ok
  · rename_i leaf' rest hrest
    split at h
    · rename_i hkind
      obtain ⟨rfl, rfl⟩ := EStateM.Result.ok.inj h
      exact ⟨hkind, consumed_bump hrest⟩
    · exact absurd h failHere_ne_ok

/-- The leaves in front that pass a test are consumed. -/
theorem consumed_bumpWhile (feed : Feed) (p : Leaf → Bool) :
    Consumed feed (feed.bumpWhile p) (feed.rest.takeWhile p) 0 :=
  ⟨(List.takeWhile_append_dropWhile).symm, rfl, rfl⟩

/-- Closing a group consumes leaves. -/
theorem groupFrom_ok {opened : Nat} {pending : List TokenKind} {last? : Option Leaf}
    {rest : List Leaf} {feed' : Feed} {u : Unit}
    (h : groupFrom opened pending last? rest = .ok u feed') :
    ∃ leaves, leaves ≠ [] ∧ Consumed { rest, last?, opened } feed' leaves 0 := by
  induction rest generalizing pending last? with
  | nil =>
    unfold groupFrom at h
    exact absurd h failAtEnd_ne_ok
  | cons leaf rest ih =>
    unfold groupFrom at h
    split at h
    · simp at h
    · obtain ⟨-, rfl⟩ := EStateM.Result.ok.inj h
      exact ⟨[leaf], List.cons_ne_nil _ _, rfl, rfl, rfl⟩
    · obtain ⟨leaves, -, hc⟩ := ih h
      have hone : Consumed { rest := leaf :: rest, last?, opened }
          { rest, last? := some leaf, opened } [leaf] 0 := ⟨rfl, rfl, rfl⟩
      exact ⟨[leaf] ++ leaves, by simp, hone.trans hc⟩

/-- Skipping a group consumes leaves. -/
theorem skipGroup_ok {feed feed' : Feed} {u : Unit} (h : skipGroup feed = .ok u feed') :
    ∃ leaves, leaves ≠ [] ∧ Consumed feed feed' leaves 0 := groupFrom_ok h

end Outline

end KernelPrep
