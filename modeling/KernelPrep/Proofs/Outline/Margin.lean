/-
  KernelPrep.Proofs.Outline.Margin — leaves by the tokens around them.

  Tokens are made into leaves from left to right, and all that is known between two of them is
  whether a line end to come is escaped and whether one has counted.  So the leaves of tokens
  that are put together are those of each part, each read from the margin that the parts before
  it have left; and with fewer line ends escaped before them, no fewer leaves start a line.

  Main definitions:
    * `Margin`         — what is known between two tokens;
    * `Margin.behind`  — the margin behind some tokens;
    * `Margin.leaves`  — the leaves of tokens behind a margin;
    * `Margin.Under`   — a line starts wherever it does behind the other margin.

  Main statements:
    * `Margin.leaves_append`, `Margin.leaves_flatMap` — tokens put together;
    * `Margin.faces_leaves` — leaves do not depend on handles;
    * `Margin.Under.step`   — one token behind two margins.
-/
import KernelPrep.Proofs.Outline.Leaves
import KernelPrep.Proofs.Token.Spelling

namespace KernelPrep

/-! ## §1. Between two tokens -/

/-- What is known between two tokens: whether the nearest token before that is not a blank is a
    backslash, and whether a line end has counted since the last leaf. -/
@[ext]
structure Margin where
  escaped : Bool
  broken : Bool
deriving DecidableEq

namespace Margin

/-- The margin at the start of a file, and behind every leaf that is no backslash. -/
def start : Margin := ⟨false, false⟩

/-- The margin behind a line that has ended. -/
def newLine : Margin := ⟨false, true⟩

/-- The margin behind a token of the kind. -/
def step (m : Margin) : TokenKind → Margin
  | .whitespace => m
  | .eol => ⟨false, m.broken || !m.escaped⟩
  | .comment => ⟨false, m.broken⟩
  | kind => ⟨kind == .backslash, false⟩

/-- The margin behind some tokens. -/
def behind (m : Margin) (tokens : Spelling) : Margin :=
  tokens.foldl (fun m entry => m.step entry.1) m

/-- The leaves of tokens behind the margin. -/
def leaves (m : Margin) (entries : List (TokenId × Token)) : List Leaf :=
  Leaf.ofTokensFrom m.escaped m.broken entries

@[simp] theorem behind_nil (m : Margin) : m.behind [] = m := rfl

@[simp] theorem behind_cons (m : Margin) (entry : TokenKind × String) (tokens : Spelling) :
    m.behind (entry :: tokens) = (m.step entry.1).behind tokens := rfl

/-- The margin behind some tokens and others. -/
theorem behind_append (m : Margin) (tokens more : Spelling) :
    m.behind (tokens ++ more) = (m.behind tokens).behind more := List.foldl_append

@[simp] theorem leaves_nil (m : Margin) : m.leaves [] = [] := rfl

/-- Behind a leaf nothing is left of the margin before it. -/
theorem step_of_leaf {kind : TokenKind} (h : kind.isTrivia = false) (m : Margin) :
    m.step kind = ⟨kind == .backslash, false⟩ := by
  cases kind <;> first | rfl | exact Bool.noConfusion h

/-- The first token is a leaf, or it is passed over. -/
theorem leaves_cons (m : Margin) (id : TokenId) (token : Token)
    (rest : List (TokenId × Token)) :
    m.leaves ((id, token) :: rest)
      = (if token.kind.isTrivia then []
          else [⟨id, token.kind, token.text, token.line, m.broken⟩])
        ++ (m.step token.kind).leaves rest := by
  unfold leaves
  conv_lhs => unfold Leaf.ofTokensFrom
  cases hk : token.kind <;> rfl

end Margin

/-- The tokens by kind and text. -/
def Token.faces (entries : List (TokenId × Token)) : Spelling :=
  entries.map fun entry => (entry.2.kind, entry.2.text)

/-- The faces of some tokens and others. -/
theorem Token.faces_append (entries more : List (TokenId × Token)) :
    Token.faces (entries ++ more) = Token.faces entries ++ Token.faces more := List.map_append

/-! ## §2. Tokens put together -/

namespace Margin

variable {m m' : Margin}

/-- **Tokens behind tokens** are read from the margin that those have left. -/
theorem leaves_append (m : Margin) (entries more : List (TokenId × Token)) :
    m.leaves (entries ++ more)
      = m.leaves entries ++ (m.behind (Token.faces entries)).leaves more := by
  induction entries generalizing m with
  | nil => rfl
  | cons entry entries ih =>
    obtain ⟨id, token⟩ := entry
    rw [List.cons_append, leaves_cons, leaves_cons, ih, List.append_assoc]
    rfl

/-- **The leaves of parts** are those of each part, read from the margin behind the parts before
    it. -/
theorem leaves_flatMap {α : Type} [DecidableEq α] {items : List α} (hnodup : items.Nodup)
    (part : α → List (TokenId × Token)) (m : Margin) :
    m.leaves (items.flatMap part) = items.flatMap fun item =>
      (m.behind (Token.faces ((items.takeWhile (· ≠ item)).flatMap part))).leaves (part item) := by
  induction items generalizing m with
  | nil => rfl
  | cons first items ih =>
    obtain ⟨hfirst, hnodup⟩ := List.nodup_cons.mp hnodup
    rw [List.flatMap_cons, leaves_append, ih hnodup, List.flatMap_cons]
    congr 1
    · rw [List.takeWhile_cons_of_neg (by simp)]
      rfl
    · refine List.flatMap_congr fun item hitem => ?_
      have hne : first ≠ item := fun he => hfirst (he ▸ hitem)
      rw [List.takeWhile_cons_of_pos (by simpa using hne), List.flatMap_cons, Token.faces_append,
        behind_append]

/-! ## §3. Leaves without handles -/

/-- A leaf by kind, text and whether it starts a line. -/
abbrev Face := TokenKind × String × Bool

end Margin

/-- The leaf without handle and line. -/
def Leaf.face (leaf : Leaf) : Margin.Face := (leaf.kind, leaf.text, leaf.startsLine)

namespace Margin

variable {m m' : Margin}

/-- The leaves of a spelling behind the margin, without handles. -/
def faces (m : Margin) : Spelling → List Face
  | [] => []
  | (kind, text) :: rest =>
    (if kind.isTrivia then [] else [(kind, text, m.broken)]) ++ (m.step kind).faces rest

/-- **Leaves do not depend on handles.** -/
theorem faces_leaves (m : Margin) (entries : List (TokenId × Token)) :
    (m.leaves entries).map Leaf.face = m.faces (Token.faces entries) := by
  induction entries generalizing m with
  | nil => rfl
  | cons entry entries ih =>
    obtain ⟨id, token⟩ := entry
    rw [leaves_cons, List.map_append, ih]
    unfold Token.faces
    rw [List.map_cons, faces]
    congr 1
    split <;> rfl

/-- The leaves of some tokens and others, the latter from the margin that the former leave. -/
theorem faces_append (m : Margin) (tokens more : Spelling) :
    m.faces (tokens ++ more) = m.faces tokens ++ (m.behind tokens).faces more := by
  induction tokens generalizing m with
  | nil => rfl
  | cons entry tokens ih =>
    obtain ⟨kind, text⟩ := entry
    rw [List.cons_append, faces, faces, ih, List.append_assoc]
    rfl

/-- The leaves of a spelling are tokens of it. -/
theorem mem_faces {tokens : Spelling} {face : Face} (h : face ∈ m.faces tokens) :
    ∃ entry ∈ tokens, face.1 = entry.1 ∧ face.2.1 = entry.2 := by
  induction tokens generalizing m with
  | nil => simp [faces] at h
  | cons entry tokens ih =>
    obtain ⟨kind, text⟩ := entry
    rw [faces, List.mem_append] at h
    rcases h with h | h
    · split at h
      · simp at h
      · rw [List.mem_singleton.mp h]
        exact ⟨_, List.mem_cons_self, rfl, rfl⟩
    · obtain ⟨entry, hentry, hsame⟩ := ih h
      exact ⟨entry, List.mem_cons_of_mem _ hentry, hsame⟩

/-! ## §4. Two margins -/

/-- A line starts behind the second margin wherever one starts behind the first. -/
structure Under (m m' : Margin) : Prop where
  broken : m.broken = true → m'.broken = true
  escaped : m'.escaped = true → m.escaped = true

/-- A margin is under itself. -/
theorem Under.refl (m : Margin) : m.Under m := ⟨id, id⟩

/-- Every margin is under that of a new line. -/
theorem under_newLine (m : Margin) : m.Under newLine := ⟨fun _ => rfl, fun h => Bool.noConfusion h⟩

/-- **One token behind two margins.** -/
theorem Under.step (h : m.Under m') (kind : TokenKind) : (m.step kind).Under (m'.step kind) := by
  cases htrivia : kind.isTrivia with
  | false =>
    rw [step_of_leaf htrivia, step_of_leaf htrivia]
    exact .refl _
  | true =>
    obtain ⟨hbroken, hescaped⟩ := h
    unfold TokenKind.isTrivia at htrivia
    split at htrivia
    · exact ⟨hbroken, hescaped⟩
    · refine ⟨fun hold => ?_, id⟩
      simp only [Margin.step, Bool.or_eq_true, Bool.not_eq_true'] at hold ⊢
      rcases hold with hold | hold
      · exact .inl (hbroken hold)
      · exact .inr (Bool.eq_false_iff.mpr fun he => by simp [hescaped he] at hold)
    · exact ⟨hbroken, id⟩
    · exact Bool.noConfusion htrivia

end Margin

/-! ## §5. Where lines start in a file -/

namespace TokenList

/-- **A leaf of a file** starts a line if the margin before it says so. -/
theorem startsLine_eq {list : TokenList} {file a b : List TokenId} (h : list.Threaded file)
    {leaf : Leaf} (hleaf : leaf ∈ list.leaves) (hfile : file = a ++ leaf.id :: b) :
    leaf.startsLine = (Margin.start.behind (list.spells a)).broken := by
  have hids := h.ids_eq
  obtain ⟨token, htoken, -⟩ := h.get?_of_mem (show leaf.id ∈ file by simp [hfile])
  have hentries : list.entries = (a.filterMap fun id => (list.get? id).map (id, ·))
      ++ (leaf.id, token) :: b.filterMap fun id => (list.get? id).map (id, ·) := by
    unfold entries
    rw [hids, hfile, List.filterMap_append, List.filterMap_cons, htoken]
    rfl
  have hfaces : Token.faces (a.filterMap fun id => (list.get? id).map (id, ·)) = list.spells a := by
    unfold Token.faces spells
    rw [List.map_filterMap]
    refine List.filterMap_congr fun id _ => ?_
    rw [Option.map_map]
    rfl
  have hsig : token.kind.isTrivia = false := by
    have hsig := ((mem_leaves_iff h).mp ⟨leaf, hleaf, rfl⟩).2
    rw [isSignificant_of_get? htoken] at hsig
    simpa using hsig
  -- the leaf made of the token is the only one of its handle
  have hsplit : list.leaves = Margin.start.leaves (a.filterMap fun id => (list.get? id).map (id, ·))
      ++ ⟨leaf.id, token.kind, token.text, token.line,
          (Margin.start.behind (list.spells a)).broken⟩
        :: ((Margin.start.behind (list.spells a)).step token.kind).leaves
          (b.filterMap fun id => (list.get? id).map (id, ·)) := by
    show Margin.start.leaves list.entries = _
    rw [hentries, Margin.leaves_append, hfaces, Margin.leaves_cons, if_neg (by simp [hsig])]
    rfl
  obtain ⟨before, behind, hbefore⟩ := List.append_of_mem hleaf
  have hnodup := leaves_nodup h
  rw [hbefore] at hnodup
  obtain ⟨-, he⟩ := split_unique hnodup (hbefore.symm.trans hsplit) rfl
  exact congrArg Leaf.startsLine he

end TokenList

end KernelPrep
