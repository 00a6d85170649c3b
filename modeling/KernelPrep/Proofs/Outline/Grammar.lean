/-
  KernelPrep.Proofs.Outline.Grammar — which leaves have an outline.

  The readers of constructs call each other with a bound on the depth of calls and hand on
  what is ahead.  Their grammar is said here without either: a branch is a skeleton with
  its leaves on, and a relation tells which branches the leaves of a construct make, by the
  construct and by the leaves behind it.

  Main definitions:
    * `Branch`           — a skeleton with its leaves on;
    * `Outline.Leads`, `Outline.Quals`, `Outline.Prototype` — the head of a function;
    * `Outline.Declarators` — the names behind the body of a struct;
    * `Outline.Reads`    — the grammar.

  Main statements:
    * `Outline.classify_inv`, `Outline.Prototype.classify_eq` — functions by their heads.
-/
import KernelPrep.Proofs.Outline.Nesting
import KernelPrep.Proofs.Outline.Reading

namespace KernelPrep

/-! ## §1. Branches -/

/-- The range from the first of the leaves through the last. -/
def TokenRange.ofLeaves (leaves : List Leaf) : TokenRange :=
  ⟨(leaves.head?.map (·.id)).getD ⟨0⟩, (leaves.getLast?.map (·.id)).getD ⟨0⟩⟩

/-- A range is given by the leaves that it runs over. -/
theorem TokenRange.Bounds.eq_ofLeaves {range : TokenRange} {leaves : List Leaf}
    (h : range.Bounds leaves) : range = .ofLeaves leaves := by
  unfold TokenRange.ofLeaves
  rw [h.1, h.2]
  rfl

/-- A skeleton with its leaves on. -/
inductive Branch where
  | leaf (leaf : Leaf)
  | node (kind : NodeKind) (parts : List Branch)

namespace Branch

mutual

/-- The leaves of a branch, in order. -/
def leaves : Branch → List Leaf
  | .leaf x => [x]
  | .node _ parts => leavesAll parts

/-- The leaves of several branches. -/
def leavesAll : List Branch → List Leaf
  | [] => []
  | branch :: rest => leaves branch ++ leavesAll rest

end

mutual

/-- The branch without its leaves. -/
def skeletons : Branch → List Skeleton
  | .leaf _ => []
  | .node kind parts => [.node kind (.ofLeaves (leavesAll parts)) (skeletonsAll parts)]

/-- The branches without their leaves. -/
def skeletonsAll : List Branch → List Skeleton
  | [] => []
  | branch :: rest => skeletons branch ++ skeletonsAll rest

end

@[simp] theorem leaves_leaf (leaf : Leaf) : (Branch.leaf leaf).leaves = [leaf] := by
  unfold leaves
  rfl

@[simp] theorem leaves_node (kind : NodeKind) (parts : List Branch) :
    (Branch.node kind parts).leaves = leavesAll parts := by
  conv_lhs => unfold leaves

@[simp] theorem leavesAll_nil : leavesAll [] = [] := by
  unfold leavesAll
  rfl

@[simp] theorem leavesAll_cons (branch : Branch) (rest : List Branch) :
    leavesAll (branch :: rest) = branch.leaves ++ leavesAll rest := by
  conv_lhs => unfold leavesAll

@[simp] theorem leavesAll_append (branches rest : List Branch) :
    leavesAll (branches ++ rest) = leavesAll branches ++ leavesAll rest := by
  induction branches with
  | nil => simp
  | cons branch branches ih => simp [ih]

@[simp] theorem leavesAll_map_leaf (leaves : List Leaf) :
    leavesAll (leaves.map .leaf) = leaves := by
  induction leaves with
  | nil => simp
  | cons leaf leaves ih => simp [ih]

@[simp] theorem skeletons_leaf (leaf : Leaf) : (Branch.leaf leaf).skeletons = [] := by
  unfold skeletons
  rfl

@[simp] theorem skeletons_node (kind : NodeKind) (parts : List Branch) :
    (Branch.node kind parts).skeletons
      = [.node kind (.ofLeaves (leavesAll parts)) (skeletonsAll parts)] := by
  conv_lhs => unfold skeletons

@[simp] theorem skeletonsAll_nil : skeletonsAll [] = [] := by
  unfold skeletonsAll
  rfl

@[simp] theorem skeletonsAll_cons (branch : Branch) (rest : List Branch) :
    skeletonsAll (branch :: rest) = branch.skeletons ++ skeletonsAll rest := by
  conv_lhs => unfold skeletonsAll

@[simp] theorem skeletonsAll_append (branches rest : List Branch) :
    skeletonsAll (branches ++ rest) = skeletonsAll branches ++ skeletonsAll rest := by
  induction branches with
  | nil => simp
  | cons branch branches ih => simp [ih]

@[simp] theorem skeletonsAll_map_leaf (leaves : List Leaf) :
    skeletonsAll (leaves.map .leaf) = [] := by
  induction leaves with
  | nil => simp
  | cons leaf leaves ih => simp [ih]

end Branch

open Branch (leavesAll skeletonsAll)

namespace Outline

/-! ## §2. Heads of functions -/

/-- The words and groups from the start of a declaration up to a place where no parameter list
    was met; `before?` is the leaf before them and `last?` the last of them outside of groups. -/
inductive Leads : Option Leaf → List Leaf → Option Leaf → Prop where
  | nil {before? : Option Leaf} : Leads before? [] before?
  | word {before? last? : Option Leaf} {leaf : Leaf} {rest : List Leaf} :
      leaf.kind.isPlain = true → Leads (some leaf) rest last? → Leads before? (leaf :: rest) last?
  | group {before? last? : Option Leaf} {opener closer : Leaf} {inner rest : List Leaf} :
      opener.kind = .lparen ∧ opensParams before? (inner ++ [closer]).head? = false
        ∨ opener.kind = .lbracket →
      Level inner → closer.kind.isCloser = true → Leads (some closer) rest last? →
      Leads before? (opener :: (inner ++ closer :: rest)) last?

/-- The words and groups behind a parameter list. -/
inductive Quals (fits : TokenKind → TokenKind → Prop) : List Leaf → Prop where
  | nil : Quals fits []
  | word {leaf : Leaf} {rest : List Leaf} : leaf.kind = .symbol → Quals fits rest →
      Quals fits (leaf :: rest)
  | group {opener closer : Leaf} {inner rest : List Leaf} :
      opener.kind = .lparen ∨ opener.kind = .lbracket → closer.kind.isCloser = true →
      fits opener.kind closer.kind → Paired fits inner → Quals fits rest →
      Quals fits (opener :: (inner ++ closer :: rest))

/-- The first leaves are those of a function: the name with what precedes it, the parameter list
    in parentheses, and what is behind it. -/
structure Prototype (fits : TokenKind → TokenKind → Prop) (name : List Leaf) (opener : Leaf)
    (inner : List Leaf) (closer : Leaf) (quals : List Leaf) : Prop where
  leads : ∃ before?, Leads none name before?
    ∧ opensParams before? (inner ++ [closer]).head? = true
  paren : opener.kind = .lparen
  closes : closer.kind.isCloser = true
  pair : fits opener.kind closer.kind
  between : Paired fits inner
  behind : Quals fits quals

section Classify

variable {before? : Option Leaf} {params? : Option TokenId} {leaf opener closer term : Leaf}
  {leaves inner rest name quals : List Leaf} {fits : TokenKind → TokenKind → Prop}

/-- Within a group only the depth is kept. -/
theorem classifyFrom_inside (depth : Nat) (before? : Option Leaf) (params? : Option TokenId)
    (leaf : Leaf) (rest : List Leaf) :
    classifyFrom (depth + 1) before? params? (leaf :: rest)
      = if leaf.kind.isOpener then classifyFrom (depth + 2) before? params? rest
        else if leaf.kind.isCloser then
          classifyFrom depth (if depth = 0 then some leaf else before?) params? rest
        else classifyFrom (depth + 1) before? params? rest := by
  conv_lhs => unfold classifyFrom
  rw [if_pos (Nat.succ_pos depth)]
  simp

/-- Level leaves inside of a group are passed over. -/
theorem classifyFrom_level (h : Level leaves) (depth : Nat) (before? : Option Leaf)
    (params? : Option TokenId) (rest : List Leaf) :
    classifyFrom (depth + 1) before? params? (leaves ++ rest)
      = classifyFrom (depth + 1) before? params? rest := by
  induction h generalizing depth before? rest with
  | nil => rfl
  | plain hplain _ ih =>
    rw [List.cons_append, classifyFrom_inside, isOpener_of_plain hplain,
      isCloser_of_plain hplain]
    exact ih depth before? rest
  | @group opener closer inner more ho hc _ _ _ ih ih' =>
    have hno : closer.kind.isOpener = false := by
      cases hopen : closer.kind.isOpener with
      | false => rfl
      | true => exact (not_opener_closer hopen hc).elim
    rw [List.cons_append, List.append_assoc, List.cons_append, classifyFrom_inside, if_pos ho, ih,
      classifyFrom_inside, hno, hc]
    simp only [Bool.false_eq_true, if_false, if_true, Nat.succ_ne_zero]
    exact ih' depth before? rest

/-- A group is passed over. -/
theorem classifyFrom_group (h : Level inner) (hc : closer.kind.isCloser = true)
    (before? : Option Leaf) (params? : Option TokenId) (rest : List Leaf) :
    classifyFrom 1 before? params? (inner ++ closer :: rest)
      = classifyFrom 0 (some closer) params? rest := by
  have hno : closer.kind.isOpener = false := by
    cases hopen : closer.kind.isOpener with
    | false => rfl
    | true => exact (not_opener_closer hopen hc).elim
  rw [classifyFrom_level h, classifyFrom_inside, hno, hc]
  simp

/-- **A declaration that is no statement** closes what it opens. -/
theorem classifyFrom_closes {depth : Nat}
    (h : classifyFrom (depth + 1) before? params? leaves ≠ .statement) :
    ∃ inner closer rest, leaves = inner ++ closer :: rest ∧ Level inner
      ∧ closer.kind.isCloser = true := by
  induction hlen : leaves.length using Nat.strongRecOn
    generalizing leaves depth before? with
  | _ n ih =>
    subst hlen
    cases leaves with
    | nil => exact absurd (by unfold classifyFrom; rfl) h
    | cons leaf rest =>
      -- level leaves are passed, and the delimiter that closes is behind them
      have honward : ∀ group more, leaf :: rest = group ++ more → group ≠ [] → Level group →
          ∃ inner closer rest', leaf :: rest = inner ++ closer :: rest' ∧ Level inner
            ∧ closer.kind.isCloser = true := by
        intro group more hsplit hne hgroup
        rw [hsplit, classifyFrom_level hgroup] at h
        have hlt : more.length < (leaf :: rest).length := by
          rw [hsplit, List.length_append]
          have := List.length_pos_iff.mpr hne
          omega
        obtain ⟨inner, closer, rest', rfl, hinner, hc⟩ := ih _ hlt h rfl
        exact ⟨group ++ inner, closer, rest', by rw [hsplit]; simp, hgroup.append hinner, hc⟩
      cases ho : leaf.kind.isOpener with
      | true =>
        have hin := h
        rw [classifyFrom_inside, if_pos ho] at hin
        obtain ⟨inner, last, more, rfl, hinner, hc⟩ := ih _ (Nat.lt_succ_self _) hin rfl
        refine honward (leaf :: (inner ++ [last])) more (by simp) (by simp) ?_
        exact Paired.enclose ho hc trivial hinner
      | false =>
        cases hc : leaf.kind.isCloser with
        | true => exact ⟨[], leaf, rest, rfl, .nil, hc⟩
        | false =>
          refine honward [leaf] rest rfl (by simp) (.plain ?_ .nil)
          unfold TokenKind.isDelimiter
          rw [ho, hc]
          rfl

/-- Behind a group that is still open nothing but a statement is known. -/
theorem classifyFrom_open {params terminator : TokenId} {body : Bool}
    (h : classifyFrom 1 before? params? leaves = .function params terminator body) :
    ∃ inner closer rest, leaves = inner ++ closer :: rest ∧ Level inner
      ∧ closer.kind.isCloser = true
      ∧ classifyFrom 0 (some closer) params? rest = .function params terminator body := by
  obtain ⟨inner, closer, rest, rfl, hinner, hc⟩ :=
    classifyFrom_closes (show classifyFrom (0 + 1) before? params? leaves ≠ .statement by
      rw [h]
      simp)
  rw [classifyFrom_group hinner hc] at h
  exact ⟨inner, closer, rest, rfl, hinner, hc, h⟩

/-- The `(` or `[` outside of groups. -/
theorem classifyFrom_opener (h : opener.kind = .lparen ∨ opener.kind = .lbracket)
    (hopens : opener.kind = .lparen →
      (params?.isNone && opensParams before? leaves.head?) = false) :
    classifyFrom 0 before? params? (opener :: leaves) = classifyFrom 1 before? params? leaves := by
  conv_lhs => unfold classifyFrom
  rcases h with hk | hk
  · simp only [Nat.lt_irrefl, if_false, hk, hopens hk, Bool.false_eq_true]
  · simp only [Nat.lt_irrefl, if_false, hk]

/-- A word outside of groups. -/
theorem classifyFrom_word (h : leaf.kind.isPlain = true)
    (hword : params?.isSome = true → leaf.kind = .symbol) :
    classifyFrom 0 before? params? (leaf :: rest) = classifyFrom 0 (some leaf) params? rest := by
  have hcond : (params?.isSome && leaf.kind != .symbol) = false := by
    cases hp : params?.isSome with
    | false => rfl
    | true =>
      rw [hword hp]
      rfl
  conv_lhs => unfold classifyFrom
  cases hk : leaf.kind <;> rw [hk] at h hcond <;>
    simp_all [TokenKind.isPlain, TokenKind.isDelimiter, TokenKind.isOpener, TokenKind.isCloser]

/-- What is behind the closer of a group is not its first leaf. -/
theorem head?_append_cons (inner : List Leaf) (closer : Leaf) (rest : List Leaf) :
    (inner ++ closer :: rest).head? = (inner ++ [closer]).head? := by
  cases inner <;> rfl

/-- What comes before the parameter list is passed over. -/
theorem Leads.classifyFrom_eq {last? : Option Leaf} (h : Leads before? name last?)
    (rest : List Leaf) :
    classifyFrom 0 before? none (name ++ rest) = classifyFrom 0 last? none rest := by
  induction h with
  | nil => rfl
  | word hplain _ ih =>
    rw [List.cons_append, classifyFrom_word hplain (by simp), ih]
  | @group before? last? opener closer inner more hopener hinner hc _ ih =>
    have hopens : opener.kind = .lparen →
        (Option.isNone (none : Option TokenId)
          && opensParams before? (inner ++ (closer :: (more ++ rest))).head?) = false := by
      intro hk
      rw [head?_append_cons]
      rcases hopener with ⟨-, hno⟩ | hbracket
      · simpa using hno
      · rw [hk] at hbracket
        simp at hbracket
    rw [List.cons_append, List.append_assoc, List.cons_append,
      classifyFrom_opener (hopener.imp And.left id) hopens, classifyFrom_group hinner hc, ih]

/-- What comes behind the parameter list is passed over. -/
theorem Quals.classifyFrom_eq (h : Quals fits quals) (before? : Option Leaf) (params : TokenId)
    (rest : List Leaf) :
    ∃ last?, classifyFrom 0 before? (some params) (quals ++ rest)
      = classifyFrom 0 last? (some params) rest := by
  induction h generalizing before? with
  | nil => exact ⟨before?, rfl⟩
  | @word leaf more hsymbol _ ih =>
    obtain ⟨last?, hlast⟩ := ih (some leaf)
    refine ⟨last?, ?_⟩
    rw [List.cons_append, classifyFrom_word (by rw [hsymbol]; rfl) fun _ => hsymbol, hlast]
  | @group opener closer inner more hopener hc _ hinner _ ih =>
    obtain ⟨last?, hlast⟩ := ih (some closer)
    refine ⟨last?, ?_⟩
    rw [List.cons_append, List.append_assoc, List.cons_append,
      classifyFrom_opener hopener (by simp), classifyFrom_group hinner.level hc, hlast]

/-- A function has a name. -/
theorem Prototype.name_ne_nil (h : Prototype fits name opener inner closer quals) :
    name ≠ [] := by
  rintro rfl
  obtain ⟨before?, hleads, hopens⟩ := h.leads
  cases hleads
  simp [opensParams] at hopens

/-- **The head of a function** is recognised by what ends it. -/
theorem Prototype.classify_eq (h : Prototype fits name opener inner closer quals)
    (hterm : term.kind = .lbrace ∨ term.kind = .semicolon) (rest : List Leaf) :
    classify (name ++ opener :: (inner ++ closer :: (quals ++ term :: rest)))
      = .function opener.id term.id (term.kind == .lbrace) := by
  obtain ⟨before?, hleads, hopens⟩ := h.leads
  obtain ⟨last?, hlast⟩ := h.behind.classifyFrom_eq (some closer) opener.id (term :: rest)
  have hopener : ∀ leaves, opensParams before? leaves.head? = true →
      classifyFrom 0 before? none (opener :: leaves)
        = classifyFrom 1 before? (some opener.id) leaves := by
    intro leaves hopens
    conv_lhs => unfold classifyFrom
    simp [h.paren, hopens]
  unfold classify
  rw [hleads.classifyFrom_eq, hopener _ (by rwa [head?_append_cons]),
    classifyFrom_group h.between.level h.closes, hlast]
  unfold classifyFrom
  rcases hterm with hk | hk <;> simp [hk]

/-- What ends the head of a function, by the words and groups before it. -/
theorem classifyFrom_behind {params params' terminator : TokenId} {body : Bool}
    (h : classifyFrom 0 before? (some params) leaves = .function params' terminator body) :
    ∃ quals term rest, leaves = quals ++ term :: rest ∧ Quals (fun _ _ => True) quals
      ∧ params' = params ∧ term.id = terminator
      ∧ (term.kind = .lbrace ∧ body = true ∨ term.kind = .semicolon ∧ body = false) := by
  induction hlen : leaves.length using Nat.strongRecOn generalizing leaves before? with
  | _ n ih =>
    subst hlen
    cases leaves with
    | nil =>
      unfold classifyFrom at h
      simp at h
    | cons leaf rest =>
      -- a group was passed, and the others follow
      have hgroup : (leaf.kind = .lparen ∨ leaf.kind = .lbracket) →
          classifyFrom 1 before? (some params) rest = .function params' terminator body →
          ∃ quals term rest', leaf :: rest = quals ++ term :: rest'
            ∧ Quals (fun _ _ => True) quals ∧ params' = params ∧ term.id = terminator
            ∧ (term.kind = .lbrace ∧ body = true ∨ term.kind = .semicolon ∧ body = false) := by
        intro hk hopen
        obtain ⟨inner, closer, more, rfl, hinner, hc, hmore⟩ := classifyFrom_open hopen
        have hlt : more.length < (leaf :: (inner ++ closer :: more)).length := by
          simp only [List.length_cons, List.length_append]
          omega
        obtain ⟨quals, term, rest', rfl, hquals, hp, hid, hterm⟩ := ih _ hlt hmore rfl
        exact ⟨leaf :: (inner ++ closer :: quals), term, rest', by simp,
          .group hk hc trivial hinner hquals, hp, hid, hterm⟩
      have hleaf := h
      unfold classifyFrom at hleaf
      simp only [Nat.lt_irrefl, if_false, Option.isNone_some, Bool.false_and,
        Bool.false_eq_true, Option.isSome_some, Bool.true_and] at hleaf
      split at hleaf
      · rename_i hk
        exact hgroup (.inl hk) hleaf
      · rename_i hk
        exact hgroup (.inr hk) hleaf
      · rename_i hk
        simp only [Shape.function.injEq] at hleaf
        exact ⟨[], leaf, rest, rfl, .nil, hleaf.1.symm, hleaf.2.1,
          .inr ⟨hk, by rw [← hleaf.2.2, hk]; rfl⟩⟩
      · rename_i hk
        simp only [Shape.function.injEq] at hleaf
        exact ⟨[], leaf, rest, rfl, .nil, hleaf.1.symm, hleaf.2.1,
          .inl ⟨hk, by rw [← hleaf.2.2, hk]; rfl⟩⟩
      · simp at hleaf
      · simp at hleaf
      · simp at hleaf
      · simp at hleaf
      · split at hleaf
        · simp at hleaf
        · rename_i hsymbol
          have hk : leaf.kind = .symbol := by simpa using hsymbol
          obtain ⟨quals, term, rest', rfl, hquals, hp, hid, hterm⟩ :=
            ih _ (Nat.lt_succ_self _) hleaf rfl
          exact ⟨leaf :: quals, term, rest', rfl, .word hk hquals, hp, hid, hterm⟩

/-- What comes before the parameter list of a function, and what behind it. -/
theorem classifyFrom_leads {params terminator : TokenId} {body : Bool}
    (h : classifyFrom 0 before? none leaves = .function params terminator body) :
    ∃ name last? opener inner closer rest, leaves = name ++ opener :: (inner ++ closer :: rest)
      ∧ Leads before? name last? ∧ opensParams last? (inner ++ [closer]).head? = true
      ∧ opener.kind = .lparen ∧ Level inner ∧ closer.kind.isCloser = true
      ∧ classifyFrom 0 (some closer) (some opener.id) rest
        = .function params terminator body := by
  induction hlen : leaves.length using Nat.strongRecOn generalizing leaves before? with
  | _ n ih =>
    subst hlen
    cases leaves with
    | nil =>
      unfold classifyFrom at h
      simp at h
    | cons leaf rest =>
      -- a group that is no parameter list was passed, and the others follow
      have hgroup : (∀ inner closer more, rest = inner ++ closer :: more →
            leaf.kind = .lparen ∧ opensParams before? (inner ++ [closer]).head? = false
              ∨ leaf.kind = .lbracket) →
          classifyFrom 1 before? none rest = .function params terminator body →
          ∃ name last? opener inner closer rest',
            leaf :: rest = name ++ opener :: (inner ++ closer :: rest')
            ∧ Leads before? name last? ∧ opensParams last? (inner ++ [closer]).head? = true
            ∧ opener.kind = .lparen ∧ Level inner ∧ closer.kind.isCloser = true
            ∧ classifyFrom 0 (some closer) (some opener.id) rest'
              = .function params terminator body := by
        intro hk hopen
        obtain ⟨inner, closer, more, rfl, hinner, hc, hmore⟩ := classifyFrom_open hopen
        have hlt : more.length < (leaf :: (inner ++ closer :: more)).length := by
          simp only [List.length_cons, List.length_append]
          omega
        obtain ⟨name, last?, opener, inner', closer', rest', rfl, hleads, hrest⟩ :=
          ih _ hlt hmore rfl
        exact ⟨leaf :: (inner ++ closer :: name), last?, opener, inner', closer', rest', by simp,
          .group (hk _ _ _ rfl) hinner hc hleads, hrest⟩
      have hleaf := h
      unfold classifyFrom at hleaf
      simp only [Nat.lt_irrefl, if_false, Option.isNone_none, Bool.true_and,
        Option.isSome_none, Bool.false_and, Bool.false_eq_true] at hleaf
      split at hleaf
      · rename_i hk
        split at hleaf
        · rename_i hopens
          obtain ⟨inner, closer, more, rfl, hinner, hc, hmore⟩ := classifyFrom_open hleaf
          rw [head?_append_cons] at hopens
          exact ⟨[], before?, leaf, inner, closer, more, rfl, .nil, hopens, hk, hinner, hc, hmore⟩
        · rename_i hopens
          refine hgroup ?_ hleaf
          rintro inner closer more rfl
          rw [head?_append_cons] at hopens
          exact .inl ⟨hk, by simpa using hopens⟩
      · rename_i hk
        exact hgroup (fun _ _ _ _ => .inr hk) hleaf
      · simp at hleaf
      · simp at hleaf
      · simp at hleaf
      · simp at hleaf
      · simp at hleaf
      · simp at hleaf
      · rename_i h₁ h₂ h₃ h₄ h₅ h₆ h₇ h₈
        have hplain := TokenKind.isPlain_of_ne h₁ h₂ h₃ h₄ h₅ h₆ h₇ h₈
        obtain ⟨name, last?, opener, inner, closer, rest', rfl, hleads, hrest⟩ :=
          ih _ (Nat.lt_succ_self _) hleaf rfl
        exact ⟨leaf :: name, last?, opener, inner, closer, rest', rfl, .word hplain hleads, hrest⟩

/-- **A declaration that is a function** begins with the head of one. -/
theorem classify_inv {params terminator : TokenId} {body : Bool}
    (h : classify leaves = .function params terminator body) :
    ∃ name opener inner closer quals term rest,
      leaves = name ++ opener :: (inner ++ closer :: (quals ++ term :: rest))
      ∧ Prototype (fun _ _ => True) name opener inner closer quals
      ∧ opener.id = params ∧ term.id = terminator
      ∧ (term.kind = .lbrace ∧ body = true ∨ term.kind = .semicolon ∧ body = false) := by
  obtain ⟨name, last?, opener, inner, closer, more, rfl, hleads, hopens, hk, hinner, hc, hmore⟩ :=
    classifyFrom_leads h
  obtain ⟨quals, term, rest, rfl, hquals, rfl, hid, hterm⟩ := classifyFrom_behind hmore
  exact ⟨name, opener, inner, closer, quals, term, rest, rfl,
    ⟨⟨last?, hleads, hopens⟩, hk, hc, trivial, hinner, hquals⟩, rfl, hid, hterm⟩

end Classify

/-! ## §3. The grammar -/

/-- The leaves of a directive, which goes on to the end of its line. -/
def Directive (leaves rest : List Leaf) : Prop :=
  ∃ hash body, leaves = hash :: body ∧ hash.kind = .hash
    ∧ (∀ leaf ∈ body, leaf.startsLine = false) ∧ ∀ leaf ∈ rest.head?, leaf.startsLine = true

/-- The declarators behind the body of a struct, through the `;`.  Words are names except in an
    initialiser. -/
inductive Declarators : Bool → List Branch → Prop where
  | finish {initialiser : Bool} {leaf : Leaf} : leaf.kind = .semicolon →
      Declarators initialiser [.leaf leaf]
  | group {initialiser : Bool} {group : List Leaf} {rest : List Branch} : Group group →
      Declarators initialiser rest → Declarators initialiser (group.map .leaf ++ rest)
  | name {leaf : Leaf} {rest : List Branch} : leaf.kind = .symbol → Declarators false rest →
      Declarators false (.node .structName [.leaf leaf] :: rest)
  | word {leaf : Leaf} {rest : List Branch} : leaf.kind = .symbol → Declarators true rest →
      Declarators true (.leaf leaf :: rest)
  | assign {initialiser : Bool} {leaf : Leaf} {rest : List Branch} : leaf.kind = .assign →
      Declarators true rest → Declarators initialiser (.leaf leaf :: rest)
  | comma {initialiser : Bool} {leaf : Leaf} {rest : List Branch} : leaf.kind = .comma →
      Declarators false rest → Declarators initialiser (.leaf leaf :: rest)
  | other {initialiser : Bool} {leaf : Leaf} {rest : List Branch} : leaf.kind.isPlain = true →
      leaf.kind ≠ .symbol → leaf.kind ≠ .comma → Declarators initialiser rest →
      Declarators initialiser (.leaf leaf :: rest)

/-- A declaration that begins with the leaf goes on behind its braces. -/
def isAggregate (first : Leaf) : Bool :=
  first.kind == .struct || aggregateWords.contains first.text

/-- A declaration is ahead: a function or a statement. -/
def Declares (leaves : List Leaf) : Prop :=
  ∃ first, leaves.head? = some first
    ∧ first.kind ∉ [.hash, .typedef, .semicolon, .rbrace, .rparen, .rbracket]
    ∧ (first.kind = .struct →
      atStructDecl { rest := leaves } = false ∧ atStructBody { rest := leaves } = false)

/-- No delimiter is spelled like the word that opens a linkage block. -/
def Worded (leaves : List Leaf) : Prop :=
  ∀ leaf ∈ leaves, leaf.text = "extern" → leaf.kind.isDelimiter = false

/-- What is read. -/
inductive Part where
  /-- Statements in braces. -/
  | block
  /-- What stands in a block. -/
  | body
  /-- The rest of a statement. -/
  | tail (goesOn : Bool)
  /-- A struct through its closing brace. -/
  | aggregate
  /-- One construct at file scope that is no linkage block. -/
  | construct
  /-- One construct at file scope. -/
  | item
  /-- Constructs at file scope. -/
  | items

/-- **The grammar**: the leaves of the branches are read as the part when the leaves `rest` are
    behind them. -/
inductive Reads : Part → List Branch → List Leaf → Prop where
  | block {opener closer : Leaf} {parts : List Branch} {rest : List Leaf} :
      opener.kind = .lbrace → closer.kind = .rbrace → Reads .body parts (closer :: rest) →
      Reads .block [.node .statementBlock (.leaf opener :: (parts ++ [.leaf closer]))] rest
  | bodyEnd {closer : Leaf} {rest : List Leaf} : closer.kind = .rbrace →
      Reads .body [] (closer :: rest)
  | bodyDirective {leaves : List Leaf} {more : List Branch} {rest : List Leaf} :
      Directive leaves (leavesAll more ++ rest) → Reads .body more rest →
      Reads .body (.node .directive (leaves.map .leaf) :: more) rest
  | bodyBlock {block : Branch} {more : List Branch} {rest : List Leaf} :
      Reads .block [block] (leavesAll more ++ rest) → Reads .body more rest →
      Reads .body (block :: more) rest
  | bodyLone {leaf : Leaf} {more : List Branch} {rest : List Leaf} : leaf.kind = .semicolon →
      Reads .body more rest → Reads .body (.node .token [.leaf leaf] :: more) rest
  | bodyStatement {first : Leaf} {parts more : List Branch} {rest : List Leaf} :
      (leavesAll parts).head? = some first →
      first.kind ∉ [.hash, .lbrace, .semicolon, .rparen, .rbracket, .rbrace] →
      Reads (.tail (isAggregate first)) parts (leavesAll more ++ rest) → Reads .body more rest →
      Reads .body (.node .statement parts :: more) rest
  | tailEnd {goesOn : Bool} {rest : List Leaf} : (∀ leaf ∈ rest.head?, leaf.kind = .rbrace) →
      Reads (.tail goesOn) [] rest
  | tailSemicolon {goesOn : Bool} {leaf : Leaf} {rest : List Leaf} : leaf.kind = .semicolon →
      Reads (.tail goesOn) [.leaf leaf] rest
  | tailBlock {block : Branch} {rest : List Leaf} : Reads .block [block] rest →
      Reads (.tail false) [block] rest
  | tailBlockOn {block : Branch} {more : List Branch} {rest : List Leaf} :
      Reads .block [block] (leavesAll more ++ rest) → Reads (.tail true) more rest →
      Reads (.tail true) (block :: more) rest
  | tailGroup {goesOn : Bool} {opener : Leaf} {group : List Leaf} {more : List Branch}
      {rest : List Leaf} : Group group → group.head? = some opener →
      opener.kind = .lparen ∨ opener.kind = .lbracket → Reads (.tail goesOn) more rest →
      Reads (.tail goesOn) (group.map .leaf ++ more) rest
  | tailAssign {goesOn : Bool} {leaf : Leaf} {more : List Branch} {rest : List Leaf} :
      leaf.kind = .assign → Reads (.tail true) more rest →
      Reads (.tail goesOn) (.leaf leaf :: more) rest
  | tailWord {goesOn : Bool} {leaf : Leaf} {more : List Branch} {rest : List Leaf} :
      leaf.kind.isPlain = true → Reads (.tail goesOn) more rest →
      Reads (.tail goesOn) (.leaf leaf :: more) rest
  | struct {first : Leaf} {body : Branch} {rest : List Leaf} : first.kind = .struct →
      Reads .block [body] rest → Reads .aggregate [.leaf first, body] rest
  | structTagged {first tag : Leaf} {body : Branch} {rest : List Leaf} : first.kind = .struct →
      tag.kind = .symbol → Reads .block [body] rest →
      Reads .aggregate [.leaf first, .node .structTag [.leaf tag], body] rest
  | directive {leaves rest : List Leaf} : Directive leaves rest →
      Reads .construct [.node .directive (leaves.map .leaf)] rest
  | lone {leaf : Leaf} {rest : List Leaf} : leaf.kind = .semicolon →
      Reads .construct [.node .token [.leaf leaf]] rest
  | typedef {first : Leaf} {parts : List Branch} {rest : List Leaf} : first.kind = .typedef →
      atStructBody { rest := leavesAll parts ++ rest } = false → Reads (.tail true) parts rest →
      Reads .construct [.node .typedef (.leaf first :: parts)] rest
  | typedefStruct {first : Leaf} {parts names : List Branch} {rest : List Leaf} :
      first.kind = .typedef → Reads .aggregate parts (leavesAll names ++ rest) →
      Declarators false names →
      Reads .construct [.node .typedef (.leaf first :: .node .structDefn parts :: names)] rest
  | structDecl {first tag last : Leaf} {rest : List Leaf} : first.kind = .struct →
      tag.kind = .symbol → last.kind = .semicolon →
      Reads .construct
        [.node .structDecl [.leaf first, .node .structTag [.leaf tag], .leaf last]] rest
  | structDefn {parts names : List Branch} {rest : List Leaf} :
      Reads .aggregate parts (leavesAll names ++ rest) → Declarators false names →
      Reads .construct [.node .structDefn (parts ++ names)] rest
  | definition {name inner quals : List Leaf} {opener closer : Leaf} {body : Branch}
      {rest : List Leaf} :
      Declares (name ++ opener :: (inner ++ closer :: (quals ++ (body.leaves ++ rest)))) →
      Prototype (fun opener closer => opener.closer? = some closer) name opener inner closer
        quals →
      Reads .block [body] rest →
      Reads .construct [.node .functionDefn (name.map .leaf
        ++ .node .functionParams ((opener :: (inner ++ [closer])).map .leaf)
        :: (quals.map .leaf ++ [body]))] rest
  | prototype {name inner quals : List Leaf} {opener closer last : Leaf} {rest : List Leaf} :
      Declares (name ++ opener :: (inner ++ closer :: (quals ++ last :: rest))) →
      Prototype (fun opener closer => opener.closer? = some closer) name opener inner closer
        quals →
      last.kind = .semicolon →
      Reads .construct [.node .functionDecl (name.map .leaf
        ++ .node .functionParams ((opener :: (inner ++ [closer])).map .leaf)
        :: (quals.map .leaf ++ [.leaf last]))] rest
  | statement {first : Leaf} {parts : List Branch} {rest : List Leaf} :
      (leavesAll parts).head? = some first → Declares (leavesAll parts ++ rest) →
      classify (leavesAll parts ++ rest) = .statement →
      Reads (.tail (isAggregate first)) parts rest →
      Reads .construct [.node .statement parts] rest
  | linkage {first name opener closer : Leaf} {parts : List Branch} {rest : List Leaf} :
      first.text = "extern" → name.kind = .string → opener.kind = .lbrace →
      closer.kind = .rbrace → Reads .items parts (closer :: rest) →
      Reads .item [.node .linkageBlock
        (.leaf first :: .leaf name :: .leaf opener :: (parts ++ [.leaf closer]))] rest
  | construct {branch : Branch} {rest : List Leaf} :
      atLinkageBlock { rest := branch.leaves ++ rest } = false →
      Reads .construct [branch] rest → Reads .item [branch] rest
  | itemsEnd {rest : List Leaf} : (∀ leaf ∈ rest.head?, leaf.kind = .rbrace) →
      Reads .items [] rest
  | itemsCons {branch : Branch} {more : List Branch} {rest : List Leaf} :
      Reads .item [branch] (leavesAll more ++ rest) → Reads .items more rest →
      Reads .items (branch :: more) rest

end Outline

end KernelPrep
