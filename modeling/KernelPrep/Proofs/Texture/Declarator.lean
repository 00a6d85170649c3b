/-
  KernelPrep.Proofs.Texture.Declarator — the parameters of uses.

  A declarator goes on to a comma, or to a closing delimiter that it has not opened.  Since a
  keyword may itself be in brackets, that may be a bracket as well as a parenthesis.  The name is
  the last symbol outside of what the declarator has opened.

  Main definitions:
    * `Occurrence.Grammar.depth`      — the depth in parentheses and brackets behind some tokens;
    * `Occurrence.Grammar.Ends`, `Names` — places where a declarator ends, and where its name is;
    * `Occurrence.Grammar.Declarator` — a parameter by the first end of its declarator.

  Main statements:
    * `Occurrence.Grammar.paramName_declarator` — what is read behind a type is a declarator;
    * `Occurrence.Grammar.levels_nested` — nested leaves close what they open;
    * `Occurrence.scan_grammar`          — the uses in a node of a document.
-/
import Mathlib.Order.Bounds.Basic
import KernelPrep.Proofs.Texture.Outcome
import KernelPrep.Proofs.Texture.Remnant
import KernelPrep.Proofs.Texture.UseGrammar

namespace KernelPrep.Occurrence

namespace Grammar

/-! ## §1. Declarators -/

/-- What a token adds to the depth in parentheses and brackets. -/
def level : TokenKind → Int
  | .lparen | .lbracket => 1
  | .rparen | .rbracket => -1
  | _ => 0

/-- How deep tokens of these kinds leave parentheses and brackets. -/
def levels : List TokenKind → Int
  | [] => 0
  | kind :: rest => level kind + levels rest

/-- The depth in parentheses and brackets behind some tokens. -/
def depth (tokens : List (TokenId × Token)) : Int := levels (tokens.map (·.2.kind))

/-- A declarator ends here: at a comma of depth zero, or at one of the closing delimiters that
    nothing in the declarator has opened. -/
def Ends (closers : List TokenKind) (tokens : List (TokenId × Token)) (i : Nat) : Prop :=
  ∃ entry, tokens[i]? = some entry ∧ (entry.2.kind = .comma ∧ depth (tokens.take i) = 0
    ∨ entry.2.kind ∈ closers ∧ depth (tokens.take i) ≤ 0)

/-- A symbol of depth zero. -/
def Names (tokens : List (TokenId × Token)) (i : Nat) : Prop :=
  ∃ entry, tokens[i]? = some entry ∧ entry.2.kind = .symbol ∧ depth (tokens.take i) = 0

/-- The first `n` tokens are those of the parameter: its name is the last symbol of depth zero
    among them. -/
structure Spelled (tokens : List (TokenId × Token)) (n : Nat) (param : Param) : Prop where
  name : ∃ i entry, IsGreatest {i | i < n ∧ Names tokens i} i ∧ tokens[i]? = some entry
    ∧ param.token = entry.1 ∧ param.text = entry.2.text
  last : ((tokens.take n).map (·.1)).getLast? = some param.last

/-- The parameter has the tokens before the first place where the declarator ends. -/
def Declarator (closers : List TokenKind) (tokens : List (TokenId × Token)) (param : Param) :
    Prop :=
  ∃ n, IsLeast {i | Ends closers tokens i} n ∧ Spelled tokens n param

section Declarators

variable {tokens rest : List (TokenId × Token)} {entry : TokenId × Token} {param : Param}
  {i n : Nat} {d : Nat}

theorem levels_append (kinds kinds' : List TokenKind) :
    levels (kinds ++ kinds') = levels kinds + levels kinds' := by
  induction kinds with
  | nil => exact (Int.zero_add _).symm
  | cons kind kinds ih =>
    rw [List.cons_append, levels, levels, ih, Int.add_assoc]

theorem take_succ (h : tokens[n]? = some entry) :
    tokens.take (n + 1) = tokens.take n ++ [entry] := by
  rw [List.take_add_one, h, Option.toList_some]

theorem depth_succ (h : tokens[n]? = some entry) :
    depth (tokens.take (n + 1)) = depth (tokens.take n) + level entry.2.kind := by
  simp [depth, take_succ h, levels_append, levels]

theorem Spelled.last_succ (h : tokens[n]? = some entry) :
    ((tokens.take (n + 1)).map (·.1)).getLast? = some entry.1 := by
  simp [take_succ h]

/-- A parameter goes on with a token that is no name of it. -/
theorem Spelled.onward (h : Spelled tokens n param) (hentry : tokens[n]? = some entry)
    (hnot : ¬ Names tokens n) : Spelled tokens (n + 1) { param with last := entry.1 } := by
  obtain ⟨⟨i, named, ⟨⟨hlt, hnames⟩, hgreatest⟩, hname⟩, -⟩ := h
  refine ⟨⟨i, named, ⟨⟨Nat.lt_succ_of_lt hlt, hnames⟩, ?_⟩, hname⟩, Spelled.last_succ hentry⟩
  rintro j ⟨hj, hnames'⟩
  rcases Nat.lt_succ_iff_lt_or_eq.mp hj with hj | rfl
  · exact hgreatest ⟨hj, hnames'⟩
  · exact absurd hnames' hnot

/-- A symbol of depth zero is the name until another one comes. -/
theorem Spelled.named (hentry : tokens[n]? = some entry) (hnames : Names tokens n) :
    Spelled tokens (n + 1) ⟨entry.1, entry.2.text, entry.1⟩ :=
  ⟨⟨n, entry, ⟨⟨Nat.lt_succ_self n, hnames⟩, fun _ hj => Nat.le_of_lt_succ hj.1⟩, hentry, rfl,
    rfl⟩, Spelled.last_succ hentry⟩

/-- The delimiters that end a declarator. -/
def closers : List TokenKind := [.rparen, .rbracket]

/-- A declarator ends at a token of depth zero that is a comma or one of the closers. -/
theorem ends_iff (hentry : tokens[n]? = some entry) (hdepth : depth (tokens.take n) = d) :
    Ends closers tokens n ↔ d = 0 ∧ (entry.2.kind = .comma ∨ entry.2.kind ∈ closers) := by
  simp only [Ends, hentry, hdepth, Option.some.injEq, exists_eq_left']
  have hzero : (d : Int) = 0 ↔ d = 0 := Int.natCast_eq_zero
  have hle : (d : Int) ≤ 0 ↔ d = 0 := by omega
  rw [hzero, hle]
  tauto

/-- A declarator is named by a symbol of depth zero. -/
theorem names_iff (hentry : tokens[n]? = some entry) (hdepth : depth (tokens.take n) = d) :
    Names tokens n ↔ d = 0 ∧ entry.2.kind = .symbol := by
  simp only [Names, hentry, hdepth, Option.some.injEq, exists_eq_left', Int.natCast_eq_zero]
  exact and_comm

/-- **A parameter that goes on** behind `n` tokens of it. -/
theorem paramFrom_declarator (hrest : tokens.drop n = rest) (hdepth : depth (tokens.take n) = d)
    (hspelled : Spelled tokens n param) (hbefore : ∀ i < n, ¬ Ends closers tokens i)
    (hends : ∃ i, Ends closers tokens i) :
    Declarator closers tokens (paramFrom d param rest) := by
  induction rest generalizing n d param with
  | nil =>
    obtain ⟨i, hi⟩ := hends
    obtain ⟨entry, hentry, -⟩ := id hi
    have hlt := (List.getElem?_eq_some_iff.mp hentry).1
    have hle := List.drop_eq_nil_iff.mp hrest
    exact absurd hi (hbefore i (by omega))
  | cons entry rest ih =>
    have hentry : tokens[n]? = some entry := by
      rw [← List.head?_drop, hrest]
      rfl
    have hmore : tokens.drop (n + 1) = rest := by
      rw [← List.drop_drop, hrest]
      rfl
    obtain ⟨id, token⟩ := entry
    have hend := ends_iff hentry hdepth
    have hname := names_iff hentry hdepth
    have hstops : Ends closers tokens n → Declarator closers tokens param := fun hstop =>
      ⟨n, ⟨hstop, fun i hi => Nat.le_of_not_lt fun hlt => hbefore i hlt hi⟩, hspelled⟩
    have hlater : ¬ Ends closers tokens n → ∀ i < n + 1, ¬ Ends closers tokens i := by
      intro hnot i hi
      rcases Nat.lt_succ_iff_lt_or_eq.mp hi with hi | rfl
      · exact hbefore i hi
      · exact hnot
    -- a token that neither ends the declarator nor names the parameter
    have honward : ∀ {d' : Nat}, (d : Int) + level token.kind = d' →
        ¬ (d = 0 ∧ (token.kind = .comma ∨ token.kind ∈ closers)) →
        ¬ (d = 0 ∧ token.kind = .symbol) →
        Declarator closers tokens (paramFrom d' { param with last := id } rest) :=
      fun hd hnot hsymbol => ih hmore (by rw [depth_succ hentry, hdepth, hd])
        (hspelled.onward hentry (mt hname.mp hsymbol)) (hlater (mt hend.mp hnot))
    unfold paramFrom
    dsimp only
    split
    · rename_i hkind
      exact honward (by simp [hkind, level]) (by simp [hkind, closers]) (by simp [hkind])
    · rename_i hkind
      exact honward (by simp [hkind, level]) (by simp [hkind, closers]) (by simp [hkind])
    · rename_i hkind
      split
      · rename_i hzero
        exact hstops (hend.mpr ⟨hzero, .inr (by simp [hkind, closers])⟩)
      · rename_i hpos
        exact honward (by rw [hkind, level]; omega) (by simp [hpos]) (by simp [hkind])
    · rename_i hkind
      split
      · rename_i hzero
        exact hstops (hend.mpr ⟨hzero, .inr (by simp [hkind, closers])⟩)
      · rename_i hpos
        exact honward (by rw [hkind, level]; omega) (by simp [hpos]) (by simp [hkind])
    · rename_i hkind
      split
      · rename_i hzero
        exact hstops (hend.mpr ⟨hzero, .inl hkind⟩)
      · rename_i hpos
        exact honward (by simp [hkind, level]) (by simp [hpos]) (by simp [hkind])
    · rename_i hkind
      split
      · rename_i hzero
        refine ih hmore ?_ (Spelled.named hentry (hname.mpr ⟨hzero, hkind⟩))
          (hlater (mt hend.mp (by simp [hkind, closers])))
        rw [depth_succ hentry, hdepth, hkind, hzero]
        rfl
      · rename_i hpos
        exact honward (by simp [hkind, level]) (by simp [hpos]) (by simp [hpos])
    · rename_i h₁ h₂ h₃ h₄ h₅ h₆
      have hcloser : token.kind ∉ closers := by simpa [closers] using ⟨h₃, h₄⟩
      refine honward ?_ (fun hnot => hnot.2.elim h₅ hcloser) fun hsymbol => h₆ hsymbol.2
      unfold level
      split <;> simp_all

/-- A parameter begins with a symbol. -/
theorem paramName_declarator {text : String} (h : Occurrence.paramName text tokens = .ok param)
    (hends : ∃ i, Ends closers tokens i) : Declarator closers tokens param := by
  cases tokens with
  | nil => simp [Occurrence.paramName] at h
  | cons entry rest =>
    simp only [Occurrence.paramName] at h
    split at h
    · rename_i hsymbol
      obtain rfl := Except.ok.inj h
      have hnames : Names (entry :: rest) 0 := ⟨entry, rfl, hsymbol, rfl⟩
      refine paramFrom_declarator (n := 1) rfl ?_ (Spelled.named rfl hnames) ?_ hends
      · simp [depth, levels, hsymbol, level]
      · rintro i hi ⟨other, hother, hend⟩
        obtain rfl := Nat.lt_one_iff.mp hi
        obtain rfl : entry = other := Option.some.inj hother
        simp [hsymbol, closers] at hend
    · simp at h

/-- Before a declarator ends, no more closes than it has opened. -/
theorem depth_nonneg (h : ∀ i, ¬ Ends closers tokens i) (n : Nat) :
    0 ≤ depth (tokens.take n) := by
  induction n with
  | zero => simp [depth, levels]
  | succ n ih =>
    cases hentry : tokens[n]? with
    | none =>
      have hle := List.getElem?_eq_none_iff.mp hentry
      rwa [List.take_of_length_le (Nat.le_succ_of_le hle), ← List.take_of_length_le hle]
    | some entry =>
      rw [depth_succ hentry]
      by_contra hneg
      have hcloses : level entry.2.kind < 0 → entry.2.kind ∈ closers
          ∧ level entry.2.kind = -1 := by
        unfold level
        split <;> simp_all [closers]
      obtain ⟨hcloser, hlevel⟩ := hcloses (by omega)
      exact h n ⟨entry, hentry, .inr ⟨hcloser, by omega⟩⟩

/-- **A declarator ends** where more closes than it has opened. -/
theorem exists_ends (h : depth tokens < 0) : ∃ i, Ends closers tokens i := by
  by_contra hnone
  have hnonneg := depth_nonneg (not_exists.mp hnone) tokens.length
  rw [List.take_length] at hnonneg
  omega

end Declarators

/-! ## §2. Parameter lists -/

section Lists

variable {doc : Document} {node : NodeId} {parts branches : List Branch}
  {front behind : List (TokenId × Token)} {leaves : List Leaf}

theorem level_of_plain {kind : TokenKind} (h : kind.isDelimiter = false) : level kind = 0 := by
  cases kind <;> first | rfl | simp [TokenKind.isDelimiter, TokenKind.isOpener,
    TokenKind.isCloser] at h

theorem level_of_closer? {kind kind' : TokenKind} (h : kind.closer? = some kind') :
    level kind + level kind' = 0 ∧ level kind' ≤ 0 := by
  cases kind <;> simp only [TokenKind.closer?, Option.some.injEq, reduceCtorEq] at h <;>
    subst h <;> decide

/-- What is left of two lists, counted from the end. -/
theorem suffix_append_cases {α : Type} {l l' rest : List α} (h : rest <:+ l ++ l') :
    rest <:+ l' ∨ ∃ rest', rest' <:+ l ∧ rest = rest' ++ l' := by
  obtain ⟨first, hfirst⟩ := h
  rcases List.append_eq_append_iff.mp hfirst with ⟨middle, rfl, rfl⟩ | ⟨middle, rfl, rfl⟩
  · exact .inr ⟨middle, List.suffix_append _ _, rfl⟩
  · exact .inl (List.suffix_append _ _)

/-- **Nested leaves** open as much as they close, and towards their end no more. -/
theorem levels_nested (h : Outline.Nested leaves) :
    levels (leaves.map (·.kind)) = 0
      ∧ ∀ rest, rest <:+ leaves.map (·.kind) → levels rest ≤ 0 := by
  unfold Outline.Nested at h
  induction h with
  | nil =>
    refine ⟨rfl, fun rest hrest => ?_⟩
    rw [List.suffix_nil.mp hrest]
    decide
  | @plain leaf rest hplain _ ih =>
    rw [List.map_cons]
    have hsum : levels (leaf.kind :: rest.map (·.kind)) = 0 := by
      rw [levels, level_of_plain hplain, ih.1, Int.zero_add]
    refine ⟨hsum, fun rest' hrest => ?_⟩
    rcases List.suffix_cons_iff.mp hrest with rfl | hrest
    · exact Int.le_of_eq hsum
    · exact ih.2 _ hrest
  | @group opener closer inner rest _ _ hfits _ _ ihinner ihrest =>
    obtain ⟨hpair, hclose⟩ := level_of_closer? hfits
    rw [List.map_cons, List.map_append, List.map_cons]
    have hsum : levels (opener.kind :: (inner.map (·.kind) ++ closer.kind :: rest.map (·.kind)))
        = 0 := by
      rw [levels, levels_append, levels, ihinner.1, ihrest.1]
      omega
    -- a rest that begins with the closing delimiter goes below zero at most
    have hcloser : ∀ rest', rest' <:+ closer.kind :: rest.map (·.kind) → levels rest' ≤ 0 := by
      intro rest' hrest
      rcases List.suffix_cons_iff.mp hrest with rfl | hrest
      · rw [levels, ihrest.1]
        omega
      · exact ihrest.2 _ hrest
    refine ⟨hsum, fun rest' hrest => ?_⟩
    rcases List.suffix_cons_iff.mp hrest with rfl | hrest
    · exact Int.le_of_eq hsum
    rcases suffix_append_cases hrest with hrest | ⟨middle, hmiddle, rfl⟩
    · exact hcloser _ hrest
    -- a rest that begins inside of the group has a rest of the group and what follows it
    · have hfirst := ihinner.2 _ hmiddle
      have hsecond := hcloser _ (List.suffix_refl _)
      rw [levels_append]
      omega

/-- **In a parameter list** more closes behind a token of it than has been opened there. -/
theorem depth_behind (h : doc.HasNode branches node .functionParams parts)
    (hplain : doc.Plain node) (hsplit : entries doc node = front ++ behind) (hfront : front ≠ [])
    (hbehind : behind ≠ []) : depth behind < 0 := by
  obtain ⟨opener, inner, closer, rfl, -, hcloser, hnested⟩ :=
    (h.branched.reads.made _ h.mem).params_inv
  have hkinds : (front ++ behind).map (·.2.kind)
      = (opener :: (inner ++ [closer])).map (·.kind) := by
    have heq := congrArg (List.map Prod.snd) (h.entries_kinds hplain)
    rw [Branch.own_map_leaf, List.map_map, List.map_map, hsplit] at heq
    exact heq
  obtain ⟨first, front, rfl⟩ := List.exists_cons_of_ne_nil hfront
  obtain ⟨next, behind, rfl⟩ := List.exists_cons_of_ne_nil hbehind
  have hlength := congrArg List.length hkinds
  simp only [List.length_map, List.length_append, List.length_cons, List.length_nil] at hlength
  -- what is behind ends with the closer of the list, all else being matched
  have hdepth : depth (next :: behind)
      = levels ((inner.map (·.kind)).drop front.length ++ [closer.kind]) := by
    have htail := congrArg (List.drop (front.length + 1)) hkinds
    rw [← List.map_drop, ← List.map_drop, List.cons_append, List.drop_succ_cons,
      List.drop_succ_cons, List.drop_left, List.drop_append_of_le_length (by omega),
      List.map_append, List.map_drop] at htail
    exact congrArg levels htail
  have hinner := (levels_nested hnested).2 _ (List.drop_suffix front.length _)
  have hlast : levels [closer.kind] = -1 := by simp [levels, hcloser, level]
  rw [hdepth, levels_append, hlast]
  omega

theorem entries_ids {kind : NodeKind} (h : doc.HasNode branches node kind parts)
    (hplain : doc.Plain node) : (entries doc node).map (·.1) = doc.ownTokens node := by
  have heq := congrArg (List.map Prod.fst) (h.entries_kinds hplain)
  rw [List.map_map, List.map_map] at heq
  rw [h.ownTokens_eq hplain]
  exact heq

/-- A keyword in a parameter list is behind the parenthesis that opens it. -/
theorem AtKeyword.behind_ends {keyword : TokenId × Token} {signature : Signature}
    {type : List (TokenId × Token)} {isParams : Bool}
    (h : AtKeyword isParams (entries doc node) keyword signature (type ++ behind))
    (hnode : doc.HasNode branches node .functionParams parts) (hplain : doc.Plain node)
    (hbehind : behind ≠ []) : ∃ i, Ends closers behind i := by
  obtain ⟨before, hsplit⟩ := h.reaches.suffix
  have hfront : entries doc node = (before ++ keyword :: type) ++ behind := by
    rw [← hsplit]
    simp
  exact exists_ends (depth_behind hnode hplain hfront (by simp) hbehind)

/-- A use ends among the tokens of its node, and so does its parameter. -/
theorem AtKeyword.within {keyword : TokenId × Token} {signature : Signature} {kind : TextureKind}
    {type : List (TokenId × Token)} {isParams : Bool} {o : Occurrence} {text : String}
    (h : AtKeyword isParams (entries doc node) keyword signature (type ++ behind))
    (hload : Loaded doc) (hplain : doc.Plain node) (hrecorded : Recorded node keyword kind type o)
    (hparam : ParamRead isParams text behind o.param?) :
    ∃ range, doc.tree.tokens? node = some range ∧ o.stop ∈ doc.tokens.range range
      ∧ ∀ param, o.param? = some param → param.last ∈ doc.tokens.range range := by
  obtain ⟨range, hrange, -⟩ := hload.range hplain.below hplain.ne_root
  obtain ⟨before, hsplit⟩ := h.reaches.suffix
  have hinside : ∀ id ∈ (keyword :: type).map (·.1) ++ behind.map (·.1),
      id ∈ doc.tokens.range range := by
    intro id hid
    have hown : id ∈ doc.ownTokens node := (entries_sublist doc node).subset (by
      rw [← hsplit, List.map_append, ← List.cons_append, List.map_append]
      exact List.mem_append_right _ hid)
    unfold Document.ownTokens at hown
    rw [hrange] at hown
    exact (Document.ownFrom_sublist _ _ _ _).subset hown
  refine ⟨range, hrange, hinside _ ?_, fun param hname => hinside _ ?_⟩
  · exact List.mem_append_left _ (List.mem_of_getLast? hrecorded.stop)
  · rw [hname] at hparam
    exact List.mem_append_right _ (paramName_ok hparam.2).1

end Lists

end Grammar

/-- **A file that is loaded** is made of branches. -/
theorem exists_branches {config : Config} {source : String} {doc : Document}
    (hload : Document.load config source = .ok doc) :
    ∃ branches, Outline.Branched doc.tokens doc.tree doc.tree.children branches := by
  obtain ⟨hlex, hparse, -⟩ := Document.load_ok hload
  obtain ⟨kids, branches, hbranched⟩ := Outline.branched_of_parse hlex hparse
  obtain rfl : kids = doc.tree.children := (funext hbranched.forest.children_eq).symm
  exact ⟨branches, hbranched⟩

/-! ## §3. The uses in a node -/

open Grammar

/-- **The uses in a node** of a document are read off its own tokens.  Reading goes through when
    every keyword that it comes to is well formed, and otherwise the error is what is wrong with
    the first that is not.  The use at a keyword ends within the node, and so does its parameter,
    which has the tokens of a declarator. -/
theorem scan_grammar {config : Config} {source : String} {doc : Document} {node : NodeId}
    (hload : Document.load config source = .ok doc)
    (hnode : (doc.tree.kind? node).any isSearched = true) :
    let isParams := doc.tree.kind? node == some .functionParams
    let tokens := entries doc node
    tokens.map (·.1) = doc.ownTokens node
    ∧ ((∃ found, scan doc node = .ok found)
        ↔ ∀ keyword signature rest, AtKeyword isParams tokens keyword signature rest →
          ∃ type behind, rest = type ++ behind ∧ WellFormed isParams signature.kind type behind)
    ∧ (∀ error, scan doc node = .error error
        ↔ ∃ keyword signature rest, AtKeyword isParams tokens keyword signature rest
          ∧ Violates isParams keyword.2.text signature.kind rest error.fault
          ∧ error.line = keyword.2.line)
    ∧ ∀ found, scan doc node = .ok found →
      (∀ keyword signature rest, AtKeyword isParams tokens keyword signature rest →
        ∃ o ∈ found, o.keyword = keyword.1)
      ∧ ∀ o ∈ found, ∃ keyword signature type behind,
        AtKeyword isParams tokens keyword signature (type ++ behind)
        ∧ WellFormed isParams signature.kind type behind
        ∧ Recorded node keyword signature.kind type o
        ∧ (isParams = false → o.param? = none)
        ∧ (isParams = true → ∃ param, o.param? = some param ∧ Declarator closers behind param)
        ∧ ∃ range, doc.tree.tokens? node = some range ∧ o.stop ∈ doc.tokens.range range
          ∧ ∀ param, o.param? = some param → param.last ∈ doc.tokens.range range := by
  intro isParams tokens
  have h₀ := Document.load_loaded hload
  have hreads := (TokenList.lex_reads (Document.load_ok hload).1).1
  -- a parameter list of a loaded file never lacks the context that its uses need
  have hcontext : isParams = true → ∃ context, paramContext doc node = .ok context :=
    fun hparams => h₀.exists_paramContext hreads (by simpa [isParams] using hparams)
  obtain ⟨hplain, -⟩ := h₀.plain_of_searched hnode
  obtain ⟨branches, hbranched⟩ := exists_branches hload
  obtain ⟨kind, hkind, -⟩ := (Option.any_eq_true _ _).mp hnode
  obtain ⟨parts, hparts⟩ := Document.HasNode.of_kind? h₀ hbranched hkind hplain.ne_root
  -- the lemmas on reading say it all but where the parameters end
  refine ⟨entries_ids hparts hplain, scanFrom_ok_iff hcontext,
    fun error => scanFrom_error_iff hcontext, fun found hscan => ⟨?_, fun o ho => ?_⟩⟩
  · intro keyword signature rest hat
    obtain ⟨type, behind, rfl, hwell⟩ :=
      (scanFrom_ok_iff hcontext).mp ⟨found, hscan⟩ keyword signature rest hat
    exact hat.exists_found hcontext hwell hscan
  · obtain ⟨keyword, signature, type, behind, hat, hwell, hrecorded, hparam⟩ :=
      readAt_of_scanFrom hcontext hscan ho
    refine ⟨keyword, signature, type, behind, hat, hwell, hrecorded, hparam.none, fun hparams => ?_,
      hat.within h₀ hplain hrecorded hparam⟩
    -- only a parameter list has closers behind its last declarator
    have hlist : doc.tree.kind? node = some .functionParams := by
      simpa [isParams] using hparams
    rw [hkind] at hlist
    obtain rfl := Option.some.inj hlist
    obtain ⟨next, more, rfl, -⟩ := not_lacks_iff.mp (hwell.name hparams)
    obtain ⟨param, hname, hread⟩ := hparam.some hparams
    exact ⟨param, hname, paramName_declarator hread
      (hat.behind_ends hparts hplain (List.cons_ne_nil _ _))⟩

/-- What evaluation shows of the first node that is searched in a source. -/
theorem exists_scanned (source : String) (p : Document → NodeId → List Occurrence → Bool)
    (h : ((Document.load {} source).toOption.bind fun doc => (candidates doc).head?.bind fun node =>
      (scan doc node).toOption.map (p doc node)) = some true) :
    ∃ doc node found, Document.load {} source = .ok doc
      ∧ (doc.tree.kind? node).any isSearched = true ∧ scan doc node = .ok found
      ∧ p doc node found = true := by
  cases hload : Document.load {} source with
  | error error => simp [hload, Except.toOption] at h
  | ok doc =>
    simp only [hload, Except.toOption, Option.bind_some] at h
    obtain ⟨node, hnode, h⟩ := Option.bind_eq_some_iff.mp h
    cases hscan : scan doc node with
    | error error => simp [hscan] at h
    | ok found =>
      rw [hscan] at h
      exact ⟨doc, node, found, rfl, (List.mem_filter.mp (List.mem_of_head? hnode)).2, hscan,
        Option.some.inj h⟩

/-- A parameter list that goes through, with a parameter up to a comma. -/
theorem scan_grammar_sampler :
    ∃ doc node found, Document.load {} "void f(Texture3Dn<unsigned char> noise[2], Surface1D out);"
        = .ok doc
      ∧ (doc.tree.kind? node).any isSearched = true ∧ scan doc node = .ok found
      ∧ found.length = 2 ∧ ∀ o ∈ found, ∃ keyword signature type behind param,
        AtKeyword true (entries doc node) keyword signature (type ++ behind)
        ∧ Recorded node keyword signature.kind type o
        ∧ o.param? = some param ∧ Declarator closers behind param := by
  obtain ⟨doc, node, found, hload, hnode, hscan, heval⟩ :=
    exists_scanned "void f(Texture3Dn<unsigned char> noise[2], Surface1D out);"
      (fun doc node found => doc.tree.kind? node == some .functionParams && found.length == 2)
      (by decide +kernel)
  obtain ⟨hparams, hlength⟩ := Bool.and_eq_true_iff.mp heval
  refine ⟨doc, node, found, hload, hnode, hscan, beq_iff_eq.mp hlength, fun o ho => ?_⟩
  obtain ⟨-, -, -, hfound⟩ := scan_grammar hload hnode
  obtain ⟨keyword, signature, type, behind, hat, -, hrecorded, -, hparam, -⟩ :=
    (hfound found hscan).2 o ho
  obtain ⟨param, hname, hdeclarator⟩ := hparam hparams
  rw [hparams] at hat
  exact ⟨keyword, signature, type, behind, param, hat, hrecorded, hname, hdeclarator⟩

/-- What is read of a token. -/
def Grammar.spelling (entry : TokenId × Token) : TokenKind × String :=
  (entry.2.kind, entry.2.text)

/-- The tokens `x][y] y)`. -/
def Grammar.bracketed : List (TokenKind × String) :=
  [(.symbol, "x"), (.rbracket, "]"), (.lbracket, "["), (.symbol, "y"), (.rbracket, "]"),
    (.symbol, "y"), (.rparen, ")")]

/-- Were a closing bracket no end, the name would be the one in the next brackets. -/
theorem Grammar.not_declarator_bracketed {behind : List (TokenId × Token)} {param : Param}
    (h : behind.map spelling = bracketed)
    (hname : param.text = "x") : ¬ Declarator [.rparen] behind param := by
  have hat : ∀ i, (behind[i]?).map spelling = bracketed[i]? :=
    fun i => by rw [← h, List.getElem?_map]
  have hdepth : depth (behind.take 3) = 0 := by
    have hlevels : depth (behind.take 3) = levels (((behind.map spelling).take 3).map (·.1)) := by
      rw [← List.map_take, List.map_map]
      rfl
    rw [hlevels, h]
    rfl
  rintro ⟨n, ⟨⟨stop, hstop, hends⟩, -⟩,
    ⟨⟨i, entry, ⟨⟨-, named, hnamed, hsymbol, -⟩, hgreatest⟩, hentry, -, htext⟩, -⟩⟩
  -- none of the first four ends the declarator
  have hlate : 3 < n := by
    have hkind := hat n
    rw [hstop] at hkind
    have hmark : stop.2.kind = .comma ∨ stop.2.kind = .rparen :=
      hends.imp And.left fun hclose => List.mem_singleton.mp hclose.1
    match n with
    | 0 | 1 | 2 | 3 =>
      obtain ⟨hkind, -⟩ := Prod.mk.inj (Option.some.inj hkind)
      rw [hkind] at hmark
      exact absurd hmark (by decide)
    | n + 4 => omega
  obtain ⟨second, hsecond, hkind⟩ := Option.map_eq_some_iff.mp (hat 3)
  have hle : 3 ≤ i := hgreatest ⟨hlate, second, hsecond, (Prod.mk.inj hkind).1, hdepth⟩
  have hkind := hat i
  rw [hentry] at hnamed hkind
  obtain rfl := Option.some.inj hnamed
  rw [hname] at htext
  match i, hle with
  | 3, _ => simp [bracketed, spelling, ← htext] at hkind
  | 4, _ => simp [bracketed, spelling, hsymbol] at hkind
  | 5, _ => simp [bracketed, spelling, ← htext] at hkind
  | 6, _ => simp [bracketed, spelling, hsymbol] at hkind
  | i + 7, _ => simp [bracketed] at hkind

/-- A parameter inside of brackets ends with them: of a declarator that only a comma or a
    parenthesis ends, the name would be `y`. -/
theorem scan_bracketed :
    ∃ doc node found, Document.load {} "kernel void k(int a[Texture2Du<float> x][y] y) \x7b \x7d"
        = .ok doc
      ∧ (doc.tree.kind? node).any isSearched = true ∧ scan doc node = .ok found
      ∧ ∃ keyword signature type behind,
        AtKeyword true (entries doc node) keyword signature (type ++ behind)
        ∧ WellFormed true signature.kind type behind
        ∧ ∃ o ∈ found, o.keyword = keyword.1 ∧ ∃ param, o.param? = some param ∧ param.text = "x"
          ∧ ¬ Declarator [.rparen] behind param := by
  obtain ⟨doc, node, found, hload, hnode, hscan, heval⟩ :=
    exists_scanned "kernel void k(int a[Texture2Du<float> x][y] y) \x7b \x7d"
      (fun doc node found => doc.tree.kind? node == some .functionParams
        && found.map (fun o => o.param?.map (·.text)) == [some "x"]
        && ((entries doc node).take 4).all (fun entry => signature? entry.2 == none)
        && (entries doc node)[4]?.any (fun entry => signature? entry.2 == some ⟨.texture, 2, .raw⟩)
        && ((entries doc node).drop 5).map spelling
          == [(.less, "<"), (.symbol, "float"), (.greater, ">")] ++ bracketed)
      (by decide +kernel)
  simp only [Bool.and_eq_true, beq_iff_eq] at heval
  -- the evaluated facts, as they are needed: the list, its one use and the tokens around it
  obtain ⟨⟨⟨⟨hparams, htexts⟩, hbefore⟩, hword⟩, hrest⟩ := heval
  obtain ⟨keyword, hword, hkeyword⟩ := (Option.any_eq_true _ _).mp hword
  obtain ⟨type, behind, hdrop, htype, hbehind⟩ := List.map_eq_append_iff.mp hrest
  have hsplit : entries doc node = (entries doc node).take 4 ++ keyword :: (type ++ behind) := by
    obtain ⟨hlt, rfl⟩ := List.getElem?_eq_some_iff.mp hword
    rw [← hdrop, ← List.drop_eq_getElem_cons hlt, List.take_append_drop]
  have hat : AtKeyword true (entries doc node) keyword ⟨.texture, 2, .raw⟩ (type ++ behind) := by
    refine ⟨?_, beq_iff_eq.mp hkeyword⟩
    rw [hsplit]
    refine Reaches.pass_all _ fun entry hentry => ?_
    simpa using List.all_eq_true.mp hbefore entry hentry
  -- the tokens behind the keyword are a type of the grammar with a symbol behind it
  have hwell : WellFormed true .texture type behind := by
    obtain ⟨angle, type, rfl, hless, htype⟩ := List.map_eq_cons_iff.mp htype
    obtain ⟨texel, type, rfl, htexel, htype⟩ := List.map_eq_cons_iff.mp htype
    obtain ⟨close, type, rfl, hgreater, htype⟩ := List.map_eq_cons_iff.mp htype
    obtain rfl := List.map_eq_nil_iff.mp htype
    obtain ⟨hsymbol, htext⟩ := Prod.mk.inj htexel
    have hwords : Texel [texel] := .basic ⟨hsymbol, by rw [htext]; decide, by rw [htext]; decide⟩
    refine ⟨.texture (Prod.mk.inj hless).1 hwords (Prod.mk.inj hgreater).1, fun _ => ?_⟩
    obtain ⟨x, rest, rfl, hx, -⟩ := List.map_eq_cons_iff.mp hbehind
    exact not_lacks_iff.mpr ⟨x, rest, rfl, (Prod.mk.inj hx).1⟩
  -- the scan goes through, so the use that it found is the one at this keyword
  have hcontext : ∃ context, paramContext doc node = .ok context :=
    (Document.load_loaded hload).exists_paramContext
      (TokenList.lex_reads (Document.load_ok hload).1).1 hparams
  have hscan' : scanFrom doc node true 0 (entries doc node) = .ok found := by
    rw [← hscan, scan, hparams]
    rfl
  obtain ⟨o, ho, hkey⟩ := hat.exists_found (fun _ => hcontext) hwell hscan'
  obtain ⟨param, hname, htext⟩ : ∃ param, o.param? = some param ∧ param.text = "x" := by
    have hin := List.mem_map_of_mem (f := fun o : Occurrence => o.param?.map (·.text)) ho
    rw [htexts, List.mem_singleton] at hin
    exact Option.map_eq_some_iff.mp hin
  exact ⟨doc, node, found, hload, hnode, hscan, keyword, _, _, behind, hat, hwell, o, ho, hkey,
    param, hname, htext, not_declarator_bracketed hbehind htext⟩

end KernelPrep.Occurrence
