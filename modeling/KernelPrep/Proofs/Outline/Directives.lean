/-
  KernelPrep.Proofs.Outline.Directives — directives and the lines of a file.

  A directive is read leaf by leaf until one starts a line, and whether a leaf does is known
  from the tokens before it: blanks leave a backslash in force, comments do not, and a line end
  counts unless a backslash is in force.  Said for the tokens of the file, a directive is the
  logical line that begins with its `#`: all tokens up to the first line end that is not
  escaped, but for the blanks, comments and line ends at the end of these.

  Main definitions:
    * `TokenList.isEscaped`  — a backslash stands before the token, up to blanks;
    * `TokenList.endsLine`   — the token is a line end that is not escaped;
    * `TokenList.restOfLine` — the tokens up to the first such line end.

  Main statements:
    * `TokenList.isEscaped_eq` — what is escaped, by the margin before it;
    * `TokenList.unbroken_line`, `TokenList.broken_line` — margins within a line and behind it;
    * `TokenList.leaves_restOfLine` — the leaves of a line;
    * `TokenList.parse_directive` — a directive is a logical line.
-/
import KernelPrep.Proofs.Outline.Margin
import KernelPrep.Proofs.Outline.Siting

namespace KernelPrep

namespace TokenList

/-! ## §1. Escaped line ends -/

/-- The nearest token before the given one that is not a blank is a backslash. -/
def isEscaped (list : TokenList) (id : TokenId) : Bool :=
  ((list.ids.takeWhile (· ≠ id)).reverse.find? (list.kind? · != some .whitespace)).any
    (list.kind? · == some .backslash)

/-- The token is a line end that no backslash escapes. -/
def endsLine (list : TokenList) (id : TokenId) : Bool :=
  list.kind? id == some .eol && !list.isEscaped id

/-- The margin behind the given tokens of a file. -/
def marginBehind (list : TokenList) (ids : List TokenId) : Margin :=
  Margin.start.behind (list.spells ids)

variable {list : TokenList} {file : List TokenId}

/-- The margin behind one more token is one step further. -/
theorem marginBehind_append {ids : List TokenId} {id : TokenId} {kind : TokenKind}
    (h : list.kind? id = some kind) :
    list.marginBehind (ids ++ [id]) = (list.marginBehind ids).step kind := by
  obtain ⟨token, htoken, rfl⟩ := Option.map_eq_some_iff.mp h
  unfold marginBehind
  rw [spells_append, Margin.behind_append]
  unfold spells
  rw [List.filterMap_cons, htoken]
  rfl

/-- **What a backslash escapes** behind given tokens: the nearest of them that is not a blank
    is one. -/
theorem escaped_marginBehind (h : list.Threaded file) {ids : List TokenId}
    (hids : ∀ id ∈ ids, id ∈ file) :
    (list.marginBehind ids).escaped
      = (ids.reverse.find? (list.kind? · != some .whitespace)).any
        (list.kind? · == some .backslash) := by
  -- from the first token to the last: only blanks keep what was there before
  induction ids using List.reverseRecOn with
  | nil => rfl
  | append_singleton ids id ih =>
    obtain ⟨token, htoken, -⟩ := h.get?_of_mem (hids id (by simp))
    have hkind : list.kind? id = some token.kind := kind?_of_get? htoken
    rw [marginBehind_append hkind, List.reverse_append, List.reverse_singleton,
      List.singleton_append, List.find?_cons]
    cases hk : token.kind with
    | whitespace =>
      rw [hkind, hk]
      exact ih fun x hx => hids x (List.mem_append_left _ hx)
    | _ =>
      rw [hkind, hk]
      show _ = (list.kind? id == some .backslash)
      rw [hkind, hk]
      rfl

/-- A token of a file is escaped if the margin before it says so. -/
theorem isEscaped_eq (h : list.Threaded file) {front back : List TokenId} {id : TokenId}
    (hfile : file = front ++ id :: back) :
    list.isEscaped id = (list.marginBehind front).escaped := by
  rw [escaped_marginBehind h (fun x hx => by simp [hfile, hx])]
  unfold isEscaped
  rw [h.ids_eq, takeWhile_ne_eq h.nodup hfile]

/-! ## §2. Lines -/

/-- **Within a line** no line end has counted since the last leaf. -/
theorem unbroken_line (h : list.Threaded file) {front line back : List TokenId}
    (hfile : file = front ++ (line ++ back)) (hfront : (list.marginBehind front).broken = false)
    (hline : ∀ id ∈ line, list.endsLine id = false) :
    (list.marginBehind (front ++ line)).broken = false := by
  induction line using List.reverseRecOn generalizing back with
  | nil =>
    rw [List.append_nil]
    exact hfront
  | append_singleton line id ih =>
    have hin : id ∈ line ++ [id] := List.mem_append_right _ List.mem_cons_self
    obtain ⟨token, htoken, -⟩ := h.get?_of_mem (show id ∈ file by simp [hfile])
    have hkind : list.kind? id = some token.kind := kind?_of_get? htoken
    have hsplit : file = front ++ (line ++ id :: back) := by simp [hfile]
    have hbefore := ih hsplit (fun x hx => hline x (List.mem_append_left _ hx))
    rw [← List.append_assoc, marginBehind_append hkind]
    cases hk : token.kind with
    | whitespace => exact hbefore
    | comment => exact hbefore
    | eol =>
      -- a line end in the line is escaped
      have hends := hline id hin
      unfold endsLine at hends
      rw [hkind, hk, isEscaped_eq h (hsplit.trans (List.append_assoc ..).symm)] at hends
      show ((list.marginBehind (front ++ line)).broken
        || !(list.marginBehind (front ++ line)).escaped) = false
      rw [hbefore]
      simpa using hends
    | _ => rfl

/-- **Behind a line** the next leaf starts another. -/
theorem broken_line (h : list.Threaded file) {front trivia back : List TokenId} {eol : TokenId}
    (hfile : file = front ++ eol :: (trivia ++ back)) (heol : list.endsLine eol = true)
    (htrivia : ∀ id ∈ trivia, list.isSignificant id = false) :
    list.marginBehind (front ++ eol :: trivia) = .newLine := by
  induction trivia using List.reverseRecOn generalizing back with
  | nil =>
    unfold endsLine at heol
    rw [Bool.and_eq_true, beq_iff_eq, Bool.not_eq_true', isEscaped_eq h hfile] at heol
    rw [marginBehind_append heol.1]
    show Margin.mk false (_ || !(list.marginBehind front).escaped) = _
    rw [heol.2, Bool.not_false, Bool.or_true]
    rfl
  | append_singleton trivia id ih =>
    have hin : id ∈ file := by simp [hfile]
    obtain ⟨token, htoken, -⟩ := h.get?_of_mem hin
    have hsplit : file = front ++ eol :: (trivia ++ id :: back) := by simp [hfile]
    have hbefore := ih hsplit (fun x hx => htrivia x (List.mem_append_left _ hx))
    have hsig := htrivia id (List.mem_append_right _ List.mem_cons_self)
    rw [isSignificant_of_get? htoken, Bool.not_eq_false'] at hsig
    rw [← List.cons_append, ← List.append_assoc, marginBehind_append (kind?_of_get? htoken),
      hbefore]
    -- blanks, comments and line ends leave the start of a line as it is
    cases hk : token.kind <;> first | rfl | (rw [hk] at hsig; exact Bool.noConfusion hsig)

/-! ## §3. The leaves of a line -/

/-- The tokens up to the first line end that is not escaped. -/
def restOfLine (list : TokenList) (ids : List TokenId) : List TokenId :=
  ids.takeWhile fun id => !list.endsLine id

/-- What is behind the rest of a line begins with the line end. -/
theorem exists_restOfLine (list : TokenList) (ids : List TokenId) :
    ∃ behind, ids = list.restOfLine ids ++ behind
      ∧ (∀ id ∈ list.restOfLine ids, list.endsLine id = false)
      ∧ ∀ eol ∈ behind.head?, list.endsLine eol = true := by
  refine ⟨ids.dropWhile fun id => !list.endsLine id, List.takeWhile_append_dropWhile.symm, ?_, ?_⟩
  · intro id hid
    simpa using List.mem_takeWhile_imp hid
  · intro eol heol
    have hnot := List.head?_dropWhile_not (fun id => !list.endsLine id) ids
    rw [Option.mem_def.mp heol] at hnot
    simpa using hnot

section Line

variable {front line behind : List TokenId} {leaf : Leaf}

/-- A leaf on the line does not start one. -/
theorem startsLine_of_line (h : list.Threaded file) (hfile : file = front ++ (line ++ behind))
    (hfront : (list.marginBehind front).broken = false)
    (hline : ∀ id ∈ line, list.endsLine id = false) (hleaf : leaf ∈ list.leaves)
    (hid : leaf.id ∈ line) : leaf.startsLine = false := by
  obtain ⟨a, b, rfl⟩ := List.append_of_mem hid
  have hwithin : file = front ++ (a ++ leaf.id :: (b ++ behind)) := by simp [hfile]
  have hunbroken := unbroken_line h hwithin hfront (fun x hx => hline x (by simp [hx]))
  rw [startsLine_eq h hleaf (hwithin.trans (List.append_assoc ..).symm)]
  exact hunbroken

/-- The first leaf behind the line starts the next one. -/
theorem startsLine_of_behind (h : list.Threaded file) (hfile : file = front ++ behind)
    (hbehind : ∀ eol ∈ behind.head?, list.endsLine eol = true) (hleaf : leaf ∈ list.leaves)
    {more : List TokenId} (hfirst : behind.filter list.isSignificant = leaf.id :: more) :
    leaf.startsLine = true := by
  obtain ⟨trivia, rest, rfl, htrivia, hsig, -⟩ := List.filter_eq_cons_iff.mp hfirst
  cases trivia with
  | nil =>
    -- a line end is no leaf
    have hends := hbehind leaf.id rfl
    obtain ⟨-, hkind, -⟩ := leaf_token hleaf
    unfold endsLine at hends
    rw [Bool.and_eq_true, beq_iff_eq] at hends
    unfold isSignificant at hsig
    rw [hends.1] at hsig
    exact Bool.noConfusion hsig
  | cons eol trivia =>
    have hbroken := broken_line h hfile (hbehind eol rfl)
      (fun x hx => by simpa using htrivia x (List.mem_cons_of_mem _ hx))
    have hsplit : file = (front ++ eol :: trivia) ++ leaf.id :: rest := by simp [hfile]
    rw [startsLine_eq h hleaf hsplit]
    show (list.marginBehind _).broken = true
    rw [hbroken]
    rfl

end Line

/-- Behind the last entry that is kept none is. -/
theorem split_of_getLast? {α : Type} {p : α → Bool} {items : List α} {x : α}
    (h : (items.filter p).getLast? = some x) :
    ∃ front back, items = front ++ x :: back ∧ p x = true ∧ ∀ y ∈ back, p y = false := by
  rw [← List.head?_reverse, ← List.filter_reverse, List.head?_filter,
    List.find?_eq_some_iff_append] at h
  obtain ⟨hx, back, front, hsplit, hback⟩ := h
  refine ⟨front.reverse, back.reverse, ?_, hx, ?_⟩
  · rw [← List.reverse_reverse items, hsplit]
    simp
  · intro y hy
    simpa using hback y (List.mem_reverse.mp hy)

/-- **The tokens from the first of a stretch to its last significant one**: what they leave of
    the stretch is not significant. -/
theorem range_of_stretch (h : list.Threaded file) {front stretch behind : List TokenId}
    {first last : TokenId} (hfile : file = front ++ (stretch ++ behind))
    (hfirst : stretch.head? = some first)
    (hlast : (stretch.filter list.isSignificant).getLast? = some last) :
    ∃ trail, stretch = list.range ⟨first, last⟩ ++ trail
      ∧ (list.range ⟨first, last⟩).getLast? = some last
      ∧ list.isSignificant last = true
      ∧ ∀ id ∈ trail, list.isSignificant id = false := by
  obtain ⟨lead, trail, hsplit, hsig, htrail⟩ := split_of_getLast? hlast
  have hrange : list.range ⟨first, last⟩ = lead ++ [last] := by
    have hmiddle : file = front ++ (lead ++ [last]) ++ (trail ++ behind) := by
      rw [hfile, hsplit]
      simp
    rw [hsplit] at hfirst
    refine (hmiddle ▸ h).range_eq ?_ (by simp)
    cases lead with
    | nil => exact hfirst
    | cons _ lead => exact hfirst
  refine ⟨trail, ?_, ?_, hsig, htrail⟩
  · rw [hrange, hsplit]
    simp
  · rw [hrange]
    simp

/-- Leaves up to the first that starts a line. -/
theorem takeWhile_startsLine {inside after : List Leaf}
    (hinside : ∀ leaf ∈ inside, leaf.startsLine = false)
    (hafter : ∀ leaf ∈ after.head?, leaf.startsLine = true) :
    (inside ++ after).takeWhile (!·.startsLine) = inside := by
  rw [List.takeWhile_append_of_pos (fun leaf hleaf => by simp [hinside leaf hleaf])]
  cases after with
  | nil => simp
  | cons leaf after =>
    rw [List.takeWhile_cons_of_neg (by simp [hafter leaf rfl]), List.append_nil]

/-- **The leaves of a line**: behind a leaf that is no backslash, those that do not start a line
    are the significant tokens up to the first line end that is not escaped. -/
theorem leaves_restOfLine (h : list.Threaded file) {front back : List TokenId} {id : TokenId}
    {inside after : List Leaf} (hfile : file = front ++ id :: back)
    (hid : list.isSignificant id = true)
    (hback : back.filter list.isSignificant = (inside ++ after).map (·.id))
    (hleaves : ∀ leaf ∈ inside ++ after, leaf ∈ list.leaves)
    (hinside : ∀ leaf ∈ inside, leaf.startsLine = false)
    (hafter : ∀ leaf ∈ after.head?, leaf.startsLine = true) :
    (list.restOfLine back).filter list.isSignificant = inside.map (·.id) := by
  obtain ⟨token, htoken, -⟩ := h.get?_of_mem (show id ∈ file by simp [hfile])
  have hstart : (list.marginBehind (front ++ [id])).broken = false := by
    rw [isSignificant_of_get? htoken, Bool.not_eq_true'] at hid
    rw [marginBehind_append (kind?_of_get? htoken), Margin.step_of_leaf hid]
  obtain ⟨behind, hsplit, hline, hbehind⟩ := list.exists_restOfLine back
  have hfile' : file = (front ++ [id]) ++ (list.restOfLine back ++ behind) := by
    rw [← hsplit, hfile]
    simp
  -- the leaves on the line and those behind it
  have hids := hback
  rw [hsplit, List.filter_append] at hids
  obtain ⟨here, there, hboth, hhere, hthere⟩ := List.map_eq_append_iff.mp hids.symm
  have hnone : ∀ leaf ∈ here, leaf.startsLine = false := by
    intro leaf hleaf
    apply startsLine_of_line h hfile' hstart hline
      (hleaves leaf (hboth ▸ List.mem_append_left _ hleaf))
    have hin : leaf.id ∈ here.map (·.id) := List.mem_map_of_mem hleaf
    rw [hhere] at hin
    exact (List.mem_filter.mp hin).1
  have hnext : ∀ leaf ∈ there.head?, leaf.startsLine = true := by
    intro leaf hleaf
    obtain ⟨more, rfl⟩ := List.head?_eq_some_iff.mp hleaf
    exact startsLine_of_behind h (hfile'.trans (List.append_assoc ..).symm) hbehind
      (hleaves leaf (hboth ▸ List.mem_append_right _ List.mem_cons_self)) hthere.symm
  have hsame : here = inside := by
    rw [← takeWhile_startsLine hnone hnext, ← hboth, takeWhile_startsLine hinside hafter]
  rw [← hhere, hsame]

end TokenList

/-! ## §4. Directives -/

open Outline in
/-- **A directive is a logical line.**  It begins with a `#` and ends with the last significant
    token before the first line end behind that `#` that is not escaped, or before the end of the
    file: what the directive leaves of its line is blanks, comments and line ends. -/
theorem TokenList.parse_directive {source : String} {list : TokenList} {tree : NodeTree}
    (hlex : TokenList.lex source = .ok list) (hparse : list.parse = .ok tree)
    {node : NodeId} (hkind : tree.kind? node = some .directive) :
    ∃ range front back trail, tree.tokens? node = some range
      ∧ list.ids = front ++ range.first :: back
      ∧ list.kind? range.first = some .hash
      ∧ range.first :: list.restOfLine back = list.range range ++ trail
      ∧ (list.range range).getLast? = some range.last
      ∧ list.isSignificant range.last = true
      ∧ ∀ id ∈ trail, list.isSignificant id = false := by
  obtain ⟨kids, branches, h⟩ := branched_of_parse hlex hparse
  have hthreaded := h.unedited.wellFormed.threaded
  obtain ⟨parts, before, after, hat, hleaves, hsited⟩ := h.site hkind (by simp)
  obtain ⟨hash, inside, hown, hhash, hinside, hafter⟩ := hsited.directive rfl
  rw [hown] at hleaves
  -- the tokens before the `#` and behind it
  rw [List.cons_append] at hleaves
  obtain ⟨front, back, hids, -, hback⟩ := TokenList.file_of_leaves hthreaded hleaves
  have hin : ∀ leaf ∈ hash :: (inside ++ after), leaf ∈ list.leaves := by
    intro leaf hleaf
    rw [hleaves]
    simpa using Or.inr hleaf
  have hsig : list.isSignificant hash.id = true :=
    ((TokenList.mem_leaves_iff hthreaded).mp ⟨hash, hin hash List.mem_cons_self, rfl⟩).2
  have hline : (list.restOfLine back).filter list.isSignificant = inside.map (·.id) :=
    TokenList.leaves_restOfLine hthreaded hids hsig hback
      (fun leaf hleaf => hin leaf (List.mem_cons_of_mem _ hleaf)) hinside hafter
  -- the last significant token of the line
  obtain ⟨last, hlast⟩ : ∃ last, (hash :: inside).getLast? = some last :=
    ⟨_, List.getLast?_eq_some_getLast (List.cons_ne_nil _ _)⟩
  have hrange : TokenRange.ofLeaves (Branch.node .directive parts).leaves = ⟨hash.id, last.id⟩ := by
    rw [hown]
    unfold TokenRange.ofLeaves
    rw [hlast]
    rfl
  have hend : ((hash.id :: list.restOfLine back).filter list.isSignificant).getLast?
      = some last.id := by
    rw [List.filter_cons_of_pos hsig, hline, ← List.map_cons, List.getLast?_map, hlast]
    rfl
  have hkindHash : list.kind? hash.id = some .hash := by
    rw [(TokenList.leaf_token (hin hash List.mem_cons_self)).2.1, hhash]
  obtain ⟨behind, hbehind, -⟩ := list.exists_restOfLine back
  have hfile : list.ids = front ++ ((hash.id :: list.restOfLine back) ++ behind) := by
    rw [List.cons_append, ← hbehind, hids]
  obtain ⟨trail, hrest⟩ := TokenList.range_of_stretch hthreaded hfile rfl hend
  exact ⟨⟨hash.id, last.id⟩, front, back, trail, by rw [hat.tokens?, hrange], hids, hkindHash,
    hrest⟩

/-- A directive that goes on behind an escaped line end. -/
theorem TokenList.parse_directive_continued :
    ∃ list tree range front back trail,
      TokenList.lex "#define A \\ \n 1 // one\nint x;" = .ok list ∧ list.parse = .ok tree
      ∧ tree.kind? ⟨1⟩ = some .directive ∧ tree.tokens? ⟨1⟩ = some range
      ∧ list.ids = front ++ range.first :: back
      ∧ range.first :: list.restOfLine back = list.range range ++ trail
      ∧ ∀ id ∈ trail, list.isSignificant id = false := by
  have heval : (TokenList.lex "#define A \\ \n 1 // one\nint x;").toOption.map
      (fun list => list.parse.toOption.map (·.kind? ⟨1⟩)) = some (some (some .directive)) := by
    decide +kernel
  obtain ⟨list, hlex, hlist⟩ := Step.toOption_map_eq_some.mp heval
  obtain ⟨tree, hparse, hkind⟩ := Step.toOption_map_eq_some.mp hlist
  obtain ⟨range, front, back, trail, htokens, hids, -, hline, -, -, htrail⟩ :=
    TokenList.parse_directive hlex hparse hkind
  exact ⟨list, tree, range, front, back, trail, hlex, hparse, hkind, htokens, hids, hline, htrail⟩

end KernelPrep
