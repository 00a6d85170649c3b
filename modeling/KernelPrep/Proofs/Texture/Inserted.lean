/-
  KernelPrep.Proofs.Texture.Inserted — what is put into a file, as the outline sees it.

  The lines put before constructs are a directive, type definitions and calls, and each ends its
  line; what is put at the top of a body is calls.  So they are constructs and statements of
  their own, wherever they stand.

  Main definitions:
    * `Weave.IsLine`, `Weave.Lines`       — lines before a construct;
    * `Weave.IsBinding`, `Weave.Bindings` — calls at the top of a body.

  Main statements:
    * `Weave.lead_lines`, `Weave.trail_bindings` — what is put around a token;
    * `Weave.Lines.preface`, `Weave.Bindings.calls` — what the outline makes of it.
-/
import KernelPrep.Proofs.Outline.Margin
import KernelPrep.Proofs.Outline.Recast
import KernelPrep.Proofs.Texture.Parts
import KernelPrep.Proofs.Texture.ReadBack

namespace KernelPrep

open Outline (CallLine ScopeLine Preface Calls)
open Weave (Declared)

/-! ## §1. Calls -/

namespace Piece

/-- The kinds of tokens among arguments. -/
theorem kind_of_mem_spellArgs {args : List String} {entry : TokenKind × String}
    (h : entry ∈ spellArgs args) : entry.1 ∈ [.symbol, .number, .comma, .whitespace] := by
  unfold spellArgs List.intercalate at h
  obtain ⟨tokens, htokens, hin⟩ := List.mem_flatten.mp h
  rcases mem_intersperse htokens with hmem | rfl
  · obtain ⟨arg, -, rfl⟩ := List.mem_map.mp hmem
    unfold spellArg at hin
    rcases mem_intersperse hin with hword | rfl
    · obtain ⟨word, -, rfl⟩ := List.mem_map.mp hword
      unfold spellWord
      split <;> simp
    · simp
  · simp only [List.mem_cons, List.not_mem_nil, or_false] at hin
    rcases hin with rfl | rfl <;> simp

/-- **A call** as leaves: no delimiter is between its parentheses. -/
theorem call_faces (m : Margin) (eol name : String) (args : List String) :
    ∃ (inner : List Margin.Face) (b : Bool), m.faces (spell eol (.call name args))
        = (.symbol, name, m.broken) :: (.lparen, "(", false) :: (inner ++ [(.rparen, ")", b)])
      ∧ (∀ face ∈ inner, face.1.isDelimiter = false)
      ∧ m.behind (spell eol (.call name args)) = .start := by
  refine ⟨Margin.start.faces (spellArgs args), (Margin.start.behind (spellArgs args)).broken, ?_,
    fun face hface => ?_, ?_⟩
  · show m.faces ([(.symbol, name), (.lparen, "(")] ++ (spellArgs args ++ [(.rparen, ")")])) = _
    rw [Margin.faces_append, Margin.faces_append]
    rfl
  · obtain ⟨entry, hentry, hkind, -⟩ := Margin.mem_faces hface
    have hkinds := kind_of_mem_spellArgs hentry
    rw [hkind]
    simp only [List.mem_cons, List.not_mem_nil, or_false] at hkinds
    rcases hkinds with hk | hk | hk | hk <;> rw [hk] <;> rfl
  · show m.behind ([(.symbol, name), (.lparen, "(")] ++ (spellArgs args ++ [(.rparen, ")")])) = _
    rw [Margin.behind_append, Margin.behind_append]
    rfl

end Piece

namespace Outline

variable {leaves : List Leaf} {faces : List Margin.Face}

/-- Leaves between parentheses, by their kinds. -/
theorem nested_of_faces (h : leaves.map Leaf.face = faces)
    (hfaces : ∀ face ∈ faces, face.1.isDelimiter = false) : Nested leaves := by
  refine paired_of_plain fun leaf hleaf => hfaces leaf.face ?_
  rw [← h]
  exact List.mem_map_of_mem hleaf

/-- A call, by its kinds. -/
theorem callLine_of_faces {name : String} {b b₁ b₂ b₃ : Bool}
    (h : leaves.map Leaf.face = (.symbol, name, b) :: (.lparen, "(", b₁)
      :: (faces ++ [(.rparen, ")", b₂), (.semicolon, ";", b₃)]))
    (hfaces : ∀ face ∈ faces, face.1.isDelimiter = false) : CallLine leaves := by
  obtain ⟨word, leaves, rfl, hword, h⟩ := List.map_eq_cons_iff.mp h
  obtain ⟨opener, leaves, rfl, hopener, h⟩ := List.map_eq_cons_iff.mp h
  obtain ⟨inner, leaves, rfl, hinner, h⟩ := List.map_eq_append_iff.mp h
  obtain ⟨closer, leaves, rfl, hcloser, h⟩ := List.map_eq_cons_iff.mp h
  obtain ⟨last, rfl, hlast⟩ := List.map_eq_singleton_iff.mp h
  exact ⟨word, opener, inner, closer, last, rfl, congrArg (·.1) hword, congrArg (·.1) hopener,
    congrArg (·.1) hcloser, nested_of_faces hinner hfaces, congrArg (·.1) hlast⟩

/-- A type definition by a macro, by its kinds. -/
theorem typedefLine_of_faces {first word name : String} {b b₁ b₂ b₃ b₄ b₅ : Bool}
    (h : leaves.map Leaf.face = (.typedef, first, b) :: (.symbol, word, b₁) :: (.lparen, "(", b₂)
      :: (faces ++ [(.rparen, ")", b₃), (.symbol, name, b₄), (.semicolon, ";", b₅)]))
    (hfaces : ∀ face ∈ faces, face.1.isDelimiter = false) : ScopeLine leaves := by
  obtain ⟨first, leaves, rfl, hfirst, h⟩ := List.map_eq_cons_iff.mp h
  obtain ⟨word, leaves, rfl, hword, h⟩ := List.map_eq_cons_iff.mp h
  obtain ⟨opener, leaves, rfl, hopener, h⟩ := List.map_eq_cons_iff.mp h
  obtain ⟨inner, leaves, rfl, hinner, h⟩ := List.map_eq_append_iff.mp h
  obtain ⟨closer, leaves, rfl, hcloser, h⟩ := List.map_eq_cons_iff.mp h
  obtain ⟨named, leaves, rfl, hnamed, h⟩ := List.map_eq_cons_iff.mp h
  obtain ⟨last, rfl, hlast⟩ := List.map_eq_singleton_iff.mp h
  exact .typedef (congrArg (·.1) hfirst) (congrArg (·.1) hword) (congrArg (·.1) hopener)
    (congrArg (·.1) hcloser) (nested_of_faces hinner hfaces) (congrArg (·.1) hnamed)
    (congrArg (·.1) hlast)

end Outline

namespace Weave

/-! ## §2. Lines before a construct -/

/-- A line that may be put before a construct at file scope, wherever it stands. -/
structure IsLine (line : Spelling) : Prop where
  opens : ∃ kind text rest, line = (kind, text) :: rest ∧ kind.isTrivia = false
  ends : ∀ m : Margin, m.behind line = .newLine
  construct : ∀ (m : Margin) entries, Token.faces entries = line → ScopeLine (m.leaves entries)

/-- Lines one behind the other. -/
def Lines (spelling : Spelling) : Prop :=
  ∃ lines : List Spelling, spelling = lines.flatten ∧ ∀ line ∈ lines, IsLine line

/-- One line. -/
theorem IsLine.lines {line : Spelling} (h : IsLine line) : Lines line :=
  ⟨[line], by simp, by simpa using h⟩

theorem Lines.nil : Lines [] := ⟨[], rfl, by simp⟩

/-- Lines behind lines. -/
theorem Lines.append {a b : Spelling} (ha : Lines a) (hb : Lines b) : Lines (a ++ b) := by
  obtain ⟨lines, rfl, hlines⟩ := ha
  obtain ⟨lines', rfl, hlines'⟩ := hb
  exact ⟨lines ++ lines', by simp, List.forall_mem_append.mpr ⟨hlines, hlines'⟩⟩

/-- Lines for each of several items. -/
theorem Lines.flatMap {α : Type} {items : List α} {f : α → Spelling}
    (h : ∀ item ∈ items, Lines (f item)) : Lines (items.flatMap f) := by
  induction items with
  | nil => exact .nil
  | cons item items ih =>
    rw [List.flatMap_cons]
    exact (h item List.mem_cons_self).append (ih fun x hx => h x (List.mem_cons_of_mem _ hx))

/-- The first leaf of tokens that begin with one starts a line if the margin says so. -/
theorem head_leaves {m : Margin} {entries : List (TokenId × Token)} {kind : TokenKind}
    {text : String} {rest : Spelling} (h : Token.faces entries = (kind, text) :: rest)
    (hkind : kind.isTrivia = false) :
    ∃ leaf more, m.leaves entries = leaf :: more ∧ leaf.startsLine = m.broken ∧ leaf.kind = kind
      ∧ leaf.text = text := by
  obtain ⟨⟨id, token⟩, entries, rfl, hface, -⟩ := List.map_eq_cons_iff.mp h
  obtain ⟨rfl, rfl⟩ := Prod.mk.inj hface
  rw [Margin.leaves_cons, if_neg (by simp [hkind])]
  exact ⟨_, _, rfl, rfl, rfl, rfl⟩

/-- What comes behind lines starts a line. -/
theorem Lines.behind_eq {spelling : Spelling} (h : Lines spelling) (hne : spelling ≠ [])
    (m : Margin) : m.behind spelling = .newLine := by
  obtain ⟨lines, rfl, hlines⟩ := h
  induction lines generalizing m with
  | nil => exact absurd rfl hne
  | cons line lines ih =>
    obtain ⟨hline, hlines⟩ := List.forall_mem_cons.mp hlines
    rw [List.flatten_cons, Margin.behind_append, hline.ends]
    by_cases hnil : lines.flatten = []
    · rw [hnil]
      rfl
    · exact ih _ hlines hnil

/-- **Lines as leaves**: they are constructs, and the first of them starts a line if the margin
    says so. -/
theorem Lines.preface {spelling : Spelling} (h : Lines spelling) (m : Margin)
    {entries : List (TokenId × Token)} (hfaces : Token.faces entries = spelling) :
    Preface (m.leaves entries)
      ∧ ∀ leaf ∈ (m.leaves entries).head?, leaf.startsLine = m.broken := by
  obtain ⟨lines, rfl, hlines⟩ := h
  induction lines generalizing m entries with
  | nil =>
    obtain rfl : entries = [] := List.map_eq_nil_iff.mp hfaces
    exact ⟨.nil, by simp⟩
  | cons line lines ih =>
    obtain ⟨hline, hlines⟩ := List.forall_mem_cons.mp hlines
    obtain ⟨own, more, rfl, hown, hmore⟩ := List.map_eq_append_iff.mp hfaces
    obtain ⟨kind, text, rest, hopens, hkind⟩ := hline.opens
    obtain ⟨first, behind, hfirst, hstarts, -⟩ := head_leaves (m := m)
      (show Token.faces own = (kind, text) :: rest by rw [← hopens]; exact hown) hkind
    obtain ⟨hpreface, hhead⟩ := ih .newLine hlines hmore
    rw [Margin.leaves_append, show Token.faces own = line from hown, hline.ends]
    refine ⟨.cons (hline.construct m own hown) hpreface hhead, ?_⟩
    rw [hfirst]
    rintro leaf ⟨⟩
    exact hstarts

/-- The line that includes the header. -/
theorem include_isLine (doc : Document) :
    IsLine (spelled doc [.punct .hash, .symbol "include", .space, .string doc.config.prologue,
      .eol]) where
  opens := ⟨_, _, _, rfl, rfl⟩
  ends := fun _ => rfl
  construct := by
    intro m entries hfaces
    have hleaves := m.faces_leaves entries
    rw [hfaces] at hleaves
    obtain ⟨hash, body, hsplit, hhash, hbody⟩ := List.map_eq_cons_iff.mp hleaves
    rw [hsplit]
    refine .directive (congrArg (·.1) hhash) fun leaf hleaf => ?_
    have hmem : leaf.face ∈ body.map Leaf.face := List.mem_map_of_mem hleaf
    rw [hbody] at hmem
    have hline : ∀ face ∈ [((.symbol, "include", false) : Margin.Face),
        (.string, "\"" ++ doc.config.prologue ++ "\"", false)], face.2.2 = false := by simp
    exact hline _ hmem

/-- The line that defines a type. -/
theorem type_isLine (doc : Document) (type : Declared) : IsLine (typeLine doc type) := by
  obtain ⟨args, hsplit⟩ : ∃ args, typeLine doc type = [(.typedef, "typedef"), (.whitespace, " ")]
      ++ (Piece.spell doc.newline (.call (doc.config.vocabulary.typeWord type.signature.kind) args)
        ++ [(.whitespace, " "), (.symbol, type.name), (.semicolon, ";"), (.eol, doc.newline)]) :=
    ⟨_, rfl⟩
  refine ⟨⟨_, _, _, rfl, rfl⟩, fun m => ?_, fun m entries hfaces => ?_⟩
  · obtain ⟨-, -, -, -, hbehind⟩ := Piece.call_faces
      (m.behind [(.typedef, "typedef"), (.whitespace, " ")]) doc.newline
      (doc.config.vocabulary.typeWord type.signature.kind) args
    rw [hsplit, Margin.behind_append, Margin.behind_append, hbehind]
    rfl
  · obtain ⟨inner, b, hcall, hinner, hbehind⟩ := Piece.call_faces
      (m.behind [(.typedef, "typedef"), (.whitespace, " ")]) doc.newline
      (doc.config.vocabulary.typeWord type.signature.kind) args
    have hleaves := m.faces_leaves entries
    rw [hfaces, hsplit, Margin.faces_append, Margin.faces_append, hcall, hbehind] at hleaves
    simp only [List.append_assoc, List.cons_append] at hleaves
    exact Outline.typedefLine_of_faces hleaves hinner

/-- A call with a `;`, with or without blanks before it. -/
theorem call_line {leaves : List Leaf} {m : Margin} (eol : String) {name : String}
    {args : List String} (h : leaves.map Leaf.face
      = m.faces (Piece.spell eol (.call name args) ++ [(.semicolon, ";")])) : CallLine leaves := by
  obtain ⟨inner, b, hcall, hinner, hbehind⟩ := Piece.call_faces m eol name args
  rw [Margin.faces_append, hcall, hbehind] at h
  simp only [List.append_assoc, List.cons_append] at h
  exact Outline.callLine_of_faces h hinner

/-- The line that declares a variable. -/
theorem global_isLine (doc : Document) (type : Declared) (node : NodeId)
    (function param : String) : IsLine (globalLine doc type node function param) := by
  have hsplit : globalLine doc type node function param
      = (Piece.spell doc.newline (.call (doc.config.vocabulary.globalWord type.signature.kind)
        [type.name, Lowering.globalName type.signature.kind function param])
        ++ [(.semicolon, ";")]) ++ [(.eol, doc.newline)] := by
    rw [List.append_assoc]
    rfl
  refine ⟨⟨_, _, _, rfl, rfl⟩, fun m => ?_, fun m entries hfaces => .call ?_⟩
  · rw [hsplit, Margin.behind_append, Margin.behind_append]
    rfl
  · have hleaves := m.faces_leaves entries
    rw [hfaces, hsplit, Margin.faces_append] at hleaves
    exact call_line doc.newline (hleaves.trans (List.append_nil _))

/-! ## §3. Calls at the top of a body -/

/-- A call that may be put at the top of a body, wherever it stands. -/
structure IsBinding (line : Spelling) : Prop where
  ends : ∀ m : Margin, m.behind line = .start
  call : ∀ (m : Margin) entries, Token.faces entries = line → CallLine (m.leaves entries)

/-- Calls one behind the other. -/
def Bindings (spelling : Spelling) : Prop :=
  ∃ lines : List Spelling, spelling = lines.flatten ∧ ∀ line ∈ lines, IsBinding line

/-- What comes behind bindings starts no line by itself. -/
theorem Bindings.behind_eq {spelling : Spelling} (h : Bindings spelling) (hne : spelling ≠ [])
    (m : Margin) : m.behind spelling = .start := by
  obtain ⟨lines, rfl, hlines⟩ := h
  induction lines generalizing m with
  | nil => exact absurd rfl hne
  | cons line lines ih =>
    obtain ⟨hline, hlines⟩ := List.forall_mem_cons.mp hlines
    rw [List.flatten_cons, Margin.behind_append, hline.ends]
    by_cases hnil : lines.flatten = []
    · rw [hnil]
      rfl
    · exact ih _ hlines hnil

/-- **Bindings as leaves.** -/
theorem Bindings.calls {spelling : Spelling} (h : Bindings spelling) (m : Margin)
    {entries : List (TokenId × Token)} (hfaces : Token.faces entries = spelling) :
    Calls (m.leaves entries) := by
  obtain ⟨lines, rfl, hlines⟩ := h
  induction lines generalizing m entries with
  | nil =>
    obtain rfl : entries = [] := List.map_eq_nil_iff.mp hfaces
    exact .nil
  | cons line lines ih =>
    obtain ⟨hline, hlines⟩ := List.forall_mem_cons.mp hlines
    obtain ⟨own, more, rfl, hown, hmore⟩ := List.map_eq_append_iff.mp hfaces
    rw [Margin.leaves_append]
    exact .cons (hline.call m own hown) (ih _ hlines hmore)

/-- The line that binds a parameter. -/
theorem bind_isBinding (doc : Document) (type : Declared) (function : NodeId)
    (name param : String) : IsBinding (bindLine doc type function name param) := by
  have hsplit : ∃ indent, bindLine doc type function name param
      = [(.eol, doc.newline), (.whitespace, indent)]
        ++ (Piece.spell doc.newline (.call (doc.config.vocabulary.bindWord type.signature.kind)
          [type.name, param, Lowering.globalName type.signature.kind name param])
          ++ [(.semicolon, ";")]) := ⟨_, rfl⟩
  obtain ⟨indent, hsplit⟩ := hsplit
  refine ⟨fun m => ?_, fun m entries hfaces => ?_⟩
  · rw [hsplit, Margin.behind_append, Margin.behind_append]
    rfl
  · have hleaves := m.faces_leaves entries
    rw [hfaces, hsplit, Margin.faces_append] at hleaves
    exact call_line doc.newline hleaves

/-! ## §4. Around a token -/

/-- **The lines of kernel definitions** are made one by one. -/
theorem kernelLines_eq (doc : Document) (mark : NodeId → Option NodeId)
    (line : Declared → NodeId → String → String → Spelling)
    (uses : List (Declared × Occurrence)) (id : TokenId) :
    ∃ lines : List Spelling, kernelLines doc mark line uses id = lines.flatten
      ∧ ∀ l ∈ lines, ∃ type function name param, l = line type function name param := by
  unfold kernelLines
  split
  · induction uses with
    | nil => exact ⟨[], rfl, by simp⟩
    | cons u uses ih =>
      obtain ⟨lines, hlines, hall⟩ := ih
      obtain ⟨type, use⟩ := u
      rw [List.flatMap_cons, hlines]
      dsimp only
      split
      · rename_i function name param _
        split
        · exact ⟨line type function name param :: lines, rfl,
            List.forall_mem_cons.mpr ⟨⟨type, function, name, param, rfl⟩, hall⟩⟩
        · exact ⟨lines, rfl, hall⟩
      · exact ⟨lines, rfl, hall⟩
  · exact ⟨[], rfl, by simp⟩

/-- **What is put before a token** is lines. -/
theorem lead_lines (doc : Document) (types : List Declared) (id : TokenId) :
    Lines (final doc types id).lead := by
  refine Lines.append
    (Lines.append ?_ (Lines.flatMap fun type _ => (type_isLine doc type).lines)) ?_
  · unfold includeLine
    split
    · exact (include_isLine doc).lines
    · exact .nil
  · obtain ⟨lines, hlines, hall⟩ := kernelLines_eq doc some (globalLine doc) (uses types) id
    refine ⟨lines, hlines, fun l hl => ?_⟩
    obtain ⟨type, function, name, param, rfl⟩ := hall l hl
    exact global_isLine doc type function name param

/-- **What is put behind a token** is calls. -/
theorem trail_bindings (doc : Document) (types : List Declared) (id : TokenId) :
    Bindings (final doc types id).trail := by
  obtain ⟨lines, hlines, hall⟩ :=
    kernelLines_eq doc (Outline.functionBody? doc.tree) (bindLine doc) (uses types) id
  refine ⟨lines, hlines, fun l hl => ?_⟩
  obtain ⟨type, function, name, param, rfl⟩ := hall l hl
  exact bind_isBinding doc type function name param

/-- What stands for a use leaves no line end. -/
theorem behind_replacement (doc : Document) (type : Declared) (use : Occurrence) (m : Margin) :
    m.behind (replacement doc type use) = .start := by
  unfold replacement
  split
  · rename_i param _ _
    obtain ⟨-, -, -, -, hbehind⟩ := Piece.call_faces m doc.newline
      (doc.config.vocabulary.paramWord type.signature.kind type.signature.mode)
      [toString type.signature.dims.toNat, param.text]
    rw [← hbehind]
    unfold spelled
    rw [List.flatMap_singleton]
  · rfl

end Weave

end KernelPrep
