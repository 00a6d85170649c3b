/-
  KernelPrep.Proofs.Texture.Kept — a lowered file without the lines for kernels.

  The lines of variables and bindings are put in while uses are lowered, between the lines that
  define types and the tokens of the file.  Each line has a node of its own, and what stands
  before a token is the lines before it, one after the other.  Taking out the nodes that define
  no type leaves the lines that do and what stands in place of the tokens.

  Main definitions:
    * `Spelling.IsLine`        — tokens that end a line and no other;
    * `Lowering.kernelNodes`   — the nodes of variables and bindings;
    * `Lowering.kept`          — the tokens outside of them;
    * `Lowering.Sewn`          — a finished state with its strands and runs.

  Main statements:
    * `Spelling.lines_unique`  — a text falls into lines in one way;
    * `Lowering.Sewn.front_lines` — the lines before a token, one run each;
    * `Lowering.Sewn.kept_eq`  — what is kept.
-/
import KernelPrep.Proofs.Texture.DefinedFirst

namespace KernelPrep

open Strand (lay)

/-! ## §1. Lines -/

namespace Spelling

/-- Some tokens that end no line, and one that does. -/
structure IsLine (line : Spelling) : Prop where
  split : ∃ body eol, line = body ++ [eol] ∧ body ≠ [] ∧ eol.1 = .eol
    ∧ ∀ entry ∈ body, entry.1 ≠ .eol

/-- **Lines one after the other** are told apart by their ends, even from spellings that begin
    with the end of a line. -/
theorem lines_unique {lines lines' : List Spelling}
    (h : ∀ line ∈ lines, line.IsLine ∨ ∃ entry, line.head? = some entry ∧ entry.1 = .eol)
    (h' : ∀ line ∈ lines', line.IsLine) (he : lines.flatten = lines'.flatten) :
    lines = lines' := by
  -- a line is what comes before the first line end
  have hbody : ∀ {body rest : Spelling} {eol : TokenKind × String}, eol.1 = .eol →
      (∀ entry ∈ body, entry.1 ≠ .eol) → (body ++ eol :: rest).takeWhile (·.1 != .eol) = body := by
    intro body rest eol heol hall
    rw [List.takeWhile_append_of_pos fun entry hentry => by simpa using hall entry hentry,
      List.takeWhile_cons_of_neg (by simp [heol]), List.append_nil]
  induction lines generalizing lines' with
  | nil =>
    cases lines' with
    | nil => rfl
    | cons line' rest' =>
      obtain ⟨body, eol, rfl, -⟩ := (h' line' List.mem_cons_self).split
      simp at he
  | cons line rest ih =>
    cases lines' with
    | nil =>
      rw [List.flatten_cons, List.flatten_nil, List.append_eq_nil_iff] at he
      rcases h line List.mem_cons_self with hline | ⟨entry, hhead, -⟩
      · obtain ⟨body, eol, rfl, -⟩ := hline.split
        simp at he
      · simp [he.1] at hhead
    | cons line' rest' =>
      obtain ⟨body', eol', rfl, hne', heol', hall'⟩ := (h' line' List.mem_cons_self).split
      rw [List.flatten_cons, List.flatten_cons, List.append_assoc, List.singleton_append] at he
      rcases h line List.mem_cons_self with hline | ⟨entry, hhead, heol⟩
      · obtain ⟨body, eol, rfl, -, heol, hall⟩ := hline.split
        rw [List.append_assoc, List.singleton_append] at he
        -- both begin with the same line
        have hsame : body = body' := by
          rw [← hbody heol hall, he, hbody heol' hall']
        subst hsame
        obtain ⟨rfl, hrest⟩ := List.cons.inj (List.append_cancel_left he)
        rw [ih (fun line hline => h line (List.mem_cons_of_mem _ hline))
          (fun line hline => h' line (List.mem_cons_of_mem _ hline)) hrest]
      · -- the other spelling does not begin with the end of a line
        obtain ⟨first, body', rfl⟩ := List.exists_cons_of_ne_nil hne'
        obtain ⟨more, rfl⟩ := List.head?_eq_some_iff.mp hhead
        rw [List.cons_append, List.cons_append] at he
        rw [(List.cons.inj he).1] at heol
        exact absurd heol (hall' first List.mem_cons_self)

end Spelling

namespace Piece

/-- The kinds of tokens in a name with arguments. -/
theorem kind_of_call {eol name : String} {args : List String} {entry : TokenKind × String}
    (h : entry ∈ (call name args).spell eol) :
    entry.1 ∈ [.symbol, .number, .whitespace, .comma, .lparen, .rparen] := by
  have hword : ∀ word : String, (spellWord word).1 = .symbol ∨ (spellWord word).1 = .number := by
    intro word
    unfold spellWord
    split <;> simp
  rcases List.mem_append.mp h with h | h
  · rcases List.mem_cons.mp h with rfl | h
    · simp
    · rcases List.mem_cons.mp h with rfl | h
      · simp
      -- an argument is words with blanks between, and the arguments have commas
      · unfold spellArgs List.intercalate at h
        obtain ⟨tokens, htokens, hin⟩ := List.mem_flatten.mp h
        rcases mem_intersperse htokens with hmem | rfl
        · obtain ⟨arg, -, rfl⟩ := List.mem_map.mp hmem
          rcases mem_intersperse hin with hin | rfl
          · obtain ⟨word, -, rfl⟩ := List.mem_map.mp hin
            rcases hword word with he | he <;> simp [he]
          · simp
        · simp only [List.mem_cons, List.not_mem_nil, or_false] at hin
          rcases hin with rfl | rfl <;> simp
  · rw [List.mem_singleton.mp h]
    simp

end Piece

namespace Weave

variable {doc : Document}

/-- The declaration of a type is a line. -/
theorem typeLine_isLine (doc : Document) (type : Declared) : (typeLine doc type).IsLine := by
  have hline : typeLine doc type = (.typedef, "typedef") :: (.whitespace, " ")
      :: ((Piece.call (doc.config.vocabulary.typeWord type.signature.kind)
          (typeArgs doc type)).spell doc.newline
        ++ [(.whitespace, " "), (.symbol, type.name), (.semicolon, ";")])
      ++ [(.eol, doc.newline)] := by
    rw [typeLine_eq, List.cons_append, List.cons_append, List.append_assoc]
    rfl
  refine ⟨_, _, hline, by simp, rfl, fun entry hentry => ?_⟩
  rcases List.mem_cons.mp hentry with rfl | hentry
  · simp
  · rcases List.mem_cons.mp hentry with rfl | hentry
    · simp
    · rcases List.mem_append.mp hentry with hentry | hentry
      · have hkind := Piece.kind_of_call hentry
        rintro he
        simp [he] at hkind
      · rintro he
        simp only [List.mem_cons, List.not_mem_nil, or_false] at hentry
        rcases hentry with rfl | rfl | rfl <;> simp at he

/-- The declaration of a variable is a line. -/
theorem globalLine_isLine (doc : Document) (type : Declared) (function : NodeId)
    (name param : String) : (globalLine doc type function name param).IsLine := by
  refine ⟨(Piece.call (doc.config.vocabulary.globalWord type.signature.kind)
    [type.name, Lowering.globalName type.signature.kind name param]).spell doc.newline
      ++ [(.semicolon, ";")], (.eol, doc.newline), ?_, by simp, rfl, fun entry hentry => ?_⟩
  · unfold globalLine spelled
    simp only [List.flatMap_cons, List.flatMap_nil, List.append_nil, List.append_assoc]
    rfl
  · rcases List.mem_append.mp hentry with hentry | hentry
    · have hkind := Piece.kind_of_call hentry
      rintro he
      simp [he] at hkind
    · rw [List.mem_singleton.mp hentry]
      simp

/-- The line of a binding begins with the end of a line and defines nothing. -/
theorem bindLine_kinds (doc : Document) (type : Declared) (function : NodeId)
    (name param : String) :
    (bindLine doc type function name param).head? = some (.eol, doc.newline)
      ∧ ∀ entry ∈ bindLine doc type function name param, entry.1 ≠ .typedef := by
  refine ⟨rfl, fun entry hentry => ?_⟩
  obtain ⟨piece, hpiece, hentry⟩ := List.mem_flatMap.mp hentry
  simp only [List.mem_cons, List.not_mem_nil, or_false] at hpiece
  rcases hpiece with rfl | rfl | rfl | rfl
  · rw [List.mem_singleton.mp hentry]
    simp
  · rw [List.mem_singleton.mp hentry]
    simp
  · have hkind := Piece.kind_of_call hentry
    rintro he
    simp [he] at hkind
  · rw [List.mem_singleton.mp hentry]
    simp

end Weave

/-! ## §2. Nodes and runs -/

/-- The tokens that a node stands on. -/
def Document.nodeTokens (doc : Document) (node : NodeId) : List TokenId :=
  ((doc.tree.tokens? node).map doc.tokens.range).getD []

/-- Of lists in which nothing stands twice, one has the element. -/
theorem eq_of_nodup_flatMap {α β : Type} {f : α → List β} {items : List α}
    (h : (items.flatMap f).Nodup) {a b : α} (ha : a ∈ items) (hb : b ∈ items) {x : β}
    (hxa : x ∈ f a) (hxb : x ∈ f b) : a = b := by
  have hsymm : Std.Symm (Function.onFun List.Disjoint f) := 
    ⟨fun _ _ hd _ ha hb => hd hb ha⟩
  by_contra hne
  exact (List.nodup_flatMap.mp h).2.forall ha hb hne hxa hxb

/-- A strand stands in the file. -/
theorem Strand.infix_lay {strand : TokenId → Strand} {file : List TokenId} {t : TokenId}
    (ht : t ∈ file) : (strand t).ids <:+: lay strand file := by
  obtain ⟨a, b, rfl⟩ := List.append_of_mem ht
  refine ⟨lay strand a, lay strand b, ?_⟩
  rw [Strand.lay_append, Strand.lay_cons, List.append_assoc]

/-- A token is in the strand of one token of the file. -/
theorem Laid.strand_unique {list₀ list : TokenList} {strand : TokenId → Strand}
    (h : Laid list₀ list strand) {t t' x : TokenId} (ht : t ∈ list₀.ids) (ht' : t' ∈ list₀.ids)
    (hx : x ∈ (strand t).ids) (hx' : x ∈ (strand t').ids) : t = t' :=
  eq_of_nodup_flatMap h.threaded.nodup ht ht' hx hx'

/-- Around a token and in its place no token stands twice. -/
theorem Laid.nodup_strand {list₀ list : TokenList} {strand : TokenId → Strand}
    (h : Laid list₀ list strand) {t : TokenId} (ht : t ∈ list₀.ids) : (strand t).ids.Nodup :=
  (List.nodup_flatMap.mp h.threaded.nodup).1 t ht

namespace Seams

variable {doc₀ doc : Document} {strand : TokenId → Strand} {labels : List Spelling}
  {run : Nat → List TokenId} {front back : TokenId → List Nat} {k k' : Nat} {t x : TokenId}

/-- Around each token stand runs in order. -/
theorem around (h : Seams doc₀ doc strand labels run front back) (ht : t ∈ doc₀.tokens.ids) :
    (strand t).lead ++ (strand t).trail = (front t ++ back t).flatMap run := by
  rw [h.lead t ht, h.trail t ht, List.flatMap_append]

theorem exists_mem (h : Seams doc₀ doc strand labels run front back) (hk : k < labels.length)
    (hx : x ∈ run k) : ∃ t ∈ doc₀.tokens.ids, k ∈ front t ++ back t
      ∧ x ∈ (strand t).lead ++ (strand t).trail := by
  obtain ⟨t, ht, hin⟩ := h.all k hk
  exact ⟨t, ht, hin, h.mem_strand ht hin hx⟩

/-- A run stands in the file. -/
theorem run_infix (h : Seams doc₀ doc strand labels run front back) (hk : k < labels.length) :
    run k <:+: lay strand doc₀.tokens.ids := by
  obtain ⟨t, ht, hin⟩ := h.all k hk
  have hpart : ∀ {ks : List Nat}, k ∈ ks → run k <:+: ks.flatMap run := by
    intro ks hks
    obtain ⟨a, b, rfl⟩ := List.append_of_mem hks
    exact ⟨a.flatMap run, b.flatMap run, by simp⟩
  have hstrand : run k <:+: (strand t).ids := by
    unfold Strand.ids
    rw [h.lead t ht, h.trail t ht]
    rcases List.mem_append.mp hin with hin | hin
    · exact (hpart hin).trans ((List.prefix_append _ _).trans (List.prefix_append _ _)).isInfix
    · exact (hpart hin).trans (List.suffix_append _ _).isInfix
  exact hstrand.trans (Strand.infix_lay ht)

/-- **A node** stands on its run. -/
theorem nodeTokens_eq (h : Seams doc₀ doc strand labels run front back)
    (hlaid : Laid doc₀.tokens doc.tokens strand) (hk : k < labels.length) :
    doc.nodeTokens ⟨doc₀.tree.nodes.size + k⟩ = run k := by
  obtain ⟨range, hrange, hends, -⟩ := h.each k _ (List.getElem?_eq_getElem hk)
  obtain ⟨before, after, hfile⟩ := h.run_infix hk
  have hthreaded := hlaid.threaded
  rw [← hfile] at hthreaded
  unfold Document.nodeTokens
  rw [hrange]
  exact hthreaded.range_eq hends.1 hends.2

/-- A token is in one run at most. -/
theorem index_unique (h : Seams doc₀ doc strand labels run front back)
    (hlaid : Laid doc₀.tokens doc.tokens strand) (hk : k < labels.length)
    (hk' : k' < labels.length) (hx : x ∈ run k) (hx' : x ∈ run k') : k = k' := by
  have hids : ∀ {t}, x ∈ (strand t).lead ++ (strand t).trail → x ∈ (strand t).ids := by
    intro t hin
    unfold Strand.ids
    rcases List.mem_append.mp hin with hin | hin
    · exact List.mem_append_left _ (List.mem_append_left _ hin)
    · exact List.mem_append_right _ hin
  obtain ⟨t, ht, hin, hmem⟩ := h.exists_mem hk hx
  obtain ⟨t', ht', hin', hmem'⟩ := h.exists_mem hk' hx'
  obtain rfl := hlaid.strand_unique ht ht' (hids hmem) (hids hmem')
  have hnodup : ((front t ++ back t).flatMap run).Nodup := by
    rw [← h.around ht]
    have hstrand := hlaid.nodup_strand ht
    unfold Strand.ids at hstrand
    exact hstrand.sublist ((List.sublist_append_left _ _).append (List.Sublist.refl _))
  exact eq_of_nodup_flatMap hnodup hin hin' hx hx'

/-- What stands in place of a token is in no run. -/
theorem core_outside (h : Seams doc₀ doc strand labels run front back)
    (hlaid : Laid doc₀.tokens doc.tokens strand) (ht : t ∈ doc₀.tokens.ids)
    (hx : x ∈ (strand t).core) (hk : k < labels.length) : x ∉ run k := by
  intro hin
  obtain ⟨t', ht', -, hmem⟩ := h.exists_mem hk hin
  have hstrand := hlaid.nodup_strand ht'
  unfold Strand.ids at hstrand
  have hids : x ∈ (strand t').ids := by
    unfold Strand.ids
    rcases List.mem_append.mp hmem with hmem | hmem
    · exact List.mem_append_left _ (List.mem_append_left _ hmem)
    · exact List.mem_append_right _ hmem
  obtain rfl := hlaid.strand_unique ht ht' (by simp [Strand.ids, hx]) hids
  rw [List.nodup_append] at hstrand
  obtain ⟨hfront, -, hbehind⟩ := hstrand
  rcases List.mem_append.mp hmem with hmem | hmem
  · exact (List.nodup_append.mp hfront).2.2 x hmem x hx rfl
  · exact hbehind x (List.mem_append_right _ hx) x hmem rfl

end Seams

/-! ## §3. What is kept -/

namespace Lowering

open Weave (Declared Part)

/-- The nodes put in that define no type: those of variables and bindings. -/
def kernelNodes (state : Lowering) : List NodeId :=
  state.document.tree.preOrder.filter fun node =>
    state.document.tree.kind? node == some .userTokens
      && !(state.types.map (·.declaration)).contains node

/-- The tokens of the file that are in none of these nodes. -/
def kept (state : Lowering) : List TokenId :=
  state.document.tokens.ids.filter fun x =>
    !state.kernelNodes.any fun node => (state.document.nodeTokens node).contains x

/-- A finished state with the strands of its file and the runs of its nodes. -/
structure Sewn [ContentHash] (doc : Document) (found : List Occurrence) (types : List Declared)
    (state : Lowering) (strand : TokenId → Strand) (run : Nat → List TokenId)
    (front back : TokenId → List Nat) : Prop where
  finished : Finished doc found types state
  woven : Woven doc state.document strand (Weave.weft doc (fun _ => []) types (Weave.uses types))
  seams : Seams doc state.document strand (Weave.labels doc [] types (Weave.uses types)) run
    front back

theorem Finished.exists_sewn [ContentHash] {doc : Document} {found : List Occurrence}
    {types : List Declared}
    {state : Lowering} (h : Finished doc found types state) :
    ∃ strand run front back, Sewn doc found types state strand run front back := by
  obtain ⟨strand, hwoven, -, hlabelled⟩ := h.stage.fabric
  obtain ⟨run, front, back, hseams⟩ := hlabelled.seams
  exact ⟨strand, run, front, back, h, hwoven, hseams⟩

namespace Sewn

variable {doc : Document} {found : List Occurrence} {types : List Declared} {state : Lowering}
  {strand : TokenId → Strand} {run : Nat → List TokenId} {front back : TokenId → List Nat}
  {k : Nat} {t x : TokenId}

/-- The line of the node with the number. -/
def label (doc : Document) (types : List Declared) (k : Nat) : Spelling :=
  ((Weave.labels doc [] types (Weave.uses types))[k]?).getD []

/-- **The first lines** define the types, and the others are for kernels. -/
theorem label_cases (hk : k < (Weave.labels doc [] types (Weave.uses types)).length) :
    (k < types.length ∧ ∃ type ∈ types, label doc types k = Weave.typeLine doc type)
      ∨ types.length ≤ k ∧ ∃ type function name param,
        label doc types k = Weave.globalLine doc type function name param
          ∨ label doc types k = Weave.bindLine doc type function name param := by
  have hlabels : Weave.labels doc [] types (Weave.uses types)
      = types.map (Weave.typeLine doc) ++ (Weave.uses types).flatMap (Weave.useLines doc) := rfl
  have hlabel : label doc types k
      = ((types.map (Weave.typeLine doc)
        ++ (Weave.uses types).flatMap (Weave.useLines doc))[k]?).getD [] := rfl
  -- the labels of the types come first, then those of the uses
  by_cases hlt : k < types.length
  · refine Or.inl ⟨hlt, types[k], List.getElem_mem hlt, ?_⟩
    rw [hlabel, List.getElem?_append_left (by simpa using hlt), List.getElem?_map,
      List.getElem?_eq_getElem hlt]
    rfl
  · refine Or.inr ⟨Nat.le_of_not_lt hlt, ?_⟩
    have hmem : label doc types k ∈ (Weave.uses types).flatMap (Weave.useLines doc) := by
      rw [hlabels, List.length_append, List.length_map] at hk
      rw [hlabel, List.getElem?_append_right (by simpa using hlt), List.length_map,
        List.getElem?_eq_getElem (by omega)]
      exact List.getElem_mem _
    obtain ⟨u, -, hline⟩ := List.mem_flatMap.mp hmem
    unfold Weave.useLines at hline
    split at hline
    · rename_i function name param _
      split at hline
      · simp only [List.mem_cons, List.not_mem_nil, or_false] at hline
        exact ⟨u.1, function, name, param, hline⟩
      · simp at hline
    · simp at hline

/-- The run of a node spells its line. -/
theorem spells_run [ContentHash] (h : Sewn doc found types state strand run front back)
    (hk : k < (Weave.labels doc [] types (Weave.uses types)).length) :
    state.document.tokens.spells (run k) = label doc types k := by
  have hget := List.getElem?_eq_getElem hk
  obtain ⟨-, -, -, hspells⟩ := h.seams.each k _ hget
  unfold label
  rw [hspells, hget]
  rfl

theorem spells_runs [ContentHash] (h : Sewn doc found types state strand run front back)
    {ks : List Nat}
    (hks : ∀ k ∈ ks, k < (Weave.labels doc [] types (Weave.uses types)).length) :
    state.document.tokens.spells (ks.flatMap run) = (ks.map (label doc types)).flatten := by
  unfold TokenList.spells
  rw [List.filterMap_flatMap, ← List.flatMap_def]
  exact List.flatMap_congr fun k hk => h.spells_run (hks k hk)

theorem bound [ContentHash] (h : Sewn doc found types state strand run front back)
    (ht : t ∈ doc.tokens.ids) :
    (∀ k ∈ front t, k < (Weave.labels doc [] types (Weave.uses types)).length)
      ∧ ∀ k ∈ back t, k < (Weave.labels doc [] types (Weave.uses types)).length :=
  ⟨fun k hk => h.seams.bound t ht k (List.mem_append_left _ hk),
    fun k hk => h.seams.bound t ht k (List.mem_append_right _ hk)⟩

/-- **The lines before a token**, one run each. -/
theorem front_lines [ContentHash] (h : Sewn doc found types state strand run front back)
    (ht : t ∈ doc.tokens.ids) :
    (front t).map (label doc types)
      = (Weave.leadParts doc types t).map (Part.spelling doc) := by
  have hbound := (h.bound ht).1
  have hspells : ((front t).map (label doc types)).flatten
      = ((Weave.leadParts doc types t).map (Part.spelling doc)).flatten := by
    rw [← h.spells_runs hbound, ← h.seams.lead t ht, (h.woven.reads t ht).lead,
      ← List.flatMap_def, Weave.spelling_leadParts]
    rfl
  -- rows of lines that are spelled alike as a whole are the same lines
  refine Spelling.lines_unique ?_ ?_ hspells
  · intro line hline
    obtain ⟨k, hk, rfl⟩ := List.mem_map.mp hline
    rcases label_cases (hbound k hk) with
      ⟨-, type, -, he⟩ | ⟨-, type, function, name, param, he | he⟩
    · rw [he]
      exact Or.inl (Weave.typeLine_isLine doc type)
    · rw [he]
      exact Or.inl (Weave.globalLine_isLine doc type function name param)
    · rw [he]
      exact Or.inr ⟨_, (Weave.bindLine_kinds doc type function name param).1, rfl⟩
  · intro line hline
    obtain ⟨part, hpart, rfl⟩ := List.mem_map.mp hline
    rcases List.mem_append.mp hpart with hpart | hpart
    · obtain ⟨type, -, rfl⟩ := List.mem_map.mp hpart
      exact Weave.typeLine_isLine doc type
    · obtain ⟨-, u, -, function, name, param, -, -, rfl⟩ := Weave.mem_kernelParts.mp hpart
      exact Weave.globalLine_isLine doc u.1 function name param

/-- Of the lines before a token, those that define types come from the first nodes. -/
theorem front_types [ContentHash] (h : Sewn doc found types state strand run front back)
    (ht : t ∈ doc.tokens.ids) :
    ((front t).filter (· < types.length)).map (label doc types)
      = (Weave.typesAt doc types t).map (Weave.typeLine doc) := by
  have hbound := (h.bound ht).1
  -- the line of a type is told from the others by the word it begins with
  let defines : Spelling → Bool := fun line => line.head?.any (·.1 == .typedef)
  have htype : ∀ type, defines (Weave.typeLine doc type) = true := fun _ => rfl
  have hglobal : ∀ type function name param,
      defines (Weave.globalLine doc type function name param) = false := fun _ _ _ _ => rfl
  have hbind : ∀ type function name param,
      defines (Weave.bindLine doc type function name param) = false := fun _ _ _ _ => rfl
  have hfront : ((front t).filter (· < types.length)).map (label doc types)
      = ((front t).map (label doc types)).filter defines := by
    rw [List.filter_map]
    refine congrArg (List.map _) (List.filter_congr fun k hk => ?_)
    rcases label_cases (hbound k hk) with
      ⟨hlt, type, -, he⟩ | ⟨hge, type, function, name, param, he | he⟩
    · rw [Function.comp_apply, he, htype]
      exact decide_eq_true hlt
    · rw [Function.comp_apply, he, hglobal]
      exact decide_eq_false (Nat.not_lt_of_le hge)
    · rw [Function.comp_apply, he, hbind]
      exact decide_eq_false (Nat.not_lt_of_le hge)
  have hkernel : ((Weave.kernelParts doc some Part.global (Weave.uses types) t).map
      (Part.spelling doc)).filter defines = [] := by
    refine List.filter_eq_nil_iff.mpr fun line hline => ?_
    obtain ⟨part, hpart, rfl⟩ := List.mem_map.mp hline
    obtain ⟨-, u, -, function, name, param, -, -, rfl⟩ := Weave.mem_kernelParts.mp hpart
    exact Bool.eq_false_iff.mp (hglobal u.1 function name param)
  have htypes : (((Weave.typesAt doc types t).map Part.definition).map
      (Part.spelling doc)).filter defines
        = (Weave.typesAt doc types t).map (Weave.typeLine doc) := by
    rw [List.map_map]
    refine List.filter_eq_self.mpr fun line hline => ?_
    obtain ⟨type, -, rfl⟩ := List.mem_map.mp hline
    exact htype type
  rw [hfront, h.front_lines ht]
  unfold Weave.leadParts
  rw [List.map_append, List.filter_append, hkernel, htypes, List.append_nil]

/-- Behind a token are lines for kernels only. -/
theorem back_kernels [ContentHash] (h : Sewn doc found types state strand run front back)
    (ht : t ∈ doc.tokens.ids) (hk : k ∈ back t) : types.length ≤ k := by
  have hbound := (h.bound ht).2
  rcases label_cases (hbound k hk) with ⟨-, type, -, he⟩ | ⟨hge, -⟩
  · -- a line that defines a type begins with a word that no binding has
    exfalso
    have hin : (TokenKind.typedef, "typedef") ∈ state.document.tokens.spells (strand t).trail := by
      rw [h.seams.trail t ht, h.spells_runs hbound]
      refine List.mem_flatten.mpr ⟨_, List.mem_map_of_mem hk, ?_⟩
      rw [he]
      exact List.mem_cons_self
    rw [(h.woven.reads t ht).trail] at hin
    replace hin : (TokenKind.typedef, "typedef")
        ∈ (Weave.trailParts doc types t).flatMap (Part.spelling doc) := by
      rw [Weave.spelling_trailParts]
      exact hin
    obtain ⟨part, hpart, hentry⟩ := List.mem_flatMap.mp hin
    obtain ⟨-, u, -, function, name, param, -, -, rfl⟩ := Weave.mem_kernelParts.mp hpart
    exact (Weave.bindLine_kinds doc u.1 function name param).2 _ hentry rfl
  · exact hge

/-- The nodes for kernels are those numbered behind the nodes of the types. -/
theorem mem_kernelNodes [ContentHash] (h : Sewn doc found types state strand run front back)
    {node : NodeId} :
    node ∈ state.kernelNodes ↔ ∃ k < (Weave.labels doc [] types (Weave.uses types)).length,
      types.length ≤ k ∧ node = ⟨doc.tree.nodes.size + k⟩ := by
  -- the first lines are those of the types, and are their declarations
  have hdeclared : ∀ k, (⟨doc.tree.nodes.size + k⟩ : NodeId) ∈ state.types.map (·.declaration)
      ↔ k < types.length := by
    intro k
    rw [h.finished.stage.declarations]
    simp
  unfold kernelNodes
  rw [List.mem_filter, Bool.and_eq_true, beq_iff_eq, ← and_assoc,
    h.finished.stage.fabric.mem_preOrder h.finished.grouped.loaded]
  constructor
  · rintro ⟨⟨k, hk, rfl⟩, hnot⟩
    refine ⟨k, hk, ?_, rfl⟩
    by_contra hlt
    simp [(hdeclared k).mpr (Nat.lt_of_not_le hlt)] at hnot
  · rintro ⟨k, hk, hge, rfl⟩
    refine ⟨⟨k, hk, rfl⟩, ?_⟩
    have hnot : (⟨doc.tree.nodes.size + k⟩ : NodeId) ∉ state.types.map (·.declaration) := by
      rw [hdeclared]
      omega
    simpa using hnot

/-- Of the tokens of runs, those of the first nodes are kept. -/
theorem kept_run [ContentHash] (h : Sewn doc found types state strand run front back)
    (hk : k < (Weave.labels doc [] types (Weave.uses types)).length) (hx : x ∈ run k) :
    (!state.kernelNodes.any fun node => (state.document.nodeTokens node).contains x)
      = decide (k < types.length) := by
  rw [Bool.eq_iff_iff, Bool.not_eq_true', List.any_eq_false, decide_eq_true_eq]
  constructor
  · intro hnone
    by_contra hge
    refine hnone _ (h.mem_kernelNodes.mpr ⟨k, hk, Nat.le_of_not_lt hge, rfl⟩) ?_
    rw [h.seams.nodeTokens_eq h.woven.laid hk]
    simpa using hx
  · intro hlt node hnode
    obtain ⟨k', hk', hge, rfl⟩ := h.mem_kernelNodes.mp hnode
    rw [h.seams.nodeTokens_eq h.woven.laid hk']
    intro hin
    have he := h.seams.index_unique h.woven.laid hk hk' hx (by simpa using hin)
    omega

/-- What stands in place of tokens is kept. -/
theorem kept_core [ContentHash] (h : Sewn doc found types state strand run front back)
    (ht : t ∈ doc.tokens.ids) (hx : x ∈ (strand t).core) :
    (!state.kernelNodes.any fun node => (state.document.nodeTokens node).contains x) = true := by
  rw [Bool.not_eq_true', List.any_eq_false]
  intro node hnode
  obtain ⟨k, hk, -, rfl⟩ := h.mem_kernelNodes.mp hnode
  rw [h.seams.nodeTokens_eq h.woven.laid hk]
  simpa using h.seams.core_outside h.woven.laid ht hx hk

/-- **What is kept** are the lines that define types and what stands in place of the tokens. -/
theorem kept_eq [ContentHash] (h : Sewn doc found types state strand run front back) :
    state.kept = doc.tokens.ids.flatMap fun t =>
      ((front t).filter (· < types.length)).flatMap run ++ (strand t).core := by
  -- the tokens of some runs
  have hruns : ∀ ks : List Nat,
      (∀ k ∈ ks, k < (Weave.labels doc [] types (Weave.uses types)).length) →
      (ks.flatMap run).filter (fun x => !state.kernelNodes.any fun node =>
        (state.document.nodeTokens node).contains x)
          = (ks.filter (· < types.length)).flatMap run := by
    intro ks hks
    induction ks with
    | nil => rfl
    | cons k rest ih =>
      have hk := hks k List.mem_cons_self
      rw [List.flatMap_cons, List.filter_append, ih fun k hk => hks k (List.mem_cons_of_mem _ hk)]
      by_cases hlt : k < types.length
      · rw [List.filter_cons_of_pos (by simpa using hlt), List.flatMap_cons,
          List.filter_eq_self.mpr fun x hx => (h.kept_run hk hx).trans (decide_eq_true hlt)]
      · rw [List.filter_cons_of_neg (by simpa using hlt), List.filter_eq_nil_iff.mpr fun x hx => by
          rw [h.kept_run hk hx]
          simpa using hlt, List.nil_append]
  unfold kept
  rw [h.woven.laid.threaded.ids_eq]
  unfold lay
  rw [List.filter_flatMap]
  refine List.flatMap_congr fun t ht => ?_
  have htrail : (back t).filter (· < types.length) = [] :=
    List.filter_eq_nil_iff.mpr fun k hk => by
      simpa using h.back_kernels ht hk
  unfold Strand.ids
  rw [List.filter_append, List.filter_append, h.seams.lead t ht, h.seams.trail t ht,
    hruns _ (h.bound ht).1, hruns _ (h.bound ht).2, htrail, List.flatMap_nil, List.append_nil,
    List.filter_eq_self.mpr fun x hx => h.kept_core ht hx]

end Sewn

end Lowering

end KernelPrep
