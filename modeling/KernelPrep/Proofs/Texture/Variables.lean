/-
  KernelPrep.Proofs.Texture.Variables — the variables that stand for kernel parameters.

  Where the platform needs it, each texture parameter of a kernel definition gets a variable at
  file scope.  The name of the variable joins the name of the function and that of the parameter
  with an underscore.  Both names may hold underscores themselves, so the parts cannot always be
  told from the whole: parameters of the same kind share a name exactly when what one function
  name has more than the other is missing from its parameter name.  Nothing else keeps them
  apart: the file then declares the name once for each of them, and the table lists it as often.

  Main definitions:
    * `Lowering.JoinedAlike`  — two pairs of names with the same joined name;
    * `Document.declaresVar`  — the lines that declare a variable;
    * `Lowering.Variables`    — what is known of the variables of a file.

  Main statements:
    * `Lowering.globalName_eq_iff` — which parameters share a variable;
    * `Fabric.spellings_perm`      — the lines put in, by their nodes;
    * `Lowering.run_variables`     — the variables of a file.
-/
import KernelPrep.Proofs.Texture.KernelTable

namespace KernelPrep

open Weave (Declared)

/-! ## §1. Joined names -/

/-- Two lists are split at the same letter: at the same place, or one behind the other. -/
theorem append_cons_eq_iff {α : Type} {x y x' y' : List α} {c : α} :
    x ++ c :: y = x' ++ c :: y'
      ↔ (x = x' ∧ y = y') ∨ (∃ m, x' = x ++ c :: m ∧ y = m ++ c :: y')
        ∨ ∃ m, x = x' ++ c :: m ∧ y' = m ++ c :: y := by
  rw [List.append_eq_append_iff]
  constructor
  · rintro (⟨t, ht, htail⟩ | ⟨t, ht, htail⟩)
    · rcases List.cons_eq_append_iff.mp htail with ⟨rfl, he⟩ | ⟨m, rfl, he⟩
      · simp only [List.cons.injEq, true_and] at he
        exact Or.inl ⟨by simpa using ht.symm, he.symm⟩
      · exact Or.inr (Or.inl ⟨m, ht, he⟩)
    · rcases List.cons_eq_append_iff.mp htail with ⟨rfl, he⟩ | ⟨m, rfl, he⟩
      · simp only [List.cons.injEq, true_and] at he
        exact Or.inl ⟨by simpa using ht, he⟩
      · exact Or.inr (Or.inr ⟨m, ht, he⟩)
  · rintro (⟨rfl, rfl⟩ | ⟨m, rfl, rfl⟩ | ⟨m, rfl, rfl⟩)
    · exact Or.inl ⟨[], by simp, rfl⟩
    · exact Or.inl ⟨c :: m, rfl, rfl⟩
    · exact Or.inr ⟨c :: m, rfl, rfl⟩

namespace Lowering

/-- The pairs are the same, or what the one function name has more than the other stands at the
    start of the other parameter name. -/
def JoinedAlike (function param function' param' : String) : Prop :=
  (function = function' ∧ param = param')
    ∨ (∃ middle, function' = function ++ "_" ++ middle ∧ param = middle ++ "_" ++ param')
    ∨ ∃ middle, function = function' ++ "_" ++ middle ∧ param' = middle ++ "_" ++ param

/-- Two pairs of names are joined alike when they spell the same with an underscore between. -/
theorem joinedAlike_iff {function param function' param' : String} :
    JoinedAlike function param function' param'
      ↔ function ++ "_" ++ param = function' ++ "_" ++ param' := by
  -- a text is known by its letters
  have hexists : ∀ {P : List Char → Prop}, (∃ m : String, P m.toList) ↔ ∃ m, P m := by
    intro P
    exact ⟨fun ⟨m, hm⟩ => ⟨_, hm⟩, fun ⟨m, hm⟩ => ⟨String.ofList m, by rwa [String.toList_ofList]⟩⟩
  have hbar : "_".toList = ['_'] := by decide
  unfold JoinedAlike
  simp only [← String.toList_inj, String.toList_append, hbar, List.append_assoc,
    List.singleton_append, append_cons_eq_iff]
  refine or_congr Iff.rfl (or_congr ?_ ?_)
  · exact hexists (P := fun m => function'.toList = function.toList ++ '_' :: m
      ∧ param.toList = m ++ '_' :: param'.toList)
  · exact hexists (P := fun m => function.toList = function'.toList ++ '_' :: m
      ∧ param'.toList = m ++ '_' :: param.toList)

/-- **Which parameters share a variable**: those of one kind whose names are joined alike. -/
theorem globalName_eq_iff {kind kind' : TextureKind} {function param function' param' : String} :
    globalName kind function param = globalName kind' function' param'
      ↔ kind = kind' ∧ JoinedAlike function param function' param' := by
  have hjoined : ∀ (kind : TextureKind) (function param : String),
      globalName kind function param
        = "__" ++ kind.stem ++ "Var_" ++ (function ++ "_" ++ param) ++ "__" := by
    intro kind function param
    simp only [globalName, String.append_assoc]
  rw [joinedAlike_iff, hjoined, hjoined, String.append_left_inj]
  constructor
  · intro he
    have hkind : kind = kind' := by
      -- the third letter is the first of the kind
      have hthird := congrArg (fun name : String => name.toList[2]?) he
      cases kind <;> cases kind' <;> simp [TextureKind.stem] at hthird ⊢
    rw [hkind] at he
    exact ⟨hkind, (String.append_right_inj _).mp he⟩
  · rintro ⟨rfl, he⟩
    rw [he]

end Lowering

/-! ## §2. The nodes put in -/

/-- **The lines put in** are spelled by nodes of their own. -/
theorem Fabric.spellings_perm {doc₀ doc : Document} {weft : TokenId → Weft}
    {bindings : List (NodeId × NodeId)} {labels : List Spelling}
    (h : Fabric doc₀ doc weft bindings labels) (h₀ : Loaded doc₀) :
    ((doc.tree.preOrder.filter (doc.tree.kind? · == some .userTokens)).map doc.spelling).Perm
      labels := by
  -- nodes are numbered on as they are made, one for each line
  let node : Nat → NodeId := fun k => ⟨doc₀.tree.nodes.size + k⟩
  have hinj : Function.Injective node := by
    intro a b he
    simpa [node] using he
  have hnodes : (doc.tree.preOrder.filter (doc.tree.kind? · == some .userTokens)).Perm
      ((List.range labels.length).map node) := by
    refine (List.perm_ext_iff_of_nodup (h.grown.forest.nodup_preOrder.filter _)
      (List.nodup_range.map hinj)).mpr fun x => ?_
    rw [List.mem_filter, beq_iff_eq, h.mem_preOrder h₀]
    simp [node, eq_comm]
  have hlabels : ((List.range labels.length).map node).map doc.spelling = labels := by
    refine List.ext_getElem (by simp) fun k hk hk' => ?_
    simp only [List.getElem_map, List.getElem_range]
    exact h.spelling_eq (List.getElem?_eq_getElem hk')
  exact (hnodes.map doc.spelling).trans (List.Perm.of_eq hlabels)

/-- Whether a line begins with a word for variables and its last symbol is the name. -/
def Spelling.declaresVar (line : Spelling) (v : Vocabulary) (name : String) : Bool :=
  [some (.symbol, v.textureGlobal), some (.symbol, v.surfaceGlobal)].contains line.head?
    && (line.filter (·.1 == .symbol)).getLast? == some (.symbol, name)

/-- Whether the node was put in by a pass and declares a variable of the name. -/
def Document.declaresVar (doc : Document) (name : String) (node : NodeId) : Bool :=
  doc.tree.kind? node == some .userTokens
    && (doc.spelling node).declaresVar doc.config.vocabulary name

namespace Weave

variable {doc : Document} {name : String}

/-- A line declares the variable of its own name, and no other. -/
theorem globalLine_declaresVar (type : Declared) (node : NodeId) {function param : String}
    (hname : Text.IsName (Lowering.globalName type.signature.kind function param)) :
    (globalLine doc type node function param).declaresVar doc.config.vocabulary name
      = (Lowering.globalName type.signature.kind function param == name) := by
  have harg : Piece.spellArg (Lowering.globalName type.signature.kind function param)
      = [(.symbol, Lowering.globalName type.signature.kind function param)] := by
    unfold Piece.spellArg
    rw [Text.words_of_isWord (Or.inl hname)]
    simp [Piece.spellWord, Lowering.globalName]
  -- the variable is the last word of the line, in front of the closing parenthesis
  have hline : globalLine doc type node function param
      = (.symbol, doc.config.vocabulary.globalWord type.signature.kind) :: (.lparen, "(")
        :: (Piece.spellArg type.name ++ [(.comma, ","), (.whitespace, " "),
          (.symbol, Lowering.globalName type.signature.kind function param), (.rparen, ")"),
          (.semicolon, ";"), (.eol, doc.newline)]) := by
    have hargs : Piece.spellArgs [type.name, Lowering.globalName type.signature.kind function param]
        = Piece.spellArg type.name ++ [(.comma, ","), (.whitespace, " "),
          (.symbol, Lowering.globalName type.signature.kind function param)] := by
      simp [Piece.spellArgs, List.intercalate, harg]
    show (.symbol, _) :: (.lparen, "(") :: Piece.spellArgs [_, _] ++ [(.rparen, ")")]
      ++ [(.semicolon, ";"), (.eol, doc.newline)] = _
    rw [hargs]
    simp
  have hword : [some (TokenKind.symbol, doc.config.vocabulary.textureGlobal),
      some (.symbol, doc.config.vocabulary.surfaceGlobal)].contains
        (some (.symbol, doc.config.vocabulary.globalWord type.signature.kind)) = true := by
    cases type.signature.kind with
    | texture => simp [Vocabulary.globalWord]
    | surface => simp [Vocabulary.globalWord]
  unfold Spelling.declaresVar
  rw [hline, List.head?_cons, hword]
  simp [List.getLast?_cons]

/-- The line of a type declares no variable. -/
theorem typeLine_declaresVar (type : Declared) (v : Vocabulary) :
    (typeLine doc type).declaresVar v name = false := rfl

/-- The binding of a parameter declares no variable. -/
theorem bindLine_declaresVar (type : Declared) (node : NodeId) (function param : String)
    (v : Vocabulary) :
    (bindLine doc type node function param).declaresVar v name = false := rfl

/-- The lines of a use declare the variable made for it. -/
theorem countP_useLines {types : List Declared} (h : Known doc types) {u : Declared × Occurrence}
    (hu : u ∈ uses types) :
    (useLines doc u).countP (Spelling.declaresVar · doc.config.vocabulary name)
      = (Lowering.global? doc.config.platform u.1.signature.kind u.2).toList.countP
        (·.name = name) := by
  unfold useLines Lowering.global?
  cases hkernel : kernel? u.2 with
  | none => simp
  | some kernel =>
    obtain ⟨node, function, param⟩ := kernel
    obtain ⟨hcontext, named, hparam, rfl⟩ := kernel?_eq_some hkernel
    have hname := Lowering.globalName_isName u.1.signature.kind
      (h.function u hu _ _ _ hcontext) (h.param u hu _ hparam)
    by_cases hon : doc.config.platform.bindsGlobals = true
    · simp [hon, globalLine_declaresVar u.1 node hname, bindLine_declaresVar, List.countP_cons]
    · simp [hon]

end Weave

/-! ## §3. The variables of a file -/

namespace Lowering

/-- What is known of the variables made for the kernel definitions of a file. -/
structure Variables (state : Lowering) : Prop where
  /-- Each type has one variable for each of its uses as a parameter of a kernel definition. -/
  recorded : ∀ type ∈ state.types,
    type.globals.Perm (type.refs.filterMap (global? .cuda type.signature.kind))
  /-- Two of them have one name when they are of one kind and joined alike. -/
  shared : ∀ type ∈ state.types, ∀ var ∈ type.globals,
    ∀ other ∈ state.types, ∀ var' ∈ other.globals,
      (var.name = var'.name ↔ type.signature.kind = other.signature.kind
        ∧ JoinedAlike var.function var.param var'.function var'.param)
  /-- A name is declared as often as there are variables of that name. -/
  declared : ∀ name,
    (state.document.tree.preOrder.filter (state.document.declaresVar name)).length
      = (state.types.flatMap (·.globals)).countP (·.name = name)
  /-- The table binds each parameter by its variable. -/
  bound : (state.table.flatMap fun kernel => kernel.params.map (·.binding)).Perm
    ((state.types.flatMap (·.globals)).map (·.name))

section Books

variable {doc : Document} {found : List Occurrence} {types : List Declared} {state : Lowering}

/-- All variables recorded, by the uses in source order. -/
theorem Finished.globals_perm [ContentHash] (h : Finished doc found types state) :
    (state.types.flatMap (·.globals)).Perm ((Weave.uses types).filterMap fun u =>
      global? doc.config.platform u.1.signature.kind u.2) := by
  have hrefs : (state.types.flatMap fun type =>
        type.refs.filterMap (global? doc.config.platform type.signature.kind))
      = types.flatMap fun type =>
        type.refs.filterMap (global? doc.config.platform type.signature.kind) := by
    have htitles := congrArg (List.flatMap fun title =>
      title.2.2.filterMap (global? doc.config.platform title.1.kind)) h.stage.titles
    rw [List.flatMap_map, List.flatMap_map] at htitles
    exact htitles
  have huses : (types.flatMap fun type =>
        type.refs.filterMap (global? doc.config.platform type.signature.kind))
      = (types.flatMap fun type => type.refs.map (type, ·)).filterMap fun u =>
        global? doc.config.platform u.1.signature.kind u.2 := by
    rw [List.filterMap_flatMap]
    refine List.flatMap_congr fun type _ => ?_
    rw [List.filterMap_map]
    rfl
  -- type by type in the books, while the uses are sorted by their places
  refine (List.Perm.flatMap_left _ fun type htype => run_globals h.run htype).trans ?_
  rw [hrefs, huses]
  exact ((List.mergeSort_perm _ _).filterMap _).symm

/-- The variables of a type have the names of its kind. -/
theorem name_of_mem [ContentHash] (hrun : run doc = (.ok (), state)) {type : TextureType}
    (htype : type ∈ state.types) {var : GlobalVar} (hvar : var ∈ type.globals) :
    var.name = globalName type.signature.kind var.function var.param := by
  obtain ⟨use, -, hglobal⟩ := List.mem_filterMap.mp ((run_globals hrun htype).mem_iff.mp hvar)
  unfold global? at hglobal
  split at hglobal
  · obtain ⟨kernel, -, rfl⟩ := Option.map_eq_some_iff.mp hglobal
    rfl
  · simp at hglobal

/-- **The lines that declare a name** are as many as the variables of that name. -/
theorem Finished.declared_eq [ContentHash] (h : Finished doc found types state) (name : String) :
    (state.document.tree.preOrder.filter (state.document.declaresVar name)).length
      = (state.types.flatMap (·.globals)).countP (·.name = name) := by
  have hknown := h.grouped.known
  let declares : Spelling → Bool := fun line => line.declaresVar doc.config.vocabulary name
  have hnodes : state.document.declaresVar name = fun node =>
      declares (state.document.spelling node)
        && state.document.tree.kind? node == some .userTokens := by
    funext node
    unfold Document.declaresVar
    rw [h.stage.fabric.config, Bool.and_comm]
  -- the line of a type declares no variable, whatever its words
  have htypes : (types.map (Weave.typeLine doc)).countP declares = 0 := by
    rw [List.countP_eq_zero]
    intro line hline
    obtain ⟨type, -, rfl⟩ := List.mem_map.mp hline
    have hfalse : declares (Weave.typeLine doc type) = false := Weave.typeLine_declaresVar type _
    rw [hfalse]
    exact Bool.false_ne_true
  calc (state.document.tree.preOrder.filter (state.document.declaresVar name)).length
      = ((state.document.tree.preOrder.filter
          (state.document.tree.kind? · == some .userTokens)).map
            state.document.spelling).countP declares := by
        rw [hnodes, List.countP_map, List.countP_filter, List.countP_eq_length_filter]
        rfl
    _ = (Weave.labels doc [] types (Weave.uses types)).countP declares :=
        (h.stage.fabric.spellings_perm h.grouped.loaded).countP_eq _
    _ = ((Weave.uses types).flatMap (Weave.useLines doc)).countP declares := by
        unfold Weave.labels
        rw [List.countP_append, List.nil_append, htypes, Nat.zero_add]
    _ = ((Weave.uses types).filterMap fun u =>
          global? doc.config.platform u.1.signature.kind u.2).countP (·.name = name) := by
        rw [List.filterMap_eq_flatMap_toList, List.countP_flatMap, List.countP_flatMap]
        congr 1
        exact List.map_congr_left fun u hu => Weave.countP_useLines hknown hu
    _ = (state.types.flatMap (·.globals)).countP (·.name = name) :=
        (h.globals_perm.countP_eq _).symm

/-- **The bindings of the table** are the names of the variables. -/
theorem Finished.bindings_perm [ContentHash] (h : Finished doc found types state)
    (hcuda : doc.config.platform = .cuda) :
    (state.table.flatMap fun kernel => kernel.params.map (·.binding)).Perm
      ((state.types.flatMap (·.globals)).map (·.name)) := by
  have hbindings : (state.table.flatMap fun kernel => kernel.params.map (·.binding))
      = (lines state.kernels).map (·.2.2.binding) := by
    unfold table lines
    rw [List.flatMap_map, List.map_flatMap]
    simp only [List.map_map]
    rfl
  have hnames : (lines state.kernels).map (·.2.2.binding)
      = ((Weave.uses types).filterMap fun u =>
          global? doc.config.platform u.1.signature.kind u.2).map (·.name) := by
    rw [h.kernels_eq, ← lines_eq h.grouped, List.filterMap_map,
      List.map_filterMap, List.map_filterMap]
    refine List.filterMap_congr fun u hu => ?_
    have hsignature := signatureOf_eq h.grouped hu
    unfold line? global?
    -- binding and variable are both named from the type's signature
    cases hkernel : Weave.kernel? u.2 with
    | none => simp [hkernel]
    | some kernel => simp [hkernel, hcuda, Platform.bindsGlobals, boundParam, hsignature]
  rw [hbindings, hnames]
  exact (h.globals_perm.map _).symm

end Books

/-- **The variables of a file** that is lowered for a platform that needs them. -/
theorem run_variables [ContentHash] {config : Config} {source : String} {doc : Document}
    {state : Lowering}
    (hcuda : config.platform = .cuda) (hload : Document.load config source = .ok doc)
    (hrun : run doc = (.ok (), state)) : Variables state := by
  obtain ⟨found, types, h⟩ := run_finished hload hrun
  have hplatform : doc.config.platform = .cuda := by
    rw [(Document.load_ok hload).2.2.1, hcuda]
  refine ⟨?_, ?_, h.declared_eq, h.bindings_perm hplatform⟩
  · intro type htype
    rw [← hplatform]
    exact run_globals hrun htype
  · intro type htype var hvar other hother var' hvar'
    rw [name_of_mem hrun htype hvar, name_of_mem hrun hother hvar', globalName_eq_iff]

/-- Two parameters that differ in both names share a variable, which is declared twice. -/
theorem run_variables_shared :
    ∃ doc state, Document.load {}
        "kernel void f_a(Surface2D b) \x7b \x7d\nkernel void f(Surface2D a_b) \x7b \x7d" = .ok doc
      ∧ run doc = (.ok (), state)
      ∧ state.types.flatMap (·.globals) = [⟨"f_a", "b", "__SurfaceVar_f_a_b__"⟩,
        ⟨"f", "a_b", "__SurfaceVar_f_a_b__"⟩]
      ∧ (state.document.tree.preOrder.filter
        (state.document.declaresVar "__SurfaceVar_f_a_b__")).length = 2
      ∧ Variables state := by
  obtain ⟨doc, state, hload, hrun, hglobals⟩ := run_of_eval {}
    "kernel void f_a(Surface2D b) \x7b \x7d\nkernel void f(Surface2D a_b) \x7b \x7d"
    (fun _ state => state.types.flatMap (·.globals))
    [⟨"f_a", "b", "__SurfaceVar_f_a_b__"⟩, ⟨"f", "a_b", "__SurfaceVar_f_a_b__"⟩]
    (by decide +kernel)
  have hvariables := run_variables rfl hload hrun
  refine ⟨doc, state, hload, hrun, hglobals, ?_, hvariables⟩
  rw [hvariables.declared, hglobals]
  decide

end Lowering

end KernelPrep
