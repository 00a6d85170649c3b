/-
  KernelPrep.Proofs.Texture.Ledger — what lowering writes down.

  Beside the document, lowering keeps books: the types with the variables made for them, and
  the kernel definitions with their textures.  Edits of the document leave the books alone, a
  type is entered without variables, and a use is entered when it is a parameter of a kernel
  definition.  What is entered depends on the platform, the use and the signature of its type
  only, so that the books can be read off the uses in source order.

  Main definitions:
    * `Step.Keeps`     — a step that leaves some part of the state alone;
    * `Books`          — the part of the state that edits leave alone;
    * `Books.enterUse` — what is entered for a use.

  Main statements:
    * `Lowering.lowerOne_books` — the books after one use;
    * `Books.kernels_foldl`, `Books.globals_foldl` — the books after several;
    * `Lowering.run_kernels`, `Lowering.run_globals` — the books of a file.
-/
import KernelPrep.Proofs.Texture.Outcome

namespace KernelPrep

open Weave (Declared)

/-! ## §1. What a step leaves alone -/

namespace Step

variable {ε σ α β γ δ : Type} {f : σ → γ}

/-- Whenever the step goes through, the given part of the state is what it was. -/
def Keeps (f : σ → γ) (x : EStateM ε σ α) : Prop :=
  ∀ ⦃s s' : σ⦄ ⦃a : α⦄, x s = .ok a s' → f s' = f s

/-- Returning a value. -/
theorem keeps_pure (a : α) : Keeps f (pure a : EStateM ε σ α) := by
  intro s s' b h
  rw [(pure_ok.mp h).2]

/-- Looking at the state. -/
theorem keeps_get : Keeps f (get : EStateM ε σ σ) := by
  intro s s' b h
  rw [(get_ok.mp h).2]

/-- Failing. -/
theorem keeps_throw (e : ε) : Keeps f (throw e : EStateM ε σ α) := by
  intro s s' a h
  exact absurd h (by rintro ⟨⟩)

/-- Changing the state in another part. -/
theorem keeps_modify {g : σ → σ} (hg : ∀ s, f (g s) = f s) :
    Keeps f (modify g : EStateM ε σ Unit) := by
  intro s s' u h
  rw [modify_ok.mp h, hg]

namespace Keeps

/-- One step after another. -/
theorem bind {x : EStateM ε σ α} {g : α → EStateM ε σ β} (hx : Keeps f x)
    (hg : ∀ a, Keeps f (g a)) : Keeps f (x >>= g) := by
  intro s s' b h
  obtain ⟨a, mid, hfirst, hrest⟩ := bind_ok.mp h
  rw [hg a hrest, hx hfirst]

/-- What is read off a part that is kept. -/
theorem comp {x : EStateM ε σ α} (h : Keeps f x) (g : γ → δ) : Keeps (fun s => g (f s)) x := by
  intro s s' a hx
  exact congrArg g (h hx)

/-- A step for each item. -/
theorem forM {items : List α} {x : α → EStateM ε σ Unit} (h : ∀ a ∈ items, Keeps f (x a)) :
    Keeps f (items.forM x) := by
  induction items with
  | nil => exact keeps_pure ()
  | cons a rest ih =>
    exact (h a List.mem_cons_self).bind fun _ => ih fun b hb => h b (List.mem_cons_of_mem _ hb)

end Keeps

end Step

open Step (Keeps keeps_pure keeps_get keeps_throw keeps_modify)

namespace Edit

/-! Edits change tokens and nodes, and nothing else of a document. -/

/-- Adding a run. -/
theorem addRun_keeps (line : Nat) (pieces : List Piece) :
    Keeps Document.config (addRun line pieces) := by
  intro doc doc' run? h
  unfold addRun at h
  split at h
  · obtain ⟨-, rfl⟩ := EStateM.Result.ok.inj h
    rfl
  · simp at h

/-- Making a run. -/
theorem newRun_keeps (line : Nat) (pieces : List Piece) :
    Keeps Document.config (newRun line pieces) := by
  refine (addRun_keeps line pieces).bind fun run? => ?_
  cases run? with
  | none => exact keeps_throw _
  | some run => exact keeps_pure run

/-- Putting a run in place of another. -/
theorem replaceTokens_keeps (old : TokenRange) (new? : Option TokenRange) :
    Keeps Document.config (replaceTokens old new?) := by
  intro doc doc' u h
  unfold replaceTokens at h
  split at h
  · obtain ⟨-, rfl⟩ := EStateM.Result.ok.inj h
    rfl
  · simp at h

/-- Looking at the range of a node. -/
theorem nodeRange_keeps (node : NodeId) : Keeps Document.config (nodeRange node) := by
  intro doc doc' range h
  unfold nodeRange at h
  split at h
  · rw [(EStateM.Result.ok.inj h).2]
  · simp at h

/-- Linking a run in. -/
theorem linkRun_keeps (link : TokenList → Except SpliceError (Splice × TokenList)) :
    Keeps Document.config (linkRun link) := by
  intro doc doc' u h
  unfold linkRun at h
  split at h
  · obtain ⟨-, rfl⟩ := EStateM.Result.ok.inj h
    rfl
  · simp at h

/-- Putting in a node. -/
theorem addUserNode_keeps (run : TokenRange) (attach : NodeTree → NodeId → NodeTree)
    (widen : TokenRange → Option TokenRange) :
    Keeps Document.config (addUserNode run attach widen) := by
  intro doc doc' node h
  obtain ⟨-, rfl⟩ := EStateM.Result.ok.inj h
  rfl

/-- Putting a line before a node. -/
theorem insertBefore_keeps (sibling : NodeId) (run : TokenRange) :
    Keeps Document.config (insertBefore sibling run) :=
  (nodeRange_keeps sibling).bind fun _ => (linkRun_keeps _).bind fun _ => addUserNode_keeps ..

/-- Putting a line behind a node. -/
theorem insertAfter_keeps (sibling : NodeId) (run : TokenRange) :
    Keeps Document.config (insertAfter sibling run) :=
  (nodeRange_keeps sibling).bind fun _ => (linkRun_keeps _).bind fun _ => addUserNode_keeps ..

/-- Putting a line at the top of a node. -/
theorem insertFirstChild_keeps (parent : NodeId) (run : TokenRange) :
    Keeps Document.config (insertFirstChild parent run) :=
  (nodeRange_keeps parent).bind fun _ => (linkRun_keeps _).bind fun _ => addUserNode_keeps ..

end Edit

/-! ## §2. The books -/

/-- The part of the state of lowering that edits leave alone. -/
structure Books where
  platform : Platform
  types : List TextureType
  kernels : List (NodeId × KernelTextures)

namespace Lowering

/-- What is entered for a texture parameter of a kernel definition. -/
def boundParam (platform : Platform) (signature : Signature) (function param : String) :
    BoundParam where
  binding := if platform.bindsGlobals then globalName signature.kind function param else param
  kind := signature.kind
  dims := signature.dims
  mode := signature.mode

/-- The variable made for a use of a type of the given kind, if one is. -/
def global? (platform : Platform) (kind : TextureKind) (use : Occurrence) : Option GlobalVar :=
  if platform.bindsGlobals then
    (Weave.kernel? use).map fun (_, function, param) =>
      { function, param, name := globalName kind function param }
  else none

/-- The kernels after a use of a type of the given signature. -/
def enter (platform : Platform) (signature : Signature) (use : Occurrence)
    (kernels : List (NodeId × KernelTextures)) : List (NodeId × KernelTextures) :=
  match Weave.kernel? use with
  | some (function, name, param) =>
    addParam function name (boundParam platform signature name param) kernels
  | none => kernels

end Lowering

/-- Enter a use of the type with the given index. -/
def Books.enterUse (books : Books) (item : Nat × Occurrence) : Books :=
  match books.types[item.1]? with
  | none => books
  | some type =>
    { books with
      types := (Lowering.global? books.platform type.signature.kind item.2).elim books.types
        (Lowering.addGlobal item.1 · books.types)
      kernels := Lowering.enter books.platform type.signature item.2 books.kernels }

namespace Lowering

/-- The books of a state. -/
def books (state : Lowering) : Books :=
  ⟨state.document.config.platform, state.types, state.kernels⟩

/-- An edit of the document leaves the books alone. -/
theorem edit_keeps {α : Type} {e : Edit α} (h : Keeps Document.config e) :
    Keeps books (edit e) := by
  intro s s' a hs
  unfold edit at hs
  split at hs
  · rename_i b doc hdoc
    obtain ⟨-, rfl⟩ := EStateM.Result.ok.inj hs
    unfold books
    rw [h hdoc]
  · simp at hs

/-- Asking for what must be there changes nothing. -/
theorem need_keeps {γ α : Type} {f : Lowering → γ} (what : String) (a? : Option α) :
    Keeps f (need what a?) := by
  cases a? with
  | none => exact keeps_throw _
  | some a => exact keeps_pure a

/-- Asking goes through if it is there. -/
theorem need_ok {α : Type} {what : String} {a? : Option α} {a : α} {s s' : Lowering}
    (h : need what a? s = .ok a s') : a? = some a ∧ s = s' := by
  cases a? with
  | none => exact absurd h (by rintro ⟨⟩)
  | some b =>
    obtain ⟨rfl, rfl⟩ := Step.pure_ok.mp h
    exact ⟨rfl, rfl⟩

/-- The line that declares a variable is an edit of the document. -/
theorem declareGlobal_keeps (type : TextureType) (function : NodeId) (global : String)
    (line : Nat) : Keeps books (declareGlobal type function global line) :=
  keeps_get.bind fun _ => (need_keeps ..).bind fun _ =>
    (edit_keeps (Edit.newRun_keeps ..)).bind fun _ =>
      (edit_keeps (Edit.insertBefore_keeps ..)).bind fun _ => keeps_pure _

/-- The line that binds a parameter is an edit of the document. -/
theorem bindLocal_keeps (type : TextureType) (function : NodeId) (param global : String)
    (line : Nat) : Keeps books (bindLocal type function param global line) := by
  refine keeps_get.bind fun _ => (need_keeps ..).bind fun _ =>
    (edit_keeps (Edit.newRun_keeps ..)).bind fun run => keeps_get.bind fun state => ?_
  split
  · exact (edit_keeps (Edit.insertAfter_keeps ..)).bind fun _ => keeps_modify fun _ => rfl
  · exact (edit_keeps (Edit.insertFirstChild_keeps ..)).bind fun _ => keeps_modify fun _ => rfl

/-! ## §3. One step -/

/-- **Declaring a type** enters it without variables. -/
theorem declareType_keeps (refs : List Occurrence) :
    Keeps (fun state => (state.books.platform, state.books.types.flatMap (·.globals),
      state.books.kernels)) (declareType refs) := by
  refine (need_keeps ..).bind fun first => keeps_get.bind fun _ => (need_keeps ..).bind fun _ => ?_
  dsimp only
  split
  · exact keeps_throw _
  · refine keeps_get.bind fun _ => ?_
    refine ((edit_keeps (Edit.newRun_keeps ..)).comp fun books : Books =>
      (books.platform, books.types.flatMap (·.globals), books.kernels)).bind fun _ => ?_
    refine ((edit_keeps (Edit.insertBefore_keeps ..)).comp fun books : Books =>
      (books.platform, books.types.flatMap (·.globals), books.kernels)).bind fun _ => ?_
    refine keeps_modify fun state => ?_
    simp [books]

/-- **A parameter of a kernel definition** is entered with its type, if the platform needs a
    variable for it, and with its kernel. -/
theorem bindParam_books {index : Nat} {type : TextureType} {function : NodeId}
    {name param : String} {line : Nat} {state state' : Lowering}
    (h : bindParam index type function name param line state = .ok () state') :
    state'.books
      = { state.books with
          types := if state.books.platform.bindsGlobals then addGlobal index
              { function := name, param, name := globalName type.signature.kind name param }
              state.types
            else state.types
          kernels := addParam function name
            (boundParam state.books.platform type.signature name param) state.kernels } := by
  unfold bindParam at h
  rw [Step.bind_get] at h
  dsimp only at h
  by_cases hon : state.document.config.platform.bindsGlobals = true
  · rw [if_pos hon] at h
    obtain ⟨_, mid₁, hglobal, h⟩ := Step.bind_ok.mp h
    obtain ⟨_, mid₂, hlocal, h⟩ := Step.bind_ok.mp h
    obtain ⟨_, mid₃, hmodify, h⟩ := Step.bind_ok.mp h
    rw [Step.modify_ok.mp h, Step.modify_ok.mp hmodify]
    have hbooks := (bindLocal_keeps type function param _ line hlocal).trans
      (declareGlobal_keeps type function _ line hglobal)
    obtain ⟨hplatform, htypes, hkernels⟩ := Books.mk.inj hbooks
    simp only [books, boundParam, hplatform, htypes, hkernels, hon, if_true]
  · rw [if_neg hon] at h
    rw [Step.modify_ok.mp h]
    simp [books, boundParam, hon]

/-- **One use** is entered as what it is. -/
theorem lowerOne_books {index : Nat} {use : Occurrence} {state state' : Lowering}
    (h : lowerOne index use state = .ok () state') :
    state'.books = state.books.enterUse (index, use) := by
  unfold lowerOne at h
  rw [Step.bind_get] at h
  obtain ⟨type, _, hneed, h⟩ := Step.bind_ok.mp h
  obtain ⟨htype, rfl⟩ := need_ok hneed
  have htype' : state.books.types[index]? = some type := htype
  unfold Books.enterUse
  rw [htype']
  -- outside of kernel definitions only the document changes
  have hidle : Weave.kernel? use = none → state'.books = state.books → state'.books
      = { state.books with
          types := (global? state.books.platform type.signature.kind use).elim
            state.books.types (addGlobal index · state.books.types)
          kernels := enter state.books.platform type.signature use state.books.kernels } := by
    intro hnone hsame
    rw [hsame]
    simp [global?, enter, hnone]
  have hnamed : Keeps books (do
      let run ← edit (Edit.newRun use.line [.symbol type.name])
      edit (Edit.replaceTokens ⟨use.keyword, use.stop⟩ (some run))) :=
    (edit_keeps (Edit.newRun_keeps ..)).bind fun _ => edit_keeps (Edit.replaceTokens_keeps ..)
  cases hcontext : use.context with
  | kernelParam function name definition =>
    rw [hcontext] at h
    obtain ⟨param, _, hneed, h⟩ := Step.bind_ok.mp h
    obtain ⟨hparam, rfl⟩ := need_ok hneed
    obtain ⟨run, mid₁, hrun, h⟩ := Step.bind_ok.mp h
    obtain ⟨_, mid₂, hreplace, h⟩ := Step.bind_ok.mp h
    have hmid : mid₂.books = state.books :=
      (edit_keeps (Edit.replaceTokens_keeps ..) hreplace).trans
        (edit_keeps (Edit.newRun_keeps ..) hrun)
    cases definition with
    | true =>
      have hkernel : Weave.kernel? use = some (function, name, param.text) := by
        unfold Weave.kernel?
        rw [hcontext, hparam]
      obtain ⟨-, htypes, hkernels⟩ := Books.mk.inj hmid
      rw [bindParam_books h, hmid, htypes, hkernels]
      unfold global? enter
      rw [hkernel]
      split <;> rfl
    | false =>
      refine hidle (by simp [Weave.kernel?, hcontext]) ?_
      rw [← (Step.pure_ok.mp h).2, hmid]
  | declaration =>
    rw [hcontext] at h
    exact hidle (by simp [Weave.kernel?, hcontext]) (hnamed h)
  | param =>
    rw [hcontext] at h
    exact hidle (by simp [Weave.kernel?, hcontext]) (hnamed h)

/-- **Several uses** are entered one after the other. -/
theorem forM_books {items : List (Nat × Occurrence)} {state state' : Lowering}
    (h : items.forM (fun x => lowerOne x.1 x.2) state = .ok () state') :
    state'.books = items.foldl Books.enterUse state.books := by
  induction items generalizing state with
  | nil =>
    obtain ⟨-, rfl⟩ := Step.pure_ok.mp h
    rfl
  | cons item rest ih =>
    obtain ⟨_, mid, hitem, hrest⟩ := Step.bind_ok.mp h
    rw [ih hrest, lowerOne_books hitem]
    rfl

end Lowering

/-! ## §4. All uses -/

namespace Books

variable {books : Books} {items : List (Nat × Occurrence)} {item : Nat × Occurrence}

/-- Entering a use does not change the platform. -/
theorem platform_enterUse : (books.enterUse item).platform = books.platform := by
  unfold enterUse
  split <;> rfl

/-- Of the types entered, only the variables change. -/
theorem map_enterUse {β : Type} {f : TextureType → β}
    (hf : ∀ type globals, f { type with globals } = f type) :
    (books.enterUse item).types.map f = books.types.map f := by
  unfold enterUse
  split
  · rfl
  · rename_i type _
    cases Lowering.global? books.platform type.signature.kind item.2 with
    | none => rfl
    | some var => exact Lowering.map_addGlobal hf item.1 var books.types

/-- Entering uses changes nothing about the types but their variables. -/
theorem map_foldl {β : Type} {f : TextureType → β}
    (hf : ∀ type globals, f { type with globals } = f type) :
    (items.foldl enterUse books).types.map f = books.types.map f := by
  induction items generalizing books with
  | nil => rfl
  | cons item rest ih => exact ih.trans (map_enterUse hf)

/-- **The kernels after several uses**, whose types have the given signatures. -/
theorem kernels_foldl {uses : List (Declared × Occurrence)}
    (h : uses.map (fun u => (some u.1.signature, u.2))
      = items.map fun x => ((books.types.map (·.signature))[x.1]?, x.2)) :
    (items.foldl enterUse books).kernels
      = uses.foldl (fun kernels u => Lowering.enter books.platform u.1.signature u.2 kernels)
          books.kernels := by
  induction items generalizing books uses with
  | nil =>
    obtain rfl : uses = [] := List.map_eq_nil_iff.mp h
    rfl
  | cons item rest ih =>
    obtain ⟨u, more, rfl, hu, hmore⟩ := List.map_eq_cons_iff.mp h
    obtain ⟨hsignature, huse⟩ := Prod.mk.inj hu
    rw [List.getElem?_map] at hsignature
    obtain ⟨type, htype, htypesig⟩ := Option.map_eq_some_iff.mp hsignature.symm
    have hone : (books.enterUse item).kernels
        = Lowering.enter books.platform u.1.signature u.2 books.kernels := by
      unfold enterUse
      rw [htype, huse, ← htypesig]
    have hsame : (books.enterUse item).types.map (·.signature) = books.types.map (·.signature) :=
      map_enterUse fun _ _ => rfl
    rw [← hsame] at hmore
    rw [List.foldl_cons, ih hmore, List.foldl_cons, hone, platform_enterUse]

/-- One more variable for the type of the index, if the use is of it and has one. -/
theorem globals_enterUse {i : Nat} {type : TextureType} (htype : books.types[i]? = some type) :
    (books.enterUse item).types[i]? = some { type with
      globals := type.globals ++ ((if item.1 = i then some item.2 else none).bind
        (Lowering.global? books.platform type.signature.kind)).toList } := by
  unfold enterUse
  by_cases hi : item.1 = i
  · rw [hi, htype]
    dsimp only
    rw [if_pos rfl, Option.bind_some]
    cases Lowering.global? books.platform type.signature.kind item.2 with
    | none => simp [htype]
    | some var => simp [Lowering.addGlobal, htype]
  · rw [if_neg hi]
    split
    · simp [htype]
    · rename_i other _
      cases Lowering.global? books.platform other.signature.kind item.2 with
      | none => simp [htype]
      | some var => simp [Lowering.addGlobal, htype, hi]

/-- **The variables of a type after several uses.** -/
theorem globals_foldl {i : Nat} {type : TextureType} (htype : books.types[i]? = some type) :
    (items.foldl enterUse books).types[i]? = some { type with
      globals := type.globals ++ (items.filter (·.1 = i)).filterMap fun x =>
        Lowering.global? books.platform type.signature.kind x.2 } := by
  induction items generalizing books type with
  | nil => simp [htype]
  | cons item rest ih =>
    rw [List.foldl_cons, ih (globals_enterUse htype), platform_enterUse]
    by_cases hi : item.1 = i
    · cases hvar : Lowering.global? books.platform type.signature.kind item.2 with
      | none => simp [hi, hvar]
      | some var => simp [hi, hvar]
    · simp [hi]

end Books

namespace Lowering

/-- The uses of a type, among those of all types. -/
theorem filter_byType {types : List TextureType} {i : Nat} {type : TextureType}
    (h : types[i]? = some type) :
    (byType types).filter (·.1 = i) = type.refs.map (i, ·) := by
  obtain ⟨a, b, rfl, rfl⟩ : ∃ a b, types = a ++ type :: b ∧ a.length = i := by
    obtain ⟨hi, he⟩ := List.getElem?_eq_some_iff.mp h
    exact ⟨types.take i, types.drop (i + 1), by
      rw [← he, ← List.drop_eq_getElem_cons hi, List.take_append_drop],
      List.length_take_of_le (Nat.le_of_lt hi)⟩
  -- the indices before and behind are others, so nothing of them passes the filter
  have hother : ∀ (part : List TextureType) (k : Nat),
      (∀ x ∈ part.zipIdx k, x.2 ≠ a.length) →
      ((part.zipIdx k).flatMap fun x => x.1.refs.map (x.2, ·)).filter (·.1 = a.length) = [] := by
    intro part k hne
    rw [List.filter_eq_nil_iff]
    intro y hy
    obtain ⟨x, hx, hin⟩ := List.mem_flatMap.mp hy
    obtain ⟨use, -, rfl⟩ := List.mem_map.mp hin
    simpa using hne x hx
  unfold byType
  rw [List.zipIdx_append, List.zipIdx_cons, List.flatMap_append, List.flatMap_cons,
    List.filter_append, List.filter_append, hother a 0, hother b, List.nil_append, List.append_nil,
    List.filter_eq_self.mpr]
  · simp
  · simp
  · rintro ⟨t, j⟩ hx
    have := List.le_snd_of_mem_zipIdx hx
    simp only at this ⊢
    omega
  · rintro ⟨t, j⟩ hx
    have := List.snd_lt_of_mem_zipIdx hx
    simp only at this ⊢
    omega

/-- The books are opened when the types are declared, and then all uses are entered. -/
theorem run_declared [ContentHash] {doc : Document} {state : Lowering}
    (hrun : run doc = (.ok (), state)) :
    ∃ opened : Books, opened.platform = doc.config.platform ∧ opened.kernels = []
      ∧ (∀ type ∈ opened.types, type.globals = [])
      ∧ state.books = (inSourceOrder opened.types).foldl Books.enterUse opened := by
  have hall : lowerAll { document := doc } = .ok () state := by
    unfold run at hrun
    split at hrun
    · rename_i hok
      rw [hok, (Prod.mk.inj hrun).2]
    · simp at hrun
  unfold lowerAll at hall
  rw [Step.bind_get] at hall
  dsimp only at hall
  cases hgroups : Occurrence.discover doc with
  | error error =>
    rw [hgroups] at hall
    exact absurd hall (by rintro ⟨⟩)
  | ok groups =>
    rw [hgroups] at hall
    obtain ⟨_, declared, hdeclare, hall⟩ := Step.bind_ok.mp hall
    rw [Step.bind_get] at hall
    -- declaring types writes neither variables nor kernels into the books
    obtain ⟨hplatform, hempty⟩ := Prod.mk.inj
      (Keeps.forM (fun refs _ => declareType_keeps refs) hdeclare)
    obtain ⟨hglobals, hkernels⟩ := Prod.mk.inj hempty
    exact ⟨declared.books, hplatform, hkernels, List.flatMap_eq_nil_iff.mp hglobals,
      forM_books hall⟩

/-- **The kernels of a file**: its uses are entered in source order. -/
theorem run_kernels [ContentHash] {doc : Document} {state : Lowering}
    (hrun : run doc = (.ok (), state))
    {types : List Declared}
    (htypes : state.types.map (fun type => (type.signature, type.name, type.refs))
      = types.map fun type => (type.signature, type.name, type.refs)) :
    state.kernels = (Weave.uses types).foldl
      (fun kernels u => enter doc.config.platform u.1.signature u.2 kernels) [] := by
  obtain ⟨opened, hplatform, hkernels, -, hbooks⟩ := run_declared hrun
  -- entering uses adds variables, but leaves what a type is called
  have htitles : opened.types.map (fun type => (type.signature, type.name, type.refs))
      = types.map fun type => (type.signature, type.name, type.refs) := by
    rw [← htypes]
    exact ((congrArg (fun books : Books => books.types.map _) hbooks).trans
      (Books.map_foldl fun _ _ => rfl)).symm
  have hsignatures : opened.types.map (·.signature) = types.map (·.signature) := by
    have hfirst := congrArg (List.map (·.1)) htitles
    rw [List.map_map, List.map_map] at hfirst
    exact hfirst
  have huses : (Weave.uses types).map (fun u => (some u.1.signature, u.2))
      = (inSourceOrder opened.types).map fun x =>
        ((opened.types.map (·.signature))[x.1]?, x.2) := by
    have hitems := congrArg (List.map fun x => (x.1.map (·.signature), x.2))
      (inSourceOrder_eq htitles)
    rw [List.map_map, List.map_map] at hitems
    rw [hsignatures]
    simp only [List.getElem?_map]
    exact hitems.symm
  calc state.kernels = ((inSourceOrder opened.types).foldl Books.enterUse opened).kernels :=
        congrArg Books.kernels hbooks
    _ = _ := by rw [Books.kernels_foldl huses, hplatform, hkernels]

/-- **The variables of a type**: one for each of its uses that needs one. -/
theorem run_globals [ContentHash] {doc : Document} {state : Lowering}
    (hrun : run doc = (.ok (), state))
    {type : TextureType} (htype : type ∈ state.types) :
    type.globals.Perm
      (type.refs.filterMap (global? doc.config.platform type.signature.kind)) := by
  obtain ⟨opened, hplatform, -, hempty, hbooks⟩ := run_declared hrun
  obtain ⟨i, hi⟩ := List.getElem?_of_mem htype
  have htypes : state.types = ((inSourceOrder opened.types).foldl Books.enterUse opened).types :=
    congrArg Books.types hbooks
  obtain ⟨old, hold, holdrefs⟩ : ∃ old, opened.types[i]? = some old ∧ old.refs = type.refs := by
    have hrefs : (state.types.map (·.refs))[i]? = (opened.types.map (·.refs))[i]? := by
      rw [htypes, Books.map_foldl fun _ _ => rfl]
    rw [List.getElem?_map, List.getElem?_map, hi] at hrefs
    exact Option.map_eq_some_iff.mp hrefs.symm
  have hnew : ((inSourceOrder opened.types).foldl Books.enterUse opened).types[i]? = _ :=
    Books.globals_foldl hold
  rw [← htypes, hi, hempty old (List.mem_of_getElem? hold), List.nil_append, hplatform] at hnew
  obtain rfl := Option.some.inj hnew
  -- sorting has only moved the uses of the type
  have hperm : ((inSourceOrder opened.types).filter (·.1 = i)).Perm (old.refs.map (i, ·)) := by
    rw [← filter_byType hold]
    exact (List.mergeSort_perm _ _).filter _
  refine (hperm.filterMap _).trans ?_
  rw [List.filterMap_map]
  rfl

end Lowering

end KernelPrep
