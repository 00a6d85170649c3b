/-
  KernelPrep.Proofs.Texture.UseGrammar — how uses are written.

  The own tokens of a node are read from left to right.  A keyword that is reached must have its
  type behind it, and in a parameter list a symbol behind the type; the first one that has not
  is the error.  Behind a type reading goes on at once, so that the name of a parameter is read
  again, as a keyword if it is one.

  Main definitions:
    * `Occurrence.Grammar.WellFormed`, `Violates` — what is behind a keyword, or is missing there;
    * `Occurrence.Grammar.Reaches`  — reading comes to the tokens ahead;
    * `Occurrence.Grammar.Recorded` — a use as it is recorded.

  Main statements:
    * `Occurrence.Grammar.wellFormed_or_violates` — a keyword is well formed, or it is said why
      not;
    * `Occurrence.Grammar.scanFrom_cases` — reading ends with the uses at all keywords reached, or
      with the first that is not well formed;
    * `Occurrence.Grammar.scanFrom_ok_iff`, `scanFrom_error_iff` — which of the two it is.
-/
import KernelPrep.Proofs.Texture.Found

namespace KernelPrep.Occurrence

namespace Grammar

/-! ## §1. Keywords and what is behind them -/

/-- A word for the sign of a texel type. -/
def Sign (word : TokenId × Token) : Prop :=
  word.2.kind = .symbol ∧ (word.2.text = "signed" ∨ word.2.text = "unsigned")

/-- A symbol that is no word for a sign. -/
def Basic (word : TokenId × Token) : Prop :=
  word.2.kind = .symbol ∧ word.2.text ≠ "signed" ∧ word.2.text ≠ "unsigned"

/-- The words of a texel type. -/
inductive Texel : List (TokenId × Token) → Prop where
  | basic {word : TokenId × Token} : Basic word → Texel [word]
  | signed {sign word : TokenId × Token} : Sign sign → Basic word → Texel [sign, word]

/-- The tokens of a type behind its keyword. -/
inductive TypeOf : TextureKind → List (TokenId × Token) → Prop where
  | surface : TypeOf .surface []
  | texture {angle close : TokenId × Token} {words : List (TokenId × Token)} :
      angle.2.kind = .less → Texel words → close.2.kind = .greater →
      TypeOf .texture (angle :: (words ++ [close]))

/-- The next token is not of the kind, or there is none. -/
def Lacks (kind : TokenKind) (tokens : List (TokenId × Token)) : Prop :=
  ∀ next ∈ tokens.head?, next.2.kind ≠ kind

/-- A keyword of the kind with this type and with what is behind the type. -/
structure WellFormed (isParams : Bool) (kind : TextureKind)
    (type behind : List (TokenId × Token)) : Prop where
  type : TypeOf kind type
  name : isParams = true → ¬ Lacks .symbol behind

/-- What is the first thing wrong with the tokens behind a keyword. -/
inductive Violates (isParams : Bool) (keyword : String) :
    TextureKind → List (TokenId × Token) → PassFault → Prop where
  | openAngle {rest : List (TokenId × Token)} : Lacks .less rest →
      Violates isParams keyword .texture rest (.missingOpenAngle keyword)
  | texelType {angle : TokenId × Token} {rest : List (TokenId × Token)} :
      angle.2.kind = .less → Lacks .symbol rest →
      Violates isParams keyword .texture (angle :: rest) (.missingTexelType keyword)
  | signAlone {angle sign : TokenId × Token} {rest : List (TokenId × Token)} :
      angle.2.kind = .less → Sign sign → Lacks .symbol rest →
      Violates isParams keyword .texture (angle :: sign :: rest) (.badSignedness sign.2.text)
  | signTwice {angle sign other : TokenId × Token} {rest : List (TokenId × Token)} :
      angle.2.kind = .less → Sign sign → Sign other →
      Violates isParams keyword .texture (angle :: sign :: other :: rest)
        (.badSignedness other.2.text)
  | closeAngle {angle : TokenId × Token} {words rest : List (TokenId × Token)} :
      angle.2.kind = .less → Texel words → Lacks .greater rest →
      Violates isParams keyword .texture (angle :: (words ++ rest)) (.missingCloseAngle keyword)
  | paramName {kind : TextureKind} {type rest : List (TokenId × Token)} :
      isParams = true → TypeOf kind type → Lacks .symbol rest →
      Violates isParams keyword kind (type ++ rest) (.missingParamName keyword)

/-- Reading the tokens from left to right comes to those ahead: it passes what is no keyword,
    and keywords that are well formed with their types. -/
inductive Reaches (isParams : Bool) :
    List (TokenId × Token) → List (TokenId × Token) → Prop where
  | here {tokens : List (TokenId × Token)} : Reaches isParams tokens tokens
  | pass {entry : TokenId × Token} {rest ahead : List (TokenId × Token)} :
      signature? entry.2 = none → Reaches isParams rest ahead →
      Reaches isParams (entry :: rest) ahead
  | past {keyword : TokenId × Token} {signature : Signature}
      {type behind ahead : List (TokenId × Token)} :
      signature? keyword.2 = some signature → WellFormed isParams signature.kind type behind →
      Reaches isParams behind ahead → Reaches isParams (keyword :: (type ++ behind)) ahead

/-- Reading comes to a keyword of the signature. -/
structure AtKeyword (isParams : Bool) (tokens : List (TokenId × Token))
    (keyword : TokenId × Token) (signature : Signature) (rest : List (TokenId × Token)) :
    Prop where
  reaches : Reaches isParams tokens (keyword :: rest)
  signature : signature? keyword.2 = some signature

section Behind

variable {isParams : Bool} {kind : TextureKind} {keyword : String}
  {tokens ahead type behind rest : List (TokenId × Token)} {fault : PassFault}

/-- The next token is of the kind or it is not. -/
theorem lacks_or (kind : TokenKind) (tokens : List (TokenId × Token)) :
    Lacks kind tokens ∨ ∃ next more, tokens = next :: more ∧ next.2.kind = kind := by
  cases tokens with
  | nil => exact .inl (by simp [Lacks])
  | cons next more =>
    by_cases hkind : next.2.kind = kind
    · exact .inr ⟨next, more, rfl, hkind⟩
    · exact .inl (by simpa [Lacks] using hkind)

/-- Not to lack a kind is to have it ahead. -/
theorem not_lacks_iff {kind : TokenKind} :
    ¬ Lacks kind tokens ↔ ∃ next more, tokens = next :: more ∧ next.2.kind = kind := by
  constructor
  · exact (lacks_or kind tokens).resolve_left
  · rintro ⟨next, more, rfl, hkind⟩ hlacks
    exact hlacks next rfl hkind

/-- Words for signs, as the scanner tests for them. -/
theorem sign_iff {word : TokenId × Token} :
    Sign word ↔ word.2.kind = .symbol ∧ isSignWord word.2.text = true := by
  simp [Sign, isSignWord]

/-- Other symbols, as the scanner tests for them. -/
theorem basic_iff {word : TokenId × Token} :
    Basic word ↔ word.2.kind = .symbol ∧ isSignWord word.2.text = false := by
  simp [Basic, isSignWord]

/-- Behind a type only the name of a parameter can be missing. -/
theorem wellFormed_or_paramName (keyword : String) (htype : TypeOf kind type)
    (behind : List (TokenId × Token)) : WellFormed isParams kind type behind
      ∨ Violates isParams keyword kind (type ++ behind) (.missingParamName keyword) := by
  by_cases hname : isParams = true ∧ Lacks .symbol behind
  · exact .inr (.paramName hname.1 htype hname.2)
  · exact .inl ⟨htype, fun hparams hlacks => hname ⟨hparams, hlacks⟩⟩

/-- **A keyword is well formed, or it is said why not.** -/
theorem wellFormed_or_violates (isParams : Bool) (keyword : String) (kind : TextureKind)
    (rest : List (TokenId × Token)) :
    (∃ type behind, rest = type ++ behind ∧ WellFormed isParams kind type behind)
      ∨ ∃ fault, Violates isParams keyword kind rest fault := by
  have hname : ∀ {type behind}, TypeOf kind type → rest = type ++ behind →
      (∃ type behind, rest = type ++ behind ∧ WellFormed isParams kind type behind)
        ∨ ∃ fault, Violates isParams keyword kind rest fault := by
    rintro type behind htype rfl
    exact (wellFormed_or_paramName keyword htype behind).imp
      (fun hwell => ⟨type, behind, rfl, hwell⟩) fun hviolates => ⟨_, hviolates⟩
  cases kind with
  | surface => exact hname .surface (List.nil_append rest).symm
  | texture =>
    rcases lacks_or .less rest with hlacks | ⟨angle, rest, rfl, hless⟩
    · exact .inr ⟨_, .openAngle hlacks⟩
    -- the words are read, and the closing angle is left
    have hclose : ∀ {words more}, Texel words → rest = words ++ more →
        (∃ type behind, angle :: rest = type ++ behind
          ∧ WellFormed isParams .texture type behind)
        ∨ ∃ fault, Violates isParams keyword .texture (angle :: rest) fault := by
      rintro words more hwords rfl
      rcases lacks_or .greater more with hlacks | ⟨close, behind, rfl, hgreater⟩
      · exact .inr ⟨_, .closeAngle hless hwords hlacks⟩
      · have hsplit : angle :: (words ++ close :: behind)
            = (angle :: (words ++ [close])) ++ behind := by simp
        exact hname (.texture hless hwords hgreater) hsplit
    rcases lacks_or .symbol rest with hlacks | ⟨word, more, rfl, hword⟩
    · exact .inr ⟨_, .texelType hless hlacks⟩
    cases hsign : isSignWord word.2.text with
    | false => exact hclose (.basic (basic_iff.mpr ⟨hword, hsign⟩)) (List.singleton_append).symm
    | true =>
      have hsign : Sign word := sign_iff.mpr ⟨hword, hsign⟩
      rcases lacks_or .symbol more with hlacks | ⟨other, more, rfl, hother⟩
      · exact .inr ⟨_, .signAlone hless hsign hlacks⟩
      cases htwice : isSignWord other.2.text with
      | true => exact .inr ⟨_, .signTwice hless hsign (sign_iff.mpr ⟨hother, htwice⟩)⟩
      | false =>
        have hsplit : word :: other :: more = [word, other] ++ more := rfl
        exact hclose (.signed hsign (basic_iff.mpr ⟨hother, htwice⟩)) hsplit

/-- What reading comes to is the rest of the tokens. -/
theorem Reaches.suffix (h : Reaches isParams tokens ahead) : ahead <:+ tokens := by
  induction h with
  | here => exact List.suffix_refl _
  | pass _ _ ih => exact ih.trans (List.suffix_cons _ _)
  | past _ _ _ ih => exact ih.trans ((List.suffix_append _ _).trans (List.suffix_cons _ _))

/-- Tokens that are no keywords are passed. -/
theorem Reaches.pass_all (before : List (TokenId × Token))
    (h : ∀ entry ∈ before, signature? entry.2 = none) :
    Reaches isParams (before ++ ahead) ahead := by
  induction before with
  | nil => exact .here
  | cons entry before ih =>
    obtain ⟨hnone, hrest⟩ := List.forall_mem_cons.mp h
    exact .pass hnone (ih hrest)

end Behind

/-! ## §2. One keyword -/

/-- A use as it is recorded at a keyword, by the tokens of its type. -/
structure Recorded (n : NodeId) (word : TokenId × Token) (what : TextureKind)
    (type : List (TokenId × Token)) (o : Occurrence) : Prop where
  kind : o.kind = what
  node : o.node = n
  line : o.line = word.2.line
  keyword : o.keyword = word.1
  texel : o.texel = (type.filter (·.2.kind == .symbol)).map (·.1)
  stop : ((word :: type).map (·.1)).getLast? = some o.stop

section Reading

variable {doc : Document} {node : NodeId} {isParams : Bool} {kind : TextureKind}
  {keyword : TokenId × Token} {tokens ahead type behind rest words : List (TokenId × Token)}
  {fault : PassFault}

/-- A texel type is made of symbols. -/
theorem Texel.symbols (h : Texel words) : ∀ word ∈ words, word.2.kind = .symbol := by
  cases h with
  | basic hword => simpa using hword.1
  | signed hsign hword => simpa using ⟨hsign.1, hword.1⟩

/-- The tokens of a type are words and angle brackets. -/
theorem TypeOf.kinds (h : TypeOf kind type) :
    ∀ entry ∈ type, entry.2.kind ∈ [TokenKind.symbol, .less, .greater] := by
  intro entry hentry
  cases h with
  | surface => simp at hentry
  | texture hless hwords hgreater =>
    rcases List.mem_cons.mp hentry with rfl | hin
    · simp [hless]
    rcases List.mem_append.mp hin with hin | hin
    · simp [hwords.symbols entry hin]
    · rw [List.mem_singleton.mp hin]
      simp [hgreater]

/-- A texel type that is closed. -/
theorem closeAngle_of_greater {text : String} {texel : List TokenId} {close : TokenId × Token}
    (h : close.2.kind = .greater) : Occurrence.closeAngle text texel (close :: rest)
      = .ok ⟨texel, close.1, texel.length + 2⟩ := if_pos h

/-- A texel type that is not closed. -/
theorem closeAngle_of_lacks {text : String} {texel : List TokenId} (h : Lacks .greater rest) :
    Occurrence.closeAngle text texel rest = .error (.missingCloseAngle text) := by
  cases rest with
  | nil => rfl
  | cons next rest => exact if_neg (h next rfl)

/-- Behind the words of a texel type, the closing angle is looked for. -/
theorem texelType_of_texel {text : String} {angle : TokenId × Token} (hless : angle.2.kind = .less)
    (h : Texel words) : Occurrence.texelType text (angle :: (words ++ rest))
      = Occurrence.closeAngle text (words.map (·.1)) rest := by
  cases h with
  | basic hword =>
    obtain ⟨hkind, hsign⟩ := basic_iff.mp hword
    simp [Occurrence.texelType, hless, hkind, hsign]
  | signed hsign hword =>
    obtain ⟨hkind, hsign⟩ := sign_iff.mp hsign
    obtain ⟨hkind', hsign'⟩ := basic_iff.mp hword
    simp [Occurrence.texelType, hless, hkind, hsign, hkind', hsign']

/-- A type of the grammar is read, with its symbols and its last token. -/
theorem texelType_of_type (h : TypeOf .texture type) (text : String)
    (behind : List (TokenId × Token)) :
    ∃ stop, Occurrence.texelType text (type ++ behind)
        = .ok ⟨(type.filter (·.2.kind == .symbol)).map (·.1), stop, type.length⟩
      ∧ (type.map (·.1)).getLast? = some stop := by
  cases h with
  | @texture angle close words hless hwords hgreater =>
    refine ⟨close.1, ?_, ?_⟩
    rotate_left
    · rw [← List.cons_append, List.map_append, List.map_singleton, List.getLast?_concat]
    have hkeep : words.filter (·.2.kind == .symbol) = words :=
      List.filter_eq_self.mpr fun word hword => by simp [hwords.symbols word hword]
    have hfilter : (angle :: (words ++ [close])).filter (·.2.kind == .symbol) = words := by
      simp [hless, hgreater, hkeep]
    rw [List.cons_append, List.append_assoc, texelType_of_texel hless hwords,
      List.singleton_append, closeAngle_of_greater hgreater, hfilter]
    simp

/-- What is wrong with a type is found when it is read. -/
theorem texelType_of_violates {text : String}
    (h : Violates isParams text .texture rest fault) :
    Occurrence.texelType text rest = .error fault
      ∨ ∃ type behind, rest = type ++ behind ∧ TypeOf .texture type ∧ isParams = true
        ∧ Lacks .symbol behind ∧ fault = .missingParamName text := by
  have hnone : ∀ {tokens : List (TokenId × Token)}, Lacks .symbol tokens →
      tokens = [] ∨ ∃ next more, tokens = next :: more ∧ next.2.kind ≠ .symbol := by
    intro tokens hlacks
    cases tokens with
    | nil => exact .inl rfl
    | cons next more => exact .inr ⟨next, more, rfl, hlacks next rfl⟩
  -- the reader asks in the order of the grammar, and stops where it is violated
  cases h with
  | openAngle hlacks =>
    refine .inl ?_
    cases rest with
    | nil => rfl
    | cons next rest => exact if_pos (hlacks next rfl)
  | texelType hless hlacks =>
    refine .inl ?_
    rcases hnone hlacks with rfl | ⟨next, more, rfl, hkind⟩
    · simp [Occurrence.texelType, hless]
    · simp [Occurrence.texelType, hless, hkind]
  | signAlone hless hsign hlacks =>
    obtain ⟨hword, hsign⟩ := sign_iff.mp hsign
    refine .inl ?_
    rcases hnone hlacks with rfl | ⟨next, more, rfl, hkind⟩
    · simp [Occurrence.texelType, hless, hword, hsign]
    · simp [Occurrence.texelType, hless, hword, hsign, hkind]
  | signTwice hless hsign hother =>
    obtain ⟨hword, hsign⟩ := sign_iff.mp hsign
    obtain ⟨hword', htwice⟩ := sign_iff.mp hother
    exact .inl (by simp [Occurrence.texelType, hless, hword, hsign, hword', htwice])
  | closeAngle hless hwords hlacks =>
    exact .inl (by rw [texelType_of_texel hless hwords, closeAngle_of_lacks hlacks])
  | paramName hparams htype hlacks => exact .inr ⟨_, _, rfl, htype, hparams, hlacks, rfl⟩

/-- A parameter that does not begin with a symbol. -/
theorem paramName_of_lacks {text : String} (h : Lacks .symbol rest) :
    Occurrence.paramName text rest = .error (.missingParamName text) := by
  cases rest with
  | nil => rfl
  | cons next rest => exact if_neg (h next rfl)

/-- The parameter that is recorded behind a type. -/
def ParamRead (isParams : Bool) (text : String) (behind : List (TokenId × Token)) :
    Option Param → Prop
  | none => isParams = false
  | some param => isParams = true ∧ Occurrence.paramName text behind = .ok param

/-- Outside of parameter lists no parameter is recorded. -/
theorem ParamRead.none {text : String} {param? : Option Param}
    (h : ParamRead isParams text behind param?) (hnot : isParams = false) : param? = none := by
  cases param? with
  | none => rfl
  | some param => exact Bool.noConfusion (h.1.symm.trans hnot)

/-- In a parameter list the parameter is recorded that is read. -/
theorem ParamRead.some {text : String} {param? : Option Param}
    (h : ParamRead isParams text behind param?) (hparams : isParams = true) :
    ∃ param, param? = some param ∧ Occurrence.paramName text behind = .ok param := by
  cases param? with
  | none => exact Bool.noConfusion (hparams.symm.trans h)
  | some param => exact ⟨param, rfl, h.2⟩

/-- **A keyword that is well formed** is recorded. -/
theorem read_of_wellFormed
    (hcontext : isParams = true → ∃ context, paramContext doc node = .ok context)
    (keyword : TokenId × Token) (h : WellFormed isParams kind type behind) :
    ∃ o, read doc node isParams kind keyword.1 keyword.2 (type ++ behind) = .ok (o, type.length)
      ∧ Recorded node keyword kind type o ∧ ParamRead isParams keyword.2.text behind o.param? := by
  obtain ⟨htype, hname⟩ := h
  unfold read
  extract_lets onward
  -- behind its type a parameter has a name, whichever kind of texture it is
  have honward : ∀ tail : TypeTail, tail.texel = (type.filter (·.2.kind == .symbol)).map (·.1) →
      ((keyword :: type).map (·.1)).getLast? = some tail.stop → tail.length = type.length →
      ∃ o, onward tail = .ok (o, type.length) ∧ Recorded node keyword kind type o
        ∧ ParamRead isParams keyword.2.text behind o.param? := by
    intro tail htexel hstop hlength
    simp only [onward]
    rw [hlength, List.drop_left]
    cases isParams with
    | false => exact ⟨_, rfl, ⟨rfl, rfl, rfl, rfl, htexel, hstop⟩, rfl⟩
    | true =>
      obtain ⟨next, more, rfl, hsymbol⟩ := not_lacks_iff.mp (hname rfl)
      obtain ⟨context, hcontext⟩ := hcontext rfl
      have hparam : Occurrence.paramName keyword.2.text (next :: more)
          = .ok (paramFrom 0 ⟨next.1, next.2.text, next.1⟩ more) := if_pos hsymbol
      rw [hparam, hcontext]
      exact ⟨_, rfl, ⟨rfl, rfl, rfl, rfl, htexel, hstop⟩, rfl, hparam⟩
  cases kind with
  | surface =>
    cases htype
    exact honward ⟨[], keyword.1, 0⟩ rfl rfl rfl
  | texture =>
    obtain ⟨stop, htexel, hstop⟩ := texelType_of_type htype keyword.2.text behind
    rw [htexel]
    refine honward ⟨_, stop, type.length⟩ rfl ?_ rfl
    rw [List.map_cons, List.getLast?_cons, hstop]
    rfl

/-- **A keyword that is not well formed** is an error at its line. -/
theorem read_of_violates (h : Violates isParams keyword.2.text kind rest fault) :
    read doc node isParams kind keyword.1 keyword.2 rest = .error ⟨keyword.2.line, fault⟩ := by
  unfold read
  extract_lets onward
  -- a missing name is the same error, whatever the type before it
  have honward : ∀ tail : TypeTail, isParams = true → Lacks .symbol (rest.drop tail.length) →
      onward tail = .error ⟨keyword.2.line, .missingParamName keyword.2.text⟩ := by
    rintro tail rfl hlacks
    simp only [onward]
    rw [paramName_of_lacks hlacks]
    rfl
  cases kind with
  | surface =>
    cases h with
    | paramName hparams htype hlacks =>
      cases htype
      exact honward ⟨[], keyword.1, 0⟩ hparams hlacks
  | texture =>
    rcases texelType_of_violates h with herror | ⟨type, behind, rfl, htype, hparams, hlacks, rfl⟩
    · rw [herror]
      rfl
    · obtain ⟨stop, htexel, -⟩ := texelType_of_type htype keyword.2.text behind
      rw [htexel]
      exact honward ⟨_, stop, type.length⟩ hparams (by rwa [List.drop_left])

end Reading

/-! ## §3. Keyword after keyword -/

section Scanning

variable {doc : Document} {node : NodeId} {isParams : Bool}
  {keyword : TokenId × Token} {signature : Signature}
  {tokens ahead type behind rest : List (TokenId × Token)} {found : List Occurrence}
  {error : PassError} {fault : PassFault}

/-- The tokens of a type are skipped. -/
theorem scanFrom_skip (skip : Nat) (tokens : List (TokenId × Token)) :
    scanFrom doc node isParams skip tokens
      = scanFrom doc node isParams 0 (tokens.drop skip) := by
  induction tokens generalizing skip with
  | nil => cases skip <;> rfl
  | cons entry rest ih =>
    cases skip with
    | zero => rfl
    | succ skip => exact ih skip

/-- A token that is no keyword is passed. -/
theorem scanFrom_pass {entry : TokenId × Token} (h : signature? entry.2 = none) :
    scanFrom doc node isParams 0 (entry :: rest) = scanFrom doc node isParams 0 rest := by
  rw [scanFrom, h]

/-- A keyword that is well formed is recorded, and reading goes on behind its type. -/
theorem scanFrom_past
    (hcontext : isParams = true → ∃ context, paramContext doc node = .ok context)
    (hsignature : signature? keyword.2 = some signature)
    (hwell : WellFormed isParams signature.kind type behind) :
    ∃ o, Recorded node keyword signature.kind type o
      ∧ ParamRead isParams keyword.2.text behind o.param?
      ∧ scanFrom doc node isParams 0 (keyword :: (type ++ behind))
        = (scanFrom doc node isParams 0 behind).map (o :: ·) := by
  obtain ⟨o, hread, hrecorded, hparam⟩ := read_of_wellFormed hcontext keyword hwell
  refine ⟨o, hrecorded, hparam, ?_⟩
  rw [scanFrom, hsignature]
  dsimp only
  rw [hread]
  show (scanFrom doc node isParams type.length (type ++ behind) >>= fun os => _) = _
  rw [scanFrom_skip, List.drop_left]
  cases scanFrom doc node isParams 0 behind <;> rfl

/-- The first keyword that is not written as it should be is the error. -/
theorem scanFrom_violates (hsignature : signature? keyword.2 = some signature)
    (h : Violates isParams keyword.2.text signature.kind rest fault) :
    scanFrom doc node isParams 0 (keyword :: rest) = .error ⟨keyword.2.line, fault⟩ := by
  rw [scanFrom, hsignature]
  dsimp only
  rw [read_of_violates h]
  rfl

/-- Reading that comes to the tokens ahead ends as it ends there. -/
theorem Reaches.scanFrom_eq
    (hcontext : isParams = true → ∃ context, paramContext doc node = .ok context)
    (h : Reaches isParams tokens ahead) :
    ∃ before, scanFrom doc node isParams 0 tokens
      = (scanFrom doc node isParams 0 ahead).map (before ++ ·) := by
  induction h with
  | here => exact ⟨[], by cases scanFrom doc node isParams 0 _ <;> rfl⟩
  | pass hnone _ ih =>
    obtain ⟨before, hbefore⟩ := ih
    exact ⟨before, by rw [scanFrom_pass hnone, hbefore]⟩
  | past hsignature hwell _ ih =>
    obtain ⟨before, hbefore⟩ := ih
    obtain ⟨o, -, -, hscan⟩ := scanFrom_past hcontext hsignature hwell
    refine ⟨o :: before, ?_⟩
    rw [hscan, hbefore]
    cases scanFrom doc node isParams 0 _ <;> rfl

/-- The use is recorded at a keyword that reading comes to. -/
def ReadAt (node : NodeId) (isParams : Bool) (tokens : List (TokenId × Token)) (o : Occurrence) :
    Prop :=
  ∃ keyword signature type behind, AtKeyword isParams tokens keyword signature (type ++ behind)
    ∧ WellFormed isParams signature.kind type behind ∧ Recorded node keyword signature.kind type o
    ∧ ParamRead isParams keyword.2.text behind o.param?

/-- What is read of tokens that reading comes to. -/
theorem ReadAt.mono {o : Occurrence} (hreach : ∀ {ahead}, Reaches isParams rest ahead →
    Reaches isParams tokens ahead) (h : ReadAt node isParams rest o) :
    ReadAt node isParams tokens o := by
  obtain ⟨keyword, signature, type, behind, ⟨hreaches, hsignature⟩, hmore⟩ := h
  exact ⟨keyword, signature, type, behind, ⟨hreach hreaches, hsignature⟩, hmore⟩

/-- **Reading ends** with the uses at the keywords it came to, or with the first keyword that is
    not well formed. -/
theorem scanFrom_cases
    (hcontext : isParams = true → ∃ context, paramContext doc node = .ok context)
    (tokens : List (TokenId × Token)) :
    (∃ found, scanFrom doc node isParams 0 tokens = .ok found
        ∧ ∀ o ∈ found, ReadAt node isParams tokens o)
      ∨ ∃ keyword signature rest fault, AtKeyword isParams tokens keyword signature rest
        ∧ Violates isParams keyword.2.text signature.kind rest fault
        ∧ scanFrom doc node isParams 0 tokens = .error ⟨keyword.2.line, fault⟩ := by
  induction hlength : tokens.length using Nat.strong_induction_on generalizing tokens with
  | _ length ih =>
  cases tokens with
  | nil => exact .inl ⟨[], rfl, by simp⟩
  | cons entry rest =>
    cases hsignature : signature? entry.2 with
    -- no keyword: the tokens behind it decide
    | none =>
      rw [scanFrom_pass hsignature]
      rcases ih rest.length (by rw [← hlength]; exact Nat.lt_succ_self _) rest rfl with
        ⟨found, hscan, hfound⟩ | ⟨keyword, signature, more, fault, ⟨hreaches, hat⟩, hviolates⟩
      · exact .inl ⟨found, hscan, fun o ho => (hfound o ho).mono (.pass hsignature)⟩
      · exact .inr ⟨keyword, signature, more, fault, ⟨.pass hsignature hreaches, hat⟩, hviolates⟩
    | some signature =>
      rcases wellFormed_or_violates isParams entry.2.text signature.kind rest with
        ⟨type, behind, rfl, hwell⟩ | ⟨fault, hviolates⟩
      · obtain ⟨o, hrecorded, hparam, hscan⟩ := scanFrom_past hcontext hsignature hwell
        -- a keyword with its type: the tokens behind the type decide
        have hshorter : behind.length < length := by
          rw [← hlength, List.length_cons, List.length_append]
          omega
        rw [hscan]
        rcases ih behind.length hshorter behind rfl with
          ⟨found, hmore, hfound⟩ | ⟨keyword, signature', more, fault, ⟨hreaches, hat⟩, hviolates,
            herror⟩
        · refine .inl ⟨o :: found, by rw [hmore]; rfl, fun o' ho' => ?_⟩
          rcases List.mem_cons.mp ho' with rfl | ho'
          · exact ⟨entry, signature, type, behind, ⟨.here, hsignature⟩, hwell, hrecorded, hparam⟩
          · exact (hfound o' ho').mono (.past hsignature hwell)
        · refine .inr ⟨keyword, signature', more, fault, ⟨.past hsignature hwell hreaches, hat⟩,
            hviolates, ?_⟩
          rw [herror]
          rfl
      · exact .inr ⟨entry, signature, rest, fault, ⟨.here, hsignature⟩, hviolates,
          scanFrom_violates hsignature hviolates⟩

/-- A keyword that reading comes to and that is not well formed is the error. -/
theorem AtKeyword.scanFrom_error
    (hcontext : isParams = true → ∃ context, paramContext doc node = .ok context)
    (h : AtKeyword isParams tokens keyword signature rest)
    (hviolates : Violates isParams keyword.2.text signature.kind rest fault) :
    scanFrom doc node isParams 0 tokens = .error ⟨keyword.2.line, fault⟩ := by
  obtain ⟨before, hbefore⟩ := h.reaches.scanFrom_eq hcontext
  rw [hbefore, scanFrom_violates h.signature hviolates]
  rfl

/-- A keyword that reading comes to and that is well formed is recorded. -/
theorem AtKeyword.exists_found
    (hcontext : isParams = true → ∃ context, paramContext doc node = .ok context)
    (h : AtKeyword isParams tokens keyword signature (type ++ behind))
    (hwell : WellFormed isParams signature.kind type behind)
    (hscan : scanFrom doc node isParams 0 tokens = .ok found) :
    ∃ o ∈ found, o.keyword = keyword.1 := by
  obtain ⟨before, hbefore⟩ := h.reaches.scanFrom_eq hcontext
  obtain ⟨o, hrecorded, -, hmore⟩ := scanFrom_past hcontext h.signature hwell
  rw [hbefore, hmore] at hscan
  cases hlater : scanFrom doc node isParams 0 behind with
  | error error =>
    rw [hlater] at hscan
    exact Except.noConfusion rfl rfl (heq_of_eq hscan)
  | ok later =>
    rw [hlater] at hscan
    obtain rfl : before ++ o :: later = found := Except.ok.inj hscan
    exact ⟨o, by simp, hrecorded.keyword⟩

/-- **Reading goes through** when every keyword that it comes to is well formed. -/
theorem scanFrom_ok_iff
    (hcontext : isParams = true → ∃ context, paramContext doc node = .ok context) :
    (∃ found, scanFrom doc node isParams 0 tokens = .ok found)
      ↔ ∀ keyword signature rest, AtKeyword isParams tokens keyword signature rest →
        ∃ type behind, rest = type ++ behind ∧ WellFormed isParams signature.kind type behind := by
  constructor
  · rintro ⟨found, hscan⟩ keyword signature rest hat
    refine (wellFormed_or_violates isParams keyword.2.text signature.kind rest).resolve_right ?_
    rintro ⟨fault, hviolates⟩
    rw [hat.scanFrom_error hcontext hviolates] at hscan
    simp at hscan
  · intro hall
    rcases scanFrom_cases hcontext tokens with
      ⟨found, hscan, -⟩ | ⟨keyword, signature, rest, fault, hat, hviolates, -⟩
    · exact ⟨found, hscan⟩
    · obtain ⟨type, behind, rfl, hwell⟩ := hall keyword signature rest hat
      obtain ⟨o, hread, -⟩ := read_of_wellFormed hcontext keyword hwell
      rw [read_of_violates hviolates] at hread
      simp at hread

/-- **The error** is what is wrong with a keyword that reading comes to. -/
theorem scanFrom_error_iff
    (hcontext : isParams = true → ∃ context, paramContext doc node = .ok context) :
    scanFrom doc node isParams 0 tokens = .error error
      ↔ ∃ keyword signature rest, AtKeyword isParams tokens keyword signature rest
        ∧ Violates isParams keyword.2.text signature.kind rest error.fault
        ∧ error.line = keyword.2.line := by
  constructor
  · intro hscan
    rcases scanFrom_cases hcontext tokens with
      ⟨found, hok, -⟩ | ⟨keyword, signature, rest, fault, hat, hviolates, herror⟩
    · rw [hscan] at hok
      simp at hok
    · rw [hscan] at herror
      obtain rfl := Except.error.inj herror
      exact ⟨keyword, signature, rest, hat, hviolates, rfl⟩
  · rintro ⟨keyword, signature, rest, hat, hviolates, hline⟩
    rw [hat.scanFrom_error hcontext hviolates, ← hline]

/-- Every use that is recorded is at a keyword that reading comes to. -/
theorem readAt_of_scanFrom
    (hcontext : isParams = true → ∃ context, paramContext doc node = .ok context)
    (hscan : scanFrom doc node isParams 0 tokens = .ok found) {o : Occurrence} (ho : o ∈ found) :
    ReadAt node isParams tokens o := by
  rcases scanFrom_cases hcontext tokens with ⟨found', hok, hfound⟩ | ⟨_, _, _, _, -, -, herror⟩
  · rw [hscan] at hok
    obtain rfl := Except.ok.inj hok
    exact hfound o ho
  · rw [hscan] at herror
    simp at herror

end Scanning

end Grammar

end KernelPrep.Occurrence
