/-
  KernelPrep.Token.Kind — the kinds of tokens.

  Operators of one character carry their character code as number, operators of two
  characters are numbered from 256, and all other kinds from 512; the three families can
  therefore be told apart, and an operator found, by number alone.

  Main definitions:
    * `TokenKind`           — the kinds;
    * `TokenKind.code`      — their numbers;
    * `TokenKind.spelling?` — the fixed text of operators and keywords;
    * `TokenKind.ofByte?`, `TokenKind.ofPair?`, `TokenKind.keyword?` — the kind of a text.

  Main statements:
    * `TokenKind.mem_all`        — the list `TokenKind.all` misses no kind;
    * `TokenKind.code_injective` — no two kinds share a number.
-/

namespace KernelPrep

/-! ## §1. The kinds -/

/-- The kind of a token. -/
inductive TokenKind where
  | lparen | rparen | lbracket | rbracket | lbrace | rbrace | less | greater | comma
  | semicolon | colon | dot | plus | minus | star | slash | percent | assign | bang | tilde
  | amp | pipe | caret | question | hash | backslash
  | lessEq | greaterEq | eqEq | notEq | shl | shr | plusPlus | minusMinus | arrow | andAnd
  | orOr | plusAssign | minusAssign | starAssign | slashAssign | percentAssign | ampAssign
  | pipeAssign | caretAssign | colonColon | hashHash
  | comment | string | number | symbol | whitespace | eol | typedef | struct
deriving DecidableEq, Repr, Inhabited

namespace TokenKind

/-- All kinds, family by family. -/
def all : List TokenKind :=
  [.lparen, .rparen, .lbracket, .rbracket, .lbrace, .rbrace, .less, .greater, .comma,
    .semicolon, .colon, .dot, .plus, .minus, .star, .slash, .percent, .assign, .bang, .tilde,
    .amp, .pipe, .caret, .question, .hash, .backslash, .lessEq, .greaterEq, .eqEq, .notEq,
    .shl, .shr, .plusPlus, .minusMinus, .arrow, .andAnd, .orOr, .plusAssign, .minusAssign,
    .starAssign, .slashAssign, .percentAssign, .ampAssign, .pipeAssign, .caretAssign,
    .colonColon, .hashHash, .comment, .string, .number, .symbol, .whitespace, .eol, .typedef,
    .struct]

/-- No kind is missing from the list. -/
theorem mem_all (kind : TokenKind) : kind ∈ all := by cases kind <;> decide

/-! ## §2. Numbers and names -/

/-- The number of a kind. -/
def code : TokenKind → Nat
  | .lparen => 0x28
  | .rparen => 0x29
  | .lbracket => 0x5B
  | .rbracket => 0x5D
  | .lbrace => 0x7B
  | .rbrace => 0x7D
  | .less => 0x3C
  | .greater => 0x3E
  | .comma => 0x2C
  | .semicolon => 0x3B
  | .colon => 0x3A
  | .dot => 0x2E
  | .plus => 0x2B
  | .minus => 0x2D
  | .star => 0x2A
  | .slash => 0x2F
  | .percent => 0x25
  | .assign => 0x3D
  | .bang => 0x21
  | .tilde => 0x7E
  | .amp => 0x26
  | .pipe => 0x7C
  | .caret => 0x5E
  | .question => 0x3F
  | .hash => 0x23
  | .backslash => 0x5C
  | .lessEq => 0x100
  | .greaterEq => 0x101
  | .eqEq => 0x102
  | .notEq => 0x103
  | .shl => 0x104
  | .shr => 0x105
  | .plusPlus => 0x106
  | .minusMinus => 0x107
  | .arrow => 0x108
  | .andAnd => 0x109
  | .orOr => 0x10A
  | .plusAssign => 0x10B
  | .minusAssign => 0x10C
  | .starAssign => 0x10D
  | .slashAssign => 0x10E
  | .percentAssign => 0x10F
  | .ampAssign => 0x110
  | .pipeAssign => 0x111
  | .caretAssign => 0x112
  | .colonColon => 0x113
  | .hashHash => 0x114
  | .comment => 0x200
  | .string => 0x201
  | .number => 0x202
  | .symbol => 0x203
  | .whitespace => 0x204
  | .eol => 0x205
  | .typedef => 0x206
  | .struct => 0x207

/-- No two kinds share a number. -/
theorem code_injective {a b : TokenKind} (h : a.code = b.code) : a = b := by
  have key : ∀ a ∈ all, ∀ b ∈ all, a.code = b.code → a = b := by decide
  exact key a (mem_all a) b (mem_all b) h

/-- The name of a kind, as token and tree listings show it. -/
def name : TokenKind → String
  | .lparen => "LParen"
  | .rparen => "RParen"
  | .lbracket => "LBracket"
  | .rbracket => "RBracket"
  | .lbrace => "LBrace"
  | .rbrace => "RBrace"
  | .less => "Less"
  | .greater => "Greater"
  | .comma => "Comma"
  | .semicolon => "Semicolon"
  | .colon => "Colon"
  | .dot => "Dot"
  | .plus => "Plus"
  | .minus => "Minus"
  | .star => "Star"
  | .slash => "Slash"
  | .percent => "Percent"
  | .assign => "Assign"
  | .bang => "Bang"
  | .tilde => "Tilde"
  | .amp => "Amp"
  | .pipe => "Pipe"
  | .caret => "Caret"
  | .question => "Question"
  | .hash => "Hash"
  | .backslash => "Backslash"
  | .lessEq => "LessEq"
  | .greaterEq => "GreaterEq"
  | .eqEq => "EqEq"
  | .notEq => "NotEq"
  | .shl => "Shl"
  | .shr => "Shr"
  | .plusPlus => "PlusPlus"
  | .minusMinus => "MinusMinus"
  | .arrow => "Arrow"
  | .andAnd => "AndAnd"
  | .orOr => "OrOr"
  | .plusAssign => "PlusAssign"
  | .minusAssign => "MinusAssign"
  | .starAssign => "StarAssign"
  | .slashAssign => "SlashAssign"
  | .percentAssign => "PercentAssign"
  | .ampAssign => "AmpAssign"
  | .pipeAssign => "PipeAssign"
  | .caretAssign => "CaretAssign"
  | .colonColon => "ColonColon"
  | .hashHash => "HashHash"
  | .comment => "Comment"
  | .string => "String"
  | .number => "Number"
  | .symbol => "Symbol"
  | .whitespace => "Whitespace"
  | .eol => "Eol"
  | .typedef => "Typedef"
  | .struct => "Struct"

/-- The kind of a given name. -/
def ofName? (name : String) : Option TokenKind := all.find? (·.name == name)

/-- The character of an operator of one character. -/
def char? (kind : TokenKind) : Option Char :=
  if kind.code < 0x80 then some (Char.ofNat kind.code) else none

/-! ## §3. Spelling -/

/-- The fixed text of an operator or keyword. -/
def spelling? : TokenKind → Option String
  | .lparen => some "("
  | .rparen => some ")"
  | .lbracket => some "["
  | .rbracket => some "]"
  | .lbrace => some "\x7b"
  | .rbrace => some "\x7d"
  | .less => some "<"
  | .greater => some ">"
  | .comma => some ","
  | .semicolon => some ";"
  | .colon => some ":"
  | .dot => some "."
  | .plus => some "+"
  | .minus => some "-"
  | .star => some "*"
  | .slash => some "/"
  | .percent => some "%"
  | .assign => some "="
  | .bang => some "!"
  | .tilde => some "~"
  | .amp => some "&"
  | .pipe => some "|"
  | .caret => some "^"
  | .question => some "?"
  | .hash => some "#"
  | .backslash => some "\\"
  | .lessEq => some "<="
  | .greaterEq => some ">="
  | .eqEq => some "=="
  | .notEq => some "!="
  | .shl => some "<<"
  | .shr => some ">>"
  | .plusPlus => some "++"
  | .minusMinus => some "--"
  | .arrow => some "->"
  | .andAnd => some "&&"
  | .orOr => some "||"
  | .plusAssign => some "+="
  | .minusAssign => some "-="
  | .starAssign => some "*="
  | .slashAssign => some "/="
  | .percentAssign => some "%="
  | .ampAssign => some "&="
  | .pipeAssign => some "|="
  | .caretAssign => some "^="
  | .colonColon => some "::"
  | .hashHash => some "##"
  | .typedef => some "typedef"
  | .struct => some "struct"
  | .comment | .string | .number | .symbol | .whitespace | .eol => none

/-- How messages call a kind: by its quoted text, or by a phrase when that varies. -/
def describe (kind : TokenKind) : String :=
  match kind.spelling? with
  | some text => "`" ++ text ++ "`"
  | none =>
    match kind with
    | .comment => "comment"
    | .string => "string literal"
    | .number => "number"
    | .symbol => "identifier"
    | .whitespace => "whitespace"
    | _ => "end of line"

/-- The operator of one character with the given code. -/
def ofByte? (byte : UInt8) : Option TokenKind := all.find? (·.code == byte.toNat)

/-- The operator spelled by two bytes. -/
def ofPair? (first second : UInt8) : Option TokenKind :=
  all.find? fun kind =>
    0x100 ≤ kind.code && kind.code < 0x200
      && kind.spelling? == some (String.ofList [Char.ofUInt8 first, Char.ofUInt8 second])

/-- The keyword that an identifier spells, if it is one. -/
def keyword? : String → Option TokenKind
  | "typedef" => some .typedef
  | "struct" => some .struct
  | _ => none

/-! ## §4. Classes -/

/-- Blanks, line ends and comments: what the outline of a file does not depend on. -/
def isTrivia : TokenKind → Bool
  | .whitespace | .eol | .comment => true
  | _ => false

/-- The kinds whose tokens are compared by content: identifiers and keywords. -/
def isNamed : TokenKind → Bool
  | .symbol | .typedef | .struct => true
  | _ => false

/-- The opening delimiters. -/
def isOpener : TokenKind → Bool
  | .lparen | .lbracket | .lbrace => true
  | _ => false

/-- The closing delimiters. -/
def isCloser : TokenKind → Bool
  | .rparen | .rbracket | .rbrace => true
  | _ => false

/-- The delimiter that closes an opening one. -/
def closer? : TokenKind → Option TokenKind
  | .lparen => some .rparen
  | .lbracket => some .rbracket
  | .lbrace => some .rbrace
  | _ => none

end TokenKind

end KernelPrep
