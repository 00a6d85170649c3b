/-
  KernelPrep.Proofs.Outline.Productions — the readers that call each other.

  The readers of constructs carry a bound on the depth of calls, so that they are functions.
  Here each is said once more without it, by the readers that it calls: a rule makes readers
  out of readers, and the bound is not part of it.  The readers with a bound obey the rule, one
  bound calling the next smaller one.

  Main definitions:
    * `Outline.Production`    — the readers, with what they are told;
    * `Outline.Readers`       — a reader of each;
    * `Outline.Readers.rule`  — what each does, by the readers that it calls;
    * `Outline.Readers.bounded` — the readers with a bound on the depth of calls.

  Main statement: `Outline.Readers.bounded_rule` — the readers with a bound obey the rule.
-/
import KernelPrep.Outline.Parse

namespace KernelPrep.Outline

/-! ## §1. Productions -/

/-- The readers that call each other, or themselves, with what they are told. -/
inductive Production where
  | item
  | linkageBlock
  | linkageItems
  | typedefItem
  | structItem
  | structHead
  | declaration
  | functionItem (params terminator : TokenId) (body : Bool)
  | block
  | blockItems
  | statement
  | statementTail (goesOn : Bool)
  /-- The declarators behind the body of a struct, inside of the groups that `pending` closes. -/
  | declarators (pending : List TokenKind) (initialiser : Bool)
  /-- What stands behind a parameter list, inside of the groups that `pending` closes. -/
  | qualifiers (terminator : TokenId) (pending : List TokenKind)
  /-- A group, up to where nothing is left to be closed. -/
  | group (pending : List TokenKind)
deriving DecidableEq

/-- What a production gives when it goes through. -/
abbrev Production.Yield : Production → Type
  | .linkageItems | .blockItems | .statementTail _ | .declarators _ _ => List Skeleton
  | .structHead => Leaf × List Skeleton
  | .qualifiers _ _ | .group _ => Unit
  | _ => Skeleton

/-- A reader of each production. -/
abbrev Readers := (p : Production) → Reading p.Yield

namespace Readers

/-- Declarators behind the next leaf, inside of the groups that `pending` closes. -/
def declaratorsRule (r : Readers) (pending : List TokenKind) (initialiser : Bool) :
    Reading (List Skeleton) := fun feed =>
  match feed.rest with
  | [] => failAtEnd (pending.headD .semicolon) feed
  | leaf :: _ =>
    if pending.isEmpty && leaf.kind.isCloser then
      failHere (.unexpected leaf.kind .semicolon) feed
    else if !pending.isEmpty || leaf.kind.isOpener then
      match nest pending leaf.kind with
      | .error fault => failHere fault feed
      | .ok pending => r (.declarators pending initialiser) feed.bump
    else
      match leaf.kind with
      | .semicolon => .ok [] feed.bump
      | .symbol =>
        if initialiser then r (.declarators [] true) feed.bump
        else
          match r (.declarators [] false) { feed.bump with opened := feed.opened + 1 } with
          | .ok names feed => .ok (.leaf .structName (.single leaf.id) :: names) feed
          | .error error feed => .error error feed
      | .assign => r (.declarators [] true) feed.bump
      | .comma => r (.declarators [] false) feed.bump
      | _ => r (.declarators [] initialiser) feed.bump

/-- What stands behind a parameter list, behind the next leaf. -/
def qualifiersRule (r : Readers) (terminator : TokenId) (pending : List TokenKind) :
    Reading Unit := fun feed =>
  match feed.rest with
  | [] =>
    match pending with
    | [] => .ok () feed
    | expected :: _ => failAtEnd expected feed
  | leaf :: _ =>
    if pending.isEmpty && leaf.id = terminator then .ok () feed
    else if pending.isEmpty && leaf.kind != .lparen && leaf.kind != .lbracket then
      r (.qualifiers terminator []) feed.bump
    else
      match nest pending leaf.kind with
      | .error fault => failHere fault feed
      | .ok pending => r (.qualifiers terminator pending) feed.bump

/-- A group behind the next leaf. -/
def groupRule (r : Readers) (pending : List TokenKind) : Reading Unit := fun feed =>
  match feed.rest with
  | [] => failAtEnd (pending.headD .rparen) feed
  | leaf :: _ =>
    match nest pending leaf.kind with
    | .error fault => .error ⟨leaf.line, fault⟩ feed
    | .ok [] => .ok () feed.bump
    | .ok pending => r (.group pending) feed.bump

/-- **The rule**: what each production does, `r` being what the others and itself do. -/
def rule (r : Readers) : Readers
  | .item => do
    if atLinkageBlock (← get) then r .linkageBlock
    else
      match ← peekKind? with
      | some .hash => directive
      | some .typedef => r .typedefItem
      | some .struct => r .structItem
      | some .semicolon => loneToken
      | some .rbrace => failHere (.unbalanced .rbrace)
      | some .rparen => failHere (.unbalanced .rparen)
      | some .rbracket => failHere (.unbalanced .rbracket)
      | _ => r .declaration
  | .linkageBlock => do
    let first ← firstLeaf .lbrace
    openNode
    bump
    let _ ← expect .string
    let _ ← expect .lbrace
    let children ← r .linkageItems
    let _ ← expect .rbrace
    return Skeleton.node .linkageBlock (← rangeFrom first) children
  | .linkageItems => do
    match ← peekKind? with
    | none => failAtEnd .rbrace
    | some .rbrace => return []
    | some _ =>
      let child ← r .item
      return child :: (← r .linkageItems)
  | .typedefItem => do
    let first ← expect .typedef
    openNode
    let children ← if atStructBody (← get) then do
        let (structFirst, parts) ← r .structHead
        let defn := Skeleton.node .structDefn (← rangeFrom structFirst) parts
        let names ← r (.declarators [] false)
        pure (defn :: names)
      else r (.statementTail true)
    return Skeleton.node .typedef (← rangeFrom first) children
  | .structItem => do
    let feed ← get
    if atStructDecl feed then structDecl
    else if atStructBody feed then do
      let (first, parts) ← r .structHead
      let names ← r (.declarators [] false)
      return Skeleton.node .structDefn (← rangeFrom first) (parts ++ names)
    else r .declaration
  | .structHead => do
    let first ← expect .struct
    openNode
    let tag ← if (← peekKind?) = some .symbol then
        pure [← tokenNode .structTag .symbol]
      else pure []
    let body ← r .block
    return (first, tag ++ [body])
  | .declaration => do
    match classify (← get).rest with
    | .function params terminator body => r (.functionItem params terminator body)
    | .statement => r .statement
  | .functionItem params terminator body => do
    let first ← firstLeaf .lparen
    openNode
    modify fun feed => feed.bumpWhile (·.id != params)
    r (.group [])
    let close? := (← get).last?
    openNode
    let list := .leaf .functionParams ⟨params, (close?.map (·.id)).getD params⟩
    r (.qualifiers terminator [])
    if body then do
      let child ← r .block
      return Skeleton.node .functionDefn (← rangeFrom first) [list, child]
    else do
      let _ ← expect .semicolon
      return Skeleton.node .functionDecl (← rangeFrom first) [list]
  | .block => do
    let first ← expect .lbrace
    openNode
    let children ← r .blockItems
    let _ ← expect .rbrace
    return Skeleton.node .statementBlock (← rangeFrom first) children
  | .blockItems => do
    match ← peekKind? with
    | none => failAtEnd .rbrace
    | some .rbrace => return []
    | some kind =>
      let child ← match kind with
        | .hash => directive
        | .lbrace => r .block
        | .semicolon => loneToken
        | .rparen | .rbracket => failHere (.unexpected kind .rbrace)
        | _ => r .statement
      return child :: (← r .blockItems)
  | .statement => do
    let first ← firstLeaf .semicolon
    openNode
    let blocks ← r (.statementTail (first.kind == .struct || aggregateWords.contains first.text))
    return Skeleton.node .statement (← rangeFrom first) blocks
  | .statementTail goesOn => do
    match ← peekKind? with
    | none | some .rbrace => return []
    | some kind =>
      match kind with
      | .semicolon => do bump; return []
      | .lbrace => do
        let child ← r .block
        if goesOn then return child :: (← r (.statementTail goesOn)) else return [child]
      | .lparen | .lbracket => do r (.group []); r (.statementTail goesOn)
      | .rparen | .rbracket => failHere (.unbalanced kind)
      | .assign => do bump; r (.statementTail true)
      | _ => do bump; r (.statementTail goesOn)
  | .declarators pending initialiser => declaratorsRule r pending initialiser
  | .qualifiers terminator pending => qualifiersRule r terminator pending
  | .group pending => groupRule r pending

/-- The readers with a bound on the depth of calls. -/
def bounded (depth : Nat) : Readers
  | .item => item depth
  | .linkageBlock => linkageBlock depth
  | .linkageItems => linkageItems depth
  | .typedefItem => typedefItem depth
  | .structItem => structItem depth
  | .structHead => structHead depth
  | .declaration => declaration depth
  | .functionItem params terminator body => functionItem depth params terminator body
  | .block => block depth
  | .blockItems => blockItems depth
  | .statement => statement depth
  | .statementTail goesOn => statementTail depth goesOn
  | .declarators pending initialiser => fun feed =>
    declaratorsFrom feed.opened pending initialiser feed.last? feed.rest
  | .qualifiers terminator pending => fun feed =>
    qualifiersFrom feed.opened terminator pending feed.last? feed.rest
  | .group pending => fun feed => groupFrom feed.opened pending feed.last? feed.rest

/-! ## §2. The rule is that of the readers with a bound -/

/-- Reading declarators within a bound goes by their rule. -/
theorem bounded_declarators (depth : Nat) (pending : List TokenKind) (initialiser : Bool) :
    bounded depth (.declarators pending initialiser)
      = rule (bounded depth) (.declarators pending initialiser) := by
  funext feed
  obtain ⟨rest, last?, opened⟩ := feed
  cases rest with
  | nil => rfl
  | cons leaf rest =>
    show declaratorsFrom opened pending initialiser last? (leaf :: rest) = _
    unfold declaratorsFrom
    rfl

/-- Reading qualifiers within a bound goes by their rule. -/
theorem bounded_qualifiers (depth : Nat) (terminator : TokenId) (pending : List TokenKind) :
    bounded depth (.qualifiers terminator pending)
      = rule (bounded depth) (.qualifiers terminator pending) := by
  funext feed
  obtain ⟨rest, last?, opened⟩ := feed
  cases rest with
  | nil => cases pending <;> rfl
  | cons leaf rest =>
    show qualifiersFrom opened terminator pending last? (leaf :: rest) = _
    unfold qualifiersFrom
    rfl

/-- Reading a group within a bound goes by its rule. -/
theorem bounded_group (depth : Nat) (pending : List TokenKind) :
    bounded depth (.group pending) = rule (bounded depth) (.group pending) := by
  funext feed
  obtain ⟨rest, last?, opened⟩ := feed
  cases rest with
  | nil => rfl
  | cons leaf rest =>
    show groupFrom opened pending last? (leaf :: rest) = _
    unfold groupFrom
    rfl

/-- **The readers with a bound obey the rule**: with one more call allowed they do what the rule
    makes of the readers with the bound, or of themselves where no call is counted. -/
theorem bounded_rule (depth : Nat) (p : Production) :
    ∃ depth', depth ≤ depth' ∧ bounded (depth + 1) p = rule (bounded depth') p := by
  cases p with
  | item => exact ⟨depth, Nat.le_refl _, by rw [bounded, item]; rfl⟩
  | linkageBlock => exact ⟨depth, Nat.le_refl _, by rw [bounded, linkageBlock]; rfl⟩
  | linkageItems => exact ⟨depth, Nat.le_refl _, by rw [bounded, linkageItems]; rfl⟩
  | typedefItem => exact ⟨depth + 1, Nat.le_succ _, by rw [bounded, typedefItem]; rfl⟩
  | structItem => exact ⟨depth + 1, Nat.le_succ _, by rw [bounded, structItem]; rfl⟩
  | structHead => exact ⟨depth + 1, Nat.le_succ _, by rw [bounded, structHead]; rfl⟩
  | declaration => exact ⟨depth + 1, Nat.le_succ _, by rw [bounded, declaration]; rfl⟩
  | functionItem params terminator body =>
    exact ⟨depth + 1, Nat.le_succ _, by rw [bounded, functionItem]; rfl⟩
  | block => exact ⟨depth, Nat.le_refl _, by rw [bounded, block]; rfl⟩
  | blockItems => exact ⟨depth, Nat.le_refl _, by rw [bounded, blockItems]; rfl⟩
  | statement => exact ⟨depth, Nat.le_refl _, by rw [bounded, statement]; rfl⟩
  | statementTail goesOn => exact ⟨depth, Nat.le_refl _, by rw [bounded, statementTail]; rfl⟩
  | declarators pending initialiser => exact ⟨depth + 1, Nat.le_succ _, bounded_declarators _ _ _⟩
  | qualifiers terminator pending => exact ⟨depth + 1, Nat.le_succ _, bounded_qualifiers _ _ _⟩
  | group pending => exact ⟨depth + 1, Nat.le_succ _, bounded_group _ _⟩

end Readers

end KernelPrep.Outline
