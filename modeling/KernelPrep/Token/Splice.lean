/-
  KernelPrep.Token.Splice — cutting runs out of the token list and linking others in.

  Every operation first walks the runs it is given and checks that each token exists and
  is linked, or detached, as required; only then does it touch a link.  An operation that
  fails therefore yields no new list at all.

  Main definitions:
    * `Splice`                 — the record of a completed change;
    * `TokenList.walk`         — the checking walk;
    * `TokenList.replace`      — a detached run for a linked one, or nothing for it;
    * `TokenList.insertBefore`, `TokenList.insertAfter` — a detached run beside a token;
    * `TokenList.discard`, `TokenList.deleteAll`        — destroying tokens.
-/
import KernelPrep.Token.List

namespace KernelPrep

/-- What a completed change did to the list. -/
structure Splice where
  /-- The tokens cut out, in order; they no longer exist. -/
  removed : List TokenId := []
  /-- The run linked in, if any. -/
  inserted? : Option TokenRange := none
  /-- The neighbour before the changed place. -/
  before? : Option TokenId := none
  /-- The neighbour after the changed place. -/
  after? : Option TokenId := none
deriving DecidableEq, Repr

namespace TokenList

/-! ## §1. The checking walk -/

/-- The tokens from `id?` through the end of `range`, each of which must be linked, or
    detached, as `linked` says.  The first token that fails decides the error; links that
    run out before the end of the range mean that the range is no run. -/
def walkFrom (list : TokenList) (range : TokenRange) (linked : Bool) :
    Nat → Option TokenId → Except SpliceError (List TokenId)
  | 0, _ => .error (.broken range)
  | _, none => .error (.broken range)
  | fuel + 1, some id =>
    match list.get? id with
    | none => .error (.missing id)
    | some token =>
      -- existence is checked before linkage, and both before the end of the range
      if token.linked != linked then
        .error (if linked then .notLinked id else .alreadyLinked id)
      else if id = range.last then .ok [id]
      else (walkFrom list range linked fuel token.next?).map (id :: ·)

/-- The tokens of a range, all linked or all detached. -/
def walk (list : TokenList) (range : TokenRange) (linked : Bool) :
    Except SpliceError (List TokenId) :=
  list.walkFrom range linked list.walkBound (some range.first)

/-- Check that a token exists and is linked. -/
def checkLinked (list : TokenList) (id : TokenId) : Except SpliceError Unit :=
  match list.get? id with
  | none => .error (.missing id)
  | some token => if token.linked then .ok () else .error (.notLinked id)

/-! ## §2. Marking and destroying -/

/-- Count detached tokens among the linked ones. -/
def markLinked (list : TokenList) (ids : List TokenId) : TokenList :=
  let marked := ids.foldl (fun l id => l.modify id fun token => { token with linked := true }) list
  { marked with length := marked.length + ids.length }

/-- Empty the slots of the given tokens. -/
def destroy (list : TokenList) (ids : List TokenId) : TokenList :=
  ids.foldl (fun l id => { l with slots := l.slots.modify id.index fun _ => none }) list

/-- Link a checked run between two neighbours. -/
def linkRun (list : TokenList) (before? after? : Option TokenId) (run : TokenRange)
    (ids : List TokenId) : TokenList :=
  ((list.link before? (some run.first)).link (some run.last) after?).markLinked ids

/-! ## §3. The operations -/

/-- Put the detached run `new?` in place of the linked run `old`, or cut `old` out when
    there is none.  The tokens cut out are destroyed. -/
def replace (list : TokenList) (old : TokenRange) (new? : Option TokenRange) :
    Except SpliceError (Splice × TokenList) := do
  let removed ← list.walk old true
  let inserted ← match new? with
    | some run => list.walk run false
    | none => .ok []
  -- both runs are checked: from here on nothing fails
  let before? := list.prev? old.first
  let after? := list.next? old.last
  let relinked := match new? with
    | some run => list.linkRun before? after? run inserted
    | none => list.link before? after?
  -- the length counts the new run from `linkRun` on, and loses the old one last
  let cut := relinked.destroy removed
  return ({ removed, inserted? := new?, before?, after? },
    { cut with length := cut.length - removed.length })

/-- Link a detached run directly before `anchor`. -/
def insertBefore (list : TokenList) (anchor : TokenId) (run : TokenRange) :
    Except SpliceError (Splice × TokenList) := do
  -- a bad anchor is reported before a bad run
  list.checkLinked anchor
  let ids ← list.walk run false
  let before? := list.prev? anchor
  return ({ inserted? := some run, before?, after? := some anchor },
    list.linkRun before? (some anchor) run ids)

/-- Link a detached run directly after `anchor`. -/
def insertAfter (list : TokenList) (anchor : TokenId) (run : TokenRange) :
    Except SpliceError (Splice × TokenList) := do
  list.checkLinked anchor
  let ids ← list.walk run false
  let after? := list.next? anchor
  return ({ inserted? := some run, before? := some anchor, after? },
    list.linkRun (some anchor) after? run ids)

/-- Destroy a detached run that will not be linked. -/
def discard (list : TokenList) (run : TokenRange) : Except SpliceError TokenList := do
  let ids ← list.walk run false
  return list.destroy ids

/-- Destroy every token, linked or detached. -/
def deleteAll (list : TokenList) : TokenList :=
  { source := list.source, slots := list.slots.map fun _ => none }

end TokenList

end KernelPrep
