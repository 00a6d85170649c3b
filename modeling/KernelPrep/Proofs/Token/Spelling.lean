/-
  KernelPrep.Proofs.Token.Spelling — tokens by kind and text.

  What a file says is the kinds and texts of its tokens; handles, links and lines are only
  how the list keeps them.

  Main definitions:
    * `Spelling`         — kinds and texts;
    * `TokenList.spells` — those of the given tokens.

  Main statement: `TokenList.text_spells` — the text of a spelling is that of its tokens.
-/
import KernelPrep.Proofs.Token.Splicing

namespace KernelPrep

/-- Tokens by kind and text. -/
abbrev Spelling := List (TokenKind × String)

/-- The text of tokens, one behind the other. -/
def Spelling.text (spelling : Spelling) : String := String.join (spelling.map (·.2))

/-- The kinds and texts of the tokens of a list. -/
def TokenList.spells (list : TokenList) (ids : List TokenId) : Spelling :=
  ids.filterMap fun id => (list.get? id).map fun token => (token.kind, token.text)

namespace Spelling

theorem text_cons (kind : TokenKind) (text : String) (rest : Spelling) :
    Spelling.text ((kind, text) :: rest) = text ++ Spelling.text rest := by
  unfold Spelling.text
  rw [List.map_cons, String.join_cons]

theorem text_append (a b : Spelling) : Spelling.text (a ++ b) = a.text ++ b.text := by
  unfold Spelling.text
  rw [List.map_append, String.join_append]

theorem text_snoc (spelling : Spelling) (kind : TokenKind) (text : String) :
    Spelling.text (spelling ++ [(kind, text)]) = spelling.text ++ text := by
  rw [text_append, text_cons]
  simp [Spelling.text]

end Spelling

namespace TokenList

theorem spells_append (list : TokenList) (a b : List TokenId) :
    list.spells (a ++ b) = list.spells a ++ list.spells b := List.filterMap_append

theorem spells_eq_face? (list : TokenList) (ids : List TokenId) :
    list.spells ids
      = ids.filterMap fun id => (list.face? id).map fun face => (face.1, face.2.1) := by
  unfold spells face?
  exact List.filterMap_congr fun x _ => by rw [Option.map_map]; rfl

theorem spells_congr {list list' : TokenList} {ids : List TokenId}
    (h : ∀ x ∈ ids, list'.face? x = list.face? x) : list'.spells ids = list.spells ids := by
  rw [spells_eq_face?, spells_eq_face?]
  exact List.filterMap_congr fun x hx => by rw [h x hx]

/-- The text of the tokens spelled out is the text of the tokens. -/
theorem text_spells (list : TokenList) (ids : List TokenId) :
    Spelling.text (list.spells ids) = String.join (ids.map list.textOf) := by
  unfold Spelling.text
  induction ids with
  | nil => rfl
  | cons id rest ih =>
    rw [List.map_cons, String.join_cons, ← ih]
    unfold spells textOf
    rw [List.filterMap_cons]
    cases list.get? id with
    | none => simp
    | some token => simp

end TokenList

end KernelPrep
