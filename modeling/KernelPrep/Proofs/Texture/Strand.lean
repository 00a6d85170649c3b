/-
  KernelPrep.Proofs.Texture.Strand — a file that was edited, by the tokens it was read from.

  While a file is rewritten, every token it was read with keeps its place: what was put
  before it, what stands for it and what was put behind it form its strand, and the file is
  the strands of the original tokens, in the original order.  An edit changes the strand of
  the token at which it works and no other.

  Main definitions:
    * `Strand` — what an original token has become;
    * `Laid`   — the file is laid out in strands.

  Main statements:
    * `Laid.newRun`       — a new detached run touches no strand;
    * `Laid.insertBefore`, `Laid.insertAfter`, `Laid.insertBehind` — a run goes into a strand;
    * `Laid.replace`      — a run takes the place of whole tokens.
-/
import KernelPrep.Proofs.Outline.Leaves
import KernelPrep.Proofs.Token.Making

namespace KernelPrep

/-- What an update keeps at its place it keeps everywhere. -/
theorem update_proj {α β γ : Type} [DecidableEq α] {f : α → β} {a : α} {b : β} (p : β → γ)
    (h : p b = p (f a)) (x : α) : p (Function.update f a b x) = p (f x) := by
  by_cases hx : x = a
  · rw [hx, Function.update_self, h]
  · rw [Function.update_of_ne hx]

/-- What a token of the original file has become: the tokens put before it, those that stand
    for it, and those put behind it. -/
structure Strand where
  lead : List TokenId
  core : List TokenId
  trail : List TokenId

namespace Strand

/-- The tokens of a strand. -/
def ids (s : Strand) : List TokenId := s.lead ++ s.core ++ s.trail

/-- A token that was left alone. -/
def whole (id : TokenId) : Strand := ⟨[], [id], []⟩

/-- A token that was cut out. -/
def empty : Strand := ⟨[], [], []⟩

/-- The strands of a file, one behind the other. -/
def lay (strand : TokenId → Strand) (file : List TokenId) : List TokenId :=
  file.flatMap fun id => (strand id).ids

variable {strand strand' : TokenId → Strand} {a b cut file : List TokenId} {id : TokenId}

theorem lay_append (strand : TokenId → Strand) (a b : List TokenId) :
    lay strand (a ++ b) = lay strand a ++ lay strand b := List.flatMap_append

theorem lay_cons (strand : TokenId → Strand) (id : TokenId) (file : List TokenId) :
    lay strand (id :: file) = (strand id).ids ++ lay strand file := List.flatMap_cons

theorem lay_congr (h : ∀ x ∈ file, strand' x = strand x) : lay strand' file = lay strand file := by
  unfold lay
  exact List.flatMap_congr fun x hx => by rw [h x hx]

theorem mem_lay {x : TokenId} : x ∈ lay strand file ↔ ∃ id ∈ file, x ∈ (strand id).ids :=
  List.mem_flatMap

theorem lay_whole (file : List TokenId) : lay whole file = file := by
  induction file with
  | nil => rfl
  | cons id rest ih =>
    rw [lay_cons, ih]
    rfl

/-- One strand changed. -/
theorem lay_update (hnodup : (a ++ id :: b).Nodup) (s : Strand) :
    lay (Function.update strand id s) (a ++ id :: b) = lay strand a ++ s.ids ++ lay strand b := by
  have hother : ∀ x ∈ a ++ b, Function.update strand id s x = strand x := by
    intro x hx
    refine Function.update_of_ne ?_ _ _
    rintro rfl
    have hmid := List.nodup_middle.mp hnodup
    exact (List.nodup_cons.mp hmid).1 hx
  rw [lay_append, lay_cons, Function.update_self,
    lay_congr fun x hx => hother x (List.mem_append_left _ hx),
    lay_congr fun x hx => hother x (List.mem_append_right _ hx), List.append_assoc]

/-- The strands after the tokens `cut`, of which `id` is the first, gave way to a run. -/
def recut (strand : TokenId → Strand) (cut : List TokenId) (id : TokenId) (new : List TokenId)
    (x : TokenId) : Strand :=
  if x = id then ⟨(strand id).lead, new, []⟩ else if x ∈ cut then empty else strand x

@[simp] theorem recut_self (new : List TokenId) :
    recut strand cut id new id = ⟨(strand id).lead, new, []⟩ := if_pos rfl

theorem recut_of_mem {x : TokenId} (new : List TokenId) (hne : x ≠ id) (hx : x ∈ cut) :
    recut strand cut id new x = empty := by
  unfold recut
  rw [if_neg hne, if_pos hx]

theorem recut_of_notMem {rest : List TokenId} {x : TokenId} (new : List TokenId)
    (hx : x ∉ id :: rest) : recut strand (id :: rest) id new x = strand x := by
  unfold recut
  rw [if_neg (List.ne_of_not_mem_cons hx), if_neg hx]

/-- Where tokens were cut out, the first stands for the run and the others for nothing. -/
theorem mem_core_recut {rest new : List TokenId} {t x : TokenId} (ht : t ∈ id :: rest)
    (hx : x ∈ (recut strand (id :: rest) id new t).core) : x ∈ new := by
  by_cases hid : t = id
  · rw [hid, recut_self] at hx
    exact hx
  · rw [recut_of_mem new hid ht] at hx
    simp [empty] at hx

/-- Cutting tokens out puts nothing before or behind any of them. -/
theorem mem_ends_recut {rest new : List TokenId} {t x : TokenId}
    (hx : x ∈ (recut strand (id :: rest) id new t).lead
      ++ (recut strand (id :: rest) id new t).trail) :
    x ∈ (strand t).lead ++ (strand t).trail := by
  by_cases ht : t ∈ id :: rest
  · by_cases hid : t = id
    · rw [hid, recut_self, List.append_nil] at hx
      exact hid ▸ List.mem_append_left _ hx
    · rw [recut_of_mem new hid ht] at hx
      simp [empty] at hx
  · rwa [recut_of_notMem new ht] at hx

/-- Laid out after a cut: the new run is in place of all the strands cut, but for what leads the
    first. -/
theorem lay_recut {rest new : List TokenId} (hnodup : (a ++ (id :: rest) ++ b).Nodup) :
    lay (recut strand (id :: rest) id new) (a ++ (id :: rest) ++ b)
      = lay strand a ++ (strand id).lead ++ new ++ lay strand b := by
  rw [List.nodup_append, List.nodup_append] at hnodup
  obtain ⟨⟨-, hcut, hleft⟩, -, hright⟩ := hnodup
  have hrest : lay (recut strand (id :: rest) id new) rest = [] := by
    unfold lay
    rw [List.flatMap_eq_nil_iff]
    intro x hx
    have hne : x ≠ id := by
      rintro rfl
      exact (List.nodup_cons.mp hcut).1 hx
    rw [recut_of_mem new hne (List.mem_cons_of_mem _ hx)]
    rfl
  rw [lay_append, lay_append, lay_cons, hrest, recut_self,
    lay_congr fun x hx => recut_of_notMem new fun hin => hleft x hx x hin rfl,
    lay_congr fun x hx => recut_of_notMem new fun hin =>
      hright x (List.mem_append_right _ hin) x hx rfl]
  simp [ids]

/-- Tokens that were left alone, but for what stands before the first of them. -/
theorem lay_cut {rest : List TokenId} (hcore : ∀ x ∈ id :: rest, (strand x).core = [x])
    (htrail : ∀ x ∈ id :: rest, (strand x).trail = [])
    (hlead : ∀ x ∈ rest, (strand x).lead = []) :
    lay strand (id :: rest) = (strand id).lead ++ id :: rest := by
  have hrest : lay strand rest = rest := by
    have hsame : ∀ x ∈ rest, strand x = whole x := by
      intro x hx
      have hc := hcore x (List.mem_cons_of_mem _ hx)
      have ht := htrail x (List.mem_cons_of_mem _ hx)
      have hl := hlead x hx
      cases hs : strand x
      simp_all [whole]
    rw [lay_congr hsame, lay_whole]
  rw [lay_cons, hrest]
  unfold ids
  rw [hcore id List.mem_cons_self, htrail id List.mem_cons_self]
  simp

end Strand

open Strand (lay)

/-- The file is laid out in the strands of the tokens of `list₀`; every other token came
    later. -/
structure Laid (list₀ list : TokenList) (strand : TokenId → Strand) : Prop where
  threaded : list.Threaded (lay strand list₀.ids)
  loose : list.Loose
  size : list₀.slots.size ≤ list.slots.size
  detached : ∀ x, list.IsDetached x → list₀.slots.size ≤ x.index
  added : ∀ id ∈ list₀.ids, ∀ x ∈ (strand id).lead ++ (strand id).trail,
    list₀.slots.size ≤ x.index
  core : ∀ id ∈ list₀.ids, (strand id).core = [id]
    ∨ ∀ x ∈ (strand id).core, list₀.slots.size ≤ x.index
  face : ∀ id ∈ list₀.ids, (strand id).core = [id] → list.face? id = list₀.face? id

/-- An element that stands once in a list splits it in one way. -/
theorem append_cons_unique {a b a' b' : List TokenId} {x : TokenId}
    (hnodup : (a ++ x :: b).Nodup) (h : a ++ x :: b = a' ++ x :: b') : a = a' ∧ b = b' := by
  have hx : ∀ {c d : List TokenId}, (c ++ x :: d).Nodup → x ∉ c := by
    intro c d hn hin
    exact (List.nodup_append.mp hn).2.2 x hin x List.mem_cons_self rfl
  have ha : (a ++ x :: b).idxOf x = a.length := by
    rw [List.idxOf_append_of_notMem (hx hnodup)]
    simp
  have ha' : (a' ++ x :: b').idxOf x = a'.length := by
    rw [List.idxOf_append_of_notMem (hx (h ▸ hnodup))]
    simp
  have hlen : a.length = a'.length := by rw [← ha, ← ha', h]
  obtain ⟨h1, h2⟩ := List.append_inj h hlen
  exact ⟨h1, (List.cons.inj h2).2⟩

namespace Laid

variable {list₀ list list' : TokenList} {strand : TokenId → Strand} {id : TokenId}

/-- Before any edit, every token is its own strand. -/
theorem start (h : list₀.Unedited) : Laid list₀ list₀ Strand.whole where
  threaded := by
    rw [Strand.lay_whole]
    exact h.wellFormed.threaded
  loose := h.loose
  size := Nat.le_refl _
  detached := by
    intro x hx
    refine absurd ?_ (h.wellFormed.threaded.notMem_of_isDetached hx)
    obtain ⟨token, htoken, -⟩ := hx
    exact h.mem_ids_iff.mpr (TokenList.index_lt_of_get? htoken)
  added := by simp [Strand.whole]
  core := fun _ _ => Or.inl rfl
  face := fun _ _ _ => rfl

/-- The only original token in a strand is the one it is the strand of. -/
theorem eq_of_mem (h : Laid list₀ list strand) (hid : id ∈ list₀.ids) {x : TokenId}
    (hold : x.index < list₀.slots.size) (hx : x ∈ (strand id).ids) :
    x = id ∧ (strand id).core = [id] := by
  unfold Strand.ids at hx
  rcases List.mem_append.mp hx with hx | hx
  · rcases List.mem_append.mp hx with hx | hx
    · have hge := h.added id hid x (List.mem_append_left _ hx)
      omega
    · rcases h.core id hid with hcore | hcore
      · rw [hcore, List.mem_singleton] at hx
        exact ⟨hx, hcore⟩
      · have hge := hcore x hx
        omega
  · have hge := h.added id hid x (List.mem_append_right _ hx)
    omega

/-- An original token is still in the file when it stands for itself, and only then. -/
theorem mem_iff (h : Laid list₀ list strand) (h₀ : list₀.Unedited) (hid : id ∈ list₀.ids) :
    id ∈ lay strand list₀.ids ↔ (strand id).core = [id] := by
  constructor
  · intro hmem
    obtain ⟨t, ht, hin⟩ := Strand.mem_lay.mp hmem
    obtain ⟨rfl, hcore⟩ := h.eq_of_mem ht (h₀.mem_ids_iff.mp hid) hin
    exact hcore
  · intro hcore
    refine Strand.mem_lay.mpr ⟨id, hid, ?_⟩
    unfold Strand.ids
    rw [hcore]
    simp

/-- Where an original token that stands for itself is found. -/
theorem lay_split {a b : List TokenId} (hfile : list₀.ids = a ++ id :: b)
    (hcore : (strand id).core = [id]) :
    lay strand list₀.ids
      = (lay strand a ++ (strand id).lead) ++ id :: ((strand id).trail ++ lay strand b) := by
  rw [hfile, Strand.lay_append, Strand.lay_cons]
  unfold Strand.ids
  rw [hcore]
  simp

/-- A new detached run touches no strand. -/
theorem newRun {file : List TokenId} {run : TokenRange} {ids : List TokenId}
    {faces : List (TokenKind × String × Nat)} (h : Laid list₀ list strand) (h₀ : list₀.Unedited)
    (hfile : file = lay strand list₀.ids) (hnew : TokenList.NewRun list list' file run ids faces) :
    Laid list₀ list' strand where
  threaded := hfile ▸ hnew.threaded
  loose := hnew.loose
  size := Nat.le_trans h.size hnew.size
  detached := by
    intro x hx
    rcases hnew.detached x hx with hx | hx
    · exact h.detached x hx
    · exact Nat.le_trans h.size hx
  added := h.added
  core := h.core
  face := by
    intro id hid hcore
    rw [hnew.face id (Nat.lt_of_lt_of_le (h₀.mem_ids_iff.mp hid) h.size)]
    exact h.face id hid hcore

/-- A run spliced into the strand of a token, before or behind what is there. -/
theorem update {before after new : List TokenId} {s : Strand} (h : Laid list₀ list strand)
    (h₀ : list₀.Unedited) (hid : id ∈ list₀.ids)
    (hspliced : TokenList.Spliced list list' before [] new after)
    (hlay : ∀ a b, list₀.ids = a ++ id :: b →
      before ++ new ++ after = lay strand a ++ s.ids ++ lay strand b)
    (hcore : s.core = (strand id).core)
    (hends : ∀ x ∈ s.lead ++ s.trail, x ∈ (strand id).lead ++ (strand id).trail ∨ x ∈ new) :
    Laid list₀ list' (Function.update strand id s) := by
  -- what the token stands for stays, so only the layout has to be looked at
  have hcore' : ∀ t, (Function.update strand id s t).core = (strand t).core :=
    update_proj Strand.core hcore
  constructor
  case threaded =>
    obtain ⟨a, b, hfile⟩ := List.append_of_mem hid
    have hnodup := h₀.wellFormed.threaded.nodup
    rw [hfile] at hnodup ⊢
    rw [Strand.lay_update hnodup, ← hlay a b hfile]
    exact hspliced.now
  case loose => exact hspliced.loose
  case size =>
    rw [hspliced.size]
    exact h.size
  case detached => exact fun x hx => h.detached x (hspliced.keeps x hx).1
  case added =>
    intro t ht x hx
    rw [Function.update_apply] at hx
    split at hx
    · rcases hends x hx with hx | hx
      · exact h.added id hid x hx
      · exact h.detached x (hspliced.detached x hx)
    · exact h.added t ht x hx
  case core =>
    intro t ht
    rw [hcore']
    exact h.core t ht
  case face =>
    intro t ht hc
    rw [hcore'] at hc
    rw [hspliced.face t (by simp)]
    exact h.face t ht hc

/-- **A run before an original token** goes to the end of what leads it. -/
theorem insertBefore {run : TokenRange} {splice : Splice} (h : Laid list₀ list strand)
    (h₀ : list₀.Unedited) (hid : id ∈ list₀.ids) (hcore : (strand id).core = [id])
    (heq : list.insertBefore id run = .ok (splice, list')) :
    ∃ new, list.walk run false = .ok new
      ∧ Laid list₀ list' (Function.update strand id
          { strand id with lead := (strand id).lead ++ new })
      ∧ ∀ x, list'.face? x = list.face? x := by
  obtain ⟨before, new, after, hfile, -, hwalk, hspliced⟩ :=
    TokenList.insertBefore_ok h.threaded h.loose heq
  refine ⟨new, hwalk, h.update h₀ hid hspliced ?_ rfl ?_, fun x => hspliced.face x (by simp)⟩
  · intro a b hab
    rw [lay_split hab hcore] at hfile
    have hnodup := h.threaded.nodup
    rw [lay_split hab hcore] at hnodup
    obtain ⟨rfl, rfl⟩ := append_cons_unique hnodup hfile
    simp [Strand.ids, hcore]
  · intro x hx
    simp only [List.mem_append] at hx ⊢
    tauto

/-- **A run behind an original token** that nothing follows yet. -/
theorem insertAfter {run : TokenRange} {splice : Splice} (h : Laid list₀ list strand)
    (h₀ : list₀.Unedited) (hid : id ∈ list₀.ids) (hcore : (strand id).core = [id])
    (htrail : (strand id).trail = [])
    (heq : list.insertAfter id run = .ok (splice, list')) :
    ∃ new, list.walk run false = .ok new
      ∧ Laid list₀ list' (Function.update strand id
          { strand id with trail := (strand id).trail ++ new })
      ∧ ∀ x, list'.face? x = list.face? x := by
  obtain ⟨before, new, after, hfile, -, hwalk, hspliced⟩ :=
    TokenList.insertAfter_ok h.threaded h.loose heq
  refine ⟨new, hwalk, h.update h₀ hid hspliced ?_ rfl ?_, fun x => hspliced.face x (by simp)⟩
  · intro a b hab
    rw [lay_split hab hcore] at hfile
    have hnodup := h.threaded.nodup
    rw [lay_split hab hcore] at hnodup
    obtain ⟨rfl, rfl⟩ := append_cons_unique hnodup hfile
    simp [Strand.ids, hcore, htrail]
  · intro x hx
    simp only [List.mem_append] at hx ⊢
    tauto

/-- **A run behind the last token** that follows an original one. -/
theorem insertBehind {run : TokenRange} {splice : Splice} {anchor : TokenId}
    (h : Laid list₀ list strand) (h₀ : list₀.Unedited) (hid : id ∈ list₀.ids)
    (hlast : (strand id).trail.getLast? = some anchor)
    (heq : list.insertAfter anchor run = .ok (splice, list')) :
    ∃ new, list.walk run false = .ok new
      ∧ Laid list₀ list' (Function.update strand id
          { strand id with trail := (strand id).trail ++ new })
      ∧ ∀ x, list'.face? x = list.face? x := by
  obtain ⟨before, new, after, hfile, -, hwalk, hspliced⟩ :=
    TokenList.insertAfter_ok h.threaded h.loose heq
  obtain ⟨front, hfront⟩ := List.getLast?_eq_some_iff.mp hlast
  refine ⟨new, hwalk, h.update h₀ hid hspliced ?_ rfl ?_, fun x => hspliced.face x (by simp)⟩
  · intro a b hab
    -- the anchor ends the strand of its token, so the new run goes behind it
    have hsplit : lay strand list₀.ids
        = (lay strand a ++ (strand id).lead ++ (strand id).core ++ front)
          ++ anchor :: lay strand b := by
      rw [hab, Strand.lay_append, Strand.lay_cons]
      unfold Strand.ids
      rw [hfront]
      simp
    have hnodup := h.threaded.nodup
    rw [hsplit] at hnodup hfile
    obtain ⟨rfl, rfl⟩ := append_cons_unique hnodup hfile
    simp [Strand.ids, hfront]
  · intro x hx
    simp only [List.mem_append] at hx ⊢
    tauto

/-- Original tokens cut out for a run, which the first of them stands for from then on. -/
theorem recut {a b rest new : List TokenId} (h : Laid list₀ list strand) (h₀ : list₀.Unedited)
    (hfile : list₀.ids = a ++ (id :: rest) ++ b)
    (hspliced : TokenList.Spliced list list' (lay strand a ++ (strand id).lead) (id :: rest) new
      (lay strand b)) :
    Laid list₀ list' (Strand.recut strand (id :: rest) id new) := by
  have hnodup := h₀.wellFormed.threaded.nodup
  rw [hfile] at hnodup
  have hfresh : ∀ x ∈ new, list₀.slots.size ≤ x.index := fun x hx =>
    h.detached x (hspliced.detached x hx)
  constructor
  case threaded =>
    rw [hfile, Strand.lay_recut hnodup]
    exact hspliced.now
  case loose => exact hspliced.loose
  case size =>
    rw [hspliced.size]
    exact h.size
  case detached => exact fun x hx => h.detached x (hspliced.keeps x hx).1
  case added => exact fun t ht x hx => h.added t ht x (Strand.mem_ends_recut hx)
  case core =>
    intro t ht
    by_cases hin : t ∈ id :: rest
    · exact .inr fun x hx => hfresh x (Strand.mem_core_recut hin hx)
    · rw [Strand.recut_of_notMem new hin]
      exact h.core t ht
  case face =>
    intro t ht hc
    -- where something was cut out no original token stands for itself
    have hnot : t ∉ id :: rest := by
      intro hin
      have hge := hfresh t (Strand.mem_core_recut hin (by rw [hc]; exact List.mem_singleton_self t))
      have hlt := h₀.mem_ids_iff.mp ht
      omega
    rw [Strand.recut_of_notMem new hnot] at hc
    rw [hspliced.face t hnot]
    exact h.face t ht hc

/-- **A run in place of original tokens** that stand for themselves, with nothing between
    them. -/
theorem replace {old run : TokenRange} {splice : Splice} {a rest b : List TokenId}
    (h : Laid list₀ list strand) (h₀ : list₀.Unedited)
    (hfile : list₀.ids = a ++ (id :: rest) ++ b) (hold : old.Ends (id :: rest))
    (hcore : ∀ x ∈ id :: rest, (strand x).core = [x])
    (htrail : ∀ x ∈ id :: rest, (strand x).trail = [])
    (hlead : ∀ x ∈ rest, (strand x).lead = [])
    (heq : list.replace old (some run) = .ok (splice, list')) :
    ∃ new, list.walk run false = .ok new ∧ splice.removed = id :: rest
      ∧ splice.inserted? = some run
      ∧ Laid list₀ list' (Strand.recut strand (id :: rest) id new)
      ∧ ∀ x, x ∉ id :: rest → list'.face? x = list.face? x := by
  obtain ⟨before, new, after, hfile', hends, -, hwalk, hsplice, hspliced⟩ :=
    TokenList.replace_ok h.threaded h.loose heq
  have hlay : lay strand list₀.ids
      = (lay strand a ++ (strand id).lead) ++ (id :: rest) ++ lay strand b := by
    rw [hfile, Strand.lay_append, Strand.lay_append, Strand.lay_cut hcore htrail hlead]
    simp
  -- both splits of the file have the same stretch in the middle, hence the same sides
  have hremoved : splice.removed = id :: rest := by
    have h1 := (hfile' ▸ h.threaded).range_eq hends.1 hends.2
    have h2 := (hlay ▸ h.threaded).range_eq hold.1 hold.2
    rw [← h1, h2]
  have hnodup := h.threaded.nodup
  rw [hremoved] at hfile' hspliced
  rw [hlay] at hfile' hnodup
  have hsides : lay strand a ++ (strand id).lead = before
      ∧ rest ++ lay strand b = rest ++ after := by
    refine append_cons_unique (x := id) ?_ ?_
    · simpa using hnodup
    · simpa using hfile'
  obtain ⟨rfl, hafter⟩ := hsides
  obtain rfl := List.append_cancel_left hafter
  exact ⟨new, hwalk run rfl, hremoved, by rw [hsplice], h.recut h₀ hfile hspliced, hspliced.face⟩

end Laid

end KernelPrep
