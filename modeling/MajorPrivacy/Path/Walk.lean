/-
Which entries a path finds in a tree. A path walks along the elements of a pattern: an element
without wildcards takes the same element of the path, one with wildcards takes its leftmost parse
and may, behind a double asterisk, go on to any later separator. The walks are the routes of
`GetEntries`, so an entry whose pattern the path matches as a whole is missed just where there is
no such walk.
-/
import MajorPrivacy.Path.Routes
import MajorPrivacy.Path.MatchLanguage

namespace MajorPrivacy.Path

open MajorPrivacy.Core Glob CSmartPattern

variable {E : Type}

/-! ## Walks -/

/-- Where the search below an element with wildcards may go on. -/
def BranchEnd (separator : WChar) (name rest next : Str) : Prop :=
  ∃ n, LeftParse (stopAt separator) (pieces (tokens name)) rest n ∧
    match (pieces (tokens name)).getLast? with
    | some (.wild true) => next = [] ∨ next ∈ separatorSuffixes separator (rest.drop (n + 1))
    | some (.wild false) => next = afterElement separator (rest.drop n)
    | _ => next = rest.drop n ∧ (next.headD 0 = 0 ∨ next.headD 0 = separator)

/-- A path walks along some elements; `ends` is whether a separator is left behind the last one. -/
inductive Walk (separator : WChar) (ends : Bool) : List Str → Str → Prop
  | done {rest : Str} (h : skipSeparators separator rest = [])
      (he : decide (rest.head? = some separator) = ends) : Walk separator ends [] rest
  | behind {names : List Str} {rest : Str} (h : skipSeparators separator rest = [])
      (hw : Walk separator ends names []) : Walk separator ends (dblAsteriskName :: names) rest
  | exact {name : Str} {names : List Str} {rest : Str} (h : skipSeparators separator rest ≠ [])
      (hn : isWild name = false) (he : element separator (skipSeparators separator rest) = name)
      (hw : Walk separator ends names (afterElement separator (skipSeparators separator rest))) :
      Walk separator ends (name :: names) rest
  | wild {name next : Str} {names : List Str} {rest : Str} (h : skipSeparators separator rest ≠ [])
      (hn : isWild name = true) (he : BranchEnd separator name (skipSeparators separator rest) next)
      (hw : Walk separator ends names next) : Walk separator ends (name :: names) rest

/-! ## The ends of a branch -/

/-- The type of the fragment a piece is cut from, and `last` if there is none. -/
def pieceType (last : FragmentType) : Option (Piece WChar) → FragmentType
  | some (.wild true) => .eDblAsterisk
  | some (.wild false) => .eAsterisk
  | some (.text _) => .eText
  | none => last

theorem lastType_eq {fragments : List SFragment} {ps : List (Piece WChar)} (h : List.Forall₂ Cut fragments ps) :
    ∀ last, lastType last fragments = pieceType last ps.getLast? := by
  induction h with
  | nil => exact fun _ => rfl
  | @cons fragment piece fragments ps hcut _ ih =>
    intro last
    rw [lastType, ih, List.getLast?_cons]
    cases ps.getLast? with
    | none => cases hcut <;> rfl
    | some p => cases p with
      | text t => rfl
      | wild cross => cases cross <;> rfl

theorem mem_end {separator : WChar} {rest next : Str} :
    next ∈ (if rest.headD 0 = 0 ∨ rest.headD 0 = separator then [rest] else []) ↔
      next = rest ∧ (next.headD 0 = 0 ∨ next.headD 0 = separator) := by
  split
  · rename_i h
    rw [List.mem_singleton]
    exact ⟨fun e => ⟨e, e ▸ h⟩, And.left⟩
  · rename_i h
    exact iff_of_false List.not_mem_nil fun ⟨e, h'⟩ => h (e ▸ h')

/-- The places the nodes below a branch are tried at. -/
theorem mem_branchEnds {separator : WChar} {name : Str} (hcode : (branchPattern separator false name).1 = 0)
    (hlow : Lowered name) (rest next : Str) :
    next ∈ branchEnds separator false (branchPattern separator false name).2 rest ↔
      BranchEnd separator name rest next := by
  unfold branchPattern at hcode ⊢
  rw [if_neg Bool.false_ne_true] at hcode ⊢
  obtain ⟨-, hsep, hcut⟩ := set_spec hcode
  rw [hlow.makeLower] at hcut
  change _ = separator at hsep
  generalize ((new separator).set name).2 = p at hsep hcut
  have hraw := rawMatchLoop_iff separator rest p.fragments _ hcut 0 .eText (Nat.zero_le _)
  simp only [lastWild, List.nil_append, List.drop_zero, Nat.zero_add, exists_eq_left'] at hraw
  rw [lastType_eq hcut] at hraw
  unfold branchEnds rawMatch BranchEnd
  rw [hsep]
  cases hm : rawMatchLoop separator rest p.fragments 0 .eText with
  | none =>
    simp only [List.not_mem_nil, false_iff, not_exists, not_and]
    intro n hn
    rw [(hraw n _).2 ⟨hn, rfl⟩] at hm
    cases hm
  | some x =>
    obtain ⟨q, last⟩ := x
    obtain ⟨hq, rfl⟩ := (hraw q last).1 hm
    have huniq : ∀ n, LeftParse (stopAt separator) (pieces (tokens name)) rest n ↔ n = q := by
      intro n
      constructor
      · intro hn
        rw [(hraw n _).2 ⟨hn, rfl⟩] at hm
        cases hm
        rfl
      · rintro rfl
        exact hq
    simp only [huniq, exists_eq_left]
    rcases hlast : (pieces (tokens name)).getLast? with _ | (t | cross)
    · exact mem_end
    · exact mem_end
    · cases cross <;> simp [pieceType]

/-! ## Walks and routes -/

/-- Where all patterns were accepted the walks are what `GetEntries` follows. -/
theorem walk_iff_route {separator : WChar} {ends : Bool} {names : List Str} {rest : Str}
    (h : ∀ name ∈ names, isWild name = true → (branchPattern separator false name).1 = 0 ∧ Lowered name) :
    Walk separator ends names rest ↔ Route separator false false ends names rest := by
  constructor
  · intro hw
    induction hw with
    | done hs he => exact .done hs (.inr he)
    | behind hs _ ih => exact .behind hs (.inl rfl) (ih fun name hn => h name (List.mem_cons_of_mem _ hn))
    | exact hs hn he _ ih => exact .exact hs hn he (ih fun name hn => h name (List.mem_cons_of_mem _ hn))
    | wild hs hn he _ ih =>
      obtain ⟨hcode, hlow⟩ := h _ List.mem_cons_self hn
      exact .wild hs hn ((mem_branchEnds hcode hlow _ _).2 he) (ih fun name hn => h name (List.mem_cons_of_mem _ hn))
  · intro hr
    induction hr with
    | done hs he => exact .done hs (he.resolve_left Bool.false_ne_true)
    | behind hs hn _ ih =>
      obtain rfl := hn.resolve_right fun h => Bool.false_ne_true h.1
      exact .behind hs (ih fun name hn => h name (List.mem_cons_of_mem _ hn))
    | exact hs hn he _ ih => exact .exact hs hn he (ih fun name hn => h name (List.mem_cons_of_mem _ hn))
    | wild hs hn he _ ih =>
      obtain ⟨hcode, hlow⟩ := h _ List.mem_cons_self hn
      exact .wild hs hn ((mem_branchEnds hcode hlow _ _).1 he) (ih fun name hn => h name (List.mem_cons_of_mem _ hn))

end MajorPrivacy.Path
