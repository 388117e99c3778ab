import MarketLab.Collections.Pieces
import Mathlib.Data.List.Chain
import Mathlib.Data.List.Induction

/-!
# Scanning with two tests

A scanner that skips what one test names in front of a token and ends the token at what another
test names. The second may name less than the first: what is skipped in front of a token and does
not end one then stays inside it.
-/
namespace MarketLab.Collections
variable {α : Type}

/-- The tokens of a list behind one that is open, or with none open. -/
def scan (skips ends : α → Bool) (token : List α) : List α → List (List α)
  | [] => if token.isEmpty then [] else [token]
  | x :: xs =>
    if token.isEmpty then if skips x then scan skips ends [] xs else scan skips ends [x] xs
    else if ends x then token :: scan skips ends [] xs
    else scan skips ends (token ++ [x]) xs

section Rules
variable {skips ends : α → Bool} {token : List α} {x : α}

theorem scan_skip (skipped : skips x = true) (xs : List α) :
    scan skips ends [] (x :: xs) = scan skips ends [] xs := by
  simp [scan, skipped]

theorem scan_start (begins : skips x = false) (xs : List α) :
    scan skips ends [] (x :: xs) = scan skips ends [x] xs := by
  simp [scan, begins]

theorem scan_end (nonempty : token ≠ []) (ended : ends x = true) (xs : List α) :
    scan skips ends token (x :: xs) = token :: scan skips ends [] xs := by
  simp [scan, nonempty, ended]

theorem scan_grow (nonempty : token ≠ []) (goesOn : ends x = false) (xs : List α) :
    scan skips ends token (x :: xs) = scan skips ends (token ++ [x]) xs := by
  simp [scan, nonempty, goesOn]

theorem scan_dropWhile (xs : List α) :
    scan skips ends [] (xs.dropWhile skips) = scan skips ends [] xs := by
  induction xs with
  | nil => rfl
  | cons x xs ih =>
    rw [List.dropWhile_cons]
    split
    next skipped => rw [ih, scan_skip skipped]
    next => rfl

/-- The open token reaches to the first element that ends it. -/
theorem scan_open (nonempty : token ≠ []) (xs : List α) :
    scan skips ends token xs = match xs.findIdx? ends with
      | none => [token ++ xs]
      | some i => (token ++ xs.take i) :: scan skips ends [] (xs.drop (i + 1)) := by
  induction xs generalizing token with
  | nil => simp [scan, nonempty]
  | cons x xs ih =>
    cases ended : ends x with
    | true => simp [scan_end nonempty ended, List.findIdx?_cons, ended]
    | false =>
      rw [scan_grow nonempty ended, ih (by simp), List.findIdx?_cons, ended]
      cases xs.findIdx? ends <;> simp

theorem exists_scan_open (nonempty : token ≠ []) (xs : List α) :
    ∃ more later, scan skips ends token xs = (token ++ more) :: later := by
  rw [scan_open nonempty]
  split
  · exact ⟨_, _, rfl⟩
  · exact ⟨_, _, rfl⟩

end Rules

/-! ## One test -/

theorem scan_self {separator : α → Bool} {token : List α}
    (within : ∀ y ∈ token, separator y = false) (xs : List α) :
    scan separator separator token xs = pieces separator (token ++ xs) := by
  have none : ∀ y ∈ [], separator y = false := List.forall_mem_nil _
  induction xs generalizing token with
  | nil =>
    by_cases empty : token = []
    · simp [scan, empty]
    · simp [scan, empty, pieces_eq_singleton empty within]
  | cons x xs ih =>
    by_cases empty : token = []
    · subst empty
      cases separates : separator x with
      | true =>
        rw [scan_skip separates, ih none, List.nil_append, List.nil_append,
          pieces_cons_separator separates]
      | false =>
        rw [scan_start separates, ih (by simpa using separates)]
        rfl
    · cases separates : separator x with
      | true =>
        rw [scan_end empty separates, ih none,
          pieces_append_separator empty within separates]
        rfl
      | false =>
        have still : ∀ y ∈ token ++ [x], separator y = false := by
          intro y member
          rcases List.mem_append.mp member with inside | last
          · exact within y inside
          · rw [List.mem_singleton.mp last, separates]
        rw [scan_grow empty separates, ih still, List.append_assoc]
        rfl

/-! ## Two tests -/

section TwoTests
variable {skips ends : α → Bool}

/-- A list that ends inside a token. -/
def EndsInToken (skips ends : α → Bool) (front : List α) : Prop :=
  ∃ before x glued, front = before ++ x :: glued ∧ skips x = false ∧ ∀ y ∈ glued, ends y = false

/-- Nothing that is skipped in front of a token follows one without ending it. -/
def Separated (skips ends : α → Bool) (xs : List α) : Prop :=
  xs.IsChain fun x y => skips x = false → skips y = true → ends y = true

theorem endsInToken_append (front : List α) (x : α) :
    EndsInToken skips ends (front ++ [x]) ↔
      skips x = false ∨ (ends x = false ∧ EndsInToken skips ends front) := by
  constructor
  · rintro ⟨before, y, glued, split, begins, goesOn⟩
    rcases List.eq_nil_or_concat glued with rfl | ⟨glued, last, rfl⟩
    · obtain ⟨-, same⟩ := List.append_inj' split rfl
      rw [List.cons.inj same |>.1]
      exact .inl begins
    · rw [List.concat_eq_append, ← List.cons_append, ← List.append_assoc] at split
      obtain ⟨rfl, same⟩ := List.append_inj' split rfl
      rw [(List.cons.inj same).1]
      rw [List.concat_eq_append, List.forall_mem_append] at goesOn
      exact .inr ⟨goesOn.2 last List.mem_cons_self, before, y, glued, rfl, begins, goesOn.1⟩
  · rintro (begins | ⟨goesOn, before, y, glued, rfl, begins, still⟩)
    · exact ⟨front, x, [], rfl, begins, fun _ => (nomatch ·)⟩
    · refine ⟨before, y, glued ++ [x], by simp, begins, ?_⟩
      exact List.forall_mem_append.mpr ⟨still, List.forall_mem_singleton.mpr goesOn⟩

/-- What a scanner did in front, and the token it left open there. -/
theorem scan_append (skipped : ∀ x, ends x = true → skips x = true) (front : List α) :
    ∃ done token, (token ≠ [] ↔ EndsInToken skips ends front) ∧
      ∀ back, scan skips ends [] (front ++ back) = done ++ scan skips ends token back := by
  induction front using List.reverseRecOn with
  | nil =>
    refine ⟨[], [], ⟨(absurd rfl ·), ?_⟩, fun _ => rfl⟩
    rintro ⟨before, x, glued, split, -⟩
    simp at split
  | append_singleton front x ih =>
    obtain ⟨done, token, inside, scanned⟩ := ih
    simp only [endsInToken_append, List.append_assoc, List.singleton_append, scanned, ← inside]
    by_cases empty : token = []
    · subst empty
      cases begins : skips x with
      | true => exact ⟨done, [], by simp, fun back => by rw [scan_skip begins]⟩
      | false => exact ⟨done, [x], by simp, fun back => by rw [scan_start begins]⟩
    · cases ended : ends x with
      | true =>
        refine ⟨done ++ [token], [], by simp [skipped x ended], fun back => ?_⟩
        rw [scan_end empty ended, List.append_assoc]
        rfl
      | false => exact ⟨done, token ++ [x], by simp [empty], fun back => by rw [scan_grow empty ended]⟩

/-- No token holds an element that would have ended it. -/
theorem not_ends_of_mem_scan (skipped : ∀ x, ends x = true → skips x = true) {token xs : List α}
    (within : ∀ y ∈ token, ends y = false) {piece : List α}
    (member : piece ∈ scan skips ends token xs) : ∀ y ∈ piece, ends y = false := by
  induction xs generalizing token with
  | nil =>
    unfold scan at member
    split at member
    · cases member
    · rwa [List.mem_singleton.mp member]
  | cons x xs ih =>
    by_cases empty : token = []
    · subst empty
      cases begins : skips x with
      | true => exact ih (List.forall_mem_nil _) (by rwa [scan_skip begins] at member)
      | false =>
        have fresh : ends x = false := by
          by_contra ended
          rw [skipped x (by simpa using ended)] at begins
          cases begins
        exact ih (List.forall_mem_singleton.mpr fresh) (by rwa [scan_start begins] at member)
    · cases ended : ends x with
      | true =>
        rw [scan_end empty ended] at member
        rcases List.mem_cons.mp member with rfl | later
        · exact within
        · exact ih (List.forall_mem_nil _) later
      | false =>
        refine ih ?_ (by rwa [scan_grow empty ended] at member)
        exact List.forall_mem_append.mpr ⟨within, List.forall_mem_singleton.mpr ended⟩

/-- On a separated list both tests cut alike. -/
theorem scan_of_separated (skipped : ∀ x, ends x = true → skips x = true) {token xs : List α}
    (separated : Separated skips ends xs)
    (behind : token ≠ [] → ∀ x ∈ xs.head?, skips x = true → ends x = true) :
    scan skips ends token xs = scan skips skips token xs := by
  induction xs generalizing token with
  | nil => rfl
  | cons x xs ih =>
    obtain ⟨next, later⟩ := List.isChain_cons.mp separated
    by_cases empty : token = []
    · subst empty
      cases begins : skips x with
      | true => rw [scan_skip begins, scan_skip begins, ih later (absurd rfl ·)]
      | false =>
        rw [scan_start begins, scan_start begins]
        exact ih later fun _ y member => next y member begins
    · cases begins : skips x with
      | true =>
        have ended : ends x = true := behind empty x (by simp) begins
        rw [scan_end empty ended, scan_end empty begins, ih later (absurd rfl ·)]
      | false =>
        have goesOn : ends x = false := by
          by_contra ended
          rw [skipped x (by simpa using ended)] at begins
          cases begins
        rw [scan_grow empty goesOn, scan_grow empty begins]
        exact ih later fun _ y member => next y member begins

/-- The tokens are the pieces between what is skipped exactly on the separated lists. -/
theorem scan_eq_pieces_iff (skipped : ∀ x, ends x = true → skips x = true) (xs : List α) :
    scan skips ends [] xs = pieces skips xs ↔ Separated skips ends xs := by
  have alone : scan skips skips [] xs = pieces skips xs := scan_self (List.forall_mem_nil _) xs
  constructor
  · intro same
    rw [Separated, List.isChain_iff_forall_rel_of_append_cons_cons]
    rintro x y front back rfl begins skipping
    by_contra goesOn
    have goesOn : ends y = false := by simpa using goesOn
    obtain ⟨done, token, inside, scanned⟩ := scan_append skipped (front ++ [x])
    have nonempty := inside.mpr ((endsInToken_append front x).mpr (.inl begins))
    obtain ⟨more, later, grown⟩ : ∃ more later,
        scan skips ends (token ++ [y]) back = (token ++ [y] ++ more) :: later :=
      exists_scan_open (List.append_ne_nil_of_left_ne_nil nonempty [y]) back
    have cut : scan skips ends [] (front ++ x :: y :: back) =
        done ++ (token ++ [y] ++ more) :: later := by
      rw [← grown, ← scan_grow nonempty goesOn, ← scanned, List.append_assoc]
      rfl
    have among : token ++ [y] ++ more ∈ scan skips skips [] (front ++ x :: y :: back) := by
      rw [alone, ← same, cut]
      simp
    have clean := not_ends_of_mem_scan (fun _ => id) (List.forall_mem_nil _) among y (by simp)
    rw [skipping] at clean
    cases clean
  · intro separated
    rw [scan_of_separated skipped separated (absurd rfl ·), alone]

/-- Exchanging one element that is skipped for another changes the tokens unless both end one or
none is open there. -/
theorem scan_replace_iff (skipped : ∀ x, ends x = true → skips x = true) {front back : List α}
    {x y : α} (skipsX : skips x = true) (skipsY : skips y = true) :
    scan skips ends [] (front ++ x :: back) = scan skips ends [] (front ++ y :: back) ↔
      x = y ∨ (ends x = true ∧ ends y = true) ∨ ¬ EndsInToken skips ends front := by
  obtain ⟨done, token, inside, scanned⟩ := scan_append skipped front
  rw [scanned, scanned, List.append_cancel_left_eq, ← inside]
  by_cases empty : token = []
  · subst empty
    simp [scan_skip skipsX, scan_skip skipsY]
  have grows : ∀ z, ends z = false → ∃ more later,
      scan skips ends token (z :: back) = (token ++ z :: more) :: later := by
    intro z goesOn
    obtain ⟨more, later, grown⟩ : ∃ more later,
        scan skips ends (token ++ [z]) back = (token ++ [z] ++ more) :: later :=
      exists_scan_open (List.append_ne_nil_of_left_ne_nil empty [z]) back
    refine ⟨more, later, ?_⟩
    rw [scan_grow empty goesOn, grown, List.append_assoc]
    rfl
  cases endsX : ends x with
  | true =>
    cases endsY : ends y with
    | true => simp [scan_end empty endsX, scan_end empty endsY]
    | false =>
      obtain ⟨more, later, grown⟩ := grows y endsY
      have differ : x ≠ y := fun same => by simp [same, endsY] at endsX
      simp [scan_end empty endsX, grown, differ, empty]
  | false =>
    obtain ⟨more, later, grown⟩ := grows x endsX
    cases endsY : ends y with
    | true =>
      have differ : x ≠ y := fun same => by simp [same, endsY] at endsX
      simp [scan_end empty endsY, grown, differ, empty]
    | false =>
      by_cases same : x = y
      · simp [same]
      · obtain ⟨more', later', grown'⟩ := grows y endsY
        simp [grown, grown', same, empty]

end TwoTests
end MarketLab.Collections
