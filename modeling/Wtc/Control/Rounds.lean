import Mathlib.Data.List.Nodup
import Mathlib.Data.List.Perm.Subperm

/-!
# Rounds over a growing set

A set of objects is grown in rounds. A round visits every item and inserts the objects that the item
adds, which may depend on the set so far; the rounds end with the first that inserts nothing. Where
they end, no item adds an object that is not there (`fix_closed`), and they end if only finitely
many objects can be added (`fix_ends`).
-/

namespace Wtc.Rounds

variable {α ω : Type} [DecidableEq ω]

/-- The set with the objects inserted, and whether it grew. -/
def insertAll : List ω → List ω → List ω × Bool
  | set, [] => (set, false)
  | set, o :: os =>
    if o ∈ set then insertAll set os
    else ((insertAll (o :: set) os).1, true)

/-- A round: the set after it, and whether it has changed. -/
def round (adds : α → List ω → List ω) : List α → List ω → List ω × Bool
  | [], set => (set, false)
  | a :: as, set =>
    let (set, grew) := insertAll set (adds a set)
    let (set, changed) := round adds as set
    (set, grew || changed)

/-- The rounds, up to so many. -/
def fix (adds : α → List ω → List ω) (as : List α) : Nat → List ω → Option (List ω)
  | 0, _ => none
  | n + 1, set =>
    match round adds as set with
    | (set, true) => fix adds as n set
    | (set, false) => some set

variable {adds : α → List ω → List ω} {as : List α} {set set' : List ω}

/-! ## Inserting -/

@[simp] theorem mem_insertAll {os : List ω} {x : ω} :
    x ∈ (insertAll set os).1 ↔ x ∈ set ∨ x ∈ os := by
  induction os generalizing set with
  | nil => simp [insertAll]
  | cons o os ih =>
    unfold insertAll
    split
    · next h =>
      simp only [ih, List.mem_cons]
      constructor
      · rintro (h | h)
        · exact .inl h
        · exact .inr (.inr h)
      · rintro (h' | rfl | h')
        · exact .inl h'
        · exact .inl h
        · exact .inr h'
    · simp only [ih, List.mem_cons]
      tauto

theorem insertAll_same {os : List ω} (h : (insertAll set os).2 = false) :
    (insertAll set os).1 = set ∧ ∀ o ∈ os, o ∈ set := by
  induction os with
  | nil => exact ⟨rfl, nofun⟩
  | cons o os ih =>
    unfold insertAll at h ⊢
    split at h
    · next ho =>
      rw [if_pos ho]
      obtain ⟨heq, hall⟩ := ih h
      exact ⟨heq, List.forall_mem_cons.2 ⟨ho, hall⟩⟩
    · cases h

theorem insertAll_length (set os : List ω) : set.length ≤ (insertAll set os).1.length ∧
    ((insertAll set os).2 = true → set.length < (insertAll set os).1.length) := by
  induction os generalizing set with
  | nil => simp [insertAll]
  | cons o os ih =>
    unfold insertAll
    split
    · exact ih set
    · have h := (ih (o :: set)).1
      rw [List.length_cons] at h
      exact ⟨Nat.le_of_succ_le h, fun _ => h⟩

theorem insertAll_nodup {os : List ω} (h : set.Nodup) : (insertAll set os).1.Nodup := by
  induction os generalizing set with
  | nil => exact h
  | cons o os ih =>
    unfold insertAll
    split
    · exact ih h
    · next ho => exact ih (List.nodup_cons.2 ⟨ho, h⟩)

/-! ## A round -/

/-- What an item's visit keeps, a round keeps. -/
theorem round_inv {I : List ω → Prop}
    (h : ∀ a ∈ as, ∀ set, I set → I (insertAll set (adds a set)).1)
    (hset : I set) : I (round adds as set).1 := by
  induction as generalizing set with
  | nil => exact hset
  | cons a as ih =>
    exact ih (fun b hb => h b (List.mem_cons_of_mem a hb)) (h a List.mem_cons_self set hset)

/-- What holds of every object, if items only add objects of which it holds. -/
theorem round_all {P : ω → Prop} (h : ∀ a ∈ as, ∀ set : List ω, (∀ x ∈ set, P x) →
    ∀ o ∈ adds a set, P o) (hset : ∀ x ∈ set, P x) : ∀ x ∈ (round adds as set).1, P x := by
  refine round_inv (I := fun set => ∀ x ∈ set, P x) (fun a ha set hset x hx => ?_) hset
  rcases mem_insertAll.1 hx with hx | hx
  · exact hset x hx
  · exact h a ha set hset x hx

theorem subset_round (adds : α → List ω → List ω) (as : List α) (set : List ω) :
    ∀ x ∈ set, x ∈ (round adds as set).1 := by
  induction as generalizing set with
  | nil => exact fun x hx => hx
  | cons a as ih => exact fun x hx => ih _ x (mem_insertAll.2 (.inl hx))

theorem round_same (h : (round adds as set).2 = false) :
    (round adds as set).1 = set ∧ ∀ a ∈ as, ∀ o ∈ adds a set, o ∈ set := by
  induction as with
  | nil => exact ⟨rfl, nofun⟩
  | cons a as ih =>
    simp only [round, Bool.or_eq_false_iff] at h ⊢
    obtain ⟨hgrew, hchanged⟩ := h
    obtain ⟨heq, hall⟩ := insertAll_same hgrew
    rw [heq] at hchanged ⊢
    obtain ⟨heq', hall'⟩ := ih hchanged
    exact ⟨heq', List.forall_mem_cons.2 ⟨hall, hall'⟩⟩

theorem round_length (adds : α → List ω → List ω) (as : List α) (set : List ω) :
    set.length ≤ (round adds as set).1.length ∧
    ((round adds as set).2 = true → set.length < (round adds as set).1.length) := by
  induction as generalizing set with
  | nil => simp [round]
  | cons a as ih =>
    obtain ⟨h₁, h₂⟩ := insertAll_length set (adds a set)
    obtain ⟨h₃, h₄⟩ := ih (insertAll set (adds a set)).1
    simp only [round, Bool.or_eq_true]
    refine ⟨by omega, ?_⟩
    rintro (h | h)
    · have := h₂ h
      omega
    · have := h₄ h
      omega

theorem round_nodup (adds : α → List ω → List ω) (as : List α) (h : set.Nodup) :
    (round adds as set).1.Nodup := by
  induction as generalizing set with
  | nil => exact h
  | cons a as ih => exact ih (insertAll_nodup h)

/-! ## The rounds -/

theorem fix_inv {I : List ω → Prop} (h : ∀ a ∈ as, ∀ set, I set → I (insertAll set (adds a set)).1)
    {n : Nat} (hfix : fix adds as n set = some set') (hset : I set) : I set' := by
  induction n generalizing set with
  | zero => cases hfix
  | succ n ih =>
    have hround := round_inv h hset
    rw [fix] at hfix
    split at hfix
    · next heq => exact ih hfix (by simpa [heq] using hround)
    · next heq =>
      cases hfix
      simpa [heq] using hround

theorem fix_all {P : ω → Prop} (h : ∀ a ∈ as, ∀ set : List ω, (∀ x ∈ set, P x) →
    ∀ o ∈ adds a set, P o) {n : Nat} (hfix : fix adds as n set = some set')
    (hset : ∀ x ∈ set, P x) : ∀ x ∈ set', P x := by
  refine fix_inv (I := fun set => ∀ x ∈ set, P x) (fun a ha set hset x hx => ?_) hfix hset
  rcases mem_insertAll.1 hx with hx | hx
  · exact hset x hx
  · exact h a ha set hset x hx

theorem subset_fix {n : Nat} (hfix : fix adds as n set = some set') : ∀ x ∈ set, x ∈ set' := by
  induction n generalizing set with
  | zero => cases hfix
  | succ n ih =>
    have hround := subset_round adds as set
    rw [fix] at hfix
    split at hfix
    · next heq => exact fun x hx => ih hfix x (by simpa [heq] using hround x hx)
    · next heq =>
      cases hfix
      simpa [heq] using hround

/-- Where the rounds end, nothing is left to add. -/
theorem fix_closed {n : Nat} (hfix : fix adds as n set = some set') :
    ∀ a ∈ as, ∀ o ∈ adds a set', o ∈ set' := by
  induction n generalizing set with
  | zero => cases hfix
  | succ n ih =>
    rw [fix] at hfix
    split at hfix
    · exact ih hfix
    · next heq =>
      cases hfix
      obtain ⟨hsame, hall⟩ := round_same (by rw [heq] : (round adds as set).2 = false)
      rw [heq] at hsame
      subst hsame
      exact hall

/-- Rounds that can only insert objects of a finite set end. -/
theorem fix_ends {all : List ω} (h : ∀ a ∈ as, ∀ set : List ω, ∀ o ∈ adds a set, o ∈ all)
    (hnodup : set.Nodup) (hset : ∀ x ∈ set, x ∈ all) {n : Nat} (hn : all.length < n + set.length) :
    ∃ set', fix adds as n set = some set' := by
  induction n generalizing set with
  | zero =>
    have := (hnodup.subperm hset).length_le
    omega
  | succ n ih =>
    have hall := round_all (fun a ha set _ => h a ha set) hset
    have hnodup' := round_nodup adds as hnodup
    have hlen := (round_length adds as set).2
    rw [fix]
    split
    · next heq =>
      rw [heq] at hall hnodup' hlen
      have hlt := hlen rfl
      simp only at hlt
      exact ih hnodup' hall (by omega)
    · exact ⟨_, rfl⟩

end Wtc.Rounds
