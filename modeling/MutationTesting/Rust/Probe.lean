/-
  MutationTesting.Rust.Probe

  Probing candidates in turn for the first that is not taken.  A finite set
  cannot take all candidates of an injective sequence, so the search comes to an
  end.
-/
import Mathlib.Data.Finset.Card
import Mathlib.Data.Nat.Find
import Mathlib.Tactic.ByContra

namespace MutationTesting.Rust

variable {α : Type} [DecidableEq α]

/-- The first index from `start` on whose candidate is free, among `fuel` of
    them. -/
def firstFree (taken : Finset α) (candidate : Nat → α) : (fuel start : Nat) → Option Nat
  | 0, _ => none
  | fuel + 1, start =>
    if candidate start ∈ taken then firstFree taken candidate fuel (start + 1) else some start

theorem firstFree_eq_some {taken : Finset α} {candidate : Nat → α} {fuel start k : Nat} :
    firstFree taken candidate fuel start = some k ↔
      start ≤ k ∧ k < start + fuel ∧ candidate k ∉ taken ∧
        ∀ j, start ≤ j → j < k → candidate j ∈ taken := by
  induction fuel generalizing start with
  | zero =>
    simp only [firstFree, reduceCtorEq, Nat.add_zero, false_iff]
    omega
  | succ fuel ih =>
    unfold firstFree
    by_cases htaken : candidate start ∈ taken
    -- the search goes on at the next index
    · rw [if_pos htaken, ih]
      constructor
      · rintro ⟨hle, hlt, hfree, hbefore⟩
        refine ⟨by omega, by omega, hfree, ?_⟩
        intro j hj hjk
        by_cases hstart : j = start
        · rw [hstart]
          exact htaken
        · exact hbefore j (by omega) hjk
      · rintro ⟨hle, hlt, hfree, hbefore⟩
        have hne : k ≠ start := by
          rintro rfl
          exact hfree htaken
        exact ⟨by omega, by omega, hfree, fun j hj hjk => hbefore j (by omega) hjk⟩
    · rw [if_neg htaken, Option.some_inj]
      constructor
      · rintro rfl
        exact ⟨le_rfl, by omega, htaken, by omega⟩
      · rintro ⟨hle, hlt, hfree, hbefore⟩
        by_contra hne
        exact htaken (hbefore start le_rfl (by omega))

/-- One candidate more than there are taken ones is enough. -/
theorem exists_firstFree (taken : Finset α) {candidate : Nat → α}
    (hinj : Function.Injective candidate) :
    ∃ k, firstFree taken candidate (taken.card + 1) 0 = some k := by
  obtain ⟨k, hk, hfree⟩ : ∃ k < taken.card + 1, candidate k ∉ taken := by
    by_contra hall
    have hsubset : (Finset.range (taken.card + 1)).image candidate ⊆ taken := by
      intro a ha
      obtain ⟨k, hk, rfl⟩ := Finset.mem_image.mp ha
      by_contra hfree
      exact hall ⟨k, Finset.mem_range.mp hk, hfree⟩
    have hcard := Finset.card_le_card hsubset
    rw [Finset.card_image_of_injective _ hinj, Finset.card_range] at hcard
    omega
  -- the least free index is the one found
  have hex : ∃ k, candidate k ∉ taken := ⟨k, hfree⟩
  have hle : Nat.find hex ≤ k := Nat.find_min' hex hfree
  refine ⟨Nat.find hex, firstFree_eq_some.mpr ⟨Nat.zero_le _, by omega, Nat.find_spec hex, ?_⟩⟩
  intro j _ hj
  by_contra htaken
  exact Nat.find_min hex hj htaken

end MutationTesting.Rust
