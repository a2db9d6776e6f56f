import Mathlib.Order.Basic

/-!
# Bisection

A search in a sorted table that compares the key with the entry in the middle of what is left. The
comparison gives a number: positive where the key is behind the entry, negative where it is in front
of it, zero where they agree.
-/

namespace Bisection

/-- The search between two places, both of them included. -/
def bisect (cmp : Nat → Int) : Nat → Int → Int → Option Nat
  | 0, _, _ => none
  | rounds + 1, imin, imax =>
    if imax ≥ imin then
      let i := imin + (imax - imin) / 2
      if cmp i.toNat = 0 then some i.toNat
      else if cmp i.toNat > 0 then bisect cmp rounds (i + 1) imax
      else bisect cmp rounds imin (i - 1)
    else none

/-- In front of an entry that the key does not lie before, the key lies behind every entry. -/
def Sorted (cmp : Nat → Int) (n : Nat) : Prop :=
  ∀ i j, i < j → j < n → 0 ≤ cmp j → 0 < cmp i

variable {cmp : Nat → Int} {n rounds k : Nat} {imin imax : Int}

/-- What is found agrees with the key. -/
theorem bisect_sound (hMin : 0 ≤ imin) (hMax : imax < n)
    (h : bisect cmp rounds imin imax = some k) : k < n ∧ cmp k = 0 := by
  induction rounds generalizing imin imax with
  | zero => cases h
  | succ rounds ih =>
    rw [bisect] at h
    by_cases hOrder : imax ≥ imin
    · simp only [if_pos hOrder] at h
      by_cases hZero : cmp (imin + (imax - imin) / 2).toNat = 0
      · rw [if_pos hZero] at h
        cases h
        exact ⟨by omega, hZero⟩
      · rw [if_neg hZero] at h
        by_cases hPos : cmp (imin + (imax - imin) / 2).toNat > 0
        · rw [if_pos hPos] at h
          exact ih (by omega) hMax h
        · rw [if_neg hPos] at h
          exact ih hMin (by omega) h
    · rw [if_neg hOrder] at h
      cases h

/-- What agrees with the key is found if it lies between the two places. -/
theorem bisect_complete (hSorted : Sorted cmp n) (hMin : 0 ≤ imin) (hMax : imax < n)
    (hRounds : imax - imin < rounds) (hZero : cmp k = 0) (hLow : imin ≤ k) (hHigh : k ≤ imax) :
    bisect cmp rounds imin imax = some k := by
  induction rounds generalizing imin imax with
  | zero => omega
  | succ rounds ih =>
    rw [bisect, if_pos (show imax ≥ imin by omega)]
    show (if cmp (imin + (imax - imin) / 2).toNat = 0 then _ else _) = _
    generalize hMid : (imin + (imax - imin) / 2).toNat = mid
    have hEq : imin + (imax - imin) / 2 = mid := by omega
    rw [hEq]
    rcases Nat.lt_trichotomy mid k with hLess | rfl | hGreater
    · -- the key lies behind the entry in the middle
      have hPos : 0 < cmp mid := hSorted mid k hLess (by omega) (by omega)
      rw [if_neg (by omega), if_pos hPos]
      exact ih (by omega) hMax (by omega) (by omega) hHigh
    · rw [if_pos hZero]
    · have hNeg : ¬ 0 ≤ cmp mid := by
        intro hNonneg
        have hPos := hSorted k mid hGreater (by omega) hNonneg
        omega
      rw [if_neg (by omega), if_neg (by omega)]
      exact ih hMin (by omega) (by omega) hLow (by omega)

/-- A search of a whole table finds the entry that agrees with the key, if there is one. -/
theorem bisect_eq_some (hSorted : Sorted cmp n) :
    bisect cmp n 0 (n - 1) = some k ↔ k < n ∧ cmp k = 0 := by
  constructor
  · exact bisect_sound (by omega) (by omega)
  · rintro ⟨hk, hZero⟩
    exact bisect_complete hSorted (by omega) (by omega) (by omega) hZero (by omega) (by omega)

end Bisection
