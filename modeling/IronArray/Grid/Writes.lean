import IronArray.Grid.Tiles
import Mathlib.Data.Set.Function
import Mathlib.Data.Set.Lattice

/-!
# Writing values to places

A memory is changed at the places of some items, each of which gets the value of its item, and
nowhere else. Where no two items share a place, a loop writes the items of all its rounds.
-/

namespace Grid

variable {ι κ α β : Type}

/-- The items of `S` are written to their places, and every other place keeps its contents. -/
structure Writes (place : ι → κ) (val : ι → α) (S : Set ι) (r r' : κ → α) : Prop where
  hit : ∀ x ∈ S, r' (place x) = val x
  miss : ∀ k, k ∉ place '' S → r' k = r k

namespace Writes

variable {place : ι → κ} {val : ι → α} {S T : Set ι} {r r' r'' : κ → α}

theorem refl : Writes place val ∅ r r where
  hit _ h := h.elim
  miss _ _ := rfl

theorem trans (hInj : (S ∪ T).InjOn place) (h : Writes place val S r r')
    (h' : Writes place val T r' r'') : Writes place val (S ∪ T) r r'' where
  hit x hx := by
    by_cases hT : x ∈ T
    · exact h'.hit x hT
    · have hS : x ∈ S := hx.resolve_right hT
      rw [h'.miss, h.hit x hS]
      rintro ⟨y, hy, hEq⟩
      exact hT (hInj (Or.inr hy) (Or.inl hS) hEq ▸ hy)
  miss k hk := by
    rw [Set.image_union, Set.mem_union, not_or] at hk
    rw [h'.miss k hk.2, h.miss k hk.1]

/-- A loop each of whose rounds writes its own items. -/
theorem foldl {step : (κ → α) → β → κ → α} {S : β → Set ι} {bs : List β}
    (hInj : {x | ∃ b ∈ bs, x ∈ S b}.InjOn place)
    (h : ∀ b ∈ bs, ∀ r, Writes place val (S b) r (step r b)) (r : κ → α) :
    Writes place val {x | ∃ b ∈ bs, x ∈ S b} r (bs.foldl step r) := by
  induction bs generalizing r with
  | nil =>
    have hNone : {x | ∃ b ∈ ([] : List β), x ∈ S b} = ∅ := by
      ext x
      simp
    rw [hNone]
    exact refl
  | cons b bs ih =>
    have hSplit : {x | ∃ c ∈ b :: bs, x ∈ S c} = S b ∪ {x | ∃ c ∈ bs, x ∈ S c} := by
      ext x
      simp
    rw [hSplit] at hInj ⊢
    rw [List.foldl_cons]
    apply trans hInj (h b List.mem_cons_self r)
    exact ih (hInj.mono Set.subset_union_right)
      (fun c hc => h c (List.mem_cons_of_mem _ hc)) (step r b)

/-- A run of neighbouring places. -/
theorem range {place : ι → Nat} {item : Nat → ι} {d len : Nat} {v : Nat → α} {r : Nat → α}
    (hPlace : ∀ j < len, place (item j) = d + j) (hVal : ∀ j < len, val (item j) = v j) :
    Writes place val (item '' {j | j < len}) r
      fun k => if d ≤ k ∧ k < d + len then v (k - d) else r k where
  hit := by
    rintro _ ⟨j, hj, rfl⟩
    have hIn : d ≤ d + j ∧ d + j < d + len := ⟨Nat.le_add_right _ _, Nat.add_lt_add_left hj d⟩
    simp only [hPlace j hj, hVal j hj, if_pos hIn, Nat.add_sub_cancel_left]
  miss k hk := by
    apply if_neg
    rintro ⟨hd, hLt⟩
    have hj : k - d < len := by omega
    apply hk
    refine ⟨item (k - d), ⟨k - d, hj, rfl⟩, ?_⟩
    rw [hPlace _ hj]
    omega

end Writes

end Grid
