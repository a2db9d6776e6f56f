import IronArray.Grid.Places
import Mathlib.Algebra.BigOperators.Intervals

/-!
# Sums over tiles

A sum over the positions of an axis, taken tile by tile. A traversal that walks more of a tile
than the part inside the axis adds the terms of the padding it meets.
-/

namespace Grid

open Finset

variable {R : Type} [AddCommMonoid R]

/-- The first `t` tiles of length `d`, the last of them cut off at `n`. -/
theorem sum_tiles (f : Nat → R) (d n t : Nat) :
    ∑ q ∈ range t, ∑ o ∈ range (min d (n - q * d)), f (q * d + o) =
      ∑ x ∈ range (min (t * d) n), f x := by
  induction t with
  | zero => simp
  | succ t ih =>
    rw [sum_range_succ, ih, Nat.add_mul, Nat.one_mul]
    rcases Nat.le_total n (t * d) with h | h
    · rw [Nat.min_eq_right h, Nat.sub_eq_zero_of_le h, Nat.min_zero, range_zero, sum_empty,
        add_zero, Nat.min_eq_right (h.trans (Nat.le_add_right _ _))]
    · rw [Nat.min_eq_left h, ← sum_range_add]
      congr 2
      omega

namespace Axis

theorem part_eq_min (a : Axis) (c : Nat) :
    a.part c = min a.chunkshape (a.shape - c * a.chunkshape) := by
  unfold part
  split <;> omega

theorem shape_le_chunks (a : Axis) : a.shape ≤ a.chunks * a.chunkshape := by
  by_contra h
  have hPos := a.chunk_pos (by omega)
  exact absurd ((lt_numTiles_iff hPos).mpr (Nat.lt_of_not_le h)) (Nat.lt_irrefl _)

theorem chunkshape_le_blocks {a : Axis} (hShape : 0 < a.shape) :
    a.chunkshape ≤ a.blocks * a.blockshape := by
  by_contra h
  exact absurd ((lt_numTiles_iff (a.block_pos hShape)).mpr (Nat.lt_of_not_le h))
    (Nat.lt_irrefl _)

/-- Blocks that divide the chunk fill it. -/
theorem blocks_mul_of_dvd {a : Axis} (hShape : 0 < a.shape) (h : a.blockshape ∣ a.chunkshape) :
    a.blocks * a.blockshape = a.chunkshape := by
  have hBlock := a.block_pos hShape
  obtain ⟨k, hk⟩ := h
  rw [blocks, numTiles, hk, Nat.add_sub_assoc hBlock, Nat.mul_add_div hBlock,
    Nat.div_eq_of_lt (by omega), Nat.add_zero, Nat.mul_comm]

/-- The chunk of a coordinate and its offset there. -/
def pos (a : Axis) (x : Nat) : Nat × Nat := (x / a.chunkshape, x % a.chunkshape)

/-- A sum over an axis, chunk by chunk. -/
theorem sum_chunks (a : Axis) (f : Nat → R) :
    ∑ q ∈ range a.chunks, ∑ o ∈ range (a.part q), f (q * a.chunkshape + o) =
      ∑ x ∈ range a.shape, f x := by
  simp only [part_eq_min]
  rw [sum_tiles, Nat.min_eq_right a.shape_le_chunks]

/-- What a walk over `w q` positions of each chunk `q` meets outside the axis. -/
def padding (a : Axis) (w : Nat → Nat) (f : Nat → Nat → R) : R :=
  ∑ q ∈ range a.chunks, ∑ o ∈ Ico (a.part q) (w q), f q o

theorem padding_eq_zero {a : Axis} {w : Nat → Nat} {f : Nat → Nat → R}
    (hw : ∀ q < a.chunks, w q ≤ a.part q) : a.padding w f = 0 :=
  sum_eq_zero fun q hq => by rw [Ico_eq_empty_of_le (hw q (mem_range.mp hq)), sum_empty]

/-- A walk over the chunks adds what lies in the axis and the padding it meets. -/
theorem sum_walk (a : Axis) {w : Nat → Nat} {f : Nat → Nat → R} {g : Nat → R}
    (hw : ∀ q < a.chunks, a.part q ≤ w q)
    (hf : ∀ x < a.shape, f (x / a.chunkshape) (x % a.chunkshape) = g x) :
    ∑ q ∈ range a.chunks, ∑ o ∈ range (w q), f q o = ∑ x ∈ range a.shape, g x + a.padding w f := by
  rw [← a.sum_chunks g, padding, ← sum_add_distrib]
  refine sum_congr rfl fun q hq => ?_
  rw [← sum_range_add_sum_Ico _ (hw q (mem_range.mp hq))]
  congr 1
  refine sum_congr rfl fun o ho => ?_
  have hPart := mem_range.mp ho
  have hLe := a.part_le q
  have hLt : q * a.chunkshape + o < a.shape := by
    rw [part_eq_min] at hPart
    omega
  have hIn : o < a.chunkshape := by omega
  rw [← hf _ hLt, mul_add_div_of_lt hIn, Nat.mul_add_mod_of_lt hIn]

end Axis

section Surplus

variable {R : Type} [AddCommGroup R]

namespace Axis

/-- What a walk that adds `f` has too much or too little where `g` is due inside the axis and nothing
outside. -/
def surplus (a : Axis) (w : Nat → Nat) (f g : Nat → Nat → R) : R :=
  ∑ q ∈ range a.chunks, ∑ o ∈ range (w q), (f q o - if o < a.part q then g q o else 0)

/-- A walk over the chunks adds what is due and its surplus. -/
theorem sum_walk_surplus (a : Axis) {w : Nat → Nat} {f g : Nat → Nat → R} {due : Nat → R}
    (hw : ∀ q < a.chunks, a.part q ≤ w q)
    (hg : ∀ x < a.shape, g (x / a.chunkshape) (x % a.chunkshape) = due x) :
    ∑ q ∈ range a.chunks, ∑ o ∈ range (w q), f q o =
      ∑ x ∈ range a.shape, due x + a.surplus w f g := by
  have hInside : ∀ x < a.shape, (if x % a.chunkshape < a.part (x / a.chunkshape) then
      g (x / a.chunkshape) (x % a.chunkshape) else 0) = due x := by
    intro x hx
    have hMod := Nat.mod_lt x (a.chunk_pos (Nat.zero_lt_of_lt hx))
    have hDiv := Nat.div_add_mod' x a.chunkshape
    have hPart : x % a.chunkshape < a.part (x / a.chunkshape) := by
      rw [part_eq_min]
      omega
    rw [if_pos hPart, hg x hx]
  have hPadding : a.padding w (fun q o => if o < a.part q then g q o else 0) = 0 := by
    refine sum_eq_zero fun q _ => sum_eq_zero fun o ho => if_neg ?_
    exact Nat.not_lt.mpr (mem_Ico.mp ho).1
  have hDue := a.sum_walk (f := fun q o => if o < a.part q then g q o else 0) hw hInside
  rw [hPadding, add_zero] at hDue
  rw [← hDue, surplus, ← sum_add_distrib]
  refine sum_congr rfl fun q _ => ?_
  rw [← sum_add_distrib]
  exact sum_congr rfl fun o _ => (add_sub_cancel _ _).symm

/-- Where a walk adds what is due, only the padding is too much. -/
theorem surplus_eq_padding (a : Axis) {w : Nat → Nat} {f g : Nat → Nat → R}
    (hw : ∀ q < a.chunks, a.part q ≤ w q) (h : ∀ q < a.chunks, ∀ o < w q, f q o = g q o) :
    a.surplus w f g = a.padding w g := by
  refine sum_congr rfl fun q hq => ?_
  have hq := mem_range.mp hq
  rw [← sum_range_add_sum_Ico _ (hw q hq), sum_eq_zero, zero_add]
  · refine sum_congr rfl fun o ho => ?_
    obtain ⟨hPart, hWalk⟩ := mem_Ico.mp ho
    rw [if_neg (Nat.not_lt.mpr hPart), sub_zero, h q hq o hWalk]
  · intro o ho
    have hPart := mem_range.mp ho
    rw [if_pos hPart, h q hq o (hPart.trans_le (hw q hq)), sub_self]

end Axis

end Surplus

end Grid
