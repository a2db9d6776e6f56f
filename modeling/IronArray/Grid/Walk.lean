import Mathlib.Data.List.Nodup
import Mathlib.Data.List.Range

/-!
# Walking through pieces

A walk visits the items of one piece after the other. A walker that knows its piece and its place in
it steps to the next place, or to the next piece when the piece is complete; by `offset_nextPlace`
and `walk_getElem?` it visits what the walk lists.
-/

namespace Grid

variable {α : Type} {s : Nat → Nat} {pos : Nat → Nat → α} {n k j : Nat}

/-- The number of items in front of piece `k`, where piece `i` has `s i` items. -/
def offset (s : Nat → Nat) : Nat → Nat
  | 0 => 0
  | k + 1 => offset s k + s k

/-- The items of `n` pieces in order. -/
def walk (s : Nat → Nat) (pos : Nat → Nat → α) (n : Nat) : List α :=
  (List.range n).flatMap fun k => (List.range (s k)).map (pos k)

/-- The place behind item `j` of piece `k`. -/
def nextPlace (s : Nat → Nat) (k j : Nat) : Nat × Nat :=
  if j + 1 = s k then (k + 1, 0) else (k, j + 1)

theorem walk_succ (s : Nat → Nat) (pos : Nat → Nat → α) (n : Nat) :
    walk s pos (n + 1) = walk s pos n ++ (List.range (s n)).map (pos n) := by
  rw [walk, List.range_succ, List.flatMap_append, List.flatMap_singleton]
  rfl

theorem length_walk (s : Nat → Nat) (pos : Nat → Nat → α) (n : Nat) :
    (walk s pos n).length = offset s n := by
  induction n with
  | zero => rfl
  | succ n ih => rw [walk_succ, List.length_append, ih, List.length_map, List.length_range, offset]

theorem offset_mono (s : Nat → Nat) (h : k ≤ n) : offset s k ≤ offset s n := by
  induction n with
  | zero =>
    obtain rfl : k = 0 := by omega
    exact le_rfl
  | succ n ih =>
    rcases Nat.eq_or_lt_of_le h with rfl | hlt
    · exact le_rfl
    · exact (ih (by omega)).trans (Nat.le_add_right _ _)

theorem walk_getElem? (hk : k < n) (hj : j < s k) :
    (walk s pos n)[offset s k + j]? = some (pos k j) := by
  induction n with
  | zero => omega
  | succ n ih =>
    rw [walk_succ]
    rcases Nat.eq_or_lt_of_le (Nat.le_of_lt_succ hk) with rfl | hlt
    · rw [List.getElem?_append_right (by rw [length_walk]; omega), length_walk,
        Nat.add_sub_cancel_left, List.getElem?_map, List.getElem?_range hj]
      rfl
    · have hPiece : offset s (k + 1) ≤ offset s n := offset_mono s hlt
      rw [List.getElem?_append_left, ih hlt]
      rw [length_walk]
      rw [offset] at hPiece
      omega

/-- Unless the walk has ended there, a walker steps to the next item of it. -/
theorem offset_nextPlace (hj : j < s k) (hPos : ∀ i < n, 0 < s i) (hk : k < n)
    (hMore : offset s k + j + 1 < offset s n) :
    (nextPlace s k j).1 < n ∧ (nextPlace s k j).2 < s (nextPlace s k j).1 ∧
      offset s (nextPlace s k j).1 + (nextPlace s k j).2 = offset s k + j + 1 := by
  unfold nextPlace
  by_cases hLast : j + 1 = s k
  · rw [if_pos hLast]
    have hPiece : k + 1 ≠ n := by
      rintro rfl
      rw [offset] at hMore
      omega
    refine ⟨by omega, hPos _ (by omega), ?_⟩
    rw [offset]
    omega
  · rw [if_neg hLast]
    refine ⟨hk, ?_, rfl⟩
    change j + 1 < s k
    omega

/-- An item in front of piece `k` lies in an earlier piece. -/
theorem lt_of_offset_lt {i : Nat} (h : offset s i + j < offset s k) : i < k := by
  by_contra hLe
  have := offset_mono s (Nat.le_of_not_lt hLe)
  omega

/-- An item between the starts of two pieces lies in the first of them. -/
theorem piece_eq {i o : Nat} (ho : o < s i) (hLow : offset s k ≤ offset s i + o)
    (hHigh : offset s i + o < offset s (k + 1)) : i = k := by
  refine le_antisymm (Nat.le_of_lt_succ (lt_of_offset_lt hHigh)) ?_
  by_contra hLt
  have hPiece : offset s (i + 1) ≤ offset s k := offset_mono s (by omega)
  rw [offset] at hPiece
  omega

/-- The last item of the walk is the last item of its piece. -/
theorem last_of_offset_eq (hj : j < s k) (hk : k < n) (hEnd : offset s k + j + 1 = offset s n) :
    j + 1 = s k := by
  have hPiece : offset s (k + 1) ≤ offset s n := offset_mono s hk
  rw [offset] at hPiece
  omega

end Grid
