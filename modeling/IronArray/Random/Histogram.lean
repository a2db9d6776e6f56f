import Mathlib.Data.List.Basic
import Mathlib.Data.List.Count

/-!
# Histograms

Values are counted in bins that are given by their upper edges: each value in the first bin whose
edge it does not exceed. Values and edges may be of different types, and nothing is asked of the
comparison, which may be one of rounded numbers. When the edges are sorted, the running sums of the
counts are the numbers of values that do not exceed the edges (`sums_tally`).
-/

namespace Histogram

variable {α β : Type} (below : α → β → Bool)

/-- Count a value. Above the last edge it is not counted. -/
def tally : List β → List Nat → α → List Nat
  | edge :: edges, n :: counts, x =>
    if below x edge then (n + 1) :: counts else n :: tally edges counts x
  | _, counts, _ => counts

/-- What does not exceed an edge does not exceed the later ones. -/
def Sorted (edges : List β) : Prop := edges.Pairwise fun e e' => ∀ x, below x e → below x e'

/-- The running sums, on top of `total`. -/
def sums (total : Nat) : List Nat → List Nat
  | [] => []
  | n :: counts => (total + n) :: sums (total + n) counts

variable {below}

theorem length_tally (edges : List β) (counts : List Nat) (x : α) :
    (tally below edges counts x).length = counts.length := by
  induction edges generalizing counts with
  | nil => rfl
  | cons edge edges ih =>
    cases counts with
    | nil => rfl
    | cons n counts =>
      rw [tally]
      split
      · rfl
      · rw [List.length_cons, List.length_cons, ih]

theorem length_sums (total : Nat) (counts : List Nat) :
    (sums total counts).length = counts.length := by
  induction counts generalizing total with
  | nil => rfl
  | cons n counts ih => rw [sums, List.length_cons, List.length_cons, ih]

/-- Every count is one of at most as many values as there were, and one more. -/
theorem tally_le {edges : List β} {counts : List Nat} {bound : Nat} (h : ∀ n ∈ counts, n ≤ bound)
    (x : α) : ∀ n ∈ tally below edges counts x, n ≤ bound + 1 := by
  induction edges generalizing counts with
  | nil => exact fun n hn => Nat.le_succ_of_le (h n hn)
  | cons edge edges ih =>
    cases counts with
    | nil => exact nofun
    | cons n counts =>
      obtain ⟨hFirst, hRest⟩ := List.forall_mem_cons.mp h
      rw [tally]
      split
      · refine List.forall_mem_cons.mpr ⟨Nat.succ_le_succ hFirst, fun k hk => ?_⟩
        exact Nat.le_succ_of_le (hRest k hk)
      · exact List.forall_mem_cons.mpr ⟨Nat.le_succ_of_le hFirst, ih hRest⟩

/-- One more value below every edge. -/
theorem sums_succ (total n : Nat) (counts : List Nat) :
    sums total ((n + 1) :: counts) = (sums total (n :: counts)).map (· + 1) := by
  have hShift : ∀ (total : Nat) (counts : List Nat),
      sums (total + 1) counts = (sums total counts).map (· + 1) := by
    intro total counts
    induction counts generalizing total with
    | nil => rfl
    | cons n counts ih =>
      rw [sums, sums, List.map_cons, show total + 1 + n = total + n + 1 by omega, ih]
  rw [sums, sums, List.map_cons, ← Nat.add_assoc, hShift]

/-- A value adds one to the running sums at the edges that it does not exceed. -/
theorem sums_tally_one {edges : List β} (hSorted : Sorted below edges) {counts : List Nat}
    (hLen : counts.length = edges.length) (total : Nat) (x : α) :
    sums total (tally below edges counts x) =
      List.zipWith (fun edge n => n + if below x edge then 1 else 0) edges (sums total counts) := by
  induction edges generalizing counts total with
  | nil =>
    obtain rfl := List.length_eq_zero_iff.mp hLen
    rfl
  | cons edge edges ih =>
    obtain ⟨n, counts, rfl⟩ := List.exists_cons_of_length_eq_add_one hLen
    obtain ⟨hFirst, hRest⟩ := List.pairwise_cons.mp hSorted
    rw [tally]
    split
    · rename_i hx
      -- all later edges are above the value too
      have hAll : ∀ e ∈ edge :: edges, below x e = true := by
        intro e he
        rcases List.mem_cons.mp he with rfl | he
        · exact hx
        · exact hFirst e he x hx
      have hLength : (edge :: edges).length = (sums total (n :: counts)).length := by
        rw [length_sums, hLen]
      rw [sums_succ]
      refine List.ext_getElem (by simp [hLength]) fun i hi _ => ?_
      rw [List.getElem_map, List.getElem_zipWith, if_pos (hAll _ (List.getElem_mem _))]
    · rename_i hx
      rw [sums, sums, List.zipWith_cons_cons, if_neg hx, ih hRest (by simpa using hLen)]
      rfl

/-- Every value counted adds to the running sums at the edges that it does not exceed. -/
theorem sums_foldl_tally {edges : List β} (hSorted : Sorted below edges) (xs : List α)
    {counts : List Nat} (hLen : counts.length = edges.length) :
    sums 0 (xs.foldl (tally below edges) counts) =
      List.zipWith (fun edge n => n + xs.countP (below · edge)) edges (sums 0 counts) := by
  induction xs generalizing counts with
  | nil =>
    refine List.ext_getElem (by simp [length_sums, hLen]) fun i hi _ => ?_
    rw [List.getElem_zipWith]
    rfl
  | cons x xs ih =>
    rw [List.foldl_cons, ih ((length_tally _ _ _).trans hLen), sums_tally_one hSorted hLen]
    refine List.ext_getElem (by simp [length_sums, hLen]) fun i hi _ => ?_
    simp only [List.getElem_zipWith, List.countP_cons]
    omega

theorem sums_zero (edges : List β) :
    sums 0 (edges.map fun _ => 0) = edges.map fun _ => 0 := by
  induction edges with
  | nil => rfl
  | cons edge edges ih => rw [List.map_cons, sums, ih]

/-- The running sums are the numbers of values that do not exceed the edges. -/
theorem sums_tally {edges : List β} (hSorted : Sorted below edges) (xs : List α) :
    sums 0 (xs.foldl (tally below edges) (edges.map fun _ => 0)) =
      edges.map fun edge => xs.countP (below · edge) := by
  rw [sums_foldl_tally hSorted xs (List.length_map _), sums_zero]
  refine List.ext_getElem (by simp) fun i hi _ => ?_
  rw [List.getElem_zipWith, List.getElem_map, List.getElem_map, Nat.zero_add]

end Histogram
