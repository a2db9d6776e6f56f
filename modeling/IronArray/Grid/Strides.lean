import IronArray.Grid.Places
import Mathlib.Data.List.InsertIdx

/-!
# Strides and lines

Row-major numbers as sums of strides, and the items along one axis of a tiled box. A walk
over the chunks of an axis, the blocks of each chunk and the items of each block that lie
inside both the chunk and the box meets every coordinate once, in order.
-/

namespace Grid

/-! ## Strides -/

/-- The row-major strides of a box. -/
def strides : List Nat → List Nat
  | [] => []
  | _ :: ns => ns.prod :: strides ns

@[simp] theorem length_strides (ns : List Nat) : (strides ns).length = ns.length := by
  induction ns with
  | nil => rfl
  | cons n ns ih => simp [strides, ih]

def dot (is ss : List Nat) : Nat := (List.zipWith (· * ·) is ss).sum

@[simp] theorem dot_nil (ss : List Nat) : dot [] ss = 0 := rfl

@[simp] theorem dot_cons (i s : Nat) (is ss : List Nat) :
    dot (i :: is) (s :: ss) = i * s + dot is ss := by simp [dot]

theorem dot_strides (is ns : List Nat) : dot is (strides ns) = flat ns is := by
  induction ns generalizing is with
  | nil => cases is <;> rfl
  | cons n ns ih =>
    cases is with
    | nil => rfl
    | cons i is => rw [strides, dot_cons, ih, flat_cons]

theorem strides_pos {ns : List Nat} (h : ∀ n ∈ ns, 0 < n) : ∀ s ∈ strides ns, 0 < s := by
  induction ns with
  | nil => simp [strides]
  | cons n ns ih =>
    have hRest := fun k hk => h k (List.mem_cons_of_mem n hk)
    rintro s (_ | hs)
    · exact prod_pos_of_forall hRest
    · exact ih hRest s ‹_›

theorem dot_le_dot {is js ss : List Nat} (h : List.Forall₂ (· ≤ ·) is js) :
    dot is ss ≤ dot js ss := by
  induction h generalizing ss with
  | nil => exact Nat.le_refl _
  | cons hij _ ih =>
    cases ss with
    | nil => exact Nat.le_refl _
    | cons s ss =>
      rw [dot_cons, dot_cons]
      exact Nat.add_le_add (Nat.mul_le_mul_right s hij) ih

theorem dot_pos {is ss : List Nat} (hLen : is.length = ss.length) (hss : ∀ s ∈ ss, 0 < s)
    (h : ∃ i ∈ is, 0 < i) : 0 < dot is ss := by
  induction is generalizing ss with
  | nil => simp at h
  | cons i is ih =>
    obtain ⟨s, ss, rfl⟩ := List.exists_cons_of_length_pos (l := ss) (by
      rw [← hLen]
      exact Nat.succ_pos _)
    obtain ⟨j, hj, hPos⟩ := h
    rw [dot_cons]
    rcases List.mem_cons.mp hj with rfl | hj
    · exact Nat.add_pos_left (Nat.mul_pos hPos (hss s List.mem_cons_self)) _
    · exact Nat.add_pos_right _ (ih (by simpa using hLen)
        (fun t ht => hss t (List.mem_cons_of_mem _ ht)) ⟨j, hj, hPos⟩)

/-- The term of one axis, apart from those of the other axes. -/
theorem dot_insertIdx {k : Nat} (i : Nat) {is ss : List Nat} (hk : k < ss.length)
    (hLen : ss.length = is.length + 1) :
    dot (is.insertIdx k i) ss = i * ss[k] + dot is (ss.eraseIdx k) := by
  induction ss generalizing k is with
  | nil => simp at hk
  | cons s ss ih =>
    cases k with
    | zero => simp
    | succ k =>
      have hk' : k < ss.length := by simpa using hk
      obtain ⟨j, is, rfl⟩ := List.exists_cons_of_length_pos (l := is) (by
        rw [List.length_cons] at hLen
        omega)
      rw [List.insertIdx_succ_cons, dot_cons, ih hk' (by simpa using hLen),
        List.eraseIdx_cons_succ, dot_cons, List.getElem_cons_succ]
      omega

theorem flat_insertIdx {k : Nat} (i : Nat) {is ns : List Nat} (hk : k < ns.length)
    (hLen : ns.length = is.length + 1) :
    flat ns (is.insertIdx k i) =
      i * (strides ns).getD k 0 + dot is ((strides ns).eraseIdx k) := by
  have hk' : k < (strides ns).length := by rwa [length_strides]
  rw [← dot_strides, dot_insertIdx i hk' (by rwa [length_strides]), List.getD_eq_getElem _ _ hk']

theorem zipWith_insertIdx {α : Type} (pos : α → Nat → Nat) {k : Nat} (i : Nat) {as : List α}
    {x : List Nat} (hk : k < as.length) (hLen : as.length = x.length + 1) :
    List.zipWith pos as (x.insertIdx k i) =
      (List.zipWith pos (as.eraseIdx k) x).insertIdx k (pos as[k] i) := by
  induction as generalizing k x with
  | nil => simp at hk
  | cons a as ih =>
    cases k with
    | zero => simp
    | succ k =>
      have hk' : k < as.length := by simpa using hk
      obtain ⟨j, x, rfl⟩ := List.exists_cons_of_length_pos (l := x) (by
        rw [List.length_cons] at hLen
        omega)
      simp [ih hk' (by simpa using hLen)]

/-! ## Covering an axis by its tiles -/

/-- Tiles of length `d`, each cut off at `n`, cover an initial part of the axis in order. -/
theorem flatMap_tiles_eq_range (n d K : Nat) :
    ((List.range K).flatMap fun c => (List.range (min d (n - c * d))).map (c * d + ·)) =
      List.range (min n (K * d)) := by
  induction K with
  | zero => simp
  | succ K ih =>
    rw [List.range_succ, List.flatMap_append, ih, List.flatMap_singleton, Nat.add_one_mul]
    rcases Nat.le_total n (K * d) with hle | hle
    · have hNone : n - K * d = 0 := by omega
      rw [hNone, Nat.min_zero, List.range_zero, List.map_nil, List.append_nil]
      congr 1
      omega
    · have hSum : min n (K * d + d) = K * d + min d (n - K * d) := by omega
      rw [Nat.min_eq_right hle, hSum, List.range_add]

theorem le_numTiles_mul {n d : Nat} (hd : 0 < d) : n ≤ numTiles n d * d := by
  by_contra hlt
  exact absurd ((lt_numTiles_iff hd).mpr (Nat.lt_of_not_le hlt)) (Nat.lt_irrefl _)

/-- Enough tiles cover the axis. -/
theorem flatMap_tiles {n d K : Nat} (h : n ≤ K * d) :
    ((List.range K).flatMap fun c => (List.range (min d (n - c * d))).map (c * d + ·)) =
      List.range n := by
  rw [flatMap_tiles_eq_range, Nat.min_eq_left h]

namespace Axis

/-- The number of items of block `b` of chunk `c` inside the chunk and the box. -/
def nitems (a : Axis) (c b : Nat) : Nat :=
  min (min a.blockshape (a.shape - (b * a.blockshape + c * a.chunkshape)))
    (min a.blockshape (a.chunkshape - b * a.blockshape))

/-- The walk over chunks, blocks and items of an axis. -/
def walk (a : Axis) : List (Nat × Nat × Nat) :=
  (List.range a.chunks).flatMap fun c => (List.range a.blocks).flatMap fun b =>
    (List.range (a.nitems c b)).map fun i => (c, b, i)

/-- Every coordinate is met once, in order. -/
theorem walk_join (a : Axis) : (a.walk.map fun p => a.join p.1 p.2.1 p.2.2) =
    List.range a.shape := by
  rcases Nat.eq_zero_or_pos a.shape with hZero | hPos
  · simp [walk, chunks, hZero]
  have hChunk := a.chunk_pos hPos
  have hBlock := a.block_pos hPos
  have hInner : ∀ c, ((List.range a.blocks).flatMap fun b =>
      (List.range (a.nitems c b)).map fun i => a.join c b i) =
      (List.range (min a.chunkshape (a.shape - c * a.chunkshape))).map
        (c * a.chunkshape + ·) := by
    intro c
    have hEnough : min a.chunkshape (a.shape - c * a.chunkshape) ≤ a.blocks * a.blockshape :=
      (Nat.min_le_left _ _).trans (le_numTiles_mul hBlock)
    rw [← flatMap_tiles hEnough, List.map_flatMap]
    congr 1
    funext b
    have hItems : a.nitems c b =
        min a.blockshape (min a.chunkshape (a.shape - c * a.chunkshape) - b * a.blockshape) := by
      simp only [nitems]
      omega
    simp only [hItems, List.map_map, Function.comp_def, join, Nat.add_assoc]
  simp only [walk, List.map_flatMap, List.map_map, Function.comp_def, hInner]
  exact flatMap_tiles (le_numTiles_mul hChunk)

/-- The walk only meets items inside their block, blocks inside their chunk, chunks of the
axis and coordinates of the box. -/
theorem mem_walk {a : Axis} {c b i : Nat} (h : (c, b, i) ∈ a.walk) :
    c < a.chunks ∧ b < a.blocks ∧ i < a.blockshape ∧ b * a.blockshape + i < a.chunkshape ∧
      a.join c b i < a.shape := by
  simp only [walk, List.mem_flatMap, List.mem_map, List.mem_range, Prod.mk.injEq] at h
  obtain ⟨c', hc, b', hb, i', hi, rfl, rfl, rfl⟩ := h
  simp only [nitems] at hi
  refine ⟨hc, hb, by omega, by omega, ?_⟩
  simp only [join]
  omega

/-- A position in the walk is the place of the coordinate it stands for. -/
theorem split_of_mem_walk {a : Axis} {c b i : Nat} (h : (c, b, i) ∈ a.walk) :
    a.chunkOf (a.join c b i) = c ∧ a.blockOf (a.join c b i) = b ∧
      a.itemOf (a.join c b i) = i := by
  obtain ⟨_, _, hi, hChunk, hShape⟩ := mem_walk h
  have hPart : i + b * a.blockshape < a.part c := by
    simp only [join] at hShape
    rw [part]
    split <;> omega
  exact (a.split_of_lt_part hi hPart).2

end Axis

end Grid
