import IronArray.Grid.Blocks
import IronArray.Grid.NdArray
import IronArray.Grid.Tiling

/-!
# Tiles of a box

A box cut into tiles of one shape, the last ones along each axis cut off at its end. Every index of
the box lies in exactly one tile.
-/

namespace Grid

/-- The numbers of tiles along the axes. -/
def tileCounts (ns ds : List Nat) : List Nat := List.zipWith numTiles ns ds

/-- The first index of tile `t`. -/
def tileStart (ds t : List Nat) : List Nat := List.zipWith (· * ·) t ds

/-- The shape of tile `t`, cut off at the end of the box. -/
def tileShape : List Nat → List Nat → List Nat → List Nat
  | n :: ns, d :: ds, i :: t => min d (n - i * d) :: tileShape ns ds t
  | _, _, _ => []

/-- The tile in which `x` lies. -/
def tileOf (ds x : List Nat) : List Nat := List.zipWith (· / ·) x ds

@[simp] theorem tileCounts_cons (n d : Nat) (ns ds : List Nat) :
    tileCounts (n :: ns) (d :: ds) = numTiles n d :: tileCounts ns ds := rfl

@[simp] theorem tileStart_cons (d i : Nat) (ds t : List Nat) :
    tileStart (d :: ds) (i :: t) = i * d :: tileStart ds t := rfl

@[simp] theorem tileShape_cons (n d i : Nat) (ns ds t : List Nat) :
    tileShape (n :: ns) (d :: ds) (i :: t) = min d (n - i * d) :: tileShape ns ds t := rfl

@[simp] theorem tileOf_cons (d i : Nat) (ds x : List Nat) :
    tileOf (d :: ds) (i :: x) = i / d :: tileOf ds x := rfl

section Tile

variable {ns ds t : List Nat}

theorem length_tileCounts (hLen : ns.length = ds.length) :
    (tileCounts ns ds).length = ns.length := by
  rw [tileCounts, List.length_zipWith, hLen, Nat.min_self]

theorem region_tile (hPos : ∀ d ∈ ds, 0 < d) (hLen : ns.length = ds.length)
    (ht : InBox t (tileCounts ns ds)) : Region (tileStart ds t) (tileShape ns ds t) ns := by
  induction ns generalizing ds t with
  | nil =>
    obtain rfl := List.length_eq_zero_iff.mp hLen.symm
    cases ht
    exact ⟨rfl, rfl, .nil⟩
  | cons n ns ih =>
    obtain ⟨d, ds, rfl⟩ := List.exists_cons_of_length_eq_add_one hLen.symm
    obtain ⟨i, t, rfl, hi, ht⟩ := InBox.cons_iff.mp ht
    have hd := hPos d List.mem_cons_self
    have hInside := (lt_numTiles_iff hd).mp hi
    rw [tileStart_cons, tileShape_cons, Region.cons_iff]
    exact ⟨by omega, ih (fun k hk => hPos k (List.mem_cons_of_mem _ hk)) (by simpa using hLen) ht⟩

theorem tileShape_pos (hPos : ∀ d ∈ ds, 0 < d) (ht : InBox t (tileCounts ns ds)) :
    ∀ k ∈ tileShape ns ds t, 0 < k := by
  induction ns generalizing ds t with
  | nil => simp [tileShape]
  | cons n ns ih =>
    cases ds with
    | nil => simp [tileShape]
    | cons d ds =>
      obtain ⟨i, t, rfl, hi, ht⟩ := InBox.cons_iff.mp ht
      have hd := hPos d List.mem_cons_self
      have hInside := (lt_numTiles_iff hd).mp hi
      rw [tileShape_cons, List.forall_mem_cons]
      exact ⟨by omega, ih (fun k hk => hPos k (List.mem_cons_of_mem _ hk)) ht⟩

/-- An index of a tile lies in no other tile. -/
theorem tileOf_addIdx {y : List Nat} (hLen : ns.length = ds.length)
    (ht : InBox t (tileCounts ns ds)) (hy : InBox y (tileShape ns ds t)) :
    tileOf ds (addIdx (tileStart ds t) y) = t := by
  induction ns generalizing ds t y with
  | nil =>
    obtain rfl := List.length_eq_zero_iff.mp hLen.symm
    cases ht
    rfl
  | cons n ns ih =>
    obtain ⟨d, ds, rfl⟩ := List.exists_cons_of_length_eq_add_one hLen.symm
    obtain ⟨i, t, rfl, _, ht⟩ := InBox.cons_iff.mp ht
    obtain ⟨j, y, rfl, hj, hy⟩ := InBox.cons_iff.mp hy
    have hInside : j < d := by omega
    rw [tileStart_cons, addIdx_cons, tileOf_cons, mul_add_div_of_lt hInside,
      ih (by simpa using hLen) ht hy]

/-- The position of an index of a tile inside the tile. -/
theorem mod_addIdx {y : List Nat} (hLen : ns.length = ds.length)
    (ht : InBox t (tileCounts ns ds)) (hy : InBox y (tileShape ns ds t)) :
    List.zipWith (· % ·) (addIdx (tileStart ds t) y) ds = y := by
  induction ns generalizing ds t y with
  | nil =>
    obtain rfl := List.length_eq_zero_iff.mp hLen.symm
    cases ht
    cases hy
    rfl
  | cons n ns ih =>
    obtain ⟨d, ds, rfl⟩ := List.exists_cons_of_length_eq_add_one hLen.symm
    obtain ⟨i, t, rfl, _, ht⟩ := InBox.cons_iff.mp ht
    obtain ⟨j, y, rfl, hj, hy⟩ := InBox.cons_iff.mp hy
    have hInside : j < d := by omega
    rw [tileStart_cons, addIdx_cons, List.zipWith_cons_cons, Nat.mul_add_mod_of_lt hInside,
      ih (by simpa using hLen) ht hy]

theorem length_of_inBox_tileCounts (hLen : ns.length = ds.length)
    (ht : InBox t (tileCounts ns ds)) : t.length = ds.length :=
  ht.length_eq.trans ((length_tileCounts hLen).trans hLen)

theorem inBox_of_tileShape {x : List Nat} (hLen : ns.length = ds.length)
    (ht : t.length = ds.length) (hx : InBox x (tileShape ns ds t)) : InBox x ds := by
  induction ds generalizing ns t x with
  | nil =>
    obtain rfl := List.length_eq_zero_iff.mp hLen
    cases hx
    exact .nil
  | cons d ds ih =>
    obtain ⟨n, ns, rfl⟩ := List.exists_cons_of_length_eq_add_one hLen
    obtain ⟨i, t, rfl⟩ := List.exists_cons_of_length_eq_add_one ht
    rw [tileShape_cons] at hx
    obtain ⟨j, x, rfl, hj, hx⟩ := InBox.cons_iff.mp hx
    exact .cons (by omega) (ih (by simpa using hLen) (by simpa using ht) hx)

/-- Every index lies in a tile. -/
theorem exists_tile {x : List Nat} (hPos : ∀ d ∈ ds, 0 < d) (hLen : ns.length = ds.length)
    (hx : InBox x ns) : InBox (tileOf ds x) (tileCounts ns ds) ∧
      ∃ y, InBox y (tileShape ns ds (tileOf ds x)) ∧
        addIdx (tileStart ds (tileOf ds x)) y = x := by
  induction ns generalizing ds x with
  | nil =>
    obtain rfl := List.length_eq_zero_iff.mp hLen.symm
    cases hx
    exact ⟨.nil, [], .nil, rfl⟩
  | cons n ns ih =>
    obtain ⟨d, ds, rfl⟩ := List.exists_cons_of_length_eq_add_one hLen.symm
    obtain ⟨i, x, rfl, hi, hx⟩ := InBox.cons_iff.mp hx
    have hd := hPos d List.mem_cons_self
    have hMod := Nat.mod_lt i hd
    have hSplit := Nat.div_add_mod' i d
    obtain ⟨hTile, y, hy, hEq⟩ := ih (fun k hk => hPos k (List.mem_cons_of_mem _ hk))
      (by simpa using hLen) hx
    refine ⟨inBox_cons.mpr ⟨div_lt_numTiles hd hi, hTile⟩, i % d :: y, ?_, ?_⟩
    · rw [tileOf_cons, tileShape_cons]
      exact inBox_cons.mpr ⟨by omega, hy⟩
    · rw [tileOf_cons, tileStart_cons, addIdx_cons, hEq, hSplit]

/-- The item of an index in its tile. -/
theorem exists_item_of_tile {x : List Nat} (hPos : ∀ d ∈ ds, 0 < d) (hLen : ns.length = ds.length)
    (hx : InBox x ns) : ∃ t y, InBox t (tileCounts ns ds) ∧ InBox y (tileShape ns ds t) ∧
      InBox y ds ∧ addIdx (tileStart ds t) y = x := by
  obtain ⟨ht, y, hy, hEq⟩ := exists_tile hPos hLen hx
  have hLength := length_of_inBox_tileCounts hLen ht
  exact ⟨_, y, ht, hy, inBox_of_tileShape hLen hLength hy, hEq⟩

/-- A box without an empty axis has a tile. -/
theorem prod_tileCounts_pos (hPos : ∀ d ∈ ds, 0 < d) (hLen : ns.length = ds.length)
    (hShape : ∀ n ∈ ns, 0 < n) : 0 < (tileCounts ns ds).prod :=
  (Nat.zero_le _).trans_lt (flat_lt (exists_tile hPos hLen (inBox_replicate_zero hShape)).1)

theorem tileCounts_zero {ns ds : List Nat} (hLen : ns.length = ds.length) (hZero : 0 ∈ ns) :
    (tileCounts ns ds).prod = 0 := by
  induction ns generalizing ds with
  | nil => cases hZero
  | cons n ns ih =>
    obtain ⟨d, ds, rfl⟩ := List.exists_cons_of_length_eq_add_one hLen.symm
    have hCons : tileCounts (n :: ns) (d :: ds) = numTiles n d :: tileCounts ns ds := rfl
    rw [hCons, List.prod_cons]
    rcases List.mem_cons.mp hZero with rfl | hZero
    · rw [numTiles_zero, Nat.zero_mul]
    · rw [ih (by simpa using hLen) hZero, Nat.mul_zero]

/-- What holds tile by tile holds of every index. -/
theorem forall_tiles_iff {P : List Nat → Prop} (hPos : ∀ d ∈ ds, 0 < d)
    (hLen : ns.length = ds.length) :
    (∀ k < (tileCounts ns ds).prod, ∀ y,
      InBox y (tileShape ns ds (unflat (tileCounts ns ds) k)) →
        P (addIdx (tileStart ds (unflat (tileCounts ns ds) k)) y)) ↔
      ∀ x, InBox x ns → P x := by
  constructor
  · intro h x hx
    obtain ⟨hTile, y, hy, hEq⟩ := exists_tile hPos hLen hx
    have hPlace := h (flat (tileCounts ns ds) (tileOf ds x)) (flat_lt hTile) y
    rw [unflat_flat hTile, hEq] at hPlace
    exact hPlace hy
  · intro h k hk y hy
    exact h _ ((region_tile hPos hLen (inBox_unflat hk)).inBox hy)

/-- The indices of tile `t`. -/
def tile (ns ds t : List Nat) : List (List Nat) :=
  (box (tileShape ns ds t)).map (addIdx (tileStart ds t))

theorem mem_tile {x : List Nat} : x ∈ tile ns ds t ↔
    ∃ y, InBox y (tileShape ns ds t) ∧ addIdx (tileStart ds t) y = x := by
  simp only [tile, List.mem_map, mem_box]

theorem inBox_of_mem_tile {x : List Nat} (hPos : ∀ d ∈ ds, 0 < d) (hLen : ns.length = ds.length)
    (ht : InBox t (tileCounts ns ds)) (hx : x ∈ tile ns ds t) : InBox x ns := by
  obtain ⟨y, hy, rfl⟩ := mem_tile.mp hx
  exact (region_tile hPos hLen ht).inBox hy

theorem tileShape_ne_nil (hPos : ∀ d ∈ ds, 0 < d) (hLen : ns.length = ds.length) (hne : ns ≠ [])
    (ht : InBox t (tileCounts ns ds)) : tileShape ns ds t ≠ [] := by
  intro h
  apply hne
  rw [← List.length_eq_zero_iff, ← (region_tile hPos hLen ht).length, h, List.length_nil]

/-- The tiles cover the box, every index once. -/
theorem tiles_perm (hPos : ∀ d ∈ ds, 0 < d) (hLen : ns.length = ds.length) :
    ((box (tileCounts ns ds)).flatMap (tile ns ds)).Perm (box ns) := by
  have hNodup : ((box (tileCounts ns ds)).flatMap (tile ns ds)).Nodup := by
    refine List.nodup_flatMap.mpr ⟨fun t ht => ?_, ?_⟩
    · have hRegion := region_tile hPos hLen (mem_box.mp ht)
      refine (nodup_box _).map_on fun x hx y hy h => ?_
      have hLength : ∀ {z}, z ∈ box (tileShape ns ds t) → (tileStart ds t).length = z.length :=
        fun hz => hRegion.start_length.trans
          (hRegion.length.symm.trans (mem_box.mp hz).length_eq.symm)
      exact addIdx_injective (hLength hx) (hLength hy) h
    · refine (nodup_box _).imp_of_mem fun {t u} ht hu hne => ?_
      apply List.disjoint_left.mpr
      intro x hx hx'
      obtain ⟨y, hy, rfl⟩ := mem_tile.mp hx
      obtain ⟨z, hz, hEq⟩ := mem_tile.mp hx'
      have hFirst := tileOf_addIdx hLen (mem_box.mp ht) hy
      rw [← hEq, tileOf_addIdx hLen (mem_box.mp hu) hz] at hFirst
      exact hne hFirst.symm
  refine (List.perm_ext_iff_of_nodup hNodup (nodup_box ns)).mpr fun x => ?_
  rw [List.mem_flatMap, mem_box]
  constructor
  · rintro ⟨t, ht, hx⟩
    obtain ⟨y, hy, rfl⟩ := mem_tile.mp hx
    exact (region_tile hPos hLen (mem_box.mp ht)).inBox hy
  · intro hx
    obtain ⟨hTile, hIn⟩ := exists_tile hPos hLen hx
    exact ⟨tileOf ds x, mem_box.mpr hTile, mem_tile.mpr hIn⟩

end Tile

/-! ## Chunks -/

theorem unflat_zero (ns : List Nat) : unflat ns 0 = List.replicate ns.length 0 := by
  induction ns with
  | nil => rfl
  | cons n ns ih => rw [unflat_cons, Nat.zero_div, Nat.zero_mod, ih]; rfl

/-- The first index of chunk `k`. -/
def chunkStart (axes : List Axis) (k : Nat) : List Nat :=
  tileStart (chunkshapeOf axes) (unflat (axes.map Axis.chunks) k)

/-- The shape of the part of chunk `k` inside the box. -/
def chunkExtent (axes : List Axis) (k : Nat) : List Nat :=
  tileShape (shapeOf axes) (chunkshapeOf axes) (unflat (axes.map Axis.chunks) k)

/-- The indices of chunk `k`. -/
def chunkIndices (axes : List Axis) (k : Nat) : List (List Nat) :=
  (box (chunkExtent axes k)).map (addIdx (chunkStart axes k))

theorem tileCounts_chunks (axes : List Axis) :
    tileCounts (shapeOf axes) (chunkshapeOf axes) = axes.map Axis.chunks := by
  rw [tileCounts, shapeOf, chunkshapeOf, List.zipWith_map, List.zipWith_self]
  rfl

theorem tileCounts_blocks (axes : List Axis) :
    tileCounts (chunkshapeOf axes) (blockshapeOf axes) = axes.map Axis.blocks := by
  rw [tileCounts, chunkshapeOf, blockshapeOf, List.zipWith_map, List.zipWith_self]
  rfl

theorem nchunk_eq_tileOf (axes : List Axis) (x : List Nat) : (locate axes x).nchunk =
    flat (axes.map Axis.chunks) (tileOf (chunkshapeOf axes) x) := by
  rw [locate, tileOf, chunkshapeOf, List.zipWith_map_right, List.zipWith_comm]
  rfl

section Chunk

variable {axes : List Axis} {k : Nat}

theorem length_chunkshapeOf (axes : List Axis) :
    (shapeOf axes).length = (chunkshapeOf axes).length := by
  rw [shapeOf, chunkshapeOf, List.length_map, List.length_map]

theorem chunkshapeOf_pos (hPos : ∀ a ∈ axes, 0 < a.shape) : ∀ d ∈ chunkshapeOf axes, 0 < d := by
  intro d hd
  obtain ⟨a, ha, rfl⟩ := List.mem_map.mp hd
  exact a.chunk_pos (hPos a ha)

theorem inBox_chunk (hk : k < (axes.map Axis.chunks).prod) :
    InBox (unflat (axes.map Axis.chunks) k) (tileCounts (shapeOf axes) (chunkshapeOf axes)) := by
  rw [tileCounts_chunks]
  exact inBox_unflat hk

theorem region_chunk (hPos : ∀ a ∈ axes, 0 < a.shape) (hk : k < (axes.map Axis.chunks).prod) :
    Region (chunkStart axes k) (chunkExtent axes k) (shapeOf axes) :=
  region_tile (chunkshapeOf_pos hPos) (length_chunkshapeOf axes) (inBox_chunk hk)

theorem chunkExtent_pos (hPos : ∀ a ∈ axes, 0 < a.shape)
    (hk : k < (axes.map Axis.chunks).prod) : ∀ n ∈ chunkExtent axes k, 0 < n :=
  tileShape_pos (chunkshapeOf_pos hPos) (inBox_chunk hk)

theorem zero_notMem_chunkExtent (hPos : ∀ a ∈ axes, 0 < a.shape)
    (hk : k < (axes.map Axis.chunks).prod) : 0 ∉ chunkExtent axes k := by
  intro hMem
  exact lt_irrefl _ (chunkExtent_pos hPos hk 0 hMem)

/-- An index of chunk `k` lies in that chunk. -/
theorem nchunk_addIdx (hk : k < (axes.map Axis.chunks).prod) {y : List Nat}
    (hy : InBox y (chunkExtent axes k)) :
    (locate axes (addIdx (chunkStart axes k) y)).nchunk = k := by
  rw [nchunk_eq_tileOf, chunkStart, tileOf_addIdx (length_chunkshapeOf axes) (inBox_chunk hk) hy]
  exact flat_unflat hk

/-- Every index lies in the part of its chunk. -/
theorem exists_in_chunk (hPos : ∀ a ∈ axes, 0 < a.shape) {x : List Nat}
    (hx : InBox x (shapeOf axes)) : ∃ y, InBox y (chunkExtent axes (locate axes x).nchunk) ∧
      addIdx (chunkStart axes (locate axes x).nchunk) y = x := by
  obtain ⟨hTile, hIn⟩ := exists_tile (chunkshapeOf_pos hPos) (length_chunkshapeOf axes) hx
  rw [tileCounts_chunks] at hTile
  rw [chunkExtent, chunkStart, nchunk_eq_tileOf, unflat_flat hTile]
  exact hIn

/-- The chunks cover the box, every index once. -/
theorem chunks_perm (hPos : ∀ a ∈ axes, 0 < a.shape) :
    ((List.range (axes.map Axis.chunks).prod).flatMap (chunkIndices axes)).Perm
      (box (shapeOf axes)) := by
  have hTiles := tiles_perm (chunkshapeOf_pos hPos) (length_chunkshapeOf axes)
  rw [tileCounts_chunks] at hTiles
  refine List.Perm.trans ?_ hTiles
  have hOrder := (box_perm_unflat (axes.map Axis.chunks)).flatMap_right
    (tile (shapeOf axes) (chunkshapeOf axes))
  rwa [List.flatMap_map] at hOrder

end Chunk

end Grid
