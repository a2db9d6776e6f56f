import IronArray.Expression.Code
import IronArray.Constructors.Pieces
import IronArray.Grid.Writes

/-!
# Laying a chunk out block after block

`caterva_blosc_array_repart_chunk` copies a row-major chunk line by line to where its blocks lie.
`repartChunk_relayout` says that every item arrives at the place of its index, once, and that the
rest of the extended chunk is zero.
-/

namespace IronArray

open Grid

/-! ## Places of tiles -/

section Place

variable {ns ds t : List Nat}

theorem chunkPlace_addIdx {y : List Nat} (hLen : ns.length = ds.length)
    (ht : InBox t (tileCounts ns ds)) (hy : InBox y (tileShape ns ds t)) :
    chunkPlace ns ds (addIdx (tileStart ds t) y) =
      flat (tileCounts ns ds) t * ds.prod + flat ds y := by
  rw [chunkPlace, tileOf_addIdx hLen ht hy, mod_addIdx hLen ht hy]

theorem chunkPlace_lt {x : List Nat} (hPos : ∀ d ∈ ds, 0 < d) (hLen : ns.length = ds.length)
    (hx : InBox x ns) : chunkPlace ns ds x < (tileCounts ns ds).prod * ds.prod := by
  obtain ⟨t, y, ht, hy, hItem, rfl⟩ := exists_item_of_tile hPos hLen hx
  rw [chunkPlace_addIdx hLen ht hy]
  calc flat (tileCounts ns ds) t * ds.prod + flat ds y
      < (flat (tileCounts ns ds) t + 1) * ds.prod := by
        rw [Nat.add_mul, Nat.one_mul]
        exact Nat.add_lt_add_left (flat_lt hItem) _
    _ ≤ _ := Nat.mul_le_mul_right _ (flat_lt ht)

/-- No two items of a chunk share a place. -/
theorem chunkPlace_injOn (hPos : ∀ d ∈ ds, 0 < d) (hLen : ns.length = ds.length) :
    Set.InjOn (chunkPlace ns ds) {x | InBox x ns} := by
  intro x hx z hz hEq
  obtain ⟨t, y, ht, hy, hyItem, rfl⟩ := exists_item_of_tile hPos hLen hx
  obtain ⟨u, w, hu, hw, hwItem, rfl⟩ := exists_item_of_tile hPos hLen hz
  rw [chunkPlace_addIdx hLen ht hy, chunkPlace_addIdx hLen hu hw] at hEq
  have hTile := congrArg (· / ds.prod) hEq
  have hItem := congrArg (· % ds.prod) hEq
  simp only [mul_add_div_of_lt (flat_lt hyItem), mul_add_div_of_lt (flat_lt hwItem)] at hTile
  simp only [Nat.mul_add_mod_of_lt (flat_lt hyItem), Nat.mul_add_mod_of_lt (flat_lt hwItem)]
    at hItem
  rw [flat_injective ht hu hTile, flat_injective hyItem hwItem hItem]

end Place

/-! ## The loops -/

section Relayout

variable {ns ds t : List Nat} (src : Nat → Cell)

/-- The items of line `ncopy` of a tile. -/
def lineItem (ns ds t : List Nat) (ncopy j : Nat) : List Nat :=
  addIdx (tileStart ds t) (unflat (tileShape ns ds t).dropLast ncopy ++ [j])

theorem repartLine_writes (hPos : ∀ d ∈ ds, 0 < d) (hLen : ns.length = ds.length) (hne : ns ≠ [])
    (ht : InBox t (tileCounts ns ds)) {ncopy : Nat}
    (hn : ncopy < (tileShape ns ds t).dropLast.prod) (r : Nat → Cell) :
    Writes (chunkPlace ns ds) (fun x => src (flat ns x))
      (lineItem ns ds t ncopy '' {j | j < (tileShape ns ds t).getLastD 0}) r
      (repartLine ns ds (tileShape ns ds t) (tileStart ds t) ds.prod (flat (tileCounts ns ds) t)
        src r ncopy) := by
  have hRegion := region_tile hPos hLen ht
  have hTile := tileShape_ne_nil hPos hLen hne ht
  have hLine := inBox_unflat hn
  have hIndex : (unflat (tileShape ns ds t).dropLast ncopy).length + 1 = ns.length := by
    have hSome := List.length_pos_of_ne_nil hTile
    rw [unflat_length, List.length_dropLast, hRegion.length] at *
    omega
  rw [repartLine, indexUnidimToMultidimShape_eq (pos_of_lt_prod hn)]
  refine Writes.range (v := fun j => src (flat ns (addIdx (tileStart ds t)
    (unflat (tileShape ns ds t).dropLast ncopy ++ [0])) + j)) (fun j hj => ?_) fun j hj => ?_
  · rw [lineItem, chunkPlace_addIdx hLen ht ((inBox_snoc hTile).mpr ⟨hLine, hj⟩),
      flat_last (hIndex.trans hLen), Nat.add_assoc]
  · rw [lineItem, flat_addIdx_last hRegion.start_length hIndex]

/-- The numbers of blocks along the axes, from the lengths of the extended chunk. -/
theorem counts_extended (hPos : ∀ d ∈ ds, 0 < d) (hLen : ns.length = ds.length) :
    List.zipWith (· / ·) (List.zipWith (· * ·) (tileCounts ns ds) ds) ds = tileCounts ns ds := by
  induction ns generalizing ds with
  | nil => rfl
  | cons n ns ih =>
    obtain ⟨d, ds, rfl⟩ := List.exists_cons_of_length_eq_add_one hLen.symm
    rw [List.forall_mem_cons] at hPos
    rw [tileCounts_cons, List.zipWith_cons_cons, List.zipWith_cons_cons,
      Nat.mul_div_cancel _ hPos.1, ih hPos.2 (by simpa using hLen)]

/-- A block that would reach beyond the chunk ends with it. -/
theorem actual_eq (hPos : ∀ d ∈ ds, 0 < d) (hLen : ns.length = ds.length)
    (ht : InBox t (tileCounts ns ds)) :
    List.zipWith (fun (p : Nat × Nat) o => if o + p.2 > p.1 then p.1 - o else p.2)
      (List.zip ns ds) (tileStart ds t) = tileShape ns ds t := by
  induction ns generalizing ds t with
  | nil =>
    obtain rfl := List.length_eq_zero_iff.mp hLen.symm
    cases ht
    rfl
  | cons n ns ih =>
    obtain ⟨d, ds, rfl⟩ := List.exists_cons_of_length_eq_add_one hLen.symm
    obtain ⟨i, t, rfl, hi, ht⟩ := InBox.cons_iff.mp ht
    rw [List.forall_mem_cons] at hPos
    have hInside := (lt_numTiles_iff hPos.1).mp hi
    rw [tileStart_cons, tileShape_cons, List.zip_cons_cons, List.zipWith_cons_cons,
      ih hPos.2 (by simpa using hLen) ht]
    congr 1
    split <;> omega

/-- The lines of a tile are its items. -/
theorem lineItem_mem (hTile : tileShape ns ds t ≠ []) {x : List Nat} :
    (∃ ncopy ∈ List.range (tileShape ns ds t).dropLast.prod,
      x ∈ lineItem ns ds t ncopy '' {j | j < (tileShape ns ds t).getLastD 0}) ↔
      x ∈ tile ns ds t := by
  rw [mem_tile]
  constructor
  · rintro ⟨ncopy, hn, j, hj, rfl⟩
    exact ⟨_, (inBox_snoc hTile).mpr ⟨inBox_unflat (List.mem_range.mp hn), hj⟩, rfl⟩
  · rintro ⟨y, hy, rfl⟩
    obtain ⟨is, j, rfl⟩ := exists_snoc hTile hy
    obtain ⟨hLine, hj⟩ := (inBox_snoc hTile).mp hy
    refine ⟨_, List.mem_range.mpr (flat_lt hLine), j, hj, ?_⟩
    rw [lineItem, unflat_flat hLine]

theorem repartBlock_writes (hPos : ∀ d ∈ ds, 0 < d) (hLen : ns.length = ds.length) (hne : ns ≠ [])
    {sci : Nat} (hs : sci < (tileCounts ns ds).prod) (r : Nat → Cell) :
    Writes (chunkPlace ns ds) (fun x => src (flat ns x))
      {x | x ∈ tile ns ds (unflat (tileCounts ns ds) sci)} r
      (repartBlock ns (List.zipWith (· * ·) (tileCounts ns ds) ds) ds src r sci) := by
  have ht := inBox_unflat hs
  have hTile := tileShape_ne_nil hPos hLen hne ht
  have hSet : {x | x ∈ tile ns ds (unflat (tileCounts ns ds) sci)} = {x | ∃ ncopy ∈ List.range
      (tileShape ns ds (unflat (tileCounts ns ds) sci)).dropLast.prod,
      x ∈ lineItem ns ds (unflat (tileCounts ns ds) sci) ncopy ''
        {j | j < (tileShape ns ds (unflat (tileCounts ns ds) sci)).getLastD 0}} :=
    Set.ext fun _ => (lineItem_mem hTile).symm
  have hSub : {x | x ∈ tile ns ds (unflat (tileCounts ns ds) sci)} ⊆ {x | InBox x ns} :=
    fun x hx => inBox_of_mem_tile hPos hLen ht hx
  have hInj := (chunkPlace_injOn hPos hLen).mono hSub
  have hOrig : List.zipWith (· * ·) (iterBlockIndex (tileCounts ns ds) sci) ds =
      tileStart ds (unflat (tileCounts ns ds) sci) := by
    rw [iterBlockIndex_eq hs, tileStart]
  rw [hSet] at hInj ⊢
  simp only [repartBlock, counts_extended hPos hLen, hOrig, actual_eq hPos hLen ht]
  refine Writes.foldl hInj (fun ncopy hn r => ?_) r
  have hLine := repartLine_writes src hPos hLen hne ht (List.mem_range.mp hn) r
  rwa [flat_unflat hs] at hLine

/-- The whole loop writes the items of the chunk. -/
theorem repartBlocks_writes (hPos : ∀ d ∈ ds, 0 < d) (hLen : ns.length = ds.length) (hne : ns ≠ [])
    (r : Nat → Cell) :
    Writes (chunkPlace ns ds) (fun x => src (flat ns x)) {x | InBox x ns} r
      ((List.range (tileCounts ns ds).prod).foldl
        (repartBlock ns (List.zipWith (· * ·) (tileCounts ns ds) ds) ds src) r) := by
  have hSet : {x | InBox x ns} = {x | ∃ sci ∈ List.range (tileCounts ns ds).prod,
      x ∈ {x | x ∈ tile ns ds (unflat (tileCounts ns ds) sci)}} := by
    ext x
    constructor
    · intro hx
      obtain ⟨ht, hy⟩ := exists_tile hPos hLen hx
      refine ⟨_, List.mem_range.mpr (flat_lt ht), ?_⟩
      rw [unflat_flat ht]
      exact mem_tile.mpr hy
    · rintro ⟨sci, hs, hx⟩
      exact inBox_of_mem_tile hPos hLen (inBox_unflat (List.mem_range.mp hs)) hx
  have hInj := chunkPlace_injOn hPos hLen
  rw [hSet] at hInj ⊢
  exact Writes.foldl hInj (fun sci hs r =>
    repartBlock_writes src hPos hLen hne (List.mem_range.mp hs) r) r

end Relayout

/-! ## Axes in front -/

section Pad

variable {ns ds x : List Nat} (m : Nat)

/-- An index with a zero for each axis of length one in front. -/
def padIndex (x : List Nat) : List Nat := List.replicate m 0 ++ x

/-- A shape with `m` axes of length one in front. -/
def padOnes (ns : List Nat) : List Nat := List.replicate m 1 ++ ns

theorem padIndex_succ (x : List Nat) : padIndex (m + 1) x = 0 :: padIndex m x := rfl

theorem padOnes_succ (ns : List Nat) : padOnes (m + 1) ns = 1 :: padOnes m ns := rfl

theorem inBox_pad : InBox (padIndex m x) (padOnes m ns) ↔ InBox x ns := by
  induction m with
  | zero => rfl
  | succ m ih => rw [padIndex_succ, padOnes_succ, inBox_cons, ih, and_iff_right Nat.zero_lt_one]

theorem exists_padIndex {z : List Nat} (h : InBox z (padOnes m ns)) :
    ∃ x, z = padIndex m x ∧ InBox x ns := by
  induction m generalizing z with
  | zero => exact ⟨z, rfl, h⟩
  | succ m ih =>
    obtain ⟨i, z, rfl, hi, hz⟩ := InBox.cons_iff.mp h
    obtain ⟨x, rfl, hx⟩ := ih hz
    obtain rfl := Nat.lt_one_iff.mp hi
    exact ⟨x, rfl, hx⟩

theorem flat_pad : flat (padOnes m ns) (padIndex m x) = flat ns x := by
  induction m with
  | zero => rfl
  | succ m ih => rw [padIndex_succ, padOnes_succ, flat_cons, ih, Nat.zero_mul, Nat.zero_add]

theorem tileCounts_pad : tileCounts (padOnes m ns) (padOnes m ds) = padOnes m (tileCounts ns ds) := by
  induction m with
  | zero => rfl
  | succ m ih =>
    rw [padOnes_succ, padOnes_succ, tileCounts_cons, ih]
    rfl

theorem prod_pad : (padOnes m ns).prod = ns.prod := by
  rw [padOnes, List.prod_append, List.prod_replicate, one_pow, one_mul]

theorem zipWith_mul_pad :
    List.zipWith (· * ·) (padOnes m ns) (padOnes m ds) = padOnes m (List.zipWith (· * ·) ns ds) := by
  induction m with
  | zero => rfl
  | succ m ih =>
    rw [padOnes_succ, padOnes_succ, List.zipWith_cons_cons, ih]
    rfl

theorem chunkPlace_pad : chunkPlace (padOnes m ns) (padOnes m ds) (padIndex m x) =
    chunkPlace ns ds x := by
  have hTile : tileOf (padOnes m ds) (padIndex m x) = padIndex m (tileOf ds x) := by
    induction m with
    | zero => rfl
    | succ m ih =>
      rw [padIndex_succ, padOnes_succ, tileOf_cons, ih]
      rfl
  have hItem : List.zipWith (· % ·) (padIndex m x) (padOnes m ds) =
      padIndex m (List.zipWith (· % ·) x ds) := by
    clear hTile
    induction m with
    | zero => rfl
    | succ m ih =>
      rw [padIndex_succ, padOnes_succ, List.zipWith_cons_cons, ih]
      rfl
  rw [chunkPlace, tileCounts_pad, hTile, hItem, flat_pad, flat_pad, prod_pad, chunkPlace]

theorem padOnes_pos (h : ∀ d ∈ ds, 0 < d) : ∀ d ∈ padOnes m ds, 0 < d := by
  intro d hd
  rcases List.mem_append.mp hd with hd | hd
  · exact (List.eq_of_mem_replicate hd).symm ▸ Nat.zero_lt_one
  · exact h d hd

end Pad

/-! ## The repartitioned chunk -/

/-- The extended chunk of an array with a chunk is made of its blocks. -/
theorem extchunkshape_eq {axes : List Axis} (h : ∀ a ∈ axes, 0 < a.shape) :
    axes.map Axis.extchunkshape = List.zipWith (· * ·)
      (tileCounts (chunkshapeOf axes) (blockshapeOf axes)) (blockshapeOf axes) := by
  induction axes with
  | nil => rfl
  | cons a axes ih =>
    rw [List.forall_mem_cons] at h
    rw [List.map_cons, ih h.2, Axis.extchunkshape, if_neg h.1.ne']
    rfl

/-- The shapes of an array are padded alike, to at least one axis. -/
theorem exists_padOnes (rank : Nat) : ∃ m, 0 < m + rank ∧
    ∀ ns : List Nat, ns.length = rank → padShape ns = padOnes m ns := by
  refine ⟨dimensionMax - rank, ?_, fun ns h => ?_⟩
  · rw [dimensionMax]
    omega
  · rw [padShape, h, padOnes]

theorem CatArray.length_parts (array : CatArray) :
    array.chunkshape.length = array.blockshape.length := by
  rw [chunkshape, blockshape, chunkshapeOf, blockshapeOf, List.length_map, List.length_map]

/-- The loop that the call runs, over the padded shapes. -/
theorem repartChunk_writes {array : CatArray} (hChunk : 0 < array.nchunks) (chunk : Nat → Cell) :
    ∃ out m, catervaBloscArrayRepartChunk chunk array = .ok out ∧
      Writes (chunkPlace (padOnes m array.chunkshape) (padOnes m array.blockshape))
        (fun x => chunk (flat (padOnes m array.chunkshape) x))
        {x | InBox x (padOnes m array.chunkshape)} (fun _ => .bits 0) out := by
  have hShape := CatArray.shape_pos_of_nchunks hChunk
  have hPos : ∀ d ∈ array.blockshape, 0 < d := forall_map_pos hShape fun a => a.block_pos
  have hLen := array.length_parts
  obtain ⟨m, hSome, hPad⟩ := exists_padOnes array.axes.length
  have hne : padOnes m array.chunkshape ≠ [] := by
    intro h
    have hLength := congrArg List.length h
    rw [padOnes, List.length_append, List.length_replicate, CatArray.chunkshape, chunkshapeOf,
      List.length_map, List.length_nil] at hLength
    omega
  have hPadLen : (padOnes m array.chunkshape).length = (padOnes m array.blockshape).length := by
    rw [padOnes, padOnes, List.length_append, List.length_append, hLen]
  have hWrites := repartBlocks_writes chunk (padOnes_pos m hPos) hPadLen hne
    fun _ => .bits 0
  rw [tileCounts_pad, prod_pad, zipWith_mul_pad] at hWrites
  have hExt : array.axes.map Axis.extchunkshape = List.zipWith (· * ·)
      (tileCounts array.chunkshape array.blockshape) array.blockshape := extchunkshape_eq hShape
  have hItems : 0 < array.blockshape.prod := prod_pos_of_forall hPos
  have hCount : (array.axes.map Axis.extchunkshape).prod / array.blockshape.prod =
      (tileCounts array.chunkshape array.blockshape).prod :=
    (CatArray.prod_extchunkshape hShape).trans (congrArg _ (tileCounts_blocks _).symm)
  have hBlocks : idiv (array.axes.map Axis.extchunkshape).prod array.blockshape.prod =
      .ok (tileCounts array.chunkshape array.blockshape).prod := by
    rw [idiv, if_neg hItems.ne', hCount]
  refine ⟨_, m, ?_, hWrites⟩
  rw [catervaBloscArrayRepartChunk, hPad array.chunkshape (List.length_map _),
    hPad (array.axes.map Axis.extchunkshape) (List.length_map _),
    hPad array.blockshape (List.length_map _), prod_pad, prod_pad, hBlocks, hExt]
  rfl

/-- `caterva_blosc_array_repart_chunk` puts every item of a chunk at the place of its index in the
extended chunk, no two at the same one, and zero at every other place. -/
theorem repartChunk_relayout {array : CatArray} (hChunk : 0 < array.nchunks)
    (chunk : Nat → Cell) : ∃ out, catervaBloscArrayRepartChunk chunk array = .ok out ∧
      (∀ c, InBox c array.chunkshape →
        chunkPlace array.chunkshape array.blockshape c < (array.axes.map Axis.extchunkshape).prod ∧
          out (chunkPlace array.chunkshape array.blockshape c) = chunk (flat array.chunkshape c)) ∧
      (∀ c d, InBox c array.chunkshape → InBox d array.chunkshape →
        chunkPlace array.chunkshape array.blockshape c =
          chunkPlace array.chunkshape array.blockshape d → c = d) ∧
      ∀ k < (array.axes.map Axis.extchunkshape).prod,
        (∀ c, InBox c array.chunkshape →
          chunkPlace array.chunkshape array.blockshape c ≠ k) → out k = .bits 0 := by
  have hShape := CatArray.shape_pos_of_nchunks hChunk
  have hPos : ∀ d ∈ array.blockshape, 0 < d := forall_map_pos hShape fun a => a.block_pos
  have hLen := array.length_parts
  obtain ⟨out, m, hRun, hWrites⟩ := repartChunk_writes hChunk chunk
  refine ⟨out, hRun, fun c hc => ⟨?_, ?_⟩, fun c d hc hd hEq => chunkPlace_injOn hPos hLen hc hd hEq,
    fun k _ hk => hWrites.miss k ?_⟩
  · rw [CatArray.prod_extchunkshape_eq hShape, ← tileCounts_blocks]
    exact chunkPlace_lt hPos hLen hc
  · have hHit := hWrites.hit (padIndex m c) ((inBox_pad m).mpr hc)
    rwa [chunkPlace_pad, flat_pad] at hHit
  · rintro ⟨z, hz, hPlace⟩
    obtain ⟨c, rfl, hc⟩ := exists_padIndex m hz
    rw [chunkPlace_pad] at hPlace
    exact hk c hc hPlace

/-- A chunk of 3 by 5 items in blocks of 2 by 2, which divide neither axis. -/
def oddChunk : CatArray :=
  .ofFn [.ofCuts 3 3 2, .ofCuts 5 5 2] 4 fun _ => .bits 0

/-- The last item of the chunk lies in the last of six blocks, before three zeros. -/
theorem repartChunk_relayout_odd : ∃ out,
    catervaBloscArrayRepartChunk (fun k => .bits (k + 1)) oddChunk = .ok out ∧
      chunkPlace oddChunk.chunkshape oddChunk.blockshape [2, 4] = 20 ∧ out 20 = .bits 15 := by
  have hChunk : 0 < oddChunk.nchunks := by decide
  obtain ⟨out, hRun, hItem, -, -⟩ := repartChunk_relayout hChunk fun k => .bits (k + 1)
  exact ⟨out, hRun, rfl, (hItem [2, 4] (by decide)).2⟩

end IronArray
