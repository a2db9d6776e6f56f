import IronArray.Constructors.Code
import IronArray.Core.Places
import IronArray.Core.Reference

/-!
# The element constructor writes every element once

`constructorElement_writes_iff`: over all chunks and blocks, the items that the element constructor
writes stand for the indices of the array, each once and each at its own place. The invariant of
the loop over a block is that the items written so far stay as they were written.
-/

namespace IronArray

open Grid

/-! ## Strides -/

theorem unidimToMultidim_strides {ns : List Nat} (hPos : ∀ n ∈ ns, 0 < n) (i : Nat) :
    indexUnidimToMultidim (computeStrides ns) i = unflat ns i :=
  indexUnidimToMultidimShape_eq hPos i

theorem multidimToUnidim_strides (ns is : List Nat) :
    indexMultidimToUnidim (computeStrides ns) is = flat ns is := by
  rw [computeStrides_eq]
  exact dot_strides is ns

/-! ## One block -/

/-- The end of chunk `c` inside the array. -/
def chunkStop (axes : List Axis) (c : List Nat) : List Nat :=
  List.zipWith (fun (a : Axis) i =>
    if a.shape < i * a.chunkshape + a.chunkshape then a.shape
    else i * a.chunkshape + a.chunkshape) axes c

theorem blockShape_eq {axes : List Axis} {c b : List Nat} (hc : c.length = axes.length)
    (hb : b.length = axes.length) :
    List.zipWith (· - ·) (List.zipWith (fun (a : Axis) (p : Nat × Nat) =>
      if p.2 < p.1 + a.blockshape then p.2 else p.1 + a.blockshape) axes
        (List.zip (blockStart axes c b) (chunkStop axes c))) (blockStart axes c b) =
      partOf axes c b := by
  induction axes generalizing c b with
  | nil => rfl
  | cons a axes ih =>
    obtain ⟨c₀, c, rfl⟩ := List.exists_cons_of_length_eq_add_one hc
    obtain ⟨b₀, b, rfl⟩ := List.exists_cons_of_length_eq_add_one hb
    have hRest := ih (c := c) (b := b) (by simpa using hc) (by simpa using hb)
    simp only [blockStart, chunkStop, List.zipWith_cons_cons, List.zip_cons_cons, partOf]
      at hRest ⊢
    rw [hRest, Axis.nitems]
    congr 1
    split <;> split <;> omega

/-- A block that starts behind its chunk has no items. -/
theorem partOf_of_behind {axes : List Axis} {c b : List Nat} (hc : c.length = axes.length)
    (hb : b.length = axes.length)
    (h : (List.zip (blockStart axes c b) (chunkStop axes c)).any (fun p => p.2 < p.1) = true) :
    (partOf axes c b).prod = 0 := by
  induction axes generalizing c b with
  | nil => simp [blockStart] at h
  | cons a axes ih =>
    obtain ⟨c₀, c, rfl⟩ := List.exists_cons_of_length_eq_add_one hc
    obtain ⟨b₀, b, rfl⟩ := List.exists_cons_of_length_eq_add_one hb
    have hRest := ih (c := c) (b := b) (by simpa using hc) (by simpa using hb)
    simp only [blockStart, chunkStop, List.zipWith_cons_cons, List.zip_cons_cons, List.any_cons,
      Bool.or_eq_true, decide_eq_true_eq] at h hRest
    rw [partOf, List.prod_cons]
    rcases h with h | h
    · have hZero : a.nitems c₀ b₀ = 0 := by
        rw [Axis.nitems]
        split at h <;> omega
      rw [hZero, Nat.zero_mul]
    · rw [hRest h, Nat.mul_zero]

/-- What the prefilter knows of a block: a block that is left alone has no items, and any other
has its part of the array. -/
theorem constructorBlockInfo_eq {axes : List Axis} {nchunk nblock : Nat}
    (hc : nchunk < (axes.map Axis.chunks).prod) (hb : nblock < (axes.map Axis.blocks).prod) :
    let c := unflat (axes.map Axis.chunks) nchunk
    let b := unflat (axes.map Axis.blocks) nblock
    let info := constructorBlockInfo axes (constructorChunkInfo axes (axes.map Axis.chunks)
      (axes.map Axis.blocks) nchunk) nblock
    (info = none ∧ (partOf axes c b).prod = 0) ∨
      ∃ stop, List.zipWith (· - ·) stop (blockStart axes c b) = partOf axes c b ∧
        info = some
          { indexInChunk := b
            indexInChunkFlat := nblock
            start := blockStart axes c b
            stop := stop
            shape := partOf axes c b
            size := (partOf axes c b).prod
            blockStrides := computeStrides (partOf axes c b) } := by
  intro c b info
  have hLen : ∀ (f : Axis → Nat) k, (unflat (axes.map f) k).length = axes.length := by simp
  have hInfo : info = constructorBlockInfo axes (constructorChunkInfo axes (axes.map Axis.chunks)
      (axes.map Axis.blocks) nchunk) nblock := rfl
  simp only [constructorBlockInfo, constructorChunkInfo, unidimToMultidim_strides (pos_of_lt_prod hc),
    unidimToMultidim_strides (pos_of_lt_prod hb)] at hInfo
  rw [← blockStart, ← chunkStop, blockShape_eq (hLen _ _) (hLen _ _)] at hInfo
  rw [hInfo]
  split
  · rename_i hBehind
    exact .inl ⟨rfl, partOf_of_behind (hLen _ _) (hLen _ _) hBehind⟩
  · exact .inr ⟨_, blockShape_eq (hLen _ _) (hLen _ _), rfl⟩

/-- The items that the element constructor writes into block `nblock` of chunk `nchunk`. -/
def blockItems (c : Container) (nchunk nblock : Nat) : List ConstructorItemInfo :=
  match constructorBlockInfo c.catarr.axes (constructorChunkInfo c.catarr.axes
      (c.catarr.axes.map Axis.chunks) (c.catarr.axes.map Axis.blocks) nchunk) nblock with
  | none => []
  | some block => (constructorArrayInfo c).items block

theorem prefilter_eq_writeItems (E : Backend) (itemFn : ConstructorItemFn) (c : Container)
    (nchunk nblock : Nat) :
    iarrayConstructorPrefilter E (iarrayConstructorElementFn itemFn) (constructorArrayInfo c)
      (constructorChunkInfo c.catarr.axes (c.catarr.axes.map Axis.chunks)
        (c.catarr.axes.map Axis.blocks) nchunk) nblock =
      (writeItems itemFn (blockItems c nchunk nblock)
        ((List.range c.catarr.blockshape.prod).map E.malloc)).map Prod.fst := by
  simp only [iarrayConstructorPrefilter, blockItems, constructorArrayInfo]
  generalize constructorBlockInfo c.catarr.axes _ nblock = block
  cases block with
  | none => rfl
  | some block =>
    simp only [iarrayConstructorElementFn]
    generalize writeItems itemFn _ _ = result
    cases result <;> rfl

/-- The location of the item at position `i` of block `b` of chunk `c`, with its place in a block
of shape `ns`. -/
def itemAt (axes : List Axis) (ns c b i : List Nat) : ConstructorItemInfo where
  index := joinAll axes c b i
  indexFlat := flat (shapeOf axes) (joinAll axes c b i)
  indexInBlock := i
  indexInBlockFlat := flat (partOf axes c b) i
  indexInBlock2Flat := flat ns i

variable {a : Container}

/-- The part of a block has no more items than the first block. -/
theorem partOf_le_reach {axes : List Axis} {c b : List Nat} (hc : c.length = axes.length)
    (hb : b.length = axes.length) :
    List.Forall₂ (· ≤ ·) (partOf axes c b) (axes.map Axis.reach) := by
  induction axes generalizing c b with
  | nil => simp [partOf]
  | cons a axes ih =>
    obtain ⟨c₀, c, rfl⟩ := List.exists_cons_of_length_eq_add_one hc
    obtain ⟨b₀, b, rfl⟩ := List.exists_cons_of_length_eq_add_one hb
    exact .cons (a.nitems_le_reach c₀ b₀) (ih (by simpa using hc) (by simpa using hb))

/-- The items of a block are those of its part inside the array, in row-major order. Their places
come from the block lengths of the storage. -/
theorem blockItems_stored (hPlain : Plain a) {nchunk nblock : Nat}
    (hc : nchunk < (a.catarr.axes.map Axis.chunks).prod)
    (hb : nblock < (a.catarr.axes.map Axis.blocks).prod) :
    blockItems a nchunk nblock =
      (List.range (partOf a.catarr.axes (unflat (a.catarr.axes.map Axis.chunks) nchunk)
        (unflat (a.catarr.axes.map Axis.blocks) nblock)).prod).map fun k =>
          itemAt a.catarr.axes a.storage.blockshape
            (unflat (a.catarr.axes.map Axis.chunks) nchunk)
            (unflat (a.catarr.axes.map Axis.blocks) nblock)
            (unflat (partOf a.catarr.axes (unflat (a.catarr.axes.map Axis.chunks) nchunk)
              (unflat (a.catarr.axes.map Axis.blocks) nblock)) k) := by
  have hLen : ∀ (f : Axis → Nat) k, (unflat (a.catarr.axes.map f) k).length =
      a.catarr.axes.length := by simp
  have hShape : computeStrides a.dtshape.shape = computeStrides (shapeOf a.catarr.axes) :=
    congrArg _ hPlain.fresh.shape.symm
  rw [blockItems]
  rcases constructorBlockInfo_eq hc hb with ⟨hNone, hEmpty⟩ | ⟨stop, -, hSome⟩
  · rw [hNone, hEmpty]
    rfl
  · rw [hSome]
    refine List.map_congr_left fun k hk => ?_
    have hPart := pos_of_lt_prod (List.mem_range.mp hk)
    have hIn := inBox_unflat (List.mem_range.mp hk)
    have hItem := ((inBox_partOf (hLen Axis.chunks nchunk) (hLen Axis.blocks nblock)).mp hIn).1
    simp only [ConstructorArrayInfo.itemInfo, itemAt, constructorArrayInfo,
      unidimToMultidim_strides hPart, multidimToUnidim_strides, hShape,
      flat_unflat (List.mem_range.mp hk)]
    rw [blockStart_add (hLen _ _) (hLen _ _) (by simpa [blockshapeOf] using hItem.length_eq)]

theorem blockItems_eq (hPlain : Plain a) (hPlaces : a.InPlace) {nchunk nblock : Nat}
    (hc : nchunk < (a.catarr.axes.map Axis.chunks).prod)
    (hb : nblock < (a.catarr.axes.map Axis.blocks).prod) :
    blockItems a nchunk nblock =
      (List.range (partOf a.catarr.axes (unflat (a.catarr.axes.map Axis.chunks) nchunk)
        (unflat (a.catarr.axes.map Axis.blocks) nblock)).prod).map fun k =>
          itemAt a.catarr.axes (blockshapeOf a.catarr.axes)
            (unflat (a.catarr.axes.map Axis.chunks) nchunk)
            (unflat (a.catarr.axes.map Axis.blocks) nblock)
            (unflat (partOf a.catarr.axes (unflat (a.catarr.axes.map Axis.chunks) nchunk)
              (unflat (a.catarr.axes.map Axis.blocks) nblock)) k) := by
  have hFit := hPlaces.wellPlaced hPlain (CatArray.shape_pos_of_nchunks hc)
  rw [blockItems_stored hPlain hc hb]
  refine List.map_congr_left fun k hk => ?_
  have hIn := inBox_unflat (List.mem_range.mp hk)
  simp only [itemAt, flat_places hFit hPlain.fresh.blockshape
    (inBox_mono hIn (partOf_le_reach (by simp) (by simp)))]

/-! ## The loop over the items -/

/-- The loop writes what it is given at distinct places and leaves the rest alone. -/
theorem writeItems_ok {f : ConstructorItemInfo → Cell} {items : List ConstructorItemInfo}
    {dest : List Cell} (h : ∀ item ∈ items, item.indexInBlock2Flat < dest.length) :
    ∃ out, writeItems (fun item => .ok (f item)) items dest = .ok (out, none) ∧
      out.length = dest.length ∧
      (∀ k, (∀ item ∈ items, item.indexInBlock2Flat ≠ k) → out[k]? = dest[k]?) ∧
      ((items.map ConstructorItemInfo.indexInBlock2Flat).Nodup →
        ∀ item ∈ items, out[item.indexInBlock2Flat]? = some (f item)) := by
  induction items generalizing dest with
  | nil => exact ⟨dest, rfl, rfl, fun _ _ => rfl, by simp⟩
  | cons item items ih =>
    have hItem := h item List.mem_cons_self
    obtain ⟨out, hOut, hLen, hFrame, hWritten⟩ := @ih (dest.set item.indexInBlock2Flat (f item))
      fun i hi => by
        rw [List.length_set]
        exact h i (List.mem_cons_of_mem _ hi)
    refine ⟨out, ?_, by rw [hLen, List.length_set], fun k hk => ?_, fun hNodup => ?_⟩
    · simp only [writeItems, if_pos hItem, hOut]
    · rw [hFrame k fun i hi => hk i (List.mem_cons_of_mem _ hi),
        List.getElem?_set_ne (hk item List.mem_cons_self)]
    · rw [List.map_cons, List.nodup_cons] at hNodup
      rintro i hi
      rcases List.mem_cons.mp hi with rfl | hi
      · rw [hFrame _ fun j hj hEq => hNodup.1 (List.mem_map.mpr ⟨j, hj, hEq⟩),
          List.getElem?_set_self hItem]
      · exact hWritten hNodup.2 i hi

/-! ## All blocks -/

/-- The items that the constructor writes, with the chunk, the block and the place in the block
where it writes them. -/
def constructorWrites (c : Container) : List (Place × ConstructorItemInfo) :=
  (List.range c.catarr.nchunks).flatMap fun nchunk =>
    (List.range (c.catarr.axes.map Axis.blocks).prod).flatMap fun nblock =>
      (blockItems c nchunk nblock).map fun item => (⟨nchunk, nblock, item.indexInBlock2Flat⟩, item)

theorem mem_blockItems (hPlain : Plain a) (hPlaces : a.InPlace) {nchunk nblock : Nat}
    (hc : nchunk < (a.catarr.axes.map Axis.chunks).prod)
    (hb : nblock < (a.catarr.axes.map Axis.blocks).prod) {item : ConstructorItemInfo}
    (h : item ∈ blockItems a nchunk nblock) :
    InBox item.index (shapeOf a.catarr.axes) ∧
      locate a.catarr.axes item.index = ⟨nchunk, nblock, item.indexInBlock2Flat⟩ ∧
      item.indexFlat = flat (shapeOf a.catarr.axes) item.index := by
  rw [blockItems_eq hPlain hPlaces hc hb, List.mem_map] at h
  obtain ⟨k, hk, rfl⟩ := h
  obtain ⟨hBox, hLocate⟩ :=
    locate_joinAll (inBox_unflat hc) (inBox_unflat hb) (inBox_unflat (List.mem_range.mp hk))
  rw [flat_unflat hc, flat_unflat hb] at hLocate
  exact ⟨hBox, hLocate, rfl⟩

theorem nodup_blockItems (hPlain : Plain a) (hPlaces : a.InPlace) {nchunk nblock : Nat}
    (hc : nchunk < (a.catarr.axes.map Axis.chunks).prod)
    (hb : nblock < (a.catarr.axes.map Axis.blocks).prod) :
    ((blockItems a nchunk nblock).map ConstructorItemInfo.indexInBlock2Flat).Nodup := by
  rw [blockItems_eq hPlain hPlaces hc hb, List.map_map]
  refine List.nodup_range.map_on fun i hi j hj h => ?_
  have hInI := (inBox_partOf (by simp) (by simp)).mp (inBox_unflat (List.mem_range.mp hi))
  have hInJ := (inBox_partOf (by simp) (by simp)).mp (inBox_unflat (List.mem_range.mp hj))
  rw [← flat_unflat (List.mem_range.mp hi), ← flat_unflat (List.mem_range.mp hj),
    flat_injective hInI.1 hInJ.1 h]

/-- An index of the array is among the items of its block. -/
theorem exists_blockItem (hPlain : Plain a) (hPlaces : a.InPlace) {x : List Nat}
    (hx : InBox x (shapeOf a.catarr.axes)) :
    ∃ item ∈ blockItems a (locate a.catarr.axes x).nchunk (locate a.catarr.axes x).nblock,
      item.index = x := by
  obtain ⟨i, hi, hJoin⟩ := exists_item hx
  rw [blockItems_eq hPlain hPlaces (nchunk_lt hx) (nblock_lt hx)]
  refine ⟨_, List.mem_map.mpr ⟨_, List.mem_range.mpr (flat_lt hi), rfl⟩, ?_⟩
  rw [unflat_flat hi]
  exact hJoin

theorem constructorWrites_perm (hPlain : Plain a) (hPlaces : a.InPlace) :
    ((constructorWrites a).map fun w => w.2.index).Perm (box a.dtshape.shape) := by
  have hShape : shapeOf a.catarr.axes = a.dtshape.shape := hPlain.fresh.shape
  rw [← hShape]
  refine List.Perm.trans ?_ (joinAll_blocks_perm a.catarr.axes)
  refine List.Perm.trans ?_ ((box_perm_unflat _).flatMap_right _)
  rw [List.flatMap_map, constructorWrites, List.map_flatMap]
  refine List.Perm.flatMap_left _ fun nchunk hc => ?_
  refine List.Perm.trans ?_ ((box_perm_unflat _).flatMap_right _)
  rw [List.flatMap_map, List.map_flatMap]
  refine List.Perm.flatMap_left _ fun nblock hb => ?_
  rw [blockItems_eq hPlain hPlaces (List.mem_range.mp hc) (List.mem_range.mp hb), List.map_map,
    List.map_map]
  have hItems := (box_perm_unflat (partOf a.catarr.axes
    (unflat (a.catarr.axes.map Axis.chunks) nchunk)
    (unflat (a.catarr.axes.map Axis.blocks) nblock))).map (joinAll a.catarr.axes
    (unflat (a.catarr.axes.map Axis.chunks) nchunk) (unflat (a.catarr.axes.map Axis.blocks) nblock))
  rw [List.map_map] at hItems
  exact hItems

/-- Every place written to lies inside its block and belongs to the index of the item. -/
theorem mem_constructorWrites (hPlain : Plain a) (hPlaces : a.InPlace)
    {w : Place × ConstructorItemInfo}
    (h : w ∈ constructorWrites a) :
    w.1 = locate a.catarr.axes w.2.index ∧ w.2.indexFlat = flat a.dtshape.shape w.2.index ∧
      w.1.nitem < a.catarr.blockshape.prod := by
  simp only [constructorWrites, List.mem_flatMap, List.mem_map, List.mem_range] at h
  obtain ⟨nchunk, hc, nblock, hb, item, hItem, rfl⟩ := h
  obtain ⟨hx, hPlace, hFlat⟩ := mem_blockItems hPlain hPlaces hc hb hItem
  refine ⟨hPlace.symm, by rw [hFlat, ← hPlain.fresh.shape]; rfl, ?_⟩
  have hLt := nitem_lt hx
  rwa [hPlace] at hLt

/-! ## The constructor -/

variable {E : Backend}

theorem prefilter_ok (E : Backend) (hPlain : Plain a) (hPlaces : a.InPlace)
    (f : ConstructorItemInfo → Cell)
    {nchunk nblock : Nat} (hc : nchunk < (a.catarr.axes.map Axis.chunks).prod)
    (hb : nblock < (a.catarr.axes.map Axis.blocks).prod) :
    ∃ out, iarrayConstructorPrefilter E (iarrayConstructorElementFn fun item => .ok (f item))
        (constructorArrayInfo a) (constructorChunkInfo a.catarr.axes
          (a.catarr.axes.map Axis.chunks) (a.catarr.axes.map Axis.blocks) nchunk) nblock = .ok out ∧
      out.length = a.catarr.blockshape.prod ∧
      ∀ item ∈ blockItems a nchunk nblock, out[item.indexInBlock2Flat]? = some (f item) := by
  have hInside : ∀ item ∈ blockItems a nchunk nblock, item.indexInBlock2Flat <
      ((List.range a.catarr.blockshape.prod).map E.malloc).length := by
    intro item hItem
    obtain ⟨hx, hPlace, -⟩ := mem_blockItems hPlain hPlaces hc hb hItem
    have hLt := nitem_lt hx
    rw [hPlace] at hLt
    rw [List.length_map, List.length_range]
    exact hLt
  obtain ⟨out, hOut, hLen, -, hWritten⟩ := writeItems_ok (f := f) hInside
  refine ⟨out, ?_, by simpa using hLen, hWritten (nodup_blockItems hPlain hPlaces hc hb)⟩
  rw [prefilter_eq_writeItems, hOut]
  rfl

/-- The loop over the chunks fills the array. -/
theorem constructorLoop_ok (E : Backend) (hPlain : Plain a) (hPlaces : a.InPlace)
    (f : ConstructorItemInfo → Cell)
    {ch bl : List Nat} (hCh : shapeOfChunks a.catarr.axes = .ok ch)
    (hBl : shapeOfBlocks a.catarr.axes = .ok bl) :
    ∃ block : Nat → Nat → List Cell,
      (∀ c < a.catarr.nchunks, ∀ k < (a.catarr.axes.map Axis.blocks).prod,
        (block c k).length = a.catarr.blockshape.prod ∧
        ∀ item ∈ blockItems a c k, (block c k)[item.indexInBlock2Flat]? = some (f item)) ∧
      (List.range a.catarr.nchunks).foldlM (fun b nchunk => do
        let chunk ← a.catarr.compress (iarrayConstructorPrefilter E
          (iarrayConstructorElementFn fun item => .ok (f item)) (constructorArrayInfo a)
          (constructorChunkInfo a.catarr.axes ch bl nchunk))
        pure (b.updateChunk nchunk (chunkItems chunk))) a.catarr =
          .ok (a.catarr.withChunks a.catarr.nchunks fun c =>
            (List.range (a.catarr.axes.map Axis.blocks).prod).flatMap (block c)) := by
  have hBlocks : ∀ c k : Nat, ∃ out : List Cell, c < a.catarr.nchunks →
      k < (a.catarr.axes.map Axis.blocks).prod →
      iarrayConstructorPrefilter E (iarrayConstructorElementFn fun item => .ok (f item))
        (constructorArrayInfo a) (constructorChunkInfo a.catarr.axes
          (a.catarr.axes.map Axis.chunks) (a.catarr.axes.map Axis.blocks) c) k = .ok out ∧
      out.length = a.catarr.blockshape.prod ∧
      ∀ item ∈ blockItems a c k, out[item.indexInBlock2Flat]? = some (f item) := by
    intro c k
    by_cases h : c < a.catarr.nchunks ∧ k < (a.catarr.axes.map Axis.blocks).prod
    · obtain ⟨out, hOut⟩ := prefilter_ok E hPlain hPlaces f h.1 h.2
      exact ⟨out, fun _ _ => hOut⟩
    · exact ⟨[], fun hc hk => absurd ⟨hc, hk⟩ h⟩
  choose block hBlock using hBlocks
  refine ⟨block, fun c hc k hk => (hBlock c k hc hk).2, ?_⟩
  rcases Nat.eq_zero_or_pos a.catarr.nchunks with hNone | hSome
  · rw [hNone]
    rfl
  · have hShape := @CatArray.shape_pos_of_nchunks a.catarr.axes 0 hSome
    rw [shapeOfBlocks_ok hShape, Except.ok.injEq] at hBl
    rw [shapeOfChunks_ok fun x hx => x.chunk_pos (hShape x hx), Except.ok.injEq] at hCh
    subst hBl hCh
    exact CatArray.compressChunks_eq_ok.mpr ⟨block, fun c hc k hk => (hBlock c k hc hk).1, rfl⟩

/-- What the element constructor makes of an item function. -/
structure ElementsWritten (d : Dtshape) (st : Storage) (f : List Nat → Nat → Cell)
    (c : Container) : Prop where
  plain : Plain c
  dtshape : c.dtshape = d
  storage : c.storage = st
  /-- The element at an index is the item made for the index and its row-major number. -/
  cell : ∀ x, InBox x d.shape → c.catarr.cell x = .ok (f x (flat d.shape x))
  /-- Every index is written once. -/
  once : ((constructorWrites c).map fun w => w.2.index).Perm (box d.shape)
  /-- Every item is written at the place of its index, inside its block. -/
  inside : ∀ w ∈ constructorWrites c, w.1 = locate c.catarr.axes w.2.index ∧
    w.2.indexFlat = flat d.shape w.2.index ∧ w.1.nitem < c.catarr.blockshape.prod

variable {dtshape : Dtshape} {storage : Storage} {f : List Nat → Nat → Cell} {c : Container}

/-- Where the places are right, every success writes every element once. -/
theorem elementsWritten_of_inPlace (hE : E.Lawful) (hEmpty : iarrayEmpty E dtshape storage = .ok a)
    (hPlaces : a.InPlace)
    (h : iarrayConstructorElement E dtshape (fun item => .ok (f item.index item.indexFlat)) storage =
      .ok c) : ElementsWritten dtshape storage f c := by
  rw [iarrayConstructorElement, iarrayConstructorBlock, hEmpty, Result.ok_bind] at h
  obtain ⟨bl, hBl, h⟩ := Result.bind_eq_ok.mp h
  obtain ⟨ch, hCh, h⟩ := Result.bind_eq_ok.mp h
  obtain ⟨hPlain, rfl, rfl⟩ := iarrayEmpty_plain hE hEmpty
  obtain ⟨block, hBlock, hLoop⟩ := constructorLoop_ok E hPlain hPlaces
    (fun item => f item.index item.indexFlat) hCh hBl
  rw [hLoop] at h
  cases h
  have hPlain' := hPlain.setArray (hPlain.fresh.withChunks a.catarr.nchunks fun c =>
    (List.range (a.catarr.axes.map Axis.blocks).prod).flatMap (block c))
  refine ⟨hPlain', rfl, rfl, fun x hx => ?_, constructorWrites_perm hPlain' hPlaces,
    fun w hw => mem_constructorWrites hPlain' hPlaces hw⟩
  rw [← hPlain.fresh.shape] at hx
  obtain ⟨item, hItem, hIndex⟩ := exists_blockItem hPlain hPlaces hx
  have hc := nchunk_lt hx
  have hb := nblock_lt hx
  obtain ⟨-, hPlace, hFlat⟩ := mem_blockItems hPlain hPlaces hc hb hItem
  rw [CatArray.cell_withChunks hPlain.fresh.sized hPlain.fresh.postfilter
    (fun c hc k hk => (hBlock c hc k hk).1) hx]
  have hWritten := (hBlock _ hc _ hb).2 item hItem
  rw [hIndex] at hPlace hFlat
  rw [hPlace] at hWritten ⊢
  rw [List.getD_eq_getElem?_getD, hWritten, hIndex, hFlat, ← hPlain.fresh.shape]
  rfl

/-- It succeeds when the chunks and blocks have positive lengths. -/
theorem constructorElement_succeeds (hE : E.Lawful)
    (hEmpty : iarrayEmpty E dtshape storage = .ok a) (hChunk : ∀ k ∈ a.catarr.chunkshape, 0 < k)
    (hBlock : ∀ k ∈ a.catarr.blockshape, 0 < k) (hPlaces : a.InPlace) :
    ∃ c, iarrayConstructorElement E dtshape (fun item => .ok (f item.index item.indexFlat))
      storage = .ok c := by
  have hPlain := (iarrayEmpty_plain hE hEmpty).plain
  have hCh := @shapeOfChunks_ok a.catarr.axes fun x hx => hChunk _ (List.mem_map_of_mem hx)
  obtain ⟨bl, hBl⟩ := @shapeOfBlocks_succeeds a.catarr.axes fun x hx =>
    hBlock _ (List.mem_map_of_mem hx)
  obtain ⟨block, -, hLoop⟩ := constructorLoop_ok E hPlain hPlaces
    (fun item => f item.index item.indexFlat) hCh hBl
  refine ⟨{ a with catarr := a.catarr.withChunks a.catarr.nchunks fun c =>
    (List.range (a.catarr.axes.map Axis.blocks).prod).flatMap (block c) }, ?_⟩
  rw [iarrayConstructorElement, iarrayConstructorBlock, hEmpty, Result.ok_bind, hBl,
    Result.ok_bind, hCh, Result.ok_bind, hLoop]
  rfl

/-! ## Misplaced items -/

theorem length_writeItems {g : ConstructorItemInfo → Cell} {items : List ConstructorItemInfo}
    {dest out : List Cell} {code : Option ErrorCode}
    (h : writeItems (fun item => .ok (g item)) items dest = .ok (out, code)) :
    out.length = dest.length := by
  induction items generalizing dest with
  | nil =>
    cases h
    rfl
  | cons item items ih =>
    simp only [writeItems] at h
    split at h
    · exact (ih h).trans (List.length_set ..)
    · cases h

/-- A value that is not written at place `k` is not found there afterwards. -/
theorem writeItems_avoids {g : ConstructorItemInfo → Cell} {items : List ConstructorItemInfo}
    {dest out : List Cell} {code : Option ErrorCode} {k : Nat} {w : Cell}
    (h : writeItems (fun item => .ok (g item)) items dest = .ok (out, code))
    (hItems : ∀ item ∈ items, item.indexInBlock2Flat = k → g item ≠ w) (hDest : dest[k]? ≠ some w) :
    out[k]? ≠ some w := by
  induction items generalizing dest with
  | nil =>
    cases h
    exact hDest
  | cons item items ih =>
    simp only [writeItems] at h
    split at h
    · rename_i hInside
      refine ih h (fun i hi => hItems i (List.mem_cons_of_mem _ hi)) ?_
      by_cases hPlace : item.indexInBlock2Flat = k
      · subst hPlace
        rw [List.getElem?_set_self hInside, Ne, Option.some.injEq]
        exact hItems item List.mem_cons_self rfl
      · rwa [List.getElem?_set_ne hPlace]
    · cases h

/-- The item of an index lies at the place that the storage gives. -/
theorem place_of_index (hPlain : Plain a) {x : List Nat} (hx : InBox x (a.catarr.axes.map Axis.reach))
    {nchunk nblock : Nat} (hc : nchunk < (a.catarr.axes.map Axis.chunks).prod)
    (hb : nblock < (a.catarr.axes.map Axis.blocks).prod) {item : ConstructorItemInfo}
    (hItem : item ∈ blockItems a nchunk nblock) (hIndex : item.index = x) :
    item.indexInBlock2Flat = flat a.storage.blockshape x := by
  rw [blockItems_stored hPlain hc hb, List.mem_map] at hItem
  obtain ⟨k, hk, rfl⟩ := hItem
  obtain ⟨hItem, hInside⟩ := (inBox_partOf (by simp) (by simp)).mp
    (inBox_unflat (List.mem_range.mp hk))
  have hSplit := (split_of_inside (inBox_unflat hc) (inBox_unflat hb) hItem hInside).2.2.2
  simp only [itemAt] at hIndex ⊢
  rw [hIndex, (split_of_reach hx).2.1] at hSplit
  rw [← hSplit]

/-- A success of the element constructor, block by block. -/
theorem constructorElement_blocks {g : ConstructorItemInfo → Cell}
    (hEmpty : iarrayEmpty E dtshape storage = .ok a) (hPos : ∀ x ∈ a.catarr.axes, 0 < x.shape)
    (h : iarrayConstructorElement E dtshape (fun item => .ok (g item)) storage = .ok c) :
    ∃ block : Nat → Nat → List Cell,
      (∀ n < a.catarr.nchunks, ∀ k < (a.catarr.axes.map Axis.blocks).prod, ∃ code,
        writeItems (fun item => .ok (g item)) (blockItems a n k)
          ((List.range a.catarr.blockshape.prod).map E.malloc) = .ok (block n k, code)) ∧
      c = { a with catarr := a.catarr.withChunks a.catarr.nchunks fun n =>
        (List.range (a.catarr.axes.map Axis.blocks).prod).flatMap (block n) } := by
  rw [iarrayConstructorElement, iarrayConstructorBlock, hEmpty, Result.ok_bind] at h
  obtain ⟨bl, hBl, h⟩ := Result.bind_eq_ok.mp h
  obtain ⟨ch, hCh, h⟩ := Result.bind_eq_ok.mp h
  rw [shapeOfBlocks_ok hPos, Except.ok.injEq] at hBl
  rw [shapeOfChunks_ok fun y hy => y.chunk_pos (hPos y hy), Except.ok.injEq] at hCh
  subst hBl hCh
  obtain ⟨catarr, hLoop, h⟩ := Result.bind_eq_ok.mp h
  cases h
  obtain ⟨block, hBlock, rfl⟩ := CatArray.compressChunks_eq_ok.mp hLoop
  refine ⟨block, fun n hn k hk => ?_, rfl⟩
  have hOut := hBlock n hn k hk
  rw [prefilter_eq_writeItems] at hOut
  obtain ⟨⟨out, code⟩, hOut, hEq⟩ := Result.map_eq_ok.mp hOut
  cases hEq
  exact ⟨code, hOut⟩

/-- An item function whose value for one index is missing where the index belongs. -/
theorem not_written_of_misplaced (hE : E.Lawful) (hEmpty : iarrayEmpty E dtshape storage = .ok a)
    (h : ¬ a.InPlace) : ∃ f : List Nat → Nat → Cell, ∀ c, iarrayConstructorElement E dtshape
      (fun item => .ok (f item.index item.indexFlat)) storage = .ok c →
      ∃ x, InBox x dtshape.shape ∧ c.catarr.cell x ≠ .ok (f x (flat dtshape.shape x)) := by
  obtain ⟨hPlain, rfl, rfl⟩ := iarrayEmpty_plain hE hEmpty
  obtain ⟨hShape, hFit⟩ := not_or.mp h
  have hPos : ∀ x ∈ a.catarr.axes, 0 < x.shape := by
    refine fun x hx => Nat.pos_of_ne_zero fun hZero => hShape ?_
    rw [← hPlain.fresh.shape]
    exact List.mem_map.mpr ⟨x, hx, hZero⟩
  obtain ⟨x, hx, hLess⟩ := exists_misplaced hFit hPlain.fresh.blockshape hPos
  obtain ⟨hIn, -, hPlace⟩ := split_of_reach hx
  -- the value differs from the other items and from what the memory of the block holds
  obtain ⟨w, u, hMalloc, hNe⟩ : ∃ w u : Cell, E.malloc (flat (blockshapeOf a.catarr.axes) x) ≠ w ∧
      u ≠ w := by
    by_cases hZero : E.malloc (flat (blockshapeOf a.catarr.axes) x) = .bits 0
    · exact ⟨.bits 1, .bits 0, by simp [hZero], by simp⟩
    · exact ⟨.bits 0, .bits 1, hZero, by simp⟩
  refine ⟨fun y _ => if y = x then w else u, fun c hc => ⟨x, by rwa [← hPlain.fresh.shape], ?_⟩⟩
  obtain ⟨block, hWrites, rfl⟩ := constructorElement_blocks hEmpty hPos hc
  have hLen : ∀ n < a.catarr.nchunks, ∀ k < (a.catarr.axes.map Axis.blocks).prod,
      (block n k).length = a.catarr.blockshape.prod := by
    intro n hn k hk
    obtain ⟨code, hOut⟩ := hWrites n hn k hk
    simpa using length_writeItems hOut
  have hn := nchunk_lt hIn
  have hk := nblock_lt hIn
  have hItem := nitem_lt hIn
  beta_reduce
  rw [CatArray.cell_withChunks hPlain.fresh.sized hPlain.fresh.postfilter hLen hIn, if_pos rfl, Ne,
    Except.ok.injEq]
  obtain ⟨code, hOut⟩ := hWrites _ hn _ hk
  have hAvoids := writeItems_avoids (k := flat (blockshapeOf a.catarr.axes) x) (w := w) hOut
    (fun item hMem hAt => ?_) ?_
  · intro hEq
    refine hAvoids ?_
    rw [hPlace] at hItem hEq ⊢
    have hBound : flat (blockshapeOf a.catarr.axes) x < (block 0 0).length := by
      rw [hLen 0 (by rwa [hPlace] at hn) 0 (by rwa [hPlace] at hk)]
      exact hItem
    rw [List.getElem?_eq_getElem hBound, ← hEq, List.getD_eq_getElem _ _ hBound]
  · by_cases hIndex : item.index = x
    · have := place_of_index hPlain hx hn hk hMem hIndex
      omega
    · beta_reduce
      rwa [if_neg hIndex]
  · rw [hPlace] at hItem
    change flat (blockshapeOf a.catarr.axes) x < a.catarr.blockshape.prod at hItem
    rw [List.getElem?_eq_getElem (by simpa using hItem), List.getElem_map, List.getElem_range, Ne,
      Option.some.injEq]
    exact hMalloc

end IronArray
