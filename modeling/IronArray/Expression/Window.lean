import IronArray.Iterators.Block
import IronArray.Grid.Blocks

/-!
# The windows of an expression

While an expression is evaluated the prefilter gets one block after the other and computes the
window of the output that the block stands for. A window is cut off at the end of the array or,
failing that, at the end of its chunk. `windowsTile_iff`: the windows tile the output exactly if
no block is cut off at the array that would have to be cut off at its chunk.
-/

namespace Grid.Axis

/-- `shape` of `prefilter_func` along an axis, for a block that starts inside the array. -/
def windowLength (a : Axis) (startInChunk startInContainer : Nat) : Nat :=
  if startInContainer + a.blockshape > a.shape then a.shape - startInContainer
  else if startInChunk + a.blockshape > a.chunkshape then a.chunkshape - startInChunk
  else a.blockshape

/-- Where the axis has several chunks, the last but one ends inside the array even if it is
extended to whole blocks. -/
def ChunksFit (a : Axis) : Prop :=
  a.chunks ≤ 1 ∨ (a.chunks - 2) * a.chunkshape + a.blocks * a.blockshape ≤ a.shape

variable {a : Axis} {c b : Nat}

/-- The part of a block inside the array is no longer than the window. -/
theorem nitems_le_windowLength (a : Axis) {c b : Nat} :
    a.nitems c b ≤ a.windowLength (b * a.blockshape) (c * a.chunkshape + b * a.blockshape) := by
  rw [nitems, windowLength]
  split <;> [skip; split] <;> omega

theorem shape_le_of_last (hPos : 0 < a.shape) (h : a.chunks ≤ c + 1) :
    a.shape ≤ c * a.chunkshape + a.chunkshape := by
  have := (lt_numTiles_iff (a.chunk_pos hPos)).not.mp (show ¬ c + 1 < a.chunks by omega)
  rw [Nat.add_mul] at this
  omega

theorem lt_shape_of_not_last (hPos : 0 < a.shape) (h : c + 1 < a.chunks) :
    c * a.chunkshape + a.chunkshape < a.shape := by
  have := (lt_numTiles_iff (a.chunk_pos hPos)).mp h
  rw [Nat.add_mul] at this
  omega

theorem blockEnd_le (hb : b < a.blocks) :
    b * a.blockshape + a.blockshape ≤ a.blocks * a.blockshape := by
  have := Nat.mul_le_mul_right a.blockshape hb
  rw [Nat.succ_mul] at this
  exact this

theorem windowLength_eq (hPos : 0 < a.shape) (hFit : a.ChunksFit)
    (hb : b < a.blocks) (hStart : c * a.chunkshape + b * a.blockshape ≤ a.shape) :
    a.windowLength (b * a.blockshape) (c * a.chunkshape + b * a.blockshape) = a.nitems c b := by
  have hBlock : b * a.blockshape < a.chunkshape := (lt_numTiles_iff (a.block_pos hPos)).mp hb
  have hEnd := blockEnd_le hb
  rw [nitems_eq, part, windowLength]
  rcases Nat.lt_or_ge (c + 1) a.chunks with hNext | hLast
  · -- the chunk ends inside the array, and so does the block
    have hInside := lt_shape_of_not_last hPos hNext
    have hChunks : c * a.chunkshape ≤ (a.chunks - 2) * a.chunkshape :=
      Nat.mul_le_mul_right _ (by omega)
    rcases hFit with hOne | hFit
    · omega
    · rw [if_pos hInside.le, if_neg (by omega)]
      split <;> omega
  · have hInside := shape_le_of_last hPos hLast
    split <;> split <;> first | omega | (split <;> omega)

/-- A block that starts behind the array has no items. -/
theorem nitems_of_behind (h : a.shape < c * a.chunkshape + b * a.blockshape)
    (hBlock : b * a.blockshape < a.chunkshape) : a.nitems c b = 0 := by
  rw [nitems_eq, part]
  split <;> omega

instance (a : Axis) : Decidable a.ChunksFit := inferInstanceAs (Decidable (_ ∨ _))

/-- A block whose window leaves its chunk, if there is one: the last block of the last chunk but
one. -/
def chunkBehind (a : Axis) : Nat := if a.ChunksFit then 0 else a.chunks - 2

def blockBehind (a : Axis) : Nat := if a.ChunksFit then 0 else a.blocks - 1

def startBehind (a : Axis) : Nat :=
  a.chunkBehind * a.chunkshape + a.blockBehind * a.blockshape

/-- The last position of the window. -/
def itemBehind (a : Axis) : Nat := if a.ChunksFit then 0 else a.shape - 1 - a.startBehind

theorem behind_of_not_fit (hPos : 0 < a.shape) (hBad : ¬ a.ChunksFit) :
    a.chunkBehind + 1 < a.chunks ∧ a.blockBehind < a.blocks ∧
      a.blockBehind * a.blockshape < a.chunkshape ∧
      a.chunkBehind * a.chunkshape + a.chunkshape < a.shape ∧
      a.shape < a.startBehind + a.blockshape := by
  have hBlocks : 0 < a.blocks := IronArray.blocks_pos hPos
  have hLast : a.blocks - 1 < a.blocks := Nat.sub_lt hBlocks Nat.one_pos
  have hSucc : a.blocks * a.blockshape = (a.blocks - 1) * a.blockshape + a.blockshape := by
    rw [← Nat.succ_mul, Nat.succ_eq_add_one, Nat.sub_add_cancel hBlocks]
  obtain ⟨hMany, hOver⟩ := not_or.mp hBad
  have hNext : a.chunks - 2 + 1 < a.chunks := by omega
  rw [startBehind, chunkBehind, blockBehind, if_neg hBad, if_neg hBad]
  refine ⟨hNext, hLast, (lt_numTiles_iff (a.block_pos hPos)).mp hLast,
    lt_shape_of_not_last hPos hNext, ?_⟩
  omega

theorem behind_inside (hPos : 0 < a.shape) :
    a.chunkBehind < a.chunks ∧ a.blockBehind < a.blocks ∧ a.startBehind ≤ a.shape ∧
      a.itemBehind < a.windowLength (a.blockBehind * a.blockshape) a.startBehind := by
  by_cases hFit : a.ChunksFit
  · have hChunk := a.chunk_pos hPos
    have hBlock := a.block_pos hPos
    rw [startBehind, chunkBehind, blockBehind, itemBehind, if_pos hFit, if_pos hFit, if_pos hFit,
      windowLength]
    refine ⟨IronArray.chunks_pos hPos, IronArray.blocks_pos hPos, by omega, ?_⟩
    split
    · omega
    · split <;> omega
  · obtain ⟨hChunk, hBlock, hInChunk, hEnd, hOver⟩ := behind_of_not_fit hPos hFit
    have hStart : a.startBehind < a.shape := by
      rw [startBehind]
      omega
    rw [itemBehind, if_neg hFit, windowLength, if_pos hOver]
    exact ⟨by omega, hBlock, hStart.le, by omega⟩

theorem chunkOf_behind (hPos : 0 < a.shape) (hBad : ¬ a.ChunksFit) :
    a.chunkOf (a.itemBehind + a.startBehind) ≠ a.chunkBehind := by
  obtain ⟨_, _, hInChunk, hEnd, _⟩ := behind_of_not_fit hPos hBad
  have hLast : a.itemBehind + a.startBehind = a.shape - 1 := by
    rw [itemBehind, if_neg hBad, startBehind]
    omega
  have hSucc : (a.chunkBehind + 1) * a.chunkshape ≤ a.shape - 1 := by
    rw [Nat.succ_mul]
    omega
  have := (Nat.le_div_iff_mul_le (a.chunk_pos hPos)).mpr hSucc
  rw [hLast, chunkOf]
  omega

end Grid.Axis

namespace IronArray

open Grid CatArray

/-! ## The window of a block -/

/-- `window_start`, `window_shape` and `window_strides`. -/
structure Window where
  start : List Nat
  shape : List Nat
  strides : List Nat

/-- The indices of the output that a window covers. -/
def Window.region (w : Window) : List (List Nat) :=
  (box w.shape).map fun i => List.zipWith (· + ·) i w.start

/-- The window that `prefilter_func` computes for block `nblock` of the chunk at `blockIndex`. The
last axis is indexed without a check that there is one. -/
def window (axes : List Axis) (blockIndex : List Nat) (nblock : Nat) : Result Window :=
  if axes = [] then crash .outOfBounds
  else do
    let stridesBlock := computeStrides (← shapeOfBlocks axes)
    let nblocks ← idiv (axes.map Axis.extchunkshape).prod (blockshapeOf axes).prod
    let nblockNdim := List.zipWith (fun m s => nblock % m / s) (nblocks :: stridesBlock) stridesBlock
    let startInChunk := List.zipWith (fun (a : Axis) b => b * a.blockshape) axes nblockNdim
    let startInContainer := List.zipWith (· + ·) startInChunk
      (List.zipWith (fun (a : Axis) c => c * a.chunkshape) axes blockIndex)
    let outOfBounds := (List.zip axes startInContainer).any fun p => p.2 > p.1.shape
    let shape :=
      if outOfBounds then axes.map fun _ => 0
      else List.zipWith (fun (a : Axis) p => a.windowLength p.1 p.2) axes
        (List.zip startInChunk startInContainer)
    pure ⟨startInContainer, shape, computeStrides (blockshapeOf axes)⟩

section Window

variable {axes : List Axis} {c b : List Nat}

/-- `window_shape`, from the first index of the block. -/
def windowShape (axes : List Axis) (c b : List Nat) : List Nat :=
  if (List.zip axes (blockStart axes c b)).any (fun p => p.2 > p.1.shape) then axes.map fun _ => 0
  else List.zipWith (fun (a : Axis) p => a.windowLength p.1 p.2) axes
    (List.zip (List.zipWith (fun (a : Axis) b => b * a.blockshape) axes b) (blockStart axes c b))

theorem window_eq (hne : axes ≠ []) (hPos : ∀ a ∈ axes, 0 < a.shape)
    (hb : InBox b (axes.map Axis.blocks)) :
    window axes c (flat (axes.map Axis.blocks) b) =
      .ok ⟨blockStart axes c b, windowShape axes c b, strides (blockshapeOf axes)⟩ := by
  have hItems : (blockshapeOf axes).prod ≠ 0 :=
    (prod_pos_of_forall (forall_map_pos hPos fun a => a.block_pos)).ne'
  have hBlocks : List.zipWith (fun m s => flat (axes.map Axis.blocks) b % m / s)
      ((axes.map Axis.blocks).prod :: strides (axes.map Axis.blocks))
      (strides (axes.map Axis.blocks)) = b := by
    rw [zipWith_mod_strides (forall_map_pos hPos fun _ => blocks_pos) rfl,
      Nat.mod_eq_of_lt (flat_lt hb), unflat_flat hb]
  have hStart : List.zipWith (· + ·) (List.zipWith (fun (a : Axis) b => b * a.blockshape) axes b)
      (List.zipWith (fun (a : Axis) c => c * a.chunkshape) axes c) = blockStart axes c b :=
    List.zipWith_comm_of_comm Nat.add_comm
  unfold window
  rw [if_neg hne, shapeOfBlocks_ok hPos, Result.ok_bind, idiv, if_neg hItems, Result.ok_bind,
    prod_extchunkshape hPos]
  simp only [computeStrides_eq, hBlocks, hStart]
  rfl

theorem windowShape_of_inside (hPos : ∀ a ∈ axes, 0 < a.shape) (hFit : ∀ a ∈ axes, a.ChunksFit)
    (hc : c.length = axes.length) (hb : InBox b (axes.map Axis.blocks))
    (hStart : ∀ p ∈ List.zip axes (blockStart axes c b), p.2 ≤ p.1.shape) :
    List.zipWith (fun (a : Axis) p => a.windowLength p.1 p.2) axes
      (List.zip (List.zipWith (fun (a : Axis) b => b * a.blockshape) axes b)
        (blockStart axes c b)) = partOf axes c b := by
  induction axes generalizing c b with
  | nil => rfl
  | cons a axes ih =>
    obtain ⟨c₀, c, rfl⟩ := List.exists_cons_of_length_eq_add_one hc
    obtain ⟨b₀, b, rfl, hb₀, hb⟩ := InBox.cons_iff.mp hb
    have hHead := hStart (a, c₀ * a.chunkshape + b₀ * a.blockshape) List.mem_cons_self
    have hRest := @ih c b (fun x hx => hPos x (List.mem_cons_of_mem _ hx))
      (fun x hx => hFit x (List.mem_cons_of_mem _ hx)) (by simpa using hc) hb
      fun p hp => hStart p (List.mem_cons_of_mem _ hp)
    simp only [blockStart, List.zipWith_cons_cons, List.zip_cons_cons, partOf] at hRest ⊢
    rw [hRest, Axis.windowLength_eq (hPos a List.mem_cons_self) (hFit a List.mem_cons_self) hb₀
      hHead]

theorem prod_partOf_of_behind (hPos : ∀ a ∈ axes, 0 < a.shape) (hc : c.length = axes.length)
    (hb : InBox b (axes.map Axis.blocks))
    (h : ∃ p ∈ List.zip axes (blockStart axes c b), p.1.shape < p.2) :
    (partOf axes c b).prod = 0 := by
  induction axes generalizing c b with
  | nil =>
    obtain ⟨p, hp, _⟩ := h
    cases hp
  | cons a axes ih =>
    obtain ⟨c₀, c, rfl⟩ := List.exists_cons_of_length_eq_add_one hc
    obtain ⟨b₀, b, rfl, hb₀, hb⟩ := InBox.cons_iff.mp hb
    rw [partOf, List.prod_cons]
    obtain ⟨p, hp, hBehind⟩ := h
    rcases List.mem_cons.mp hp with rfl | hp
    · have hBlock := (lt_numTiles_iff (a.block_pos (hPos a List.mem_cons_self))).mp hb₀
      rw [Axis.nitems_of_behind hBehind hBlock, Nat.zero_mul]
    · rw [ih (fun x hx => hPos x (List.mem_cons_of_mem _ hx)) (by simpa using hc) hb ⟨p, hp, hBehind⟩,
        Nat.mul_zero]

theorem box_of_prod_zero {ns : List Nat} (h : ns.prod = 0) : box ns = [] :=
  List.length_eq_zero_iff.mp ((length_box ns).trans h)

theorem inBox_windowLengths (hc : c.length = axes.length) (hb : b.length = axes.length)
    {y : List Nat} (hy : InBox y (partOf axes c b)) :
    InBox y (List.zipWith (fun (a : Axis) p => a.windowLength p.1 p.2) axes
      (List.zip (List.zipWith (fun (a : Axis) b => b * a.blockshape) axes b)
        (blockStart axes c b))) := by
  induction axes generalizing c b y with
  | nil => exact hy
  | cons a axes ih =>
    obtain ⟨c₀, c, rfl⟩ := List.exists_cons_of_length_eq_add_one hc
    obtain ⟨b₀, b, rfl⟩ := List.exists_cons_of_length_eq_add_one hb
    obtain ⟨y₀, y, rfl, hHead, hTail⟩ := InBox.cons_iff.mp hy
    apply InBox.cons_iff.mpr
    exact ⟨y₀, y, rfl, hHead.trans_le a.nitems_le_windowLength,
      ih (by simpa using hc) (by simpa using hb) hTail⟩

/-- The window of a block covers the part of the block inside the array. -/
theorem inBox_windowShape (hPos : ∀ a ∈ axes, 0 < a.shape) (hc : c.length = axes.length)
    (hb : InBox b (axes.map Axis.blocks)) {y : List Nat} (hy : InBox y (partOf axes c b)) :
    InBox y (windowShape axes c b) := by
  unfold windowShape
  split
  · rename_i hBehind
    obtain ⟨p, hp, hLt⟩ := List.any_eq_true.mp hBehind
    have hNone := prod_partOf_of_behind hPos hc hb ⟨p, hp, of_decide_eq_true hLt⟩
    exact absurd hNone (prod_pos_of_forall hy.pos).ne'
  · apply inBox_windowLengths hc ?_ hy
    simpa using hb.length_eq

/-- If no axis misses its chunk, the window covers the part of the block inside the array. -/
theorem box_windowShape (hne : axes ≠ []) (hPos : ∀ a ∈ axes, 0 < a.shape)
    (hFit : ∀ a ∈ axes, a.ChunksFit) (hc : c.length = axes.length)
    (hb : InBox b (axes.map Axis.blocks)) :
    box (windowShape axes c b) = box (partOf axes c b) := by
  unfold windowShape
  split
  · rename_i hBehind
    obtain ⟨p, hp, hLt⟩ := List.any_eq_true.mp hBehind
    rw [box_of_prod_zero (prod_partOf_of_behind hPos hc hb ⟨p, hp, of_decide_eq_true hLt⟩)]
    apply box_of_prod_zero
    obtain ⟨a, rest, rfl⟩ := List.exists_cons_of_ne_nil hne
    rw [List.map_cons, List.prod_cons, Nat.zero_mul]
  · rename_i hInside
    rw [windowShape_of_inside hPos hFit hc hb]
    intro p hp
    refine Nat.le_of_not_lt fun hLt => hInside ?_
    exact List.any_eq_true.mpr ⟨p, hp, decide_eq_true hLt⟩

/-- The window of block `b` of chunk `c`. -/
def windowAt (axes : List Axis) (c b : List Nat) : Window :=
  ⟨blockStart axes c b, windowShape axes c b, strides (blockshapeOf axes)⟩

theorem region_windowAt (hne : axes ≠ []) (hPos : ∀ a ∈ axes, 0 < a.shape)
    (hFit : ∀ a ∈ axes, a.ChunksFit) (hc : c.length = axes.length)
    (hb : InBox b (axes.map Axis.blocks)) :
    (windowAt axes c b).region = (box (partOf axes c b)).map (joinAll axes c b) := by
  rw [Window.region, windowAt, box_windowShape hne hPos hFit hc hb]
  refine List.map_congr_left fun i hi => ?_
  have hLenB : b.length = axes.length := by simpa using hb.length_eq
  have hIn := ((inBox_partOf hc hLenB).mp (mem_box.mp hi)).1
  exact blockStart_add hc hLenB (by simpa [blockshapeOf] using hIn.length_eq)

end Window

/-! ## Tiling the output -/

/-- The windows of all blocks of all chunks lie in their own chunk and in the array, and together
they cover every index once. -/
def WindowsTile (axes : List Axis) : Prop :=
  ∃ w : Nat → Nat → Window,
    (∀ nchunk < (axes.map Axis.chunks).prod, ∀ nblock < (axes.map Axis.blocks).prod,
      window axes (iterBlockIndex (axes.map Axis.chunks) nchunk) nblock = .ok (w nchunk nblock) ∧
      ∀ x ∈ (w nchunk nblock).region, InBox x (shapeOf axes) ∧
        List.zipWith Axis.chunkOf axes x = unflat (axes.map Axis.chunks) nchunk) ∧
    ((List.range (axes.map Axis.chunks).prod).flatMap fun nchunk =>
      (List.range (axes.map Axis.blocks).prod).flatMap fun nblock =>
        (w nchunk nblock).region).Perm (box (shapeOf axes))

section Tile

variable {axes : List Axis}

/-- A loop over numbers is a loop over positions. -/
theorem flatMap_unflat_perm (ns : List Nat) (f : List Nat → List (List Nat)) :
    ((List.range ns.prod).flatMap fun k => f (unflat ns k)).Perm ((box ns).flatMap f) := by
  rw [← List.flatMap_map]
  exact (box_perm_unflat ns).flatMap_right f

theorem window_unflat (hne : axes ≠ []) (hPos : ∀ a ∈ axes, 0 < a.shape) {nchunk nblock : Nat}
    (hChunk : nchunk < (axes.map Axis.chunks).prod)
    (hBlock : nblock < (axes.map Axis.blocks).prod) :
    window axes (iterBlockIndex (axes.map Axis.chunks) nchunk) nblock =
      .ok (windowAt axes (unflat (axes.map Axis.chunks) nchunk)
        (unflat (axes.map Axis.blocks) nblock)) := by
  have hWindow := @window_eq axes (unflat (axes.map Axis.chunks) nchunk) _ hne hPos
    (inBox_unflat hBlock)
  rw [flat_unflat hBlock] at hWindow
  rw [iterBlockIndex_eq hChunk]
  exact hWindow

theorem windowsTile_of_fit (hne : axes ≠ []) (hPos : ∀ a ∈ axes, 0 < a.shape)
    (hFit : ∀ a ∈ axes, a.ChunksFit) : WindowsTile axes := by
  have hRegion : ∀ {c b}, InBox c (axes.map Axis.chunks) → InBox b (axes.map Axis.blocks) →
      (windowAt axes c b).region = (box (partOf axes c b)).map (joinAll axes c b) := fun hc hb =>
    region_windowAt hne hPos hFit (by simpa using hc.length_eq) hb
  refine ⟨fun nchunk nblock => windowAt axes (unflat (axes.map Axis.chunks) nchunk)
    (unflat (axes.map Axis.blocks) nblock), ?_, ?_⟩
  · intro nchunk hChunk nblock hBlock
    have hc := inBox_unflat hChunk
    have hb := inBox_unflat hBlock
    refine ⟨window_unflat hne hPos hChunk hBlock, ?_⟩
    intro x hx
    rw [hRegion hc hb] at hx
    obtain ⟨i, hi, rfl⟩ := List.mem_map.mp hx
    obtain ⟨hItem, hInside⟩ := (inBox_partOf (by simp) (by simp)).mp (mem_box.mp hi)
    obtain ⟨hIn, hChunkOf, _⟩ := split_of_inside hc hb hItem hInside
    exact ⟨hIn, hChunkOf⟩
  · refine List.Perm.trans ?_ (joinAll_blocks_perm axes)
    refine List.Perm.trans ?_ (flatMap_unflat_perm (axes.map Axis.chunks) _)
    refine List.Perm.flatMap_left _ fun nchunk hChunk => ?_
    refine List.Perm.trans ?_ (flatMap_unflat_perm (axes.map Axis.blocks) _)
    refine List.Perm.flatMap_left _ fun nblock hBlock => ?_
    rw [hRegion (inBox_unflat (List.mem_range.mp hChunk)) (inBox_unflat (List.mem_range.mp hBlock))]

theorem inBox_map {f g : Axis → Nat} (h : ∀ a ∈ axes, f a < g a) :
    InBox (axes.map f) (axes.map g) := by
  rw [InBox, List.forall₂_map_left_iff, List.forall₂_map_right_iff]
  exact List.forall₂_same.mpr h

theorem zipWith_map_self {α : Type} (f : Axis → α → Nat) (g : Axis → α) :
    List.zipWith f axes (axes.map g) = axes.map fun a => f a (g a) := by
  rw [List.zipWith_map_right, List.zipWith_self]

/-- A window that leaves its chunk: at each axis that does not fit the last block of the last chunk
but one, elsewhere the first block of the first chunk. -/
theorem exists_window_behind (hPos : ∀ a ∈ axes, 0 < a.shape) (hBad : ∃ a ∈ axes, ¬ a.ChunksFit) :
    ∃ c b i, InBox c (axes.map Axis.chunks) ∧ InBox b (axes.map Axis.blocks) ∧
      InBox i (windowShape axes c b) ∧
      List.zipWith Axis.chunkOf axes (List.zipWith (· + ·) i (blockStart axes c b)) ≠ c := by
  have hAt := fun a ha => @Axis.behind_inside a (hPos a ha)
  have hStart : blockStart axes (axes.map Axis.chunkBehind) (axes.map Axis.blockBehind) =
      axes.map Axis.startBehind := by
    rw [blockStart, zipWith_map_self, zipWith_map_self, List.zipWith_map, List.zipWith_self]
    rfl
  have hShape : windowShape axes (axes.map Axis.chunkBehind) (axes.map Axis.blockBehind) =
      axes.map fun a => a.windowLength (a.blockBehind * a.blockshape) a.startBehind := by
    rw [windowShape, hStart, if_neg]
    · rw [zipWith_map_self, List.zip_map', zipWith_map_self]
    · intro hAny
      obtain ⟨p, hp, hLt⟩ := List.any_eq_true.mp hAny
      rw [← List.map_prod_left_eq_zip] at hp
      obtain ⟨a, ha, rfl⟩ := List.mem_map.mp hp
      exact Nat.not_lt.mpr (hAt a ha).2.2.1 (of_decide_eq_true hLt)
  refine ⟨axes.map Axis.chunkBehind, axes.map Axis.blockBehind, axes.map Axis.itemBehind,
    inBox_map fun a ha => (hAt a ha).1, inBox_map fun a ha => (hAt a ha).2.1, ?_, ?_⟩
  · rw [hShape]
    exact inBox_map fun a ha => (hAt a ha).2.2.2
  · rw [hStart, List.zipWith_map, List.zipWith_self, zipWith_map_self]
    intro hEq
    obtain ⟨a, ha, hNot⟩ := hBad
    exact Axis.chunkOf_behind (hPos a ha) hNot (List.map_inj_left.mp hEq a ha)

/-- The windows tile the output exactly if the array has no elements, or it has an axis and on every
axis the last chunk but one fits. -/
theorem windowsTile_iff (axes : List Axis) :
    WindowsTile axes ↔ (∃ a ∈ axes, a.shape = 0) ∨ axes ≠ [] ∧ ∀ a ∈ axes, a.ChunksFit := by
  by_cases hEmpty : ∃ a ∈ axes, a.shape = 0
  · refine iff_of_true ?_ (.inl hEmpty)
    obtain ⟨a, ha, hZero⟩ := hEmpty
    have hShape : (shapeOf axes).prod = 0 :=
      List.prod_eq_zero (hZero ▸ List.mem_map_of_mem ha)
    have hChunks : (axes.map Axis.chunks).prod = 0 := by
      apply List.prod_eq_zero
      refine List.mem_map.mpr ⟨a, ha, ?_⟩
      rw [Axis.chunks, hZero, numTiles_zero]
    refine ⟨fun _ _ => ⟨[], [], []⟩, ?_, ?_⟩
    · intro nchunk hChunk
      omega
    · rw [hChunks, box_of_prod_zero hShape]
      rfl
  · have hPos : ∀ a ∈ axes, 0 < a.shape := fun a ha =>
      Nat.pos_of_ne_zero fun hZero => hEmpty ⟨a, ha, hZero⟩
    rw [or_iff_right hEmpty]
    constructor
    · rintro ⟨w, hAll, _⟩
      have hne : axes ≠ [] := by
        rintro rfl
        obtain ⟨hWindow, _⟩ := hAll 0 Nat.one_pos 0 Nat.one_pos
        cases hWindow
      refine ⟨hne, fun a ha => ?_⟩
      by_contra hBad
      obtain ⟨c, b, i, hc, hb, hi, hBehind⟩ := exists_window_behind hPos ⟨a, ha, hBad⟩
      obtain ⟨hWindow, hInside⟩ := hAll _ (flat_lt hc) _ (flat_lt hb)
      rw [window_unflat hne hPos (flat_lt hc) (flat_lt hb), unflat_flat hc, unflat_flat hb,
        Except.ok.injEq] at hWindow
      rw [← hWindow, unflat_flat hc] at hInside
      exact hBehind (hInside _ (List.mem_map_of_mem (mem_box.mpr hi))).2
    · rintro ⟨hne, hFit⟩
      exact windowsTile_of_fit hne hPos hFit

/-- An axis of length 6 in chunks of 5 and blocks of 4: the second block of the first chunk reaches
into the second chunk. -/
theorem windows_overlap :
    window [⟨6, 5, 4, by decide, by decide⟩] [0] 1 = .ok ⟨[4], [2], [1]⟩ ∧
      window [⟨6, 5, 4, by decide, by decide⟩] [1] 0 = .ok ⟨[5], [1], [1]⟩ ∧
      [5] ∈ (Window.mk [4] [2] [1]).region ∧ [5] ∈ (Window.mk [5] [1] [1]).region ∧
      ¬ WindowsTile [⟨6, 5, 4, by decide, by decide⟩] := by
  refine ⟨rfl, rfl, by decide, by decide, ?_⟩
  rintro ⟨w, hAll, _⟩
  obtain ⟨hWindow, hInside⟩ := hAll 0 (by decide) 1 (by decide)
  have hSecond : Window.mk [4] [2] [1] = w 0 1 := Except.ok.inj hWindow
  rw [← hSecond] at hInside
  have hChunk := (hInside [5] (by decide)).2
  cases hChunk

end Tile

end IronArray
