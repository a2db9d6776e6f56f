import IronArray.Core.Container
import IronArray.Grid.Strides
import IronArray.Grid.Places
import Mathlib.Algebra.BigOperators.Ring.List

/-!
# Writing an array chunk by chunk

The loop that several functions share: for every chunk of a fresh array the prefilter
produces the blocks, Blosc compresses them and the chunk of the super-chunk is updated.
`writeChunks_eq_ok` says when the loop succeeds and what the array holds afterwards.
-/

namespace Grid.Axis

/-- `extshape`: the chunks of the axis, end to end. -/
def extshape (a : Axis) : Nat := a.chunks * a.chunkshape

/-- `extchunkshape`: the blocks of a chunk, end to end. Caterva leaves it zero for an axis of
length zero. -/
def extchunkshape (a : Axis) : Nat := if a.shape = 0 then 0 else a.blocks * a.blockshape

end Grid.Axis

namespace IronArray

open Grid

/-! ## Index arithmetic -/

/-- `int64_t` division. -/
def idiv (a b : Nat) : Result Nat := if b = 0 then crash .divisionByZero else .ok (a / b)

/-- `compute_strides`. -/
def computeStrides : List Nat → List Nat
  | [] => []
  | [_] => [1]
  | _ :: n :: ns =>
    let strides := computeStrides (n :: ns)
    n * strides.headD 1 :: strides

/-- `iarray_index_unidim_to_multidim_shape`. -/
def indexUnidimToMultidimShape (shape : List Nat) (i : Nat) : List Nat :=
  match computeStrides shape with
  | [] => []
  | s :: strides => i / s :: List.zipWith (fun prev s => i % prev / s) (s :: strides) strides

theorem computeStrides_eq (ns : List Nat) : computeStrides ns = strides ns := by
  fun_induction computeStrides ns with
  | case1 => rfl
  | case2 => rfl
  | case3 _ n ns strides ih => simp [strides, ih, Grid.strides]

theorem zipWith_mod_strides {ns : List Nat} {p i : Nat} (hPos : ∀ n ∈ ns, 0 < n)
    (hp : p = ns.prod) :
    List.zipWith (fun prev s => i % prev / s) (p :: strides ns) (strides ns) =
      unflat ns (i % p) := by
  induction ns generalizing p i with
  | nil => rfl
  | cons n ns ih =>
    rw [strides, List.zipWith_cons_cons, unflat_cons]
    have hRest := fun k hk => hPos k (List.mem_cons_of_mem _ hk)
    have hDvd : ns.prod ∣ p := by
      rw [hp, List.prod_cons]
      exact Dvd.intro_left n rfl
    rw [ih hRest rfl, Nat.mod_mod_of_dvd i hDvd]

theorem indexUnidimToMultidimShape_eq {ns : List Nat} (hPos : ∀ n ∈ ns, 0 < n) (i : Nat) :
    indexUnidimToMultidimShape ns i = unflat ns i := by
  rw [indexUnidimToMultidimShape, computeStrides_eq]
  cases ns with
  | nil => rfl
  | cons n ns =>
    simp only [strides]
    rw [zipWith_mod_strides (fun k hk => hPos k (List.mem_cons_of_mem _ hk)) rfl, unflat_cons]

theorem pos_of_lt_prod {ns : List Nat} {k : Nat} (h : k < ns.prod) : ∀ n ∈ ns, 0 < n := by
  intro n hn
  refine Nat.pos_of_ne_zero fun hZero => ?_
  rw [List.prod_eq_zero (hZero ▸ hn)] at h
  omega

theorem indexUnidimToMultidimShape_flat {ns is : List Nat} (h : InBox is ns) :
    indexUnidimToMultidimShape ns (flat ns is) = is := by
  rw [indexUnidimToMultidimShape_eq (pos_of_lt_prod (flat_lt h)), unflat_flat h]

/-! ## Geometry of chunks -/

/-- `shape_of_chunks`. -/
def shapeOfChunks (axes : List Axis) : Result (List Nat) :=
  axes.mapM fun a => idiv a.extshape a.chunkshape

/-- `shape_of_blocks`. -/
def shapeOfBlocks (axes : List Axis) : Result (List Nat) :=
  axes.mapM fun a => idiv a.extchunkshape a.blockshape

/-- `chunk_shape`: the part of a chunk inside the array. -/
def chunkShapeAt (axes : List Axis) (chunkIndex : List Nat) : List Nat :=
  List.zipWith (fun (a : Axis) i =>
    if i * a.chunkshape + a.chunkshape ≤ a.shape then a.chunkshape
    else a.shape - i * a.chunkshape) axes chunkIndex

/-- `check_padding`: the item lies outside the part of the chunk that is inside the array. -/
def checkPadding (axes : List Axis) (outChunkshape blockOffset elemIndex : List Nat) : Bool :=
  (List.range axes.length).any fun i => outChunkshape.getD i 0 ≤
    elemIndex.getD i 0 + blockOffset.getD i 0 * (blockshapeOf axes).getD i 0

theorem idiv_extshape {a : Axis} (h : 0 < a.chunkshape) :
    idiv a.extshape a.chunkshape = .ok a.chunks := by
  rw [idiv, if_neg h.ne', Axis.extshape, Nat.mul_div_cancel _ h]

theorem idiv_extchunkshape {a : Axis} (h : 0 < a.shape) :
    idiv a.extchunkshape a.blockshape = .ok a.blocks := by
  have hBlock := a.block_pos h
  rw [idiv, if_neg hBlock.ne', Axis.extchunkshape, if_neg h.ne', Nat.mul_div_cancel _ hBlock]

theorem shapeOfChunks_ok {axes : List Axis} (h : ∀ a ∈ axes, 0 < a.chunkshape) :
    shapeOfChunks axes = .ok (axes.map Axis.chunks) :=
  Result.mapM_ok _ _ _ fun a ha => idiv_extshape (h a ha)

theorem shapeOfBlocks_ok {axes : List Axis} (h : ∀ a ∈ axes, 0 < a.shape) :
    shapeOfBlocks axes = .ok (axes.map Axis.blocks) :=
  Result.mapM_ok _ _ _ fun a ha => idiv_extchunkshape (h a ha)

theorem idiv_eq_ok {a b c : Nat} (h : idiv a b = .ok c) : 0 < b := by
  unfold idiv at h
  split at h
  · cases h
  · omega

theorem mapM_idiv_eq_ok {axes : List Axis} {f g : Axis → Nat} {ns : List Nat}
    (h : axes.mapM (fun a => idiv (f a) (g a)) = .ok ns) : ∀ a ∈ axes, 0 < g a := by
  induction axes generalizing ns with
  | nil => simp
  | cons a axes ih =>
    rw [List.mapM_cons] at h
    obtain ⟨n, hn, h⟩ := Result.bind_eq_ok.mp h
    obtain ⟨rest, hRest, _⟩ := Result.bind_eq_ok.mp h
    rintro b (_ | hb)
    · exact idiv_eq_ok hn
    · exact ih hRest b ‹_›

theorem chunks_pos {a : Axis} (h : 0 < a.shape) : 0 < a.chunks :=
  (lt_numTiles_iff (a.chunk_pos h)).mpr (by simpa using h)

theorem blocks_pos {a : Axis} (h : 0 < a.shape) : 0 < a.blocks :=
  (lt_numTiles_iff (a.block_pos h)).mpr (by simpa using a.chunk_pos h)

/-- Where an array has no empty axis all its chunk and block counts are positive. -/
theorem forall_map_pos {axes : List Axis} {f : Axis → Nat} (h : ∀ a ∈ axes, 0 < a.shape)
    (hf : ∀ a : Axis, 0 < a.shape → 0 < f a) : ∀ n ∈ axes.map f, 0 < n := by
  intro n hn
  obtain ⟨a, ha, rfl⟩ := List.mem_map.mp hn
  exact hf a (h a ha)

theorem zero_notMem_chunks {axes : List Axis} (h : ∀ a ∈ axes, 0 < a.shape) :
    0 ∉ axes.map Axis.chunks := by
  intro hMem
  exact lt_irrefl _ (forall_map_pos h (fun _ => chunks_pos) 0 hMem)

/-- An array without empty axes has a chunk and a block in it. -/
theorem nchunks_pos {axes : List Axis} (h : ∀ x ∈ axes, 0 < x.shape) :
    0 < (axes.map Axis.chunks).prod ∧ 0 < (axes.map Axis.blocks).prod :=
  ⟨prod_pos_of_forall (forall_map_pos h fun _ => chunks_pos),
    prod_pos_of_forall (forall_map_pos h fun _ => blocks_pos)⟩

theorem shapeOfBlocks_succeeds {axes : List Axis} (h : ∀ x ∈ axes, 0 < x.blockshape) :
    ∃ ns, shapeOfBlocks axes = .ok ns :=
  Result.mapM_succeeds fun x hx => ⟨_, by rw [idiv, if_neg (h x hx).ne']⟩

theorem shape_pos_of_inBox {axes : List Axis} {x : List Nat} (hx : InBox x (shapeOf axes)) :
    ∀ a ∈ axes, 0 < a.shape :=
  fun _ ha => hx.pos _ (List.mem_map_of_mem ha)

/-- The positions of an index of the array, recovered from its chunk, block and item. -/
theorem positions_of_inBox {axes : List Axis} {x : List Nat} (hx : InBox x (shapeOf axes)) :
    indexUnidimToMultidimShape (axes.map Axis.chunks) (locate axes x).nchunk =
        List.zipWith Axis.chunkOf axes x ∧
      indexUnidimToMultidimShape (axes.map Axis.blocks) (locate axes x).nblock =
        List.zipWith Axis.blockOf axes x ∧
      indexUnidimToMultidimShape (blockshapeOf axes) (locate axes x).nitem =
        List.zipWith Axis.itemOf axes x := by
  refine ⟨indexUnidimToMultidimShape_flat (inBox_zipWith (fun _ _ => Axis.chunkOf_lt) hx),
    indexUnidimToMultidimShape_flat (inBox_zipWith (fun _ _ => Axis.blockOf_lt) hx), ?_⟩
  exact indexUnidimToMultidimShape_flat
    (@inBox_zipWith _ Axis.blockshape (fun _ _ => Axis.itemOf_lt) _ _ hx)

/-- Padding is what lies outside the part of the chunk. -/
theorem checkPadding_eq {axes : List Axis} {c b i : List Nat} (hc : c.length = axes.length)
    (hb : b.length = axes.length) (hi : i.length = axes.length) :
    checkPadding axes (chunkShapeAt axes c) b i = !inside axes c b i := by
  induction axes generalizing c b i with
  | nil => rfl
  | cons a axes ih =>
    obtain ⟨c₀, c, rfl⟩ := List.exists_cons_of_length_eq_add_one hc
    obtain ⟨b₀, b, rfl⟩ := List.exists_cons_of_length_eq_add_one hb
    obtain ⟨i₀, i, rfl⟩ := List.exists_cons_of_length_eq_add_one hi
    have hRest := @ih c b i (by simpa using hc) (by simpa using hb) (by simpa using hi)
    have hHead : decide (a.part c₀ ≤ i₀ + b₀ * a.blockshape) =
        !decide (i₀ + b₀ * a.blockshape < a.part c₀) := by
      rw [← decide_not]
      exact decide_eq_decide.mpr Nat.not_lt.symm
    rw [inside, Bool.not_and, ← hRest, ← hHead]
    simp only [checkPadding, List.length_cons, List.range_succ_eq_map, List.any_cons,
      List.any_map]
    rfl

/-- An index of the array is no padding. -/
theorem checkPadding_of_inBox {axes : List Axis} {x : List Nat} (hx : InBox x (shapeOf axes)) :
    checkPadding axes (chunkShapeAt axes (List.zipWith Axis.chunkOf axes x))
      (List.zipWith Axis.blockOf axes x) (List.zipWith Axis.itemOf axes x) = false := by
  have hLen : x.length = axes.length := hx.length_eq.trans (length_shapeOf axes)
  have hZip : ∀ pos : Axis → Nat → Nat, (List.zipWith pos axes x).length = axes.length := by
    intro pos
    rw [List.length_zipWith, hLen, Nat.min_self]
  rw [checkPadding_eq (hZip _) (hZip _) (hZip _), inside_split hx, Bool.not_true]

/-! ## Updating chunks -/

/-- The items of a list of items; any value behind them. -/
def chunkItems (chunk : List Cell) (k : Nat) : Cell := chunk.getD k (.bits 0)

namespace CatArray

/-- `blosc2_schunk_update_chunk`. -/
def updateChunk (a : CatArray) (nchunk : Nat) (chunk : Nat → Cell) : CatArray :=
  { a with sc := { a.sc with
    chunk := fun n k => if n = nchunk then chunk k else a.sc.chunk n k } }

/-- `blosc2_compress_ctx`: the prefilter fills one block after the other; when it fails the
compression fails. -/
def compress (a : CatArray) (prefilter : Nat → Result (List Cell)) : Result (List Cell) :=
  match (List.range ((a.axes.map Axis.extchunkshape).prod / a.blockshape.prod)).mapM prefilter with
  | .ok blocks => .ok blocks.flatten
  | .error (.code _) => inaError .bloscFailed
  | .error (.undefined u) => crash u

/-- The loop over the chunks of the result. The prefilter receives the number of the chunk, the
part of it inside the array and the number of the block. -/
def writeChunks (a : CatArray) (prefilter : Nat → List Nat → Nat → Result (List Cell)) :
    Result CatArray := do
  let shape ← shapeOfChunks a.axes
  let nchunks ← idiv (a.axes.map Axis.extshape).prod a.chunkshape.prod
  (List.range nchunks).foldlM (fun c nchunk => do
    let chunkIndex := indexUnidimToMultidimShape shape nchunk
    let chunk ← a.compress (prefilter nchunk (chunkShapeAt a.axes chunkIndex))
    pure (c.updateChunk nchunk (chunkItems chunk))) a

theorem writeChunks_congr {a : CatArray} {f g : Nat → List Nat → Nat → Result (List Cell)}
    (h : ∀ nchunk idx nblock, f nchunk (chunkShapeAt a.axes idx) nblock =
      g nchunk (chunkShapeAt a.axes idx) nblock) : a.writeChunks f = a.writeChunks g := by
  unfold writeChunks
  refine bind_congr fun shape => bind_congr fun nchunks => ?_
  congr 1
  funext c nchunk
  have hPrefilter : ∀ idx, f nchunk (chunkShapeAt a.axes idx) =
      g nchunk (chunkShapeAt a.axes idx) := fun idx => funext fun nblock => h nchunk idx nblock
  simp only [hPrefilter]

/-- The array with its first `n` chunks replaced. -/
def withChunks (a : CatArray) (n : Nat) (chunk : Nat → List Cell) : CatArray :=
  { a with sc := { a.sc with
    chunk := fun c k => if c < n then chunkItems (chunk c) k else a.sc.chunk c k } }

/-- The array with the items of its first `n` chunks replaced. -/
def withItems (a : CatArray) (n : Nat) (items : Nat → Nat → Cell) : CatArray :=
  { a with sc := { a.sc with chunk := fun c k => if c < n then items c k else a.sc.chunk c k } }

theorem updateChunk_withItems (a : CatArray) (n : Nat) (items : Nat → Nat → Cell) :
    (a.withItems n items).updateChunk n (items n) = a.withItems (n + 1) items := by
  simp only [updateChunk, withItems, mk.injEq, SChunk.mk.injEq, true_and, and_true]
  funext c k
  rcases Nat.lt_trichotomy c n with h | rfl | h
  · rw [if_neg h.ne, if_pos h, if_pos (by omega)]
  · rw [if_pos rfl, if_pos (by omega)]
  · rw [if_neg h.ne', if_neg (by omega), if_neg (by omega)]

theorem updateChunk_withChunks (a : CatArray) (n : Nat) (chunk : Nat → List Cell) :
    (a.withChunks n chunk).updateChunk n (chunkItems (chunk n)) = a.withChunks (n + 1) chunk :=
  a.updateChunk_withItems n fun c => chunkItems (chunk c)

theorem withItems_congr (a : CatArray) {n : Nat} {f g : Nat → Nat → Cell}
    (h : ∀ c < n, f c = g c) : a.withItems n f = a.withItems n g := by
  simp only [withItems, mk.injEq, SChunk.mk.injEq, true_and, and_true]
  funext c k
  by_cases hc : c < n
  · rw [if_pos hc, if_pos hc, h c hc]
  · rw [if_neg hc, if_neg hc]

theorem withChunks_congr (a : CatArray) {n : Nat} {f g : Nat → List Cell}
    (h : ∀ c < n, f c = g c) : a.withChunks n f = a.withChunks n g := by
  apply a.withItems_congr
  intro c hc
  rw [h c hc]

/-- A loop that copies chunks from elsewhere. -/
theorem foldlM_withItems {a : CatArray} {chunk : Nat → Result (Nat → Cell)}
    {items : Nat → Nat → Cell} {n : Nat} (h : ∀ c < n, chunk c = .ok (items c)) :
    (List.range n).foldlM (fun b nchunk => do
      let chunk ← chunk nchunk
      pure (b.updateChunk nchunk chunk)) a = .ok (a.withItems n items) := by
  induction n with
  | zero => rfl
  | succ n ih =>
    rw [List.range_succ, List.foldlM_append, ih fun c hc => h c (by omega), Result.ok_bind,
      List.foldlM_cons, h n (by omega), ← updateChunk_withItems]
    rfl

/-- A loop that copies chunks gets every one of them. -/
theorem exists_of_foldlM_chunk {a b : CatArray} {chunk : Nat → Result (Nat → Cell)} {n : Nat}
    (h : (List.range n).foldlM (fun b nchunk => do
      let chunk ← chunk nchunk
      pure (b.updateChunk nchunk chunk)) a = .ok b) :
    ∃ items : Nat → Nat → Cell, ∀ c < n, chunk c = .ok (items c) := by
  induction n generalizing b with
  | zero => exact ⟨fun _ _ => .bits 0, nofun⟩
  | succ n ih =>
    rw [List.range_succ, List.foldlM_append] at h
    obtain ⟨b', hInit, hLast⟩ := Result.bind_eq_ok.mp h
    rw [List.foldlM_cons] at hLast
    obtain ⟨_, hStep, -⟩ := Result.bind_eq_ok.mp hLast
    obtain ⟨last, hLast, -⟩ := Result.bind_eq_ok.mp hStep
    obtain ⟨items, hItems⟩ := ih hInit
    refine ⟨fun c => if c = n then last else items c, fun c hc => ?_⟩
    rcases Nat.lt_succ_iff_lt_or_eq.mp hc with hc | rfl
    · dsimp only
      rw [if_neg hc.ne]
      exact hItems c hc
    · dsimp only
      rw [if_pos rfl]
      exact hLast

/-- The fold over the chunks, by induction on their number. -/
theorem foldlM_updateChunk {a b : CatArray} {compress : Nat → Result (List Cell)} {n : Nat} :
    (List.range n).foldlM (fun c nchunk => do
      let chunk ← compress nchunk
      pure (c.updateChunk nchunk (chunkItems chunk))) a = .ok b ↔
      ∃ chunk : Nat → List Cell, (∀ c < n, compress c = .ok (chunk c)) ∧
        b = a.withChunks n chunk := by
  induction n generalizing b with
  | zero =>
    constructor
    · intro h
      cases h
      exact ⟨fun _ => [], by simp, rfl⟩
    · rintro ⟨_, _, rfl⟩
      rfl
  | succ n ih =>
    rw [List.range_succ, List.foldlM_append, Result.bind_eq_ok]
    constructor
    · rintro ⟨b', hInit, hLast⟩
      obtain ⟨chunk, hChunk, rfl⟩ := ih.mp hInit
      rw [List.foldlM_cons] at hLast
      obtain ⟨_, hStep, hLast⟩ := Result.bind_eq_ok.mp hLast
      obtain ⟨last, hCompress, hStep⟩ := Result.bind_eq_ok.mp hStep
      cases hStep
      cases hLast
      refine ⟨fun c => if c = n then last else chunk c, ?_, ?_⟩
      · intro c hc
        by_cases hn : c = n
        · simp [hn, hCompress]
        · simp [hn, hChunk c (by omega)]
      · rw [← updateChunk_withChunks, if_pos rfl]
        congr 1
        refine withChunks_congr a fun c hc => ?_
        rw [if_neg (by omega)]
    · rintro ⟨chunk, hChunk, rfl⟩
      refine ⟨_, ih.mpr ⟨chunk, fun c hc => hChunk c (by omega), rfl⟩, ?_⟩
      rw [List.foldlM_cons, hChunk n (by omega), ← updateChunk_withChunks]
      rfl

/-! ## When the loop succeeds -/

theorem compress_eq_ok {a : CatArray} {prefilter : Nat → Result (List Cell)} {chunk : List Cell} :
    a.compress prefilter = .ok chunk ↔ ∃ block : Nat → List Cell,
      (∀ b < (a.axes.map Axis.extchunkshape).prod / a.blockshape.prod,
        prefilter b = .ok (block b)) ∧
      chunk = (List.range ((a.axes.map Axis.extchunkshape).prod / a.blockshape.prod)).flatMap
        block := by
  unfold compress
  constructor
  · intro h
    split at h
    · rename_i blocks hBlocks
      cases h
      have hAll := Result.mapM_eq_ok hBlocks
      have hLen := hAll.length_eq
      rw [List.length_range] at hLen
      refine ⟨fun b => blocks.getD b [], ?_, ?_⟩
      · intro b hb
        have := (List.forall₂_iff_get.mp hAll).2 b (by simpa using hb) (by omega)
        simp only [List.get_eq_getElem, List.getElem_range] at this
        rw [this, Except.ok.injEq]
        exact (List.getD_eq_getElem _ _ _).symm
      · rw [List.flatMap_def]
        congr 1
        refine List.ext_getElem (by simp [hLen]) ?_
        intro i hi _
        simp [List.getElem?_eq_getElem hi]
    · cases h
    · cases h
  · rintro ⟨block, hBlock, rfl⟩
    rw [Result.mapM_ok _ _ block fun b hb => hBlock b (List.mem_range.mp hb)]
    rw [List.flatMap_def]

theorem prod_extshape {axes : List Axis} (h : ∀ a ∈ axes, 0 < a.chunkshape) :
    idiv (axes.map Axis.extshape).prod (chunkshapeOf axes).prod =
      .ok (axes.map Axis.chunks).prod := by
  have hPos : 0 < (chunkshapeOf axes).prod := prod_pos_of_forall (by
    intro n hn
    obtain ⟨a, ha, rfl⟩ := List.mem_map.mp hn
    exact h a ha)
  have hProd : (axes.map Axis.extshape).prod =
      (axes.map Axis.chunks).prod * (chunkshapeOf axes).prod :=
    List.prod_map_mul
  rw [idiv, if_neg hPos.ne', hProd, Nat.mul_div_cancel _ hPos]

/-- An extended chunk holds its blocks. -/
theorem prod_extchunkshape_eq {axes : List Axis} (h : ∀ a ∈ axes, 0 < a.shape) :
    (axes.map Axis.extchunkshape).prod =
      (axes.map Axis.blocks).prod * (blockshapeOf axes).prod := by
  have hMap : axes.map Axis.extchunkshape =
      axes.map fun a => a.blocks * a.blockshape := by
    refine List.map_congr_left fun a ha => ?_
    rw [Axis.extchunkshape, if_neg (h a ha).ne']
  rw [hMap]
  exact List.prod_map_mul

theorem prod_extchunkshape {axes : List Axis} (h : ∀ a ∈ axes, 0 < a.shape) :
    (axes.map Axis.extchunkshape).prod / (blockshapeOf axes).prod =
      (axes.map Axis.blocks).prod := by
  have hPos : 0 < (blockshapeOf axes).prod :=
    prod_pos_of_forall (forall_map_pos h fun a => a.block_pos)
  rw [prod_extchunkshape_eq h, Nat.mul_div_cancel _ hPos]

/-- An array with chunks has no empty axis. -/
theorem shape_pos_of_nchunks {axes : List Axis} {c : Nat} (hc : c < (axes.map Axis.chunks).prod) :
    ∀ a ∈ axes, 0 < a.shape := by
  intro a ha
  by_contra hZero
  have hMem : a.chunks ∈ axes.map Axis.chunks := List.mem_map_of_mem ha
  have : a.chunks = 0 := by
    rw [Axis.chunks, show a.shape = 0 by omega, numTiles_zero]
  rw [this] at hMem
  rw [List.prod_eq_zero hMem] at hc
  omega

/-- The part inside the array of chunk `c`. -/
def partShape (axes : List Axis) (c : Nat) : List Nat :=
  chunkShapeAt axes (indexUnidimToMultidimShape (axes.map Axis.chunks) c)

/-- A loop that compresses every chunk of an array, one after the other. -/
theorem compressChunks_eq_ok {a b : CatArray} {prefilter : Nat → Nat → Result (List Cell)} :
    (List.range a.nchunks).foldlM (fun c nchunk => do
      let chunk ← a.compress (prefilter nchunk)
      pure (c.updateChunk nchunk (chunkItems chunk))) a = .ok b ↔
      ∃ block : Nat → Nat → List Cell,
        (∀ c < a.nchunks, ∀ k < (a.axes.map Axis.blocks).prod,
          prefilter c k = .ok (block c k)) ∧
        b = a.withChunks a.nchunks fun c =>
          (List.range (a.axes.map Axis.blocks).prod).flatMap (block c) := by
  constructor
  · intro h
    obtain ⟨chunk, hChunk, rfl⟩ := foldlM_updateChunk.mp h
    have hBlocks : ∀ c : Nat, ∃ block : Nat → List Cell, c < a.nchunks →
        (∀ k < (a.axes.map Axis.blocks).prod, prefilter c k = .ok (block k)) ∧
        chunk c = (List.range (a.axes.map Axis.blocks).prod).flatMap block := by
      intro c
      by_cases hc : c < a.nchunks
      · obtain ⟨block, hBlock, hEq⟩ := compress_eq_ok.mp (hChunk c hc)
        rw [blockshape, prod_extchunkshape (shape_pos_of_nchunks hc)] at hBlock hEq
        exact ⟨block, fun _ => ⟨hBlock, hEq⟩⟩
      · exact ⟨fun _ => [], fun h => absurd h hc⟩
    choose block hBlock using hBlocks
    exact ⟨block, fun c hc => (hBlock c hc).1,
      withChunks_congr a fun c hc => (hBlock c hc).2⟩
  · rintro ⟨block, hBlock, rfl⟩
    refine foldlM_updateChunk.mpr ⟨_, fun c hc => ?_, rfl⟩
    refine compress_eq_ok.mpr ⟨block c, ?_, ?_⟩
    · rw [blockshape, prod_extchunkshape (shape_pos_of_nchunks hc)]
      exact hBlock c hc
    · rw [blockshape, prod_extchunkshape (shape_pos_of_nchunks hc)]

theorem writeChunks_eq_ok {a b : CatArray}
    {prefilter : Nat → List Nat → Nat → Result (List Cell)} :
    a.writeChunks prefilter = .ok b ↔ (∀ x ∈ a.axes, 0 < x.chunkshape) ∧
      ∃ block : Nat → Nat → List Cell,
        (∀ c < a.nchunks, ∀ k < (a.axes.map Axis.blocks).prod,
          prefilter c (partShape a.axes c) k = .ok (block c k)) ∧
        b = a.withChunks a.nchunks fun c =>
          (List.range (a.axes.map Axis.blocks).prod).flatMap (block c) := by
  constructor
  · intro h
    obtain ⟨shape, hShape, h⟩ := Result.bind_eq_ok.mp h
    have hPos : ∀ x ∈ a.axes, 0 < x.chunkshape := mapM_idiv_eq_ok hShape
    rw [shapeOfChunks_ok hPos, Except.ok.injEq] at hShape
    subst hShape
    rw [chunkshape, prod_extshape hPos, Result.ok_bind] at h
    exact ⟨hPos, compressChunks_eq_ok.mp h⟩
  · rintro ⟨hPos, hBlocks⟩
    rw [writeChunks, shapeOfChunks_ok hPos, Result.ok_bind, chunkshape, prod_extshape hPos,
      Result.ok_bind]
    exact (@compressChunks_eq_ok a b
      fun c k => prefilter c (partShape a.axes c) k).mpr hBlocks

/-! ## What the array holds afterwards -/

theorem length_flatMap_range {f : Nat → List Cell} {n len : Nat}
    (hLen : ∀ i < n, (f i).length = len) : ((List.range n).flatMap f).length = n * len := by
  induction n with
  | zero => simp
  | succ n ih =>
    rw [List.range_succ, List.flatMap_append, List.length_append,
      ih fun i hi => hLen i (by omega), List.flatMap_singleton, hLen n (by omega), Nat.add_one_mul]

/-- An item of a block inside the chunk that the blocks make up. -/
theorem getD_flatMap_range {f : Nat → List Cell} {n len k j : Nat} (d : Cell)
    (hLen : ∀ i < n, (f i).length = len) (hk : k < n) (hj : j < len) :
    ((List.range n).flatMap f).getD (k * len + j) d = (f k).getD j d := by
  induction n with
  | zero => omega
  | succ n ih =>
    have hLen' := length_flatMap_range (n := n) fun i hi => hLen i (by omega)
    rw [List.range_succ, List.flatMap_append, List.flatMap_singleton]
    rcases Nat.lt_or_eq_of_le (Nat.le_of_lt_succ hk) with hlt | rfl
    · have hBound : k * len + j < n * len :=
        calc k * len + j < k * len + len := by omega
          _ = (k + 1) * len := (Nat.add_one_mul k len).symm
          _ ≤ n * len := Nat.mul_le_mul_right len hlt
      rw [List.getD_append _ _ _ _ (by omega), ih (fun i hi => hLen i (by omega)) hlt]
    · rw [List.getD_append_right _ _ _ _ (by omega), hLen']
      congr 1
      omega

theorem withChunks_chunk (a : CatArray) {n c : Nat} (chunk : Nat → List Cell) (hc : c < n)
    (k : Nat) : (a.withChunks n chunk).sc.chunk c k = chunkItems (chunk c) k := if_pos hc

theorem cell_withChunks {a : CatArray} {block : Nat → Nat → List Cell} (hSized : a.Sized)
    (hPost : a.sc.postfilter = none)
    (hLen : ∀ c < a.nchunks, ∀ k < (a.axes.map Axis.blocks).prod,
      (block c k).length = a.blockshape.prod) {x : List Nat} (hx : InBox x a.shape) :
    (a.withChunks a.nchunks fun c =>
        (List.range (a.axes.map Axis.blocks).prod).flatMap (block c)).cell x =
      .ok ((block (locate a.axes x).nchunk (locate a.axes x).nblock).getD
        (locate a.axes x).nitem (.bits 0)) := by
  have hItem : (locate a.axes x).nitem < a.blockshape.prod := nitem_lt hx
  have hChunk : (locate a.axes x).nchunk < a.nchunks := nchunk_lt hx
  rw [cell_stored (a := a.withChunks a.nchunks _) hSized hPost hx, Except.ok.injEq]
  exact (withChunks_chunk a _ hChunk _).trans
    (getD_flatMap_range _ (hLen _ hChunk) (nblock_lt hx) hItem)

end CatArray

theorem Fresh.withChunks {a : CatArray} {itemsize : Nat} {shape : List Nat} {st : CatervaStorage}
    (h : Fresh a itemsize shape st) (n : Nat) (chunk : Nat → List Cell) :
    Fresh (a.withChunks n chunk) itemsize shape st :=
  ⟨h.shape, h.storage, h.itemsize, h.sized, h.postfilter⟩

theorem Fresh.withItems {a : CatArray} {itemsize : Nat} {shape : List Nat} {st : CatervaStorage}
    (h : Fresh a itemsize shape st) (n : Nat) (items : Nat → Nat → Cell) :
    Fresh (a.withItems n items) itemsize shape st :=
  ⟨h.shape, h.storage, h.itemsize, h.sized, h.postfilter⟩

end IronArray
