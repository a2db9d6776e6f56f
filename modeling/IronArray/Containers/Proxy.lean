import IronArray.Constructors.Random

/-!
# Proxies of remote arrays

`iarray_zproxy.c`: a container whose blocks come from a callback. The postfilter asks the callback
for the part of a block inside the array, which arrives densely, and spreads it row by row in the
block. `zproxy_tiles` says that the parts tile the array and what the blocks then hold.
-/

namespace IronArray

open Grid

/-! ## The postfilter -/

/-- `zhandler_ptr`: where the array is, start, stop and what the buffer held. -/
abbrev ZHandler := String → List Int → List Int → List Cell → List Cell

/-- The functions of Blosc and Caterva that the postfilter calls. -/
structure ProxyLibraries where
  /-- `blosc2_unidim_to_multidim`: shape and position. -/
  unidimToMultidim : List Nat → Nat → List Nat
  /-- `caterva_copy_buffer`: item size; source with its shape, start and stop; destination with its
  shape and start. -/
  copyBuffer : Nat → List Cell → List Nat → List Nat → List Nat → List Cell → List Nat →
    List Nat → Result (List Cell)

/-- `zproxy_postparams_udata`. The axes hold the five arrays of lengths. -/
structure ZproxyPostparamsUdata where
  zproxyUrlpath : String
  axes : List Axis
  zhandler : ZHandler

/-- One axis of the region: none if the block starts in the padding of the array. -/
def zproxyAxis (a : Axis) (blocksInChunk nchunk nblock : Nat) : Option (Int × Int) :=
  let start : Int := nchunk * a.chunkshape + nblock * a.blockshape
  if a.shape ≤ start then none
  else
    let stop : Int := nchunk * a.chunkshape + (nblock + 1) * a.blockshape
    -- the padding behind the last block of a chunk
    let stop := if (nblock : Int) = blocksInChunk - 1 then
      stop - ((a.extchunkshape : Int) - a.chunkshape) else stop
    -- the padding behind the last chunk
    let stop := if a.shape < stop then (a.shape : Int) else stop
    some (start, stop)

/-- The loop over the axes. -/
def zproxyRegion : List Axis → List Nat → List Nat → List Nat → Option (List Int × List Int)
  | a :: axes, n :: blocksInChunk, c :: nchunk, b :: nblock => do
    let (start, stop) ← zproxyAxis a n c b
    let (starts, stops) ← zproxyRegion axes blocksInChunk nchunk nblock
    pure (start :: starts, stop :: stops)
  | _, _, _, _ => some ([], [])

/-- The region that the postfilter asks the callback for. -/
def zproxyRequest (L : ProxyLibraries) (axes : List Axis) (nchunk nblock : Nat) :
    Result (Option (List Int × List Int)) := do
  let chunksInArray ← shapeOfChunks axes
  let blocksInChunk ← shapeOfBlocks axes
  pure (zproxyRegion axes blocksInChunk (L.unidimToMultidim chunksInArray nchunk)
    (L.unidimToMultidim blocksInChunk nblock))

/-- `zproxy_postfilter`: what is in the buffer of the block afterwards. -/
def zproxyPostfilter (L : ProxyLibraries) (udata : ZproxyPostparamsUdata)
    (params : PostfilterParams) (out : List Cell) : Result (List Cell) := do
  match ← zproxyRequest L udata.axes params.nchunk params.nblock with
  | none => pure out
  | some (start, stop) =>
    let sliceShape := List.zipWith (fun s t => (t - s).toNat) start stop
    let out := udata.zhandler udata.zproxyUrlpath start stop out
    let aux := out.take sliceShape.prod
    let nitems := params.size / params.typesize
    let out := List.replicate nitems (.bits 0) ++ out.drop nitems
    let sliceStart := List.replicate udata.axes.length 0
    L.copyBuffer (params.typesize % 2 ^ 8) aux sliceShape sliceStart sliceShape out
      (blockshapeOf udata.axes)
      sliceStart

/-- The user data that `iarray_add_zproxy_postfilter` fills in. -/
def zproxyUdata (src : Container) (zarrUrlpath : String) (zhandler : ZHandler) :
    ZproxyPostparamsUdata :=
  ⟨zarrUrlpath, src.catarr.axes, zhandler⟩

/-- `iarray_add_zproxy_postfilter`. The memory is what the buffer of a block holds before. -/
def iarrayAddZproxyPostfilter (L : ProxyLibraries) (memory : PostfilterParams → List Cell)
    (src : Container) (zarrUrlpath : String) (zhandler : ZHandler) : Container :=
  let postfilter := fun params =>
    zproxyPostfilter L (zproxyUdata src zarrUrlpath zhandler) params (memory params)
  { src with catarr :=
    ⟨src.catarr.axes, { src.catarr.sc with postfilter := some postfilter }⟩ }

/-! ## What the postfilter relies on -/

structure ProxyLibraries.Lawful (L : ProxyLibraries) : Prop where
  unidimToMultidim : ∀ {shape : List Nat} {i : Nat}, i < shape.prod →
    L.unidimToMultidim shape i = unflat shape i
  copyBuffer : ∀ (itemsize : Nat) {src dest : List Cell} {shape destShape zeros : List Nat},
    zeros = List.replicate shape.length 0 → shape.prod ≤ src.length →
    destShape.prod ≤ dest.length → (∀ x, InBox x shape → InBox x destShape) →
    ∃ out, L.copyBuffer itemsize src shape zeros shape dest destShape zeros = .ok out ∧
      (∀ x, InBox x shape → out[flat destShape x]? = src[flat shape x]?) ∧
      ∀ k, (∀ x, InBox x shape → flat destShape x ≠ k) → out[k]? = dest[k]?

/-- The callback returns the elements of every region of the remote array, densely. -/
def Delivers (zhandler : ZHandler) (urlpath : String) (shape : List Nat)
    (remote : List Nat → Cell) : Prop :=
  ∀ s n dest, Region s n shape → n.prod ≤ dest.length → ∀ x, InBox x n →
    (zhandler urlpath (ints s) (ints (addIdx s n)) dest)[flat n x]? = some (remote (addIdx s x))

/-! ## The statement -/

/-- The index lies between the start and the stop along every axis. -/
def InSlice (start stop : List Int) (x : List Nat) : Prop :=
  List.Forall₂ (fun (p : Int × Int) (i : Nat) => p.1 ≤ i ∧ i < p.2) (start.zip stop) x

/-- For this block the postfilter asks for this region. -/
structure Requests (L : ProxyLibraries) (axes : List Axis) (nchunk nblock : Nat)
    (start stop : List Int) : Prop where
  chunk : nchunk < (axes.map Axis.chunks).prod
  block : nblock < (axes.map Axis.blocks).prod
  request : zproxyRequest L axes nchunk nblock = .ok (some (start, stop))

/-- The requested regions tile the array, and the blocks hold the remote elements of their regions
and zeros. -/
structure ProxyTiles (L : ProxyLibraries) (udata : ZproxyPostparamsUdata) (blocksize typesize : Nat)
    (remote : List Nat → Cell) : Prop where
  returns : ∀ {nchunk nblock : Nat}, nchunk < (udata.axes.map Axis.chunks).prod →
    nblock < (udata.axes.map Axis.blocks).prod →
    ∃ request, zproxyRequest L udata.axes nchunk nblock = .ok request
  disjoint : ∀ {nchunk nblock nchunk' nblock' : Nat} {start stop start' stop' : List Int}
    {x : List Nat}, Requests L udata.axes nchunk nblock start stop →
    Requests L udata.axes nchunk' nblock' start' stop' → InSlice start stop x →
    InSlice start' stop' x → nchunk = nchunk' ∧ nblock = nblock'
  cover : ∀ x, InBox x (shapeOf udata.axes) ↔ ∃ nchunk nblock start stop,
    Requests L udata.axes nchunk nblock start stop ∧ InSlice start stop x
  filled : ∀ {nchunk nblock : Nat} {start stop : List Int} (out : List Cell),
    Requests L udata.axes nchunk nblock start stop → out.length = (blockshapeOf udata.axes).prod →
    ∃ block, zproxyPostfilter L udata ⟨nchunk, nblock, blocksize, typesize⟩ out = .ok block ∧
      ∀ p, InBox p (blockshapeOf udata.axes) →
        (InSlice start stop (addIdx (start.map Int.toNat) p) →
          block[flat (blockshapeOf udata.axes) p]? =
            some (remote (addIdx (start.map Int.toNat) p))) ∧
        (¬ InSlice start stop (addIdx (start.map Int.toNat) p) →
          block[flat (blockshapeOf udata.axes) p]? = some (.bits 0))

/-! ## The regions -/

theorem zproxyAxis_eq {a : Axis} {c b : Nat} (hPos : 0 < a.shape) (hc : c < a.chunks)
    (hb : b < a.blocks) : zproxyAxis a a.blocks c b =
      if 0 = a.nitems c b then none
      else some (((c * a.chunkshape + b * a.blockshape : Nat) : Int),
        ((c * a.chunkshape + b * a.blockshape + a.nitems c b : Nat) : Int)) := by
  have hChunk : c * a.chunkshape < a.shape := (lt_numTiles_iff (a.chunk_pos hPos)).mp hc
  have hBlock : b * a.blockshape < a.chunkshape := (lt_numTiles_iff (a.block_pos hPos)).mp hb
  have hExt : a.extchunkshape = a.blocks * a.blockshape := by
    rw [Axis.extchunkshape, if_neg hPos.ne']
  have hNext : (b + 1) * a.blockshape = b * a.blockshape + a.blockshape := by ring
  have hItems : a.nitems c b = min a.blockshape (a.part c - b * a.blockshape) := a.nitems_eq c b
  have hBlockPos := a.block_pos hPos
  unfold zproxyAxis
  by_cases hPadding : a.shape ≤ c * a.chunkshape + b * a.blockshape
  · rw [if_pos (by exact_mod_cast hPadding), if_pos]
    rw [hItems, Axis.part]
    split <;> omega
  · have hStart : ¬ (a.shape : Int) ≤ c * a.chunkshape + b * a.blockshape := by
      exact_mod_cast hPadding
    rw [if_neg hStart, if_neg]
    · simp only [Option.some.injEq, Prod.mk.injEq]
      refine ⟨by push_cast; rfl, ?_⟩
      have hStop : (c * a.chunkshape + (b + 1) * a.blockshape : Int) =
          ((c * a.chunkshape + (b * a.blockshape + a.blockshape) : Nat) : Int) := by
        push_cast
        ring
      rw [hStop, hExt]
      -- the last block of a chunk ends with the chunk, any other with its items
      by_cases hLast : b + 1 = a.blocks
      · have hIf : (b : Int) = a.blocks - 1 := by omega
        have hEnd : c * a.chunkshape + b * a.blockshape + a.nitems c b =
            min a.shape (c * a.chunkshape + a.chunkshape) := by
          have hOver : a.chunkshape ≤ b * a.blockshape + a.blockshape := by
            by_contra hlt
            have hMore := (lt_numTiles_iff hBlockPos).mpr (hNext.trans_lt (not_le.mp hlt))
            exact absurd hMore hLast.ge.not_gt
          rw [hItems, Axis.part]
          split <;> omega
        rw [if_pos hIf, ← hLast, hNext, hEnd]
        split <;> omega
      · have hInner := (lt_numTiles_iff (a.block_pos hPos)).mp
          (show b + 1 < numTiles a.chunkshape a.blockshape from lt_of_le_of_ne hb hLast)
        rw [hNext] at hInner
        have hIf : ¬ (b : Int) = a.blocks - 1 := by omega
        have hEnd : c * a.chunkshape + b * a.blockshape + a.nitems c b =
            min a.shape (c * a.chunkshape + (b * a.blockshape + a.blockshape)) := by
          rw [hItems, Axis.part]
          split <;> omega
        rw [if_neg hIf, hEnd]
        split <;> omega
    · rw [hItems, Axis.part]
      split <;> omega

theorem zproxyRegion_eq {axes : List Axis} {c b : List Nat} (hPos : ∀ a ∈ axes, 0 < a.shape)
    (hc : InBox c (axes.map Axis.chunks)) (hb : InBox b (axes.map Axis.blocks)) :
    zproxyRegion axes (axes.map Axis.blocks) c b = if 0 ∈ partOf axes c b then none
      else some
        (ints (blockStart axes c b), ints (addIdx (blockStart axes c b) (partOf axes c b))) := by
  induction axes generalizing c b with
  | nil =>
    cases hc
    cases hb
    rfl
  | cons a axes ih =>
    obtain ⟨c₀, c, rfl, hc₀, hc⟩ := InBox.cons_iff.mp hc
    obtain ⟨b₀, b, rfl, hb₀, hb⟩ := InBox.cons_iff.mp hb
    have hRest := ih (fun x hx => hPos x (List.mem_cons_of_mem _ hx)) hc hb
    have hAxis := zproxyAxis_eq (hPos a List.mem_cons_self) hc₀ hb₀
    rw [List.map_cons, zproxyRegion, hAxis, hRest, partOf]
    by_cases hHead : 0 = a.nitems c₀ b₀
    · rw [if_pos (List.mem_cons.mpr (.inl hHead))]
      simp only [if_pos hHead]
      rfl
    · by_cases hTail : 0 ∈ partOf axes c b
      · rw [if_pos (List.mem_cons.mpr (.inr hTail))]
        simp only [if_neg hHead, if_pos hTail]
        rfl
      · rw [if_neg fun h => (List.mem_cons.mp h).elim hHead hTail]
        simp only [if_neg hHead, if_neg hTail]
        rfl

theorem inSlice_iff {s n x : List Nat} (h : s.length = n.length) :
    InSlice (ints s) (ints (addIdx s n)) x ↔ ∃ p, InBox p n ∧ addIdx s p = x := by
  induction s generalizing n x with
  | nil =>
    obtain rfl := List.length_eq_zero_iff.mp h.symm
    constructor
    · rintro ⟨⟩
      exact ⟨[], inBox_nil, rfl⟩
    · rintro ⟨p, hp, rfl⟩
      exact .nil
  | cons i s ih =>
    obtain ⟨m, n, rfl⟩ := List.exists_cons_of_length_eq_add_one h.symm
    have hRest := fun x => @ih n x (by simpa using h)
    constructor
    · intro hIn
      obtain ⟨j, x, hHead, hTail, rfl⟩ := List.forall₂_cons_left_iff.mp hIn
      obtain ⟨p, hp, rfl⟩ := (hRest x).mp hTail
      have hHead : (i : Int) ≤ j ∧ (j : Int) < (i + m : Nat) := hHead
      refine ⟨(j - i) :: p, inBox_cons.mpr ⟨by omega, hp⟩, ?_⟩
      rw [addIdx_cons, show i + (j - i) = j by omega]
    · rintro ⟨p, hp, rfl⟩
      obtain ⟨k, p, rfl, hk, hp⟩ := InBox.cons_iff.mp hp
      have hHead : (i : Int) ≤ (i + k : Nat) ∧ ((i + k : Nat) : Int) < (i + m : Nat) := by omega
      exact .cons hHead ((hRest _).mpr ⟨p, hp, rfl⟩)

section

variable {L : ProxyLibraries} {axes : List Axis} {nchunk nblock : Nat} {start stop : List Int}

/-- The request is the part of the block inside the array, unless there is none. -/
theorem zproxyRequest_eq (hL : L.Lawful) (hc : nchunk < (axes.map Axis.chunks).prod)
    (hb : nblock < (axes.map Axis.blocks).prod) :
    let c := unflat (axes.map Axis.chunks) nchunk
    let b := unflat (axes.map Axis.blocks) nblock
    zproxyRequest L axes nchunk nblock = .ok (if 0 ∈ partOf axes c b then none
      else some (ints (blockStart axes c b),
        ints (addIdx (blockStart axes c b) (partOf axes c b)))) := by
  intro c b
  have hPos := CatArray.shape_pos_of_nchunks hc
  rw [zproxyRequest, shapeOfChunks_ok fun a ha => a.chunk_pos (hPos a ha), Result.ok_bind,
    shapeOfBlocks_ok hPos, Result.ok_bind, hL.unidimToMultidim hc, hL.unidimToMultidim hb,
    zproxyRegion_eq hPos (inBox_unflat hc) (inBox_unflat hb)]
  rfl

theorem requests_iff (hL : L.Lawful) (hc : nchunk < (axes.map Axis.chunks).prod)
    (hb : nblock < (axes.map Axis.blocks).prod) :
    let c := unflat (axes.map Axis.chunks) nchunk
    let b := unflat (axes.map Axis.blocks) nblock
    Requests L axes nchunk nblock start stop ↔ 0 ∉ partOf axes c b ∧
      start = ints (blockStart axes c b) ∧
      stop = ints (addIdx (blockStart axes c b) (partOf axes c b)) := by
  intro c b
  have hRequest := zproxyRequest_eq hL hc hb
  constructor
  · intro h
    have hSome := hRequest.symm.trans h.request
    by_cases hNone : 0 ∈ partOf axes c b
    · rw [if_pos hNone] at hSome
      cases hSome
    · rw [if_neg hNone] at hSome
      cases hSome
      exact ⟨hNone, rfl, rfl⟩
  · rintro ⟨hSome, rfl, rfl⟩
    refine ⟨hc, hb, ?_⟩
    rw [hRequest, if_neg hSome]

/-- The requested region holds the items of the block that lie inside the array. -/
theorem Requests.inSlice_iff (hL : L.Lawful) (h : Requests L axes nchunk nblock start stop)
    {x : List Nat} : InSlice start stop x ↔
      ∃ i, InBox i (partOf axes (unflat (axes.map Axis.chunks) nchunk)
          (unflat (axes.map Axis.blocks) nblock)) ∧
        joinAll axes (unflat (axes.map Axis.chunks) nchunk)
          (unflat (axes.map Axis.blocks) nblock) i = x := by
  obtain ⟨-, rfl, rfl⟩ := (requests_iff hL h.chunk h.block).mp h
  have hLen : ∀ (f : Axis → Nat) k, (unflat (axes.map f) k).length = axes.length := by simp
  rw [IronArray.inSlice_iff (by
    rw [length_blockStart (hLen _ _) (hLen _ _), length_partOf (hLen _ _) (hLen _ _)])]
  refine exists_congr fun i => and_congr_right fun hi => ?_
  have hLenI : i.length = axes.length := by
    rw [hi.length_eq, length_partOf (hLen _ _) (hLen _ _)]
  rw [addIdx_blockStart (hLen _ _) (hLen _ _) hLenI]

/-- An index of the region is an element of the array that is stored in the block. -/
theorem Requests.locate_eq (hL : L.Lawful) (h : Requests L axes nchunk nblock start stop)
    {x : List Nat} (hx : InSlice start stop x) :
    InBox x (shapeOf axes) ∧ (locate axes x).nchunk = nchunk ∧ (locate axes x).nblock = nblock := by
  obtain ⟨i, hi, rfl⟩ := (h.inSlice_iff hL).mp hx
  obtain ⟨hIn, hLocate⟩ := locate_joinAll (inBox_unflat h.chunk) (inBox_unflat h.block) hi
  rw [hLocate]
  exact ⟨hIn, flat_unflat h.chunk, flat_unflat h.block⟩

theorem exists_request (hL : L.Lawful) {x : List Nat} (hx : InBox x (shapeOf axes)) :
    ∃ start stop, Requests L axes (locate axes x).nchunk (locate axes x).nblock start stop ∧
      InSlice start stop x := by
  obtain ⟨i, hi, hJoin⟩ := exists_item hx
  have hSome : 0 ∉ partOf axes (unflat (axes.map Axis.chunks) (locate axes x).nchunk)
      (unflat (axes.map Axis.blocks) (locate axes x).nblock) :=
    fun hZero => lt_irrefl _ (hi.pos 0 hZero)
  have hRequest : Requests L axes (locate axes x).nchunk (locate axes x).nblock _ _ :=
    (requests_iff hL (nchunk_lt hx) (nblock_lt hx)).mpr ⟨hSome, rfl, rfl⟩
  exact ⟨_, _, hRequest, (hRequest.inSlice_iff hL).mpr ⟨i, hi, hJoin⟩⟩

end

/-! ## The blocks -/

/-- A buffer that holds an item for every index of the region is long enough. -/
theorem prod_le_of_getElem {n : List Nat} {buffer : List Cell} {f : List Nat → Cell}
    (h : ∀ x, InBox x n → buffer[flat n x]? = some (f x)) : n.prod ≤ buffer.length := by
  by_contra hlt
  have hLast : buffer.length < n.prod := not_le.mp hlt
  have hItem := h _ (inBox_unflat hLast)
  rw [flat_unflat hLast, List.getElem?_eq_none le_rfl] at hItem
  cases hItem

/-- The items of a requested region are spread in the block, and the rest of it is zero. -/
theorem zproxyPostfilter_ok {L : ProxyLibraries} (hL : L.Lawful) (udata : ZproxyPostparamsUdata)
    (params : PostfilterParams) {remote : List Nat → Cell}
    (hRemote : Delivers udata.zhandler udata.zproxyUrlpath (shapeOf udata.axes) remote)
    {s n : List Nat} {out : List Cell}
    (hRequest : zproxyRequest L udata.axes params.nchunk params.nblock =
      .ok (some (ints s, ints (addIdx s n))))
    (hRegion : Region s n (shapeOf udata.axes))
    (hBox : ∀ x, InBox x n → InBox x (blockshapeOf udata.axes))
    (hSize : params.size / params.typesize = (blockshapeOf udata.axes).prod)
    (hOut : out.length = (blockshapeOf udata.axes).prod) :
    ∃ block, zproxyPostfilter L udata params out = .ok block ∧
      (∀ p, InBox p n → block[flat (blockshapeOf udata.axes) p]? = some (remote (addIdx s p))) ∧
      ∀ p, InBox p (blockshapeOf udata.axes) → ¬ InBox p n →
        block[flat (blockshapeOf udata.axes) p]? = some (.bits 0) := by
  have hFits : n.prod ≤ out.length := hOut ▸ prod_le_of_inBox hBox
  have hSent := hRemote s n out hRegion hFits
  have hAux : n.prod ≤ ((udata.zhandler udata.zproxyUrlpath (ints s) (ints (addIdx s n)) out).take
      n.prod).length := by
    rw [List.length_take]
    exact le_min le_rfl (prod_le_of_getElem hSent)
  have hDest : (blockshapeOf udata.axes).prod ≤
      (List.replicate (params.size / params.typesize) (Cell.bits 0) ++
        (udata.zhandler udata.zproxyUrlpath (ints s) (ints (addIdx s n)) out).drop
          (params.size / params.typesize)).length := by
    rw [List.length_append, List.length_replicate, hSize]
    exact Nat.le_add_right _ _
  have hZeros : List.replicate udata.axes.length 0 = List.replicate n.length 0 := by
    rw [hRegion.length, length_shapeOf]
  obtain ⟨block, hBlock, hCopied, hFrame⟩ :=
    hL.copyBuffer (params.typesize % 2 ^ 8) hZeros hAux hDest hBox
  refine ⟨block, ?_, fun p hp => ?_, fun p hp hNot => ?_⟩
  · have hShape : List.zipWith (fun a b => (b - a).toNat) (ints s) (ints (addIdx s n)) = n :=
      Reference.extents_ints (hRegion.start_length.trans hRegion.length.symm)
    rw [zproxyPostfilter, hRequest]
    simp only [Result.ok_bind, hShape]
    exact hBlock
  · rw [hCopied p hp, List.getElem?_take, if_pos (flat_lt hp), hSent p hp]
  · have hLt : flat (blockshapeOf udata.axes) p < params.size / params.typesize := by
      rw [hSize]
      exact flat_lt hp
    -- no item of the region lands here
    rw [hFrame, List.getElem?_append_left (by rwa [List.length_replicate]),
      List.getElem?_replicate, if_pos hLt]
    intro x hx hEq
    obtain rfl := flat_injective (hBox x hx) hp hEq
    exact hNot hx

theorem inSlice_addIdx {s n p : List Nat} (h : s.length = n.length) (hp : p.length = n.length) :
    InSlice (ints s) (ints (addIdx s n)) (addIdx s p) ↔ InBox p n := by
  rw [inSlice_iff h]
  constructor
  · rintro ⟨i, hi, hEq⟩
    obtain rfl := addIdx_injective (h.trans hi.length_eq.symm) (h.trans hp.symm) hEq
    exact hi
  · exact fun hIn => ⟨p, hIn, rfl⟩

/-- The regions that the postfilter asks for tile the array, each once, and every block it fills
holds the remote elements of its region and zeros. -/
theorem zproxy_tiles {L : ProxyLibraries} (hL : L.Lawful) (c : Container) (urlpath : String)
    (zhandler : ZHandler) (remote : List Nat → Cell) (hSized : c.catarr.Sized)
    (hRemote : Delivers zhandler urlpath c.catarr.shape remote) :
    ProxyTiles L (zproxyUdata c urlpath zhandler) c.catarr.sc.blocksize c.catarr.itemsize
      remote where
  returns hc hb := ⟨_, zproxyRequest_eq hL hc hb⟩
  disjoint h h' hx hx' := by
    obtain ⟨-, hChunk, hBlock⟩ := h.locate_eq hL hx
    obtain ⟨-, hChunk', hBlock'⟩ := h'.locate_eq hL hx'
    exact ⟨hChunk.symm.trans hChunk', hBlock.symm.trans hBlock'⟩
  cover x := by
    constructor
    · intro hx
      obtain ⟨start, stop, hRequest, hIn⟩ := exists_request hL hx
      exact ⟨_, _, start, stop, hRequest, hIn⟩
    · rintro ⟨nchunk, nblock, start, stop, hRequest, hIn⟩
      exact (hRequest.locate_eq hL hIn).1
  filled {nchunk nblock} _ _ out h hOut := by
    obtain ⟨hSome, rfl, rfl⟩ := (requests_iff hL h.chunk h.block).mp h
    have hLen : ∀ (f : Axis → Nat) k, (unflat (c.catarr.axes.map f) k).length =
        c.catarr.axes.length := by simp
    have hRegion := region_partOf (hLen Axis.chunks nchunk) (hLen Axis.blocks nblock) hSome
    obtain ⟨block, hBlock, hItems, hZeros⟩ := zproxyPostfilter_ok hL (zproxyUdata c urlpath zhandler)
      ⟨nchunk, nblock, c.catarr.sc.blocksize, c.catarr.itemsize⟩ hRemote h.request hRegion
      (partOf_inBox nchunk nblock) hSized.blockitems hOut
    refine ⟨block, hBlock, fun p hp => ?_⟩
    have hIn := @inSlice_addIdx _ _ p (hRegion.start_length.trans hRegion.length.symm) (by
      rw [hp.length_eq, hRegion.length]
      simp [blockshapeOf, shapeOf, zproxyUdata])
    rw [show (ints _).map Int.toNat = _ from Reference.starts_ints _]
    exact ⟨fun h => hItems p (hIn.mp h), fun h => hZeros p hp fun hp' => h (hIn.mpr hp')⟩

/-- An element of the proxy is the remote element. -/
theorem zproxy_cell {L : ProxyLibraries} (hL : L.Lawful) {memory : PostfilterParams → List Cell}
    {c : Container} {urlpath : String} {zhandler : ZHandler} {remote : List Nat → Cell}
    (hSized : c.catarr.Sized) (hMemory : ∀ params, (memory params).length = c.catarr.blockshape.prod)
    (hRemote : Delivers zhandler urlpath c.catarr.shape remote) {x : List Nat}
    (hx : InBox x c.catarr.shape) :
    (iarrayAddZproxyPostfilter L memory c urlpath zhandler).catarr.cell x = .ok (remote x) := by
  have hc := nchunk_lt hx
  have hb := nblock_lt hx
  obtain ⟨i, hi, hJoin⟩ := exists_item hx
  have hLen : ∀ (f : Axis → Nat) k, (unflat (c.catarr.axes.map f) k).length =
      c.catarr.axes.length := by simp
  have hSome : 0 ∉ partOf c.catarr.axes _ _ := fun hZero => lt_irrefl _ (hi.pos 0 hZero)
  have hRegion := region_partOf (hLen _ _) (hLen _ _) hSome
  have hPlace := (locate_joinAll (inBox_unflat hc) (inBox_unflat hb) hi).2
  have hStart := addIdx_blockStart (hLen Axis.chunks (locate c.catarr.axes x).nchunk)
    (hLen Axis.blocks (locate c.catarr.axes x).nblock) (i := i) (by
      rw [hi.length_eq, hRegion.length, length_shapeOf])
  obtain ⟨block, hBlock, hItems, -⟩ := zproxyPostfilter_ok hL (zproxyUdata c urlpath zhandler)
    ⟨_, _, c.catarr.sc.blocksize, c.catarr.itemsize⟩ hRemote
    ((requests_iff hL hc hb).mpr ⟨hSome, rfl, rfl⟩).request hRegion (partOf_inBox _ _)
    hSized.blockitems (hMemory _)
  have hItem : block[flat (blockshapeOf c.catarr.axes) i]? = _ := hItems i hi
  rw [hStart, hJoin] at hItem
  rw [hJoin] at hPlace
  have hNitem : _ = flat (blockshapeOf c.catarr.axes) i := congrArg Place.nitem hPlace
  have hCell : (iarrayAddZproxyPostfilter L memory c urlpath zhandler).catarr.cell x = (do
      let b ← zproxyPostfilter L (zproxyUdata c urlpath zhandler) ⟨(locate c.catarr.axes x).nchunk,
        (locate c.catarr.axes x).nblock, c.catarr.sc.blocksize, c.catarr.itemsize⟩ (memory _)
      SChunk.itemOfBlock b (locate c.catarr.axes x).nitem) := rfl
  rw [hCell, hBlock, Result.ok_bind, SChunk.itemOfBlock, hNitem, hItem]

/-! ## A matrix with padding -/

namespace Reference

def proxyLibraries : ProxyLibraries where
  unidimToMultidim := unflat
  copyBuffer _ src shape _ _ dest destShape _ := catervaCopyBuffer src shape dest destShape

theorem proxyLibraries_lawful : proxyLibraries.Lawful where
  unidimToMultidim _ := rfl
  copyBuffer _ _ _ _ _ _ _ hSrc hDest hIn := catervaCopyBuffer_ok hSrc hDest hIn

/-- A callback that sends the elements of a remote array. -/
def send (remote : List Nat → Cell) : ZHandler := fun _ start stop dest =>
  (List.range (extents start stop).prod).map
    (fun k => remote (addIdx (starts start) (unflat (extents start stop) k))) ++
      dest.drop (extents start stop).prod

theorem send_delivers (urlpath : String) (shape : List Nat) (remote : List Nat → Cell) :
    Delivers (send remote) urlpath shape remote := by
  intro s n dest hRegion hFits x hx
  have hExtents := @extents_ints s n (hRegion.start_length.trans hRegion.length.symm)
  have hLt := flat_lt hx
  rw [send, hExtents, starts_ints, List.getElem?_append_left (by simpa using hLt),
    List.getElem?_map, List.getElem?_range hLt, Option.map_some, unflat_flat hx]

/-- Five rows in chunks of three and blocks of two, seven columns in chunks of four and blocks of
three. -/
def padded : Container :=
  plain .int32 [.ofCuts 5 3 2, .ofCuts 7 4 3] fun _ => .bits 0

end Reference

/-- The last block of the first chunk is a single element, the fourth block of the last chunk is
none, and the regions of all blocks tile the matrix. -/
theorem zproxy_tiles_padded :
    zproxyRequest Reference.proxyLibraries Reference.padded.catarr.axes 0 3 =
      .ok (some ([2, 3], [3, 4])) ∧
    zproxyRequest Reference.proxyLibraries Reference.padded.catarr.axes 3 3 = .ok none ∧
    ProxyTiles Reference.proxyLibraries
      (zproxyUdata Reference.padded "remote" (Reference.send fun x => .bits (x.headD 0)))
      Reference.padded.catarr.sc.blocksize Reference.padded.catarr.itemsize
      fun x => .bits (x.headD 0) :=
  ⟨by decide, by decide, zproxy_tiles Reference.proxyLibraries_lawful Reference.padded "remote" _ _
    ⟨by decide, rfl⟩ (Reference.send_delivers _ _ _)⟩

end IronArray
