import IronArray.Grid.Mask

/-!
# Two-level tilings of a box

Each axis of a box is cut into chunks and each chunk into blocks; neither cut has to divide
what it cuts. A coordinate is then a chunk, a block in that chunk and an item in that block.
`locate` gives the three row-major numbers of an index and `coordOf` puts them together
again.
-/

namespace Grid

/-! ## Tiles of one axis -/

/-- The number of tiles of length `d` that cover `n` positions. -/
def numTiles (n d : Nat) : Nat := (n + d - 1) / d

theorem lt_numTiles_iff {n d i : Nat} (hd : 0 < d) : i < numTiles n d ↔ i * d < n := by
  rw [numTiles, Nat.lt_iff_add_one_le, Nat.le_div_iff_mul_le hd, Nat.add_mul, Nat.one_mul]
  omega

theorem div_lt_numTiles {n d x : Nat} (hd : 0 < d) (hx : x < n) : x / d < numTiles n d := by
  rw [lt_numTiles_iff hd]
  exact Nat.lt_of_le_of_lt (Nat.div_mul_le_self x d) hx

@[simp] theorem numTiles_zero (d : Nat) : numTiles 0 d = 0 := by
  rcases Nat.eq_zero_or_pos d with rfl | hd
  · rfl
  · exact Nat.div_eq_of_lt (by omega)

/-- An axis with its two cuts. An axis of length zero may have empty tiles. -/
structure Axis where
  shape : Nat
  chunkshape : Nat
  blockshape : Nat
  chunk_pos : 0 < shape → 0 < chunkshape
  block_pos : 0 < shape → 0 < blockshape
deriving DecidableEq

namespace Axis

/-- The axis with these cuts, if it may be cut so. -/
def ofCuts (shape chunkshape blockshape : Nat) : Axis :=
  if h : 0 < chunkshape ∧ 0 < blockshape then
    ⟨shape, chunkshape, blockshape, fun _ => h.1, fun _ => h.2⟩
  else ⟨0, chunkshape, blockshape, (absurd · (lt_irrefl 0)), (absurd · (lt_irrefl 0))⟩

def chunks (a : Axis) : Nat := numTiles a.shape a.chunkshape

def blocks (a : Axis) : Nat := numTiles a.chunkshape a.blockshape

/-- The three positions of the coordinate `x`: chunk, block in the chunk, item in the block. -/
def chunkOf (a : Axis) (x : Nat) : Nat := x / a.chunkshape

def blockOf (a : Axis) (x : Nat) : Nat := x % a.chunkshape / a.blockshape

def itemOf (a : Axis) (x : Nat) : Nat := x % a.chunkshape % a.blockshape

def join (a : Axis) (c b i : Nat) : Nat := c * a.chunkshape + b * a.blockshape + i

variable {a : Axis} {x : Nat}

theorem chunkOf_lt (hx : x < a.shape) : a.chunkOf x < a.chunks :=
  div_lt_numTiles (a.chunk_pos (Nat.zero_lt_of_lt hx)) hx

theorem blockOf_lt (hx : x < a.shape) : a.blockOf x < a.blocks :=
  div_lt_numTiles (a.block_pos (Nat.zero_lt_of_lt hx))
    (Nat.mod_lt _ (a.chunk_pos (Nat.zero_lt_of_lt hx)))

theorem itemOf_lt (hx : x < a.shape) : a.itemOf x < a.blockshape :=
  Nat.mod_lt _ (a.block_pos (Nat.zero_lt_of_lt hx))

theorem join_split (a : Axis) (x : Nat) :
    a.join (a.chunkOf x) (a.blockOf x) (a.itemOf x) = x := by
  have hblock := Nat.div_add_mod' (x % a.chunkshape) a.blockshape
  have hchunk := Nat.div_add_mod' x a.chunkshape
  simp only [join, chunkOf, blockOf, itemOf]
  omega

end Axis

/-! ## Tiles of a box -/

def shapeOf (as : List Axis) : List Nat := as.map Axis.shape

def chunkshapeOf (as : List Axis) : List Nat := as.map Axis.chunkshape

def blockshapeOf (as : List Axis) : List Nat := as.map Axis.blockshape

@[simp] theorem shapeOf_nil : shapeOf [] = [] := rfl

@[simp] theorem shapeOf_cons (a : Axis) (as : List Axis) :
    shapeOf (a :: as) = a.shape :: shapeOf as := rfl

@[simp] theorem blockshapeOf_cons (a : Axis) (as : List Axis) :
    blockshapeOf (a :: as) = a.blockshape :: blockshapeOf as := rfl

@[simp] theorem length_shapeOf (as : List Axis) : (shapeOf as).length = as.length := by
  simp [shapeOf]

/-- Where an item is stored: its chunk, its block in the chunk and its place in the block. -/
structure Place where
  nchunk : Nat
  nblock : Nat
  nitem : Nat
deriving DecidableEq

def locate (as : List Axis) (x : List Nat) : Place where
  nchunk := flat (as.map Axis.chunks) (List.zipWith Axis.chunkOf as x)
  nblock := flat (as.map Axis.blocks) (List.zipWith Axis.blockOf as x)
  nitem := flat (blockshapeOf as) (List.zipWith Axis.itemOf as x)

/-- Recombine chunk, block and item positions axis by axis. -/
def joinAll : List Axis → List Nat → List Nat → List Nat → List Nat
  | a :: as, c :: cs, b :: bs, i :: is => a.join c b i :: joinAll as cs bs is
  | _, _, _, _ => []

/-- The index stored at a place. -/
def coordOf (as : List Axis) (p : Place) : List Nat :=
  joinAll as (unflat (as.map Axis.chunks) p.nchunk) (unflat (as.map Axis.blocks) p.nblock)
    (unflat (blockshapeOf as) p.nitem)

/-- A per-axis position below a per-axis bound stays inside the box of those bounds. -/
theorem inBox_zipWith {pos : Axis → Nat → Nat} {bound : Axis → Nat}
    (h : ∀ a x, x < a.shape → pos a x < bound a) {as : List Axis} {x : List Nat}
    (hx : InBox x (shapeOf as)) : InBox (List.zipWith pos as x) (as.map bound) := by
  induction as generalizing x with
  | nil => cases x <;> simp_all
  | cons a as ih =>
    obtain ⟨i, is, rfl, hi, his⟩ := InBox.cons_iff.mp hx
    simpa using ⟨h a i hi, ih his⟩

theorem joinAll_split {as : List Axis} {x : List Nat} (hx : InBox x (shapeOf as)) :
    joinAll as (List.zipWith Axis.chunkOf as x) (List.zipWith Axis.blockOf as x)
      (List.zipWith Axis.itemOf as x) = x := by
  induction as generalizing x with
  | nil => cases x <;> simp_all [joinAll]
  | cons a as ih =>
    obtain ⟨i, is, rfl, hi, his⟩ := InBox.cons_iff.mp hx
    simp [joinAll, ih his, Axis.join_split]

theorem coordOf_locate {as : List Axis} {x : List Nat} (hx : InBox x (shapeOf as)) :
    coordOf as (locate as x) = x := by
  have hchunk : unflat (as.map Axis.chunks) (locate as x).nchunk = _ :=
    unflat_flat (inBox_zipWith (fun _ _ => Axis.chunkOf_lt) hx)
  have hblock : unflat (as.map Axis.blocks) (locate as x).nblock = _ :=
    unflat_flat (inBox_zipWith (fun _ _ => Axis.blockOf_lt) hx)
  have hitem : unflat (blockshapeOf as) (locate as x).nitem = _ :=
    unflat_flat (@inBox_zipWith _ Axis.blockshape (fun _ _ => Axis.itemOf_lt) _ _ hx)
  rw [coordOf, hchunk, hblock, hitem, joinAll_split hx]

theorem nitem_lt {as : List Axis} {x : List Nat} (hx : InBox x (shapeOf as)) :
    (locate as x).nitem < (blockshapeOf as).prod :=
  flat_lt (@inBox_zipWith _ Axis.blockshape (fun _ _ => Axis.itemOf_lt) _ _ hx)

theorem nchunk_lt {as : List Axis} {x : List Nat} (hx : InBox x (shapeOf as)) :
    (locate as x).nchunk < (as.map Axis.chunks).prod :=
  flat_lt (inBox_zipWith (fun _ _ => Axis.chunkOf_lt) hx)

theorem nblock_lt {as : List Axis} {x : List Nat} (hx : InBox x (shapeOf as)) :
    (locate as x).nblock < (as.map Axis.blocks).prod :=
  flat_lt (inBox_zipWith (fun _ _ => Axis.blockOf_lt) hx)

/-- Behind the number of its chunk, an item lies where its tiles put it. -/
theorem locate_eq_of_nchunk {as bs : List Axis} {x : List Nat}
    (hc : chunkshapeOf as = chunkshapeOf bs) (hb : blockshapeOf as = blockshapeOf bs)
    (hn : (locate as x).nchunk = (locate bs x).nchunk) : locate as x = locate bs x := by
  have hBlocks : as.map Axis.blocks = bs.map Axis.blocks ∧
      List.zipWith Axis.blockOf as x = List.zipWith Axis.blockOf bs x ∧
      List.zipWith Axis.itemOf as x = List.zipWith Axis.itemOf bs x := by
    clear hn
    induction as generalizing bs x with
    | nil =>
      obtain rfl : bs = [] := List.map_eq_nil_iff.mp hc.symm
      exact ⟨rfl, rfl, rfl⟩
    | cons a as ih =>
      cases bs with
      | nil => exact absurd hc (by simp [chunkshapeOf])
      | cons b bs =>
        simp only [chunkshapeOf, blockshapeOf, List.map_cons, List.cons.injEq] at hc hb
        obtain ⟨hBlocks, -, -⟩ := ih (x := []) hc.2 hb.2
        cases x with
        | nil => simp [Axis.blocks, hc.1, hb.1, hBlocks]
        | cons i x =>
          obtain ⟨-, hBlock, hItem⟩ := ih (x := x) hc.2 hb.2
          simp [Axis.blocks, Axis.blockOf, Axis.itemOf, hc.1, hb.1, hBlocks, hBlock, hItem]
  obtain ⟨hBlocks, hBlock, hItem⟩ := hBlocks
  simp only [locate, Place.mk.injEq] at hn ⊢
  exact ⟨hn, by rw [hBlocks, hBlock], by rw [hb, hItem]⟩

/-! ## Single-item axes -/

/-- The axis holds one item. -/
def Axis.Single (a : Axis) : Prop := a.shape = 1 ∧ a.chunkshape = 1 ∧ a.blockshape = 1

theorem map_single {f : Axis → Nat} (hf : ∀ a : Axis, a.Single → f a = 1) {as : List Axis}
    (h : ∀ a ∈ as, a.Single) : as.map f = List.replicate as.length 1 := by
  rw [List.eq_replicate_iff]
  refine ⟨by simp, ?_⟩
  intro n hn
  obtain ⟨a, ha, rfl⟩ := List.mem_map.mp hn
  exact hf a (h a ha)

theorem chunks_single {a : Axis} (h : a.Single) : a.chunks = 1 := by
  simp [Axis.chunks, numTiles, h.1, h.2.1]

theorem blocks_single {a : Axis} (h : a.Single) : a.blocks = 1 := by
  simp [Axis.blocks, numTiles, h.2.1, h.2.2]

theorem zipWith_single {pos : Axis → Nat → Nat} (hpos : ∀ a : Axis, a.Single → pos a 0 = 0)
    {as : List Axis} (h : ∀ a ∈ as, a.Single) :
    List.zipWith pos as (List.replicate as.length 0) = List.replicate as.length 0 := by
  induction as with
  | nil => rfl
  | cons a as ih =>
    simp only [List.length_cons, List.replicate_succ, List.zipWith_cons_cons]
    rw [hpos a (h a List.mem_cons_self), ih fun b hb => h b (List.mem_cons_of_mem _ hb)]

theorem flat_append_single {ns is : List Nat} (h : is.length = ns.length) (t : Nat) :
    flat (ns ++ List.replicate t 1) (is ++ List.replicate t 0) = flat ns is := by
  rw [← spread_tailMask 1 t rfl, ← spread_tailMask 0 t h]
  exact flat_spread (by simp [h]) (by simp)

/-- Single-item axes at the end do not move an item. -/
theorem locate_append_single {as bs : List Axis} {x : List Nat} (hx : x.length = as.length)
    (h : ∀ b ∈ bs, b.Single) :
    locate (as ++ bs) (x ++ List.replicate bs.length 0) = locate as x := by
  have hzip : ∀ pos : Axis → Nat → Nat, (∀ a : Axis, a.Single → pos a 0 = 0) →
      List.zipWith pos (as ++ bs) (x ++ List.replicate bs.length 0) =
        List.zipWith pos as x ++ List.replicate bs.length 0 := by
    intro pos hpos
    rw [List.zipWith_append hx.symm, zipWith_single hpos h]
  have hlen : ∀ pos : Axis → Nat → Nat, (List.zipWith pos as x).length = as.length := by
    intro pos
    simp [hx]
  simp only [locate, blockshapeOf, List.map_append, Place.mk.injEq]
  refine ⟨?_, ?_, ?_⟩
  · rw [hzip Axis.chunkOf fun _ _ => Nat.zero_div _, map_single (fun _ => chunks_single) h,
      flat_append_single (by simp [hlen])]
  · rw [hzip Axis.blockOf fun a _ => by simp [Axis.blockOf], map_single (fun _ => blocks_single) h,
      flat_append_single (by simp [hlen])]
  · rw [hzip Axis.itemOf fun a _ => by simp [Axis.itemOf], map_single (fun _ ha => ha.2.2) h,
      flat_append_single (by simp [hlen])]

theorem axes_ext {as bs : List Axis} (hs : shapeOf as = shapeOf bs)
    (hc : chunkshapeOf as = chunkshapeOf bs) (hb : blockshapeOf as = blockshapeOf bs) :
    as = bs := by
  induction as generalizing bs with
  | nil => cases bs <;> simp_all
  | cons a as ih =>
    cases bs with
    | nil => simp [shapeOf] at hs
    | cons b bs =>
      simp only [shapeOf, chunkshapeOf, blockshapeOf, List.map_cons, List.cons.injEq]
        at hs hc hb
      obtain ⟨n, c, k, _, _⟩ := a
      obtain ⟨n', c', k', _, _⟩ := b
      obtain ⟨rfl, hs⟩ := hs
      obtain ⟨rfl, hc⟩ := hc
      obtain ⟨rfl, hb⟩ := hb
      rw [ih hs hc hb]

end Grid
