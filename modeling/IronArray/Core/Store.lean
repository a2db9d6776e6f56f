import IronArray.Core.Value
import IronArray.Grid.Tiling

/-!
# Super-chunks and Caterva arrays

Blosc keeps the chunks of an array and Caterva arranges them in a grid; neither is part of
this repository. A super-chunk is modelled by its decompressed contents together with the
postfilter that its decompression context runs on every block.
-/

namespace IronArray

open Grid

/-! ## Super-chunks -/

/-- `blosc2_postfilter_params`: the block to produce and its size in bytes. -/
structure PostfilterParams where
  nchunk : Nat
  nblock : Nat
  size : Nat
  typesize : Nat

/-- A `blosc2_schunk`: the items of its chunks and the postfilter of its `dctx`. -/
structure SChunk where
  typesize : Nat
  blocksize : Nat
  chunk : Nat → Nat → Cell
  postfilter : Option (PostfilterParams → Result (List Cell))

namespace SChunk

def blockitems (sc : SChunk) : Nat := sc.blocksize / sc.typesize

/-- The stored items of a block. -/
def rawBlock (sc : SChunk) (nchunk nblock : Nat) : List Cell :=
  (List.range sc.blockitems).map fun j => sc.chunk nchunk (nblock * sc.blockitems + j)

/-- Decompress one block through the postfilter. -/
def block (sc : SChunk) (nchunk nblock : Nat) : Result (List Cell) :=
  match sc.postfilter with
  | none => .ok (sc.rawBlock nchunk nblock)
  | some postfilter => postfilter ⟨nchunk, nblock, sc.blocksize, sc.typesize⟩

def itemOfBlock (b : List Cell) (j : Nat) : Result Cell :=
  match b[j]? with
  | some c => .ok c
  | none => crash .outOfBounds

/-- `blosc2_getitem_ctx`: items of a chunk, read block by block. -/
def getitem (sc : SChunk) (nchunk start nitems destsize : Nat) : Result (List Cell) :=
  if destsize < nitems * sc.typesize then inaError .bloscFailed
  else (List.range nitems).mapM fun j => do
    let b ← sc.block nchunk ((start + j) / sc.blockitems)
    itemOfBlock b ((start + j) % sc.blockitems)

/-- Every block can be read and has the size the super-chunk announces. -/
def Total (sc : SChunk) : Prop :=
  ∀ nchunk nblock, ∃ b, sc.block nchunk nblock = .ok b ∧ b.length = sc.blockitems

/-- Every block that can be read has the size the super-chunk announces. -/
def Whole (sc : SChunk) : Prop :=
  ∀ nchunk nblock b, sc.block nchunk nblock = .ok b → b.length = sc.blockitems

theorem Total.whole {sc : SChunk} (h : sc.Total) : sc.Whole := by
  intro nchunk nblock b hb
  obtain ⟨b', hb', hLen⟩ := h nchunk nblock
  rw [hb, Except.ok.injEq] at hb'
  rw [hb', hLen]

theorem total_of_postfilter_none {sc : SChunk} (h : sc.postfilter = none) : sc.Total := by
  intro nchunk nblock
  refine ⟨sc.rawBlock nchunk nblock, ?_, by simp [rawBlock]⟩
  simp [block, h]

theorem itemOfBlock_ok {b : List Cell} {j : Nat} (h : j < b.length) :
    itemOfBlock b j = .ok b[j] := by
  simp [itemOfBlock, List.getElem?_eq_getElem h]

/-- Reading a whole block through `blosc2_getitem_ctx` gives the block. -/
theorem getitem_block {sc : SChunk} {nchunk nblock destsize : Nat} {b : List Cell}
    (hb : sc.block nchunk nblock = .ok b) (hlen : b.length = sc.blockitems)
    (hdest : sc.blockitems * sc.typesize ≤ destsize) :
    sc.getitem nchunk (nblock * sc.blockitems) sc.blockitems destsize = .ok b := by
  rw [getitem, if_neg (by omega), Result.mapM_ok _ _ (fun j => b.getD j (.bits 0))]
  · congr 1
    refine List.ext_getElem (by simp [hlen]) ?_
    intro j _ hj
    simp [List.getElem?_eq_getElem hj]
  · intro j hj
    rw [List.mem_range] at hj
    have hlt : j < b.length := by omega
    simp only [mul_add_div_of_lt hj, Nat.mul_add_mod_of_lt hj, hb]
    change itemOfBlock b j = _
    rw [itemOfBlock_ok hlt]
    simp [List.getElem?_eq_getElem hlt]

end SChunk

/-! ## Arrays -/

/-- A `caterva_array_t`. -/
structure CatArray where
  axes : List Axis
  sc : SChunk

namespace CatArray

def shape (a : CatArray) : List Nat := shapeOf a.axes

def chunkshape (a : CatArray) : List Nat := chunkshapeOf a.axes

def blockshape (a : CatArray) : List Nat := blockshapeOf a.axes

def ndim (a : CatArray) : Nat := a.axes.length

def itemsize (a : CatArray) : Nat := a.sc.typesize

def nchunks (a : CatArray) : Nat := (a.axes.map Axis.chunks).prod

/-- The element at an index, decompressed through the postfilter. -/
def cell (a : CatArray) (x : List Nat) : Result Cell := do
  let b ← a.sc.block (locate a.axes x).nchunk (locate a.axes x).nblock
  SChunk.itemOfBlock b (locate a.axes x).nitem

/-- The block size of the super-chunk is the one the block shape asks for. -/
def Sized (a : CatArray) : Prop :=
  0 < a.itemsize ∧ a.sc.blocksize = a.blockshape.prod * a.itemsize

theorem Sized.blockitems {a : CatArray} (h : a.Sized) : a.sc.blockitems = a.blockshape.prod := by
  rw [SChunk.blockitems, h.2, itemsize]
  exact Nat.mul_div_cancel _ h.1

/-- The element at an index of an array whose blocks are read as they are stored. -/
theorem cell_stored {a : CatArray} (hSized : a.Sized) (hPost : a.sc.postfilter = none)
    {x : List Nat} (hx : InBox x a.shape) :
    a.cell x = .ok (a.sc.chunk (locate a.axes x).nchunk
      ((locate a.axes x).nblock * a.blockshape.prod + (locate a.axes x).nitem)) := by
  have hItem : (locate a.axes x).nitem < a.blockshape.prod := nitem_lt hx
  have hLen : (a.sc.rawBlock (locate a.axes x).nchunk (locate a.axes x).nblock).length =
      a.blockshape.prod := by
    rw [SChunk.rawBlock, List.length_map, List.length_range, hSized.blockitems]
  rw [cell, SChunk.block, hPost]
  change SChunk.itemOfBlock (a.sc.rawBlock (locate a.axes x).nchunk (locate a.axes x).nblock)
    (locate a.axes x).nitem = _
  rw [SChunk.itemOfBlock_ok (hLen ▸ hItem)]
  simp only [SChunk.rawBlock, List.getElem_map, List.getElem_range, hSized.blockitems]

end CatArray

/-- The array of a given tiling whose elements are the values of a function. -/
def CatArray.ofFn (axes : List Axis) (typesize : Nat) (f : List Nat → Cell) : CatArray where
  axes := axes
  sc :=
    { typesize := typesize
      blocksize := (blockshapeOf axes).prod * typesize
      chunk := fun nchunk k =>
        f (coordOf axes ⟨nchunk, k / (blockshapeOf axes).prod, k % (blockshapeOf axes).prod⟩)
      postfilter := none }

theorem CatArray.cell_ofFn {axes : List Axis} {typesize : Nat} {f : List Nat → Cell}
    (ht : 0 < typesize) {x : List Nat} (hx : InBox x (shapeOf axes)) :
    (CatArray.ofFn axes typesize f).cell x = .ok (f x) := by
  have hItem := nitem_lt hx
  rw [CatArray.cell_stored (a := ofFn axes typesize f) ⟨ht, rfl⟩ rfl hx]
  simp only [CatArray.ofFn, CatArray.blockshape, mul_add_div_of_lt hItem,
    Nat.mul_add_mod_of_lt hItem]
  exact congrArg _ (congrArg f (coordOf_locate hx))

end IronArray
