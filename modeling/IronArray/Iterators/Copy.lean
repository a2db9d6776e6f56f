import IronArray.Iterators.Block
import IronArray.Views.Operations

/-!
# Copies

`iarrayCopy_plain`: a copy is a plain container of the shape of its source and of the given
storage, whatever the source. The invariant is that a write iterator never changes the
geometry of its container. `Plain.copy` adds that a copied plain container keeps its
elements.
-/

namespace IronArray

open Grid

/-! ## Write iterators keep the geometry -/

theorem Fresh.updateChunk {a : CatArray} {itemsize : Nat} {shape : List Nat} {st : CatervaStorage}
    (h : Fresh a itemsize shape st) (nchunk : Nat) (chunk : Nat → Cell) :
    Fresh (a.updateChunk nchunk chunk) itemsize shape st :=
  ⟨h.shape, h.storage, h.itemsize, h.sized, h.postfilter⟩

/-- A property of containers that storing a block keeps. -/
structure StoreStable (E : Backend) (Inv : Container → Prop) : Prop where
  updateChunk : ∀ {c : Container} (nchunk : Nat) (chunk : Nat → Cell), Inv c →
    Inv { c with catarr := c.catarr.updateChunk nchunk chunk }
  setSliceBuffer : ∀ {c : Container} {buffer : Nat → Cell} {m : List Nat} {buflen : Nat}
    {s t : List Nat} {a : CatArray}, Inv c →
    E.setSliceBuffer c.catarr buffer m buflen s t = .ok a → Inv { c with catarr := a }

theorem PlainOf.stable {E : Backend} (hE : E.Lawful) (d : Dtshape) (st : Storage) :
    StoreStable E (PlainOf d st) where
  updateChunk nchunk chunk h :=
    ⟨h.plain.setArray (h.plain.fresh.updateChunk nchunk chunk), h.dtshape, h.storage⟩
  setSliceBuffer h hSet :=
    ⟨h.plain.setArray (hE.setSliceBuffer_fresh h.plain.fresh hSet), h.dtshape, h.storage⟩

namespace IterWriteBlock

variable {E : Backend} {itr itr' : IterWriteBlock} {Inv : Container → Prop}

theorem store_inv (hInv : StoreStable E Inv) (h : Inv itr.cont) (hs : itr.store E = .ok itr') :
    Inv itr'.cont := by
  unfold store at hs
  split at hs
  · cases hs
    exact hInv.updateChunk _ _ h
  · simp only at hs
    split at hs
    · rename_i catarr hSet
      cases hs
      exact hInv.setSliceBuffer h hSet
    · cases hs
    · cases hs

theorem hasNext_inv (hInv : StoreStable E Inv) (h : Inv itr.cont) {more : Bool}
    (hn : itr.hasNext E = .ok (itr', more)) : Inv itr'.cont := by
  unfold hasNext at hn
  split at hn
  · split at hn
    · rename_i hs
      cases hn
      exact store_inv hInv h hs
    · cases hn
      exact h
    · cases hn
  · cases hn
    exact h

theorem seek_cont {nblock : Nat} (h : itr.seek nblock = .ok itr') : itr'.cont = itr.cont := by
  obtain ⟨_, _, h⟩ := Result.bind_eq_ok.mp h
  cases h
  rfl

theorem useBuffer_cont {buffer : Nat → Cell} {bufsize : Nat}
    (h : itr.useBuffer E buffer bufsize = .ok itr') : itr'.cont = itr.cont := by
  unfold useBuffer at h
  split at h
  · cases h
    rfl
  · split at h
    · cases h
    · cases h
      rfl

theorem next_inv (hInv : StoreStable E Inv) (h : Inv itr.cont) {buffer : Nat → Cell}
    {bufsize : Nat} {value : IterValue} (hn : itr.next E buffer bufsize = .ok (itr', value)) :
    Inv itr'.cont := by
  obtain ⟨itr₁, h₁, hn⟩ := Result.bind_eq_ok.mp hn
  obtain ⟨itr₂, h₂, hn⟩ := Result.bind_eq_ok.mp hn
  obtain ⟨itr₃, h₃, hn⟩ := Result.bind_eq_ok.mp hn
  cases hn
  have hStored : Inv itr₁.cont := by
    unfold leave at h₁
    split at h₁
    · cases h₁
      exact h
    · exact store_inv hInv h h₁
  change Inv itr₃.cont
  rw [seek_cont h₃, useBuffer_cont h₂]
  exact hStored

theorem store_counts (h : itr.store E = .ok itr') :
    itr'.nblock = itr.nblock ∧ itr'.totalBlocks = itr.totalBlocks := by
  unfold store at h
  split at h
  · cases h
    exact ⟨rfl, rfl⟩
  · simp only at h
    split at h
    · cases h
      exact ⟨rfl, rfl⟩
    · cases h
    · cases h

theorem next_counts {buffer : Nat → Cell} {bufsize : Nat} {value : IterValue}
    (h : itr.next E buffer bufsize = .ok (itr', value)) :
    itr'.nblock = itr.nblock + 1 ∧ itr'.totalBlocks = itr.totalBlocks := by
  obtain ⟨left, hLeave, h⟩ := Result.bind_eq_ok.mp h
  obtain ⟨used, hUsed, h⟩ := Result.bind_eq_ok.mp h
  obtain ⟨sought, hSeek, h⟩ := Result.bind_eq_ok.mp h
  cases h
  have hLeft : left.nblock = itr.nblock ∧ left.totalBlocks = itr.totalBlocks := by
    unfold leave at hLeave
    split at hLeave
    · cases hLeave
      exact ⟨rfl, rfl⟩
    · exact store_counts hLeave
  have hUse : used.nblock = left.nblock ∧ used.totalBlocks = left.totalBlocks := by
    unfold useBuffer at hUsed
    split at hUsed
    · cases hUsed
      exact ⟨rfl, rfl⟩
    · split at hUsed
      · cases hUsed
      · cases hUsed
        exact ⟨rfl, rfl⟩
  obtain ⟨_, _, hSeek⟩ := Result.bind_eq_ok.mp hSeek
  cases hSeek
  exact ⟨congrArg (· + 1) (hUse.1.trans hLeft.1), hUse.2.trans hLeft.2⟩

end IterWriteBlock

/-- What every round preserves holds when the loop ends. -/
theorem writeLoop_invariant {σ : Type} {E : Backend} {cond : σ → Bool}
    {body : IterWriteBlock → σ → Result (IterWriteBlock × σ)} (Inv : IterWriteBlock → Prop)
    (hNext : ∀ {itr itr' more}, Inv itr → itr.hasNext E = .ok (itr', more) → Inv itr')
    (hBody : ∀ {itr itr' s s'}, Inv itr → body itr s = .ok (itr', s') → Inv itr')
    {rounds : Nat} {itr itr' : IterWriteBlock} {s s' : σ} (hInv : Inv itr)
    (h : writeLoop E cond body rounds itr s = .ok (itr', s')) : Inv itr' := by
  induction rounds generalizing itr s with
  | zero =>
    obtain ⟨⟨itr₁, more⟩, hMore, h⟩ := Result.bind_eq_ok.mp h
    have hInv₁ := hNext hInv hMore
    simp only at h
    split at h <;> cases h <;> exact hInv₁
  | succ rounds ih =>
    obtain ⟨⟨itr₁, more⟩, hMore, h⟩ := Result.bind_eq_ok.mp h
    have hInv₁ := hNext hInv hMore
    simp only at h
    split at h
    · obtain ⟨⟨itr₂, s₂⟩, hRound, h⟩ := Result.bind_eq_ok.mp h
      exact ih (hBody hInv₁ hRound) h
    · cases h
      exact hInv₁

theorem iterWriteBlockNew_cont {E : Backend} {cont : Container} {bs : List Nat} {ext : Bool}
    {itr : IterWriteBlock} (h : iarrayIterWriteBlockNew E cont bs ext = .ok itr) :
    itr.cont = cont := by
  unfold iarrayIterWriteBlockNew at h
  split at h
  · cases h
  split at h
  · cases h
  obtain ⟨_, _, h⟩ := Result.bind_eq_ok.mp h
  obtain ⟨_, _, h⟩ := Result.bind_eq_ok.mp h
  rw [IterWriteBlock.seek_cont h]

theorem copyRound_inv {E : Backend} {Inv : Container → Prop} (hInv : StoreStable E Inv)
    {itr itr' : IterWriteBlock} {s s' : IterReadBlock} (h : Inv itr.cont)
    (hr : copyRound E itr s = .ok (itr', s')) : Inv itr'.cont := by
  obtain ⟨⟨s₁, readVal⟩, _, hr⟩ := Result.bind_eq_ok.mp hr
  obtain ⟨⟨itr₁, writeVal⟩, hWrite, hr⟩ := Result.bind_eq_ok.mp hr
  cases hr
  exact (IterWriteBlock.next_inv hInv h hWrite : Inv itr₁.cont)

/-! ## The result of a copy -/

/-- A copied plain container keeps its elements. -/
theorem Plain.copy {E : Backend} (hE : E.Lawful) {c b : Container} {view : Bool} {st : Storage}
    (h : Plain c) (hb : iarrayCopy E c view st = .ok b) :
    PlainOf c.dtshape st b ∧ c.contents.Same b.contents := by
  unfold iarrayCopy at hb
  rw [h.containerViewed] at hb
  obtain ⟨container, hNew, hb⟩ := Result.bind_eq_ok.mp hb
  obtain ⟨catarr, hCopy, hb⟩ := Result.bind_eq_ok.mp hb
  cases hb
  obtain ⟨hMax, rfl⟩ := containerNew_ok hNew
  obtain ⟨hFresh, hCells⟩ := hE.copy h.fresh.sized h.fresh.postfilter hCopy
  rw [h.fresh.itemsize, h.fresh.shape] at hFresh
  refine ⟨⟨plain_newContainer hMax hFresh, rfl, rfl⟩, rfl, fun x hx => ?_⟩
  have hx' : InBox x c.catarr.shape := by rwa [h.fresh.shape]
  have hTotal := SChunk.total_of_postfilter_none h.fresh.postfilter
  have hCell := hCells x _ hx' (cell_of_total hTotal h.fresh.sized hx')
  change c.catarr.get x = catarr.get x
  rw [show catarr.get x = _ by rw [CatArray.get, hCell]]

/-- What an empty container satisfies and storing a block keeps, the copy of a view satisfies. -/
theorem iarrayCopy_inv {E : Backend} {Inv : Container → Prop} (hInv : StoreStable E Inv)
    {c b : Container} {view : Bool} {st : Storage} (hView : c.containerViewed.isSome)
    (hEmpty : ∀ dest, iarrayEmpty E c.dtshape st = .ok dest → Inv dest)
    (h : iarrayCopy E c view st = .ok b) : Inv b := by
  unfold iarrayCopy at h
  rw [if_pos hView] at h
  split at h
  · cases h
  obtain ⟨dest, hDest, h⟩ := Result.bind_eq_ok.mp h
  split at h
  · cases h
    exact hEmpty _ hDest
  obtain ⟨iterRead, _, h⟩ := Result.bind_eq_ok.mp h
  obtain ⟨iterWrite, hWrite, h⟩ := Result.bind_eq_ok.mp h
  obtain ⟨⟨itr, _⟩, hLoop, h⟩ := Result.bind_eq_ok.mp h
  cases h
  refine writeLoop_invariant (fun itr => Inv itr.cont)
    (fun h => IterWriteBlock.hasNext_inv hInv h) (fun h => copyRound_inv hInv h) ?_ hLoop
  rw [iterWriteBlockNew_cont hWrite]
  exact hEmpty _ hDest

theorem copyRoundUnchecked_inv {E : Backend} {Inv : Container → Prop} (hInv : StoreStable E Inv)
    {itr itr' : IterWriteBlock} {s s' : IterReadBlock × Bool} (h : Inv itr.cont)
    (hr : copyRoundUnchecked E itr s = .ok (itr', s')) : Inv itr'.cont := by
  unfold copyRoundUnchecked at hr
  split at hr
  · rename_i hRound
    cases hr
    exact copyRound_inv hInv h hRound
  · cases hr
    exact h
  · cases hr

/-- The same of what a copy leaves that may have ended with an error. -/
theorem iarrayCopyUnchecked_inv {E : Backend} {Inv : Container → Prop} (hInv : StoreStable E Inv)
    {c b : Container} {st : Storage}
    (hEmpty : ∀ dest, iarrayEmpty E c.dtshape st = .ok dest → Inv dest)
    (h : iarrayCopyUnchecked E c st = .ok b) : Inv b := by
  unfold iarrayCopyUnchecked at h
  split at h
  · cases h
  · cases h
  · rename_i dest hDest
    split at h
    · cases h
      exact hEmpty _ hDest
    obtain ⟨iterRead, _, h⟩ := Result.bind_eq_ok.mp h
    obtain ⟨iterWrite, hWrite, h⟩ := Result.bind_eq_ok.mp h
    obtain ⟨⟨itr, _⟩, hLoop, h⟩ := Result.bind_eq_ok.mp h
    cases h
    refine writeLoop_invariant (fun itr => Inv itr.cont)
      (fun h => IterWriteBlock.hasNext_inv hInv h) (fun h => copyRoundUnchecked_inv hInv h) ?_ hLoop
    rw [iterWriteBlockNew_cont hWrite]
    exact hEmpty _ hDest

theorem iarrayCopy_plain {E : Backend} (hE : E.Lawful) {c b : Container} {view : Bool}
    {st : Storage} (hView : c.containerViewed.isSome) (h : iarrayCopy E c view st = .ok b) :
    PlainOf c.dtshape st b :=
  iarrayCopy_inv (PlainOf.stable hE c.dtshape st) hView
    (fun _ hDest => iarrayEmpty_plain hE hDest) h

theorem iarrayCopyUnchecked_plain {E : Backend} (hE : E.Lawful) {c b : Container} {st : Storage}
    (h : iarrayCopyUnchecked E c st = .ok b) : PlainOf c.dtshape st b :=
  iarrayCopyUnchecked_inv (PlainOf.stable hE c.dtshape st)
    (fun _ hDest => iarrayEmpty_plain hE hDest) h

end IronArray
