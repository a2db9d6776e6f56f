import IronArray.Iterators.Alike

/-!
# Sessions of the element write iterator

What a script of the element write iterator does to the container: its array changes in its stored
items only, and `defined_iff` tells the scripts that never run into undefined behaviour.
-/

namespace IronArray

open Grid CatArray

/-! ## What Caterva does -/

/-- Caterva writes the stored items of an array and nothing else. -/
def Backend.WritesItems (E : Backend) : Prop :=
  ∀ {a b : CatArray} {buffer : Nat → Cell} {m : List Nat} {buflen : Nat} {s t : List Nat},
    E.setSliceBuffer a buffer m buflen s t = .ok b →
    b.axes = a.axes ∧ b.sc = { a.sc with chunk := b.sc.chunk }

/-- Caterva stores the items of a region in an array if the buffer holds them. -/
def Backend.StoresRegions (E : Backend) : Prop :=
  ∀ {a : CatArray} {s n : List Nat} (buffer : Nat → Cell) {buflen : Nat}, Region s n a.shape →
    n.prod * a.itemsize ≤ buflen →
    (∀ u, E.setSliceBuffer a buffer n buflen s (addIdx s n) ≠ crash u) ∧
      ((∀ k ∈ n, 0 < k) → ∃ b, E.setSliceBuffer a buffer n buflen s (addIdx s n) = .ok b)

/-! ## Stored items -/

variable {E : Backend} {v : Container}

/-- Only the stored items of the array of a container have changed. -/
structure ItemsOnly (v c : Container) : Prop where
  fields : c = { v with catarr := c.catarr }
  axes : c.catarr.axes = v.catarr.axes
  sc : c.catarr.sc = { v.catarr.sc with chunk := c.catarr.sc.chunk }

theorem ItemsOnly.refl (v : Container) : ItemsOnly v v :=
  ⟨by cases v; rfl, rfl, rfl⟩

/-- A script starts with the view as it is. -/
theorem WriteSession.start_itemsOnly (v : Container) :
    ItemsOnly v (WriteSession.start v).itr.container := ItemsOnly.refl v

theorem ItemsOnly.setSliceBuffer (hW : E.WritesItems) {c : Container} (h : ItemsOnly v c)
    {a : CatArray} {buffer : Nat → Cell} {m : List Nat} {buflen : Nat} {s t : List Nat}
    (ha : E.setSliceBuffer c.catarr buffer m buflen s t = .ok a) :
    ItemsOnly v { c with catarr := a } := by
  obtain ⟨hAxes, hSc⟩ := hW ha
  refine ⟨?_, hAxes.trans h.axes, ?_⟩
  · rw [h.fields]
  · change a.sc = _
    rw [hSc, h.sc]

namespace IterWrite

theorem store_itemsOnly (hW : E.WritesItems) {itr itr' : IterWrite}
    (h : ItemsOnly v itr.container) (hs : itr.store E = .ok itr') :
    ItemsOnly v itr'.container := by
  unfold store at hs
  split at hs
  · cases hs
  · simp only at hs
    split at hs
    · rename_i a ha
      cases hs
      exact h.setSliceBuffer hW ha
    · cases hs
    · cases hs

theorem nextBlock_container {itr itr' : IterWrite} (h : itr.nextBlock = .ok itr') :
    itr'.container = itr.container := by
  obtain ⟨counts, _, h⟩ := Result.bind_eq_ok.mp h
  split at h
  · cases h
  · cases h
    rfl

theorem next_itemsOnly (hW : E.WritesItems) {itr itr' : IterWrite}
    (h : ItemsOnly v itr.container) (hn : itr.next E = .ok itr') : ItemsOnly v itr'.container := by
  obtain ⟨itr₁, hAdvance, hn⟩ := Result.bind_eq_ok.mp hn
  have hAdvanced : ItemsOnly v itr₁.container := by
    unfold advance at hAdvance
    split at hAdvance
    · obtain ⟨itr₂, hStore, hNext⟩ := Result.bind_eq_ok.mp hAdvance
      rw [nextBlock_container hNext]
      exact store_itemsOnly hW h hStore
    · split at hAdvance <;> cases hAdvance <;> exact h
  split at hn
  · cases hn
  · cases hn
    exact hAdvanced

theorem hasNext_itemsOnly (hW : E.WritesItems) {itr itr' : IterWrite} {more : Bool}
    (h : ItemsOnly v itr.container) (hn : itr.hasNext E = .ok (itr', more)) :
    ItemsOnly v itr'.container := by
  unfold hasNext at hn
  split at hn
  · obtain ⟨itr₁, hStore, hn⟩ := Result.bind_eq_ok.mp hn
    cases hn
    exact store_itemsOnly hW h hStore
  · cases hn
    exact h

end IterWrite

namespace WriteSession

theorem moveTo_itr (s : WriteSession) (stores : Bool) (itr : IterWrite) :
    (s.moveTo stores itr).itr = itr := by
  cases stores <;> rfl

/-- One action touches the stored items only. -/
theorem act_itemsOnly (hW : E.WritesItems) {s s' : WriteSession} {action : WriteAction}
    (h : ItemsOnly v s.itr.container) (ha : s.act E action = .ok s') :
    ItemsOnly v s'.itr.container := by
  cases action with
  | hasNext =>
    obtain ⟨⟨itr, more⟩, hNext, ha⟩ := Result.bind_eq_ok.mp ha
    cases ha
    rw [moveTo_itr]
    exact IterWrite.hasNext_itemsOnly hW h hNext
  | next =>
    obtain ⟨itr, hNext, ha⟩ := Result.bind_eq_ok.mp ha
    cases ha
    rw [moveTo_itr]
    exact IterWrite.next_itemsOnly hW h hNext
  | set c =>
    simp only [act] at ha
    split at ha
    · cases ha
    · cases ha
      exact h

theorem run_itemsOnly (hW : E.WritesItems) {s : WriteSession} (h : ItemsOnly v s.itr.container)
    (script : List WriteAction) : ItemsOnly v (s.run E script).itr.container := by
  induction script generalizing s with
  | nil => exact h
  | cons action script ih =>
    rw [run]
    split
    · rename_i s' ha
      exact ih (act_itemsOnly hW h ha)
    · exact ih h
    · exact h

end WriteSession

/-! ## Scripts without undefined behaviour -/

/-- No action of the script is undefined. -/
def WriteSession.Defined (E : Backend) (s : WriteSession) : List WriteAction → Prop
  | [] => True
  | action :: script =>
    match s.act E action with
    | .ok s' => s'.Defined E script
    | .error (.code _) => s.Defined E script
    | .error (.undefined _) => False

/-- The container has fewer axes than its array. -/
def Container.Squeezed (v : Container) : Prop := v.dtshape.ndim < v.catarr.ndim

instance (v : Container) : Decidable v.Squeezed := Nat.decLt _ _

/-- The call is defined after `k` calls of `next`: there is an element to go to or to assign to, and
the array is complete in its axes if the call stores a chunk. -/
def Allowed (v : Container) (k : Nat) : WriteAction → Prop
  | .hasNext => k = v.catarr.shape.prod → ¬ v.Squeezed
  | .next => 0 < v.catarr.shape.prod ∧ (max k 1 = chunkLen v.catarr.axes 0 → ¬ v.Squeezed)
  | .set _ => k ≠ 0

instance (v : Container) (k : Nat) : (action : WriteAction) → Decidable (Allowed v k action)
  | .hasNext => inferInstanceAs (Decidable (_ = _ → ¬ v.Squeezed))
  | .next => inferInstanceAs (Decidable (_ < _ ∧ (_ = _ → ¬ v.Squeezed)))
  | .set _ => inferInstanceAs (Decidable (k ≠ 0))

/-- The calls of `next` with the action. -/
def WriteAction.nexts : WriteAction → Nat
  | .next => 1
  | _ => 0

/-- Every call of the script is defined, after `k` calls of `next`. -/
def Orderly (v : Container) : Nat → List WriteAction → Prop
  | _, [] => True
  | k, action :: script => Allowed v k action ∧ Orderly v (k + action.nexts) script

instance Orderly.decidable (v : Container) : (k : Nat) → (script : List WriteAction) →
    Decidable (Orderly v k script)
  | _, [] => .isTrue trivial
  | k, action :: script =>
    have := Orderly.decidable v (k + action.nexts) script
    inferInstanceAs (Decidable (Allowed v k action ∧ Orderly v (k + action.nexts) script))

/-- The iterator after `k` calls of `next`. Nothing has been stored through a squeezed container, and
there is no element in an empty one. -/
structure SessionAt (v : Container) (k : Nat) (itr : IterWrite) : Prop where
  items : ItemsOnly v itr.container
  nelem : itr.nelem = k
  pointer : itr.pointer = none ↔ k = 0
  place : 0 < v.catarr.shape.prod → ∃ i j, AtPlace v.catarr.axes i j itr ∧
    (v.Squeezed → i = 0 ∧ j = k - 1)
  empty : v.catarr.shape.prod = 0 → k = 0 ∧ itr.nelemBlock = 0 ∧
    itr.curBlockIndex = unflat (v.catarr.axes.map Axis.chunks) 0 ∧
    itr.curBlockShape = chunkExtent v.catarr.axes 0 ∧
    itr.curBlockSize = chunkLen v.catarr.axes 0

section Defined

variable {k : Nat} {itr : IterWrite}

theorem axes_pos_of_prod {axes : List Axis} (h : 0 < (shapeOf axes).prod) :
    ∀ x ∈ axes, 0 < x.shape :=
  fun _ hx => pos_of_lt_prod h _ (List.mem_map_of_mem hx)

theorem chunkExtent_first (axes : List Axis) :
    chunkExtent axes 0 =
      axes.map fun x => if x.shape < x.chunkshape then x.shape else x.chunkshape := by
  rw [chunkExtent_zero, chunkshapeOf, shapeOf, List.zipWith_map, List.zipWith_self]

/-- The first chunk lies inside the array, also if it is empty. -/
theorem region_firstChunk (axes : List Axis) :
    Region (chunkStart axes 0) (chunkExtent axes 0) (shapeOf axes) := by
  have hStart : chunkStart axes 0 = List.replicate (shapeOf axes).length 0 := by
    rw [chunkStart, unflat_zero, tileStart, shapeOf, List.length_map, List.length_map]
    induction axes with
    | nil => rfl
    | cons x axes ih => exact congrArg₂ List.cons (Nat.zero_mul _) ih
  have hLen : (chunkExtent axes 0).length = (shapeOf axes).length := by
    rw [chunkExtent_first, shapeOf, List.length_map, List.length_map]
  rw [hStart]
  refine ⟨List.length_replicate, hLen, ?_⟩
  rw [addIdx_replicate_zero hLen, chunkExtent_first, shapeOf, List.forall₂_map_left_iff,
    List.forall₂_map_right_iff, List.forall₂_same]
  intro x _
  split <;> omega

/-- The first chunk of an empty array is empty. -/
theorem zero_mem_firstChunk {axes : List Axis} (h : (shapeOf axes).prod = 0) :
    0 ∈ chunkExtent axes 0 := by
  rw [shapeOf, List.prod_eq_zero_iff] at h
  obtain ⟨x, hx, hZero⟩ := List.mem_map.mp h
  rw [chunkExtent_first]
  refine List.mem_map.mpr ⟨x, hx, ?_⟩
  split <;> omega

/-- The buffer is not stored for want of axes. -/
theorem SessionAt.store_squeezed (h : SessionAt v k itr) (hSqueezed : v.Squeezed) :
    itr.store E = crash .outOfBounds := by
  have hRank : itr.container.dtshape.ndim < itr.container.catarr.ndim := by
    rw [h.items.fields, CatArray.ndim, h.items.axes]
    exact hSqueezed
  rw [IterWrite.store, if_pos hRank]

/-- The iterator is in a chunk that lies inside the array. -/
theorem SessionAt.chunk (h : SessionAt v k itr) : ∃ i,
    itr.curBlockIndex = unflat (v.catarr.axes.map Axis.chunks) i ∧
    itr.curBlockShape = chunkExtent v.catarr.axes i ∧
    itr.curBlockSize = (chunkExtent v.catarr.axes i).prod ∧
    Region (chunkStart v.catarr.axes i) (chunkExtent v.catarr.axes i) v.catarr.shape ∧
    (0 < v.catarr.shape.prod → ∀ n ∈ chunkExtent v.catarr.axes i, 0 < n) := by
  rcases Nat.eq_zero_or_pos v.catarr.shape.prod with hZero | hSome
  · obtain ⟨-, -, hIndex, hShape, hSize⟩ := h.empty hZero
    exact ⟨0, hIndex, hShape, hSize, region_firstChunk _, fun hPos => absurd hZero hPos.ne'⟩
  · obtain ⟨i, j, hPlace, -⟩ := h.place hSome
    have hPos := axes_pos_of_prod hSome
    exact ⟨i, hPlace.index, hPlace.shape, hPlace.size, region_chunk hPos hPlace.piece,
      fun _ => chunkExtent_pos hPos hPlace.piece⟩

/-- Otherwise Caterva gets a region of the array, and an array that is not empty takes it. -/
theorem SessionAt.store_full (hS : E.StoresRegions) (hW : E.WritesItems) (h : SessionAt v k itr)
    (hFull : ¬ v.Squeezed) :
    (∃ c, itr.store E = .ok { itr with container := c } ∧ ItemsOnly v c) ∨
      v.catarr.shape.prod = 0 ∧ ∃ e, itr.store E = inaError e := by
  have hRank : ¬ itr.container.dtshape.ndim < itr.container.catarr.ndim := by
    rw [h.items.fields, CatArray.ndim, h.items.axes]
    exact hFull
  obtain ⟨i, hIndex, hShape, hSize, hRegion, hSome⟩ := h.chunk
  have hInside : Region (chunkStart v.catarr.axes i) (chunkExtent v.catarr.axes i)
      itr.container.catarr.shape := by
    rwa [CatArray.shape, h.items.axes]
  have hStart : List.zipWith (· * ·) itr.curBlockIndex itr.container.catarr.chunkshape =
      chunkStart v.catarr.axes i := by
    rw [hIndex, CatArray.chunkshape, h.items.axes]
    rfl
  obtain ⟨hDefined, hStores⟩ := hS itr.chunk hInside le_rfl
  have hStop : List.zipWith (· + ·) (chunkStart v.catarr.axes i) (chunkExtent v.catarr.axes i) =
      addIdx (chunkStart v.catarr.axes i) (chunkExtent v.catarr.axes i) := rfl
  rw [IterWrite.store, if_neg hRank]
  simp only [hStart, hShape, hSize, hStop]
  cases hSet : E.setSliceBuffer itr.container.catarr itr.chunk (chunkExtent v.catarr.axes i)
      ((chunkExtent v.catarr.axes i).prod * itr.container.catarr.itemsize)
      (chunkStart v.catarr.axes i)
      (addIdx (chunkStart v.catarr.axes i) (chunkExtent v.catarr.axes i)) with
  | ok a => exact .inl ⟨_, rfl, h.items.setSliceBuffer hW hSet⟩
  | error e =>
    cases e with
    | code e =>
      refine .inr ⟨Nat.eq_zero_of_not_pos fun hPos => ?_, _, rfl⟩
      obtain ⟨b, hb⟩ := hStores (hSome hPos)
      rw [hSet] at hb
      cases hb
    | undefined u => exact absurd hSet (hDefined u)

/-- Storing a chunk through a complete container. -/
theorem SessionAt.advance_last (hS : E.StoresRegions) (hW : E.WritesItems) (h : SessionAt v k itr)
    (hFull : ¬ v.Squeezed) (hSome : 0 < v.catarr.shape.prod)
    (hLast : itr.nelemBlock + 1 = itr.curBlockSize) :
    ∃ itr₁ i, itr.advance E = .ok itr₁ ∧ ItemsOnly v itr₁.container ∧ itr₁.nelem = k ∧
      AtPlace v.catarr.axes i 0 itr₁ := by
  obtain ⟨c, hStore, hItems⟩ | ⟨hZero, -⟩ := h.store_full hS hW hFull
  · obtain ⟨itr₁, hNext, hPlace, hSame, hCount⟩ := @IterWrite.nextBlock_ok v
      { itr with container := c } (axes_pos_of_prod hSome) hItems.axes
    refine ⟨itr₁, _, ?_, hSame ▸ hItems, hCount.trans h.nelem, hPlace⟩
    rw [IterWrite.advance, if_pos hLast, hStore]
    exact hNext
  · exact absurd hZero hSome.ne'

/-- The iterator goes on to an element. -/
theorem next_of_advance {itr₁ : IterWrite} {i j : Nat} (hSome : 0 < v.catarr.shape.prod)
    (hAdvance : itr.advance E = .ok itr₁) (hItems : ItemsOnly v itr₁.container)
    (hCount : itr₁.nelem = k) (hPlace : AtPlace v.catarr.axes i j itr₁)
    (hSqueezed : v.Squeezed → i = 0 ∧ j = k) :
    ∃ itr', itr.next E = .ok itr' ∧ SessionAt v (k + 1) itr' := by
  have hZero : 0 ∉ itr₁.curBlockShape := by
    rw [hPlace.shape]
    exact zero_notMem_chunkExtent (axes_pos_of_prod hSome) hPlace.piece
  rw [IterWrite.next, hAdvance, Result.ok_bind, if_neg hZero]
  exact ⟨_, rfl,
    { items := hItems
      nelem := congrArg (· + 1) hCount
      pointer := by simp
      place := fun _ => ⟨i, j, ⟨hPlace.piece, hPlace.place, hPlace.nblock, hPlace.nelemBlock,
        hPlace.index, hPlace.shape, hPlace.size⟩, hSqueezed⟩
      empty := fun hNone => absurd hNone hSome.ne' }⟩

/-- Inside a chunk the iterator only counts. -/
theorem advance_inside {i j : Nat} (hLast : itr.nelemBlock + 1 ≠ itr.curBlockSize)
    (hPlace : AtPlace v.catarr.axes i j itr) :
    ∃ itr₁, itr.advance E = .ok itr₁ ∧ itr₁.container = itr.container ∧ itr₁.nelem = itr.nelem ∧
      AtPlace v.catarr.axes i (if itr.nelem = 0 then j else j + 1) itr₁ := by
  have hMore : j + 1 < chunkLen v.catarr.axes i := by
    have hRoom := hPlace.place
    rw [hPlace.nelemBlock, hPlace.size] at hLast
    omega
  rw [IterWrite.advance, if_neg hLast]
  by_cases hFirst : itr.nelem = 0
  · rw [if_neg (not_not.mpr hFirst), if_pos hFirst]
    exact ⟨itr, rfl, rfl, rfl, hPlace⟩
  · rw [if_pos hFirst, if_neg hFirst]
    exact ⟨_, rfl, rfl, rfl, hPlace.piece, hMore, hPlace.nblock,
      congrArg (· + 1) hPlace.nelemBlock, hPlace.index, hPlace.shape, hPlace.size⟩

/-- Nothing has been stored through a squeezed container, so that its iterator is in the first
chunk. -/
theorem SessionAt.last_squeezed (h : SessionAt v k itr) (hSome : 0 < v.catarr.shape.prod)
    (hSqueezed : v.Squeezed) :
    itr.nelemBlock + 1 = itr.curBlockSize ↔ max k 1 = chunkLen v.catarr.axes 0 := by
  obtain ⟨i, j, hPlace, hFirst⟩ := h.place hSome
  obtain ⟨rfl, rfl⟩ := hFirst hSqueezed
  rw [hPlace.nelemBlock, hPlace.size]
  omega

/-- An allowed call of `next` succeeds. -/
theorem SessionAt.next_ok (hS : E.StoresRegions) (hW : E.WritesItems) (h : SessionAt v k itr)
    (hAllowed : Allowed v k .next) : ∃ itr', itr.next E = .ok itr' ∧ SessionAt v (k + 1) itr' := by
  obtain ⟨hSome, hComplete⟩ := hAllowed
  by_cases hLast : itr.nelemBlock + 1 = itr.curBlockSize
  · have hFull : ¬ v.Squeezed := fun hSqueezed =>
      hComplete ((h.last_squeezed hSome hSqueezed).mp hLast) hSqueezed
    obtain ⟨itr₁, i, hAdvance, hItems, hCount, hPlace⟩ := h.advance_last hS hW hFull hSome hLast
    exact next_of_advance hSome hAdvance hItems hCount hPlace fun hSqueezed => absurd hSqueezed hFull
  · obtain ⟨i, j, hPlace, hFirst⟩ := h.place hSome
    obtain ⟨itr₁, hAdvance, hSame, hCount, hPlace₁⟩ := @advance_inside E v itr i j hLast hPlace
    refine next_of_advance hSome hAdvance (hSame ▸ h.items) (hCount.trans h.nelem) hPlace₁
      fun hSqueezed => ?_
    obtain ⟨rfl, rfl⟩ := hFirst hSqueezed
    have hNelem := h.nelem
    refine ⟨rfl, ?_⟩
    split <;> omega

/-- Any other call of `next` is undefined: an empty chunk is divided by, or the region of a squeezed
container is not set. -/
theorem SessionAt.next_crash (h : SessionAt v k itr) (hRefused : ¬ Allowed v k .next) :
    ∃ u, itr.next E = crash u := by
  rcases Nat.eq_zero_or_pos v.catarr.shape.prod with hZero | hSome
  · obtain ⟨rfl, hBlock, -, hShape, hSize⟩ := h.empty hZero
    have hNone := zero_mem_firstChunk hZero
    have hLast : itr.nelemBlock + 1 ≠ itr.curBlockSize := by
      rw [hSize, chunkLen, List.prod_eq_zero hNone]
      exact Nat.succ_ne_zero _
    refine ⟨.divisionByZero, ?_⟩
    rw [IterWrite.next, IterWrite.advance, if_neg hLast, if_neg (not_not.mpr h.nelem),
      Result.ok_bind, if_pos (hShape ▸ hNone)]
  · obtain ⟨hComplete, hSqueezed⟩ : max k 1 = chunkLen v.catarr.axes 0 ∧ v.Squeezed := by
      by_contra hNot
      exact hRefused ⟨hSome, fun hComplete hSqueezed => hNot ⟨hComplete, hSqueezed⟩⟩
    refine ⟨.outOfBounds, ?_⟩
    rw [IterWrite.next, IterWrite.advance, if_pos ((h.last_squeezed hSome hSqueezed).mpr hComplete),
      h.store_squeezed hSqueezed]
    rfl

/-- `has_next` only fails for an empty array. -/
theorem SessionAt.hasNext_ok (hS : E.StoresRegions) (hW : E.WritesItems) (h : SessionAt v k itr)
    (hAllowed : Allowed v k .hasNext) :
    (∃ itr' more, itr.hasNext E = .ok (itr', more) ∧ SessionAt v k itr') ∨
      ∃ e, itr.hasNext E = inaError e := by
  have hShape : itr.container.catarr.shape = v.catarr.shape := congrArg shapeOf h.items.axes
  rw [IterWrite.hasNext, hShape, h.nelem]
  by_cases hEnd : k = v.catarr.shape.prod
  · rw [if_pos hEnd]
    obtain ⟨c, hStore, hItems⟩ | ⟨-, e, hStore⟩ := h.store_full hS hW (hAllowed hEnd)
    · rw [hStore]
      refine .inl ⟨_, _, rfl, ?_⟩
      exact { items := hItems, nelem := h.nelem, pointer := h.pointer, empty := h.empty
              place := fun hSome => (h.place hSome).imp fun i => Exists.imp fun j hPlace =>
                ⟨⟨hPlace.1.piece, hPlace.1.place, hPlace.1.nblock, hPlace.1.nelemBlock,
                  hPlace.1.index, hPlace.1.shape, hPlace.1.size⟩, hPlace.2⟩ }
    · rw [hStore]
      exact .inr ⟨e, rfl⟩
  · rw [if_neg hEnd]
    exact .inl ⟨_, _, rfl, h⟩

theorem SessionAt.hasNext_crash (h : SessionAt v k itr) (hRefused : ¬ Allowed v k .hasNext) :
    ∃ u, itr.hasNext E = crash u := by
  obtain ⟨hEnd, hSqueezed⟩ : k = v.catarr.shape.prod ∧ v.Squeezed := by
    by_contra hNot
    exact hRefused fun hEnd hSqueezed => hNot ⟨hEnd, hSqueezed⟩
  have hShape : itr.container.catarr.shape = v.catarr.shape := congrArg shapeOf h.items.axes
  refine ⟨.outOfBounds, ?_⟩
  rw [IterWrite.hasNext, hShape, if_pos (h.nelem.trans hEnd), h.store_squeezed hSqueezed]
  rfl

/-- One action: undefined exactly if it is not allowed, and otherwise the session is at the next
call. -/
theorem SessionAt.act {s : WriteSession} (hS : E.StoresRegions) (hW : E.WritesItems)
    (h : SessionAt v k s.itr) (action : WriteAction) :
    (Allowed v k action ∧ ((∃ s', s.act E action = .ok s' ∧ SessionAt v (k + action.nexts) s'.itr) ∨
        ∃ e, s.act E action = inaError e ∧ SessionAt v (k + action.nexts) s.itr)) ∨
      ¬ Allowed v k action ∧ ∃ u, s.act E action = crash u := by
  by_cases hAllowed : Allowed v k action
  · refine .inl ⟨hAllowed, ?_⟩
    cases action with
    | hasNext =>
      obtain ⟨itr', more, hNext, h'⟩ | ⟨e, hNext⟩ := h.hasNext_ok hS hW hAllowed
      · refine .inl ⟨_, by rw [WriteSession.act, hNext]; rfl, ?_⟩
        rwa [WriteSession.moveTo_itr]
      · exact .inr ⟨e, by rw [WriteSession.act, hNext]; rfl, h⟩
    | next =>
      obtain ⟨itr', hNext, h'⟩ := h.next_ok hS hW hAllowed
      refine .inl ⟨_, by rw [WriteSession.act, hNext]; rfl, ?_⟩
      rwa [WriteSession.moveTo_itr]
    | set c =>
      cases hPointer : s.itr.pointer with
      | none => exact absurd (h.pointer.mp hPointer) hAllowed
      | some p =>
        refine .inl ⟨_, by rw [WriteSession.act, hPointer], ?_⟩
        exact { items := h.items, nelem := h.nelem, pointer := h.pointer, empty := h.empty
                place := fun hSome => (h.place hSome).imp fun i => Exists.imp fun j hPlace =>
                  ⟨⟨hPlace.1.piece, hPlace.1.place, hPlace.1.nblock, hPlace.1.nelemBlock,
                    hPlace.1.index, hPlace.1.shape, hPlace.1.size⟩, hPlace.2⟩ }
  · refine .inr ⟨hAllowed, ?_⟩
    cases action with
    | hasNext =>
      obtain ⟨u, hNext⟩ := @SessionAt.hasNext_crash E v k s.itr h hAllowed
      exact ⟨u, by rw [WriteSession.act, hNext]; rfl⟩
    | next =>
      obtain ⟨u, hNext⟩ := @SessionAt.next_crash E v k s.itr h hAllowed
      exact ⟨u, by rw [WriteSession.act, hNext]; rfl⟩
    | set c =>
      refine ⟨.nullPointer, ?_⟩
      rw [WriteSession.act, h.pointer.mpr (not_not.mp hAllowed)]

/-- The script has no undefined action exactly if every call of it is allowed. -/
theorem SessionAt.defined_iff (hS : E.StoresRegions) (hW : E.WritesItems) {s : WriteSession}
    (h : SessionAt v k s.itr) (script : List WriteAction) :
    s.Defined E script ↔ Orderly v k script := by
  induction script generalizing k s with
  | nil => exact Iff.rfl
  | cons action script ih =>
    rw [WriteSession.Defined, Orderly]
    obtain ⟨hAllowed, ⟨s', hAct, h'⟩ | ⟨e, hAct, h'⟩⟩ | ⟨hRefused, u, hAct⟩ := h.act hS hW action
    · rw [hAct]
      exact (ih h').trans (and_iff_right hAllowed).symm
    · rw [hAct]
      exact (ih h').trans (and_iff_right hAllowed).symm
    · rw [hAct]
      exact iff_of_false id fun hOrderly => hRefused hOrderly.1

theorem sessionAt_start (v : Container) : SessionAt v 0 (WriteSession.start v).itr where
  items := WriteSession.start_itemsOnly v
  nelem := rfl
  pointer := iff_of_true rfl rfl
  place hSome := ⟨0, 0, new_atPlace (axes_pos_of_prod hSome), fun _ => ⟨rfl, rfl⟩⟩
  empty _ := by
    have hExtent : (iarrayIterWriteNew v).curBlockShape = chunkExtent v.catarr.axes 0 :=
      (chunkExtent_zero _).symm
    refine ⟨rfl, rfl, ?_, hExtent, congrArg List.prod hExtent⟩
    rw [unflat_zero, List.length_map]
    rfl

end Defined

end IronArray
