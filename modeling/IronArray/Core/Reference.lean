import IronArray.Core.Container

/-!
# A backend that keeps its promises

`reference` implements the Caterva and MKL calls on the array model itself, for integer and
boolean data. `reference_lawful` shows that the assumptions of `Backend.Lawful` can be met.
-/

namespace IronArray

open Grid

namespace Reference

/-! ## Tilings from lists -/

def mkAxes : List Nat → List Int → List Int → Option (List Axis)
  | [], [], [] => some []
  | n :: ns, .ofNat c :: cs, .ofNat b :: bs =>
    if h : (0 < n → 0 < c) ∧ (0 < n → 0 < b) then
      (mkAxes ns cs bs).map (⟨n, c, b, h.1, h.2⟩ :: ·)
    else none
  | _, _, _ => none

theorem mkAxes_spec {ns : List Nat} {cs bs : List Int} {as : List Axis}
    (h : mkAxes ns cs bs = some as) :
    shapeOf as = ns ∧ ints (chunkshapeOf as) = cs ∧ ints (blockshapeOf as) = bs := by
  fun_induction mkAxes ns cs bs generalizing as with
  | case1 =>
    cases h
    exact ⟨rfl, rfl, rfl⟩
  | case2 n ns c cs b bs hpos ih =>
    obtain ⟨as, has, rfl⟩ := Option.map_eq_some_iff.mp h
    obtain ⟨rfl, rfl, rfl⟩ := ih has
    exact ⟨rfl, rfl, rfl⟩
  | case3 => cases h
  | case4 => cases h

/-! ## The calls -/

def create (itemsize : Nat) (shape : List Nat) (st : CatervaStorage) (f : List Nat → Cell) :
    Result CatArray :=
  match mkAxes shape st.chunkshape st.blockshape with
  | some axes => if 0 < itemsize then .ok (.ofFn axes itemsize f) else inaError .catervaFailed
  | none => inaError .catervaFailed

def starts (l : List Int) : List Nat := l.map Int.toNat

def extents (start stop : List Int) : List Nat :=
  List.zipWith (fun a b => (b - a).toNat) start stop

def value (r : Result Cell) : Cell :=
  match r with
  | .ok c => c
  | .error _ => .bits 0

/-- Fail where a cell of the region cannot be read. -/
def readable (a : CatArray) (s n : List Nat) : Result Unit :=
  forM (box n) fun x => a.cell (addIdx s x) >>= fun _ => pure ()

def getSliceBuffer (a : CatArray) (start stop : List Int) (buffer : Nat → Cell) (m : List Int)
    (_ : Int) : Result (Nat → Cell) := do
  readable a (starts start) (extents start stop)
  pure fun k =>
    if InBox (unflat (starts m) k) (extents start stop) then
      value (a.cell (addIdx (starts start) (unflat (starts m) k)))
    else buffer k

def toBuffer (a : CatArray) (_ : Nat → Cell) (_ : Int) : Result (Nat → Cell) := do
  readable a (List.replicate a.shape.length 0) a.shape
  pure fun k => value (a.cell (unflat a.shape k))

/-- The extents along every axis of the array. -/
def sides (a : CatArray) (start stop : List Int) : List Nat :=
  (List.range a.ndim).map fun i => (stop.getD i 0 - start.getD i 0).toNat

def getSlice (a : CatArray) (start stop : List Int) (st : CatervaStorage) : Result CatArray := do
  readable a (starts start) (sides a start stop)
  create a.itemsize (sides a start stop) st fun x => value (a.cell (addIdx (starts start) x))

def squeezeIndex (a : CatArray) (mask : List Bool) : Result CatArray :=
  create a.itemsize (keep mask a.shape)
    ⟨ints (keep mask a.chunkshape), ints (keep mask a.blockshape)⟩
    fun x => value (a.cell (spread 0 mask x))

def copy (a : CatArray) (st : CatervaStorage) : Result CatArray :=
  create a.itemsize a.shape st fun x => value (a.cell x)

def setSliceBuffer (a : CatArray) (buffer : Nat → Cell) (m : List Nat) (_ : Nat)
    (start stop : List Nat) : Result CatArray :=
  .ok (.ofFn a.axes a.itemsize fun x =>
    if addIdx start (within start x) = x ∧
        InBox (within start x) (List.zipWith (· - ·) stop start) then
      buffer (flat m (within start x))
    else value (a.cell x))

def omatcopy (rows cols : Int) (src _ : Nat → Cell) (k : Nat) : Cell :=
  src (k % rows.toNat * cols.toNat + k / rows.toNat)

def backend : Backend where
  empty itemsize shape st := create itemsize shape st fun _ => .bits 0
  getSliceBuffer := getSliceBuffer
  toBuffer := toBuffer
  getSlice := getSlice
  squeezeIndex := squeezeIndex
  copy := copy
  setSliceBuffer := setSliceBuffer
  omatcopy := omatcopy
  malloc _ := .bits 0
  spareLength := 1
  maxOverhead := 32
  machine := ⟨fun _ _ c => c, fun _ _ => 0, id, .fin⟩

/-! ## Lawfulness -/

theorem create_ok {itemsize : Nat} {shape : List Nat} {st : CatervaStorage} {f : List Nat → Cell}
    {a : CatArray} (h : create itemsize shape st f = .ok a) :
    Fresh a itemsize shape st ∧ ∀ x, InBox x shape → a.cell x = .ok (f x) := by
  unfold create at h
  split at h
  · rename_i axes hAxes
    split at h
    · rename_i hPos
      cases h
      obtain ⟨hs, hc, hb⟩ := mkAxes_spec hAxes
      have hStorage : CatArray.storage (.ofFn axes itemsize f) = st := by
        rw [CatArray.storage, CatArray.chunkshape, CatArray.blockshape]
        exact congrArg₂ CatervaStorage.mk hc hb
      refine ⟨⟨hs, hStorage, rfl, ⟨hPos, rfl⟩, rfl⟩, fun x hx => ?_⟩
      rw [← hs] at hx
      exact CatArray.cell_ofFn hPos hx
    · cases h
  · cases h

theorem starts_ints (s : List Nat) : starts (ints s) = s := by
  simp [starts, ints, Function.comp_def]

theorem extents_ints {s n : List Nat} (h : s.length = n.length) :
    extents (ints s) (ints (addIdx s n)) = n := by
  induction s generalizing n with
  | nil =>
    obtain rfl := List.length_eq_zero_iff.mp h.symm
    rfl
  | cons i s ih =>
    obtain ⟨k, n, rfl⟩ := List.exists_cons_of_length_eq_add_one h.symm
    have hRest := ih (n := n) (by simpa using h)
    simp only [extents, ints_cons, addIdx_cons, List.zipWith_cons_cons] at hRest ⊢
    rw [hRest]
    simp

theorem sides_ints {a : CatArray} {s n : List Nat} (hRegion : Region s n a.shape) :
    sides a (ints s) (ints (addIdx s n)) = n := by
  have hLen : a.ndim = n.length := by
    rw [hRegion.length, CatArray.shape, length_shapeOf, CatArray.ndim]
  have hExtents := extents_ints (hRegion.start_length.trans hRegion.length.symm)
  refine List.ext_getElem (by rw [sides, List.length_map, List.length_range, hLen]) ?_
  intro i hi hi'
  have hStart : i < s.length := by
    rw [hRegion.start_length, ← hRegion.length]
    exact hi'
  have hStop : i < (addIdx s n).length := by
    simp only [addIdx, List.length_zipWith]
    omega
  rw [← List.getElem_of_eq hExtents (by rwa [hExtents])]
  simp only [sides, extents, List.getElem_map, List.getElem_range, List.getElem_zipWith]
  rw [List.getD_eq_getElem _ _ (by simpa using hStop),
    List.getD_eq_getElem _ _ (by simpa using hStart)]

theorem readable_ok {a : CatArray} {s n : List Nat} {f : List Nat → Cell}
    (h : ∀ x, InBox x n → a.cell (addIdx s x) = .ok (f x)) : readable a s n = .ok () := by
  refine Result.forM_ok fun x hx => ?_
  rw [h x (mem_box.mp hx)]
  rfl

theorem create_isOk {itemsize : Nat} {shape : List Nat} {st : CatervaStorage} (f g : List Nat → Cell) :
    (∃ a, create itemsize shape st f = .ok a) ↔ ∃ a, create itemsize shape st g = .ok a := by
  unfold create
  split
  · split <;> simp
  · simp [inaError]

theorem lawful : backend.Lawful where
  empty h := (create_ok h).1
  getSliceBuffer := by
    intro a s n m buffer buflen f hRegion _ hm _ hCells
    have hLen : s.length = n.length := hRegion.start_length.trans hRegion.length.symm
    have hRead := readable_ok hCells
    refine ⟨_, by
      simp only [backend, getSliceBuffer, starts_ints, extents_ints hLen, hRead, Result.ok_bind]
      rfl, ?_⟩
    intro x hx
    rw [unflat_flat (inBox_mono hx hm), if_pos hx, hCells x hx]
    rfl
  toBuffer := by
    intro a buffer buflen f _ _ hCells
    have hRead : readable a (List.replicate a.shape.length 0) a.shape = .ok () :=
      readable_ok (f := f) fun x hx => by
        rw [addIdx_replicate_zero hx.length_eq]
        exact hCells x hx
    refine ⟨_, by
      simp only [backend, toBuffer, hRead, Result.ok_bind]
      rfl, ?_⟩
    intro x hx
    rw [unflat_flat hx, hCells x hx]
    rfl
  getSlice := by
    intro a b s n st hRegion h
    simp only [backend, getSlice, starts_ints, sides_ints hRegion] at h
    obtain ⟨_, _, h⟩ := Result.bind_eq_ok.mp h
    obtain ⟨hFresh, hCells⟩ := create_ok h
    refine ⟨hFresh, fun x c hx hc => ?_⟩
    rw [hCells x hx, hc]
    rfl
  squeezeIndex := by
    intro a b mask hLen hUnit _ _ h
    obtain ⟨hFresh, hCells⟩ := create_ok h
    refine ⟨hFresh, fun x c hx hc => ?_⟩
    have hLen' : a.shape.length = mask.length := by
      rw [hLen, CatArray.shape, length_shapeOf, CatArray.ndim]
    rw [hCells _ (inBox_keep hx), spread_keep_of_inBox hLen' hUnit hx, hc]
    rfl
  copy := by
    intro a b st _ _ h
    obtain ⟨hFresh, hCells⟩ := create_ok h
    refine ⟨hFresh, fun x c hx hc => ?_⟩
    rw [hCells x hx, hc]
    rfl
  copy_accepts := by
    intro a st _ _
    exact create_isOk _ _
  setSliceBuffer_fresh := by
    intro a b itemsize shape m s t st buffer buflen hFresh h
    cases h
    exact ⟨hFresh.shape, hFresh.storage, hFresh.itemsize, ⟨hFresh.sized.1, rfl⟩, rfl⟩
  setSliceBuffer := by
    intro a s n buffer buflen hSized _ hRegion _ _
    have hLen : s.length = n.length := hRegion.start_length.trans hRegion.length.symm
    have hExtent : List.zipWith (· - ·) (addIdx s n) s = n := within_addIdx hLen
    refine ⟨_, rfl, fun x hx => ?_, fun x c hx hOut hc => ?_⟩
    · have hWithin : within s (addIdx s x) = x := within_addIdx (hLen.trans hx.length_eq.symm)
      rw [CatArray.cell_ofFn hSized.1 (hRegion.inBox hx), hExtent, hWithin,
        if_pos ⟨rfl, hx⟩]
    · rw [CatArray.cell_ofFn hSized.1 hx, hExtent, if_neg, hc]
      · rfl
      · rintro ⟨hEq, hIn⟩
        exact hOut _ hIn hEq
  omatcopy := by
    intro rows cols src dst i j hi _
    simp only [backend, omatcopy, Int.toNat_natCast, Nat.mul_add_mod_of_lt hi,
      mul_add_div_of_lt hi]

/-- A plain container of the reference backend. -/
def plain (dtype : Dtype) (axes : List Axis) (f : List Nat → Cell) : Container :=
  newContainer ⟨dtype, shapeOf axes⟩ ⟨chunkshapeOf axes, blockshapeOf axes⟩
    (.ofFn axes dtype.size f)

theorem mkAxes_self (as : List Axis) :
    mkAxes (shapeOf as) (ints (chunkshapeOf as)) (ints (blockshapeOf as)) = some as := by
  induction as with
  | nil => rfl
  | cons a as ih =>
    change mkAxes (a.shape :: shapeOf as) (.ofNat a.chunkshape :: ints (chunkshapeOf as))
      (.ofNat a.blockshape :: ints (blockshapeOf as)) = _
    rw [mkAxes, dif_pos ⟨a.chunk_pos, a.block_pos⟩, ih]
    rfl

theorem plain_plain (dtype : Dtype) {axes : List Axis} (f : List Nat → Cell)
    (h : axes.length ≤ dimensionMax) (hShort : ShortTiles axes) : Plain (plain dtype axes f) :=
  plain_newContainer ((length_shapeOf axes).trans_le h)
    ⟨rfl, (iarrayCreateCatervaStorage_fits hShort.fits).symm, rfl, ⟨dtype.size_pos, rfl⟩, rfl⟩

theorem made_plain (dtype : Dtype) {axes : List Axis} (f : List Nat → Cell)
    (hShort : ShortTiles axes) : Made backend (plain dtype axes f) := by
  refine ⟨.ofFn axes dtype.size fun _ => .bits 0, ?_⟩
  change create dtype.size (shapeOf axes) (iarrayCreateCatervaStorage
    ⟨chunkshapeOf axes, blockshapeOf axes⟩) _ = _
  rw [iarrayCreateCatervaStorage_fits hShort.fits]
  simp only [create, mkAxes_self]
  rw [if_pos dtype.size_pos]

end Reference

end IronArray
