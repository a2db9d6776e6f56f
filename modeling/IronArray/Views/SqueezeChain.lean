import IronArray.Views.Run

/-!
# Chains of squeezes

`squeezes_reads`: as long as no call keeps an axis behind one that an earlier call removed,
a sequence of `iarray_squeeze_index` calls on a view is one call with the combined mask, the
view reads the squeezed array, and so do its slices where the index map is flat. The
counterexample removes the two leading axes one after the other.
-/

namespace IronArray

open Grid

/-! ## Sequences of masks -/

/-- Call `iarray_squeeze_index` with each mask in turn. -/
def squeezes (E : Backend) (c : Container) (masks : List (List Bool)) : Result Container :=
  masks.foldlM (iarraySqueezeIndex E) c

/-- Each mask marks axes of length one of the shape the masks before it leave, and every axis
it keeps still has its own number in the index map. -/
inductive UnitMasks : List Nat → List Nat → List (List Bool) → Prop
  | nil (index shape : List Nat) : UnitMasks index shape []
  | cons {index shape : List Nat} {mask : List Bool} {masks : List (List Bool)}
      (hMask : mask.length = shape.length) (hUnit : UnitOn mask shape)
      (hKeeps : keep mask index = keep mask (List.range shape.length))
      (hRest : UnitMasks (keep mask index) (keep mask shape) masks) :
      UnitMasks index shape (mask :: masks)

/-- Two masks in a row can be replaced by the combined one. -/
theorem UnitMasks.compose {index shape : List Nat} {mask mask' : List Bool}
    {masks : List (List Bool)} (h : UnitMasks index shape (mask :: mask' :: masks)) :
    UnitMasks index shape (Grid.compose mask mask' :: masks) := by
  cases h with
  | cons hMask hUnit hKeeps hRest =>
    cases hRest with
    | cons hMask' hUnit' hKeeps' hRest' =>
      have hCount : mask'.length = mask.count false := hMask'.trans (length_keep hMask.symm)
      refine .cons (by rw [length_compose, hMask])
        (unitOn_compose hMask.symm hCount hUnit hUnit') ?_ ?_
      · rw [keep_compose hCount, keep_compose hCount, hKeeps]
      · rwa [keep_compose hCount, keep_compose hCount]

theorem squeezes_twice {E : Backend} {c : Container} {mask mask' : List Bool}
    {masks : List (List Bool)} (hViewed : c.containerViewed.isSome)
    (hIndex : c.index.length = c.dtshape.ndim)
    (h : UnitMasks c.index c.dtshape.shape (mask :: mask' :: masks)) :
    squeezes E c (mask :: mask' :: masks) = squeezes E c (compose mask mask' :: masks) := by
  cases h with
  | cons hMask _ hKeeps hRest =>
    cases hRest with
    | cons hMask' _ hKeeps' _ =>
      have hCount : mask'.length = mask.count false := hMask'.trans (length_keep hMask.symm)
      have hFirst := squeezeIndex_view_eq (E := E) hViewed hMask hIndex
      have hNumbers : (c.squeezed mask).KeepsNumbers mask' := by
        rw [hKeeps] at hKeeps'
        exact hKeeps'
      simp only [squeezes, List.foldlM_cons]
      rw [hFirst, Result.ok_bind,
        squeezeIndex_twice hViewed hIndex hMask hCount hFirst hNumbers]

/-- A sequence of squeezes is one squeeze with the combined mask. -/
theorem squeezes_eq {E : Backend} {c : Container} {mask : List Bool} {masks : List (List Bool)}
    (hViewed : c.containerViewed.isSome) (hIndex : c.index.length = c.dtshape.ndim)
    (h : UnitMasks c.index c.dtshape.shape (mask :: masks)) :
    squeezes E c (mask :: masks) = iarraySqueezeIndex E c (masks.foldl compose mask) ∧
      UnitMasks c.index c.dtshape.shape [masks.foldl compose mask] := by
  induction masks generalizing mask with
  | nil =>
    refine ⟨?_, h⟩
    rw [squeezes, List.foldlM_cons]
    exact bind_pure _
  | cons mask' masks ih =>
    rw [squeezes_twice hViewed hIndex h]
    exact ih h.compose

theorem UnitMasks.squeeze_eq {A : NdArray Cell} {index : List Nat} {mask : List Bool}
    {masks : List (List Bool)} (h : UnitMasks index A.shape (mask :: masks)) :
    (mask :: masks).foldl NdArray.squeeze A = A.squeeze (masks.foldl Grid.compose mask) := by
  induction masks generalizing mask with
  | nil => rfl
  | cons mask' masks ih =>
    have hCount : mask'.length = mask.count false := by
      cases h with
      | cons hMask _ _ hRest =>
        cases hRest with
        | cons hMask' _ _ _ => exact hMask'.trans (length_keep hMask.symm)
    have hRest := ih h.compose
    rw [List.foldl_cons] at hRest
    rw [List.foldl_cons, List.foldl_cons, NdArray.squeeze_squeeze A hCount, hRest]
    rfl

/-! ## The squeezing law -/

/-- Any sequence of squeezes of a view removes its axes in turn, equals one squeeze with the
combined mask, and leaves a view whose slices are slices of what it reads. -/
theorem squeezes_reads {E : Backend} (hE : E.Lawful) {v : Container} {A : NdArray Cell}
    (hRun : Run E v A) (hViewed : v.containerViewed.isSome) (hTransposed : v.transposed = false)
    {mask : List Bool} {masks : List (List Bool)}
    (hMasks : UnitMasks v.index v.dtshape.shape (mask :: masks)) :
    ReadsAs E v A ∧ ∃ w B, B = (mask :: masks).foldl NdArray.squeeze A ∧
      squeezes E v (mask :: masks) = .ok w ∧
      iarraySqueezeIndex E v (masks.foldl compose mask) = .ok w ∧ ReadsAs E w B ∧
      ∀ start stop storage s n, Selects start stop B.shape s n →
        (w.Flat → ∀ u, iarrayGetSlice E w start stop true storage = .ok u →
          ReadsAs E u (B.slice s n)) ∧
        (w.catarr.ndim = w.dtshape.ndim →
          ∀ u, iarrayGetSlice E w start stop false storage = .ok u →
            ReadsAs E u (B.slice s n)) := by
  obtain ⟨mask₀, off, ws, hShows⟩ := (hRun.known hE).shows hTransposed
  have hReads := hShows.reads hE
  have hIndex : v.index.length = v.dtshape.ndim := by
    rw [hShows.index, length_keptIdx, hShows.dtshape_ndim]
  obtain ⟨hEq, hOnce⟩ := squeezes_eq (E := E) hViewed hIndex hMasks
  rw [hReads.shape] at hMasks hOnce
  have hSqueeze := hMasks.squeeze_eq
  refine ⟨hReads, ?_⟩
  rw [hSqueeze]
  cases hOnce with
  | cons hLen hUnit hKeeps _ =>
    rw [← hReads.shape] at hKeeps
    obtain ⟨w, hw, _, hSqueezed⟩ := hShows.squeeze_view (E := E) hViewed hLen hUnit hKeeps
    refine ⟨w, _, rfl, hEq.trans hw, hw, hSqueezed.reads hE, ?_⟩
    intro start stop storage s n hSel
    refine ⟨fun hFlat u hu => ?_, fun hNdim u hu => ?_⟩
    · exact (hSqueezed.getSlice_view hE hFlat hSel hu).reads hE
    · exact hSqueezed.getSlice_copy hE hNdim hSel hu

namespace SqueezeChainExample

/-- Two rows of one item each, with two axes of length one behind the first. -/
def column : Container :=
  Reference.plain .int8 [.ofCuts 2 2 1, .ofCuts 1 1 1,
    .ofCuts 1 1 1] fun x => .bits (x.getD 0 0)

/-- The same axes the other way round, the middle one of length three. -/
def row : Container :=
  Reference.plain .int8 [.ofCuts 1 1 1, .ofCuts 3 3 3,
    .ofCuts 2 2 2] fun x => .bits (flat [1, 3, 2] x)

/-- A slice view of a container of the given axes that starts at the origin. -/
def view (src : Container) (n : List Nat) : Container :=
  viewOf Reference.backend.machine src ⟨.int8, n⟩ [0, 0, 0]
    (.ofFn src.catarr.axes 1 fun _ => .bits 0)

theorem slice_column : iarrayGetSlice Reference.backend column [0, 0, 0] [2, 1, 1] true
    ⟨[], []⟩ = .ok (view column [2, 1, 1]) := rfl

theorem slice_row : iarrayGetSlice Reference.backend row [0, 0, 0] [1, 1, 2] true ⟨[], []⟩ =
    .ok (view row [1, 1, 2]) := rfl

theorem run_column : Run Reference.backend (view column [2, 1, 1])
    (column.contents.slice [0, 0, 0] [2, 1, 1]) :=
  .slice (.plain (Reference.plain_plain _ _ (by decide) (by decide))) ⟨rfl, rfl, nofun⟩
    ⟨⟨rfl, rfl, by decide⟩, rfl, rfl⟩ slice_column

theorem run_row : Run Reference.backend (view row [1, 1, 2])
    (row.contents.slice [0, 0, 0] [1, 1, 2]) :=
  .slice (.plain (Reference.plain_plain _ _ (by decide) (by decide))) ⟨rfl, rfl, nofun⟩
    ⟨⟨rfl, rfl, by decide⟩, rfl, rfl⟩ slice_row

end SqueezeChainExample

open SqueezeChainExample in
/-- The two trailing axes, last one first. -/
theorem squeezes_reads_column :
    ReadsAs Reference.backend (view column [2, 1, 1])
        (column.contents.slice [0, 0, 0] [2, 1, 1]) ∧
      ∃ w B, B = [[false, false, true], [false, true]].foldl NdArray.squeeze
          (column.contents.slice [0, 0, 0] [2, 1, 1]) ∧
        squeezes Reference.backend (view column [2, 1, 1])
          [[false, false, true], [false, true]] = .ok w ∧
        iarraySqueezeIndex Reference.backend (view column [2, 1, 1]) [false, true, true] = .ok w ∧
        ReadsAs Reference.backend w B ∧
        ∀ start stop storage s n, Selects start stop B.shape s n →
          (w.Flat → ∀ u, iarrayGetSlice Reference.backend w start stop true storage = .ok u →
            ReadsAs Reference.backend u (B.slice s n)) ∧
          (w.catarr.ndim = w.dtshape.ndim →
            ∀ u, iarrayGetSlice Reference.backend w start stop false storage = .ok u →
              ReadsAs Reference.backend u (B.slice s n)) :=
  squeezes_reads Reference.lawful run_column rfl rfl
    (.cons rfl rfl rfl (.cons rfl rfl rfl (.nil _ _)))

open SqueezeChainExample in
/-- Removing the two leading axes one after the other leaves the number of the middle axis in
the index map, and a slice of the view with both removed at once has the length of the first
axis. -/
theorem squeezes_reads_fails :
    ReadsAs Reference.backend (view row [1, 1, 2]) (row.contents.slice [0, 0, 0] [1, 1, 2]) ∧
      (∃ w, squeezes Reference.backend (view row [1, 1, 2])
          [[true, false, false], [true, false]] = .ok w ∧
        ¬ ReadsAs Reference.backend w ([[true, false, false], [true, false]].foldl
          NdArray.squeeze (row.contents.slice [0, 0, 0] [1, 1, 2]))) ∧
      ∃ w u, iarraySqueezeIndex Reference.backend (view row [1, 1, 2]) [true, true, false] =
          .ok w ∧
        ReadsAs Reference.backend w
          ((row.contents.slice [0, 0, 0] [1, 1, 2]).squeeze [true, true, false]) ∧
        iarrayGetSlice Reference.backend w [0] [2] true ⟨[], []⟩ = .ok u ∧
        u.dtshape.shape = [1] := by
  refine ⟨run_row.reads Reference.lawful rfl, ⟨_, rfl, ?_⟩, _, _, rfl, ?_, rfl, rfl⟩
  · intro h
    obtain ⟨out, hOut, hGet⟩ := h.toBuffer (fun _ => .bits 0) (by decide)
      (Int.le_refl 2)
    -- the second item comes from the second row of the middle axis
    have hRead : ((squeezes Reference.backend (view row [1, 1, 2])
        [[true, false, false], [true, false]] >>= fun w =>
          iarrayToBuffer Reference.backend w (fun _ => .bits 0) 2).map fun out => out 1) =
        .ok (.bits 2) := rfl
    rw [show squeezes Reference.backend (view row [1, 1, 2])
      [[true, false, false], [true, false]] = .ok _ from rfl, Result.ok_bind, hOut, Except.map,
      Except.ok.injEq] at hRead
    have hClaim := hGet [1] (by decide)
    exact absurd (hRead.symm.trans hClaim) (by decide)
  · have hKeeps : (view row [1, 1, 2]).KeepsNumbers [true, true, false] := rfl
    have hUnit : UnitOn [true, true, false] [1, 1, 2] := rfl
    exact (run_row.squeeze rfl rfl hUnit (fun _ => hKeeps) rfl).reads Reference.lawful rfl

end IronArray
