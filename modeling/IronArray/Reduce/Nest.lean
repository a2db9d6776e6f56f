import IronArray.Reduce.Step

/-!
# The traversal of the one-shot reduction

The three recursions over axes enumerate the chunks, the blocks of a chunk and the items of a
block that may hold elements of a slab. `presented_perm_slab`: leaving out the items that are
padding, they meet each index of the slab exactly once. `reduceChunkIter_item`: the state of an
item of the result is the fold over the elements at these indices.
-/

namespace IronArray

open Grid

/-! ## Recursions over axes -/

/-- The indices that a recursion over the axes visits, in order. -/
def nest : List Nat → List Nat → List (List Nat)
  | start :: starts, stop :: stops =>
    (List.range' start (stop - start)).flatMap fun i => (nest starts stops).map (i :: ·)
  | _, _ => [[]]

theorem iterNest_eq_foldl {σ : Type} (visit : List Nat → σ → σ) (starts stops index : List Nat)
    (s : σ) : iterNest visit starts stops index s =
      (nest starts stops).foldl (fun s i => visit (index ++ i) s) s := by
  induction starts generalizing stops index s with
  | nil => simp [iterNest, nest]
  | cons start starts ih =>
    cases stops with
    | nil => simp [iterNest, nest]
    | cons stop stops =>
      rw [iterNest, nest, List.foldl_flatMap]
      congr 1
      funext s i
      rw [ih, List.foldl_map]
      simp

/-- Between the stops that the code computes lie the indices of a slab. -/
theorem nest_perm_slab {mask : List Bool} {ns o : List Nat} (hLen : ns.length = mask.length)
    (ho : InBox o (keep mask ns)) :
    (nest (iterStart mask (iterStop mask ns o)) (iterStop mask ns o)).Perm (slab mask ns o) := by
  induction mask generalizing ns o with
  | nil =>
    obtain rfl := List.length_eq_zero_iff.mp hLen
    cases ho
    rfl
  | cons b mask ih =>
    obtain ⟨n, ns, rfl⟩ := List.exists_cons_of_length_eq_add_one hLen
    have hLen' : ns.length = mask.length := by simpa using hLen
    cases b with
    | true =>
      rw [slab_true]
      simp only [iterStop, iterStart, List.zipWith_cons_cons, if_true, nest, Nat.sub_zero,
        ← List.range_eq_range']
      exact List.Perm.flatMap_left _ fun i _ => (ih hLen' ho).map _
    | false =>
      obtain ⟨j, o, rfl, hj, ho⟩ := InBox.cons_iff.mp ho
      refine List.Perm.trans ?_ (slab_false mask n j ns o hj).symm
      simp only [iterStop, List.headD_cons, List.tail_cons, iterStart, List.zipWith_cons_cons,
        Bool.false_eq_true, if_false, nest, Nat.add_sub_cancel, show j + 1 - j = 1 by omega,
        List.range'_one, List.flatMap_singleton]
      exact (ih hLen' ho).map _

/-- The indices between the stops that the code computes for the position `o`. -/
def nestAt (mask : List Bool) (ns o : List Nat) : List (List Nat) :=
  nest (iterStart mask (iterStop mask ns o)) (iterStop mask ns o)

theorem length_of_mem_nest {starts stops x : List Nat} (hLen : starts.length = stops.length)
    (hx : x ∈ nest starts stops) : x.length = stops.length := by
  induction starts generalizing stops x with
  | nil =>
    obtain rfl := List.length_eq_zero_iff.mp hLen.symm
    rw [List.mem_singleton.mp hx]
  | cons start starts ih =>
    obtain ⟨stop, stops, rfl⟩ := List.exists_cons_of_length_eq_add_one hLen.symm
    obtain ⟨i, _, hTail⟩ := List.mem_flatMap.mp hx
    obtain ⟨x, hx', rfl⟩ := List.mem_map.mp hTail
    rw [List.length_cons, List.length_cons, ih (by simpa using hLen) hx']

theorem length_iterStop {mask : List Bool} {ns o : List Nat} (hLen : ns.length = mask.length)
    (ho : o.length = mask.count false) : (iterStop mask ns o).length = mask.length := by
  induction mask generalizing ns o with
  | nil => rfl
  | cons b mask ih =>
    obtain ⟨n, ns, rfl⟩ := List.exists_cons_of_length_eq_add_one hLen
    cases b with
    | true =>
      rw [iterStop, List.length_cons, List.length_cons,
        ih (by simpa using hLen) (by simpa using ho)]
    | false =>
      obtain ⟨j, o, rfl⟩ := List.exists_cons_of_length_eq_add_one (by simpa using ho)
      rw [iterStop, List.length_cons, List.length_cons,
        ih (by simpa using hLen) (by simpa using ho)]

theorem length_of_mem_nestAt {mask : List Bool} {ns o x : List Nat}
    (hLen : ns.length = mask.length) (ho : o.length = mask.count false)
    (hx : x ∈ nestAt mask ns o) : x.length = mask.length := by
  have hStop := length_iterStop hLen ho
  rw [length_of_mem_nest (by simp [iterStart, hStop]) hx, hStop]

/-- The places at which the three recursions call the step, in order. -/
def presentedPlaces (axes : List Axis) (mask : List Bool) (blocks y : List Nat) :
    List (List Nat × List Nat × List Nat) :=
  (nestAt mask (axes.map Axis.chunks) (List.zipWith Axis.chunkOf (keep mask axes) y)).flatMap
    fun c => (nestAt mask blocks (List.zipWith Axis.blockOf (keep mask axes) y)).flatMap
      fun b => ((nestAt mask (blockshapeOf axes)
        (List.zipWith Axis.itemOf (keep mask axes) y)).filter (inside axes c b)).map
          fun i => (c, b, i)

theorem presentedPlaces_perm {axes : List Axis} {mask : List Bool} {y : List Nat}
    (hMask : mask.length = axes.length) (hy : InBox y (shapeOf (keep mask axes))) :
    (presentedPlaces axes mask (axes.map Axis.blocks) y).Perm (places axes mask y) := by
  have hNest : ∀ (pos : Axis → Nat → Nat) (bound : Axis → Nat),
      (∀ a x, x < a.shape → pos a x < bound a) →
      (nestAt mask (axes.map bound) (List.zipWith pos (keep mask axes) y)).Perm
        (slab mask (axes.map bound) (List.zipWith pos (keep mask axes) y)) := by
    intro pos bound hpos
    refine nest_perm_slab (by simpa using hMask.symm) ?_
    rw [keep_map]
    exact inBox_zipWith hpos hy
  refine (List.Perm.flatMap_right _ (hNest _ _ fun _ _ => Axis.chunkOf_lt)).trans
    (List.Perm.flatMap_left _ fun c _ => ?_)
  refine (List.Perm.flatMap_right _ (hNest _ _ fun _ _ => Axis.blockOf_lt)).trans
    (List.Perm.flatMap_left _ fun b _ => ?_)
  exact ((hNest _ Axis.blockshape fun _ _ => Axis.itemOf_lt).filter _).map _

/-- A slab through an axis of length zero has no chunks. -/
theorem nestAt_chunks_of_empty {axes : List Axis} {mask : List Bool} {y : List Nat}
    (hMask : mask.length = axes.length) (hy : InBox y (shapeOf (keep mask axes)))
    (hEmpty : ¬ ∀ a ∈ axes, 0 < a.shape) :
    nestAt mask (axes.map Axis.chunks) (List.zipWith Axis.chunkOf (keep mask axes) y) = [] := by
  have hPerm : (nestAt mask (axes.map Axis.chunks)
      (List.zipWith Axis.chunkOf (keep mask axes) y)).Perm
      (slab mask (axes.map Axis.chunks) (List.zipWith Axis.chunkOf (keep mask axes) y)) := by
    refine nest_perm_slab (by simpa using hMask.symm) ?_
    rw [keep_map]
    exact inBox_zipWith (fun _ _ => Axis.chunkOf_lt) hy
  refine List.eq_nil_iff_forall_not_mem.mpr fun c hc => hEmpty ?_
  have hIn := (mem_slab.mp (hPerm.mem_iff.mp hc)).1
  exact CatArray.shape_pos_of_nchunks (flat_lt hIn)

/-- The indices at which the three recursions call the step are those of the slab. -/
theorem presented_perm_slab {axes : List Axis} {mask : List Bool} {y blocks : List Nat}
    (hMask : mask.length = axes.length) (hy : InBox y (shapeOf (keep mask axes)))
    (hBlocks : (∀ a ∈ axes, 0 < a.shape) → blocks = axes.map Axis.blocks) :
    ((presentedPlaces axes mask blocks y).map (indexOf axes)).Perm
      (slab mask (shapeOf axes) y) := by
  by_cases hPos : ∀ a ∈ axes, 0 < a.shape
  · rw [hBlocks hPos]
    exact ((presentedPlaces_perm hMask hy).map _).trans (map_indexOf_places hy)
  · have hNone : slab mask (shapeOf axes) y = [] :=
      List.eq_nil_iff_forall_not_mem.mpr fun x hx =>
        hPos (shape_pos_of_inBox (mem_slab.mp hx).1)
    rw [presentedPlaces, nestAt_chunks_of_empty hMask hy hPos, hNone]
    rfl

/-- A place that the recursions meet is the place of its index. -/
theorem locate_of_mem_presented {axes : List Axis} {mask : List Bool} {y blocks : List Nat}
    (hMask : mask.length = axes.length) (hy : InBox y (shapeOf (keep mask axes)))
    (hBlocks : (∀ a ∈ axes, 0 < a.shape) → blocks = axes.map Axis.blocks)
    {p : List Nat × List Nat × List Nat} (hp : p ∈ presentedPlaces axes mask blocks y) :
    InBox (indexOf axes p) (shapeOf axes) ∧
      locate axes (indexOf axes p) = ⟨flat (axes.map Axis.chunks) p.1, flat blocks p.2.1,
        flat (blockshapeOf axes) p.2.2⟩ := by
  have hPos : ∀ a ∈ axes, 0 < a.shape := by
    by_contra hEmpty
    rw [presentedPlaces, nestAt_chunks_of_empty hMask hy hEmpty] at hp
    cases hp
  obtain rfl := hBlocks hPos
  obtain ⟨c, b, i⟩ := p
  obtain ⟨hc, hb, hi, hInside⟩ :=
    mem_places.mp ((presentedPlaces_perm hMask hy).mem_iff.mp hp)
  obtain ⟨hIn, hChunk, hBlock, hItem⟩ := split_of_inside hc.1 hb.1 hi.1 hInside
  refine ⟨hIn, ?_⟩
  simp only [locate, indexOf, hChunk, hBlock, hItem]

/-! ## The state of one item -/

section Item

variable {f : ReduceFunction} {u : UserData} {axes : List Axis}

/-- The items of a block that are no padding are folded over. -/
theorem reduceItemIter_eq {mask : List Bool} {block : List Cell} {c b o : List Nat} {acc : Acc}
    (hMask : mask.length = axes.length) (ho : InBox o (keep mask (blockshapeOf axes)))
    (hc : c.length = axes.length) (hb : b.length = axes.length) :
    reduceItemIter f u axes block (chunkShapeAt axes c) b
        (iterStart mask (iterStop mask (blockshapeOf axes) o)) (iterStop mask (blockshapeOf axes) o)
        (computeStrides (blockshapeOf axes)) acc =
      ((nestAt mask (blockshapeOf axes) o).filter (inside axes c b)).foldl
        (fun acc i => f.step u acc
          ((chunkItems block (flat (blockshapeOf axes) i)).num f.itype)) acc := by
  have hLen : (blockshapeOf axes).length = axes.length := by simp [blockshapeOf]
  rw [reduceItemIter, iterNest_eq_foldl, List.foldl_filter]
  refine List.foldl_ext _ _ _ fun acc i hi => ?_
  have hIn := (mem_slab.mp ((nest_perm_slab (hLen.trans hMask.symm) ho).mem_iff.mp hi)).1
  have hi' : i.length = axes.length := hIn.length_eq.trans hLen
  rw [List.nil_append, checkPadding_eq hc hb hi', computeStrides_eq, dot_strides]
  cases inside axes c b i <;> rfl

/-- The recursions over chunks and blocks act on the items of the result one by one. -/
theorem actsAt_reduceChunkIter {input : CatArray} {chunkStart chunkStop chunkStrides blockStart
    blockStop blockStrides itemStrides : List Nat} {items : List OutItem} {i : Nat}
    (hi : i < items.length) (d : Acc) :
    ActsAt items.length i d
      (reduceChunkIter f input chunkStart chunkStop chunkStrides blockStart blockStop blockStrides
        itemStrides items)
      fun acc => (nest chunkStart chunkStop).foldl (fun acc c =>
        (nest blockStart blockStop).foldl (fun acc b =>
          if items[i].isPadding then acc
          else reduceItemIter f items[i].userData input.axes
            (input.sc.rawBlock (dot c chunkStrides) (dot b blockStrides))
            (chunkShapeAt input.axes c) b items[i].itemStart items[i].itemStop itemStrides acc)
          acc) acc := by
  intro out hOut
  rw [reduceChunkIter, iterNest_eq_foldl]
  refine (ActsAt.foldl fun c _ => ?_) hOut
  intro out hOut
  simp only [reduceBlockIter, iterNest_eq_foldl]
  refine (ActsAt.foldl fun b _ => ?_) hOut
  exact actsAt_zipWith rfl hi _

/-- The state of an item that is no padding, at the position `y` of the result: the fold over
the places that the recursions meet. -/
theorem reduceChunkIter_item {input : CatArray} {mask : List Bool} {y blocks : List Nat}
    {items : List OutItem} {i : Nat} (hMask : mask.length = input.axes.length)
    (hBlocks : blocks.length = input.axes.length)
    (hy : InBox y (shapeOf (keep mask input.axes))) (hi : i < items.length)
    (hItem : items[i] = ⟨u, false,
      iterStart mask (iterStop mask input.blockshape
        (List.zipWith Axis.itemOf (keep mask input.axes) y)),
      iterStop mask input.blockshape (List.zipWith Axis.itemOf (keep mask input.axes) y)⟩)
    (d : Acc) :
    (reduceChunkIter f input
        (iterStart mask (iterStop mask (input.axes.map Axis.chunks)
          (List.zipWith Axis.chunkOf (keep mask input.axes) y)))
        (iterStop mask (input.axes.map Axis.chunks)
          (List.zipWith Axis.chunkOf (keep mask input.axes) y))
        (computeStrides (input.axes.map Axis.chunks))
        (iterStart mask (iterStop mask blocks
          (List.zipWith Axis.blockOf (keep mask input.axes) y)))
        (iterStop mask blocks (List.zipWith Axis.blockOf (keep mask input.axes) y))
        (computeStrides blocks) (computeStrides input.blockshape) items
        (items.map fun _ => f.init)).getD i d =
      (presentedPlaces input.axes mask blocks y).foldl (fun acc p => f.step u acc
        ((chunkItems (input.sc.rawBlock (flat (input.axes.map Axis.chunks) p.1)
          (flat blocks p.2.1)) (flat input.blockshape p.2.2)).num f.itype)) f.init := by
  have hItems : InBox (List.zipWith Axis.itemOf (keep mask input.axes) y)
      (keep mask (blockshapeOf input.axes)) := by
    rw [blockshapeOf, keep_map]
    exact @inBox_zipWith _ Axis.blockshape (fun _ _ => Axis.itemOf_lt) _ _ hy
  have hKept : ∀ pos : Axis → Nat → Nat,
      (List.zipWith pos (keep mask input.axes) y).length = mask.count false := by
    intro pos
    have hLen := hy.length_eq
    rw [length_shapeOf] at hLen
    rw [List.length_zipWith, hLen, Nat.min_self, length_keep hMask.symm]
  rw [(actsAt_reduceChunkIter hi d (by simp)).2, List.getD_eq_getElem _ _ (by simpa using hi),
    List.getElem_map, presentedPlaces, List.foldl_flatMap]
  simp only [hItem, Bool.false_eq_true, if_false]
  refine List.foldl_ext _ _ _ fun acc c hc => ?_
  rw [List.foldl_flatMap]
  refine List.foldl_ext _ _ _ fun acc b hb => ?_
  rw [List.foldl_map, computeStrides_eq, computeStrides_eq, dot_strides, dot_strides]
  exact reduceItemIter_eq hMask hItems
    ((length_of_mem_nestAt (by simpa using hMask.symm) (hKept _) hc).trans hMask)
    ((length_of_mem_nestAt (hBlocks.trans hMask.symm) (hKept _) hb).trans hMask)

end Item

end IronArray
