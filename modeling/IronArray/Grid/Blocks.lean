import IronArray.Grid.NdArray
import IronArray.Grid.Strides

/-!
# Clipped blocks

A block of a chunk, cut off at the edge of the chunk and of the box. The items of the cut
blocks, block after block and chunk after chunk, stand for the indices of the box, each once.
-/

namespace Grid

/-! ## Counting through a box -/

theorem box_perm_unflat (ns : List Nat) : ((List.range ns.prod).map (unflat ns)).Perm (box ns) := by
  have hNodup : ((List.range ns.prod).map (unflat ns)).Nodup := by
    refine List.nodup_range.map_on fun i hi j hj h => ?_
    rw [← flat_unflat (List.mem_range.mp hi), ← flat_unflat (List.mem_range.mp hj), h]
  refine (List.perm_ext_iff_of_nodup hNodup (nodup_box ns)).mpr fun x => ?_
  rw [List.mem_map, mem_box]
  constructor
  · rintro ⟨k, hk, rfl⟩
    exact inBox_unflat (List.mem_range.mp hk)
  · intro hx
    exact ⟨flat ns x, List.mem_range.mpr (flat_lt hx), unflat_flat hx⟩

/-- Removing every axis leaves one slab, the whole box. -/
theorem slab_all (ns : List Nat) : slab (List.replicate ns.length true) ns [] = box ns := by
  refine List.filter_eq_self.mpr fun x _ => ?_
  have hNone : ∀ (n : Nat) (x : List Nat), keep (List.replicate n true) x = [] := by
    intro n
    induction n with
    | zero => exact fun x => keep_nil x
    | succ n ih =>
      rintro (_ | ⟨i, x⟩)
      · rfl
      · exact ih x
  exact decide_eq_true (hNone ns.length x)

/-! ## The part of a block -/

namespace Axis

theorem nitems_eq (a : Axis) (c b : Nat) :
    a.nitems c b = min a.blockshape (a.part c - b * a.blockshape) := by
  rw [nitems, part]
  split <;> omega

theorem lt_nitems_iff {a : Axis} {c b i : Nat} :
    i < a.nitems c b ↔ i < a.blockshape ∧ i + b * a.blockshape < a.part c := by
  rw [nitems_eq]
  omega

end Axis

/-- The shape of block `b` of chunk `c`, cut off at the edges. -/
def partOf : List Axis → List Nat → List Nat → List Nat
  | a :: as, c :: cs, b :: bs => a.nitems c b :: partOf as cs bs
  | _, _, _ => []

variable {as : List Axis}

theorem inBox_partOf {c b i : List Nat} (hc : c.length = as.length) (hb : b.length = as.length) :
    InBox i (partOf as c b) ↔ InBox i (blockshapeOf as) ∧ inside as c b i = true := by
  induction as generalizing c b i with
  | nil => simp [partOf, inside, blockshapeOf]
  | cons a as ih =>
    obtain ⟨c₀, c, rfl⟩ := List.exists_cons_of_length_eq_add_one hc
    obtain ⟨b₀, b, rfl⟩ := List.exists_cons_of_length_eq_add_one hb
    have hRest := fun i => @ih c b i (by simpa using hc) (by simpa using hb)
    rw [partOf, blockshapeOf_cons, InBox.cons_iff, InBox.cons_iff]
    constructor
    · rintro ⟨i₀, i, rfl, hi₀, hi⟩
      obtain ⟨hLt, hPart⟩ := Axis.lt_nitems_iff.mp hi₀
      obtain ⟨hIn, hInside⟩ := (hRest i).mp hi
      exact ⟨⟨i₀, i, rfl, hLt, hIn⟩, by simp [inside, hPart, hInside]⟩
    · rintro ⟨⟨i₀, i, rfl, hLt, hIn⟩, hInside⟩
      simp only [inside, Bool.and_eq_true, decide_eq_true_eq] at hInside
      exact ⟨i₀, i, rfl, Axis.lt_nitems_iff.mpr ⟨hLt, hInside.1⟩, (hRest i).mpr ⟨hIn, hInside.2⟩⟩

/-- The first index of block `b` of chunk `c`. -/
def blockStart (axes : List Axis) (c b : List Nat) : List Nat :=
  List.zipWith (· + ·) (List.zipWith (fun (a : Axis) i => i * a.chunkshape) axes c)
    (List.zipWith (fun (a : Axis) i => i * a.blockshape) axes b)

theorem blockStart_add {axes : List Axis} {c b i : List Nat} (hc : c.length = axes.length)
    (hb : b.length = axes.length) (hi : i.length = axes.length) :
    List.zipWith (· + ·) i (blockStart axes c b) = joinAll axes c b i := by
  induction axes generalizing c b i with
  | nil =>
    obtain rfl := List.length_eq_zero_iff.mp hi
    rfl
  | cons a axes ih =>
    obtain ⟨c₀, c, rfl⟩ := List.exists_cons_of_length_eq_add_one hc
    obtain ⟨b₀, b, rfl⟩ := List.exists_cons_of_length_eq_add_one hb
    obtain ⟨i₀, i, rfl⟩ := List.exists_cons_of_length_eq_add_one hi
    have hRest := ih (c := c) (b := b) (i := i) (by simpa using hc) (by simpa using hb)
      (by simpa using hi)
    simp only [blockStart, List.zipWith_cons_cons, joinAll, Axis.join] at hRest ⊢
    rw [hRest, Nat.add_comm]

theorem addIdx_blockStart {axes : List Axis} {c b i : List Nat} (hc : c.length = axes.length)
    (hb : b.length = axes.length) (hi : i.length = axes.length) :
    addIdx (blockStart axes c b) i = joinAll axes c b i := by
  rw [← blockStart_add hc hb hi, addIdx, List.zipWith_comm_of_comm fun i j => Nat.add_comm i j]

theorem length_blockStart {axes : List Axis} {c b : List Nat} (hc : c.length = axes.length)
    (hb : b.length = axes.length) : (blockStart axes c b).length = axes.length := by
  simp [blockStart, hc, hb]

theorem length_partOf {c b : List Nat} (hc : c.length = as.length) (hb : b.length = as.length) :
    (partOf as c b).length = as.length := by
  induction as generalizing c b with
  | nil => rfl
  | cons a as ih =>
    obtain ⟨c₀, c, rfl⟩ := List.exists_cons_of_length_eq_add_one hc
    obtain ⟨b₀, b, rfl⟩ := List.exists_cons_of_length_eq_add_one hb
    rw [partOf, List.length_cons, List.length_cons, ih (by simpa using hc) (by simpa using hb)]

/-- A cut block with items is a region of the box. -/
theorem region_partOf {c b : List Nat} (hc : c.length = as.length) (hb : b.length = as.length)
    (h : 0 ∉ partOf as c b) : Region (blockStart as c b) (partOf as c b) (shapeOf as) := by
  induction as generalizing c b with
  | nil => exact ⟨rfl, rfl, .nil⟩
  | cons a as ih =>
    obtain ⟨c₀, c, rfl⟩ := List.exists_cons_of_length_eq_add_one hc
    obtain ⟨b₀, b, rfl⟩ := List.exists_cons_of_length_eq_add_one hb
    rw [partOf, List.mem_cons, not_or] at h
    have hEnd : c₀ * a.chunkshape + b₀ * a.blockshape + a.nitems c₀ b₀ ≤ a.shape := by
      have hPos := h.1
      rw [Axis.nitems_eq, Axis.part] at hPos ⊢
      split at hPos <;> split <;> omega
    exact Region.cons_iff.mpr ⟨hEnd, ih (by simpa using hc) (by simpa using hb) h.2⟩

/-- An item of a cut block stands for an index of the box, and is stored where it stands. -/
theorem locate_joinAll {c b i : List Nat} (hc : InBox c (as.map Axis.chunks))
    (hb : InBox b (as.map Axis.blocks)) (hi : InBox i (partOf as c b)) :
    InBox (joinAll as c b i) (shapeOf as) ∧ locate as (joinAll as c b i) =
      ⟨flat (as.map Axis.chunks) c, flat (as.map Axis.blocks) b, flat (blockshapeOf as) i⟩ := by
  have hItem := (inBox_partOf (by simpa using hc.length_eq) (by simpa using hb.length_eq)).mp hi
  obtain ⟨hIn, hChunks, hBlocks, hItems⟩ := split_of_inside hc hb hItem.1 hItem.2
  rw [locate, hChunks, hBlocks, hItems]
  exact ⟨hIn, rfl⟩

/-- Every index of the box is an item of its cut block. -/
theorem exists_item {x : List Nat} (hx : InBox x (shapeOf as)) :
    ∃ i, InBox i (partOf as (unflat (as.map Axis.chunks) (locate as x).nchunk)
        (unflat (as.map Axis.blocks) (locate as x).nblock)) ∧
      joinAll as (unflat (as.map Axis.chunks) (locate as x).nchunk)
        (unflat (as.map Axis.blocks) (locate as x).nblock) i = x := by
  have hChunks := inBox_zipWith (fun _ _ => Axis.chunkOf_lt) hx
  have hBlocks := inBox_zipWith (fun _ _ => Axis.blockOf_lt) hx
  refine ⟨List.zipWith Axis.itemOf as x, ?_, ?_⟩
  · rw [locate, unflat_flat hChunks, unflat_flat hBlocks]
    exact (inBox_partOf (by simpa using hChunks.length_eq) (by simpa using hBlocks.length_eq)).mpr
      ⟨inBox_zipWith (fun _ _ => Axis.itemOf_lt) hx, inside_split hx⟩
  · rw [locate, unflat_flat hChunks, unflat_flat hBlocks]
    exact joinAll_split hx

/-- The box of a cut block holds the items of the block that lie inside. -/
theorem box_partOf_perm {c b : List Nat} (hc : c.length = as.length) (hb : b.length = as.length) :
    (box (partOf as c b)).Perm ((box (blockshapeOf as)).filter (inside as c b)) := by
  refine (List.perm_ext_iff_of_nodup (nodup_box _) ((nodup_box _).filter _)).mpr fun i => ?_
  rw [mem_box, List.mem_filter, mem_box, inBox_partOf hc hb]

/-- The cut blocks of all chunks cover the box, every index once. -/
theorem joinAll_blocks_perm (as : List Axis) :
    ((box (as.map Axis.chunks)).flatMap fun c => (box (as.map Axis.blocks)).flatMap fun b =>
      (box (partOf as c b)).map (joinAll as c b)).Perm (box (shapeOf as)) := by
  have hKeep : keep (List.replicate as.length true) as = [] := by
    induction as with
    | nil => rfl
    | cons a as ih => exact ih
  have hAll : ∀ f : Axis → Nat,
      slab (List.replicate as.length true) (as.map f) [] = box (as.map f) := by
    intro f
    have := slab_all (as.map f)
    rwa [List.length_map] at this
  have hPlaces := @map_indexOf_places as (List.replicate as.length true) [] (by
    rw [hKeep]
    exact inBox_nil)
  rw [shapeOf, hAll] at hPlaces
  refine List.Perm.trans ?_ hPlaces
  simp only [places, hKeep, List.zipWith_nil_left, blockshapeOf, hAll, List.map_flatMap,
    List.map_map, Function.comp_def, indexOf]
  refine List.Perm.flatMap_left _ fun c hc => List.Perm.flatMap_left _ fun b hb => ?_
  refine List.Perm.map _ (box_partOf_perm ?_ ?_)
  · simpa using (mem_box.mp hc).length_eq
  · simpa using (mem_box.mp hb).length_eq

end Grid
