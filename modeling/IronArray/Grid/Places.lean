import IronArray.Grid.Slab
import IronArray.Grid.Tiling
import Mathlib.Data.List.ProdSigma

/-!
# Places of a slab

The chunks, the blocks of a chunk and the items of a block form a grid that is larger than the
box it covers. Leaving out the items that lie beyond the edge of their chunk or of the box, the
places of a slab stand for its indices, each once.
-/

namespace Grid

namespace Axis

/-- The part of chunk `c` that lies inside the axis. -/
def part (a : Axis) (c : Nat) : Nat :=
  if c * a.chunkshape + a.chunkshape ≤ a.shape then a.chunkshape
  else a.shape - c * a.chunkshape

theorem part_le (a : Axis) (c : Nat) : a.part c ≤ a.chunkshape := by
  unfold part
  split <;> omega

/-- An item inside the part of its chunk is the place of the coordinate it stands for. -/
theorem split_of_lt_part {a : Axis} {c b i : Nat} (hi : i < a.blockshape)
    (hPart : i + b * a.blockshape < a.part c) :
    a.join c b i < a.shape ∧ a.chunkOf (a.join c b i) = c ∧ a.blockOf (a.join c b i) = b ∧
      a.itemOf (a.join c b i) = i := by
  have hChunk : b * a.blockshape + i < a.chunkshape := by
    have := a.part_le c
    omega
  have hDiv : (c * a.chunkshape + b * a.blockshape + i) / a.chunkshape = c := by
    rw [Nat.add_assoc, mul_add_div_of_lt hChunk]
  have hMod : (c * a.chunkshape + b * a.blockshape + i) % a.chunkshape =
      b * a.blockshape + i := by
    rw [Nat.add_assoc, Nat.mul_add_mod_of_lt hChunk]
  refine ⟨?_, hDiv, ?_, ?_⟩
  · unfold part at hPart
    rw [join]
    split at hPart <;> omega
  · rw [blockOf, join, hMod, mul_add_div_of_lt hi]
  · rw [itemOf, join, hMod, Nat.mul_add_mod_of_lt hi]

/-- A coordinate lies inside the part of its chunk. -/
theorem item_lt_part {a : Axis} {x : Nat} (hx : x < a.shape) :
    a.itemOf x + a.blockOf x * a.blockshape < a.part (a.chunkOf x) := by
  have hMod : x % a.chunkshape < a.chunkshape :=
    Nat.mod_lt _ (a.chunk_pos (Nat.zero_lt_of_lt hx))
  have hDiv := Nat.div_add_mod' x a.chunkshape
  have hBlock := Nat.div_add_mod' (x % a.chunkshape) a.blockshape
  have hSum : a.itemOf x + a.blockOf x * a.blockshape = x % a.chunkshape := by
    rw [Nat.add_comm]
    exact hBlock
  have hChunk : a.chunkOf x * a.chunkshape + x % a.chunkshape = x := hDiv
  rw [hSum, part]
  split <;> omega

end Axis

/-! ## Several axes -/

/-- The item lies inside the part of its chunk along every axis. -/
def inside : List Axis → List Nat → List Nat → List Nat → Bool
  | a :: as, c :: cs, b :: bs, i :: is =>
    decide (i + b * a.blockshape < a.part c) && inside as cs bs is
  | _, _, _, _ => true

variable {as : List Axis}

theorem inside_split {x : List Nat} (hx : InBox x (shapeOf as)) :
    inside as (List.zipWith Axis.chunkOf as x) (List.zipWith Axis.blockOf as x)
      (List.zipWith Axis.itemOf as x) = true := by
  induction as generalizing x with
  | nil => simp [inside]
  | cons a as ih =>
    obtain ⟨i, x, rfl, hi, hx⟩ := InBox.cons_iff.mp hx
    simp only [List.zipWith_cons_cons, inside, ih hx, Bool.and_true, decide_eq_true_eq]
    exact a.item_lt_part hi

/-- A place inside is the place of the index it stands for. -/
theorem split_of_inside {c b i : List Nat} (hc : InBox c (as.map Axis.chunks))
    (hb : InBox b (as.map Axis.blocks)) (hi : InBox i (blockshapeOf as))
    (h : inside as c b i = true) :
    InBox (joinAll as c b i) (shapeOf as) ∧
      List.zipWith Axis.chunkOf as (joinAll as c b i) = c ∧
      List.zipWith Axis.blockOf as (joinAll as c b i) = b ∧
      List.zipWith Axis.itemOf as (joinAll as c b i) = i := by
  induction as generalizing c b i with
  | nil =>
    cases hc
    cases hb
    cases hi
    exact ⟨inBox_nil, rfl, rfl, rfl⟩
  | cons a as ih =>
    obtain ⟨c₀, c, rfl, _, hc⟩ := InBox.cons_iff.mp hc
    obtain ⟨b₀, b, rfl, _, hb⟩ := InBox.cons_iff.mp hb
    obtain ⟨i₀, i, rfl, hi₀, hi⟩ := InBox.cons_iff.mp hi
    simp only [inside, Bool.and_eq_true, decide_eq_true_eq] at h
    obtain ⟨hLt, hChunk, hBlock, hItem⟩ := a.split_of_lt_part hi₀ h.1
    obtain ⟨hIn, hChunks, hBlocks, hItems⟩ := ih hc hb hi h.2
    refine ⟨inBox_cons.mpr ⟨hLt, hIn⟩, ?_, ?_, ?_⟩ <;>
      simp only [joinAll, List.zipWith_cons_cons, hChunk, hBlock, hItem, hChunks, hBlocks, hItems]

/-- The places that a traversal of the slab through `y` meets: chunks, then blocks of the chunk,
then items of the block. -/
def places (as : List Axis) (mask : List Bool) (y : List Nat) :
    List (List Nat × List Nat × List Nat) :=
  (slab mask (as.map Axis.chunks) (List.zipWith Axis.chunkOf (keep mask as) y)).flatMap fun c =>
    (slab mask (as.map Axis.blocks) (List.zipWith Axis.blockOf (keep mask as) y)).flatMap fun b =>
      ((slab mask (blockshapeOf as) (List.zipWith Axis.itemOf (keep mask as) y)).filter
        (inside as c b)).map fun i => (c, b, i)

/-- The index that a place stands for. -/
def indexOf (as : List Axis) (p : List Nat × List Nat × List Nat) : List Nat :=
  joinAll as p.1 p.2.1 p.2.2

theorem mem_places {mask : List Bool} {y c b i : List Nat} : (c, b, i) ∈ places as mask y ↔
    (InBox c (as.map Axis.chunks) ∧ keep mask c = List.zipWith Axis.chunkOf (keep mask as) y) ∧
    (InBox b (as.map Axis.blocks) ∧ keep mask b = List.zipWith Axis.blockOf (keep mask as) y) ∧
    (InBox i (blockshapeOf as) ∧ keep mask i = List.zipWith Axis.itemOf (keep mask as) y) ∧
    inside as c b i = true := by
  simp only [places, List.mem_flatMap, List.mem_map, List.mem_filter, mem_slab, Prod.mk.injEq]
  constructor
  · rintro ⟨c, hc, b, hb, i, ⟨hi, h⟩, rfl, rfl, rfl⟩
    exact ⟨hc, hb, hi, h⟩
  · rintro ⟨hc, hb, hi, h⟩
    exact ⟨c, hc, b, hb, i, ⟨hi, h⟩, rfl, rfl, rfl⟩

theorem nodup_places (mask : List Bool) (y : List Nat) : (places as mask y).Nodup := by
  rw [places, List.nodup_flatMap]
  refine ⟨fun c _ => ?_, (nodup_slab _ _ _).imp ?_⟩
  · rw [List.nodup_flatMap]
    refine ⟨fun b _ => ((nodup_slab _ _ _).filter _).map ?_, (nodup_slab _ _ _).imp ?_⟩
    · intro i j h
      exact (Prod.mk.inj (Prod.mk.inj h).2).2
    · intro b b' hNe
      apply List.disjoint_left.mpr
      rintro p hp hp'
      obtain ⟨i, _, rfl⟩ := List.mem_map.mp hp
      obtain ⟨j, _, h⟩ := List.mem_map.mp hp'
      exact hNe (Prod.mk.inj (Prod.mk.inj h).2).1.symm
  · intro c c' hNe
    apply List.disjoint_left.mpr
    rintro p hp hp'
    obtain ⟨b, _, hp⟩ := List.mem_flatMap.mp hp
    obtain ⟨i, _, rfl⟩ := List.mem_map.mp hp
    obtain ⟨b', _, hp'⟩ := List.mem_flatMap.mp hp'
    obtain ⟨j, _, h⟩ := List.mem_map.mp hp'
    exact hNe (Prod.mk.inj h).1.symm

theorem keep_zipWith {α β γ : Type} (f : α → β → γ) (mask : List Bool) (xs : List α)
    (ys : List β) :
    keep mask (List.zipWith f xs ys) = List.zipWith f (keep mask xs) (keep mask ys) := by
  induction mask generalizing xs ys with
  | nil => simp
  | cons b mask ih =>
    cases xs with
    | nil => simp
    | cons x xs =>
      cases ys with
      | nil => simp
      | cons y ys => cases b <;> simp [ih]

theorem keep_joinAll (mask : List Bool) {c b i : List Nat} (hc : c.length = as.length)
    (hb : b.length = as.length) (hi : i.length = as.length) :
    keep mask (joinAll as c b i) =
      joinAll (keep mask as) (keep mask c) (keep mask b) (keep mask i) := by
  induction as generalizing mask c b i with
  | nil => simp [joinAll]
  | cons a as ih =>
    obtain ⟨c₀, c, rfl⟩ := List.exists_cons_of_length_eq_add_one hc
    obtain ⟨b₀, b, rfl⟩ := List.exists_cons_of_length_eq_add_one hb
    obtain ⟨i₀, i, rfl⟩ := List.exists_cons_of_length_eq_add_one hi
    rcases mask with _ | ⟨m, mask⟩
    · simp [joinAll]
    · have hRest := ih mask (by simpa using hc) (by simpa using hb) (by simpa using hi)
      cases m <;> simp [joinAll, hRest]

/-- The places stand for the indices of the slab, each once. -/
theorem map_indexOf_places {mask : List Bool} {y : List Nat}
    (hy : InBox y (shapeOf (keep mask as))) :
    ((places as mask y).map (indexOf as)).Perm (slab mask (shapeOf as) y) := by
  have hSplit : ∀ p ∈ places as mask y, InBox (indexOf as p) (shapeOf as) ∧
      List.zipWith Axis.chunkOf as (indexOf as p) = p.1 ∧
      List.zipWith Axis.blockOf as (indexOf as p) = p.2.1 ∧
      List.zipWith Axis.itemOf as (indexOf as p) = p.2.2 := by
    rintro ⟨c, b, i⟩ hp
    obtain ⟨hc, hb, hi, h⟩ := mem_places.mp hp
    exact split_of_inside hc.1 hb.1 hi.1 h
  have hNodup : ((places as mask y).map (indexOf as)).Nodup := by
    refine (nodup_places mask y).map_on ?_
    intro p hp q hq hEq
    obtain ⟨_, hc, hb, hi⟩ := hSplit p hp
    obtain ⟨_, hc', hb', hi'⟩ := hSplit q hq
    rw [hEq] at hc hb hi
    exact Prod.ext (hc.symm.trans hc') (Prod.ext (hb.symm.trans hb') (hi.symm.trans hi'))
  refine (List.perm_ext_iff_of_nodup hNodup (nodup_slab _ _ _)).mpr fun x => ?_
  rw [List.mem_map, mem_slab]
  constructor
  · rintro ⟨⟨c, b, i⟩, hp, rfl⟩
    have hIn := (hSplit _ hp).1
    obtain ⟨hc, hb, hi, -⟩ := mem_places.mp hp
    refine ⟨hIn, ?_⟩
    rw [indexOf, keep_joinAll mask (by simpa using hc.1.length_eq) (by simpa using hb.1.length_eq)
      (by simpa [blockshapeOf] using hi.1.length_eq), hc.2, hb.2, hi.2, joinAll_split hy]
  · rintro ⟨hx, hKeep⟩
    have hOf : ∀ pos : Axis → Nat → Nat,
        keep mask (List.zipWith pos as x) = List.zipWith pos (keep mask as) y := by
      intro pos
      rw [keep_zipWith, hKeep]
    refine ⟨(List.zipWith Axis.chunkOf as x, List.zipWith Axis.blockOf as x,
      List.zipWith Axis.itemOf as x), mem_places.mpr ⟨⟨?_, hOf _⟩, ⟨?_, hOf _⟩, ⟨?_, hOf _⟩,
      inside_split hx⟩, joinAll_split hx⟩
    · exact inBox_zipWith (fun _ _ => Axis.chunkOf_lt) hx
    · exact inBox_zipWith (fun _ _ => Axis.blockOf_lt) hx
    · exact inBox_zipWith (fun _ _ => Axis.itemOf_lt) hx

end Grid
