import IronArray.Core.Container
import IronArray.Grid.Strides

/-!
# Places in a block

A container keeps the block lengths it was asked for, its array has them as `int32_t`s. Part of
the code computes the place of an item in a block from the former. `flat_places`: the place is
right if the lengths behind every axis along which a block holds several elements fit.
-/

namespace Grid.Axis

/-- The number of items of the axis that its first block holds. -/
def reach (a : Axis) : Nat := min (min a.shape a.chunkshape) a.blockshape

theorem reach_pos {a : Axis} (h : 0 < a.shape) : 0 < a.reach := by
  have hChunk := a.chunk_pos h
  have hBlock := a.block_pos h
  simp only [reach]
  omega

theorem itemOf_lt_reach {a : Axis} {x : Nat} (hx : x < a.shape) : a.itemOf x < a.reach := by
  have hChunk := Nat.mod_lt x (a.chunk_pos (Nat.zero_lt_of_lt hx))
  have hBlock := Nat.mod_lt (x % a.chunkshape) (a.block_pos (Nat.zero_lt_of_lt hx))
  have hLe := Nat.mod_le x a.chunkshape
  have hLe' := Nat.mod_le (x % a.chunkshape) a.blockshape
  simp only [itemOf, reach]
  omega

theorem nitems_le_reach (a : Axis) (c b : Nat) : a.nitems c b ≤ a.reach := by
  simp only [nitems, reach]
  omega

theorem item_lt_reach {a : Axis} {c b i : Nat} (h : (c, b, i) ∈ a.walk) : i < a.reach := by
  rw [← (split_of_mem_walk h).2.2]
  exact itemOf_lt_reach (mem_walk h).2.2.2.2

/-- A coordinate inside the first block is its own item. -/
theorem split_of_lt_reach {a : Axis} {x : Nat} (hx : x < a.reach) :
    a.chunkOf x = 0 ∧ a.blockOf x = 0 ∧ a.itemOf x = x := by
  simp only [reach] at hx
  have hMod : x % a.chunkshape = x := Nat.mod_eq_of_lt (by omega)
  refine ⟨Nat.div_eq_of_lt (by omega), ?_, ?_⟩
  · rw [blockOf, hMod, Nat.div_eq_of_lt (by omega)]
  · rw [itemOf, hMod, Nat.mod_eq_of_lt (by omega)]

end Grid.Axis

namespace IronArray

open Grid

theorem flat_replicate_zero (ns : List Nat) (n : Nat) : flat ns (List.replicate n 0) = 0 := by
  induction ns generalizing n with
  | nil => simp
  | cons k ns ih =>
    cases n with
    | zero => rfl
    | succ n => simp [List.replicate_succ, ih]

/-- Behind an axis along which the first block holds several elements, the lengths fit an
`int32_t`. -/
def PlacesFit : List Axis → List Nat → Prop
  | x :: axes, _ :: ns => (1 < x.reach → ∀ n ∈ ns, n < 2 ^ 31) ∧ PlacesFit axes ns
  | _, _ => True

theorem PlacesFit.of_lt {axes : List Axis} {ns : List Nat} (h : ∀ n ∈ ns, n < 2 ^ 31) :
    PlacesFit axes ns := by
  induction axes generalizing ns with
  | nil => trivial
  | cons x axes ih =>
    cases ns with
    | nil => trivial
    | cons n ns =>
      have hTail : ∀ m ∈ ns, m < 2 ^ 31 := fun m hm => h m (List.mem_cons_of_mem _ hm)
      exact ⟨fun _ => hTail, ih hTail⟩

theorem placesFit_nil (axes : List Axis) : PlacesFit axes [] := by cases axes <;> exact trivial

/-- Without an axis the same holds. -/
theorem PlacesFit.eraseIdx {axes : List Axis} {ns : List Nat} (h : PlacesFit axes ns) (k : Nat) :
    PlacesFit (axes.eraseIdx k) (ns.eraseIdx k) := by
  induction axes generalizing ns k with
  | nil => trivial
  | cons x axes ih =>
    cases ns with
    | nil => exact placesFit_nil _
    | cons n ns =>
      cases k with
      | zero => exact h.2
      | succ k => exact ⟨fun hReach m hm => h.1 hReach m (List.mem_of_mem_eraseIdx hm), ih h.2 k⟩

/-- The places of the items that a block can hold. -/
theorem flat_places {axes : List Axis} {ns is : List Nat} (h : PlacesFit axes ns)
    (hStored : ints (blockshapeOf axes) = ns.map fun n : Nat => toInt32 n)
    (hi : InBox is (axes.map Axis.reach)) : flat ns is = flat (blockshapeOf axes) is := by
  induction axes generalizing ns is with
  | nil =>
    obtain rfl : ns = [] := List.map_eq_nil_iff.mp hStored.symm
    rfl
  | cons x axes ih =>
    obtain ⟨i, is, rfl, hFirst, hRest⟩ := InBox.cons_iff.mp hi
    cases ns with
    | nil => exact absurd (congrArg List.length hStored) (by simp [blockshapeOf])
    | cons n ns =>
      rw [blockshapeOf_cons, ints_cons, List.map_cons] at hStored
      have hTail := (List.cons.inj hStored).2
      rw [blockshapeOf_cons, flat_cons, flat_cons, ih h.2 hTail hRest]
      rcases Nat.lt_or_ge 1 x.reach with hReach | hReach
      · rw [map_toInt32 (h.1 hReach)] at hTail
        have hSame : blockshapeOf axes = ns := ints_injective hTail
        rw [hSame]
      · have hZero : i = 0 := Nat.lt_one_iff.mp (hFirst.trans_le hReach)
        rw [hZero, Nat.zero_mul, Nat.zero_mul]

/-- The lengths that an array has are the lengths asked for, or less. -/
theorem stored_le {bs ns : List Nat} (h : ints bs = ns.map fun n : Nat => toInt32 n) :
    List.Forall₂ (· ≤ ·) bs ns := by
  induction bs generalizing ns with
  | nil =>
    obtain rfl : ns = [] := List.map_eq_nil_iff.mp h.symm
    exact .nil
  | cons b bs ih =>
    cases ns with
    | nil => exact absurd (congrArg List.length h) (by simp)
    | cons n ns =>
      rw [ints_cons, List.map_cons] at h
      obtain ⟨hFirst, hRest⟩ := List.cons.inj h
      have hLe := toInt32_le n
      exact .cons (by omega) (ih hRest)

theorem stored_pos {bs ns : List Nat} (h : ints bs = ns.map fun n : Nat => toInt32 n)
    (hPos : ∀ b ∈ bs, 0 < b) : ∀ n ∈ ns, 0 < n := by
  intro n hn
  obtain ⟨i, hi, rfl⟩ := List.getElem_of_mem hn
  have hi' : i < bs.length := length_stored h ▸ hi
  have hLe := (stored_le h).get hi' hi
  exact (hPos _ (List.getElem_mem hi')).trans_le hLe

/-- A length that does not fit makes the difference. -/
theorem prod_stored_lt {bs ns : List Nat} (h : ints bs = ns.map fun n : Nat => toInt32 n)
    (hPos : ∀ b ∈ bs, 0 < b) {n : Nat} (hn : n ∈ ns) (hLong : 2 ^ 31 ≤ n) : bs.prod < ns.prod := by
  induction bs generalizing ns with
  | nil =>
    obtain rfl : ns = [] := List.map_eq_nil_iff.mp h.symm
    cases hn
  | cons b bs ih =>
    cases ns with
    | nil => cases hn
    | cons m ns =>
      rw [ints_cons, List.map_cons] at h
      obtain ⟨hFirst, hRest⟩ := List.cons.inj h
      have hTail : ∀ c ∈ bs, 0 < c := fun c hc => hPos c (List.mem_cons_of_mem _ hc)
      have hProd := prod_pos_of_forall hTail
      have hLe := toInt32_le m
      have hBlock := hPos b List.mem_cons_self
      rw [List.prod_cons, List.prod_cons]
      rcases List.mem_cons.mp hn with rfl | hMem
      · have hLess := toInt32_of_le hLong
        calc b * bs.prod < n * bs.prod := Nat.mul_lt_mul_of_pos_right (by omega) hProd
          _ ≤ n * ns.prod := Nat.mul_le_mul_left _ (prod_le_of_forall₂ (stored_le hRest))
      · calc b * bs.prod < b * ns.prod := Nat.mul_lt_mul_of_pos_left (ih hRest hTail hMem) hBlock
          _ ≤ m * ns.prod := Nat.mul_le_mul_right _ (by omega)

theorem block_pos_of_shape {axes : List Axis} (h : ∀ x ∈ axes, 0 < x.shape) :
    ∀ b ∈ blockshapeOf axes, 0 < b :=
  List.forall_mem_map.mpr fun x hx => x.block_pos (h x hx)

/-- Otherwise some item has another place. -/
theorem exists_misplaced {axes : List Axis} {ns : List Nat} (h : ¬ PlacesFit axes ns)
    (hStored : ints (blockshapeOf axes) = ns.map fun n : Nat => toInt32 n)
    (hPos : ∀ x ∈ axes, 0 < x.shape) :
    ∃ is, InBox is (axes.map Axis.reach) ∧ flat (blockshapeOf axes) is < flat ns is := by
  induction axes generalizing ns with
  | nil => exact absurd trivial h
  | cons x axes ih =>
    cases ns with
    | nil => exact absurd trivial h
    | cons n ns =>
      rw [blockshapeOf_cons, ints_cons, List.map_cons] at hStored
      have hTail := (List.cons.inj hStored).2
      have hRest : ∀ y ∈ axes, 0 < y.shape := fun y hy => hPos y (List.mem_cons_of_mem _ hy)
      have hReach := Axis.reach_pos (hPos x List.mem_cons_self)
      by_cases hFits : PlacesFit axes ns
      · have hLong : 1 < x.reach ∧ ∃ m ∈ ns, 2 ^ 31 ≤ m := by
          by_contra hNone
          refine h ⟨fun hSeveral m hm => ?_, hFits⟩
          by_contra hm'
          exact hNone ⟨hSeveral, m, hm, Nat.not_lt.mp hm'⟩
        obtain ⟨hSeveral, m, hm, hLong⟩ := hLong
        refine ⟨1 :: List.replicate axes.length 0, inBox_cons.mpr ⟨hSeveral, ?_⟩, ?_⟩
        · have hZero := @inBox_replicate_zero (axes.map Axis.reach)
            (List.forall_mem_map.mpr fun y hy => Axis.reach_pos (hRest y hy))
          rwa [List.length_map] at hZero
        · rw [blockshapeOf_cons, flat_cons, flat_cons, flat_replicate_zero, flat_replicate_zero]
          have := prod_stored_lt hTail (block_pos_of_shape hRest) hm hLong
          omega
      · obtain ⟨is, hIn, hNe⟩ := ih hFits hTail hRest
        exact ⟨0 :: is, inBox_cons.mpr ⟨hReach, hIn⟩, by simpa using hNe⟩

/-- An index in the first block is its own position. -/
theorem split_of_reach {axes : List Axis} {x : List Nat} (hx : InBox x (axes.map Axis.reach)) :
    InBox x (shapeOf axes) ∧ List.zipWith Axis.itemOf axes x = x ∧
      locate axes x = ⟨0, 0, flat (blockshapeOf axes) x⟩ := by
  have hSplit : InBox x (shapeOf axes) ∧
      List.zipWith Axis.chunkOf axes x = List.replicate axes.length 0 ∧
      List.zipWith Axis.blockOf axes x = List.replicate axes.length 0 ∧
      List.zipWith Axis.itemOf axes x = x := by
    induction axes generalizing x with
    | nil =>
      cases hx
      exact ⟨.nil, rfl, rfl, rfl⟩
    | cons a axes ih =>
      obtain ⟨i, is, rfl, hFirst, hRest⟩ := InBox.cons_iff.mp hx
      obtain ⟨hIn, hChunk, hBlock, hItem⟩ := ih hRest
      obtain ⟨h₁, h₂, h₃⟩ := Axis.split_of_lt_reach hFirst
      refine ⟨inBox_cons.mpr ⟨hFirst.trans_le ?_, hIn⟩, ?_⟩
      · exact (Nat.min_le_left _ _).trans (Nat.min_le_left _ _)
      · simp only [List.zipWith_cons_cons, List.length_cons, List.replicate_succ, h₁, h₂, h₃,
          hChunk, hBlock, hItem, and_self]
  obtain ⟨hIn, hChunk, hBlock, hItem⟩ := hSplit
  exact ⟨hIn, hItem, by simp only [locate, hChunk, hBlock, hItem, flat_replicate_zero]⟩

/-- The block lengths of a container give the places of the elements in their blocks. -/
def Container.WellPlaced (c : Container) : Prop := PlacesFit c.catarr.axes c.storage.blockshape

/-- The same, or there are no elements. -/
def Container.InPlace (c : Container) : Prop := 0 ∈ c.dtshape.shape ∨ c.WellPlaced

theorem Container.InPlace.wellPlaced {c : Container} (h : c.InPlace) (hPlain : Plain c)
    (hPos : ∀ x ∈ c.catarr.axes, 0 < x.shape) : c.WellPlaced := by
  refine h.resolve_left fun hZero => ?_
  rw [← hPlain.fresh.shape] at hZero
  obtain ⟨x, hx, hShape⟩ := List.mem_map.mp hZero
  exact (hPos x hx).ne' hShape

theorem Storage.Fits.wellPlaced {c : Container} (h : c.storage.Fits) : c.WellPlaced :=
  .of_lt h.blockshape

theorem Storage.Fits.inPlace {c : Container} (h : c.storage.Fits) : c.InPlace := .inr h.wellPlaced

end IronArray
