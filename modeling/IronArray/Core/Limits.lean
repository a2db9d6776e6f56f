import IronArray.Core.Chunks
import IronArray.Core.Reference
import Mathlib.Algebra.BigOperators.Group.List.Lemmas

/-!
# Limits of the libraries

What Blosc and Caterva refuse, and the reference backend with these limits.
-/

namespace IronArray

open Grid

/-- The bytes of a chunk with its padding. -/
def CatArray.chunksize (a : CatArray) : Nat := (a.axes.map Axis.extchunkshape).prod * a.itemsize

/-- Limits of Blosc and Caterva: a chunk has fewer than `2 ^ 31` bytes, and a buffer may not be
smaller than the region it is to hold. -/
structure Backend.Bounded (E : Backend) : Prop where
  empty : ∀ {itemsize : Nat} {shape : List Nat} {st : CatervaStorage} {a : CatArray},
    E.empty itemsize shape st = .ok a → a.chunksize < 2 ^ 31
  getSliceBuffer : ∀ {a : CatArray} {s n m : List Nat} {buffer out : Nat → Cell} {buflen : Int},
    s.length = n.length →
    E.getSliceBuffer a (ints s) (ints (addIdx s n)) buffer (ints m) buflen = .ok out →
    List.Forall₂ (· ≤ ·) n m

/-- A buffer that is smaller than the region is answered with an error. -/
def Backend.RefusesSmall (E : Backend) : Prop :=
  ∀ {a : CatArray} {s n m : List Nat} {buffer : Nat → Cell} {buflen : Int},
    s.length = n.length → ¬ List.Forall₂ (· ≤ ·) n m →
    Refused (E.getSliceBuffer a (ints s) (ints (addIdx s n)) buffer (ints m) buflen)

theorem extchunkshape_le_chunksize {catarr : CatArray} (hSized : catarr.Sized)
    (hPos : ∀ x ∈ catarr.axes, 0 < x.shape) {x : Axis} (hx : x ∈ catarr.axes) :
    x.extchunkshape ≤ catarr.chunksize := by
  have hProd : 0 < (catarr.axes.map Axis.extchunkshape).prod := by
    refine prod_pos_of_forall (forall_map_pos hPos fun y hy => ?_)
    rw [Axis.extchunkshape, if_neg hy.ne']
    exact Nat.mul_pos (blocks_pos hy) (y.block_pos hy)
  calc x.extchunkshape ≤ (catarr.axes.map Axis.extchunkshape).prod :=
        Nat.le_of_dvd hProd (List.dvd_prod (List.mem_map_of_mem hx))
    _ ≤ catarr.chunksize := Nat.le_mul_of_pos_right _ hSized.1

/-- The chunks of the new array are short in every direction. -/
theorem iarrayEmpty_small {E : Backend} (hE : E.Lawful) (hBounded : E.Bounded) {d : Dtshape}
    {st : Storage} {c : Container} (hPos : ∀ n ∈ d.shape, 0 < n) (h : iarrayEmpty E d st = .ok c) :
    ∀ x ∈ c.catarr.axes, x.extchunkshape < 2 ^ 31 := by
  intro x hx
  have hFresh := (iarrayEmpty_plain hE h).plain.fresh
  have hShape : ∀ y ∈ c.catarr.axes, 0 < y.shape := by
    intro y hy
    refine hPos _ ?_
    rw [← (iarrayEmpty_plain hE h).dtshape, ← hFresh.shape]
    exact List.mem_map_of_mem hy
  obtain ⟨container, hNew, h⟩ := Result.bind_eq_ok.mp h
  obtain ⟨catarr, hEmpty, h⟩ := Result.bind_eq_ok.mp h
  cases h
  obtain ⟨_, rfl⟩ := containerNew_ok hNew
  exact (extchunkshape_le_chunksize hFresh.sized hShape hx).trans_lt (hBounded.empty hEmpty)

namespace Reference

/-- Refuse chunks that Blosc cannot hold. -/
def limited (r : Result CatArray) : Result CatArray :=
  r >>= fun a => if a.chunksize < 2 ^ 31 then .ok a else inaError .catervaFailed

theorem limited_eq_ok {r : Result CatArray} {a : CatArray} :
    limited r = .ok a ↔ r = .ok a ∧ a.chunksize < 2 ^ 31 := by
  rw [limited, Result.bind_eq_ok]
  constructor
  · rintro ⟨b, hb, h⟩
    split at h
    · rename_i hSmall
      cases h
      exact ⟨hb, hSmall⟩
    · cases h
  · rintro ⟨ha, hSmall⟩
    exact ⟨a, ha, if_pos hSmall⟩

theorem limited_create {itemsize : Nat} {shape : List Nat} {st : CatervaStorage}
    (f g : List Nat → Cell) :
    (∃ a, limited (create itemsize shape st f) = .ok a) →
      ∃ a, limited (create itemsize shape st g) = .ok a := by
  rintro ⟨a, ha⟩
  obtain ⟨ha, hSmall⟩ := limited_eq_ok.mp ha
  unfold create at ha ⊢
  split at ha
  · split at ha
    · rename_i hPos
      cases ha
      exact ⟨_, limited_eq_ok.mpr ⟨if_pos hPos, hSmall⟩⟩
    · cases ha
  · cases ha

def bounded : Backend :=
  { backend with
    empty := fun itemsize shape st => limited (backend.empty itemsize shape st)
    copy := fun a st => limited (backend.copy a st)
    getSliceBuffer := fun a start stop buffer m buflen =>
      if List.Forall₂ (· ≤ ·) (extents start stop) (starts m) then
        backend.getSliceBuffer a start stop buffer m buflen
      else inaError .catervaFailed }

theorem bounded_lawful : bounded.Lawful :=
  { lawful with
    empty := fun h => lawful.empty (limited_eq_ok.mp h).1
    copy := fun hSized hNone h => lawful.copy hSized hNone (limited_eq_ok.mp h).1
    copy_accepts := fun _ _ => ⟨limited_create _ _, limited_create _ _⟩
    getSliceBuffer := by
      intro a s n m buffer buflen f hRegion hPos hm hLen hCells
      have hLength : s.length = n.length := hRegion.start_length.trans hRegion.length.symm
      simp only [bounded]
      rw [extents_ints hLength, starts_ints, if_pos hm]
      exact lawful.getSliceBuffer buffer hRegion hPos hm hLen hCells }

theorem bounded_bounded : bounded.Bounded where
  empty h := (limited_eq_ok.mp h).2
  getSliceBuffer := by
    intro a s n m buffer out buflen hLength h
    simp only [bounded] at h
    rw [extents_ints hLength, starts_ints] at h
    split at h
    · assumption
    · cases h

theorem bounded_refusesSmall : bounded.RefusesSmall := by
  intro a s n m buffer buflen hLength hFits
  simp only [bounded]
  rw [extents_ints hLength, starts_ints, if_neg hFits]
  exact ⟨_, rfl⟩

end Reference

end IronArray
