import IronArray.Views.Run

/-!
# Chains of type views

`typeView_reads`: at every step of a run that casts from the type of the container itself, a
type view reads the cast of what its predecessor reads. Two links in a row leave that
condition: the second cast is selected by the type of the root.
-/

namespace IronArray

open Grid

/-- The type view of any container of a run. -/
theorem typeView_reads {E : Backend} (hE : E.Lawful) {src v : Container} {A : NdArray Cell}
    {dtype : Dtype} (hRun : Run E src A) (hFlat : src.Flat) (hCast : src.HasCast dtype)
    (hv : iarrayGetTypeView E src dtype = .ok v) :
    v.dtshape = ⟨dtype, src.dtshape.shape⟩ ∧ ReadsAs E src A ∧
      ReadsAs E v (A.map (elementCast E.machine src.dtshape.dtype dtype)) := by
  have hView := Run.typeView hRun hFlat hCast hv
  obtain ⟨a, _, hEq⟩ := viewNew_ok hv
  have hTransposed : v.transposed = false := by
    rw [hEq]
    rfl
  refine ⟨?_, hRun.reads hE hFlat.transposed, hView.reads hE hTransposed⟩
  rw [hEq]
  rfl

namespace TypeChainExample

def axes : List Axis := [.ofCuts 2 2 2]

/-- The bytes 1 and 2. -/
def bytes : Container := Reference.plain .int8 axes fun x => .bits (x.getD 0 0 + 1)

/-- A type view of a one-dimensional container that is not transposed. -/
def view (src : Container) (dtype : Dtype) : Container :=
  viewOf Reference.backend.machine src ⟨dtype, [2]⟩ [0] (.ofFn axes dtype.size fun _ => .bits 0)

theorem view_bytes (dtype : Dtype) :
    iarrayGetTypeView Reference.backend bytes dtype = .ok (view bytes dtype) := by
  cases dtype <;> rfl

theorem flat_bytes : bytes.Flat := ⟨rfl, rfl, nofun⟩

end TypeChainExample

open TypeChainExample in
/-- One link: bytes as 16-bit integers. -/
theorem typeView_reads_int16 :
    (view bytes .int16).dtshape = ⟨.int16, [2]⟩ ∧
      ReadsAs Reference.backend bytes bytes.contents ∧
      ReadsAs Reference.backend (view bytes .int16)
        (bytes.contents.map (elementCast Reference.backend.machine .int8 .int16)) :=
  typeView_reads Reference.lawful (.plain (Reference.plain_plain _ _ (by decide) (by decide)))
    flat_bytes
    (Or.inr ⟨rfl, by decide⟩) (view_bytes .int16)

open TypeChainExample in
/-- Two links: from bytes through 16-bit to 32-bit integers the second element is read from
the upper byte of the first, and from bytes through 64-bit to 16-bit integers the item size
ratio is zero. -/
theorem typeView_reads_fails :
    (ReadsAs Reference.backend (view bytes .int16)
        (bytes.contents.map (elementCast Reference.backend.machine .int8 .int16)) ∧
      iarrayGetTypeView Reference.backend (view bytes .int16) .int32 =
        .ok (view (view bytes .int16) .int32) ∧
      ¬ ReadsAs Reference.backend (view (view bytes .int16) .int32)
        ((bytes.contents.map (elementCast Reference.backend.machine .int8 .int16)).map
          (elementCast Reference.backend.machine .int16 .int32))) ∧
    iarrayGetTypeView Reference.backend (view bytes .int64) .int16 =
      .ok (view (view bytes .int64) .int16) ∧
    iarrayToBuffer Reference.backend (view (view bytes .int64) .int16) (fun _ => .bits 0) 4 =
      crash .divisionByZero := by
  refine ⟨⟨?_, rfl, ?_⟩, rfl, rfl⟩
  · have hRun : Run Reference.backend bytes bytes.contents :=
      .plain (Reference.plain_plain _ _ (by decide) (by decide))
    exact (hRun.typeView flat_bytes (Or.inr ⟨rfl, by decide⟩) (view_bytes .int16)).reads
      Reference.lawful rfl
  · intro h
    obtain ⟨out, hOut, hGet⟩ := h.toBuffer (fun _ => .bits 0) (by decide)
      (Int.le_refl 8)
    have hRead : (iarrayToBuffer Reference.backend (view (view bytes .int16) .int32)
        (fun _ => .bits 0) 8).map (fun out => out 1) = .ok (.bits 0) := rfl
    rw [hOut, Except.map, Except.ok.injEq] at hRead
    have hClaim := hGet [1] (by decide)
    exact absurd (hRead.symm.trans hClaim) (by decide)

end IronArray
