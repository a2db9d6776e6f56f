import IronArray.Views.TypeChain

/-!
# Unsupported type views

`iarray_add_view_postfilter` refuses a pair of types without a cast, but `_iarray_view_new`
drops its code, and the table is entered under the type of the root. `Chain` collects the
containers that successful view operations reach, whatever their arguments;
`typeView_checked_iff` says for which targets the outcome of `iarray_get_type_view` is right.
-/

namespace IronArray

open Grid

/-! ## Chains of views -/

/-- The containers reached from those that are not views by successful operations on views. -/
inductive Chain (E : Backend) : Container → Prop
  | plain {c : Container} (hPlain : Plain c) : Chain E c
  | slice {c v : Container} {start stop : List Int} {storage : Storage} (hChain : Chain E c)
      (hv : iarrayGetSlice E c start stop true storage = .ok v) : Chain E v
  | typeView {c v : Container} {dtype : Dtype} (hChain : Chain E c)
      (hv : iarrayGetTypeView E c dtype = .ok v) : Chain E v
  | transpose {c v : Container} (hChain : Chain E c)
      (hv : iarrayLinalgTranspose E c = .ok v) : Chain E v
  | squeeze {c v : Container} {mask : List Bool} (hChain : Chain E c)
      (hViewed : c.containerViewed.isSome) (hv : iarraySqueezeIndex E c mask = .ok v) : Chain E v

theorem viewNew_ndim {E : Backend} {c v : Container} {dtshape : Dtshape} {offset : List Int}
    (h : _iarrayViewNew E c dtshape offset = .ok v) : v.dtshape.ndim ≤ dimensionMax := by
  unfold _iarrayViewNew at h
  split at h
  · cases h
  · obtain ⟨a, _, h⟩ := Result.bind_eq_ok.mp h
    cases h
    show dtshape.ndim ≤ dimensionMax
    omega

theorem squeezeStep_length (mask : List Bool) (l : List Nat) (state : Nat × List Nat × List Nat) :
    (l.foldl (squeezeStep mask) state).2.1.length = state.2.1.length := by
  induction l generalizing state with
  | nil => rfl
  | cons i l ih =>
    rw [List.foldl_cons, ih]
    obtain ⟨inc, shape, index⟩ := state
    by_cases hMask : mask.getD i false
    · simp only [squeezeStep, hMask, if_true]
    · simp only [squeezeStep, hMask, Bool.false_eq_true, if_false, List.length_set]

/-- A squeeze of a view leaves no axis that was not there. -/
theorem squeezeIndex_ndim {E : Backend} {c v : Container} {mask : List Bool}
    (hViewed : c.containerViewed.isSome) (h : iarraySqueezeIndex E c mask = .ok v) :
    v.dtshape.ndim ≤ c.dtshape.ndim := by
  have hView : ¬ c.containerViewed.isNone := by
    simpa using Option.isSome_iff_ne_none.mp hViewed
  rw [iarraySqueezeIndex, if_neg hView] at h
  cases h
  have hLength := squeezeStep_length mask (List.range c.dtshape.ndim)
    (0, c.dtshape.shape, c.index)
  show (List.take _ _).length ≤ c.dtshape.shape.length
  rw [List.length_take, hLength]
  exact Nat.min_le_right _ _

/-- No operation exceeds the largest number of dimensions. -/
theorem Chain.ndim {E : Backend} {c : Container} (h : Chain E c) :
    c.dtshape.ndim ≤ dimensionMax := by
  induction h with
  | plain hPlain => exact hPlain.ndim
  | slice _ hv =>
    obtain ⟨_, _, hv⟩ := Result.bind_eq_ok.mp hv
    exact viewNew_ndim hv
  | typeView _ hv => exact viewNew_ndim hv
  | @transpose c v _ hv =>
    unfold iarrayLinalgTranspose at hv
    split at hv
    · cases hv
    · split at hv
      · cases hv
      · obtain ⟨b, hb, hv⟩ := Result.bind_eq_ok.mp hv
        cases hv
        show b.dtshape.ndim ≤ dimensionMax
        exact viewNew_ndim hb
  | squeeze _ hViewed hv ih => exact (squeezeIndex_ndim hViewed hv).trans ih

/-! ## The outcome of a type view -/

/-- The cast table, identity included. -/
def Dtype.CastsTo (src dst : Dtype) : Prop := dst = src ∨ dst ∈ viewCasts src

instance (src dst : Dtype) : Decidable (src.CastsTo dst) :=
  inferInstanceAs (Decidable (dst = src ∨ dst ∈ viewCasts src))

/-- The blocks of the view are produced by a slice or a cast postfilter. -/
def Container.Filtered (v : Container) : Prop :=
  (∃ viewed, v.catarr.sc.postfilter = some (sliceViewPostfilter viewed)) ∨
    ∃ m viewed pred src dst, v.catarr.sc.postfilter = some (typeViewPostfilter m viewed pred src dst)

/-- What `iarray_get_type_view` is to do: succeed exactly where there is a cast from the type
of the container, and then read through a postfilter. -/
def TypeViewChecked (E : Backend) (c : Container) (dtype : Dtype) : Prop :=
  ((∃ v, iarrayGetTypeView E c dtype = .ok v) ↔ c.dtshape.dtype.CastsTo dtype) ∧
    ∀ v, iarrayGetTypeView E c dtype = .ok v → v.Filtered

/-- Which postfilter a type view gets. -/
theorem addViewPostfilter_eq (m : Machine) (c : Container) (dtype : Dtype) (shape : List Nat) :
    iarrayAddViewPostfilter m ⟨dtype, shape⟩ c.dtshape c.root.dtshape.dtype c.catarr.sc =
      if dtype = c.dtshape.dtype then some (sliceViewPostfilter c.catarr.sc)
      else if dtype ∈ viewCasts c.root.dtshape.dtype then
        some (typeViewPostfilter m c.catarr.sc c.dtshape.dtype c.root.dtshape.dtype dtype)
      else none := rfl

/-- A view has a postfilter exactly where the type of the root, or the identity, gives one. -/
theorem filtered_viewOf {m : Machine} {c : Container} {dtype : Dtype} {shape : List Nat}
    {offset : List Int} {a : CatArray} (ha : a.sc.postfilter = none) :
    (viewOf m c ⟨dtype, shape⟩ offset a).Filtered ↔
      dtype = c.dtshape.dtype ∨ dtype ∈ viewCasts c.root.dtshape.dtype := by
  have hPost : (viewOf m c ⟨dtype, shape⟩ offset a).catarr.sc.postfilter =
      iarrayAddViewPostfilter m ⟨dtype, shape⟩ c.dtshape c.root.dtshape.dtype c.catarr.sc := by
    show Option.or _ a.sc.postfilter = _
    rw [ha, Option.or_none]
  rw [Container.Filtered, hPost, addViewPostfilter_eq]
  by_cases hSame : dtype = c.dtshape.dtype
  · rw [if_pos hSame]
    exact iff_of_true (.inl ⟨_, rfl⟩) (.inl hSame)
  · rw [if_neg hSame]
    by_cases hCast : dtype ∈ viewCasts c.root.dtshape.dtype
    · rw [if_pos hCast]
      exact iff_of_true (.inr ⟨_, _, _, _, _, rfl⟩) (.inr hCast)
    · rw [if_neg hCast]
      refine iff_of_false ?_ (not_or.mpr ⟨hSame, hCast⟩)
      rintro (⟨_, h⟩ | ⟨_, _, _, _, _, h⟩) <;> cases h

/-- Of a container reached by views, a type view has the right outcome exactly where both the
type of the container and the type of its root have a cast to the target, or the target is the
type of the container. The array of the view is one that Caterva makes. -/
theorem typeView_checked_iff {E : Backend} (hE : E.Lawful) {c : Container} (hChain : Chain E c)
    {dtype : Dtype} (hMade : ∃ a, viewArray E c ⟨dtype, c.dtshape.shape⟩ = .ok a) :
    TypeViewChecked E c dtype ↔
      dtype = c.dtshape.dtype ∨
        (dtype ∈ viewCasts c.dtshape.dtype ∧ dtype ∈ viewCasts c.root.dtshape.dtype) := by
  obtain ⟨a, ha⟩ := hMade
  have hView : iarrayGetTypeView E c dtype =
      .ok (viewOf E.machine c ⟨dtype, c.dtshape.shape⟩ c.offset a) :=
    viewNew_eq c.offset hChain.ndim ha
  have hFiltered : (∀ v, iarrayGetTypeView E c dtype = .ok v → v.Filtered) ↔
      dtype = c.dtshape.dtype ∨ dtype ∈ viewCasts c.root.dtshape.dtype := by
    rw [← @filtered_viewOf E.machine c dtype c.dtshape.shape c.offset a (hE.empty ha).postfilter]
    constructor
    · intro h
      exact h _ hView
    · intro h v hv
      rw [hView] at hv
      cases hv
      exact h
  have hSucceeds : ((∃ v, iarrayGetTypeView E c dtype = .ok v) ↔ c.dtshape.dtype.CastsTo dtype) ↔
      c.dtshape.dtype.CastsTo dtype := iff_true_left ⟨_, hView⟩
  rw [TypeViewChecked, hSucceeds, hFiltered, Dtype.CastsTo]
  rcases eq_or_ne dtype c.dtshape.dtype with hSame | hOther
  · simp only [hSame, true_or, and_self]
  · simp only [hOther, false_or]

namespace SupportExample

open TypeChainExample

/-- Two elements of a type. -/
def pair (dtype : Dtype) : Container := Reference.plain dtype axes fun x => .bits (x.getD 0 0)

theorem view_pair (src dst : Dtype) :
    iarrayGetTypeView Reference.backend (pair src) dst = .ok (view (pair src) dst) := by
  cases dst <;> rfl

theorem view_view (src mid dst : Dtype) :
    iarrayGetTypeView Reference.backend (view (pair src) mid) dst =
      .ok (view (view (pair src) mid) dst) := by
  cases dst <;> rfl

theorem chain_pair (src : Dtype) : Chain Reference.backend (pair src) :=
  .plain (Reference.plain_plain _ _ (by decide) (by decide))

end SupportExample

open TypeChainExample SupportExample in
/-- Booleans as bytes and then as doubles. -/
theorem typeView_checked_double :
    TypeViewChecked Reference.backend (view (pair .bool) .int8) .double ↔
      (Dtype.double = .int8 ∨
        (Dtype.double ∈ viewCasts .int8 ∧ Dtype.double ∈ viewCasts .bool)) :=
  typeView_checked_iff Reference.lawful ((chain_pair .bool).typeView (view_pair .bool .int8))
    ⟨.ofFn axes 8 fun _ => .bits 0, rfl⟩

open TypeChainExample SupportExample in
/-- There is no cast from 64-bit to 32-bit integers, and yet the view is made, without a
postfilter. Of the view of booleans as bytes the view as booleans, for which there is a cast,
has no postfilter either, because the table has no entry for booleans as booleans. -/
theorem typeView_checked_fails :
    ¬ TypeViewChecked Reference.backend (pair .int64) .int32 ∧
    ¬ (Dtype.int64.CastsTo .int32) ∧
    iarrayGetTypeView Reference.backend (pair .int64) .int32 = .ok (view (pair .int64) .int32) ∧
    (view (pair .int64) .int32).catarr.sc.postfilter.isNone ∧
    Chain Reference.backend (view (pair .bool) .int8) ∧
    ¬ TypeViewChecked Reference.backend (view (pair .bool) .int8) .bool ∧
    (view (view (pair .bool) .int8) .bool).catarr.sc.postfilter.isNone := by
  have hNone : (view (view (pair .bool) .int8) .bool).catarr.sc.postfilter = none := rfl
  refine ⟨fun h => ?_, by decide, view_pair .int64 .int32, rfl,
    (chain_pair .bool).typeView (view_pair .bool .int8), fun h => ?_, rfl⟩
  · exact absurd (h.1.mp ⟨_, view_pair .int64 .int32⟩) (by decide)
  · rcases h.2 _ (view_view .bool .int8 .bool) with ⟨_, h⟩ | ⟨_, _, _, _, _, h⟩ <;>
      exact absurd (hNone.symm.trans h) (by simp)

end IronArray
