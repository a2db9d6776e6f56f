import IronArray.Grid.Mask
import Mathlib.Data.List.Perm.Basic
import Mathlib.Data.List.InsertIdx

/-!
# Slabs

The indices of a box that project onto one index when the marked axes are removed. Removing
one more axis joins the slabs along that axis, and the number of indices of a slab is the
product of the lengths of the removed axes.
-/

namespace Grid

variable {α : Type}

/-- The indices of a box of the given shape that project onto `y`. -/
def slab (mask : List Bool) (shape y : List Nat) : List (List Nat) :=
  (box shape).filter fun x => keep mask x = y

@[simp] theorem mem_slab {mask : List Bool} {shape x y : List Nat} :
    x ∈ slab mask shape y ↔ InBox x shape ∧ keep mask x = y := by
  simp [slab]

theorem nodup_slab (mask : List Bool) (shape y : List Nat) : (slab mask shape y).Nodup :=
  (nodup_box shape).filter _

/-- The entries at the marked positions. -/
def removed (mask : List Bool) (as : List α) : List α := keep (mask.map not) as

@[simp] theorem removed_nil (as : List α) : removed [] as = [] := keep_nil as

@[simp] theorem removed_true (bs : List Bool) (a : α) (as : List α) :
    removed (true :: bs) (a :: as) = a :: removed bs as := rfl

@[simp] theorem removed_false (bs : List Bool) (a : α) (as : List α) :
    removed (false :: bs) (a :: as) = removed bs as := rfl

/-! ## The number of indices of a slab -/

theorem slab_true (mask : List Bool) (n : Nat) (shape y : List Nat) :
    slab (true :: mask) (n :: shape) y =
      (List.range n).flatMap fun i => (slab mask shape y).map (i :: ·) := by
  simp only [slab, box, List.filter_flatMap, List.filter_map, Function.comp_def]
  rfl

theorem slab_false (mask : List Bool) (n j : Nat) (shape y : List Nat) (hj : j < n) :
    (slab (false :: mask) (n :: shape) (j :: y)).Perm ((slab mask shape y).map (j :: ·)) := by
  refine (List.perm_ext_iff_of_nodup (nodup_slab _ _ _)
    ((nodup_slab _ _ _).map List.cons_injective)).mpr ?_
  intro x
  rw [mem_slab, List.mem_map, InBox.cons_iff]
  constructor
  · rintro ⟨⟨i, x, rfl, hi, hx⟩, hk⟩
    rw [keep_false, List.cons.injEq] at hk
    exact ⟨x, mem_slab.mpr ⟨hx, hk.2⟩, by rw [hk.1]⟩
  · rintro ⟨x, hx, rfl⟩
    obtain ⟨hx, hk⟩ := mem_slab.mp hx
    exact ⟨⟨j, x, rfl, hj, hx⟩, by rw [keep_false, hk]⟩

theorem length_slab {mask : List Bool} {shape y : List Nat} (hMask : shape.length = mask.length)
    (hy : InBox y (keep mask shape)) : (slab mask shape y).length = (removed mask shape).prod := by
  induction mask generalizing shape y with
  | nil =>
    obtain rfl := List.length_eq_zero_iff.mp hMask
    cases hy
    rfl
  | cons b mask ih =>
    obtain ⟨n, shape, rfl⟩ := List.exists_cons_of_length_eq_add_one hMask
    cases b with
    | true =>
      simp [slab_true, List.length_flatMap, ih (by simpa using hMask) hy]
    | false =>
      obtain ⟨j, y, rfl, hj, hy⟩ := InBox.cons_iff.mp hy
      rw [(slab_false mask n j shape y hj).length_eq, List.length_map,
        ih (by simpa using hMask) hy, removed_false]

/-! ## Removing one axis -/

/-- The mask that removes axis `k` out of `n`. -/
def axisMask (k n : Nat) : List Bool := (List.replicate n false).set k true

@[simp] theorem length_axisMask (k n : Nat) : (axisMask k n).length = n := by simp [axisMask]

theorem axisMask_zero (n : Nat) : axisMask 0 (n + 1) = true :: List.replicate n false := by
  simp [axisMask, List.replicate_succ]

theorem axisMask_succ (k n : Nat) : axisMask (k + 1) (n + 1) = false :: axisMask k n := by
  simp [axisMask, List.replicate_succ]

theorem count_axisMask {k n : Nat} (h : k < n) : (axisMask k n).count false = n - 1 := by
  induction n generalizing k with
  | zero => omega
  | succ n ih =>
    cases k with
    | zero => simp [axisMask_zero]
    | succ k =>
      rw [axisMask_succ, List.count_cons_self, ih (by omega)]
      omega

theorem keep_axisMask {k n : Nat} {as : List α} (h : as.length = n) (hk : k < n) :
    keep (axisMask k n) as = as.eraseIdx k := by
  induction n generalizing k as with
  | zero => omega
  | succ n ih =>
    obtain ⟨a, as, rfl⟩ := List.exists_cons_of_length_eq_add_one h
    cases k with
    | zero => simp [axisMask_zero, keep_replicate_false (show as.length = n by simpa using h)]
    | succ k =>
      rw [axisMask_succ, keep_false, ih (by simpa using h) (by omega), List.eraseIdx_cons_succ]

theorem replicate_false_compose (ms : List Bool) :
    compose (List.replicate ms.length false) ms = ms := by
  induction ms with
  | nil => rfl
  | cons b ms ih => simp [List.replicate_succ, compose, ih]

/-- Removing one axis and then those of another mask. -/
theorem compose_axisMask {k m : Nat} {ms : List Bool} (hk : k < m) (hm : ms.length + 1 = m) :
    compose (axisMask k m) ms = ms.insertIdx k true := by
  induction m generalizing k ms with
  | zero => omega
  | succ m ih =>
    cases k with
    | zero =>
      obtain rfl : ms.length = m := by omega
      simp [axisMask_zero, compose, replicate_false_compose]
    | succ k =>
      obtain ⟨b, ms, rfl⟩ := List.exists_cons_of_length_pos (l := ms) (by omega)
      rw [axisMask_succ, compose, ih (by omega) (by simpa using hm), List.insertIdx_succ_cons]

theorem count_compose {bs ms : List Bool} (h : ms.length = bs.count false) :
    (compose bs ms).count false = ms.count false := by
  have hKeep := @keep_compose Bool bs ms h bs
  rw [← length_keep (length_compose bs ms).symm, hKeep, length_keep (by rw [length_keep rfl, h])]

theorem compose_assoc {bs ms ks : List Bool} (hms : ms.length = bs.count false) :
    compose (compose bs ms) ks = compose bs (compose ms ks) := by
  induction bs generalizing ms ks with
  | nil => rfl
  | cons b bs ih =>
    cases b with
    | true => simpa [compose] using ih (by simpa using hms)
    | false =>
      obtain ⟨m, ms, rfl⟩ := List.exists_cons_of_length_eq_add_one
        (l := ms) (n := bs.count false) (by simpa using hms)
      have hms' : ms.length = bs.count false := by simpa using hms
      cases m with
      | true => simp [compose, ih hms']
      | false => cases ks <;> simp [compose, ih hms']

theorem compose_replicate_false (bs : List Bool) (n : Nat) :
    compose bs (List.replicate n false) = bs := by
  induction bs generalizing n with
  | nil => rfl
  | cons b bs ih =>
    cases b with
    | true => simp [compose, ih]
    | false =>
      cases n with
      | zero => simpa [compose] using ih 0
      | succ n => simp [List.replicate_succ, compose, ih]

/-- Lists that agree after dropping an entry differ by inserting it. -/
theorem eraseIdx_eq_iff {k : Nat} {xs ys : List α} (hk : k < xs.length) :
    xs.eraseIdx k = ys ↔ xs = ys.insertIdx k xs[k] ∧ xs.length = ys.length + 1 := by
  constructor
  · rintro rfl
    refine ⟨(List.insertIdx_eraseIdx_getElem hk).symm, ?_⟩
    rw [List.length_eraseIdx_of_lt hk]
    omega
  · rintro ⟨hxs, _⟩
    rw [hxs, List.eraseIdx_insertIdx_self]

theorem inBox_insertIdx {k i : Nat} {y ns : List Nat} (hk : k < ns.length) :
    InBox (y.insertIdx k i) ns ↔ i < ns[k] ∧ InBox y (ns.eraseIdx k) := by
  induction ns generalizing k y with
  | nil => simp at hk
  | cons n ns ih =>
    cases k with
    | zero => simp
    | succ k =>
      cases y with
      | nil => simp
      | cons j y =>
        have hk' : k < ns.length := by simpa using hk
        rw [List.insertIdx_succ_cons, inBox_cons, ih hk', List.eraseIdx_cons_succ, inBox_cons,
          List.getElem_cons_succ]
        tauto

/-! ## Joining slabs -/

/-- Removing one more axis joins the slabs along that axis. -/
theorem slab_compose {mask : List Bool} {shape y : List Nat} {k m n : Nat}
    (hMask : shape.length = mask.length) (hm : m = mask.count false) (hk : k < m)
    (hn : (keep mask shape)[k]? = some n) :
    (slab (compose mask (axisMask k m)) shape y).Perm
      ((List.range n).flatMap fun i => slab mask shape (y.insertIdx k i)) := by
  have hKeep : (keep mask shape).length = m := by rw [length_keep hMask, hm]
  refine (List.perm_ext_iff_of_nodup (nodup_slab _ _ _) ?_).mpr ?_
  · rw [List.nodup_flatMap]
    refine ⟨fun i _ => nodup_slab _ _ _, ?_⟩
    refine List.nodup_range.imp ?_
    intro i j hij
    apply List.disjoint_left.mpr
    intro x hx hx'
    have hi := (mem_slab.mp hx).2
    have hj := (mem_slab.mp hx').2
    have hLen : (keep mask x).length = m := by
      rw [(inBox_keep (mem_slab.mp hx).1).length_eq, hKeep]
    have hy : k ≤ y.length := by
      rw [hi] at hLen
      by_contra hgt
      rw [List.insertIdx_of_length_lt (by omega)] at hLen
      omega
    have hGet : ∀ l, (y.insertIdx k l)[k]? = some l := by
      intro l
      rw [List.getElem?_insertIdx_self, if_pos hy]
    have := (congrArg (·[k]?) (hi.symm.trans hj)).symm
    simp only [hGet, Option.some.injEq] at this
    exact hij this.symm
  · intro x
    rw [mem_slab, List.mem_flatMap]
    constructor
    · rintro ⟨hx, hKept⟩
      have hBox := @inBox_keep mask _ _ hx
      have hLen : (keep mask x).length = m := by rw [hBox.length_eq, hKeep]
      rw [keep_compose (by rw [length_axisMask, hm]), keep_axisMask hLen hk,
        eraseIdx_eq_iff (by omega)] at hKept
      refine ⟨(keep mask x)[k], ?_, mem_slab.mpr ⟨hx, hKept.1⟩⟩
      have hLt := (inBox_iff_getD.mp hBox).2 k (by omega)
      rw [List.getD_eq_getElem _ _ (by omega), List.getD_eq_getElem?_getD, hn] at hLt
      exact List.mem_range.mpr hLt
    · rintro ⟨i, hi, hx⟩
      obtain ⟨hx, hKept⟩ := mem_slab.mp hx
      have hLen : (keep mask x).length = m := by rw [(inBox_keep hx).length_eq, hKeep]
      refine ⟨hx, ?_⟩
      rw [keep_compose (by rw [length_axisMask, hm]), keep_axisMask hLen hk, hKept,
        List.eraseIdx_insertIdx_self]

/-- Without removed axes a slab is a single index. -/
theorem slab_replicate_false {shape y : List Nat} (hy : InBox y shape) :
    slab (List.replicate shape.length false) shape y = [y] := by
  refine List.perm_singleton.mp ((List.perm_ext_iff_of_nodup (nodup_slab _ _ _)
    (List.nodup_singleton y)).mpr ?_)
  intro x
  rw [mem_slab, List.mem_singleton]
  constructor
  · rintro ⟨hx, hKept⟩
    rwa [keep_replicate_false hx.length_eq] at hKept
  · rintro rfl
    exact ⟨hy, keep_replicate_false hy.length_eq⟩

/-- Removing one axis makes slabs of lines. -/
theorem slab_axisMask {shape y : List Nat} {k n : Nat} (hLen : shape.length = n) (hk : k < n)
    (hy : InBox y (shape.eraseIdx k)) :
    (slab (axisMask k n) shape y).Perm
      ((List.range (shape.getD k 0)).map fun i => y.insertIdx k i) := by
  subst hLen
  have hMask : shape.length = (List.replicate shape.length false).length := by simp
  have hNone : compose (List.replicate shape.length false) (axisMask k shape.length) =
      axisMask k shape.length := by
    have h := replicate_false_compose (axisMask k shape.length)
    rwa [length_axisMask] at h
  have hJoin := slab_compose (y := y) hMask (by simp) hk
    (show (keep (List.replicate shape.length false) shape)[k]? = some (shape.getD k 0) by
      rw [keep_replicate_false rfl, List.getElem?_eq_getElem hk, List.getD_eq_getElem _ _ hk])
  rw [hNone] at hJoin
  refine hJoin.trans (List.Perm.of_eq ?_)
  rw [← List.flatMap_singleton' ((List.range (shape.getD k 0)).map _), List.flatMap_map]
  refine List.flatMap_congr fun i hi => ?_
  refine slab_replicate_false ((inBox_insertIdx hk).mpr ⟨?_, hy⟩)
  rw [List.mem_range, List.getD_eq_getElem _ _ hk] at hi
  exact hi

end Grid
