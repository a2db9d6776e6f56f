import IronArray.Grid.Mask

/-!
# Arrays as functions on a box

An array is a shape and a function from indices to elements; only the values inside the box
matter. These are the operations that views are meant to perform, with the laws by which
they compose.
-/

namespace Grid

/-- Translate an index. -/
def addIdx (s x : List Nat) : List Nat := List.zipWith (· + ·) s x

@[simp] theorem addIdx_cons (i j : Nat) (s x : List Nat) :
    addIdx (i :: s) (j :: x) = (i + j) :: addIdx s x := rfl

@[simp] theorem addIdx_nil (x : List Nat) : addIdx [] x = [] := rfl

@[simp] theorem addIdx_nil_right (s : List Nat) : addIdx s [] = [] := by cases s <;> rfl

theorem addIdx_assoc (r s x : List Nat) : addIdx (addIdx r s) x = addIdx r (addIdx s x) := by
  induction r generalizing s x with
  | nil => rfl
  | cons i r ih =>
    cases s with
    | nil => rfl
    | cons j s =>
      cases x with
      | nil => rfl
      | cons k x => simp [ih, Nat.add_assoc]

theorem length_addIdx {s x : List Nat} (h : s.length = x.length) :
    (addIdx s x).length = x.length := by
  simp [addIdx, h]

theorem addIdx_replicate_zero {n : Nat} {x : List Nat} (h : x.length = n) :
    addIdx (List.replicate n 0) x = x := by
  subst h
  induction x with
  | nil => rfl
  | cons i x ih => simpa [List.replicate_succ] using ih

theorem addIdx_replicate_zero_right {n : Nat} {s : List Nat} (h : s.length = n) :
    addIdx s (List.replicate n 0) = s := by
  rw [addIdx, List.zipWith_comm_of_comm fun i j => Nat.add_comm i j]
  exact addIdx_replicate_zero h

theorem addIdx_append {s x : List Nat} (h : s.length = x.length) (s' x' : List Nat) :
    addIdx (s ++ s') (x ++ x') = addIdx s x ++ addIdx s' x' := List.zipWith_append h

theorem keep_addIdx (bs : List Bool) (s x : List Nat) :
    keep bs (addIdx s x) = addIdx (keep bs s) (keep bs x) := by
  induction bs generalizing s x with
  | nil => simp
  | cons b bs ih =>
    cases s with
    | nil => simp
    | cons i s =>
      cases x with
      | nil => cases b <;> simp
      | cons j x => cases b <;> simp [ih]

theorem getD_addIdx {s n : List Nat} (h : s.length = n.length) (i : Nat) :
    (addIdx s n).getD i 0 = s.getD i 0 + n.getD i 0 := by
  induction s generalizing n i with
  | nil =>
    obtain rfl := List.length_eq_zero_iff.mp h.symm
    simp
  | cons j s ih =>
    obtain ⟨k, n, rfl⟩ := List.exists_cons_of_length_eq_add_one h.symm
    cases i with
    | zero => simp
    | succ i => simpa using ih (by simpa using h) i

theorem addIdx_reverse {s n : List Nat} (h : s.length = n.length) :
    addIdx s.reverse n.reverse = (addIdx s n).reverse := (List.reverse_zipWith h).symm

/-- The position of `x` in the region that starts at `s`. -/
def within (s x : List Nat) : List Nat := List.zipWith (· - ·) x s

theorem within_addIdx {s x : List Nat} (h : s.length = x.length) : within s (addIdx s x) = x := by
  induction s generalizing x with
  | nil =>
    obtain rfl := List.length_eq_zero_iff.mp h.symm
    rfl
  | cons i s ih =>
    obtain ⟨j, x, rfl⟩ := List.exists_cons_of_length_eq_add_one h.symm
    have hRest := ih (x := x) (by simpa using h)
    simp only [within] at hRest ⊢
    rw [addIdx_cons, List.zipWith_cons_cons, hRest, Nat.add_sub_cancel_left]

theorem addIdx_injective {s x y : List Nat} (hx : s.length = x.length) (hy : s.length = y.length)
    (h : addIdx s x = addIdx s y) : x = y := by
  rw [← within_addIdx hx, h, within_addIdx hy]

/-! ## The last axis -/

/-- Along the last axis the items of a box are neighbours. -/
theorem flat_addIdx_last {ns s is : List Nat} (hs : s.length = ns.length)
    (hi : is.length + 1 = ns.length) (j : Nat) :
    flat ns (addIdx s (is ++ [j])) = flat ns (addIdx s (is ++ [0])) + j := by
  induction is generalizing ns s with
  | nil =>
    obtain ⟨n, rfl⟩ := List.length_eq_one_iff.mp hi.symm
    obtain ⟨i, rfl⟩ := List.length_eq_one_iff.mp hs
    simp [flat]
  | cons i is ih =>
    obtain ⟨n, ns, rfl⟩ := List.exists_cons_of_length_eq_add_one hi.symm
    obtain ⟨k, s, rfl⟩ := List.exists_cons_of_length_eq_add_one hs
    rw [List.cons_append, addIdx_cons, flat_cons, ih (by simpa using hs) (by simpa using hi),
      List.cons_append, addIdx_cons, flat_cons, Nat.add_assoc]

theorem flat_last {ns is : List Nat} (hi : is.length + 1 = ns.length) (j : Nat) :
    flat ns (is ++ [j]) = flat ns (is ++ [0]) + j := by
  have hLast := flat_addIdx_last (s := List.replicate ns.length 0) (by simp) hi j
  rwa [addIdx_replicate_zero (by simpa using hi), addIdx_replicate_zero (by simpa using hi)]
    at hLast

/-- An index whose last position is set apart. -/
theorem inBox_snoc {is ns : List Nat} {j : Nat} (hne : ns ≠ []) :
    InBox (is ++ [j]) ns ↔ InBox is ns.dropLast ∧ j < ns.getLastD 0 := by
  induction is generalizing ns with
  | nil =>
    obtain ⟨n, ns, rfl⟩ := List.exists_cons_of_ne_nil hne
    cases ns with
    | nil => simp
    | cons m ns => simp
  | cons i is ih =>
    obtain ⟨n, ns, rfl⟩ := List.exists_cons_of_ne_nil hne
    cases ns with
    | nil =>
      have hNone : ¬ InBox (is ++ [j]) [] := fun h => by simpa using h.length_eq
      simp [hNone]
    | cons m ns =>
      rw [List.cons_append, inBox_cons, ih (List.cons_ne_nil m ns), List.dropLast_cons_cons,
        inBox_cons, and_assoc]
      rfl

theorem exists_snoc {y ns : List Nat} (hne : ns ≠ []) (hy : InBox y ns) :
    ∃ is j, y = is ++ [j] := by
  rcases y.eq_nil_or_concat with rfl | ⟨is, j, rfl⟩
  · exact absurd (List.length_eq_zero_iff.mp hy.length_eq.symm) hne
  · exact ⟨is, j, List.concat_eq_append⟩

/-! ## Regions -/

/-- The region of shape `n` that starts at `s` lies in a box. -/
structure Region (s n shape : List Nat) : Prop where
  start_length : s.length = shape.length
  length : n.length = shape.length
  inside : List.Forall₂ (· ≤ ·) (addIdx s n) shape

namespace Region

theorem cons_iff {i m t : Nat} {s n shape : List Nat} :
    Region (i :: s) (m :: n) (t :: shape) ↔ i + m ≤ t ∧ Region s n shape := by
  constructor
  · rintro ⟨hs, hn, hin⟩
    rw [addIdx_cons, List.forall₂_cons] at hin
    exact ⟨hin.1, by simpa using hs, by simpa using hn, hin.2⟩
  · rintro ⟨hi, hs, hn, hin⟩
    exact ⟨by simpa using hs, by simpa using hn, List.Forall₂.cons hi hin⟩

theorem getD_le {s n shape : List Nat} (h : Region s n shape) (i : Nat) :
    s.getD i 0 + n.getD i 0 ≤ shape.getD i 0 := by
  induction shape generalizing s n i with
  | nil =>
    obtain rfl : s = [] := List.length_eq_zero_iff.mp h.start_length
    obtain rfl : n = [] := List.length_eq_zero_iff.mp h.length
    simp
  | cons t shape ih =>
    obtain ⟨k, n, rfl⟩ := List.exists_cons_of_length_eq_add_one h.length
    obtain ⟨j, s, rfl⟩ := List.exists_cons_of_length_eq_add_one h.start_length
    obtain ⟨hj, hrest⟩ := cons_iff.mp h
    cases i with
    | zero => simpa using hj
    | succ i => simpa using ih hrest i

theorem inBox {s n shape x : List Nat} (h : Region s n shape) (hx : InBox x n) :
    InBox (addIdx s x) shape := by
  induction hx generalizing s shape with
  | nil =>
    obtain rfl : shape = [] := List.length_eq_zero_iff.mp h.length.symm
    simp
  | @cons i m x n hi _ ih =>
    obtain ⟨t, shape, rfl⟩ := List.exists_cons_of_length_pos (l := shape) (by
      rw [← h.length]
      simp)
    obtain ⟨j, s, rfl⟩ := List.exists_cons_of_length_eq_add_one h.start_length
    obtain ⟨hj, hrest⟩ := cons_iff.mp h
    have hlt : j + i < t := by omega
    exact inBox_cons.mpr ⟨hlt, ih hrest⟩

/-- The part of a region along the first axes. -/
theorem of_append {s s' n n' shape shape' : List Nat} (hs : s.length = shape.length)
    (hn : n.length = shape.length) (h : Region (s ++ s') (n ++ n') (shape ++ shape')) :
    Region s n shape := by
  induction shape generalizing s n with
  | nil =>
    obtain rfl : s = [] := List.length_eq_zero_iff.mp hs
    obtain rfl : n = [] := List.length_eq_zero_iff.mp hn
    exact ⟨rfl, rfl, by simp⟩
  | cons t shape ih =>
    obtain ⟨j, s, rfl⟩ := List.exists_cons_of_length_eq_add_one hs
    obtain ⟨k, n, rfl⟩ := List.exists_cons_of_length_eq_add_one hn
    obtain ⟨hj, hrest⟩ := cons_iff.mp h
    exact cons_iff.mpr ⟨hj, ih (by simpa using hs) (by simpa using hn) hrest⟩

/-- A region of a region. -/
theorem trans {s n r m shape : List Nat} (h : Region s n shape) (h' : Region r m n) :
    Region (addIdx s r) m shape := by
  induction shape generalizing s n r m with
  | nil =>
    have hn : n = [] := List.length_eq_zero_iff.mp h.length
    subst hn
    have hs : s = [] := List.length_eq_zero_iff.mp h.start_length
    subst hs
    exact ⟨rfl, h'.length, by simp⟩
  | cons t shape ih =>
    obtain ⟨k, n, rfl⟩ := List.exists_cons_of_length_eq_add_one h.length
    obtain ⟨i, s, rfl⟩ := List.exists_cons_of_length_eq_add_one h.start_length
    obtain ⟨l, m, rfl⟩ := List.exists_cons_of_length_eq_add_one h'.length
    obtain ⟨j, r, rfl⟩ := List.exists_cons_of_length_eq_add_one h'.start_length
    obtain ⟨hi, hrest⟩ := cons_iff.mp h
    obtain ⟨hj, hrest'⟩ := cons_iff.mp h'
    rw [addIdx_cons]
    exact cons_iff.mpr ⟨by omega, ih hrest hrest'⟩

theorem reverse {s n shape : List Nat} (h : Region s n shape) :
    Region s.reverse n.reverse shape.reverse := by
  refine ⟨by simp [h.start_length], by simp [h.length], ?_⟩
  rw [addIdx_reverse (h.start_length.trans h.length.symm)]
  exact List.forall₂_reverse_iff.mpr h.inside

theorem whole (shape : List Nat) : Region (List.replicate shape.length 0) shape shape := by
  refine ⟨by simp, rfl, ?_⟩
  rw [addIdx_replicate_zero rfl]
  exact List.forall₂_same.mpr fun _ _ => le_rfl

/-- A region of the kept axes, with the removed axes put back, is a region of the window. -/
theorem spread {mask : List Bool} {s n ws : List Nat} (hws : ws.length = mask.length)
    (hu : UnitOn mask ws) (h : Region s n (keep mask ws)) :
    Region (Grid.spread 0 mask s) (Grid.spread 1 mask n) ws := by
  induction mask generalizing s n ws with
  | nil =>
    obtain rfl := List.length_eq_zero_iff.mp hws
    exact ⟨by simp, by simp, by simp⟩
  | cons b mask ih =>
    obtain ⟨w, ws, rfl⟩ := List.exists_cons_of_length_eq_add_one hws
    cases b with
    | true =>
      simp only [UnitOn, keep_true, spread_true, List.cons.injEq] at hu
      obtain ⟨rfl, hu⟩ := hu
      rw [spread_true, spread_true]
      exact cons_iff.mpr ⟨le_rfl, ih (by simpa using hws) hu h⟩
    | false =>
      simp only [UnitOn, keep_false, spread_false, List.cons.injEq, true_and] at hu
      rw [keep_false] at h
      obtain ⟨i, s, rfl⟩ := List.exists_cons_of_length_eq_add_one h.start_length
      obtain ⟨k, n, rfl⟩ := List.exists_cons_of_length_eq_add_one h.length
      obtain ⟨hi, hRest⟩ := cons_iff.mp h
      rw [spread_false, spread_false]
      exact cons_iff.mpr ⟨hi, ih (by simpa using hws) hu hRest⟩

/-- A nonempty region needs a nonempty box. -/
theorem prod_ne_zero {s n shape : List Nat} (h : Region s n shape)
    (hPos : ∀ k ∈ n, 0 < k) : shape.prod ≠ 0 := by
  have hBox := h.inBox (inBox_replicate_zero hPos)
  have := flat_lt hBox
  omega

end Region

/-! ## Arrays -/

structure NdArray (α : Type) where
  shape : List Nat
  get : List Nat → α

namespace NdArray

variable {α β : Type}

/-- Two arrays are the same when their boxes and the elements in them are. -/
structure Same (A B : NdArray α) : Prop where
  shape : A.shape = B.shape
  get : ∀ x, InBox x A.shape → A.get x = B.get x

theorem Same.refl (A : NdArray α) : Same A A := ⟨rfl, fun _ _ => rfl⟩

theorem Same.symm {A B : NdArray α} (h : Same A B) : Same B A :=
  ⟨h.shape.symm, fun x hx => (h.get x (h.shape ▸ hx)).symm⟩

theorem Same.trans {A B C : NdArray α} (h : Same A B) (h' : Same B C) : Same A C :=
  ⟨h.shape.trans h'.shape, fun x hx => (h.get x hx).trans (h'.get x (h.shape ▸ hx))⟩

/-- The region of shape `n` at `s`. -/
def slice (A : NdArray α) (s n : List Nat) : NdArray α := ⟨n, fun x => A.get (addIdx s x)⟩

/-- Drop the marked axes, which have length one. -/
def squeeze (A : NdArray α) (mask : List Bool) : NdArray α :=
  ⟨keep mask A.shape, fun x => A.get (spread 0 mask x)⟩

def map (f : α → β) (A : NdArray α) : NdArray β := ⟨A.shape, fun x => f (A.get x)⟩

def transpose (A : NdArray α) : NdArray α := ⟨A.shape.reverse, fun x => A.get x.reverse⟩

theorem Same.slice {A B : NdArray α} {s n : List Nat} (h : Same A B) (hr : Region s n A.shape) :
    Same (A.slice s n) (B.slice s n) := ⟨rfl, fun _ hx => h.get _ (hr.inBox hx)⟩

theorem Same.map {A B : NdArray α} (h : Same A B) (f : α → β) : Same (A.map f) (B.map f) :=
  ⟨h.shape, fun x hx => congrArg f (h.get x hx)⟩

theorem Same.transpose {A B : NdArray α} (h : Same A B) : Same A.transpose B.transpose := by
  refine ⟨congrArg List.reverse h.shape, fun x hx => h.get _ ?_⟩
  rw [← List.reverse_reverse A.shape]
  exact List.forall₂_reverse_iff.mpr hx

theorem Same.squeeze {A B : NdArray α} {mask : List Bool} (h : Same A B)
    (hlen : mask.length = A.shape.length) (hu : UnitOn mask A.shape) :
    Same (A.squeeze mask) (B.squeeze mask) := by
  refine ⟨congrArg (keep mask) h.shape, fun x hx => h.get _ ?_⟩
  have hcount : (keep mask A.shape).length = mask.count false := length_keep hlen.symm
  rw [← hu]
  exact (inBox_spread (hx.length_eq.trans hcount) hcount).mpr hx

theorem transpose_transpose (A : NdArray α) : A.transpose.transpose = A := by
  simp [transpose]

theorem squeeze_squeeze (A : NdArray α) {mask mask' : List Bool}
    (hMask' : mask'.length = mask.count false) :
    (A.squeeze mask).squeeze mask' = A.squeeze (compose mask mask') := by
  simp only [squeeze, keep_compose hMask', spread_compose hMask']

theorem map_map {γ : Type} (f : α → β) (g : β → γ) (A : NdArray α) :
    (A.map f).map g = A.map (g ∘ f) := rfl

end NdArray

end Grid
