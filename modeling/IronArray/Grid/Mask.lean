import IronArray.Grid.Index
import Mathlib.Data.List.GetD

/-!
# Removing and restoring axes

A mask marks the axes of a box that are removed. `keep` drops the marked entries of a list,
`spread` puts them back with a fixed value, `keptIdx` lists the positions that remain and
`compose` is the mask of removing axes twice. When every removed axis has length one the two
boxes are the same, with the same row-major numbers.
-/

namespace Grid

variable {α β : Type}

/-! ## Keeping and spreading -/

/-- The entries at the positions that the mask does not mark. -/
def keep : List Bool → List α → List α
  | true :: bs, _ :: as => keep bs as
  | false :: bs, a :: as => a :: keep bs as
  | _, _ => []

/-- The list with the value `d` put back at the marked positions. -/
def spread (d : α) : List Bool → List α → List α
  | [], _ => []
  | true :: bs, as => d :: spread d bs as
  | false :: bs, a :: as => a :: spread d bs as
  | false :: bs, [] => d :: spread d bs []

/-- The positions that the mask does not mark. -/
def keptIdx : List Bool → List Nat
  | [] => []
  | true :: bs => (keptIdx bs).map (· + 1)
  | false :: bs => 0 :: (keptIdx bs).map (· + 1)

/-- Mark, among the positions that the first mask leaves, those that the second marks. -/
def compose : List Bool → List Bool → List Bool
  | true :: bs, ms => true :: compose bs ms
  | false :: bs, m :: ms => m :: compose bs ms
  | false :: bs, [] => false :: compose bs []
  | [], _ => []

@[simp] theorem keep_nil (as : List α) : keep [] as = [] := by cases as <;> rfl

@[simp] theorem keep_nil_right (bs : List Bool) : keep bs ([] : List α) = [] := by
  rcases bs with _ | ⟨b, bs⟩
  · rfl
  · cases b <;> rfl

@[simp] theorem keep_true (bs : List Bool) (a : α) (as : List α) :
    keep (true :: bs) (a :: as) = keep bs as := rfl

@[simp] theorem keep_false (bs : List Bool) (a : α) (as : List α) :
    keep (false :: bs) (a :: as) = a :: keep bs as := rfl

@[simp] theorem spread_nil (d : α) (as : List α) : spread d [] as = [] := by cases as <;> rfl

@[simp] theorem spread_true (d : α) (bs : List Bool) (as : List α) :
    spread d (true :: bs) as = d :: spread d bs as := by cases as <;> rfl

@[simp] theorem spread_false (d : α) (bs : List Bool) (a : α) (as : List α) :
    spread d (false :: bs) (a :: as) = a :: spread d bs as := rfl

@[simp] theorem length_spread (d : α) (bs : List Bool) (as : List α) :
    (spread d bs as).length = bs.length := by
  induction bs generalizing as with
  | nil => simp
  | cons b bs ih =>
    cases b with
    | true => simp [ih]
    | false => cases as <;> simp [spread, ih]

theorem mem_of_mem_keep {bs : List Bool} {as : List α} {a : α} (h : a ∈ keep bs as) : a ∈ as := by
  induction bs generalizing as with
  | nil => simp at h
  | cons b bs ih =>
    cases as with
    | nil => simp at h
    | cons a' as =>
      cases b with
      | true => exact List.mem_cons_of_mem _ (ih h)
      | false =>
        rcases List.mem_cons.mp h with rfl | hRest
        · exact List.mem_cons_self
        · exact List.mem_cons_of_mem _ (ih hRest)

theorem length_keep {bs : List Bool} {as : List α} (h : as.length = bs.length) :
    (keep bs as).length = bs.count false := by
  induction bs generalizing as with
  | nil => simp
  | cons b bs ih =>
    obtain ⟨a, as, rfl⟩ := List.exists_cons_of_length_eq_add_one h
    cases b <;> simp [ih (by simpa using h)]

theorem length_keptIdx (bs : List Bool) : (keptIdx bs).length = bs.count false := by
  induction bs with
  | nil => rfl
  | cons b bs ih => cases b <;> simp [keptIdx, ih]

theorem keep_spread {d : α} {bs : List Bool} {as : List α} (h : as.length = bs.count false) :
    keep bs (spread d bs as) = as := by
  induction bs generalizing as with
  | nil => simp_all
  | cons b bs ih =>
    cases b with
    | true => simpa using ih (by simpa using h)
    | false =>
      obtain ⟨a, as, rfl⟩ := List.exists_cons_of_length_eq_add_one
        (l := as) (n := bs.count false) (by simpa using h)
      simpa using ih (by simpa using h)

theorem keep_replicate_false {n : Nat} {as : List α} (h : as.length = n) :
    keep (List.replicate n false) as = as := by
  induction n generalizing as with
  | zero => simp_all
  | succ n ih =>
    obtain ⟨a, as, rfl⟩ := List.exists_cons_of_length_eq_add_one h
    simpa [List.replicate_succ] using ih (by simpa using h)

theorem spread_replicate_false (d : α) {n : Nat} {as : List α} (h : as.length = n) :
    spread d (List.replicate n false) as = as := by
  induction n generalizing as with
  | zero => simp_all
  | succ n ih =>
    obtain ⟨a, as, rfl⟩ := List.exists_cons_of_length_eq_add_one h
    simpa [List.replicate_succ] using ih (by simpa using h)

theorem keptIdx_replicate_false (n : Nat) : keptIdx (List.replicate n false) = List.range n := by
  induction n with
  | zero => rfl
  | succ n ih => simp [List.replicate_succ, keptIdx, ih, List.range_succ_eq_map]

theorem keep_map (f : α → β) (bs : List Bool) (as : List α) :
    keep bs (as.map f) = (keep bs as).map f := by
  induction bs generalizing as with
  | nil => simp
  | cons b bs ih => cases as <;> cases b <;> simp [ih]

theorem keep_append {bs cs : List Bool} {as ds : List α} (h : as.length = bs.length) :
    keep (bs ++ cs) (as ++ ds) = keep bs as ++ keep cs ds := by
  induction bs generalizing as with
  | nil =>
    obtain rfl := List.length_eq_zero_iff.mp h
    simp
  | cons b bs ih =>
    obtain ⟨a, as, rfl⟩ := List.exists_cons_of_length_eq_add_one h
    cases b <;> simp [@ih as (by simpa using h)]

/-- Keeping one more entry. -/
theorem keep_take_succ {bs : List Bool} {as : List α} (h : as.length = bs.length) {i : Nat}
    (hi : i < bs.length) :
    keep (bs.take (i + 1)) (as.take (i + 1)) =
      keep (bs.take i) (as.take i) ++ if bs[i] then [] else [as[i]] := by
  rw [List.take_add_one, List.take_add_one, List.getElem?_eq_getElem hi,
    List.getElem?_eq_getElem (h ▸ hi), Option.toList_some, Option.toList_some,
    keep_append (by simp [h])]
  cases hb : bs[i] <;> simp [keep]

/-! ## Boxes with unit axes -/

/-- The shape is one at every marked position. -/
def UnitOn (bs : List Bool) (ns : List Nat) : Prop := spread 1 bs (keep bs ns) = ns

theorem unitOn_replicate_false {n : Nat} {ns : List Nat} (h : ns.length = n) :
    UnitOn (List.replicate n false) ns := by
  rw [UnitOn, keep_replicate_false h, spread_replicate_false 1 h]

theorem inBox_spread {bs : List Bool} {is ns : List Nat} (hi : is.length = bs.count false)
    (hn : ns.length = bs.count false) :
    InBox (spread 0 bs is) (spread 1 bs ns) ↔ InBox is ns := by
  induction bs generalizing is ns with
  | nil => simp_all
  | cons b bs ih =>
    cases b with
    | true => simpa using ih (by simpa using hi) (by simpa using hn)
    | false =>
      obtain ⟨i, is, rfl⟩ := List.exists_cons_of_length_eq_add_one
        (l := is) (n := bs.count false) (by simpa using hi)
      obtain ⟨n, ns, rfl⟩ := List.exists_cons_of_length_eq_add_one
        (l := ns) (n := bs.count false) (by simpa using hn)
      simpa using fun _ => ih (by simpa using hi) (by simpa using hn)

theorem forall₂_keep {r : Nat → Nat → Prop} {bs : List Bool} {is ns : List Nat}
    (h : List.Forall₂ r is ns) : List.Forall₂ r (keep bs is) (keep bs ns) := by
  induction h generalizing bs with
  | nil => simp
  | @cons i n is ns hi _ ih =>
    rcases bs with _ | ⟨b, bs⟩
    · simp
    · cases b
      · simpa using ⟨hi, ih⟩
      · simpa using ih

theorem inBox_keep {bs : List Bool} {is ns : List Nat} (h : InBox is ns) :
    InBox (keep bs is) (keep bs ns) := forall₂_keep h

/-- In a box that is one at the marked positions an index is zero there. -/
theorem spread_keep_of_inBox {bs : List Bool} {is ns : List Nat} (hlen : ns.length = bs.length)
    (hu : UnitOn bs ns) (h : InBox is ns) : spread 0 bs (keep bs is) = is := by
  induction bs generalizing is ns with
  | nil =>
    rw [List.length_nil, List.length_eq_zero_iff] at hlen
    subst hlen
    cases h
    rfl
  | cons b bs ih =>
    obtain ⟨n, ns, rfl⟩ := List.exists_cons_of_length_eq_add_one hlen
    obtain ⟨i, is, rfl, hi, his⟩ := InBox.cons_iff.mp h
    cases b with
    | true =>
      simp only [UnitOn, keep_true, spread_true, List.cons.injEq] at hu
      obtain ⟨rfl, hu⟩ := hu
      obtain rfl : i = 0 := by omega
      simpa using ih (by simpa using hlen) hu his
    | false =>
      simp only [UnitOn, keep_false, spread_false, List.cons.injEq, true_and] at hu
      simpa using ih (by simpa using hlen) hu his

theorem prod_spread {bs : List Bool} {ns : List Nat} (h : ns.length = bs.count false) :
    (spread 1 bs ns).prod = ns.prod := by
  induction bs generalizing ns with
  | nil => simp_all
  | cons b bs ih =>
    cases b with
    | true => simpa using ih (by simpa using h)
    | false =>
      obtain ⟨n, ns, rfl⟩ := List.exists_cons_of_length_eq_add_one
        (l := ns) (n := bs.count false) (by simpa using h)
      simp [ih (by simpa using h)]

theorem flat_spread {bs : List Bool} {is ns : List Nat} (hi : is.length = bs.count false)
    (hn : ns.length = bs.count false) :
    flat (spread 1 bs ns) (spread 0 bs is) = flat ns is := by
  induction bs generalizing is ns with
  | nil => simp_all
  | cons b bs ih =>
    cases b with
    | true => simpa using ih (by simpa using hi) (by simpa using hn)
    | false =>
      obtain ⟨i, is, rfl⟩ := List.exists_cons_of_length_eq_add_one
        (l := is) (n := bs.count false) (by simpa using hi)
      obtain ⟨n, ns, rfl⟩ := List.exists_cons_of_length_eq_add_one
        (l := ns) (n := bs.count false) (by simpa using hn)
      simp [@ih is ns (by simpa using hi) (by simpa using hn),
        @prod_spread bs ns (by simpa using hn)]

theorem mem_spread_one {mask : List Bool} {n : List Nat} (hn : n.length = mask.count false)
    (h : ∀ k ∈ n, 0 < k) : ∀ k ∈ spread 1 mask n, 0 < k := by
  induction mask generalizing n with
  | nil => simp
  | cons b mask ih =>
    cases b with
    | true => simpa using ih (by simpa using hn) h
    | false =>
      obtain ⟨k, n, rfl⟩ := List.exists_cons_of_length_eq_add_one
        (l := n) (n := mask.count false) (by simpa using hn)
      simp only [List.mem_cons, forall_eq_or_imp] at h
      simpa [h.1] using ih (by simpa using hn) h.2

theorem spread_le {mask : List Bool} {n m : List Nat} (hn : n.length = mask.count false)
    (h : List.Forall₂ (· ≤ ·) n m) :
    List.Forall₂ (· ≤ ·) (spread 1 mask n) (spread 1 mask m) := by
  induction mask generalizing n m with
  | nil => simp
  | cons b mask ih =>
    cases b with
    | true => simpa using ih (by simpa using hn) h
    | false =>
      obtain ⟨k, n, rfl⟩ := List.exists_cons_of_length_eq_add_one
        (l := n) (n := mask.count false) (by simpa using hn)
      obtain ⟨l, m, hl, hm, rfl⟩ := List.forall₂_cons_left_iff.mp h
      simpa [hl] using ih (by simpa using hn) hm

/-! ## Removing the last axes -/

/-- The mask that leaves the first `k` axes and removes the `t` behind them. -/
def tailMask (k t : Nat) : List Bool := List.replicate k false ++ List.replicate t true

@[simp] theorem length_tailMask (k t : Nat) : (tailMask k t).length = k + t := by simp [tailMask]

@[simp] theorem count_tailMask (k t : Nat) : (tailMask k t).count false = k := by
  simp [tailMask, List.count_append, List.count_replicate]

theorem tailMask_succ (k t : Nat) : tailMask (k + 1) t = false :: tailMask k t := by
  simp [tailMask, List.replicate_succ]

theorem spread_replicate_true (d : α) (t : Nat) (as : List α) :
    spread d (List.replicate t true) as = List.replicate t d := by
  induction t with
  | zero => simp
  | succ t ih => simp [List.replicate_succ, ih]

theorem spread_tailMask (d : α) {k : Nat} (t : Nat) {as : List α} (h : as.length = k) :
    spread d (tailMask k t) as = as ++ List.replicate t d := by
  induction k generalizing as with
  | zero =>
    obtain rfl := List.length_eq_zero_iff.mp h
    simpa [tailMask] using spread_replicate_true d t []
  | succ k ih =>
    obtain ⟨a, as, rfl⟩ := List.exists_cons_of_length_eq_add_one h
    rw [tailMask_succ, spread_false, ih (by simpa using h), List.cons_append]

/-- Only a tail mask leaves an initial run of positions. -/
theorem eq_tailMask_of_keptIdx {bs : List Bool} {k : Nat} (h : keptIdx bs = List.range k) :
    bs = tailMask k (bs.length - k) := by
  induction bs generalizing k with
  | nil =>
    cases k with
    | zero => rfl
    | succ k => simp [keptIdx, List.range_succ_eq_map] at h
  | cons b bs ih =>
    cases b with
    | true =>
      cases k with
      | zero =>
        have hNil : keptIdx bs = List.range 0 := by simpa [keptIdx] using h
        have hRest := ih hNil
        simp only [tailMask, List.replicate_zero, List.nil_append, Nat.sub_zero,
          List.length_cons, List.replicate_succ] at hRest ⊢
        rw [← hRest]
      | succ k =>
        have hHead := congrArg List.head? h
        cases hIdx : keptIdx bs <;> simp [keptIdx, hIdx, List.range_succ_eq_map] at hHead
    | false =>
      cases k with
      | zero => simp [keptIdx] at h
      | succ k =>
        rw [keptIdx, List.range_succ_eq_map, List.cons.injEq] at h
        have hRest := ih (List.map_injective_iff.mpr Nat.succ_injective h.2)
        rw [tailMask_succ, List.length_cons, Nat.add_sub_add_right, ← hRest]

/-! ## Removing axes twice -/

@[simp] theorem length_compose (bs ms : List Bool) : (compose bs ms).length = bs.length := by
  induction bs generalizing ms with
  | nil => cases ms <;> rfl
  | cons b bs ih =>
    cases b with
    | true => simp [compose, ih]
    | false => cases ms <;> simp [compose, ih]

theorem keep_compose {bs ms : List Bool} (h : ms.length = bs.count false) (as : List α) :
    keep (compose bs ms) as = keep ms (keep bs as) := by
  induction bs generalizing ms as with
  | nil => simp [compose]
  | cons b bs ih =>
    cases as with
    | nil => simp
    | cons a as =>
      cases b with
      | true => simpa [compose] using ih (by simpa using h) as
      | false =>
        obtain ⟨m, ms, rfl⟩ := List.exists_cons_of_length_eq_add_one
          (l := ms) (n := bs.count false) (by simpa using h)
        cases m <;> simpa [compose] using ih (by simpa using h) as

theorem spread_compose {d : α} {bs ms : List Bool} (h : ms.length = bs.count false)
    (as : List α) : spread d (compose bs ms) as = spread d bs (spread d ms as) := by
  induction bs generalizing ms as with
  | nil => simp [compose]
  | cons b bs ih =>
    cases b with
    | true => simpa [compose] using ih (by simpa using h) as
    | false =>
      obtain ⟨m, ms, rfl⟩ := List.exists_cons_of_length_eq_add_one
        (l := ms) (n := bs.count false) (by simpa using h)
      cases m with
      | true => simpa [compose] using ih (by simpa using h) as
      | false =>
        cases as with
        | nil => simpa [compose, spread] using ih (by simpa using h) []
        | cons a as => simpa [compose] using ih (by simpa using h) as

theorem keptIdx_eq_keep_range (bs : List Bool) :
    keptIdx bs = keep bs (List.range bs.length) := by
  induction bs with
  | nil => rfl
  | cons b bs ih =>
    rw [List.length_cons, List.range_succ_eq_map]
    cases b <;> simp [keptIdx, ih, keep_map]

theorem keptIdx_compose {bs ms : List Bool} (h : ms.length = bs.count false) :
    keptIdx (compose bs ms) = keep ms (keptIdx bs) := by
  rw [keptIdx_eq_keep_range, keep_compose h, length_compose, ← keptIdx_eq_keep_range]

theorem unitOn_compose {bs ms : List Bool} {ns : List Nat} (hlen : ns.length = bs.length)
    (hms : ms.length = bs.count false) (hb : UnitOn bs ns) (hm : UnitOn ms (keep bs ns)) :
    UnitOn (compose bs ms) ns := by
  induction bs generalizing ms ns with
  | nil =>
    rw [List.length_nil, List.length_eq_zero_iff] at hlen
    simp [UnitOn, compose, hlen]
  | cons b bs ih =>
    obtain ⟨n, ns, rfl⟩ := List.exists_cons_of_length_eq_add_one hlen
    cases b with
    | true =>
      simp only [UnitOn, keep_true, spread_true, List.cons.injEq] at hb
      have hrest := ih (by simpa using hlen) (by simpa using hms) hb.2 (by simpa using hm)
      simpa [UnitOn, compose, hb.1] using hrest
    | false =>
      obtain ⟨m, ms, rfl⟩ := List.exists_cons_of_length_eq_add_one
        (l := ms) (n := bs.count false) (by simpa using hms)
      simp only [UnitOn, keep_false, spread_false, List.cons.injEq, true_and] at hb
      cases m with
      | true =>
        simp only [UnitOn, keep_false, keep_true, spread_true, List.cons.injEq] at hm
        have hrest := ih (by simpa using hlen) (by simpa using hms) hb hm.2
        simpa [UnitOn, compose, hm.1] using hrest
      | false =>
        simp only [UnitOn, keep_false, spread_false, List.cons.injEq, true_and] at hm
        have hrest := ih (by simpa using hlen) (by simpa using hms) hb hm
        simpa [UnitOn, compose] using hrest

/-! ## Scattering along the kept positions -/

/-- Add each value at its position. -/
def scatterAdd (acc : List Int) (index : List Nat) (vals : List Int) : List Int :=
  (List.zip index vals).foldl (fun acc p => acc.modify p.1 (· + p.2)) acc

theorem scatterAdd_map_succ (a : Int) (acc : List Int) (index : List Nat) (vals : List Int) :
    scatterAdd (a :: acc) (index.map (· + 1)) vals = a :: scatterAdd acc index vals := by
  induction index generalizing acc vals with
  | nil => rfl
  | cons i index ih =>
    cases vals with
    | nil => rfl
    | cons v vals =>
      simp only [scatterAdd, List.map_cons, List.zip_cons_cons, List.foldl_cons,
        List.modify_succ_cons] at ih ⊢
      exact ih _ vals

theorem scatterAdd_keptIdx {bs : List Bool} {acc vals : List Int} (hacc : acc.length = bs.length)
    (hvals : vals.length = bs.count false) :
    scatterAdd acc (keptIdx bs) vals = List.zipWith (· + ·) acc (spread 0 bs vals) := by
  induction bs generalizing acc vals with
  | nil =>
    rw [List.length_nil, List.length_eq_zero_iff] at hacc
    subst hacc
    rfl
  | cons b bs ih =>
    obtain ⟨a, acc, rfl⟩ := List.exists_cons_of_length_eq_add_one hacc
    cases b with
    | true =>
      rw [keptIdx, scatterAdd_map_succ, ih (by simpa using hacc) (by simpa using hvals)]
      simp
    | false =>
      obtain ⟨v, vals, rfl⟩ := List.exists_cons_of_length_eq_add_one
        (l := vals) (n := bs.count false) (by simpa using hvals)
      have hstep : scatterAdd (a :: acc) (keptIdx (false :: bs)) (v :: vals) =
          scatterAdd ((a + v) :: acc) ((keptIdx bs).map (· + 1)) vals := rfl
      rw [hstep, scatterAdd_map_succ, ih (by simpa using hacc) (by simpa using hvals)]
      rfl

end Grid
