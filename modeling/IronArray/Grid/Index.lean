import Mathlib.Data.List.Nodup
import Mathlib.Data.List.Forall2
import Mathlib.Algebra.BigOperators.Group.List.Basic
import Mathlib.Tactic.Ring

/-!
# Row-major indexing of boxes

A shape is a list of axis lengths and an index is a list of coordinates of the same
length. `flat` numbers the indices of a box in row-major order, `unflat` is its inverse
on the box and `box` lists the indices in that order. Nothing here is about a particular
array library.
-/

namespace Grid

theorem ext_getD {ns ms : List Nat} (hLen : ns.length = ms.length)
    (h : ∀ i < ms.length, ns.getD i 0 = ms.getD i 0) : ns = ms := by
  refine List.ext_getElem hLen fun i hi hj => ?_
  simpa [List.getD, hi, hj] using h i hj

/-! ## Boxes -/

/-- Every coordinate lies below the length of its axis. -/
def InBox (is ns : List Nat) : Prop := List.Forall₂ (· < ·) is ns

instance (is ns : List Nat) : Decidable (InBox is ns) :=
  inferInstanceAs (Decidable (List.Forall₂ (· < ·) is ns))

@[simp] theorem inBox_nil : InBox [] [] := List.Forall₂.nil

@[simp] theorem inBox_cons {i n : Nat} {is ns : List Nat} :
    InBox (i :: is) (n :: ns) ↔ i < n ∧ InBox is ns := List.forall₂_cons

@[simp] theorem not_inBox_nil_cons {n : Nat} {ns : List Nat} : ¬ InBox [] (n :: ns) := by
  intro h
  cases h

@[simp] theorem not_inBox_cons_nil {i : Nat} {is : List Nat} : ¬ InBox (i :: is) [] := by
  intro h
  cases h

theorem InBox.length_eq {is ns : List Nat} (h : InBox is ns) : is.length = ns.length :=
  List.Forall₂.length_eq h

theorem InBox.pos {is ns : List Nat} (h : InBox is ns) : ∀ n ∈ ns, 0 < n := by
  induction h with
  | nil => exact nofun
  | cons hFirst _ ih => exact List.forall_mem_cons.mpr ⟨Nat.zero_lt_of_lt hFirst, ih⟩

theorem InBox.cons_iff {is : List Nat} {n : Nat} {ns : List Nat} :
    InBox is (n :: ns) ↔ ∃ i is', is = i :: is' ∧ i < n ∧ InBox is' ns := by
  cases is with
  | nil => simp
  | cons i is => simp

theorem inBox_iff_getD {is ns : List Nat} :
    InBox is ns ↔ is.length = ns.length ∧ ∀ k < ns.length, is.getD k 0 < ns.getD k 0 := by
  induction ns generalizing is with
  | nil => cases is <;> simp
  | cons n ns ih =>
    cases is with
    | nil => simp
    | cons i is =>
      rw [inBox_cons, ih]
      constructor
      · rintro ⟨hi, hlen, h⟩
        refine ⟨by simp [hlen], ?_⟩
        rintro (_ | k) hk
        · simpa using hi
        · simpa using h k (by simpa using hk)
      · rintro ⟨hlen, h⟩
        refine ⟨by simpa using h 0 (by simp), by simpa using hlen, fun k hk => ?_⟩
        simpa using h (k + 1) (by simpa using hk)

theorem prod_pos_of_forall {n : List Nat} (h : ∀ k ∈ n, 0 < k) : 0 < n.prod := by
  induction n with
  | nil => simp
  | cons k n ih =>
    rw [List.prod_cons]
    exact Nat.mul_pos (h k List.mem_cons_self) (ih fun l hl => h l (List.mem_cons_of_mem _ hl))

theorem inBox_replicate_zero {n : List Nat} (h : ∀ k ∈ n, 0 < k) :
    InBox (List.replicate n.length 0) n := by
  induction n with
  | nil => simp
  | cons k n ih =>
    rw [List.length_cons, List.replicate_succ, inBox_cons]
    exact ⟨h k List.mem_cons_self, ih fun l hl => h l (List.mem_cons_of_mem _ hl)⟩

theorem forall₂_le_refl (n : List Nat) : List.Forall₂ (· ≤ ·) n n :=
  List.forall₂_same.mpr fun _ _ => le_rfl

theorem prod_le_of_forall₂ {ns ms : List Nat} (h : List.Forall₂ (· ≤ ·) ns ms) :
    ns.prod ≤ ms.prod := by
  induction h with
  | nil => exact le_rfl
  | cons hFirst _ ih =>
    rw [List.prod_cons, List.prod_cons]
    exact Nat.mul_le_mul hFirst ih

theorem inBox_mono {x n m : List Nat} (hx : InBox x n) (h : List.Forall₂ (· ≤ ·) n m) :
    InBox x m := by
  induction hx generalizing m with
  | nil => cases h; simp
  | cons hi _ ih =>
    obtain ⟨l, m, hl, hm, rfl⟩ := List.forall₂_cons_left_iff.mp h
    exact inBox_cons.mpr ⟨hi.trans_le hl, ih hm⟩

theorem lt_of_forall₂ {ns ms : List Nat} {b : Nat} (h : List.Forall₂ (· ≤ ·) ns ms)
    (hb : ∀ m ∈ ms, m < b) : ∀ n ∈ ns, n < b := by
  induction h with
  | nil => exact nofun
  | cons hFirst _ ih =>
    rw [List.forall_mem_cons] at hb ⊢
    exact ⟨hFirst.trans_lt hb.1, ih hb.2⟩

/-! ## Row-major numbers -/

theorem mul_add_div_of_lt {m x y : Nat} (hy : y < m) : (x * m + y) / m = x := by
  rw [Nat.mul_comm, Nat.mul_add_div (by omega), Nat.div_eq_of_lt hy, Nat.add_zero]

/-- The row-major number of the index `is` in a box of shape `ns`. -/
def flat : List Nat → List Nat → Nat
  | _ :: ns, i :: is => i * ns.prod + flat ns is
  | _, _ => 0

/-- The index that has row-major number `k` in a box of shape `ns`. -/
def unflat : List Nat → Nat → List Nat
  | [], _ => []
  | _ :: ns, k => k / ns.prod :: unflat ns (k % ns.prod)

@[simp] theorem flat_nil (is : List Nat) : flat [] is = 0 := by cases is <;> rfl

@[simp] theorem flat_cons (n i : Nat) (ns is : List Nat) :
    flat (n :: ns) (i :: is) = i * ns.prod + flat ns is := rfl

@[simp] theorem unflat_nil (k : Nat) : unflat [] k = [] := rfl

@[simp] theorem unflat_cons (n k : Nat) (ns : List Nat) :
    unflat (n :: ns) k = k / ns.prod :: unflat ns (k % ns.prod) := rfl

@[simp] theorem unflat_length (ns : List Nat) (k : Nat) : (unflat ns k).length = ns.length := by
  induction ns generalizing k with
  | nil => rfl
  | cons n ns ih => simp [ih]

theorem flat_lt {is ns : List Nat} (h : InBox is ns) : flat ns is < ns.prod := by
  induction h with
  | nil => simp
  | @cons i n is ns hi _ ih =>
    calc flat (n :: ns) (i :: is) = i * ns.prod + flat ns is := rfl
      _ < i * ns.prod + ns.prod := by omega
      _ = (i + 1) * ns.prod := by ring
      _ ≤ n * ns.prod := Nat.mul_le_mul_right _ hi
      _ = (n :: ns).prod := by simp

theorem unflat_flat {is ns : List Nat} (h : InBox is ns) : unflat ns (flat ns is) = is := by
  induction h with
  | nil => rfl
  | @cons i n is ns hi hs ih =>
    have hlt : flat ns is < ns.prod := flat_lt hs
    rw [flat_cons, unflat_cons, mul_add_div_of_lt hlt, Nat.mul_add_mod_of_lt hlt, ih]

theorem inBox_unflat {ns : List Nat} {k : Nat} (h : k < ns.prod) : InBox (unflat ns k) ns := by
  induction ns generalizing k with
  | nil => simp
  | cons n ns ih =>
    rw [List.prod_cons] at h
    have hpos : 0 < ns.prod := Nat.pos_of_mul_pos_left (Nat.zero_lt_of_lt h)
    rw [unflat_cons, inBox_cons]
    exact ⟨Nat.div_lt_of_lt_mul (by rwa [Nat.mul_comm] at h), ih (Nat.mod_lt _ hpos)⟩

theorem flat_unflat {ns : List Nat} {k : Nat} (h : k < ns.prod) : flat ns (unflat ns k) = k := by
  induction ns generalizing k with
  | nil =>
    simp only [List.prod_nil] at h
    simp
    omega
  | cons n ns ih =>
    rw [List.prod_cons] at h
    have hpos : 0 < ns.prod := Nat.pos_of_mul_pos_left (Nat.zero_lt_of_lt h)
    rw [unflat_cons, flat_cons, ih (Nat.mod_lt _ hpos)]
    exact Nat.div_add_mod' k ns.prod

theorem flat_injective {is js ns : List Nat} (hi : InBox is ns) (hj : InBox js ns)
    (h : flat ns is = flat ns js) : is = js := by
  rw [← unflat_flat hi, ← unflat_flat hj, h]

/-! ## Enumerating a box -/

/-- All indices of a box, the last axis running fastest. -/
def box : List Nat → List (List Nat)
  | [] => [[]]
  | n :: ns => (List.range n).flatMap fun i => (box ns).map (i :: ·)

@[simp] theorem mem_box {is ns : List Nat} : is ∈ box ns ↔ InBox is ns := by
  induction ns generalizing is with
  | nil => cases is <;> simp [box]
  | cons n ns ih =>
    simp only [box, List.mem_flatMap, List.mem_range, List.mem_map, ih, InBox.cons_iff]
    constructor
    · rintro ⟨i, hi, is', h, rfl⟩
      exact ⟨i, is', rfl, hi, h⟩
    · rintro ⟨i, is', rfl, hi, h⟩
      exact ⟨i, hi, is', h, rfl⟩

theorem nodup_box (ns : List Nat) : (box ns).Nodup := by
  induction ns with
  | nil => simp [box]
  | cons n ns ih =>
    rw [box, List.nodup_flatMap]
    refine ⟨fun i _ => ih.map (List.cons_injective), ?_⟩
    refine List.nodup_range.imp ?_
    intro i j hij
    apply List.disjoint_left.mpr
    intro x hx hy
    obtain ⟨_, _, rfl⟩ := List.mem_map.mp hx
    obtain ⟨_, _, h⟩ := List.mem_map.mp hy
    exact hij (List.cons.inj h).1.symm

@[simp] theorem length_box (ns : List Nat) : (box ns).length = ns.prod := by
  induction ns with
  | nil => rfl
  | cons n ns ih => simp [box, ih, List.length_flatMap]

end Grid
