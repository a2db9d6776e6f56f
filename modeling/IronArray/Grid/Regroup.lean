import Mathlib.Order.Basic
import Mathlib.Order.Lattice
import Mathlib.Data.List.GetD
import Mathlib.Data.List.Perm.Basic

/-!
# Folds

A step folds elements into a state and a second step folds states into a state. When the
second step has the initial state as a unit and moves through the first, folding the states
of several lists is folding all their elements. Only states and elements that satisfy a
predicate need to obey the laws. At the end, folds that change a list position by position.
-/

namespace Grid

variable {α β κ : Type}

/-- The laws under which a fold can be cut into pieces and its elements permuted. -/
structure Regroups (step : β → α → β) (step₂ : β → β → β) (init : β) (P : β → Prop)
    (Q : α → Prop) : Prop where
  mem_init : P init
  mem_step : ∀ {b x}, P b → Q x → P (step b x)
  comm : ∀ {b x y}, P b → Q x → Q y → step (step b x) y = step (step b y) x
  unit : ∀ {b}, P b → step₂ b init = b
  assoc : ∀ {b c x}, P b → P c → Q x → step₂ b (step c x) = step (step₂ b c) x

namespace Regroups

variable {step : β → α → β} {step₂ : β → β → β} {init : β} {P : β → Prop} {Q : α → Prop}
  {xs ys : List α} {b c : β}

theorem mono {R : α → Prop} (h : Regroups step step₂ init P Q) (hR : ∀ {x}, R x → Q x) :
    Regroups step step₂ init P R :=
  ⟨h.mem_init, fun hb hx => h.mem_step hb (hR hx), fun hb hx hy => h.comm hb (hR hx) (hR hy),
    h.unit, fun hb hc hx => h.assoc hb hc (hR hx)⟩

/-- A step that replaces elements before it folds them, and keeps the states as they are. -/
theorem replace {step step' : β → β → β} {P R : β → Prop} {g : β → β}
    (h : Regroups step step init P P) (hg : ∀ {x}, R x → P (g x))
    (hElem : ∀ {b x}, P b → R x → step' b x = step b (g x))
    (hState : ∀ {b c}, P b → P c → step' b c = step b c) : Regroups step' step' init P R where
  mem_init := h.mem_init
  mem_step hb hx := by
    rw [hElem hb hx]
    exact h.mem_step hb (hg hx)
  comm hb hx hy := by
    rw [hElem hb hx, hElem hb hy, hElem (h.mem_step hb (hg hx)) hy,
      hElem (h.mem_step hb (hg hy)) hx, h.comm hb (hg hx) (hg hy)]
  unit hb := by rw [hState hb h.mem_init, h.unit hb]
  assoc hb hc hx := by
    rw [hElem hc hx, hState hb (h.mem_step hc (hg hx)), hState hb hc,
      hElem (h.mem_step hb hc) hx, h.assoc hb hc (hg hx)]

theorem foldl_mem (h : Regroups step step₂ init P Q) (hb : P b) (hxs : ∀ x ∈ xs, Q x) :
    P (xs.foldl step b) := by
  induction xs generalizing b with
  | nil => exact hb
  | cons x xs ih =>
    exact ih (h.mem_step hb (hxs x List.mem_cons_self)) fun y hy => hxs y (List.mem_cons_of_mem _ hy)

/-- The second step moves through a fold. -/
theorem foldl_assoc (h : Regroups step step₂ init P Q) (hb : P b) (hc : P c)
    (hxs : ∀ x ∈ xs, Q x) : step₂ b (xs.foldl step c) = xs.foldl step (step₂ b c) := by
  induction xs generalizing c with
  | nil => rfl
  | cons x xs ih =>
    have hx := hxs x List.mem_cons_self
    rw [List.foldl_cons, List.foldl_cons,
      ih (h.mem_step hc hx) fun y hy => hxs y (List.mem_cons_of_mem _ hy), h.assoc hb hc hx]

/-- Folding the results of folds. -/
theorem foldl_flatten (h : Regroups step step₂ init P Q) {lists : List (List α)} (hb : P b)
    (hxs : ∀ xs ∈ lists, ∀ x ∈ xs, Q x) :
    (lists.map (List.foldl step init)).foldl step₂ b = lists.flatten.foldl step b := by
  induction lists generalizing b with
  | nil => rfl
  | cons xs lists ih =>
    have hHead := hxs xs List.mem_cons_self
    rw [List.map_cons, List.foldl_cons, List.flatten_cons, List.foldl_append,
      h.foldl_assoc hb h.mem_init hHead, h.unit hb]
    exact ih (h.foldl_mem hb hHead) fun ys hys => hxs ys (List.mem_cons_of_mem _ hys)

theorem foldl_perm (h : Regroups step step₂ init P Q) (hPerm : xs.Perm ys) (hb : P b)
    (hxs : ∀ x ∈ xs, Q x) : xs.foldl step b = ys.foldl step b := by
  induction hPerm generalizing b with
  | nil => rfl
  | cons x _ ih =>
    exact ih (h.mem_step hb (hxs x List.mem_cons_self)) fun y hy => hxs y (List.mem_cons_of_mem _ hy)
  | swap x y l =>
    simp only [List.foldl_cons]
    rw [h.comm hb (hxs y List.mem_cons_self)
      (hxs x (List.mem_cons_of_mem _ List.mem_cons_self))]
  | trans h₁ _ ih₁ ih₂ =>
    rw [ih₁ hb hxs, ih₂ hb fun x hx => hxs x (h₁.mem_iff.mpr hx)]

end Regroups

/-- Keeping the element with the greater key. -/
theorem regroups_pick [LinearOrder κ] {key : β → κ} {P : β → Prop} {step : β → β → β} {init : β}
    (hInit : P init) (hLeast : ∀ {b}, P b → key init ≤ key b)
    (hInj : ∀ {a b}, P a → P b → key a = key b → a = b)
    (hStep : ∀ {a b}, P a → P b → step a b = if key a < key b then b else a) :
    Regroups step step init P P := by
  have hMem : ∀ {a b}, P a → P b → P (step a b) := by
    intro a b ha hb
    rw [hStep ha hb]
    split <;> assumption
  have hAssoc : ∀ {a b c}, P a → P b → P c → step a (step b c) = step (step a b) c := by
    intro a b c ha hb hc
    rw [hStep ha (hMem hb hc), hStep (hMem ha hb) hc, hStep hb hc, hStep ha hb]
    by_cases hab : key a < key b <;> by_cases hbc : key b < key c <;>
      by_cases hac : key a < key c <;> simp only [hab, hbc, hac, if_true, if_false]
    · exact absurd (hab.trans hbc) hac
    · exact absurd (lt_of_lt_of_le hac (not_lt.mp hbc)) hab
  have hComm : ∀ {a b}, P a → P b → step a b = step b a := by
    intro a b ha hb
    rw [hStep ha hb, hStep hb ha]
    rcases lt_trichotomy (key a) (key b) with hlt | heq | hgt
    · rw [if_pos hlt, if_neg hlt.not_gt]
    · rw [hInj ha hb heq]
    · rw [if_neg hgt.not_gt, if_pos hgt]
  refine ⟨hInit, fun hb hx => hMem hb hx, ?_, ?_, fun hb hc hx => hAssoc hb hc hx⟩
  · intro b x y hb hx hy
    rw [← hAssoc hb hx hy, ← hAssoc hb hy hx, hComm hx hy]
  · intro b hb
    rw [hStep hb hInit, if_neg (hLeast hb).not_gt]

/-! ## Changing a list position by position -/

/-- The function keeps the length `n` of lists and acts on their entry `i` as `h` does. -/
def ActsAt (n i : Nat) (d : α) (F : List α → List α) (h : α → α) : Prop :=
  ∀ {out : List α}, out.length = n → (F out).length = n ∧ (F out).getD i d = h (out.getD i d)

variable {n i : Nat} {d : α}

theorem actsAt_mapIdx (hi : i < n) (f : Nat → α → α) :
    ActsAt n i d (fun out => out.mapIdx f) (f i) := by
  intro out hOut
  refine ⟨by rw [List.length_mapIdx, hOut], ?_⟩
  rw [List.getD_eq_getElem _ _ (by rwa [List.length_mapIdx, hOut]), List.getElem_mapIdx,
    List.getD_eq_getElem _ _ (by rwa [hOut])]

theorem actsAt_zipWith {items : List β} (hItems : items.length = n) (hi : i < items.length)
    (f : β → α → α) : ActsAt n i d (fun out => List.zipWith f items out) (f items[i]) := by
  intro out hOut
  have hLen : (List.zipWith f items out).length = n := by
    rw [List.length_zipWith, hItems, hOut, Nat.min_self]
  refine ⟨hLen, ?_⟩
  have hOutLt : i < out.length := by omega
  rw [List.getD_eq_getElem (List.zipWith f items out) d (by omega), List.getElem_zipWith,
    List.getD_eq_getElem out d hOutLt]

theorem ActsAt.foldl {ps : List β} {F : List α → β → List α} {h : α → β → α}
    (hF : ∀ p ∈ ps, ActsAt n i d (fun out => F out p) fun acc => h acc p) :
    ActsAt n i d (fun out => ps.foldl F out) fun acc => ps.foldl h acc := by
  induction ps with
  | nil => exact fun hOut => ⟨hOut, rfl⟩
  | cons p ps ih =>
    intro out hOut
    have hHead := hF p List.mem_cons_self hOut
    have hTail := @ih (fun q hq => hF q (List.mem_cons_of_mem _ hq)) (F out p) hHead.1
    simp only [List.foldl_cons]
    exact ⟨hTail.1, hTail.2.trans (congrArg (fun acc => ps.foldl h acc) hHead.2)⟩

end Grid
