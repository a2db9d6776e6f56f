import IronArray.Core.Value
import IronArray.Settings.Cparams
import Mathlib.Data.Nat.Log

/-!
# Advice on partitions

`iarray_partition_advice` of `iarray.c`: the chunkshape from the shape and the blockshape from the
chunkshape, both by `boxed_optim_partition`. The loops of the source have no bound of their own,
so a search takes the number of rounds it may run. All lengths of the search are powers of two;
the lemmas below follow it on their exponents.
-/

namespace IronArray.Partition

/-! ## Results of a search -/

/-- Why a search fails: a return code, or a signed overflow, which C leaves undefined. -/
inductive Fault
  | code (e : ErrorCode)
  | overflow
deriving DecidableEq, Repr

abbrev Attempt := ExceptT Fault Option

/-- The rounds are used up. -/
def endless {α : Type} : Attempt α := ExceptT.mk none

def int64Max : Nat := 2 ^ 63 - 1

def int32Max : Nat := 2 ^ 31 - 1

/-- The product of two values of type `int64_t`. -/
def mul64 (a b : Nat) : Attempt Nat :=
  if a * b ≤ int64Max then pure (a * b) else throw .overflow

/-! ## The search -/

/-- The loop of `get_nearest_power2`. -/
def nearestPower2Loop (value : Nat) : Nat → Nat → Attempt Nat
  | 0, _ => endless
  | fuel + 1, power2 =>
    if power2 ≤ value ∧ power2 < int64Max then do
      let power2 ← mul64 power2 2
      nearestPower2Loop value fuel power2
    else pure power2

def getNearestPower2 (fuel value : Nat) : Attempt Nat := do
  let power2 ← nearestPower2Loop value fuel 2
  pure (power2 / 2)

/-- The conversion of a non-negative `int64_t` to `float`: 24 significant bits, ties to even. -/
def toFloat (n : Nat) : Nat :=
  if n < 2 ^ 24 then n
  else
    let unit := 2 ^ (Nat.log2 n - 23)
    let quotient := n / unit
    if unit < 2 * (n % unit) ∨ (unit = 2 * (n % unit) ∧ quotient % 2 = 1) then
      (quotient + 1) * unit
    else quotient * unit

/-- `((float) (shape - part) / (float) part) < 0.1`. The part is a power of two, so the division
is exact, and the constant is the `double` next to a tenth. -/
def tooClose (shape part : Nat) : Bool :=
  toFloat (shape - part) * 2 ^ 55 < 3602879701896397 * part

/-- The arguments of `boxed_optim_partition` besides the shape. -/
structure Limits where
  itemsize : Nat
  minsize : Int
  maxsize : Int
  btune : Bool

/-- Where the search jumps to. -/
inductive Label
  | out | out2
deriving DecidableEq, Repr

namespace Limits

variable (L : Limits)

def partsize (parts : List Nat) : Attempt Nat := parts.foldlM mul64 L.itemsize

/-- The search from axis `i` on. After the last axis it starts over. -/
def shrink : Nat → Nat → List Nat → Attempt (Label × Nat × List Nat)
  | 0, _, _ => endless
  | fuel + 1, i, parts =>
    if i < parts.length then do
      let size ← L.partsize parts
      if (size : Int) < L.minsize then pure (.out2, size, parts)
      else if (size : Int) ≤ L.maxsize then pure (.out, size, parts)
      else if parts.getD i 0 = 1 then shrink fuel (i + 1) parts
      else shrink fuel (i + 1) (parts.set i (parts.getD i 0 / 2))
    else shrink fuel 0 parts

/-- The new length of an axis that is too close to the shape, or that leaves too few parts. -/
def split (ndim n part : Nat) : Attempt Nat := do
  let part := if tooClose n part then part / 2 else part
  if L.btune ∧ ndim = 1 then do
    let four ← mul64 part 4
    pure (if n < four then part / 4 else part)
  else pure part

/-- The loop below `out`, with `left` axes to go. It returns the size it computed last. -/
def correct (shape : List Nat) : Nat → Nat → List Nat → Nat → Attempt (Nat × List Nat)
  | 0, _, parts, size => pure (size, parts)
  | left + 1, i, parts, _ => do
    let size ← L.partsize parts
    if (size : Int) < L.minsize then pure (size, parts)
    else if (size : Int) ≤ L.maxsize.tdiv 2 then pure (size, parts)
    else if parts.getD i 0 = 1 then correct shape left (i + 1) parts size
    else do
      let part ← L.split shape.length (shape.getD i 0) (parts.getD i 0)
      correct shape left (i + 1) (parts.set i part) size

/-- From `out2` on. -/
def atOut2 (size : Nat) (parts : List Nat) : Attempt (List Nat) :=
  if int32Max < size then throw (.code .invalidChunkshape)
  else if size = 0 then throw (.code .invalidChunkshape)
  else pure parts

/-- From a label on. -/
def goto (shape : List Nat) : Label × Nat × List Nat → Attempt (List Nat)
  | (.out, size, parts) => do
    let r ← L.correct shape shape.length 0 parts size
    atOut2 r.1 r.2
  | (.out2, size, parts) => atOut2 size parts

/-- `boxed_optim_partition`. -/
def boxedOptimPartition (fuel : Nat) (shape : List Nat) : Attempt (List Nat) := do
  let parts ← shape.mapM (getNearestPower2 fuel)
  let r ← L.shrink fuel 0 parts
  L.goto shape r

end Limits

/-- The sizes a caller asks for. Zero stands for a default. -/
structure Sizes where
  minChunksize : Int
  maxChunksize : Int
  minBlocksize : Int
  maxBlocksize : Int

namespace Sizes

variable (sizes : Sizes) (cfg : Config)

def maxBlock : Int :=
  if sizes.maxBlocksize = 0 then
    match cfg.compressionFavor with
    | .cratio => 512 * 1024
    | .speed => 128 * 1024
    | .balance => 128 * 1024
  else sizes.maxBlocksize

def minBlock : Int := if sizes.minBlocksize = 0 then 1024 else sizes.minBlocksize

def maxChunk : Int :=
  if sizes.maxChunksize = 0 then
    match cfg.compressionFavor with
    | .cratio => 16 * 1024 * 1024
    | .speed => 16 * 1024 * 1024
    | .balance => 16 * 1024 * 1024
  else sizes.maxChunksize

def minChunk : Int := if sizes.minChunksize = 0 then 256 * 1024 else sizes.minChunksize

/-- The arguments of the search for the chunkshape. -/
def chunkLimits (dtype : Dtype) : Limits where
  itemsize := dtype.size
  minsize := sizes.minChunk
  maxsize := sizes.maxChunk cfg
  btune := cfg.btune

/-- The arguments of the search for the blockshape in a chunk of the given size. -/
def blockLimits (dtype : Dtype) (chunksize : Nat) : Limits where
  itemsize := dtype.size
  minsize := sizes.minBlock
  maxsize := if (chunksize : Int) < sizes.maxBlock cfg then chunksize else sizes.maxBlock cfg
  btune := cfg.btune

end Sizes

/-- `iarray_partition_advice`: the chunkshape and the blockshape. -/
def iarrayPartitionAdvice (fuel : Nat) (cfg : Config) (dtype : Dtype) (shape : List Nat)
    (sizes : Sizes) : Attempt (List Nat × List Nat) := do
  let chunk := sizes.chunkLimits cfg dtype
  let chunkshape ← chunk.boxedOptimPartition fuel shape
  let chunksize ← chunk.partsize chunkshape
  let blockshape ← (sizes.blockLimits cfg dtype chunksize).boxedOptimPartition fuel chunkshape
  pure (chunkshape, blockshape)

/-! ## Searches that succeed -/

section Attempt

variable {α β : Type}

theorem pure_inj {a b : α} : (pure a : Attempt α) = pure b ↔ a = b := by
  constructor
  · intro h
    injection h with h
    injection h
  · exact congrArg pure

theorem throw_ne_pure {e : Fault} {a : α} : (throw e : Attempt α) ≠ pure a := by
  intro h
  injection h with h
  cases h

theorem endless_ne_pure {a : α} : (endless : Attempt α) ≠ pure a := by
  intro h
  cases h

theorem bind_eq_pure {x : Attempt α} {f : α → Attempt β} {b : β} :
    x >>= f = pure b ↔ ∃ a, x = pure a ∧ f a = pure b := by
  constructor
  · intro h
    rcases x with _ | _ | a
    · cases h
    · injection h with h
      cases h
    · exact ⟨a, rfl, h⟩
  · rintro ⟨a, rfl, h⟩
    rw [pure_bind, h]

theorem mapM_eq_pure {f : α → Attempt β} {xs : List α} {ys : List β} :
    xs.mapM f = pure ys ↔ List.Forall₂ (fun x y => f x = pure y) xs ys := by
  induction xs generalizing ys with
  | nil =>
    rw [List.mapM_nil, pure_inj, List.forall₂_nil_left_iff, eq_comm]
  | cons x xs ih =>
    rw [List.mapM_cons, bind_eq_pure, List.forall₂_cons_left_iff]
    simp only [bind_eq_pure, pure_inj, ih]
    constructor
    · rintro ⟨y, hy, ys, hys, rfl⟩
      exact ⟨y, ys, hy, hys, rfl⟩
    · rintro ⟨y, ys, hy, hys, rfl⟩
      exact ⟨y, hy, ys, hys, rfl⟩

end Attempt

theorem mul64_eq_pure {a b c : Nat} : mul64 a b = pure c ↔ a * b ≤ int64Max ∧ a * b = c := by
  rw [mul64]
  split
  next h => simp [h, pure_inj]
  next h => simp [h, throw_ne_pure]

/-! ## The nearest power of two -/

theorem nearestPower2Loop_ok {value fuel k r : Nat} (hk : k ≤ 61)
    (hv : k = 0 ∨ 2 ^ k ≤ value)
    (h : nearestPower2Loop value fuel (2 ^ (k + 1)) = pure r) :
    value < 2 ^ 62 ∧ r = 2 ^ (Nat.log2 value + 1) := by
  induction fuel generalizing k with
  | zero => exact absurd h endless_ne_pure
  | succ fuel ih =>
    rw [nearestPower2Loop] at h
    split at h
    next hle =>
      obtain ⟨p, hp, h⟩ := bind_eq_pure.mp h
      obtain ⟨hmax, rfl⟩ := mul64_eq_pure.mp hp
      rw [← pow_succ] at h hmax
      have hk' : k + 1 + 1 < 63 := by
        apply (Nat.pow_lt_pow_iff_right (a := 2) (by decide)).mp
        rw [int64Max] at hmax
        omega
      exact ih (by omega) (Or.inr hle.1) h
    next hle =>
      have hr := pure_inj.mp h
      have hp : 2 ^ (k + 1) ≤ 2 ^ 62 := Nat.pow_le_pow_right (by decide) (by omega)
      have hlt : value < 2 ^ (k + 1) := by
        by_contra hge
        exact hle ⟨by omega, by rw [int64Max]; omega⟩
      refine ⟨by omega, ?_⟩
      rw [← hr]
      rcases Nat.eq_zero_or_pos value with rfl | hpos
      · have hk0 : k = 0 := by
          rcases hv with hk0 | hle'
          · exact hk0
          · exact absurd hle' (Nat.not_le.mpr (Nat.two_pow_pos k))
        rw [hk0, Nat.log2_zero]
      · have hlog : Nat.log2 value = k := by
          rw [Nat.log2_eq_iff hpos.ne']
          refine ⟨?_, hlt⟩
          rcases hv with rfl | hle'
          · exact hpos
          · exact hle'
        rw [hlog]

theorem nearestPower2Loop_runs {value : Nat} (hv : value < 2 ^ 62) (d : Nat) {k : Nat}
    (hk : k + d = 61) (fuel : Nat) (hf : d < fuel) :
    ∃ r, nearestPower2Loop value fuel (2 ^ (k + 1)) = pure r := by
  induction d generalizing k fuel with
  | zero =>
    obtain ⟨fuel, rfl⟩ := Nat.exists_eq_succ_of_ne_zero (by omega : fuel ≠ 0)
    obtain rfl : k = 61 := by omega
    refine ⟨2 ^ (61 + 1), ?_⟩
    rw [nearestPower2Loop, if_neg (by omega)]
  | succ d ih =>
    obtain ⟨fuel, rfl⟩ := Nat.exists_eq_succ_of_ne_zero (by omega : fuel ≠ 0)
    rw [nearestPower2Loop]
    split
    next hle =>
      have hp : 2 ^ (k + 1 + 1) ≤ 2 ^ 62 := Nat.pow_le_pow_right (by decide) (by omega)
      obtain ⟨r, hr⟩ := ih (k := k + 1) (by omega) fuel (by omega)
      refine ⟨r, bind_eq_pure.mpr ⟨_, mul64_eq_pure.mpr ⟨?_, rfl⟩, hr⟩⟩
      rw [← pow_succ, int64Max]
      omega
    next hle => exact ⟨_, rfl⟩

theorem getNearestPower2_ok {fuel value r : Nat} (h : getNearestPower2 fuel value = pure r) :
    value < 2 ^ 62 ∧ r = 2 ^ Nat.log2 value := by
  obtain ⟨p, hp, h⟩ := bind_eq_pure.mp h
  obtain ⟨hv, rfl⟩ := nearestPower2Loop_ok (k := 0) (by decide) (Or.inl rfl) hp
  refine ⟨hv, ?_⟩
  rw [← pure_inj.mp h, pow_succ, Nat.mul_div_cancel _ (by decide)]

theorem getNearestPower2_runs {value fuel : Nat} (hv : value < 2 ^ 62) (hf : 62 ≤ fuel) :
    getNearestPower2 fuel value = pure (2 ^ Nat.log2 value) := by
  obtain ⟨p, hp⟩ := nearestPower2Loop_runs hv 61 (k := 0) rfl fuel hf
  have h : getNearestPower2 fuel value = pure (p / 2) := bind_eq_pure.mpr ⟨p, hp, rfl⟩
  rw [h, (getNearestPower2_ok h).2]

end IronArray.Partition
