import IronArray.Settings.Advice
import IronArray.Grid.Words

/-!
# The search for a partition on machine words

`get_nearest_power2` and `boxed_optim_partition` with the arithmetic of `int64_t` as the compiled
code performs it: products wrap around. `boxedOptimPartition_words` relates them to the search that
takes an overflow for a failure.
-/

namespace IronArray.Partition

open Grid

namespace Word

/-- The loop of `get_nearest_power2`. -/
def nearestPower2Loop (value : Int64) : Nat → Int64 → Option Int64
  | 0, _ => none
  | fuel + 1, power2 =>
    if power2 ≤ value ∧ power2 < Int64.maxValue then nearestPower2Loop value fuel (power2 * 2)
    else some power2

def getNearestPower2 (fuel : Nat) (value : Int64) : Option Int64 := do
  let power2 ← nearestPower2Loop value fuel 2
  pure (power2 / 2)

/-- The comparison of an axis with a part, which is positive where it is made. -/
def tooClose (shape part : Int64) : Bool :=
  Partition.tooClose shape.toNatClampNeg part.toNatClampNeg

/-- The arguments of `boxed_optim_partition` besides the shape. -/
structure Limits where
  itemsize : Int64
  minsize : Int64
  maxsize : Int64
  btune : Bool

namespace Limits

variable (L : Limits)

def partsize (parts : List Int64) : Int64 := parts.foldl (· * ·) L.itemsize

/-- The search from axis `i` on. After the last axis it starts over. -/
def shrink : Nat → Nat → List Int64 → Option (Label × Int64 × List Int64)
  | 0, _, _ => none
  | fuel + 1, i, parts =>
    if i < parts.length then
      if L.partsize parts < L.minsize then some (.out2, L.partsize parts, parts)
      else if L.partsize parts ≤ L.maxsize then some (.out, L.partsize parts, parts)
      else if parts.getD i 0 = 1 then shrink fuel (i + 1) parts
      else shrink fuel (i + 1) (parts.set i (parts.getD i 0 / 2))
    else shrink fuel 0 parts

/-- The new length of an axis that is too close to the shape, or that leaves too few parts. -/
def split (ndim : Nat) (n part : Int64) : Int64 :=
  let part := if tooClose n part then part / 2 else part
  if L.btune ∧ ndim = 1 ∧ n < part * 4 then part / 4 else part

/-- The loop below `out`, with `left` axes to go. It returns the size it computed last. -/
def correct (shape : List Int64) : Nat → Nat → List Int64 → Int64 → Int64 × List Int64
  | 0, _, parts, size => (size, parts)
  | left + 1, i, parts, _ =>
    let size := L.partsize parts
    if size < L.minsize then (size, parts)
    else if size ≤ L.maxsize / 2 then (size, parts)
    else if parts.getD i 0 = 1 then correct shape left (i + 1) parts size
    else
      let part := L.split shape.length (shape.getD i 0) (parts.getD i 0)
      correct shape left (i + 1) (parts.set i part) size

/-- From `out2` on. -/
def atOut2 (size : Int64) (parts : List Int64) : Except ErrorCode (List Int64) :=
  if Int64.ofNat int32Max < size then .error .invalidChunkshape
  else if size ≤ 0 then .error .invalidChunkshape
  else .ok parts

/-- From a label on. -/
def goto (shape : List Int64) : Label × Int64 × List Int64 → Except ErrorCode (List Int64)
  | (.out, size, parts) =>
    let r := L.correct shape shape.length 0 parts size
    atOut2 r.1 r.2
  | (.out2, size, parts) => atOut2 size parts

/-- `boxed_optim_partition`. -/
def boxedOptimPartition (fuel : Nat) (shape : List Int64) :
    Option (Except ErrorCode (List Int64)) := do
  let parts ← shape.mapM (getNearestPower2 fuel)
  let r ← L.shrink fuel 0 parts
  pure (L.goto shape r)

end Limits

end Word

/-! ## Where nothing overflows -/

theorem nearestPower2Loop_words {value : Nat} (hValue : value < 2 ^ 63) {fuel power2 r : Nat}
    (hPower : power2 < 2 ^ 63) (h : nearestPower2Loop value fuel power2 = pure r) :
    Word.nearestPower2Loop (Int64.ofNat value) fuel (Int64.ofNat power2) =
      some (Int64.ofNat r) := by
  induction fuel generalizing power2 with
  | zero => exact absurd h endless_ne_pure
  | succ fuel ih =>
    have hMax : Int64.maxValue = Int64.ofNat int64Max := by decide
    have hTest : (Int64.ofNat power2 ≤ Int64.ofNat value ∧ Int64.ofNat power2 < Int64.maxValue) ↔
        (power2 ≤ value ∧ power2 < int64Max) := by
      rw [hMax, Int64.ofNat_le_iff_le hPower hValue, Int64.ofNat_lt_iff_lt hPower (by decide)]
    rw [nearestPower2Loop] at h
    rw [Word.nearestPower2Loop]
    split at h
    next hGo =>
      obtain ⟨p, hp, h⟩ := bind_eq_pure.mp h
      obtain ⟨hFits, rfl⟩ := mul64_eq_pure.mp hp
      rw [if_pos (hTest.mpr hGo)]
      have hNext := ih (by rw [int64Max] at hFits; omega) h
      rwa [Int64.ofNat_mul] at hNext
    next hStop =>
      rw [if_neg (mt hTest.mp hStop), pure_inj.mp h]

theorem log2_lt_62 {n : Nat} (h : n < 2 ^ 62) : Nat.log2 n < 62 := by
  rcases Nat.eq_zero_or_pos n with rfl | hPos
  · decide
  · exact (Nat.log2_lt hPos.ne').mpr h

theorem getNearestPower2_words {fuel value r : Nat} (h : getNearestPower2 fuel value = pure r) :
    Word.getNearestPower2 fuel (Int64.ofNat value) = some (Int64.ofNat r) := by
  obtain ⟨hValue, rfl⟩ := getNearestPower2_ok h
  obtain ⟨p, hp, h⟩ := bind_eq_pure.mp h
  obtain ⟨-, rfl⟩ := nearestPower2Loop_ok (k := 0) (by decide) (Or.inl rfl) hp
  have hLog := log2_lt_62 hValue
  have hFits : 2 ^ (Nat.log2 value + 1) < 2 ^ 63 := Nat.pow_lt_pow_right (by decide) (by omega)
  have hTwo : 2 < 2 ^ 63 := by decide
  have hLoop := nearestPower2Loop_words (hValue.trans (by decide)) hTwo hp
  rw [Word.getNearestPower2]
  change (Word.nearestPower2Loop (Int64.ofNat value) fuel (Int64.ofNat 2)).bind _ = _
  rw [hLoop, Option.bind_some, ← pure_inj.mp h, Int64.ofNat_div hFits (by decide)]
  rfl

namespace Limits

variable (L : Limits)

/-- The arguments as the function gets them. -/
def words : Word.Limits where
  itemsize := Int64.ofNat L.itemsize
  minsize := Int64.ofInt L.minsize
  maxsize := Int64.ofInt L.maxsize
  btune := L.btune

/-- The arguments are values of their types. -/
structure Fits : Prop where
  itemsize : L.itemsize < 2 ^ 63
  minsize : -2 ^ 63 ≤ L.minsize ∧ L.minsize < 2 ^ 63
  maxsize : -2 ^ 63 ≤ L.maxsize ∧ L.maxsize < 2 ^ 63

variable {L}

theorem partsize_words {a size : Nat} {parts : List Nat} (h : parts.foldlM mul64 a = pure size) :
    (Grid.words parts).foldl (· * ·) (Int64.ofNat a) = Int64.ofNat size := by
  induction parts generalizing a with
  | nil => rw [← pure_inj.mp h, words_nil, List.foldl_nil]
  | cons p parts ih =>
    rw [List.foldlM_cons] at h
    obtain ⟨b, hb, h⟩ := bind_eq_pure.mp h
    obtain ⟨-, rfl⟩ := mul64_eq_pure.mp hb
    rw [words_cons, List.foldl_cons, ← Int64.ofNat_mul, ih h]

theorem partsize_lt {a size : Nat} {parts : List Nat} (ha : a < 2 ^ 63)
    (h : parts.foldlM mul64 a = pure size) : size < 2 ^ 63 := by
  induction parts generalizing a with
  | nil => rwa [← pure_inj.mp h]
  | cons p parts ih =>
    rw [List.foldlM_cons] at h
    obtain ⟨b, hb, h⟩ := bind_eq_pure.mp h
    obtain ⟨hMax, rfl⟩ := mul64_eq_pure.mp hb
    exact ih (by rw [int64Max] at hMax; omega) h

/-- Parts that fit still do when one of them is shortened. -/
theorem set_lt {parts : List Nat} (h : ∀ p ∈ parts, p < 2 ^ 63) (i : Nat) {p : Nat}
    (hp : p < 2 ^ 63) : ∀ q ∈ parts.set i p, q < 2 ^ 63 := by
  intro q hq
  rcases List.mem_or_eq_of_mem_set hq with hq | rfl
  · exact h q hq
  · exact hp

theorem getD_lt {ns : List Nat} {b : Nat} (hb : 0 < b) (h : ∀ n ∈ ns, n < b) (i : Nat) :
    ns.getD i 0 < b := by
  by_cases hi : i < ns.length
  · rw [List.getD_eq_getElem _ _ hi]
    exact h _ (List.getElem_mem hi)
  · rwa [List.getD_eq_default _ _ (Nat.le_of_not_lt hi)]

theorem shrink_words (hL : L.Fits) {fuel i : Nat} {parts : List Nat}
    (hParts : ∀ p ∈ parts, p < 2 ^ 63) {label : Label} {size : Nat} {parts' : List Nat}
    (h : L.shrink fuel i parts = pure (label, size, parts')) :
    L.words.shrink fuel i (Grid.words parts) = some (label, Int64.ofNat size, Grid.words parts') ∧
      size < 2 ^ 63 ∧ ∀ p ∈ parts', p < 2 ^ 63 := by
  induction fuel generalizing i parts with
  | zero => exact absurd h endless_ne_pure
  | succ fuel ih =>
    rw [shrink] at h
    rw [Word.Limits.shrink, length_words]
    split at h
    next hi =>
      obtain ⟨n, hSize, h⟩ := bind_eq_pure.mp h
      have hLt := partsize_lt hL.itemsize hSize
      have hWord : L.words.partsize (Grid.words parts) = Int64.ofNat n := partsize_words hSize
      have hMin : Int64.ofNat n < L.words.minsize ↔ (n : Int) < L.minsize :=
        ofNat_lt_ofInt hL.minsize hLt
      have hMax : Int64.ofNat n ≤ L.words.maxsize ↔ (n : Int) ≤ L.maxsize :=
        ofNat_le_ofInt hL.maxsize hLt
      have hPart := getD_lt (by decide) hParts i
      rw [if_pos hi, hWord, getD_words]
      split at h
      next hOut2 =>
        cases pure_inj.mp h
        rw [if_pos (hMin.mpr hOut2)]
        exact ⟨rfl, hLt, hParts⟩
      next hOut2 =>
        rw [if_neg (mt hMin.mp hOut2)]
        split at h
        next hOut =>
          cases pure_inj.mp h
          rw [if_pos (hMax.mpr hOut)]
          exact ⟨rfl, hLt, hParts⟩
        next hOut =>
          rw [if_neg (mt hMax.mp hOut)]
          split at h
          next hOne =>
            rw [if_pos ((ofNat_eq_one hPart).mpr hOne)]
            exact ih hParts h
          next hOne =>
            have hHalf := ih (set_lt hParts i ((Nat.div_le_self _ 2).trans_lt hPart)) h
            rw [← words_set, Int64.ofNat_div hPart (by decide)] at hHalf
            rw [if_neg (mt (ofNat_eq_one hPart).mp hOne)]
            exact hHalf
    next hi =>
      rw [if_neg hi]
      exact ih hParts h

theorem split_words {ndim n part p : Nat} (hn : n < 2 ^ 63) (hPart : part < 2 ^ 63)
    (h : L.split ndim n part = pure p) :
    L.words.split ndim (Int64.ofNat n) (Int64.ofNat part) = Int64.ofNat p ∧ p < 2 ^ 63 := by
  have hClose : Word.tooClose (Int64.ofNat n) (Int64.ofNat part) = tooClose n part := by
    rw [Word.tooClose, Int64.toNatClampNeg_ofNat_of_lt hn, Int64.toNatClampNeg_ofNat_of_lt hPart]
  have hHalf : (if tooClose n part then Int64.ofNat part / 2 else Int64.ofNat part) =
      Int64.ofNat (if tooClose n part then part / 2 else part) := by
    rw [apply_ite Int64.ofNat, Int64.ofNat_div hPart (by decide)]
    rfl
  have hLe : (if tooClose n part then part / 2 else part) ≤ part := by
    split
    next => exact Nat.div_le_self _ _
    next => exact le_rfl
  rw [split] at h
  rw [Word.Limits.split, hClose, hHalf]
  generalize (if tooClose n part then part / 2 else part) = q at h hLe
  have hq : q < 2 ^ 63 := hLe.trans_lt hPart
  split at h
  next hTune =>
    obtain ⟨four, hFour, h⟩ := bind_eq_pure.mp h
    obtain ⟨hMax, rfl⟩ := mul64_eq_pure.mp hFour
    have hLess : Int64.ofNat n < Int64.ofNat q * 4 ↔ n < q * 4 := by
      change _ < Int64.ofNat q * Int64.ofNat 4 ↔ _
      rw [← Int64.ofNat_mul]
      exact Int64.ofNat_lt_iff_lt hn (by rw [int64Max] at hMax; omega)
    have hTest : (L.words.btune = true ∧ ndim = 1 ∧ Int64.ofNat n < Int64.ofNat q * 4) ↔
        n < q * 4 := by
      rw [hLess]
      exact ⟨fun hAll => hAll.2.2, fun hn => ⟨hTune.1, hTune.2, hn⟩⟩
    rw [← pure_inj.mp h]
    by_cases hFew : n < q * 4
    · rw [if_pos (hTest.mpr hFew), if_pos hFew, Int64.ofNat_div hq (by decide)]
      exact ⟨rfl, (Nat.div_le_self _ _).trans_lt hq⟩
    · rw [if_neg (mt hTest.mp hFew), if_neg hFew]
      exact ⟨rfl, hq⟩
  next hTune =>
    rw [if_neg fun hAll => hTune ⟨hAll.1, hAll.2.1⟩, ← pure_inj.mp h]
    exact ⟨rfl, hq⟩

theorem correct_words (hL : L.Fits) {shape : List Nat} (hShape : ∀ n ∈ shape, n < 2 ^ 63)
    {left i : Nat} {parts : List Nat} (hParts : ∀ p ∈ parts, p < 2 ^ 63) {size : Nat}
    (hSize : size < 2 ^ 63) {r : Nat × List Nat}
    (h : L.correct shape left i parts size = pure r) :
    L.words.correct (Grid.words shape) left i (Grid.words parts) (Int64.ofNat size) =
      (Int64.ofNat r.1, Grid.words r.2) ∧ r.1 < 2 ^ 63 := by
  induction left generalizing i parts size with
  | zero =>
    rw [← pure_inj.mp h]
    exact ⟨rfl, hSize⟩
  | succ left ih =>
    rw [correct] at h
    obtain ⟨n, hPartsize, h⟩ := bind_eq_pure.mp h
    have hLt := partsize_lt hL.itemsize hPartsize
    have hWord : L.words.partsize (Grid.words parts) = Int64.ofNat n := partsize_words hPartsize
    have hMin : Int64.ofNat n < L.words.minsize ↔ (n : Int) < L.minsize :=
      ofNat_lt_ofInt hL.minsize hLt
    have hHalf : Int64.ofNat n ≤ L.words.maxsize / 2 ↔ (n : Int) ≤ L.maxsize.tdiv 2 := by
      rw [Int64.le_iff_toInt_le, Int64.toInt_ofNat_of_lt hLt,
        Int64.toInt_div_of_ne_right _ _ (by decide), words,
        Int64.toInt_ofInt_of_le hL.maxsize.1 hL.maxsize.2]
      rfl
    have hPart := getD_lt (by decide) hParts i
    rw [Word.Limits.correct, hWord, getD_words, getD_words, length_words]
    split at h
    next hOut =>
      rw [if_pos (hMin.mpr hOut), ← pure_inj.mp h]
      exact ⟨rfl, hLt⟩
    next hOut =>
      rw [if_neg (mt hMin.mp hOut)]
      split at h
      next hSmall =>
        rw [if_pos (hHalf.mpr hSmall), ← pure_inj.mp h]
        exact ⟨rfl, hLt⟩
      next hSmall =>
        rw [if_neg (mt hHalf.mp hSmall)]
        split at h
        next hOne =>
          rw [if_pos ((ofNat_eq_one hPart).mpr hOne)]
          exact ih hParts hLt h
        next hOne =>
          obtain ⟨p, hSplit, h⟩ := bind_eq_pure.mp h
          obtain ⟨hNew, hp⟩ := split_words (getD_lt (by decide) hShape i) hPart hSplit
          have hNext := ih (set_lt hParts i hp) hLt h
          rw [← words_set] at hNext
          rw [if_neg (mt (ofNat_eq_one hPart).mp hOne), hNew]
          exact hNext

theorem atOut2_words {size : Nat} (hSize : size < 2 ^ 63) {parts q : List Nat}
    (h : atOut2 size parts = pure q) :
    Word.Limits.atOut2 (Int64.ofNat size) (Grid.words parts) = .ok (Grid.words q) := by
  rw [atOut2] at h
  have hMax : Int64.ofNat int32Max < Int64.ofNat size ↔ int32Max < size :=
    Int64.ofNat_lt_iff_lt (by decide) hSize
  have hZero : Int64.ofNat size ≤ 0 ↔ size = 0 := by
    change _ ≤ Int64.ofNat 0 ↔ _
    rw [Int64.ofNat_le_iff_le hSize (by decide), Nat.le_zero]
  split at h
  next => exact absurd h throw_ne_pure
  next hFits =>
    split at h
    next => exact absurd h throw_ne_pure
    next hPos =>
      rw [Word.Limits.atOut2, if_neg (mt hMax.mp hFits), if_neg (mt hZero.mp hPos), pure_inj.mp h]

theorem goto_words (hL : L.Fits) {shape : List Nat} (hShape : ∀ n ∈ shape, n < 2 ^ 63)
    {label : Label} {size : Nat} (hSize : size < 2 ^ 63) {parts q : List Nat}
    (hParts : ∀ p ∈ parts, p < 2 ^ 63) (h : L.goto shape (label, size, parts) = pure q) :
    L.words.goto (Grid.words shape) (label, Int64.ofNat size, Grid.words parts) =
      .ok (Grid.words q) := by
  cases label with
  | out =>
    obtain ⟨r, hCorrect, h⟩ := bind_eq_pure.mp h
    obtain ⟨hWords, hLt⟩ := correct_words hL hShape hParts hSize hCorrect
    rw [Word.Limits.goto, length_words, hWords]
    exact atOut2_words hLt h
  | out2 => exact atOut2_words hSize h

theorem mapM_nearest_words {fuel : Nat} {shape parts : List Nat}
    (h : shape.mapM (getNearestPower2 fuel) = pure parts) :
    (Grid.words shape).mapM (Word.getNearestPower2 fuel) = some (Grid.words parts) := by
  have hAll := mapM_eq_pure.mp h
  clear h
  induction hAll with
  | nil => rfl
  | cons hFirst _ ih =>
    rw [words_cons, List.mapM_cons, getNearestPower2_words hFirst, ih]
    rfl

/-- A search that succeeds without an overflow succeeds on machine words with the same parts. -/
theorem boxedOptimPartition_words (hL : L.Fits) {fuel : Nat} {shape q : List Nat}
    (h : L.boxedOptimPartition fuel shape = pure q) :
    L.words.boxedOptimPartition fuel (Grid.words shape) = some (.ok (Grid.words q)) := by
  obtain ⟨parts, hNearest, h⟩ := bind_eq_pure.mp h
  obtain ⟨⟨label, size, parts'⟩, hShrink, hGoto⟩ := bind_eq_pure.mp h
  obtain ⟨hShape, rfl⟩ := mapM_nearest hNearest
  have hPowers : ∀ p ∈ powers (exponents shape), p < 2 ^ 63 := by
    intro p hp
    obtain ⟨e, he, rfl⟩ := List.mem_map.mp hp
    obtain ⟨n, hn, rfl⟩ := List.mem_map.mp he
    exact Nat.pow_lt_pow_right (by decide) ((log2_lt_62 (hShape n hn)).trans (by decide))
  have hFits : ∀ n ∈ shape, n < 2 ^ 63 := fun n hn => (hShape n hn).trans (by decide)
  obtain ⟨hWords, hSize, hParts⟩ := shrink_words hL hPowers hShrink
  rw [Word.Limits.boxedOptimPartition, mapM_nearest_words hNearest]
  change (L.words.shrink fuel 0 _).bind _ = _
  rw [hWords, Option.bind_some, goto_words hL hFits hSize hParts hGoto]
  rfl

end Limits

end IronArray.Partition
