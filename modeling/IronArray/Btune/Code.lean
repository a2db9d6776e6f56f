import Mathlib.Algebra.Order.Ring.Rat
import Mathlib.Algebra.BigOperators.Group.List.Basic

/-!
# The tuner of the compression parameters

BTune is a state machine behind a Blosc context: before each chunk `iabtune_next_cparams`
chooses parameters, after it `iabtune_update` judges what was measured. Times, ratios and scores
are exact numbers. The tracing under `BTUNE_LOG` is left out, and so is what the
`BTUNE_DISABLE_BLOCKSIZE` switch cuts off in `iabtune_next_blocksize`.
-/

namespace IronArray.Btune

/-! ## Faults -/

/-- What a step of the tuner must not run into. -/
inductive Fault
  | divisionByZero | outOfBounds | overflow | nullPointer | assertion
deriving DecidableEq, Repr

abbrev Tuned := Except Fault

/-- A division of doubles. By zero it would go on with an infinity or NaN; a run that executes one is
not followed any further. -/
def divide (x y : ℚ) : Tuned ℚ := if y = 0 then .error .divisionByZero else .ok (x / y)

/-- `n % k == 0` for a counter and an unsigned bound. -/
def divides (n : Nat) (k : UInt32) : Tuned Bool :=
  if k = 0 then .error .divisionByZero else .ok (n % k.toNat == 0)

/-- `n++` on a counter of type `int`. -/
def increment (n : Nat) : Tuned Nat := if n + 1 < 2 ^ 31 then .ok (n + 1) else .error .overflow

def assertThat (p : Prop) [Decidable p] : Tuned Unit :=
  if p then .ok () else .error .assertion

/-- `p || q`, where `q` runs only if `p` does not hold. -/
def orElse (p : Prop) [Decidable p] (q : Tuned Bool) : Tuned Bool := if p then .ok true else q

/-- `p && q`, where `q` runs only if `p` holds. -/
def andThen (p : Prop) [Decidable p] (q : Tuned Bool) : Tuned Bool := if p then q else .ok false

/-- `xs[i] = x`. -/
def store (xs : List ℚ) (i : Nat) (x : ℚ) : Tuned (List ℚ) :=
  if i < xs.length then .ok (xs.set i x) else .error .outOfBounds

/-! ## Configuration -/

/-- `btune_comp_mode`. -/
inductive CompMode
  | hsp | balanced | hcr
deriving DecidableEq

/-- `btune_performance_mode`. -/
inductive PerformanceMode
  | comp | decomp | balanced
deriving DecidableEq

/-- `btune_repeat_mode`. -/
inductive RepeatMode
  | stop | repeatSoft | repeatAll
deriving DecidableEq

/-- `btune_behaviour`. -/
structure Behaviour where
  nwaitsBeforeReadapt : UInt32
  nsoftsBeforeHard : UInt32
  nhardsBeforeStop : UInt32
  repeatMode : RepeatMode

/-- `btune_config`. -/
structure Config where
  bandwidth : UInt32
  perfMode : PerformanceMode
  compMode : CompMode
  behaviour : Behaviour
  cparamsHint : Bool

def disableShufflesize : Bool := true
def disableBlocksize : Bool := true
def disableMemcpy : Bool := true
def disableThreads : Bool := true

def kb : Nat := 1024
def repeatsPerCparams : Nat := 1
def maxClevel : Nat := 9
def minBlock : Nat := 16 * kb
def maxBlock : Nat := 2 * kb * kb
def minBitshuffle : Nat := 1
def minShuffle : Nat := 2
def maxShuffle : Nat := 16
def minThreads : Int := 1
def softStepSize : Nat := 1
def hardStepSize : Nat := 2
def maxStateThreads : Nat := 50

/-! ## State -/

/-- The codecs of Blosc that the tuner names. -/
inductive Compcode
  | blosclz | lz4 | lz4hc | zlib | zstd
  | other (n : Nat)
deriving DecidableEq

def bloscShuffle : Nat := 1
def bloscAlwaysSplit : Nat := 1
def bloscNeverSplit : Nat := 2

/-- `cparams_btune`. -/
structure Cparams where
  compcode : Compcode
  filter : Nat
  splitmode : Nat
  clevel : Nat
  blocksize : Nat
  shufflesize : Nat
  nthreadsComp : Int
  nthreadsDecomp : Int
  increasingClevel : Bool
  increasingBlock : Bool
  increasingShuffle : Bool
  increasingNthreads : Bool
  score : ℚ
  cratio : ℚ
  ctime : ℚ
  dtime : ℚ

/-- `cparams_btune_default`. -/
def cparamsDefault : Cparams where
  compcode := .lz4
  filter := bloscShuffle
  splitmode := bloscAlwaysSplit
  clevel := 9
  blocksize := 0
  shufflesize := 0
  nthreadsComp := 0
  nthreadsDecomp := 0
  increasingClevel := false
  increasingBlock := true
  increasingShuffle := true
  increasingNthreads := false
  score := 100
  cratio := 11 / 10
  ctime := 100
  dtime := 100

/-- The fields of a `blosc2_context` that the tuner reads or writes. -/
structure Context where
  compcode : Compcode
  filter : Nat
  splitmode : Nat
  clevel : Nat
  typesize : Nat
  blocksize : Nat
  sourcesize : Nat
  destsize : Nat
  nthreads : Int16
  newNthreads : Int16

/-- `btune_state`. -/
inductive State
  | codecFilter | shuffleSize | threads | clevel | blocksize | memcpy | waiting | stop
deriving DecidableEq

/-- `readapt_type`. -/
inductive ReadaptType
  | wait | soft | hard
deriving DecidableEq

/-- `btune_struct`. -/
structure Tuner where
  config : Config
  codecs : List Compcode
  best : Cparams
  auxCparams : Cparams
  currentScores : List ℚ
  currentCratios : List ℚ
  repIndex : Nat
  filterSplitLimit : Nat
  auxIndex : Nat
  stepsCount : Nat
  state : State
  stepSize : Nat
  nwaitings : Nat
  nsofts : Nat
  nhards : Nat
  isRepeating : Bool
  readaptFrom : ReadaptType
  maxThreads : Int
  dctx : Option Context
  nthreadsDecomp : Int
  threadsForComp : Bool

/-- A compression context with the tuner behind its `btune` pointer. -/
structure System where
  cctx : Context
  btune : Tuner

/-- What `blosc2_list_compressors` names, and the overhead of a chunk. -/
structure Blosc where
  hasZstd : Bool
  hasZlib : Bool
  maxOverhead : Nat

/-! ## Codecs -/

/-- `btune_get_codecs`. -/
def btuneGetCodecs (B : Blosc) (config : Config) : List Compcode :=
  if config.compMode = .hcr then
    (if B.hasZstd then [.zstd] else []) ++ (if B.hasZlib then [.zlib] else [])
  else
    [.lz4] ++ (if config.compMode = .balanced then [.blosclz] else []) ++
      (if config.perfMode = .decomp then [.lz4hc] else [])

/-- `add_codec`. -/
def addCodec (codecs : List Compcode) (compcode : Compcode) : List Compcode :=
  if compcode ∈ codecs then codecs else codecs ++ [compcode]

/-- `codecs->list[i]`. -/
def codecAt (codecs : List Compcode) (i : Nat) : Tuned Compcode :=
  match codecs[i]? with
  | some compcode => .ok compcode
  | none => .error .outOfBounds

/-! ## Directions -/

/-- `has_ended_clevel`. -/
def hasEndedClevel (t : Tuner) : Bool :=
  (t.best.increasingClevel && decide (maxClevel - t.stepSize ≤ t.best.clevel)) ||
    (!t.best.increasingClevel && decide (t.best.clevel ≤ 1 + t.stepSize))

/-- `has_ended_shuffle`. -/
def hasEndedShuffle (best : Cparams) : Bool :=
  let minimum := if best.filter = bloscShuffle then minShuffle else minBitshuffle
  (best.increasingShuffle && best.shufflesize == maxShuffle) ||
    (!best.increasingShuffle && best.shufflesize == minimum)

/-- `has_ended_threads`. -/
def hasEndedThreads (t : Tuner) : Bool :=
  let nthreads := if t.threadsForComp then t.best.nthreadsComp else t.best.nthreadsDecomp
  (t.best.increasingNthreads && nthreads == t.maxThreads) ||
    (!t.best.increasingNthreads && nthreads == minThreads)

/-- `has_ended_blocksize`. -/
def hasEndedBlocksize (ctx : Context) (t : Tuner) : Bool :=
  (t.best.increasingBlock && (decide (maxBlock >>> t.stepSize < t.best.blocksize) ||
      decide (ctx.sourcesize >>> t.stepSize < t.best.blocksize))) ||
    (!t.best.increasingBlock && decide (t.best.blocksize < minBlock <<< t.stepSize))

def Tuner.flipClevel (t : Tuner) : Tuner :=
  { t with best := { t.best with increasingClevel := !t.best.increasingClevel } }

def Tuner.flipShuffle (t : Tuner) : Tuner :=
  { t with best := { t.best with increasingShuffle := !t.best.increasingShuffle } }

def Tuner.flipNthreads (t : Tuner) : Tuner :=
  { t with best := { t.best with increasingNthreads := !t.best.increasingNthreads } }

def Tuner.flipBlock (t : Tuner) : Tuner :=
  { t with best := { t.best with increasingBlock := !t.best.increasingBlock } }

/-! ## Readapts -/

/-- `init_soft`. -/
def initSoft (t : Tuner) : Tuner :=
  let t := if hasEndedClevel t then t.flipClevel else t
  { t with state := .clevel, stepSize := softStepSize, readaptFrom := .soft }

/-- `init_hard`. -/
def initHard (t : Tuner) : Tuner :=
  let t := { t with
    state := .codecFilter, stepSize := hardStepSize, readaptFrom := .hard
    threadsForComp := decide (t.config.perfMode ≠ .decomp) }
  if hasEndedShuffle t.best then t.flipShuffle else t

/-- The number of hard readapts that do not count. -/
def minimumHards (t : Tuner) : UInt32 := if t.config.cparamsHint then 0 else 1

/-- `init_without_hards`. -/
def initWithoutHards (t : Tuner) : Tuner :=
  let behaviour := t.config.behaviour
  let stop := if minimumHards t = 0 ∧ 0 < behaviour.nsoftsBeforeHard then initSoft t
    else { t with state := .stop, readaptFrom := .wait }
  let soft := if 0 < behaviour.nsoftsBeforeHard then initSoft t else stop
  let t := match behaviour.repeatMode with
    | .repeatAll => if minimumHards t < behaviour.nhardsBeforeStop then initHard t else soft
    | .repeatSoft => soft
    | .stop => stop
  { t with isRepeating := true }

/-- `WAITING` until the next readapt. -/
def initWait (t : Tuner) : Tuner := { t with state := .waiting, readaptFrom := .wait }

/-- The case `HARD` of `process_waiting_state`. -/
def waitingAfterHard (t : Tuner) : Tuned Tuner := do
  let behaviour := t.config.behaviour
  let t := { t with nhards := ← increment t.nhards }
  assertThat (0 < t.nhards)
  let last ← orElse (behaviour.nhardsBeforeStop = minimumHards t)
    (divides t.nhards behaviour.nhardsBeforeStop)
  if last then
    -- The initial readapts are over.
    let t := { t with isRepeating := true }
    if 0 < behaviour.nsoftsBeforeHard ∧ behaviour.repeatMode ≠ .stop then pure (initSoft t)
    else if behaviour.repeatMode ≠ .repeatAll then pure { t with state := .stop }
    else if 0 < behaviour.nwaitsBeforeReadapt then pure (initWait t)
    else if minimumHards t < behaviour.nhardsBeforeStop then pure (initHard t)
    else pure { t with state := .stop }
  else if 0 < behaviour.nsoftsBeforeHard then pure (initSoft t)
  else if 0 < behaviour.nwaitsBeforeReadapt then pure (initWait t)
  else pure (initHard t)

/-- The case `SOFT`. -/
def waitingAfterSoft (t : Tuner) : Tuned Tuner := do
  let behaviour := t.config.behaviour
  let t := { t with nsofts := ← increment t.nsofts, readaptFrom := .wait }
  assertThat (0 < t.nsofts)
  if behaviour.nwaitsBeforeReadapt = 0 then
    let last ← orElse (behaviour.nsoftsBeforeHard = 0)
      (divides t.nsofts behaviour.nsoftsBeforeHard)
    if last ∧ ¬(t.isRepeating ∧ behaviour.repeatMode ≠ .repeatAll) ∧
        minimumHards t < behaviour.nhardsBeforeStop then pure (initHard t)
    else
      let lastSoft ← andThen (minimumHards t = 0 ∧ behaviour.nhardsBeforeStop = 0)
        (divides t.nsofts behaviour.nsoftsBeforeHard)
      if lastSoft ∧ behaviour.repeatMode = .stop then
        pure { t with isRepeating := true, state := .stop }
      else pure (initSoft t)
  else pure t

/-- The case `WAIT`. -/
def waitingAfterWait (t : Tuner) : Tuned Tuner := do
  let behaviour := t.config.behaviour
  let lastWait ← orElse (behaviour.nwaitsBeforeReadapt = 0)
    (andThen (t.nwaitings ≠ 0) (divides t.nwaitings behaviour.nwaitsBeforeReadapt))
  if lastWait then
    let last ← orElse (behaviour.nsoftsBeforeHard = 0)
      (andThen (t.nsofts ≠ 0) (divides t.nsofts behaviour.nsoftsBeforeHard))
    if last ∧ ¬(t.isRepeating ∧ behaviour.repeatMode ≠ .repeatAll) ∧
        minimumHards t < behaviour.nhardsBeforeStop then pure (initHard t)
    else if 0 < behaviour.nsoftsBeforeHard ∧
        ¬(t.isRepeating ∧ behaviour.repeatMode = .stop) then pure (initSoft t)
    else pure t
  else pure t

/-- The switch of `process_waiting_state`. -/
def leaveWaiting (t : Tuner) : Tuned Tuner :=
  match t.readaptFrom with
  | .hard => waitingAfterHard t
  | .soft => waitingAfterSoft t
  | .wait => waitingAfterWait t

/-- `process_waiting_state`. -/
def processWaitingState (t : Tuner) : Tuned Tuner := do
  let behaviour := t.config.behaviour
  let t ← leaveWaiting t
  -- The last hard readapt takes soft steps.
  pure (if t.readaptFrom = .hard ∧
      (t.nhards : Int) = (behaviour.nhardsBeforeStop - 1).toInt32.toInt then
    { t with stepSize := softStepSize } else t)

/-! ## Initialisation -/

/-- `extract_btune_cparams`. -/
def extractBtuneCparams (ctx : Context) (t : Tuner) (cparams : Cparams) : Cparams :=
  { cparams with
    compcode := ctx.compcode, filter := ctx.filter, clevel := ctx.clevel
    splitmode := ctx.splitmode, blocksize := ctx.blocksize, shufflesize := ctx.typesize
    nthreadsComp := ctx.nthreads.toInt
    nthreadsDecomp := match t.dctx with
      | none => t.nthreadsDecomp
      | some dctx => dctx.nthreads.toInt }

/-- The threads for decompression that the contexts come with. -/
def startThreads (cctx : Context) (dctx : Option Context) : Int :=
  match dctx with
  | none => cctx.nthreads.toInt
  | some dctx => dctx.nthreads.toInt

/-- The parameters that `iabtune_init` starts from. -/
def startCparams (config : Config) (compcode : Compcode) (cctx : Context)
    (dctx : Option Context) : Cparams :=
  { cparamsDefault with
    compcode := compcode
    clevel := if config.compMode = .hcr then 8 else cparamsDefault.clevel
    shufflesize := cctx.typesize
    nthreadsComp := cctx.nthreads.toInt
    nthreadsDecomp := startThreads cctx dctx }

/-- The fields that `iabtune_init` sets before the first readapt. -/
def startTuner (config : Config) (codecs : List Compcode) (start : Cparams) (cctx : Context)
    (dctx : Option Context) : Tuner where
  config := config
  codecs := codecs
  best := start
  auxCparams := start
  currentScores := List.replicate repeatsPerCparams 0
  currentCratios := List.replicate repeatsPerCparams 0
  repIndex := 0
  filterSplitLimit := 3 * 2 * repeatsPerCparams
  auxIndex := 0
  stepsCount := 0
  state := .codecFilter
  stepSize := 0
  nwaitings := 0
  nsofts := 0
  nhards := 0
  isRepeating := false
  readaptFrom := .wait
  maxThreads := max cctx.nthreads.toInt (startThreads cctx dctx)
  dctx := dctx
  nthreadsDecomp := startThreads cctx dctx
  threadsForComp := decide (config.perfMode ≠ .decomp)

/-- `iabtune_init`. -/
def iabtuneInit (B : Blosc) (config : Option Config) (cctx : Context) (dctx : Option Context) :
    Tuned System := do
  match config with
  -- The defaults are copied, but then `config->cparams_hint` is read.
  | none => .error .nullPointer
  | some config => do
    let codecs := btuneGetCodecs B config
    let compcode ← codecAt codecs 0
    let start := startCparams config compcode cctx dctx
    let t := startTuner config codecs start cctx dctx
    let behaviour := config.behaviour
    let t :=
      if config.cparamsHint then
        let t := { t with
          best := extractBtuneCparams cctx t t.best
          auxCparams := extractBtuneCparams cctx t t.auxCparams
          codecs := addCodec codecs cctx.compcode }
        if 0 < behaviour.nhardsBeforeStop then
          if 0 < behaviour.nsoftsBeforeHard then initSoft t
          else if 0 < behaviour.nwaitsBeforeReadapt then
            { t with state := .waiting, readaptFrom := .wait }
          else initHard t
        else initWithoutHards t
      else
        let t := initHard t
        { t with config := { t.config with
          behaviour := { behaviour with
            nhardsBeforeStop := behaviour.nhardsBeforeStop + 1 } } }
    pure ⟨cctx, { t with
      stepSize := if t.config.behaviour.nhardsBeforeStop = 1 then softStepSize
        else hardStepSize }⟩

/-! ## The next parameters -/

/-- `iabtune_next_blocksize`: the block size that it leaves in the context. -/
def iabtuneNextBlocksize (ctx : Context) : Nat := ctx.blocksize

/-- The bound on the compression level that `set_btune_cparams` puts on the parameters. -/
def capClevel (mode : CompMode) (cparams : Cparams) : Nat :=
  let clevel := if mode = .balanced ∧ (cparams.compcode = .zstd ∨ cparams.compcode = .zlib) ∧
    3 ≤ cparams.clevel then 3 else cparams.clevel
  if mode = .hcr ∧ 6 ≤ clevel then 6 else clevel

/-- `set_btune_cparams`, where `cparams` is `btune->aux_cparams`. -/
def setBtuneCparams (s : System) (cparams : Cparams) : System :=
  let ctx := { s.cctx with
    compcode := cparams.compcode, filter := cparams.filter
    splitmode := cparams.splitmode, clevel := cparams.clevel }
  let clevel := capClevel s.btune.config.compMode cparams
  let blocksize := if cparams.blocksize ≠ 0 then cparams.blocksize else iabtuneNextBlocksize ctx
  let cparams := { cparams with clevel := clevel, blocksize := blocksize }
  let ctx := { ctx with
    blocksize := blocksize, typesize := cparams.shufflesize
    newNthreads := Int16.ofInt cparams.nthreadsComp }
  let t := match s.btune.dctx with
    | some dctx => { s.btune with
        dctx := some { dctx with newNthreads := Int16.ofInt cparams.nthreadsDecomp } }
    | none => { s.btune with nthreadsDecomp := cparams.nthreadsDecomp }
  ⟨ctx, { t with auxCparams := cparams }⟩

/-- The case `CODEC_FILTER` of `iabtune_next_cparams`. -/
def nextCodecFilter (t : Tuner) (cparams : Cparams) : Tuned Cparams := do
  let compcode ← codecAt t.codecs (t.auxIndex / t.filterSplitLimit)
  let filter := t.auxIndex % (t.filterSplitLimit / 2) / repeatsPerCparams
  let splitmode := if compcode = .blosclz then bloscAlwaysSplit
    else (t.auxIndex % t.filterSplitLimit / 3 + 1) / repeatsPerCparams
  let clevel :=
    if (t.config.perfMode = .comp ∨ t.config.perfMode = .balanced) ∧
        (compcode = .zstd ∨ cparams.compcode = .zlib) ∧ t.nhards = 0 then 3
    else cparams.clevel
  pure { cparams with
    clevel := clevel, compcode := compcode, filter := filter, splitmode := splitmode }

/-- The case `SHUFFLE_SIZE`. -/
def nextShufflesize (cparams : Cparams) : Cparams :=
  if cparams.increasingShuffle then
    if cparams.shufflesize < maxShuffle then
      { cparams with shufflesize := cparams.shufflesize <<< 1 } else cparams
  else
    let minimum := if cparams.filter = 1 then minShuffle else minBitshuffle
    if minimum < cparams.shufflesize then
      { cparams with shufflesize := cparams.shufflesize >>> 1 } else cparams

/-- The case `THREADS`. -/
def nextThreads (t : Tuner) (cparams : Cparams) : Cparams :=
  let next (nthreads : Int) : Int :=
    if cparams.increasingNthreads then
      if nthreads < t.maxThreads then nthreads + 1 else nthreads
    else if minThreads < nthreads then nthreads - 1 else nthreads
  if t.threadsForComp then { cparams with nthreadsComp := next cparams.nthreadsComp }
  else { cparams with nthreadsDecomp := next cparams.nthreadsDecomp }

/-- The case `CLEVEL`. -/
def nextClevel (t : Tuner) (cparams : Cparams) : Cparams :=
  let blocksize := if t.readaptFrom = .hard then 0 else cparams.blocksize
  let clevel :=
    if cparams.increasingClevel then
      if cparams.clevel ≤ maxClevel - t.stepSize then
        let clevel := cparams.clevel + t.stepSize
        if clevel = 9 ∧ cparams.compcode = .zstd then 8 else clevel
      else cparams.clevel
    else if t.stepSize < cparams.clevel then cparams.clevel - t.stepSize
    else cparams.clevel
  { cparams with blocksize := blocksize, clevel := clevel }

/-- The case `BLOCKSIZE`. -/
def nextBlocksize (ctx : Context) (t : Tuner) (cparams : Cparams) : Cparams :=
  if disableBlocksize then cparams
  else if cparams.increasingBlock then
    let newBlock := (cparams.blocksize * 1) <<< t.stepSize
    if cparams.blocksize ≤ maxBlock >>> (t.stepSize - 1) ∧ newBlock ≤ ctx.sourcesize then
      { cparams with blocksize := newBlock } else cparams
  else if minBlock <<< (t.stepSize - 1) ≤ cparams.blocksize then
    { cparams with blocksize := cparams.blocksize >>> t.stepSize }
  else cparams

/-- `iabtune_next_cparams`. -/
def iabtuneNextCparams (s : System) : Tuned System := do
  let t := s.btune
  let cparams := t.best
  match t.state with
  | .codecFilter => do
    let cparams ← nextCodecFilter t cparams
    let auxIndex ← increment t.auxIndex
    pure (setBtuneCparams { s with btune := { t with auxIndex := auxIndex } } cparams)
  | .shuffleSize => do
    let auxIndex ← increment t.auxIndex
    pure (setBtuneCparams { s with btune := { t with auxIndex := auxIndex } }
      (nextShufflesize cparams))
  | .threads => do
    let auxIndex ← increment t.auxIndex
    pure (setBtuneCparams { s with btune := { t with auxIndex := auxIndex } }
      (nextThreads t cparams))
  | .clevel => do
    let auxIndex ← increment t.auxIndex
    pure (setBtuneCparams { s with btune := { t with auxIndex := auxIndex } }
      (nextClevel t cparams))
  | .blocksize => do
    let auxIndex ← increment t.auxIndex
    pure (setBtuneCparams { s with btune := { t with auxIndex := auxIndex } }
      (nextBlocksize s.cctx t cparams))
  | .memcpy => do
    let auxIndex ← increment t.auxIndex
    pure (setBtuneCparams { s with btune := { t with auxIndex := auxIndex } }
      { cparams with clevel := 0 })
  | .waiting => do
    let nwaitings ← increment t.nwaitings
    pure (setBtuneCparams { s with btune := { t with nwaitings := nwaitings } } cparams)
  | .stop => pure (setBtuneCparams s cparams)

/-! ## Judging the measurements -/

/-- `score_function`. -/
def scoreFunction (config : Config) (ctime : ℚ) (cbytes : Nat) (dtime : ℚ) : Tuned ℚ := do
  let reducedCbytes ← divide cbytes kb
  let transfer ← divide reducedCbytes config.bandwidth.toNat
  pure (match config.perfMode with
    | .comp => ctime + transfer
    | .decomp => transfer + dtime
    | .balanced => ctime + transfer + dtime)

/-- `mean`. -/
def mean (array : List ℚ) : Tuned ℚ := divide array.sum array.length

/-- `has_improved`. -/
def hasImproved (config : Config) (scoreCoef cratioCoef : ℚ) : Bool :=
  match config.compMode with
  | .hsp =>
    decide (1 < cratioCoef ∧ 1 < scoreCoef) || decide (1 / 2 < cratioCoef ∧ 2 < scoreCoef) ||
      decide (67 / 100 < cratioCoef ∧ 13 / 10 < scoreCoef) ||
      decide (2 < cratioCoef ∧ 7 / 10 < scoreCoef)
  | .balanced =>
    decide (1 < cratioCoef ∧ 1 < scoreCoef) ||
      decide (11 / 10 < cratioCoef ∧ 8 / 10 < scoreCoef) ||
      decide (13 / 10 < cratioCoef ∧ 1 / 2 < scoreCoef)
  | .hcr => decide (1 < cratioCoef)

/-- The state after the shuffle size, or after the codecs when that is not tuned. -/
def afterShuffle : State := if disableThreads then .clevel else .threads

/-- The change of direction on entering `CLEVEL` from a state without threads to tune. -/
def enterClevel (t : Tuner) : Tuner :=
  let t := { t with state := .clevel }
  if hasEndedClevel t then t.flipClevel else t

/-- The state after the compression level and the block size. -/
def afterBlocksize : State := if disableMemcpy then .waiting else .memcpy

/-- The case `CODEC_FILTER` of `update_aux`. -/
def updateCodecFilter (t : Tuner) : Tuner :=
  if t.auxIndex / t.filterSplitLimit = t.codecs.length then
    let isPower2 := t.best.shufflesize &&& (t.best.shufflesize - 1) == 0
    let t := { t with
      auxIndex := 0
      state := if disableShufflesize then afterShuffle
        else if t.best.filter ≠ 0 ∧ isPower2 then .shuffleSize else .threads }
    let t := if t.state = .threads ∧ t.maxThreads = 1 then enterClevel t else t
    if !disableShufflesize ∧ t.state = .shuffleSize then
      if hasEndedShuffle t.best then t.flipShuffle else t
    else if t.state = .threads then
      if hasEndedShuffle t.best then t.flipNthreads else t
    else t
  else t

/-- The case `SHUFFLE_SIZE`. -/
def updateShuffleSize (t : Tuner) (improved : Bool) : Tuner :=
  let firstTime := t.auxIndex == repeatsPerCparams
  let t := if !improved ∧ firstTime then t.flipShuffle else t
  if hasEndedShuffle t.best ∨ (!improved ∧ !firstTime) then
    let t := { t with auxIndex := 0, state := afterShuffle }
    if t.state = .threads ∧ t.maxThreads = 1 then enterClevel t
    else if hasEndedThreads t then t.flipNthreads else t
  else t

/-- The case `THREADS`. -/
def updateThreads (t : Tuner) (improved : Bool) : Tuner :=
  let firstTime := t.auxIndex % maxStateThreads == repeatsPerCparams
  let t := if !improved ∧ firstTime then t.flipNthreads else t
  if hasEndedThreads t ∨ (!improved ∧ !firstTime) then
    let t :=
      if t.config.perfMode = .balanced then
        if t.auxIndex < maxStateThreads then
          let t := { t with threadsForComp := !t.threadsForComp, auxIndex := maxStateThreads }
          if hasEndedThreads t then t.flipNthreads else t
        else t
      else { t with auxIndex := maxStateThreads + 1 }
    if maxStateThreads < t.auxIndex then enterClevel { t with auxIndex := 0 } else t
  else t

/-- The case `CLEVEL`. -/
def updateClevel (ctx : Context) (t : Tuner) (improved : Bool) : Tuner :=
  let firstTime := t.auxIndex == repeatsPerCparams
  let t := if !improved ∧ firstTime then t.flipClevel else t
  if hasEndedClevel t ∨ (!improved ∧ !firstTime) then
    let t := { t with
      auxIndex := 0, state := if disableBlocksize then afterBlocksize else .blocksize }
    if hasEndedBlocksize ctx t then t.flipBlock else t
  else t

/-- The case `BLOCKSIZE`. -/
def updateBlocksize (ctx : Context) (t : Tuner) (improved : Bool) : Tuner :=
  let firstTime := t.auxIndex == repeatsPerCparams
  let t := if !improved ∧ firstTime then t.flipBlock else t
  if hasEndedBlocksize ctx t ∨ (!improved ∧ !firstTime) then
    { t with
      auxIndex := 0
      state := if t.config.compMode = .hsp then afterBlocksize else .waiting }
  else t

/-- The switch of `update_aux`. -/
def nextState (ctx : Context) (t : Tuner) (improved : Bool) : Tuner :=
  match t.state with
  | .codecFilter => updateCodecFilter t
  | .shuffleSize => updateShuffleSize t improved
  | .threads => updateThreads t improved
  | .clevel => updateClevel ctx t improved
  | .blocksize => updateBlocksize ctx t improved
  | .memcpy => { t with auxIndex := 0, state := .waiting }
  | .waiting => t
  | .stop => t

/-- `update_aux`. -/
def updateAux (ctx : Context) (t : Tuner) (improved : Bool) : Tuned Tuner :=
  let t := nextState ctx t improved
  if t.state = .waiting then processWaitingState t else .ok t

/-- Whether the measured parameters replace the best ones. -/
def improvedBy (B : Blosc) (s : System) (score cratio ctime dtime : ℚ) : Tuned Bool := do
  let t := s.btune
  let cratioCoef ← divide cratio t.best.cratio
  let scoreCoef ← divide t.best.score score
  let improved :=
    if t.state = .threads then
      if t.threadsForComp then decide (ctime < t.best.ctime) else decide (dtime < t.best.dtime)
    else hasImproved t.config scoreCoef cratioCoef
  -- A chunk of special values never improves the score.
  pure (improved && !decide (s.cctx.destsize ≤ B.maxOverhead + s.cctx.typesize))

/-- The parameters with what was measured of them. -/
def Cparams.measured (c : Cparams) (score cratio ctime dtime : ℚ) : Cparams :=
  { c with score := score, cratio := cratio, ctime := ctime, dtime := dtime }

/-- `iabtune_update`. -/
def iabtuneUpdate (B : Blosc) (s : System) (ctime : ℚ) : Tuned System := do
  let t := s.btune
  if t.state = .stop then pure s
  else
    let stepsCount ← increment t.stepsCount
    let cbytes := s.cctx.destsize
    let dtime : ℚ := 0
    let score ← scoreFunction t.config ctime cbytes dtime
    assertThat (0 < score)
    let cratio ← divide s.cctx.sourcesize cbytes
    let cparams := t.auxCparams.measured score cratio ctime dtime
    let currentScores ← store t.currentScores t.repIndex score
    let currentCratios ← store t.currentCratios t.repIndex cratio
    let repIndex ← increment t.repIndex
    let t := { t with
      stepsCount := stepsCount, auxCparams := cparams, currentScores := currentScores
      currentCratios := currentCratios, repIndex := repIndex }
    if repIndex = repeatsPerCparams then
      let score ← mean currentScores
      let cratio ← mean currentCratios
      let improved ← improvedBy B { s with btune := t } score cratio ctime dtime
      let t := if improved then { t with best := cparams } else t
      let t ← updateAux s.cctx { t with repIndex := 0 } improved
      pure { s with btune := t }
    else pure { s with btune := t }

/-! ## Runs -/

/-- What is measured of one chunk: its size, its compressed size and the time it took. -/
structure Measure where
  sourcesize : Nat
  destsize : Nat
  ctime : ℚ

/-- The compression of one chunk. -/
def compressChunk (B : Blosc) (s : System) (m : Measure) : Tuned System := do
  let s ← iabtuneNextCparams { s with cctx := { s.cctx with sourcesize := m.sourcesize } }
  iabtuneUpdate B { s with cctx := { s.cctx with destsize := m.destsize } } m.ctime

/-- A run of the tuner from its initialisation. -/
def run (B : Blosc) (config : Option Config) (cctx : Context) (dctx : Option Context)
    (ms : List Measure) : Tuned System := do
  let s ← iabtuneInit B config cctx dctx
  ms.foldlM (compressChunk B) s

end IronArray.Btune
