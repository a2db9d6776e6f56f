import IronArray.Btune.Code

/-!
# The tuner stays within its ranges

`Sound` is what every state of a run keeps: legal parameters, a step of one or two, counters
below the number of chunks. `Ready` adds what the state needs before the next chunk; above all
the index of the codecs stays inside their list. With a bandwidth of zero the first score
divides by it.
-/

namespace IronArray.Btune

/-! ## Checked steps -/

theorem ok_bind {α β : Type} (a : α) (f : α → Tuned β) : (Except.ok a >>= f) = f a := rfl

theorem error_bind {α β : Type} (e : Fault) (f : α → Tuned β) :
    (Except.error e >>= f) = Except.error e := rfl

theorem bind_eq_ok {α β : Type} {x : Tuned α} {f : α → Tuned β} {b : β} :
    (x >>= f) = .ok b ↔ ∃ a, x = .ok a ∧ f a = .ok b := by
  cases x with
  | error e => exact ⟨nofun, nofun⟩
  | ok a => exact ⟨fun h => ⟨a, rfl, h⟩, fun ⟨_, hx, hb⟩ => Except.ok.inj hx ▸ hb⟩

theorem increment_ok {n : Nat} (h : n + 1 < 2 ^ 31) : increment n = .ok (n + 1) := if_pos h

theorem divide_ok {x y : ℚ} (h : y ≠ 0) : divide x y = .ok (x / y) := if_neg h

theorem divides_ok {k : UInt32} (h : k ≠ 0) (n : Nat) :
    divides n k = .ok (n % k.toNat == 0) := if_neg h

theorem assertThat_ok {p : Prop} [Decidable p] (h : p) : assertThat p = .ok () := if_pos h

theorem orElse_ok {p : Prop} [Decidable p] {q : Tuned Bool} (h : ¬p → ∃ b, q = .ok b) :
    ∃ b, orElse p q = .ok b := by
  unfold orElse
  split
  · exact ⟨true, rfl⟩
  · exact h ‹_›

theorem andThen_ok {p : Prop} [Decidable p] {q : Tuned Bool} (h : p → ∃ b, q = .ok b) :
    ∃ b, andThen p q = .ok b := by
  unfold andThen
  split
  · exact h ‹_›
  · exact ⟨false, rfl⟩

/-! ## Invariants -/

/-- What a run starts from: the configuration the tuner works with, the codecs it found and
the two contexts. -/
structure Origin where
  config : Config
  codecs : List Compcode
  cctx : Context
  dctx : Option Context

/-- The ranges of the compression parameters. -/
structure Legal (o : Origin) (c : Cparams) : Prop where
  compcode : c.compcode ∈ o.codecs
  filter : c.filter ≤ 2
  splitmode : c.splitmode = bloscAlwaysSplit ∨ c.splitmode = bloscNeverSplit
  clevel_pos : 1 ≤ c.clevel
  clevel_le : c.clevel ≤ maxClevel
  blocksize : c.blocksize = 0 ∨ c.blocksize = o.cctx.blocksize
  shufflesize : c.shufflesize = o.cctx.typesize
  nthreadsComp : c.nthreadsComp = o.cctx.nthreads.toInt
  nthreadsDecomp : c.nthreadsDecomp = startThreads o.cctx o.dctx

/-- The ranges of the compression context once parameters have been chosen. -/
structure LegalContext (o : Origin) (ctx : Context) : Prop where
  compcode : ctx.compcode ∈ o.codecs
  filter : ctx.filter ≤ 2
  splitmode : ctx.splitmode = bloscAlwaysSplit ∨ ctx.splitmode = bloscNeverSplit
  clevel_pos : 1 ≤ ctx.clevel
  clevel_le : ctx.clevel ≤ maxClevel
  blocksize : ctx.blocksize = o.cctx.blocksize
  typesize : ctx.typesize = o.cctx.typesize
  nthreads : ctx.nthreads = o.cctx.nthreads
  newNthreads : ctx.newNthreads = o.cctx.nthreads

/-- What every state of the tuner keeps after at most `n` chunks. -/
structure Sound (o : Origin) (n : Nat) (t : Tuner) : Prop where
  config : t.config = o.config
  codecs : t.codecs = o.codecs
  filterSplitLimit : t.filterSplitLimit = 6
  best : Legal o t.best
  best_score : 0 < t.best.score
  best_cratio : 0 < t.best.cratio
  auxCparams : Legal o t.auxCparams
  currentScores : t.currentScores.length = repeatsPerCparams
  currentCratios : t.currentCratios.length = repeatsPerCparams
  repIndex : t.repIndex = 0
  stepSize : t.stepSize = softStepSize ∨ t.stepSize = hardStepSize
  auxIndex : t.auxIndex ≤ n
  stepsCount : t.stepsCount ≤ n
  nwaitings : t.nwaitings ≤ n
  nsofts : t.nsofts ≤ n
  nhards : t.nhards ≤ n
  dctx : t.dctx = o.dctx ∨ t.dctx = o.dctx.map fun d => { d with newNthreads := d.nthreads }
  nthreadsDecomp : t.nthreadsDecomp = startThreads o.cctx o.dctx

/-- The states that occur, with what each says about `aux_index` before the next chunk. -/
def Ready (o : Origin) (t : Tuner) : Prop :=
  match t.state with
  | .codecFilter => t.auxIndex < 6 * o.codecs.length
  | .clevel | .stop => True
  | .waiting => t.auxIndex = 0
  | _ => False

/-- The same between the choice of parameters and their judgement. -/
def Chosen (o : Origin) (t : Tuner) : Prop :=
  match t.state with
  | .codecFilter => t.auxIndex ≤ 6 * o.codecs.length
  | .clevel | .stop => True
  | .waiting => t.auxIndex = 0
  | _ => False

section

variable {o : Origin} {n : Nat} {t : Tuner} {c : Cparams}

theorem Legal.turn (h : Legal o c) {a b x y : Bool} :
    Legal o { c with
      increasingClevel := a, increasingBlock := b, increasingShuffle := x
      increasingNthreads := y } :=
  { h with }

theorem Sound.mono (h : Sound o n t) {k : Nat} (hk : n ≤ k) : Sound o k t :=
  { h with
    auxIndex := h.auxIndex.trans hk
    stepsCount := h.stepsCount.trans hk
    nwaitings := h.nwaitings.trans hk
    nsofts := h.nsofts.trans hk
    nhards := h.nhards.trans hk }

theorem Sound.flipClevel (h : Sound o n t) : Sound o n t.flipClevel :=
  { h with best := h.best.turn }

/-! ## Readapts -/

theorem Sound.initSoft (h : Sound o n t) : Sound o n (initSoft t) := by
  unfold Btune.initSoft
  split
  · exact { h.flipClevel with stepSize := .inl rfl }
  · exact { h with stepSize := .inl rfl }

theorem initSoft_state (t : Tuner) : (initSoft t).state = .clevel := rfl

theorem initHard_eq (t : Tuner) : ∃ b, initHard t = { t with
    state := .codecFilter, stepSize := hardStepSize, readaptFrom := .hard
    threadsForComp := decide (t.config.perfMode ≠ .decomp)
    best := { t.best with increasingShuffle := b } } := by
  unfold initHard
  dsimp only
  split
  · exact ⟨_, rfl⟩
  · exact ⟨t.best.increasingShuffle, rfl⟩

/-- Where `process_waiting_state` may lead. -/
def Restarted (o : Origin) (n : Nat) (t : Tuner) : Prop := Sound o n t ∧ Ready o t

theorem restarted_initSoft (h : Sound o n t) : Restarted o n (initSoft t) :=
  ⟨h.initSoft, by simp [Ready, initSoft_state]⟩

theorem restarted_initHard (h : Sound o n t) (hCodecs : o.codecs ≠ []) (hAux : t.auxIndex = 0) :
    Restarted o n (initHard t) := by
  have hLength := List.length_pos_iff.mpr hCodecs
  obtain ⟨b, hEq⟩ := initHard_eq t
  rw [hEq]
  refine ⟨{ h with stepSize := .inr rfl, best := h.best.turn }, ?_⟩
  simp only [Ready, hAux]
  omega

theorem restarted_stop (h : Sound o n t) : Restarted o n { t with state := .stop } :=
  ⟨{ h with }, trivial⟩

theorem restarted_waiting (h : Sound o n t) (hState : t.state = .waiting) (hAux : t.auxIndex = 0) :
    Restarted o n t :=
  ⟨h, by simpa [Ready, hState] using hAux⟩

/-- The soft step size of the last hard readapt changes nothing else. -/
theorem Restarted.softStep (h : Restarted o n t) :
    Restarted o n { t with stepSize := softStepSize } :=
  ⟨{ h.1 with stepSize := .inl rfl }, h.2⟩

theorem minimumHards_eq (h : Sound o n t) (hHint : o.config.cparamsHint = false) :
    minimumHards t = 1 := by
  simp [minimumHards, h.config, hHint]

theorem waitingAfterHard_restarted (h : Sound o (n + 1) t) (hCount : t.nhards ≤ n)
    (hHards : o.config.behaviour.nhardsBeforeStop ≠ 0) (hCodecs : o.codecs ≠ [])
    (hAux : t.auxIndex = 0) (hn : n + 1 < 2 ^ 31) :
    ∃ t', waitingAfterHard t = .ok t' ∧ Restarted o (n + 1) t' := by
  have hNext : Sound o (n + 1) { t with nhards := t.nhards + 1 } :=
    { h with nhards := Nat.succ_le_succ hCount }
  have hRepeating : Sound o (n + 1) { t with nhards := t.nhards + 1, isRepeating := true } :=
    { hNext with }
  have hWait : Sound o (n + 1) (initWait { t with nhards := t.nhards + 1 }) := { hNext with }
  have hWaitRepeating :
      Sound o (n + 1) (initWait { t with nhards := t.nhards + 1, isRepeating := true }) :=
    { hNext with }
  have hIncrement := @increment_ok t.nhards (by omega)
  obtain ⟨last, hLast⟩ : ∃ b, orElse (t.config.behaviour.nhardsBeforeStop =
      minimumHards { t with nhards := t.nhards + 1 })
      (divides (t.nhards + 1) t.config.behaviour.nhardsBeforeStop) = .ok b :=
    orElse_ok fun _ => ⟨_, divides_ok (by rwa [h.config]) _⟩
  simp only [waitingAfterHard, hIncrement, ok_bind, assertThat_ok (Nat.succ_pos t.nhards), hLast]
  split_ifs
  · exact ⟨_, rfl, restarted_initSoft hRepeating⟩
  · exact ⟨_, rfl, restarted_stop hRepeating⟩
  · exact ⟨_, rfl, restarted_waiting hWaitRepeating rfl hAux⟩
  · exact ⟨_, rfl, restarted_initHard hRepeating hCodecs hAux⟩
  · exact ⟨_, rfl, restarted_stop hRepeating⟩
  · exact ⟨_, rfl, restarted_initSoft hNext⟩
  · exact ⟨_, rfl, restarted_waiting hWait rfl hAux⟩
  · exact ⟨_, rfl, restarted_initHard hNext hCodecs hAux⟩

theorem waitingAfterSoft_restarted (h : Sound o (n + 1) t) (hCount : t.nsofts ≤ n)
    (hHint : o.config.cparamsHint = false) (hCodecs : o.codecs ≠ []) (hState : t.state = .waiting)
    (hAux : t.auxIndex = 0)
    (hn : n + 1 < 2 ^ 31) :
    ∃ t', waitingAfterSoft t = .ok t' ∧ Restarted o (n + 1) t' := by
  have hNext : Sound o (n + 1) { t with nsofts := t.nsofts + 1, readaptFrom := .wait } :=
    { h with nsofts := Nat.succ_le_succ hCount }
  have hIncrement := @increment_ok t.nsofts (by omega)
  obtain ⟨last, hLast⟩ : ∃ b, orElse (t.config.behaviour.nsoftsBeforeHard = 0)
      (divides (t.nsofts + 1) t.config.behaviour.nsoftsBeforeHard) = .ok b :=
    orElse_ok fun hSofts => ⟨_, divides_ok hSofts _⟩
  have hLastSoft : andThen (minimumHards { t with nsofts := t.nsofts + 1, readaptFrom := .wait } = 0 ∧
      t.config.behaviour.nhardsBeforeStop = 0)
      (divides (t.nsofts + 1) t.config.behaviour.nsoftsBeforeHard) = .ok false := by
    rw [andThen, if_neg (by simp [minimumHards_eq hNext hHint])]
  simp only [waitingAfterSoft, hIncrement, ok_bind, assertThat_ok (Nat.succ_pos t.nsofts), hLast,
    hLastSoft]
  split_ifs
  · exact ⟨_, rfl, restarted_initHard hNext hCodecs hAux⟩
  · simp_all
  · exact ⟨_, rfl, restarted_initSoft hNext⟩
  · exact ⟨_, rfl, restarted_waiting hNext hState hAux⟩

theorem waitingAfterWait_restarted (h : Sound o n t) (hCodecs : o.codecs ≠ [])
    (hState : t.state = .waiting) (hAux : t.auxIndex = 0) :
    ∃ t', waitingAfterWait t = .ok t' ∧ Restarted o n t' := by
  obtain ⟨lastWait, hLastWait⟩ : ∃ b, orElse (t.config.behaviour.nwaitsBeforeReadapt = 0)
      (andThen (t.nwaitings ≠ 0) (divides t.nwaitings t.config.behaviour.nwaitsBeforeReadapt)) =
      .ok b :=
    orElse_ok fun hWaits => andThen_ok fun _ => ⟨_, divides_ok hWaits _⟩
  obtain ⟨last, hLast⟩ : ∃ b, orElse (t.config.behaviour.nsoftsBeforeHard = 0)
      (andThen (t.nsofts ≠ 0) (divides t.nsofts t.config.behaviour.nsoftsBeforeHard)) = .ok b :=
    orElse_ok fun hSofts => andThen_ok fun _ => ⟨_, divides_ok hSofts _⟩
  simp only [waitingAfterWait, hLastWait, hLast, ok_bind]
  split_ifs
  · exact ⟨_, rfl, restarted_initHard h hCodecs hAux⟩
  · exact ⟨_, rfl, restarted_initSoft h⟩
  · exact ⟨_, rfl, restarted_waiting h hState hAux⟩
  · exact ⟨_, rfl, restarted_waiting h hState hAux⟩

theorem processWaitingState_restarted (h : Sound o (n + 1) t) (hNsofts : t.nsofts ≤ n)
    (hNhards : t.nhards ≤ n) (hHint : o.config.cparamsHint = false)
    (hHards : o.config.behaviour.nhardsBeforeStop ≠ 0) (hCodecs : o.codecs ≠ [])
    (hState : t.state = .waiting) (hAux : t.auxIndex = 0) (hn : n + 1 < 2 ^ 31) :
    ∃ t', processWaitingState t = .ok t' ∧ Restarted o (n + 1) t' := by
  obtain ⟨t₁, hSwitch, h₁⟩ : ∃ t₁, leaveWaiting t = .ok t₁ ∧ Restarted o (n + 1) t₁ := by
    unfold leaveWaiting
    cases t.readaptFrom with
    | hard => exact waitingAfterHard_restarted h hNhards hHards hCodecs hAux hn
    | soft => exact waitingAfterSoft_restarted h hNsofts hHint hCodecs hState hAux hn
    | wait => exact waitingAfterWait_restarted h hCodecs hState hAux
  unfold processWaitingState
  dsimp only
  rw [hSwitch, ok_bind]
  split_ifs
  · exact ⟨_, rfl, h₁.softStep⟩
  · exact ⟨_, rfl, h₁⟩

/-! ## Transitions -/

theorem updateCodecFilter_eq (t : Tuner) : updateCodecFilter t =
    if t.auxIndex / t.filterSplitLimit = t.codecs.length then
      { t with auxIndex := 0, state := .clevel }
    else t := by
  unfold updateCodecFilter
  split <;> rfl

/-- The tuner after a change of the directions. -/
def Tuner.turned (t : Tuner) (clevel block : Bool) : Tuner :=
  { t with best := { t.best with increasingClevel := clevel, increasingBlock := block } }

theorem Sound.turned (h : Sound o n t) (x y : Bool) : Sound o n (t.turned x y) :=
  { h with best := h.best.turn }

theorem updateClevel_cases (ctx : Context) (t : Tuner) (improved : Bool) :
    ∃ x y, updateClevel ctx t improved = t.turned x y ∨
      updateClevel ctx t improved = { t.turned x y with auxIndex := 0, state := .waiting } := by
  obtain ⟨x, hTurn⟩ : ∃ x, (if !improved ∧ t.auxIndex == repeatsPerCparams then t.flipClevel
      else t) = t.turned x t.best.increasingBlock := by
    split
    · exact ⟨_, rfl⟩
    · exact ⟨t.best.increasingClevel, rfl⟩
  have hNext : (if disableBlocksize then afterBlocksize else State.blocksize) = .waiting := rfl
  unfold updateClevel
  dsimp only
  rw [hTurn, hNext]
  split_ifs
  · exact ⟨x, !t.best.increasingBlock, .inr rfl⟩
  · exact ⟨x, t.best.increasingBlock, .inr rfl⟩
  · exact ⟨x, t.best.increasingBlock, .inl rfl⟩

theorem nextState_restarted (h : Sound o n t) (hChosen : Chosen o t) (hCodecs : o.codecs ≠ [])
    (ctx : Context) (improved : Bool) :
    Restarted o n (nextState ctx t improved) ∧
      (nextState ctx t improved).nsofts = t.nsofts ∧
      (nextState ctx t improved).nhards = t.nhards := by
  cases hState : t.state with
  | codecFilter =>
    have hAux : t.auxIndex ≤ 6 * o.codecs.length := by simpa [Chosen, hState] using hChosen
    have hLength := List.length_pos_iff.mpr hCodecs
    simp only [nextState, hState, updateCodecFilter_eq]
    split
    · exact ⟨⟨{ h with auxIndex := Nat.zero_le n }, trivial⟩, rfl, rfl⟩
    · rename_i hGoesOn
      rw [h.filterSplitLimit, h.codecs] at hGoesOn
      refine ⟨⟨h, ?_⟩, rfl, rfl⟩
      simp only [Ready, hState]
      omega
  | clevel =>
    simp only [nextState, hState]
    obtain ⟨x, y, hEq | hEq⟩ := updateClevel_cases ctx t improved
    · rw [hEq]
      exact ⟨⟨h.turned x y, by simp [Ready, Tuner.turned, hState]⟩, rfl, rfl⟩
    · rw [hEq]
      exact ⟨⟨{ h.turned x y with auxIndex := Nat.zero_le n }, rfl⟩, rfl, rfl⟩
  | waiting =>
    have hSame : nextState ctx t improved = t := by simp only [nextState, hState]
    rw [hSame]
    exact ⟨restarted_waiting h hState (by simpa [Chosen, hState] using hChosen), rfl, rfl⟩
  | stop =>
    have hSame : nextState ctx t improved = t := by simp only [nextState, hState]
    rw [hSame]
    exact ⟨⟨h, by simp [Ready, hState]⟩, rfl, rfl⟩
  | shuffleSize | threads | blocksize | memcpy => simp [Chosen, hState] at hChosen

theorem updateAux_restarted (h : Sound o (n + 1) t) (hNsofts : t.nsofts ≤ n)
    (hNhards : t.nhards ≤ n) (hChosen : Chosen o t) (hHint : o.config.cparamsHint = false)
    (hHards : o.config.behaviour.nhardsBeforeStop ≠ 0) (hCodecs : o.codecs ≠ [])
    (hn : n + 1 < 2 ^ 31) (ctx : Context) (improved : Bool) :
    ∃ t', updateAux ctx t improved = .ok t' ∧ Restarted o (n + 1) t' := by
  obtain ⟨hNext, hSofts, hHardsEq⟩ := nextState_restarted h hChosen hCodecs ctx improved
  unfold updateAux
  dsimp only
  split
  · rename_i hWaiting
    exact processWaitingState_restarted hNext.1 (hSofts.trans_le hNsofts)
      (hHardsEq.trans_le hNhards) hHint hHards hCodecs hWaiting
      (by simpa [Ready, hWaiting] using hNext.2) hn
  · exact ⟨_, rfl, hNext⟩

/-! ## Choosing parameters -/

theorem capClevel_le (mode : CompMode) (c : Cparams) : capClevel mode c ≤ c.clevel := by
  unfold capClevel
  dsimp only
  split_ifs <;> omega

theorem capClevel_pos (mode : CompMode) (h : 1 ≤ c.clevel) : 1 ≤ capClevel mode c := by
  unfold capClevel
  dsimp only
  split_ifs <;> omega

theorem codecAt_ok {codecs : List Compcode} {i : Nat} (h : i < codecs.length) :
    codecAt codecs i = .ok codecs[i] := by
  simp [codecAt, List.getElem?_eq_getElem h]

theorem nextCodecFilter_ok (h : Sound o n t) (hAux : t.auxIndex < 6 * o.codecs.length) :
    ∃ c, nextCodecFilter t t.best = .ok c ∧ Legal o c := by
  have hIndex : t.auxIndex / 6 < o.codecs.length := by omega
  have hSplit : t.auxIndex % 6 / 3 + 1 = bloscAlwaysSplit ∨
      t.auxIndex % 6 / 3 + 1 = bloscNeverSplit := by
    simp only [bloscAlwaysSplit, bloscNeverSplit]
    omega
  simp only [nextCodecFilter, h.filterSplitLimit, h.codecs, codecAt_ok hIndex, ok_bind,
    repeatsPerCparams, Nat.div_one]
  refine ⟨_, rfl, { h.best with
    compcode := List.getElem_mem hIndex
    filter := by
      dsimp only
      omega
    splitmode := by
      dsimp only
      split
      · exact .inl rfl
      · exact hSplit
    clevel_pos := by
      have := h.best.clevel_pos
      dsimp only
      split <;> omega
    clevel_le := by
      have := h.best.clevel_le
      dsimp only [maxClevel] at *
      split <;> omega }⟩

theorem nextClevel_legal (h : Sound o n t) : Legal o (nextClevel t t.best) := by
  have hPos := h.best.clevel_pos
  have hLe : t.best.clevel ≤ 9 := h.best.clevel_le
  have hStep : t.stepSize = 1 ∨ t.stepSize = 2 := h.stepSize
  have hRange : 1 ≤ (nextClevel t t.best).clevel ∧ (nextClevel t t.best).clevel ≤ 9 := by
    dsimp only [nextClevel, maxClevel]
    constructor <;> grind
  have hBlocksize : (nextClevel t t.best).blocksize = 0 ∨
      (nextClevel t t.best).blocksize = o.cctx.blocksize := by
    dsimp only [nextClevel]
    split
    · exact .inl rfl
    · exact h.best.blocksize
  exact { h.best with blocksize := hBlocksize, clevel_pos := hRange.1, clevel_le := hRange.2 }

theorem setBtuneCparams_state (s : System) (c : Cparams) :
    (setBtuneCparams s c).btune.state = s.btune.state := by
  unfold setBtuneCparams
  cases s.btune.dctx <;> rfl

/-- What holds between the choice of parameters and their judgement. -/
structure Prepared (o : Origin) (n : Nat) (s : System) : Prop where
  context : LegalContext o s.cctx
  sourcesize : 0 < s.cctx.sourcesize
  sound : Sound o (n + 1) s.btune
  chosen : Chosen o s.btune
  stepsCount : s.btune.stepsCount ≤ n
  nsofts : s.btune.nsofts ≤ n
  nhards : s.btune.nhards ≤ n

theorem setBtuneCparams_prepared {ctx : Context} (h : Sound o (n + 1) t) (hChosen : Chosen o t)
    (hSteps : t.stepsCount ≤ n) (hNsofts : t.nsofts ≤ n) (hNhards : t.nhards ≤ n)
    (hBlocksize : ctx.blocksize = o.cctx.blocksize) (hNthreads : ctx.nthreads = o.cctx.nthreads)
    (hSource : 0 < ctx.sourcesize) (hc : Legal o c) :
    Prepared o n (setBtuneCparams ⟨ctx, t⟩ c) := by
  have hBlock : (setBtuneCparams ⟨ctx, t⟩ c).cctx.blocksize = o.cctx.blocksize := by
    dsimp only [setBtuneCparams, iabtuneNextBlocksize]
    split
    · exact hc.blocksize.resolve_left ‹_›
    · exact hBlocksize
  have hLegal : Legal o (setBtuneCparams ⟨ctx, t⟩ c).btune.auxCparams :=
    { hc with
      clevel_pos := capClevel_pos _ hc.clevel_pos
      clevel_le := (capClevel_le _ c).trans hc.clevel_le
      blocksize := .inr hBlock }
  have hNew : Int16.ofInt c.nthreadsComp = o.cctx.nthreads := by
    rw [hc.nthreadsComp, Int16.ofInt_toInt]
  have hContext : LegalContext o (setBtuneCparams ⟨ctx, t⟩ c).cctx :=
    ⟨hc.compcode, hc.filter, hc.splitmode, hc.clevel_pos, hc.clevel_le, hBlock, hc.shufflesize,
      hNthreads, hNew⟩
  have hDecomp := hc.nthreadsDecomp
  cases hDctx : t.dctx with
  | none =>
    have hEq : (setBtuneCparams ⟨ctx, t⟩ c).btune = { t with
        nthreadsDecomp := c.nthreadsDecomp
        auxCparams := (setBtuneCparams ⟨ctx, t⟩ c).btune.auxCparams } := by
      simp only [setBtuneCparams, hDctx]
    refine ⟨hContext, hSource, ?_, ?_, ?_, ?_, ?_⟩ <;> rw [hEq]
    · exact { h with auxCparams := hLegal, nthreadsDecomp := hDecomp }
    · exact hChosen
    · exact hSteps
    · exact hNsofts
    · exact hNhards
  | some d =>
    obtain ⟨d₀, hOrigin, hd⟩ : ∃ d₀, o.dctx = some d₀ ∧
        { d with newNthreads := d₀.nthreads } = { d₀ with newNthreads := d₀.nthreads } := by
      rcases h.dctx with hd | hd
      · exact ⟨d, by rw [← hd, hDctx], rfl⟩
      · cases hOrigin : o.dctx with
        | none => simp [hDctx, hOrigin] at hd
        | some d₀ =>
          simp only [hDctx, hOrigin, Option.map_some, Option.some.injEq] at hd
          exact ⟨d₀, rfl, by rw [hd]⟩
    have hNewDecomp : Int16.ofInt c.nthreadsDecomp = d₀.nthreads := by
      rw [hDecomp, hOrigin]
      exact Int16.ofInt_toInt _
    have hEq : (setBtuneCparams ⟨ctx, t⟩ c).btune = { t with
        dctx := some { d₀ with newNthreads := d₀.nthreads }
        auxCparams := (setBtuneCparams ⟨ctx, t⟩ c).btune.auxCparams } := by
      simp only [setBtuneCparams, hDctx, hNewDecomp, hd]
    refine ⟨hContext, hSource, ?_, ?_, ?_, ?_, ?_⟩ <;> rw [hEq]
    · exact { h with auxCparams := hLegal, dctx := .inr (by rw [hOrigin]; rfl) }
    · exact hChosen
    · exact hSteps
    · exact hNsofts
    · exact hNhards

end

end IronArray.Btune
