import IronArray.Btune.Schedule

/-!
# Runs that stop

`Underway` carries a run from its initialisation to the stop: one chunk completes at most one
readapt, the first of those that are left. Whole runs follow by induction on the chunks.
-/

namespace IronArray.Btune

/-! ## One chunk -/

section

variable {s : System}

theorem iabtuneNextCparams_succeeds (hState : s.btune.state.Used)
    (hFilter : s.btune.filterSplitLimit = 6)
    (hIndex : s.btune.state = .codecFilter → s.btune.auxIndex < 6 * s.btune.codecs.length)
    (hAux : s.btune.auxIndex + 1 < 2 ^ 31) (hWaitings : s.btune.nwaitings + 1 < 2 ^ 31) :
    ∃ s', iabtuneNextCparams s = .ok s' := by
  unfold iabtuneNextCparams
  cases h : s.btune.state with
  | codecFilter =>
    have hCodec : s.btune.auxIndex / 6 < s.btune.codecs.length := by
      have := hIndex h
      omega
    simp only [nextCodecFilter, hFilter, codecAt_ok hCodec, increment_ok hAux, ok_bind, h]
    exact ⟨_, rfl⟩
  | clevel =>
    simp only [h, increment_ok hAux, ok_bind]
    exact ⟨_, rfl⟩
  | waiting =>
    simp only [h, increment_ok hWaitings, ok_bind]
    exact ⟨_, rfl⟩
  | stop =>
    simp only [h]
    exact ⟨_, rfl⟩
  | shuffleSize | threads | blocksize | memcpy => simp [h, State.Used] at hState

theorem iabtuneUpdate_succeeds (B : Blosc) (hs : Steady s.btune)
    (hState : s.btune.state ≠ .stop) (hSteps : s.btune.stepsCount + 1 < 2 ^ 31)
    (hBandwidth : s.btune.config.bandwidth ≠ 0) (hDest : 0 < s.cctx.destsize) {ctime : ℚ}
    (hTime : 0 < ctime)
    (hAux : ∀ score cratio improved,
      ∃ t', updateAux s.cctx (s.btune.judged score cratio ctime improved) improved = .ok t') :
    ∃ s', iabtuneUpdate B s ctime = .ok s' := by
  obtain ⟨score, hScore, hScorePos⟩ := scoreFunction_ok hBandwidth hTime hDest
  have hDestNe : (s.cctx.destsize : ℚ) ≠ 0 := by exact_mod_cast hDest.ne'
  have hRep : increment s.btune.repIndex = .ok 1 := by
    rw [hs.repIndex]
    rfl
  have hStore : ∀ {xs : List ℚ}, xs.length = repeatsPerCparams → ∀ x,
      store xs s.btune.repIndex x = .ok (xs.set 0 x) := by
    intro xs hxs x
    rw [hs.repIndex, store, if_pos (by rw [hxs]; decide)]
  obtain ⟨improved, hImproved⟩ := @improvedBy_ok ⟨s.cctx, { s.btune with
      stepsCount := s.btune.stepsCount + 1
      auxCparams := s.btune.auxCparams.measured score (s.cctx.sourcesize / s.cctx.destsize) ctime 0
      currentScores := s.btune.currentScores.set 0 score
      currentCratios := s.btune.currentCratios.set 0 (s.cctx.sourcesize / s.cctx.destsize)
      repIndex := 1 }⟩ B hs.cratio score hScorePos (s.cctx.sourcesize / s.cctx.destsize) ctime 0
  obtain ⟨t', ht'⟩ := hAux score (s.cctx.sourcesize / s.cctx.destsize) improved
  unfold iabtuneUpdate
  simp only [hState, if_false, increment_ok hSteps, hScore, assertThat_ok hScorePos,
    divide_ok hDestNe, hStore hs.currentScores, hStore hs.currentCratios, hRep, ok_bind,
    repeatsPerCparams, if_true, mean_set hs.currentScores, mean_set hs.currentCratios, hImproved]
  have hRest : (updateAux s.cctx (s.btune.judged score (s.cctx.sourcesize / s.cctx.destsize) ctime
      improved) improved >>= fun t => Except.ok { s with btune := t }) =
      .ok { s with btune := t' } := by
    rw [ht', ok_bind]
  cases improved with
  | true => exact ⟨_, hRest⟩
  | false => exact ⟨_, hRest⟩

/-! ## The invariant of a run -/

/-- What a run keeps after at most `n` chunks that were not the tuner's last. -/
structure Underway (n : Nat) (t : Tuner) (todo : List ReadaptType) : Prop where
  steady : Steady t
  filterSplitLimit : t.filterSplitLimit = 6
  codecs : t.codecs ≠ []
  repeatMode : t.config.behaviour.repeatMode = .stop
  bandwidth : t.config.bandwidth ≠ 0
  stepsCount : t.stepsCount ≤ n
  auxIndex : t.auxIndex ≤ n
  nwaitings : t.nwaitings ≤ n
  nsofts : t.nsofts ≤ n
  nhards : t.nhards ≤ n
  stage : Stage t todo

theorem Stage.codecFilter {t : Tuner} {todo : List ReadaptType} (h : Stage t todo)
    (hState : t.state = .codecFilter) : t.auxIndex < 6 * t.codecs.length := by
  cases h with
  | hard k _ hIndex =>
    rcases hIndex with ⟨_, hIndex⟩ | hLevel
    · exact hIndex
    · simp [hState] at hLevel
  | soft j k _ hOther | wait j k _ hOther | lone j _ hOther | ended hOther =>
    simp [hState] at hOther

theorem counted_eq (t : Tuner) :
    ∃ a w, t.counted = { t with auxIndex := a, nwaitings := w } := by
  unfold Tuner.counted
  split
  · exact ⟨t.auxIndex, t.nwaitings + 1, rfl⟩
  · exact ⟨t.auxIndex, t.nwaitings, rfl⟩
  · exact ⟨t.auxIndex + 1, t.nwaitings, rfl⟩

/-- A chunk before the stop. -/
theorem compressChunk_underway (B : Blosc) {n : Nat} {todo : List ReadaptType}
    (h : Underway n s.btune todo) (hState : s.btune.state ≠ .stop) (hn : n + 1 < 2 ^ 31)
    {m : Measure} (hm : m.Positive) :
    ∃ s' todo' improved, compressChunk B s m = .ok s' ∧ verdict B s m = .ok improved ∧
      Underway (n + 1) s'.btune todo' ∧ completed s.btune s'.btune ++ todo' = todo ∧
      callsLeft s'.btune todo'.length + (if improved then 0 else 1) ≤
        callsLeft s.btune todo.length := by
  have hAux := h.auxIndex
  have hWaitings := h.nwaitings
  have hHards := h.nhards
  have hSofts := h.nsofts
  have hSteps := h.stepsCount
  obtain ⟨s₁, hNext⟩ := iabtuneNextCparams_succeeds
    (s := { s with cctx := { s.cctx with sourcesize := m.sourcesize } }) h.steady.state
    h.filterSplitLimit h.stage.codecFilter (by dsimp only; omega) (by dsimp only; omega)
  obtain ⟨aux, dctx, nthreads, hTuner, hSource⟩ := iabtuneNextCparams_eq_ok hNext
  obtain ⟨hKeeps, hSame⟩ := iabtuneNextCparams_keeps hNext
  dsimp only at hKeeps hSame
  have hSteady : Steady s₁.btune := hKeeps.steady h.steady (hSame ▸ h.steady.state)
  have hCounted : ∀ score cratio improved,
      Counted s.btune (s₁.btune.judged score cratio m.ctime improved) := by
    intro score cratio improved
    obtain ⟨a, w, hEq⟩ := counted_eq s.btune
    refine ⟨hKeeps.config, hKeeps.codecs, hKeeps.filterSplitLimit.trans h.filterSplitLimit, hSame,
      ?_, ?_, ?_, ?_, ?_, ?_⟩
    all_goals
      simp only [Tuner.judged]
      rw [hTuner]
    all_goals rw [hEq]
  have hMoves : ∀ score cratio improved, ∃ t',
      updateAux { s₁.cctx with destsize := m.destsize }
        (s₁.btune.judged score cratio m.ctime improved) improved = .ok t' ∧
      Moved s.btune t' todo improved := fun score cratio improved =>
    updateAux_moved h.codecs h.repeatMode (by omega) (by omega) h.stage hState
      (hCounted score cratio improved) _ improved
  obtain ⟨s', hUpdate⟩ := iabtuneUpdate_succeeds
    (s := ⟨{ s₁.cctx with destsize := m.destsize }, s₁.btune⟩) B hSteady (hSame ▸ hState)
    (by rw [hKeeps.stepsCount]; omega) (by rw [hKeeps.config]; exact h.bandwidth) hm.destsize
    hm.ctime fun score cratio improved =>
      (hMoves score cratio improved).imp fun _ hMove => hMove.1
  have hChunk : compressChunk B s m = .ok s' := by
    rw [compressChunk, hNext, ok_bind]
    exact hUpdate
  obtain ⟨score, cratio, improved, _, _, hJudge, _, hAfter, _⟩ := iabtuneUpdate_eq_ok
    (s := ⟨{ s₁.cctx with destsize := m.destsize }, s₁.btune⟩) hSteady.regular (hSame ▸ hState) hUpdate
  obtain ⟨t', ht', hAdvanced, todo', hLog, hStage, hCalls⟩ := hMoves score cratio improved
  obtain rfl : t' = s'.btune := Except.ok.inj (ht'.symm.trans hAfter)
  obtain ⟨hMoved, _⟩ := updateAux_keeps (t := s₁.btune.judged score cratio m.ctime improved)
    hSteady.state hAfter
  have hConfig : s'.btune.config = s.btune.config := hMoved.config.trans hKeeps.config
  have hCodecs : s'.btune.codecs = s.btune.codecs := hMoved.codecs.trans hKeeps.codecs
  refine ⟨s', todo', improved, hChunk, ?_, ?_, hLog, hCalls⟩
  · rw [verdict, hNext, ok_bind]
    exact hJudge
  · exact
      { steady := (compressChunk_potential h.steady hm hChunk).1
        filterSplitLimit := (hMoved.filterSplitLimit.trans hKeeps.filterSplitLimit).trans
          h.filterSplitLimit
        codecs := hCodecs ▸ h.codecs
        repeatMode := hConfig ▸ h.repeatMode
        bandwidth := hConfig ▸ h.bandwidth
        stepsCount := by
          rw [hMoved.stepsCount]
          change s₁.btune.stepsCount + 1 ≤ n + 1
          rw [hKeeps.stepsCount]
          omega
        auxIndex := hAdvanced.auxIndex.trans (Nat.succ_le_succ hAux)
        nwaitings := hAdvanced.nwaitings.trans (Nat.succ_le_succ hWaitings)
        nsofts := hAdvanced.nsofts.trans (Nat.succ_le_succ hSofts)
        nhards := hAdvanced.nhards.trans (Nat.succ_le_succ hHards)
        stage := hStage }

/-! ## After the stop -/

/-- The parameters that the contexts are given are the best ones. -/
structure Proposed (s : System) : Prop where
  compcode : s.cctx.compcode = s.btune.best.compcode
  filter : s.cctx.filter = s.btune.best.filter
  splitmode : s.cctx.splitmode = s.btune.best.splitmode
  clevel : s.cctx.clevel = s.btune.best.clevel
  blocksize : s.btune.best.blocksize ≠ 0 → s.cctx.blocksize = s.btune.best.blocksize
  typesize : s.cctx.typesize = s.btune.best.shufflesize
  newNthreads : s.cctx.newNthreads = Int16.ofInt s.btune.best.nthreadsComp
  nthreadsDecomp : match s.btune.dctx with
    | some dctx => dctx.newNthreads = Int16.ofInt s.btune.best.nthreadsDecomp
    | none => s.btune.nthreadsDecomp = s.btune.best.nthreadsDecomp

theorem setBtuneCparams_proposed (s : System) :
    Proposed (setBtuneCparams s s.btune.best) ∧
      (setBtuneCparams s s.btune.best).btune.best = s.btune.best ∧
      (setBtuneCparams s s.btune.best).btune.nhards = s.btune.nhards ∧
      (setBtuneCparams s s.btune.best).btune.nsofts = s.btune.nsofts := by
  cases hDctx : s.btune.dctx with
  | none =>
    rw [setBtuneCparams, hDctx]
    exact ⟨⟨rfl, rfl, rfl, rfl, fun hBlock => if_pos hBlock, rfl, rfl, by simp only [hDctx]⟩,
      rfl, rfl, rfl⟩
  | some dctx =>
    rw [setBtuneCparams, hDctx]
    exact ⟨⟨rfl, rfl, rfl, rfl, fun hBlock => if_pos hBlock, rfl, rfl, rfl⟩, rfl, rfl, rfl⟩

/-- A chunk after the stop. -/
theorem compressChunk_stop (B : Blosc) (hState : s.btune.state = .stop) (m : Measure) :
    ∃ s', compressChunk B s m = .ok s' ∧ s'.btune.state = .stop ∧
      s'.btune.best = s.btune.best ∧ s'.btune.nhards = s.btune.nhards ∧
      s'.btune.nsofts = s.btune.nsofts ∧ Proposed s' := by
  obtain ⟨s₁, hs₁⟩ : ∃ s₁, setBtuneCparams
      { s with cctx := { s.cctx with sourcesize := m.sourcesize } } s.btune.best = s₁ := ⟨_, rfl⟩
  have hNext : iabtuneNextCparams { s with cctx := { s.cctx with sourcesize := m.sourcesize } } =
      .ok s₁ := by
    unfold iabtuneNextCparams
    simp only [hState]
    exact congrArg Except.ok hs₁
  have hState₁ : s₁.btune.state = .stop := by
    rw [← hs₁]
    exact (setBtuneCparams_state _ _).trans hState
  obtain ⟨hProposed, hBest, hHards, hSofts⟩ := setBtuneCparams_proposed
    { s with cctx := { s.cctx with sourcesize := m.sourcesize } }
  dsimp only at hProposed hBest hHards hSofts
  rw [hs₁] at hProposed hBest hHards hSofts
  refine ⟨{ s₁ with cctx := { s₁.cctx with destsize := m.destsize } }, ?_, hState₁, hBest, hHards,
    hSofts, { hProposed with }⟩
  rw [compressChunk, hNext, ok_bind, iabtuneUpdate, if_pos hState₁]
  rfl

/-- After the stop every chunk is compressed with the best parameters, and they stay. -/
theorem compressChunks_stop (B : Blosc) (hState : s.btune.state = .stop) (ms : List Measure) :
    ∃ s', ms.foldlM (compressChunk B) s = .ok s' ∧ s'.btune.state = .stop ∧
      s'.btune.best = s.btune.best ∧ (ms ≠ [] → Proposed s') := by
  induction ms generalizing s with
  | nil => exact ⟨s, rfl, hState, rfl, fun h => absurd rfl h⟩
  | cons m ms ih =>
    obtain ⟨s₁, hChunk, hState₁, hBest₁, _, _, hProposed₁⟩ := compressChunk_stop B hState m
    obtain ⟨s', hRest, hState', hBest', hProposed'⟩ := ih hState₁
    refine ⟨s', ?_, hState', hBest'.trans hBest₁, fun _ => ?_⟩
    · rw [List.foldlM_cons, hChunk, ok_bind, hRest]
    · cases ms with
      | nil =>
        cases hRest
        exact hProposed₁
      | cons => exact hProposed' (List.cons_ne_nil _ _)

/-! ## Runs -/

/-- The readapts that a run completes, in order. -/
def readapts (B : Blosc) : System → List Measure → Tuned (List ReadaptType)
  | _, [] => pure []
  | s, m :: ms => do
    let s' ← compressChunk B s m
    let log ← readapts B s' ms
    pure (completed s.btune s'.btune ++ log)

/-- No chunk replaces the best parameters. -/
def Settled (B : Blosc) : System → List Measure → Prop
  | _, [] => True
  | s, m :: ms => verdict B s m = .ok false ∧ ∀ s', compressChunk B s m = .ok s' → Settled B s' ms

instance Settled.decidable (B : Blosc) : ∀ (s : System) (ms : List Measure),
    Decidable (Settled B s ms)
  | _, [] => .isTrue trivial
  | s, m :: ms =>
    match h : compressChunk B s m with
    | .error e => decidable_of_iff (verdict B s m = .ok false) (by simp [Settled, h])
    | .ok s' =>
      have := Settled.decidable B s' ms
      decidable_of_iff (verdict B s m = .ok false ∧ Settled B s' ms) (by simp [Settled, h])

/-- The part of a run that is left when the tuner has stopped. -/
theorem readapts_stop (B : Blosc) (hState : s.btune.state = .stop) (ms : List Measure) :
    readapts B s ms = .ok [] := by
  induction ms generalizing s with
  | nil => rfl
  | cons m ms ih =>
    obtain ⟨s₁, hChunk, hState₁, _, hHards, hSofts, _⟩ := compressChunk_stop B hState m
    rw [readapts, hChunk, ok_bind, ih hState₁, ok_bind]
    exact congrArg Except.ok (completed_nil hHards hSofts [])

theorem Stage.nil_iff {t : Tuner} {todo : List ReadaptType} (h : Stage t todo) :
    todo = [] ↔ t.state = .stop := by
  cases h with
  | hard k _ hState =>
    rcases hState with ⟨hState, _⟩ | hState
    · simp [rest, hState]
    · simp [rest, hState]
  | soft j k _ hState | wait j k _ hState | lone j _ hState => simp [rest, hState]
  | ended hState => simp [hState]

theorem Stage.callsLeft_pos {t : Tuner} {todo : List ReadaptType} (h : Stage t todo)
    (hState : t.state ≠ .stop) : 0 < callsLeft t todo.length := by
  cases h with
  | hard k _ hOther =>
    rcases hOther with ⟨hOther, _⟩ | hOther
    · simp only [callsLeft, hOther]
      omega
    · simp only [callsLeft, hOther]
      split <;> omega
  | soft j k _ hOther | lone j _ hOther =>
    simp only [callsLeft, hOther]
    split <;> omega
  | wait j k _ hOther _ hWaits =>
    have hMod := Nat.mod_lt t.nwaitings hWaits
    simp only [callsLeft, hOther]
    omega
  | ended hStop => exact absurd hStop hState

theorem compressChunks_underway (B : Blosc) {n : Nat} {todo : List ReadaptType}
    (h : Underway n s.btune todo) {ms : List Measure} (hms : ∀ m ∈ ms, m.Positive)
    (hn : n + ms.length < 2 ^ 31) :
    ∃ s' log todo', ms.foldlM (compressChunk B) s = .ok s' ∧ readapts B s ms = .ok log ∧
      log ++ todo' = todo ∧ Stage s'.btune todo' ∧
      (s'.btune.state ≠ .stop → Underway (n + ms.length) s'.btune todo' ∧
        callsLeft s'.btune todo'.length ≤ callsLeft s.btune todo.length ∧
        (Settled B s ms →
          callsLeft s'.btune todo'.length + ms.length ≤ callsLeft s.btune todo.length)) := by
  induction ms generalizing n s todo with
  | nil => exact ⟨s, [], todo, rfl, rfl, rfl, h.stage, fun _ => ⟨h, le_rfl, fun _ => le_rfl⟩⟩
  | cons m ms ih =>
    rw [List.length_cons] at hn
    by_cases hState : s.btune.state = .stop
    · obtain rfl := h.stage.nil_iff.mpr hState
      obtain ⟨s', hChunks, hState', _⟩ := compressChunks_stop B hState (m :: ms)
      exact ⟨s', [], [], hChunks, readapts_stop B hState (m :: ms), rfl, .ended hState',
        fun hOther => absurd hState' hOther⟩
    obtain ⟨s₁, todo₁, improved, hChunk, hVerdict, h₁, hLog₁, hCalls₁⟩ :=
      compressChunk_underway B h hState (by omega) (hms m List.mem_cons_self)
    obtain ⟨s', log, todo', hRest, hLog, hTodo, hStage, hGoesOn⟩ :=
      ih h₁ (fun x hx => hms x (List.mem_cons_of_mem _ hx)) (by omega)
    refine ⟨s', completed s.btune s₁.btune ++ log, todo', ?_, ?_, ?_, hStage, ?_⟩
    · rw [List.foldlM_cons, hChunk, ok_bind, hRest]
    · rw [readapts, hChunk, ok_bind, hLog, ok_bind]
      rfl
    · rw [List.append_assoc, hTodo, hLog₁]
    · intro hState'
      obtain ⟨hUnderway, hCalls, hSettled⟩ := hGoesOn hState'
      refine ⟨?_, ?_, ?_⟩
      · rw [List.length_cons, Nat.add_comm ms.length, ← Nat.add_assoc]
        exact hUnderway
      · exact hCalls.trans ((Nat.le_add_right _ _).trans hCalls₁)
      · rintro ⟨hFirst, hRestSettled⟩
        have hSettled := hSettled (hRestSettled s₁ hChunk)
        obtain rfl : improved = false := Except.ok.inj (hVerdict.symm.trans hFirst)
        rw [List.length_cons]
        simp only [Bool.false_eq_true, if_false] at hCalls₁
        omega

/-! ## The start -/

/-- A bound on the calls that replace nothing before the stop. -/
def callsToStop (B : Blosc) (config : Config) : Nat :=
  (schedule config).length *
    (readaptCalls ((btuneGetCodecs B config).length + 1) + config.waits) + config.waits

theorem Entered.callsLeft_le_of_codecs {t : Tuner} {todo : List ReadaptType} (h : Entered t todo)
    {n w : Nat} (hCodecs : t.codecs.length ≤ n) (hWaits : t.config.waits = w) :
    callsLeft t todo.length ≤ todo.length * (readaptCalls n + w) + w := by
  refine h.callsLeft_le.trans ?_
  rw [hWaits]
  apply Nat.add_le_add_right
  apply Nat.mul_le_mul_left
  simp only [readaptCalls]
  omega

/-- A tuner that has not compressed a chunk. -/
structure Initial (t : Tuner) : Prop where
  filterSplitLimit : t.filterSplitLimit = 6
  codecs : t.codecs ≠ []
  repeatMode : t.config.behaviour.repeatMode = .stop
  bandwidth : t.config.bandwidth ≠ 0
  stepsCount : t.stepsCount = 0
  auxIndex : t.auxIndex = 0
  nwaitings : t.nwaitings = 0
  nsofts : t.nsofts = 0
  nhards : t.nhards = 0

theorem Initial.keeps {t t' : Tuner} (h : Initial t) (hKeeps : Keeps t t')
    (hCounts : SameCounts t t') : Initial t' where
  filterSplitLimit := hKeeps.filterSplitLimit.trans h.filterSplitLimit
  codecs := hKeeps.codecs ▸ h.codecs
  repeatMode := hKeeps.config ▸ h.repeatMode
  bandwidth := hKeeps.config ▸ h.bandwidth
  stepsCount := hKeeps.stepsCount.trans h.stepsCount
  auxIndex := hCounts.auxIndex.trans h.auxIndex
  nwaitings := hCounts.nwaitings.trans h.nwaitings
  nsofts := hCounts.nsofts.trans h.nsofts
  nhards := hCounts.nhards.trans h.nhards

theorem Initial.underway {t : Tuner} {todo : List ReadaptType} (h : Initial t) (hSteady : Steady t)
    (hStage : Stage t todo) : Underway 0 t todo :=
  ⟨hSteady, h.filterSplitLimit, h.codecs, h.repeatMode, h.bandwidth, h.stepsCount.le,
    h.auxIndex.le, h.nwaitings.le, h.nsofts.le, h.nhards.le, hStage⟩

/-- A run that can stop: the soft readapts of a tuner without hard ones are not cut off by waits,
and the hard readapts fit their counter. -/
structure Config.Stops (config : Config) : Prop where
  repeatMode : config.behaviour.repeatMode = .stop
  bandwidth : config.bandwidth ≠ 0
  lone : config.cparamsHint = true → config.hards = 0 → config.softs = 0 ∨ config.waits = 0
  hards : config.cparamsHint = false → config.hards < 2 ^ 32 - 1

theorem initSoft_repeating (t : Tuner) :
    { initSoft t with isRepeating := true } = initSoft { t with isRepeating := true } := by
  have hSame : hasEndedClevel { t with isRepeating := true } = hasEndedClevel t := rfl
  unfold initSoft
  rw [hSame]
  split <;> rfl

/-- The start without hard readapts. -/
theorem initWithoutHards_entered {t : Tuner} (h : Initial t)
    (hHint : t.config.cparamsHint = true) (hHards : t.config.hards = 0)
    (hLone : t.config.softs = 0 ∨ t.config.waits = 0) :
    Entered (initWithoutHards t) (List.replicate t.config.softs .soft) := by
  have hMinimum : minimumHards t = 0 := by simp [minimumHards, hHint]
  unfold initWithoutHards
  simp only [h.repeatMode, hMinimum, true_and, softs_pos]
  by_cases hSofts : 0 < t.config.softs
  · obtain ⟨j, hj⟩ : ∃ j, j + 1 = t.config.softs := ⟨t.config.softs - 1, by omega⟩
    have hWaits : t.config.waits = 0 := hLone.resolve_left hSofts.ne'
    have hFirst : t.nsofts + (j + 1) = t.config.softs := by rw [h.nsofts, Nat.zero_add, hj]
    rw [if_pos hSofts, initSoft_repeating, ← hj, List.replicate_succ]
    exact entered_initSoft_lone h.auxIndex hHint hWaits hHards hFirst rfl
  · rw [if_neg hSofts, Nat.eq_zero_of_not_pos hSofts]
    exact entered_stop rfl h.auxIndex

/-- The first stage of a tuner that starts with the parameters of the context. -/
def startHinted (t : Tuner) : Tuner :=
  if 0 < t.config.behaviour.nhardsBeforeStop then
    if 0 < t.config.behaviour.nsoftsBeforeHard then initSoft t
    else if 0 < t.config.behaviour.nwaitsBeforeReadapt then
      { t with state := .waiting, readaptFrom := .wait }
    else initHard t
  else initWithoutHards t

theorem startHinted_keeps (t : Tuner) : Keeps t (startHinted t) := by
  unfold startHinted
  split_ifs
  · exact initSoft_keeps t
  · exact ⟨rfl, rfl, rfl, rfl, rfl, rfl, rfl, rfl⟩
  · exact initHard_keeps t
  · exact (initWithoutHards_keeps t).1

theorem startHinted_entered {t : Tuner} (h : Initial t) (hRepeating : t.isRepeating = false)
    (hHint : t.config.cparamsHint = true)
    (hLone : t.config.hards = 0 → t.config.softs = 0 ∨ t.config.waits = 0) :
    Entered (startHinted t) (schedule t.config) := by
  have hMinimum : minimumHards t = 0 := by simp [minimumHards, hHint]
  have hStarted : t.started := by
    rw [Tuner.started, hMinimum]
    exact Nat.zero_le _
  have hWaits : t.config.waits ∣ t.nwaitings := h.nwaitings ▸ dvd_zero _
  rw [schedule, if_pos hHint, startHinted]
  by_cases hHards : t.config.hards = 0
  · rw [if_pos hHards, if_neg (by rw [hards_eq_zero.mpr hHards]; decide)]
    exact initWithoutHards_entered h hHint hHards (hLone hHards)
  obtain ⟨k, hk⟩ : ∃ k, k + 1 = t.config.hards := ⟨t.config.hards - 1, by omega⟩
  have hPos : 0 < t.config.behaviour.nhardsBeforeStop := by
    apply UInt32.lt_iff_toNat_lt.mpr
    exact Nat.pos_of_ne_zero hHards
  have hPlace : ∀ {j : Nat}, t.config.softs ∣ j → Place t j k := fun hj =>
    ⟨by rw [h.nhards, Nat.zero_add, hk], by rwa [h.nsofts, Nat.zero_add], hRepeating⟩
  rw [if_neg hHards, if_pos hPos, ← hk, rounds_succ]
  simp only [softs_pos, waits_pos]
  by_cases hSofts : 0 < t.config.softs
  · obtain ⟨j, hj⟩ : ∃ j, j + 1 = t.config.softs := ⟨t.config.softs - 1, by omega⟩
    have hEntered := entered_initSoft h.auxIndex hWaits (hPlace (dvd_of_eq hj.symm)) hStarted
      (by omega)
    rw [if_pos hSofts]
    rwa [hj] at hEntered
  · have hNone := Nat.eq_zero_of_not_pos hSofts
    rw [if_neg hSofts, hNone]
    by_cases hWait : 0 < t.config.waits
    · have hEntered := @entered_wait { t with state := .waiting, readaptFrom := .wait } 0 k rfl rfl
        h.auxIndex hWait ⟨(hPlace (dvd_zero _)).hards, (hPlace (dvd_zero _)).softs, hRepeating⟩
        hStarted (.inl hNone)
      rw [if_pos hWait]
      rwa [hNone] at hEntered
    · have hEntered := entered_initHard h.codecs h.auxIndex hWaits (hPlace (dvd_zero _))
      rw [if_neg hWait]
      rwa [hNone] at hEntered

theorem startHinted_initial {t : Tuner} (h : Initial t) :
    Initial (startHinted t) := by
  have hSoft : Initial (initSoft t) := h.keeps (initSoft_keeps t) (initSoft_counts t)
  unfold startHinted
  split_ifs
  · exact hSoft
  · exact { h with }
  · exact h.keeps (initHard_keeps t) (initHard_counts t)
  · unfold initWithoutHards
    simp only [h.repeatMode]
    split
    · exact { hSoft with }
    · exact { h with }

/-- The start from a hard readapt, which does not count. -/
theorem counted_entered {t : Tuner} (h : Initial t) (hRepeating : t.isRepeating = false)
    {config : Config} (hHint : config.cparamsHint = false) (hHards : config.hards < 2 ^ 32 - 1) :
    Entered { initHard t with config := config.counted } (schedule config) := by
  have hLength := List.length_pos_iff.mpr h.codecs
  have hCounted : config.counted.hards = config.hards + 1 := by
    change (config.behaviour.nhardsBeforeStop + 1).toNat = config.behaviour.nhardsBeforeStop.toNat + 1
    rw [Config.hards] at hHards
    rw [UInt32.toNat_add, UInt32.toNat_one, Nat.mod_eq_of_lt (by omega)]
  have hIndex : t.auxIndex < 6 * t.codecs.length := by
    rw [h.auxIndex]
    omega
  have hPlace : ∀ {u : Tuner}, u.config = config.counted → u.nhards = t.nhards →
      u.nsofts = t.nsofts → u.isRepeating = t.isRepeating → Place u 0 config.hards := by
    intro u hConfig hNhards hNsofts hSame
    refine ⟨?_, ?_, hSame.trans hRepeating⟩
    · rw [hNhards, h.nhards, hConfig, hCounted, Nat.zero_add]
    · rw [hNsofts, h.nsofts]
      exact dvd_zero _
  obtain ⟨b, hEq⟩ := initHard_eq t
  rw [schedule, if_neg (by simp [hHint]), hEq]
  refine ⟨.hard config.hards rfl (.inl ⟨rfl, hIndex⟩) ?_ (hPlace rfl rfl rfl rfl), h.auxIndex, ?_⟩
  · rw [h.nwaitings]
    exact dvd_zero _
  · simp only [callsLeft, h.auxIndex, readaptCalls, List.length_cons, Nat.add_sub_cancel,
      Nat.succ_mul]
    omega

theorem Initial.stepSize {t : Tuner} (h : Initial t) (n : Nat) : Initial { t with stepSize := n } :=
  { h with }

theorem iabtuneInit_underway (B : Blosc) {config : Config} (h : config.Stops)
    (hCodecs : btuneGetCodecs B config ≠ []) (cctx : Context) (dctx : Option Context) :
    ∃ s, iabtuneInit B (some config) cctx dctx = .ok s ∧
      Underway 0 s.btune (schedule config) ∧
      callsLeft s.btune (schedule config).length ≤ callsToStop B config := by
  have hLength := List.length_pos_iff.mpr hCodecs
  obtain ⟨s, hInit⟩ : ∃ s, iabtuneInit B (some config) cctx dctx = .ok s := by
    rw [iabtuneInit, codecAt_ok hLength]
    exact ⟨_, rfl⟩
  have hSteady := iabtuneInit_steady hInit
  refine ⟨s, hInit, ?_⟩
  rw [iabtuneInit, codecAt_ok hLength, ok_bind] at hInit
  obtain ⟨start, hStart⟩ :
      ∃ c, startCparams config (btuneGetCodecs B config)[0] cctx dctx = c := ⟨_, rfl⟩
  have hInitial : Initial (startTuner config (btuneGetCodecs B config) start cctx dctx) :=
    ⟨rfl, hCodecs, h.repeatMode, h.bandwidth, rfl, rfl, rfl, rfl, rfl⟩
  dsimp only at hInit
  rw [hStart] at hInit
  cases hHint : config.cparamsHint with
  | true =>
    obtain ⟨t, ht⟩ : ∃ t, { startTuner config (btuneGetCodecs B config) start cctx dctx with
        best := extractBtuneCparams cctx
          (startTuner config (btuneGetCodecs B config) start cctx dctx) start
        auxCparams := extractBtuneCparams cctx
          (startTuner config (btuneGetCodecs B config) start cctx dctx) start
        codecs := addCodec (btuneGetCodecs B config) cctx.compcode } = t := ⟨_, rfl⟩
    have hCodec : t.codecs = addCodec (btuneGetCodecs B config) cctx.compcode := by rw [← ht]
    have hConfig : t.config = config := by
      rw [← ht]
      rfl
    have hAdded : addCodec (btuneGetCodecs B config) cctx.compcode ≠ [] ∧
        (addCodec (btuneGetCodecs B config) cctx.compcode).length ≤
          (btuneGetCodecs B config).length + 1 := by
      unfold addCodec
      split
      · exact ⟨hCodecs, Nat.le_succ _⟩
      · simp
    have hTuner : Initial t := by
      rw [← ht]
      exact { hInitial with codecs := hAdded.1 }
    have hEntered := startHinted_entered hTuner (by rw [← ht]; rfl) (by rw [hConfig, hHint])
      (by rw [hConfig]; exact h.lone hHint)
    have hKeeps := startHinted_keeps t
    have hResult : s = ⟨cctx, { startHinted t with
        stepSize := if (startHinted t).config.behaviour.nhardsBeforeStop = 1 then softStepSize
          else hardStepSize }⟩ := by
      rw [if_pos hHint] at hInit
      rw [← ht]
      exact (Except.ok.inj hInit).symm
    rw [hConfig] at hEntered
    rw [hResult] at hSteady ⊢
    refine ⟨((startHinted_initial hTuner).stepSize _).underway hSteady (hEntered.stage.congr
      ⟨rfl, rfl, rfl, rfl, rfl, rfl, rfl, rfl, fun _ => rfl⟩), ?_⟩
    apply hEntered.callsLeft_le_of_codecs
    · rw [hKeeps.codecs, hCodec]
      exact hAdded.2
    · rw [hKeeps.config, hConfig]
  | false =>
    have hEntered := @counted_entered (startTuner config (btuneGetCodecs B config) start cctx dctx)
      hInitial rfl config hHint (h.hards hHint)
    obtain ⟨b, hHard⟩ := initHard_eq (startTuner config (btuneGetCodecs B config) start cctx dctx)
    rw [if_neg (by simp [hHint]), hHard] at hInit
    rw [hHard] at hEntered
    cases hInit
    refine ⟨Initial.underway ⟨rfl, hCodecs, h.repeatMode, h.bandwidth, rfl, rfl, rfl, rfl, rfl⟩
      hSteady (hEntered.stage.congr ⟨rfl, rfl, rfl, rfl, rfl, rfl, rfl, rfl, fun _ => rfl⟩), ?_⟩
    apply hEntered.callsLeft_le_of_codecs
    · exact Nat.le_succ _
    · rfl

end

/-! ## Whole runs -/

/-- The readapts of a run from the initialisation of the tuner. -/
def runReadapts (B : Blosc) (config : Option Config) (cctx : Context) (dctx : Option Context)
    (ms : List Measure) : Tuned (List ReadaptType) := do
  let s ← iabtuneInit B config cctx dctx
  readapts B s ms

/-- A run completes the readapts of its schedule in order. Once it has settled it stops within
`callsToStop` chunks; then the schedule is complete, and the best parameters are used for ever. -/
theorem run_follows_schedule (B : Blosc) {config : Config} (h : config.Stops)
    (hCodecs : btuneGetCodecs B config ≠ []) (cctx : Context) (dctx : Option Context)
    {ms₀ ms₁ : List Measure} (hms : ∀ m ∈ ms₀ ++ ms₁, m.Positive)
    (hLength : (ms₀ ++ ms₁).length < 2 ^ 31) :
    ∃ s₀ s log, run B (some config) cctx dctx ms₀ = .ok s₀ ∧
      ms₁.foldlM (compressChunk B) s₀ = .ok s ∧
      runReadapts B (some config) cctx dctx (ms₀ ++ ms₁) = .ok log ∧
      log <+: schedule config ∧
      (Settled B s₀ ms₁ → callsToStop B config ≤ ms₁.length → s.btune.state = .stop) ∧
      (s.btune.state = .stop → log = schedule config ∧
        ∀ ms : List Measure, ∃ s', ms.foldlM (compressChunk B) s = .ok s' ∧
          s'.btune.state = .stop ∧ s'.btune.best = s.btune.best ∧ (ms ≠ [] → Proposed s')) := by
  obtain ⟨sᵢ, hInit, hStart, hCalls⟩ := iabtuneInit_underway B h hCodecs cctx dctx
  rw [List.length_append] at hLength
  obtain ⟨s₀, log₀, todo₀, hRun₀, hLog₀, hTodo₀, hStage₀, hGoesOn₀⟩ := compressChunks_underway B
    hStart (fun m hm => hms m (List.mem_append_left _ hm)) (by omega)
  obtain ⟨s, log, todo, hRun, hLog, hTodo, hStage, hGoesOn⟩ := compressChunks_underway B
    hStart hms (by rw [List.length_append]; omega)
  have hRest : ms₁.foldlM (compressChunk B) s₀ = .ok s := by
    rw [List.foldlM_append, hRun₀, ok_bind] at hRun
    exact hRun
  refine ⟨s₀, s, log, ?_, hRest, ?_, ⟨todo, hTodo⟩, ?_, fun hStop => ⟨?_, ?_⟩⟩
  · rw [run, hInit, ok_bind, hRun₀]
  · rw [runReadapts, hInit, ok_bind, hLog]
  · intro hSettled hMany
    by_contra hOther
    have hOther₀ : s₀.btune.state ≠ .stop := by
      intro hStop
      obtain ⟨s', hSame, hStop', _⟩ := compressChunks_stop B hStop ms₁
      rw [hRest, Except.ok.injEq] at hSame
      exact hOther (hSame ▸ hStop')
    obtain ⟨h₀, hCalls₀, _⟩ := hGoesOn₀ hOther₀
    obtain ⟨s', log', todo', hRun', _, _, hStage', hGoesOn'⟩ := compressChunks_underway B h₀
      (fun m hm => hms m (List.mem_append_right _ hm)) (by omega)
    rw [hRest, Except.ok.injEq] at hRun'
    subst hRun'
    have hBound := (hGoesOn' hOther).2.2 hSettled
    have hPositive := hStage'.callsLeft_pos hOther
    omega
  · have hNone : todo = [] := hStage.nil_iff.mpr hStop
    rw [← hTodo, hNone, List.append_nil]
  · exact compressChunks_stop B hStop

/-- The best parameters are those of the first chunk, and after 140 chunks like it the tuner has
completed seven readapts and stopped. -/
theorem run_follows_schedule_sample :
    ∃ s₀ s log, run ⟨true, true, 32⟩ (some (sampleConfig 1024)) sampleContext none
        [⟨32768, 8192, 1⟩] = .ok s₀ ∧
      (List.replicate 140 ⟨32768, 8192, 1⟩).foldlM (compressChunk ⟨true, true, 32⟩) s₀ = .ok s ∧
      runReadapts ⟨true, true, 32⟩ (some (sampleConfig 1024)) sampleContext none
        ([⟨32768, 8192, 1⟩] ++ List.replicate 140 ⟨32768, 8192, 1⟩) = .ok log ∧
      s.btune.state = .stop ∧ log = schedule (sampleConfig 1024) ∧
      ∀ ms : List Measure, ∃ s', ms.foldlM (compressChunk ⟨true, true, 32⟩) s = .ok s' ∧
        s'.btune.state = .stop ∧ s'.btune.best = s.btune.best ∧ (ms ≠ [] → Proposed s') := by
  have hStops : (sampleConfig 1024).Stops := ⟨rfl, by decide, nofun, fun _ => by decide⟩
  have hPositive : ∀ m ∈ ([⟨32768, 8192, 1⟩] ++ List.replicate 140 ⟨32768, 8192, 1⟩ : List Measure),
      m.Positive := by
    intro m hm
    obtain rfl : m = ⟨32768, 8192, 1⟩ :=
      (List.mem_append.mp hm).elim List.eq_of_mem_singleton List.eq_of_mem_replicate
    exact ⟨by decide, by decide, by norm_num⟩
  have hLength : ([⟨32768, 8192, 1⟩] ++ List.replicate 140 ⟨32768, 8192, 1⟩ :
      List Measure).length < 2 ^ 31 := by
    rw [List.length_append, List.length_replicate]
    decide
  have hSettled : (match run ⟨true, true, 32⟩ (some (sampleConfig 1024)) sampleContext none
      [⟨32768, 8192, 1⟩] with
    | .ok s₀ => decide (Settled ⟨true, true, 32⟩ s₀ (List.replicate 140 ⟨32768, 8192, 1⟩))
    | .error _ => false) = true := by decide +kernel
  obtain ⟨s₀, s, log, hRun₀, hRun, hLog, -, hStop, hStopped⟩ := run_follows_schedule
    ⟨true, true, 32⟩ hStops (by decide) sampleContext none hPositive hLength
  rw [hRun₀, decide_eq_true_eq] at hSettled
  rw [List.length_replicate] at hStop
  have hState := hStop hSettled (by decide)
  exact ⟨s₀, s, log, hRun₀, hRun, hLog, hState, hStopped hState⟩

/-! ## Configurations that never stop -/

/-- Soft readapts without hard ones, but with waits after each. -/
structure Config.Lingers (config : Config) : Prop where
  hint : config.cparamsHint = true
  repeatMode : config.behaviour.repeatMode = .stop
  hards : config.hards = 0
  softs : 0 < config.softs
  waits : 0 < config.waits

/-- The first soft readapt, or the waits after it. -/
structure Lingering (t : Tuner) : Prop where
  steady : Steady t
  config : t.config.Lingers
  repeating : t.isRepeating = true
  stage : t.state = .clevel ∧ t.readaptFrom = .soft ∨ t.state = .waiting ∧ t.readaptFrom = .wait

theorem waitingAfterSoft_lingers {t t' : Tuner} (h : t.config.Lingers) (hState : t.state = .waiting)
    (hOk : waitingAfterSoft t = .ok t') :
    t'.state = .waiting ∧ t'.readaptFrom = .wait ∧ t'.isRepeating = t.isRepeating := by
  obtain ⟨n, _, hOk⟩ := bind_eq_ok.mp hOk
  obtain ⟨_, _, hOk⟩ := bind_eq_ok.mp hOk
  dsimp only at hOk
  rw [if_neg (by rw [waits_eq_zero]; exact h.waits.ne')] at hOk
  cases hOk
  exact ⟨hState, rfl, rfl⟩

theorem waitingAfterWait_lingers {t t' : Tuner} (h : t.config.Lingers)
    (hRepeating : t.isRepeating = true) (hOk : waitingAfterWait t = .ok t') : t' = t := by
  obtain ⟨lastWait, _, hOk⟩ := bind_eq_ok.mp hOk
  split at hOk
  · obtain ⟨last, _, hOk⟩ := bind_eq_ok.mp hOk
    rw [if_neg (by simp [hRepeating, h.repeatMode]),
      if_neg (by simp [hRepeating, h.repeatMode])] at hOk
    exact (Except.ok.inj hOk).symm
  · exact (Except.ok.inj hOk).symm

theorem processWaitingState_lingers {t t' : Tuner} (h : t.config.Lingers)
    (hRepeating : t.isRepeating = true) (hState : t.state = .waiting)
    (hFrom : t.readaptFrom = .soft ∨ t.readaptFrom = .wait)
    (hOk : processWaitingState t = .ok t') :
    t'.state = .waiting ∧ t'.readaptFrom = .wait ∧ t'.isRepeating = true := by
  obtain ⟨u, hLeave, hOk⟩ := bind_eq_ok.mp hOk
  have hu : u.state = .waiting ∧ u.readaptFrom = .wait ∧ u.isRepeating = true := by
    unfold leaveWaiting at hLeave
    rcases hFrom with hFrom | hFrom
    · simp only [hFrom] at hLeave
      obtain ⟨hWaiting, hWait, hSame⟩ := waitingAfterSoft_lingers h hState hLeave
      exact ⟨hWaiting, hWait, hSame.trans hRepeating⟩
    · simp only [hFrom] at hLeave
      obtain rfl := waitingAfterWait_lingers h hRepeating hLeave
      exact ⟨hState, hFrom, hRepeating⟩
  cases hOk
  split
  · exact hu
  · exact hu

theorem updateAux_lingers {t t' : Tuner} {ctx : Context} {improved : Bool} (h : t.config.Lingers)
    (hRepeating : t.isRepeating = true)
    (hStage : t.state = .clevel ∧ t.readaptFrom = .soft ∨
      t.state = .waiting ∧ t.readaptFrom = .wait)
    (hOk : updateAux ctx t improved = .ok t') :
    t'.isRepeating = true ∧ (t'.state = .clevel ∧ t'.readaptFrom = .soft ∨
      t'.state = .waiting ∧ t'.readaptFrom = .wait) := by
  unfold updateAux at hOk
  rcases hStage with ⟨hState, hFrom⟩ | ⟨hState, hFrom⟩
  · have hNext : nextState ctx t improved = updateClevel ctx t improved := by
      rw [nextState, hState]
    rw [hNext] at hOk
    obtain ⟨x, y, hEq | hEq⟩ := updateClevel_cases ctx t improved
    · have hLevel : (t.turned x y).state = .clevel := hState
      rw [hEq, if_neg (by rw [hLevel]; decide)] at hOk
      cases hOk
      exact ⟨hRepeating, .inl ⟨hLevel, hFrom⟩⟩
    · rw [hEq, if_pos rfl] at hOk
      obtain ⟨hWaiting, hWait, hSame⟩ := processWaitingState_lingers
        (t := { t.turned x y with auxIndex := 0, state := .waiting }) h hRepeating rfl
        (.inl hFrom) hOk
      exact ⟨hSame, .inr ⟨hWaiting, hWait⟩⟩
  · have hNext : nextState ctx t improved = t := by
      rw [nextState, hState]
    rw [hNext, if_pos hState] at hOk
    obtain ⟨hWaiting, hWait, hSame⟩ := processWaitingState_lingers h hRepeating hState (.inr hFrom)
      hOk
    exact ⟨hSame, .inr ⟨hWaiting, hWait⟩⟩

theorem compressChunk_lingers {B : Blosc} {s s' : System} {m : Measure} (h : Lingering s.btune)
    (hm : m.Positive) (hOk : compressChunk B s m = .ok s') : Lingering s'.btune := by
  obtain ⟨hSteady', hConfig', _⟩ := compressChunk_potential h.steady hm hOk
  obtain ⟨s₁, hNext, hUpdate⟩ := bind_eq_ok.mp hOk
  obtain ⟨aux, dctx, nthreads, hTuner, _⟩ := iabtuneNextCparams_eq_ok hNext
  obtain ⟨a, w, hCounted⟩ := counted_eq s.btune
  dsimp only at hTuner
  rw [hCounted] at hTuner
  obtain ⟨hKeeps, hSame⟩ := iabtuneNextCparams_keeps hNext
  have hSteady₁ : Steady s₁.btune := hKeeps.steady h.steady (hSame ▸ h.steady.state)
  have hState₁ : s₁.btune.state ≠ .stop := by
    rw [hTuner]
    rcases h.stage with ⟨hState, _⟩ | ⟨hState, _⟩
    · rw [hState]
      nofun
    · rw [hState]
      nofun
  obtain ⟨score, cratio, improved, _, _, _, _, hAux, _⟩ := iabtuneUpdate_eq_ok
    (s := ⟨{ s₁.cctx with destsize := m.destsize }, s₁.btune⟩) hSteady₁.regular hState₁ hUpdate
  have hMoved := updateAux_lingers (t := s₁.btune.judged score cratio m.ctime improved)
    (by rw [Tuner.judged, hTuner]; exact h.config) (by rw [Tuner.judged, hTuner]; exact h.repeating)
    (by rw [Tuner.judged, hTuner]; exact h.stage) hAux
  exact ⟨hSteady', by rw [hConfig']; exact h.config, hMoved.1, hMoved.2⟩

theorem iabtuneInit_lingers {B : Blosc} {config : Config} (h : config.Lingers) {cctx : Context}
    {dctx : Option Context} {s : System} (hInit : iabtuneInit B (some config) cctx dctx = .ok s) :
    Lingering s.btune := by
  have hSteady := iabtuneInit_steady hInit
  obtain ⟨compcode, _, hInit⟩ := bind_eq_ok.mp hInit
  have hNoHards : ¬ 0 < config.behaviour.nhardsBeforeStop := by
    rw [hards_eq_zero.mpr h.hards]
    decide
  have hStart : ∀ t : Tuner, t.config = config → ∃ b, initWithoutHards t = { t with
      state := .clevel, stepSize := softStepSize, readaptFrom := .soft, isRepeating := true
      best := { t.best with increasingClevel := b } } := by
    intro t hConfig
    have hMinimum : minimumHards t = 0 := by simp [minimumHards, hConfig, h.hint]
    obtain ⟨b, hSoft⟩ := initSoft_eq t
    unfold initWithoutHards
    simp only [hConfig, h.repeatMode, hMinimum, softs_pos.mpr h.softs, and_self, if_true, hSoft]
    exact ⟨b, rfl⟩
  choose increasing hStart using hStart
  dsimp only at hInit
  rw [if_pos h.hint, if_neg hNoHards, hStart _ rfl] at hInit
  cases hInit
  exact ⟨hSteady, h, rfl, .inl ⟨rfl, rfl⟩⟩

theorem compressChunks_lingers {B : Blosc} {s s' : System} (h : Lingering s.btune)
    {ms : List Measure} (hms : ∀ m ∈ ms, m.Positive)
    (hRun : ms.foldlM (compressChunk B) s = .ok s') : Lingering s'.btune := by
  induction ms generalizing s with
  | nil =>
    cases hRun
    exact h
  | cons m ms ih =>
    rw [List.foldlM_cons] at hRun
    obtain ⟨s₁, hChunk, hRun⟩ := bind_eq_ok.mp hRun
    exact ih (compressChunk_lingers h (hms m List.mem_cons_self) hChunk)
      (fun x hx => hms x (List.mem_cons_of_mem _ hx)) hRun

/-- With a hint, no hard readapts, some soft ones and some waits a run never stops. -/
theorem run_lingers {B : Blosc} {config : Config} (h : config.Lingers) {cctx : Context}
    {dctx : Option Context} {ms : List Measure} (hms : ∀ m ∈ ms, m.Positive) {s : System}
    (hRun : run B (some config) cctx dctx ms = .ok s) : s.btune.state ≠ .stop := by
  obtain ⟨s₀, hInit, hRun⟩ := bind_eq_ok.mp hRun
  have hEnd := compressChunks_lingers (iabtuneInit_lingers h hInit) hms hRun
  rcases hEnd.stage with ⟨hState, _⟩ | ⟨hState, _⟩
  · rw [hState]
    nofun
  · rw [hState]
    nofun

/-- One soft readapt and one wait, with the parameters of the context. -/
def lingeringConfig : Config := ⟨1024, .balanced, .balanced, ⟨1, 1, 0, .stop⟩, true⟩

/-- Twenty chunks that replace nothing leave the tuner waiting, and no run of it stops. -/
theorem run_never_stops :
    (run ⟨true, true, 32⟩ (some lingeringConfig) sampleContext none
      (List.replicate 20 ⟨32768, 40, 1⟩)).map (fun s => s.btune.state) = .ok .waiting ∧
    ¬ ∃ ms s, (∀ m ∈ ms, m.Positive) ∧
      run ⟨true, true, 32⟩ (some lingeringConfig) sampleContext none ms = .ok s ∧
        s.btune.state = .stop := by
  refine ⟨by decide +kernel, ?_⟩
  rintro ⟨ms, s, hms, hRun, hStop⟩
  exact run_lingers ⟨rfl, rfl, rfl, by decide, by decide⟩ hms hRun hStop

end IronArray.Btune
