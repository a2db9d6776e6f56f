import IronArray.Core.Logged
import IronArray.Expression.Window

/-!
# Expressions

`iarray_expression.c`: operands are bound to names, the expression is compiled, and a compiled
function computes the output block by block. The method "iterblosc" runs it in a prefilter while
the chunks of the output are compressed, the method "iterchunk" on the blocks of an iterator. The
compiler is a parameter. An evaluation logs what it indexes by the number of an operand and what it
reads of the operands.
-/

namespace IronArray

open Grid

/-! ## Expressions -/

/-- `IARRAY_EXPR_OPERANDS_MAX`. -/
def exprOperandsMax : Nat := 128

/-- `IARRAY_EXPR_USER_PARAMS_MAX`. -/
def exprUserParamsMax : Nat := 128

/-- `iarray_eval_method_t`. -/
inductive EvalMethod
  | auto | iterchunk | iterblosc
deriving DecidableEq

/-- A pointer of the C code: memory that holds elements of a type, and an offset in bytes. -/
structure Pointer where
  dtype : Dtype
  mem : Nat → Cell
  offset : Nat

/-- Element `k` behind a pointer. -/
def Pointer.load (m : Machine) (p : Pointer) (k : Nat) : Cell :=
  loadAt m p.dtype p.mem (p.offset + k * p.dtype.size) p.dtype

/-- `iarray_eval_pparams_t`. -/
structure EvalPparams where
  inputs : List Pointer
  inputTypesizes : List Nat
  outSize : Nat
  outTypesize : Nat
  ndim : Nat
  window : Window
  userParams : List Cell

/-- `iarray_eval_fn`: what it leaves in the output, or the code that it returns. -/
abbrev EvalFn := EvalPparams → (Nat → Cell) → Except Nat (Nat → Cell)

/-- `iarray_expression_t`, with its output properties. The number of operands and the number of
parameters are the lengths of their tables. -/
structure Expression where
  jugDtype : Dtype
  outDtshape : Dtshape
  outStoreProperties : Storage
  evalMethod : EvalMethod
  typesize : Nat
  nbytes : Nat
  vars : List (String × Container)
  userParams : List Cell
  exprFunc : Option EvalFn

/-- The functions of the compiler. -/
structure Jug where
  /-- `jug_expression_compile`: the type, the expression and the names of the operands. -/
  expressionCompile : Dtype → String → List String → Result EvalFn
  /-- `jug_udf_compile`: the type, the bytes of the code and the name of the function. -/
  udfCompile : Dtype → List Nat → String → Result EvalFn

/-- What an evaluation finds beside the contents of the arrays: whether a container is a proxy of a
remote array, whether a chunk of a container lies uncompressed in memory, and what the entries of
fixed-size arrays hold that nobody has set. -/
structure Surroundings where
  zproxy : Container → Bool
  memcpyed : Container → Nat → Bool
  staleShape : Container → Nat → Nat
  staleChunkshape : Nat → Nat

/-! ## Accesses -/

/-- The arrays of fixed size that are indexed by the number of an operand or of a parameter: those
of an expression, of `iarray_expr_pparams_t`, of `iarray_eval_pparams_t`, and `inputs_malloced`. -/
inductive Table
  | vars | userParams
  | exprInputClass | exprInputs | exprInputCsizes | exprInputTypesizes
  | evalInputs | evalInputTypesizes | evalUserParams
  | inputsMalloced
deriving DecidableEq

namespace Table

def size : Table → Nat
  | userParams | evalUserParams => exprUserParamsMax
  | inputsMalloced => dimensionMax
  | _ => exprOperandsMax

end Table

/-- An entry of `inputs` of `iarray_expr_pparams_t` under its class: chunk `nchunk` of the operand,
compressed or as it lies in memory, or a buffer of the evaluation. -/
inductive ExprInput
  | eq (nchunk : Nat)
  | eqNcomp (nchunk : Nat)
  | neq (buffer : Pointer)

/-- `iarray_expr_pparams_t`. -/
structure ExprPparams where
  e : Expression
  out : Container
  inputs : List (Container × ExprInput)
  blockIndex : List Nat

/-- What an evaluation does. -/
inductive Access
  /-- It indexes a table. -/
  | table (t : Table) (i : Nat)
  /-- It reads a region of an operand. -/
  | region (c : Container) (start stop : List Nat)
  /-- It reads bytes of a chunk of an operand. -/
  | chunk (c : Container) (nchunk start nbytes : Nat)
  /-- It reads bytes of a buffer that holds a block of an operand. -/
  | buffer (size nbytes : Nat)

abbrev Eval := Logged Failure Access

def refuse {α : Type} (e : ErrorCode) : Eval α := liftM (inaError e : Result α)

namespace Table

/-- Index a table. -/
def index (t : Table) (i : Nat) : Eval Unit :=
  ⟨[.table t i], if i < t.size then .ok () else crash .outOfBounds⟩

/-- The first `n` entries of a table, one after the other. -/
def each (t : Table) (n : Nat) : Eval Unit := forM (List.range n) t.index

end Table

/-! ## Binding and compiling -/

/-- The type of the compiler for a type of the expression. There is none for unsigned integers. -/
def jugDtype : Dtype → Result Dtype
  | .bool => .ok .int8
  | .uint64 | .uint32 | .uint16 | .uint8 => inaError .invalidArgument
  | d => .ok d

/-- `iarray_expr_new` and `iarray_expr_bind_out_properties`. -/
def iarrayExprNew (method : EvalMethod) (dataType : Dtype) (dtshape : Dtshape) (store : Storage) :
    Result Expression := do
  let dtype ← jugDtype dataType
  pure
    { jugDtype := dtype
      outDtshape := dtshape
      outStoreProperties := store
      evalMethod := method
      typesize := 0
      nbytes := 0
      vars := []
      userParams := []
      exprFunc := none }

/-- `iarray_expr_bind`. -/
def iarrayExprBind (e : Expression) (var : String) (val : Container) : Eval Expression := do
  Table.vars.index e.vars.length
  pure { e with vars := e.vars ++ [(var, val)] }

/-- `iarray_expr_bind_param`. -/
def iarrayExprBindParam (e : Expression) (val : Cell) : Eval Expression :=
  if e.userParams.length ≥ exprUserParamsMax then refuse .full
  else do
    Table.userParams.index e.userParams.length
    pure { e with userParams := e.userParams ++ [val] }

/-- `_iarray_expr_prepare`. -/
def _iarrayExprPrepare (e : Expression) : Expression :=
  { e with
    evalMethod := if e.evalMethod = .auto then .iterblosc else e.evalMethod
    typesize := e.outDtshape.dtypeSize
    nbytes := e.outDtshape.shape.prod * e.outDtshape.dtypeSize }

/-- `iarray_expr_compile`. -/
def iarrayExprCompile (jug : Jug) (e : Expression) (expr : String) : Eval Expression := do
  let e := _iarrayExprPrepare e
  Table.vars.each e.vars.length
  let func ← jug.expressionCompile e.jugDtype expr (e.vars.map Prod.fst)
  pure { e with exprFunc := some func }

/-- `iarray_expr_compile_udf`. -/
def iarrayExprCompileUdf (jug : Jug) (e : Expression) (llvmBc : List Nat) (name : String) :
    Eval Expression := do
  let e := _iarrayExprPrepare e
  let func ← jug.udfCompile e.jugDtype llvmBc name
  pure { e with exprFunc := some func }

/-! ## Reading operands -/

/-- The bytes of a chunk. -/
def CatArray.chunkBytes (a : CatArray) : Nat := (a.axes.map Axis.extchunkshape).prod * a.itemsize

/-- `blosc2_getitem_ctx` on a chunk of an operand, which refuses items behind the chunk and a
buffer that is too small. -/
def getitemCtx (c : Container) (nchunk start nitems destsize : Nat) : Eval (List Cell) :=
  if (start + nitems) * c.catarr.itemsize > c.catarr.chunkBytes then refuse .bloscFailed
  else if destsize < nitems * c.catarr.itemsize then refuse .bloscFailed
  else ⟨[.chunk c nchunk (start * c.catarr.itemsize) (nitems * c.catarr.itemsize)],
    c.catarr.sc.getitem nchunk start nitems destsize⟩

/-- The bytes of a chunk as they lie in memory. -/
def rawChunk (c : Container) (nchunk start nbytes : Nat) : Eval Pointer :=
  ⟨[.chunk c nchunk start nbytes],
    if start + nbytes ≤ c.catarr.chunkBytes then
      .ok ⟨c.dtshape.dtype, c.catarr.sc.chunk nchunk, start⟩
    else crash .outOfBounds⟩

/-- `iarray_iter_read_block_next`, called without a look at `has_next`: the number of the block is
reduced modulo the numbers of blocks along the axes. -/
def readNext (E : Backend) (itr : IterReadBlock) : Eval (IterReadBlock × IterValue) :=
  if 0 ∈ itr.aux then liftM (crash .divisionByZero : Result (IterReadBlock × IterValue))
  else ⟨[.region itr.cont itr.start itr.stop], itr.next E (fun _ => .bits 0) 0⟩

/-- `iter_blockshape` of an operand: as many entries of `out_chunkshape` as it has axes. -/
def operandBlockshape (S : Surroundings) (outChunkshape : List Nat) (c : Container) : List Nat :=
  (List.range c.dtshape.ndim).map fun i => outChunkshape.getD i (S.staleChunkshape i)

/-! ## Repartitioning -/

/-- The items of memory under another item size. -/
def reinterpret (m : Machine) (d d' : Dtype) (mem : Nat → Cell) : Nat → Cell :=
  if d.size = d'.size then mem else fun k => loadAt m d mem (k * d'.size) d'

/-- A shape padded in front to `CATERVA_MAX_DIM` axes. -/
def padShape (shape : List Nat) : List Nat :=
  List.replicate (dimensionMax - shape.length) 1 ++ shape

/-- One line of a block: the loop body of `caterva_blosc_array_repart_chunk`. -/
def repartLine (pshape spshape actual orig : List Nat) (blocknitems sci : Nat)
    (src rchunk : Nat → Cell) (ncopy : Nat) : Nat → Cell :=
  let ii := indexUnidimToMultidimShape actual.dropLast ncopy
  let dCoord := sci * blocknitems + flat spshape (ii ++ [0])
  let sCoord := flat pshape (List.zipWith (· + ·) orig (ii ++ [0]))
  let len := actual.getLastD 0
  fun k => if dCoord ≤ k ∧ k < dCoord + len then src (sCoord + (k - dCoord)) else rchunk k

/-- One block. -/
def repartBlock (pshape epshape spshape : List Nat) (src rchunk : Nat → Cell) (sci : Nat) :
    Nat → Cell :=
  let counts := List.zipWith (· / ·) epshape spshape
  let orig := List.zipWith (· * ·) (iterBlockIndex counts sci) spshape
  let actual := List.zipWith (fun (p : Nat × Nat) o =>
    if o + p.2 > p.1 then p.1 - o else p.2) (List.zip pshape spshape) orig
  (List.range actual.dropLast.prod).foldl
    (repartLine pshape spshape actual orig spshape.prod sci src) rchunk

/-- `caterva_blosc_array_repart_chunk`: the items of a chunk, block after block. -/
def catervaBloscArrayRepartChunk (chunk : Nat → Cell) (array : CatArray) : Result (Nat → Cell) := do
  let pshape := padShape array.chunkshape
  let epshape := padShape (array.axes.map Axis.extchunkshape)
  let spshape := padShape array.blockshape
  let nblocks ← idiv epshape.prod spshape.prod
  pure ((List.range nblocks).foldl (repartBlock pshape epshape spshape chunk) fun _ => .bits 0)

/-! ## The prefilter -/

/-- One round of the loop over the operands in `prefilter_func`: the pointer that the compiled
function gets. -/
def prefilterInput (p : ExprPparams) (nblock : Nat) (x : (Container × ExprInput) × Nat) :
    Eval Pointer := do
  let blocksize := p.out.catarr.sc.blocksize
  let typesize := p.out.catarr.itemsize
  Table.inputsMalloced.index x.2
  Table.exprInputClass.index x.2
  Table.evalInputs.index x.2
  Table.exprInputs.index x.2
  match x.1.2 with
  | .eqNcomp nchunk => rawChunk x.1.1 nchunk (nblock * blocksize) blocksize
  | .eq nchunk =>
    Table.vars.index x.2
    Table.exprInputCsizes.index x.2
    let nitems := blocksize / typesize
    let offsetIndex := nblock * blocksize / typesize
    let items ← getitemCtx x.1.1 nchunk offsetIndex nitems blocksize
    if nitems * x.1.1.catarr.itemsize ≠ blocksize then refuse .failed
    else pure ⟨x.1.1.dtshape.dtype, chunkItems items, 0⟩
  | .neq buffer => pure { buffer with offset := buffer.offset + nblock * blocksize }

/-- Run the compiled function. -/
def callExpr (e : Expression) (eval : EvalPparams) (out : Nat → Cell) : Result (Nat → Cell) :=
  match e.exprFunc with
  | none => crash .nullPointer
  | some func =>
    match func eval out with
    | .ok out => .ok out
    | .error _ => inaError .evalEngineFailed

/-- `prefilter_func`. -/
def prefilterFunc (E : Backend) (p : ExprPparams) (nblock : Nat) : Eval (List Cell) := do
  Table.evalInputTypesizes.each p.inputs.length
  Table.exprInputTypesizes.each p.inputs.length
  let window ← window p.out.catarr.axes p.blockIndex nblock
  let inputs ← p.inputs.zipIdx.mapM (prefilterInput p nblock)
  Table.evalUserParams.each p.e.userParams.length
  Table.userParams.each p.e.userParams.length
  let out ← callExpr p.e
    { inputs := inputs
      inputTypesizes := p.inputs.map fun x => x.1.catarr.itemsize
      outSize := p.out.catarr.sc.blocksize
      outTypesize := p.out.catarr.itemsize
      ndim := p.e.outDtshape.ndim
      window := window
      userParams := p.e.userParams } E.malloc
  Table.inputsMalloced.each p.inputs.length
  pure ((List.range p.out.catarr.sc.blockitems).map out)

/-- `blosc2_compress_ctx` with the prefilter: when it fails on a block the compression fails. -/
def compressChunk (E : Backend) (p : ExprPparams) : Eval (List Cell) :=
  let blocks := (List.range ((p.out.catarr.axes.map Axis.extchunkshape).prod /
    p.out.catarr.blockshape.prod)).mapM (prefilterFunc E p)
  ⟨blocks.log, match blocks.outcome with
    | .ok blocks => .ok blocks.flatten
    | .error (.code _) => inaError .bloscFailed
    | .error (.undefined u) => crash u⟩

/-! ## The loop over the output -/

/-- `iarray_iter_write_block_has_next` and, at the end, `IARRAY_ITER_FINISH`: an error while the
last block is stored is not the end of the iteration. -/
def writeMore (E : Backend) (itr : IterWriteBlock) : Result (IterWriteBlock × Bool) :=
  if itr.nblock = itr.totalBlocks then
    match itr.store E with
    | .ok itr => .ok (itr, false)
    | .error (.code _) => inaError .notEndIter
    | .error (.undefined u) => crash u
  else .ok (itr, itr.nblock < itr.totalBlocks)

/-- The loop of both methods. Each round moves to one more block, so the number of blocks bounds
the number of rounds. -/
def evalLoop {σ : Type} (E : Backend) (body : IterWriteBlock → σ → Eval (IterWriteBlock × σ)) :
    Nat → IterWriteBlock → σ → Eval (IterWriteBlock × σ)
  | rounds, itr, s => do
    let (itr, more) ← writeMore E itr
    if more then
      match rounds with
      | 0 => pure (itr, s)
      | rounds + 1 =>
        let (itr, s) ← body itr s
        evalLoop E body rounds itr s
    else pure (itr, s)

/-- Before another block the iterator is as it was. -/
theorem writeMore_more {E : Backend} {itr : IterWriteBlock} {p : IterWriteBlock × Bool}
    (h : writeMore E itr = .ok p) (hMore : p.2 = true) : p.1 = itr := by
  unfold writeMore at h
  split at h
  · split at h
    · cases h
      cases hMore
    · cases h
    · cases h
  · cases h
    rfl

theorem evalLoop_stepwise {σ : Type} {S : List Access → Prop} (hS : Logged.Stepwise S) {E : Backend}
    {body : IterWriteBlock → σ → Eval (IterWriteBlock × σ)} {I : IterWriteBlock → σ → Prop}
    (hBody : ∀ itr s, I itr s → S (body itr s).log)
    (hKeep : ∀ itr s itr' s', I itr s → (body itr s).outcome = .ok (itr', s') → I itr' s')
    (rounds : Nat) {itr : IterWriteBlock} {s : σ} (hs : I itr s) :
    S (evalLoop E body rounds itr s).log := by
  induction rounds generalizing itr s with
  | zero =>
    refine hS.bind hS.nil fun p _ => ?_
    split
    · exact hS.nil
    · exact hS.nil
  | succ rounds ih =>
    refine hS.bind hS.nil fun p hp => ?_
    split
    next hMore =>
      rw [writeMore_more hp hMore]
      exact hS.bind (hBody _ _ hs) fun q hq => ih (hKeep _ _ _ _ hs hq)
    next => exact hS.nil

/-! ## The method "iterchunk" -/

/-- An operand gives the next block of its iterator. -/
def chunkInput (E : Backend) (x : IterReadBlock × Nat) : Eval (IterReadBlock × Pointer) := do
  let (itr, value) ← readNext E x.1
  Table.evalInputs.index x.2
  Table.exprInputs.index x.2
  pure (itr, ⟨itr.cont.dtshape.dtype, value.blockPointer, 0⟩)

/-- The number of items written, and the iterators of the operands. -/
abbrev ChunkState := Nat × List IterReadBlock

/-- One round of the loop. The parameters of the user are not passed on. -/
def iterchunkRound (E : Backend) (e : Expression) (ret : Container) (iterOut : IterWriteBlock)
    (s : ChunkState) : Eval (IterWriteBlock × ChunkState) := do
  let (iterOut, outValue) ← iterOut.next E (fun _ => .bits 0) 0
  let read ← s.2.zipIdx.mapM (chunkInput E)
  -- the compiled function takes as many items of each block as the block of the output has
  forM read fun x => Logged.emit (.buffer (x.1.blockShape.prod * x.1.cont.catarr.itemsize)
    (outValue.blockSize * ret.catarr.itemsize))
  let block ← callExpr e
    { inputs := read.map Prod.snd
      inputTypesizes := s.2.map fun itr => itr.cont.catarr.itemsize
      outSize := outValue.blockSize * e.typesize
      outTypesize := ret.catarr.itemsize
      ndim := ret.dtshape.ndim
      window := ⟨outValue.elemIndex, outValue.blockShape, computeStrides outValue.blockShape⟩
      userParams := List.replicate exprUserParamsMax (.bits 0) } outValue.blockPointer
  pure ({ iterOut with block := block }, s.1 + outValue.blockSize, read.map Prod.fst)

/-- `iarray_eval_cleanup`. -/
def iarrayEvalCleanup (e : Expression) (nitemsWritten : Nat) : Result Unit := do
  let nitemsInSchunk ← idiv e.nbytes e.typesize
  if nitemsWritten ≠ nitemsInSchunk then inaError .notComplete else pure ()

/-- `iarray_eval_iterchunk`. -/
def iarrayEvalIterchunk (E : Backend) (S : Surroundings) (e : Expression) (ret : Container)
    (outChunkshape : List Nat) : Eval Container := do
  Table.vars.each e.vars.length
  let iterVar ← (e.vars.mapM fun v => iarrayIterReadBlockNew E v.2
    (operandBlockshape S outChunkshape v.2) false : Result (List IterReadBlock))
  let iterOut ← iarrayIterWriteBlockNew E ret outChunkshape false
  Table.evalInputTypesizes.each e.vars.length
  Table.exprInputTypesizes.each e.vars.length
  Table.exprInputClass.each e.vars.length
  let (iterOut, nitemsWritten, _) ← evalLoop E (iterchunkRound E e ret) iterOut.totalBlocks iterOut
    (0, iterVar)
  liftM (iarrayEvalCleanup e nitemsWritten)
  pure iterOut.cont

/-! ## The method "iterblosc" -/

/-- Whether the chunks of an operand are read as they are: its partition is that of the output, and
no view makes another shape of them. -/
def iterbloscAllowed (S : Surroundings) (out var : Container) : Bool :=
  !(S.zproxy var || var.transposed) &&
    (match var.containerViewed with
      | none => true
      | some viewed => (List.range viewed.dtshape.ndim).all fun i =>
        var.dtshape.shape.getD i (S.staleShape var i) = viewed.dtshape.shape.getD i 0) &&
    (List.range var.dtshape.ndim).all fun i =>
      out.storage.chunkshape.getD i 0 = var.storage.chunkshape.getD i 0 &&
        out.storage.blockshape.getD i 0 = var.storage.blockshape.getD i 0

/-- An operand with its iterator, if its blocks are read through one. -/
structure Operand where
  var : Container
  iterVar : Option IterReadBlock

/-- Set an operand up under its class. -/
def setUpOperand (E : Backend) (S : Surroundings) (ret : Container) (outChunkshape : List Nat)
    (var : Container) : Result Operand :=
  if iterbloscAllowed S ret var then .ok ⟨var, none⟩
  else do
    let itr ← iarrayIterReadBlockNew E var (operandBlockshape S outChunkshape var) false
    pure ⟨var, some { itr with padding := true }⟩

/-- The chunk of an operand for chunk `nchunk` of the output. -/
def fetchInput (E : Backend) (S : Surroundings) (ret : Container) (nchunk : Nat)
    (x : Operand × Nat) : Eval (Operand × ExprInput) := do
  Table.exprInputClass.index x.2
  match x.1.iterVar with
  | none =>
    Table.vars.index x.2
    -- `blosc2_schunk_get_lazychunk` has no chunk behind the last one
    if x.1.var.catarr.nchunks ≤ nchunk then refuse .notSupported
    else
      Table.exprInputs.index x.2
      Table.exprInputCsizes.index x.2
      pure (x.1, if S.memcpyed x.1.var nchunk then .eqNcomp nchunk else .eq nchunk)
  | some itr =>
    let (itr, value) ← readNext E itr
    -- the block is laid out anew as a chunk of the output
    Logged.emit (.buffer (itr.blockShape.prod * itr.cont.catarr.itemsize)
      (ret.catarr.chunkshape.prod * ret.catarr.itemsize))
    let dtype := x.1.var.dtshape.dtype
    let rchunk ← catervaBloscArrayRepartChunk
      (reinterpret E.machine dtype ret.dtshape.dtype value.blockPointer) ret.catarr
    Table.exprInputs.index x.2
    pure (⟨x.1.var, some itr⟩, .neq
      ⟨if dtype.size = ret.dtshape.dtype.size then dtype else ret.dtshape.dtype, rchunk, 0⟩)

/-- The number of the chunk, and the operands. -/
abbrev BloscState := Nat × List Operand

/-- One round of the loop. -/
def iterbloscRound (E : Backend) (S : Surroundings) (e : Expression) (ret : Container)
    (iterOut : IterWriteBlock) (s : BloscState) : Eval (IterWriteBlock × BloscState) := do
  let bufferSize := (ret.catarr.axes.map Axis.extchunkshape).prod * ret.catarr.itemsize +
    E.maxOverhead
  let (iterOut, outValue) ← iterOut.next E (fun _ => .bits 0) bufferSize
  let fetched ← s.2.zipIdx.mapM (fetchInput E S ret s.1)
  let chunk ← compressChunk E
    { e := e
      out := ret
      inputs := fetched.map fun x => (x.1.var, x.2)
      blockIndex := outValue.blockIndex }
  Table.exprInputClass.each s.2.length
  pure ({ iterOut with block := chunkItems chunk, compressedChunkBuffer := true }, s.1 + 1,
    fetched.map Prod.fst)

/-- `iarray_eval_iterblosc`. -/
def iarrayEvalIterblosc (E : Backend) (S : Surroundings) (e : Expression) (ret : Container)
    (outChunkshape : List Nat) : Eval Container := do
  Table.vars.each e.vars.length
  Table.exprInputTypesizes.each e.vars.length
  Table.exprInputClass.each e.vars.length
  let operands ← (e.vars.mapM fun v => setUpOperand E S ret outChunkshape v.2 :
    Result (List Operand))
  let iterOut ← iarrayIterWriteBlockNew E ret outChunkshape true
  let (iterOut, _) ← evalLoop E (iterbloscRound E S e ret) iterOut.totalBlocks iterOut (0, operands)
  pure iterOut.cont

/-- `iarray_eval`. -/
def iarrayEval (E : Backend) (S : Surroundings) (e : Expression) : Eval Container := do
  let ret ← iarrayEmpty E e.outDtshape e.outStoreProperties
  match e.evalMethod with
  | .iterchunk => iarrayEvalIterchunk E S e ret ret.storage.chunkshape
  | .iterblosc => iarrayEvalIterblosc E S e ret ret.storage.chunkshape
  | .auto => refuse .invalidEvalMethod

end IronArray
