import Sglang.Lib.Kernel
import Sglang.Lib.Pages

/-!
# The page pools

`PagedTokenToKVPoolAllocator` hands out slots in pages of `page_size`; `TokenToKVPoolAllocator` is
its counterpart for single slots.  Both keep a list of free pages.  With `need_sort`, freed pages
wait in a staging area until an allocation runs short, and are then merged and sorted in.  While a
free group is open, frees are held back until it is closed.

Pages and slots start at 1 and `page_size`: page 0 takes the dummy writes of padded tokens.  The
debug checks (`SGLANG_DEBUG_MEMORY_POOL`) are off and not modelled.

The slots of an `alloc_extend` or `alloc_decode` are written by a kernel with one program for each
request of the batch.
-/

namespace Sglang.Alloc
open Lib List

/-- The assertions of the allocators. -/
inductive AllocFault
  /-- `assert self.page_size == 1`, or `> 1`. -/
  | pageSize
  /-- `segment start ... is not page-aligned`. -/
  | segmentStart
  /-- `free groups cannot be nested`. -/
  | nestedGroup
  /-- `assert ....available_size() <= ....size`. -/
  | overfull
  /-- `assert alloc_..._indices is not None`. -/
  | tookNothing
  /-- The shape of an `alloc_extend_swa_tail`: one request, a tail no longer than the extend. -/
  | tailShape
  /-- `alloc_extend_naive: free_pages is empty but the batch requires new pages`. -/
  | emptyPool
  /-- `assert full_indices.numel() == swa_indices.numel()`. -/
  | mismatch
  /-- `segment at ... shares a page with the one ending at ...`. -/
  | sharedPage
  deriving DecidableEq, Repr

/-- One request of a batch: the positions from `prefixLen` to `seqLen` need slots, and `lastLoc` is
the slot of position `prefixLen - 1` (`none` stands for the `-1` of a request without a prefix). -/
structure ExtendReq where
  prefixLen : Nat
  seqLen : Nat
  lastLoc : Option Nat
  le : prefixLen ≤ seqLen
  deriving DecidableEq, Repr

namespace ExtendReq

/-- `extend_len`. -/
def extendLen (r : ExtendReq) : Nat := r.seqLen - r.prefixLen

/-- `last_loc + 1`. -/
def nextLoc (r : ExtendReq) : Nat := r.lastLoc.elim 0 (· + 1)

/-- `num_pages_after - num_pages_before`. -/
def newPages (ps : Nat) (r : ExtendReq) : Nat := pages ps r.seqLen - pages ps r.prefixLen

end ExtendReq

/-- `get_num_new_pages`. -/
def getNumNewPages (ps : Nat) (batch : List ExtendReq) : Nat := (batch.map (·.newPages ps)).sum

/-- `get_num_new_pages(decode=True)`: one page for each length that starts one. -/
def getNumNewPagesDecode (ps : Nat) (batch : List ExtendReq) : Nat :=
  batch.countP fun r => decide (r.seqLen % ps = 1)

/-! ## The kernels -/

/-- `tl.load` of a vector under the mask `lane ≤ pid`; masked lanes read 0. -/
def loadUpTo (xs : List Nat) (lanes pid : Nat) : List Nat :=
  (range lanes).map fun i => if i ≤ pid then xs.getD i 0 else 0

/-- `next_power_of_2`. -/
def nextPowerOf2 (n : Nat) : Nat := if n ≤ 1 then 1 else 2 ^ (Nat.log2 (n - 1) + 1)

/-- `BLOCK_EXTEND`. -/
@[irreducible] def blockExtend : Nat := 4096

lemma blockExtend_pos : 0 < blockExtend := by
  rw [blockExtend]
  decide

variable (batch : List ExtendReq)

/-- `alloc_extend_kernel`: the program of one request, on the memory of `out_indices`. -/
def allocExtendKernel (freePage : List Nat) (bsUpper ps pid : Nat)
    (out : Nat → Nat) : Nat → Nat :=
  let seqLens := loadUpTo (batch.map (·.seqLen)) bsUpper pid
  let preLens := loadUpTo (batch.map (·.prefixLen)) bsUpper pid
  let extendLens := zipWith (· - ·) seqLens preLens
  let seqLen := (batch.map (·.seqLen)).getD pid 0
  let preLen := (batch.map (·.prefixLen)).getD pid 0
  let extendLen := seqLen - preLen
  let outputStartLoc := extendLens.sum - extendLen
  let numNewPages := zipWith (· - ·) (seqLens.map (pages ps)) (preLens.map (pages ps))
  let numPageStartLocSelf := pages ps seqLen - pages ps preLen
  let newPageStartLoc := numNewPages.sum - numPageStartLocSelf
  -- Part 1: fill the old partial page
  let nextLoc := (batch.map (·.nextLoc)).getD pid 0
  let numPart1 := min seqLen (pages ps preLen * ps) - preLen
  let out := storeLanes (range ps) (fun i => decide (i < numPart1)) (outputStartLoc + ·)
    (nextLoc + ·) out
  if preLen + numPart1 = seqLen then out
  else
    -- Part 2: fill the new full pages
    let numPart2 := seqLen / ps * ps - pages ps preLen * ps
    let numBlocks := (numPart2 + blockExtend - 1) / blockExtend
    let out := (range numBlocks).foldl (fun out blockId =>
      let offset (i : Nat) := blockId * blockExtend + i
      storeLanes (range blockExtend) (fun i => decide (offset i < numPart2))
        (fun i => outputStartLoc + numPart1 + offset i)
        (fun i => freePage.getD (newPageStartLoc + offset i / ps) 0 * ps + offset i % ps) out) out
    if preLen + numPart1 + numPart2 = seqLen then out
    else
      -- Part 3: fill the new partial page
      let numPart3 := seqLen - seqLen / ps * ps
      let startLoc := freePage.getD (newPageStartLoc + numPageStartLocSelf - 1) 0
      storeLanes (range ps) (fun i => decide (i < numPart3))
        (outputStartLoc + numPart1 + numPart2 + ·) (startLoc * ps + ·) out

/-- `alloc_decode_kernel`. -/
def allocDecodeKernel (freePage : List Nat) (bsUpper ps pid : Nat)
    (out : Nat → Nat) : Nat → Nat :=
  let seqLens := loadUpTo (batch.map (·.seqLen)) bsUpper pid
  let preLens := (range bsUpper).map fun i =>
    if i ≤ pid then seqLens.getD i 0 - 1 else seqLens.getD i 0
  let seqLen := (batch.map (·.seqLen)).getD pid 0
  let preLen := seqLen - 1
  let numNewPages := zipWith (· - ·) (seqLens.map (pages ps)) (preLens.map (pages ps))
  let numPageStartLocSelf := pages ps seqLen - pages ps preLen
  let newPageStartLoc := numNewPages.sum - numPageStartLocSelf
  if numPageStartLocSelf = 0 then
    fun a => if a = pid then (batch.map (·.nextLoc)).getD pid 0 else out a
  else fun a => if a = pid then freePage.getD newPageStartLoc 0 * ps else out a

/-- A kernel launched on the grid `(bs,)`, one program after the other, over an `out_indices` of
length `n`. -/
def launched (kernel : Nat → (Nat → Nat) → Nat → Nat) (bs n : Nat) : List Nat :=
  (range n).map (launch kernel (range bs) fun _ => 0)

/-- `torch.cumsum`. -/
def cumsum : Nat → List Nat → List Nat
  | _, [] => []
  | acc, x :: xs => (acc + x) :: cumsum (acc + x) xs

/-- `alloc_extend_naive`: the same slots by vector operations over all of `out_indices`. -/
def allocExtendNaive (freePages : List Nat) (extendNumTokens ps : Nat) :
    Except AllocFault (List Nat) :=
  let extendLens := batch.map (·.extendLen)
  let endPos := cumsum 0 extendLens
  let startPos := zipWith (· - ·) endPos extendLens
  if extendNumTokens = 0 then .ok []
  else
    let owner (j : Nat) := endPos.countP fun e => decide (e ≤ j)
    let pos (j : Nat) := j - startPos.getD (owner j) 0
    let nextLoc (j : Nat) := (batch.map (·.nextLoc)).getD (owner j) 0
    let ceilPrefix := batch.map fun r => pages ps r.prefixLen * ps
    let floorSeq := batch.map fun r => r.seqLen / ps * ps
    if freePages.length = 0 then
      if batch.all fun r => pages ps r.seqLen * ps == pages ps r.prefixLen * ps then
        .ok ((range extendNumTokens).map fun j => nextLoc j + pos j)
      else .error .emptyPool
    else
      let num1 := zipWith (fun (r : ExtendReq) c => min r.seqLen c - r.prefixLen) batch
        ceilPrefix
      let doneAfter1 := zipWith (fun (r : ExtendReq) n => decide (r.prefixLen + n = r.seqLen))
        batch num1
      let num2 := zipWith (fun (d : Bool) n => if d then 0 else n) doneAfter1
        (zipWith (· - ·) floorSeq ceilPrefix)
      let num3 := zipWith (fun (d : Bool) n => if d then 0 else n) doneAfter1
        (zipWith (fun (r : ExtendReq) f => r.seqLen - f) batch floorSeq)
      let pagesPerReq := zipWith (fun n₂ n₃ => n₂ / ps + if 0 < n₃ then 1 else 0) num2 num3
      let endNewPages := cumsum 0 pagesPerReq
      let startNewPages := zipWith (· - ·) endNewPages pagesPerReq
      .ok ((range extendNumTokens).map fun j => let n₁ := num1.getD (owner j) 0
        let n₂ := num2.getD (owner j) 0
        let rel2 := pos j - n₁
        let pageIdx2 := min (startNewPages.getD (owner j) 0 + rel2 / ps) (freePages.length - 1)
        let rel3 := pos j - n₁ - n₂
        let pageIdx3 := min (endNewPages.getD (owner j) 0 - 1) (freePages.length - 1)
        if pos j < n₁ then nextLoc j + pos j
        else if pos j < n₁ + n₂ then freePages.getD pageIdx2 0 * ps + rel2 % ps
        else freePages.getD pageIdx3 0 * ps + rel3)

/-! ## The pools -/

/-- The state of a page pool. -/
structure Pool where
  pageSize : Nat
  needSort : Bool
  size : Nat
  freePages : List Nat
  /-- Freed pages that wait to be merged (`staged_pages`, or `release_pages` for single slots). -/
  stagedPages : List (List Nat)
  /-- `none`: free right away. -/
  freeGroup : Option (List (List Nat))
  freePageIdsGroup : List (List Nat)
  deriving DecidableEq, Repr

namespace Pool
variable (p : Pool)

/-- `num_pages`. -/
def numPages : Nat := p.size / p.pageSize

/-- A pool with every page free; `clear` leaves the same. -/
def clear (pageSize : Nat) (needSort : Bool) (size : Nat) : Pool where
  pageSize := pageSize
  needSort := needSort
  size := size
  freePages := range' 1 (size / pageSize)
  stagedPages := []
  freeGroup := none
  freePageIdsGroup := []

/-- `get_all_free_pages`. -/
def allFree : List Nat := p.freePages ++ p.stagedPages.flatten

/-- `available_size`. -/
def availableSize : Nat := (p.freePages.length + p.stagedPages.flatten.length) * p.pageSize

/-- `merge_and_sort_free`. -/
def mergeAndSortFree : Pool :=
  if p.stagedPages = [] then p
  else { p with freePages := p.allFree.mergeSort (· ≤ ·), stagedPages := [] }

/-- Merge when fewer than `wanted` pages are at hand. -/
def mergeFor (wanted : Nat) : Pool := if p.freePages.length < wanted then p.mergeAndSortFree else p

/-- `TokenToKVPoolAllocator.alloc`. -/
def allocTokens (needSize : Nat) : Option (List Nat) × Pool :=
  let p := if p.needSort then p.mergeFor needSize else p
  if p.freePages.length < needSize then (none, p)
  else (some (p.freePages.take needSize), { p with freePages := p.freePages.drop needSize })

/-- `PagedTokenToKVPoolAllocator.alloc`. -/
def alloc (needSize : Nat) : Option (List Nat) × Pool :=
  let numPages := needSize / p.pageSize
  let p := p.mergeFor numPages
  if p.freePages.length < numPages then (none, p)
  else (some ((p.freePages.take numPages).flatMap fun page =>
      (range p.pageSize).map fun i => page * p.pageSize + i),
    { p with freePages := p.freePages.drop numPages })

/-- `alloc_extend`; the caller may have counted the new pages. -/
def allocExtend (p : Pool) (batch : List ExtendReq) (extendNumTokens : Nat)
    (numNewPages : Option Nat) : Option (List Nat) × Pool :=
  let bs := batch.length
  let p := p.mergeFor (extendNumTokens / p.pageSize + bs + 1)
  let outIndices := launched
    (allocExtendKernel batch p.freePages (nextPowerOf2 bs) p.pageSize) bs extendNumTokens
  let numNewPages := numNewPages.getD (getNumNewPages p.pageSize batch)
  if p.freePages.length < numNewPages then (none, p)
  else (some outIndices, { p with freePages := p.freePages.drop numNewPages })

/-- `alloc_decode`: the batch has the sequence lengths with the new token counted. -/
def allocDecode (p : Pool) (batch : List ExtendReq) : Option (List Nat) × Pool :=
  let bs := batch.length
  let p := p.mergeFor bs
  let outIndices := launched
    (allocDecodeKernel batch p.freePages (nextPowerOf2 bs) p.pageSize) bs bs
  let numNewPages := getNumNewPagesDecode p.pageSize batch
  if p.freePages.length < numNewPages then (none, p)
  else (some outIndices, { p with freePages := p.freePages.drop numNewPages })

/-- `_release_page_ids`, and the end of `TokenToKVPoolAllocator.free`. -/
def releasePageIds (pageIds : List Nat) : Pool :=
  if p.needSort then { p with stagedPages := p.stagedPages ++ [pageIds] }
  else if p.pageSize = 1 then { p with freePages := p.freePages ++ pageIds }
  else { p with freePages := pageIds ++ p.freePages }

/-- `torch.unique` of the pages of some slots. -/
def uniquePages (ps : Nat) (freeIndex : List Nat) : List Nat :=
  ((freeIndex.map (· / ps)).mergeSort (· ≤ ·)).dedup

/-- `free`: every page that holds one of the slots.  Single slots are not deduplicated. -/
def free (freeIndex : List Nat) : Pool :=
  if freeIndex = [] then p
  else match p.freeGroup with
    | none => p.releasePageIds
        (if p.pageSize = 1 then freeIndex else uniquePages p.pageSize freeIndex)
    | some group => { p with freeGroup := some (group ++ [freeIndex]) }

/-- `free_page_ids`: exactly these pages. -/
def freePageIds (pageIds : List Nat) : Pool :=
  if pageIds = [] then p
  else if p.pageSize = 1 then p.free pageIds
  else match p.freeGroup with
    | none => p.releasePageIds pageIds
    | some _ => { p with freePageIdsGroup := p.freePageIdsGroup ++ [pageIds] }

/-- `free_index[::page_size]`. -/
def strided (ps : Nat) (freeIndex : List Nat) : List Nat :=
  (range (pages ps freeIndex.length)).map fun k => freeIndex.getD (ps * k) 0

/-- `free_segment`. -/
def freeSegment (freeIndex : List Nat) (startPos : Nat) : Except AllocFault Pool :=
  if p.pageSize = 1 then .ok (p.free freeIndex)
  else if freeIndex = [] then .ok p
  else if startPos % p.pageSize ≠ 0 then .error .segmentStart
  else .ok (p.freePageIds ((strided p.pageSize freeIndex).map (· / p.pageSize)))

/-- `free_group_begin`. -/
def freeGroupBegin : Except AllocFault Pool :=
  match p.freeGroup with
  | some _ => .error .nestedGroup
  | none => .ok { p with freeGroup := some [], freePageIdsGroup := [] }

/-- `free_group_end`. -/
def freeGroupEnd : Pool :=
  let pending := p.freeGroup.getD []
  let p := { p with freeGroup := none }
  let p := if pending = [] then p else p.free pending.flatten
  if p.freePageIdsGroup = [] then p
  else { p.releasePageIds p.freePageIdsGroup.flatten with freePageIdsGroup := [] }

end Pool
end Sglang.Alloc
