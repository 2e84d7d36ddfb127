import Sglang.Alloc.Placement

/-!
# The allocator of a hybrid cache

`SWATokenToKVPoolAllocator` keeps two pools, for the layers with full attention and for those with a
sliding window, and a mapping from the slots of the first to those of the second.  An allocation
takes from both and maps what it took; a free reads the mapping, clears it and gives back both.  The
sliding-window side may also be given back on its own (`free_swa`), and the full side of slots whose
peers are gone (`free_full`).

With a per-request ring (`swaReqRing`) the sliding-window layers have no pages: only the full pool
is used and the mapping stays empty.

Entry 0 of the mapping reads as "no peer", since slot 0 is the padding slot.  The entry behind the
last slot is -1, and so is the peer of a `last_loc` of -1.  The checks of `expect` are off unless an
environment variable turns them on, and not modelled; neither is the number of request slots that
`swa_available_size` reports for a ring.
-/

namespace Sglang.Alloc
open Lib

/-- The state of the allocator. -/
structure Swa where
  pageSize : Nat
  /-- Whether the indices are on a CUDA device. -/
  cuda : Bool
  swaReqRing : Bool
  /-- `full_attn_allocator`. -/
  full : Pool
  /-- `swa_attn_allocator`. -/
  swa : Pool
  /-- `full_to_swa_index_mapping`. -/
  mapping : Nat → Nat
  /-- `free_group is not None`; nothing is ever put into it. -/
  freeGroup : Bool
  swaFreeGroup : List (List Nat)
  swaPageIdsGroup : List (List Nat)

/-- `mapping[full_indices] = swa_indices`. -/
def assign (m : Nat → Nat) (fullIndices swaIndices : List Nat) : Nat → Nat :=
  (fullIndices.zip swaIndices).foldl (fun m fs a => if a = fs.1 then fs.2 else m a) m

/-- `mapping.index_fill_(0, full_indices, 0)`. -/
def clearAt (m : Nat → Nat) (fullIndices : List Nat) : Nat → Nat :=
  fun a => if a ∈ fullIndices then 0 else m a

/-- `_expand_to_full_pages`. -/
def expandToFullPages (ps : Nat) (indices : List Nat) : List Nat :=
  indices.flatMap fun x => (List.range ps).map fun o => x / ps * ps + o

/-! ## Reading and clearing the mapping -/

variable (reps : List Nat)

/-- `get_and_clear_swa_pages_kernel`: one program, on the memory of the mapping and of
`swa_pages`. -/
def getAndClearSwaPagesKernel (ps blockPages blockOffsets pid : Nat)
    (mem : (Nat → Nat) × (Nat → Nat)) : (Nat → Nat) × (Nat → Nat) :=
  let repMask (i : Nat) := decide (pid * blockPages + i < reps.length)
  let fullRep (i : Nat) := if repMask i then reps.getD (pid * blockPages + i) 0 else 0
  let swaRep (i : Nat) := if repMask i then mem.1 (fullRep i) else 0
  let swaPages := storeLanes (List.range blockPages) repMask (pid * blockPages + ·)
    (fun i => swaRep i / ps) mem.2
  -- The barrier: every entry is read before one is cleared.
  let mapping := (List.range blockPages).foldl (fun m i =>
    storeLanes (List.range blockOffsets) (fun o => repMask i && decide (o < ps))
      (fullRep i / ps * ps + ·) (fun _ => 0) m) mem.1
  (mapping, swaPages)

/-- `block_offsets` and `block_pages`. -/
def blockOffsets (ps : Nat) : Nat := nextPowerOf2 ps

@[inherit_doc blockOffsets]
def blockPages (ps : Nat) : Nat := max 1 (256 / blockOffsets ps)

/-- The programs of `get_and_clear_swa_pages`, in some order. -/
def launchGetAndClear (ps : Nat) (order : List Nat)
    (mem : (Nat → Nat) × (Nat → Nat)) : (Nat → Nat) × (Nat → Nat) :=
  order.foldl (fun mem pid =>
    getAndClearSwaPagesKernel reps ps (blockPages ps) (blockOffsets ps) pid mem) mem

/-- `get_and_clear_swa_pages`: the new mapping and the pages. -/
def getAndClearSwaPages (m : Nat → Nat) (ps : Nat) : (Nat → Nat) × List Nat :=
  let mem := launchGetAndClear reps ps (List.range (pages (blockPages ps) reps.length))
    (m, fun _ => 0)
  (mem.1, (List.range reps.length).map mem.2)

/-- `_free_swa_pages_none_cuda`. -/
def freeSwaPagesNoneCuda (m : Nat → Nat) (ps : Nat) : (Nat → Nat) × List Nat :=
  if ps = 1 then (clearAt m reps, reps.map m)
  else (clearAt m (expandToFullPages ps reps), reps.map fun x => m x / ps)

variable (s : Swa)

namespace Swa

/-- A new allocator. -/
def clear (pageSize : Nat) (cuda swaReqRing needSort : Bool) (size sizeSwa : Nat) : Swa where
  pageSize := pageSize
  cuda := cuda
  swaReqRing := swaReqRing
  full := Pool.clear pageSize needSort size
  swa := Pool.clear pageSize needSort sizeSwa
  mapping := fun _ => 0
  freeGroup := false
  swaFreeGroup := []
  swaPageIdsGroup := []

/-- The request as the sliding-window pool sees it: `translate_loc_from_full_to_swa(last_loc)`. -/
def translate (r : ExtendReq) : ExtendReq := { r with lastLoc := r.lastLoc.map s.mapping }

/-- `set_full_to_swa_mapping`. -/
def setFullToSwaMapping (fullIndices swaIndices : List Nat) : Except AllocFault Swa :=
  if fullIndices = [] then .ok s
  else if fullIndices.length ≠ swaIndices.length then .error .mismatch
  else .ok { s with mapping := assign s.mapping fullIndices swaIndices }

/-- `clear_full_to_swa_mapping`. -/
def clearFullToSwaMapping (fullIndices : List Nat) : Swa :=
  { s with mapping := clearAt s.mapping fullIndices }

/-! ## Allocation -/

/-- `alloc`. -/
def alloc (needSize : Nat) : Except AllocFault (Option (List Nat) × Swa) :=
  if s.pageSize ≠ 1 then .error .pageSize
  else if s.full.availableSize < needSize then .ok (none, s)
  else if s.swa.availableSize < needSize then .ok (none, s)
  else
    match s.full.allocTokens needSize, s.swa.allocTokens needSize with
    | (some fullIndices, full), (some swaIndices, swa) => do
      let s ← { s with full := full, swa := swa }.setFullToSwaMapping fullIndices swaIndices
      return (some fullIndices, s)
    | _, _ => .error .tookNothing

/-- `new_pages_available`. -/
def newPagesAvailable (numFullPages numSwaPages : Nat) : Bool :=
  decide (numFullPages ≤ s.full.availableSize / s.pageSize) &&
    (s.swaReqRing || decide (numSwaPages ≤ s.swa.availableSize / s.pageSize))

variable (batch : List ExtendReq)

/-- Take for a batch from the full pool alone. -/
def allocFullOnly (extendNumTokens numNewPages : Nat) : Option (List Nat) × Swa :=
  let (out, full) := s.full.allocExtend batch extendNumTokens (some numNewPages)
  (out, { s with full := full })

/-- `alloc_extend`. -/
def allocExtend (s : Swa) (batch : List ExtendReq) (extendNumTokens : Nat) :
    Except AllocFault (Option (List Nat) × Swa) :=
  if s.pageSize ≤ 1 then .error .pageSize
  else
    let numNewPages := getNumNewPages s.pageSize batch
    if !s.newPagesAvailable numNewPages numNewPages then .ok (none, s)
    else if s.swaReqRing then .ok (s.allocFullOnly batch extendNumTokens numNewPages)
    else
      match s.full.allocExtend batch extendNumTokens (some numNewPages),
        s.swa.allocExtend (batch.map s.translate) extendNumTokens (some numNewPages) with
      | (some fullIndices, full), (some swaIndices, swa) => do
        let s ← { s with full := full, swa := swa }.setFullToSwaMapping fullIndices swaIndices
        return (some fullIndices, s)
      | _, _ => .error .tookNothing

/-- `alloc_extend_swa_tail`: the full pool for the whole extend, the other one for its tail. -/
def allocExtendSwaTail (extendNumTokens swaTailLen : Nat) :
    Except AllocFault (Option (List Nat) × Swa) :=
  if s.pageSize ≤ 1 then .error .pageSize
  else if batch.length ≠ 1 ∨ extendNumTokens < swaTailLen then .error .tailShape
  else
    let numFullPages := getNumNewPages s.pageSize batch
    let numSwaPages := pages s.pageSize swaTailLen
    if !s.newPagesAvailable numFullPages numSwaPages then .ok (none, s)
    else if s.swaReqRing then .ok (s.allocFullOnly batch extendNumTokens numFullPages)
    else
      match s.full.allocExtend batch extendNumTokens (some numFullPages) with
      | (none, _) => .error .tookNothing
      | (some fullIndices, full) =>
        if swaTailLen = 0 then .ok (some fullIndices, { s with full := full })
        else
          let tail : ExtendReq := ⟨0, swaTailLen, none, Nat.zero_le _⟩
          match s.swa.allocExtend [tail] swaTailLen (some numSwaPages) with
          | (none, _) => .error .tookNothing
          | (some swaIndices, swa) => do
            let head := fullIndices.length - swaTailLen
            let s ← { s with full := full, swa := swa }.setFullToSwaMapping
              (fullIndices.drop head) swaIndices
            return (some fullIndices, if swaTailLen < extendNumTokens then
              s.clearFullToSwaMapping (fullIndices.take head) else s)

/-- `alloc_decode`: what one pool took is not given back when the other is short. -/
def allocDecode (s : Swa) (batch : List ExtendReq) : Except AllocFault (Option (List Nat) × Swa) :=
  if s.pageSize ≤ 1 then .error .pageSize
  else if s.swaReqRing then
    let (out, full) := s.full.allocDecode batch
    .ok (out, { s with full := full })
  else
    let (outFull, full) := s.full.allocDecode batch
    let (outSwa, swa) := s.swa.allocDecode (batch.map s.translate)
    let s := { s with full := full, swa := swa }
    match outFull, outSwa with
    | some fullIndices, some swaIndices =>
      .ok (some fullIndices, { s with mapping := assign s.mapping fullIndices swaIndices })
    | _, _ => .ok (none, s)

/-! ## Frees -/

/-- `assert allocator.available_size() <= allocator.size`. -/
def checkFits (p : Pool) : Except AllocFault Unit :=
  if p.size < p.availableSize then .error .overfull else .ok ()

/-- `_release_swa`. -/
def releaseSwa (swaIndices : List Nat) : Except AllocFault Swa := do
  let swaIndices := if 1 < s.pageSize then swaIndices.filter (0 < ·) else swaIndices
  let swa := s.swa.free swaIndices
  checkFits swa
  return { s with swa := swa }

variable (freeIndex : List Nat) (startPos : Nat)

/-- `_free_swa_pages`. -/
def freeSwaPages : Except AllocFault Swa :=
  if startPos % s.pageSize ≠ 0 then .error .segmentStart
  else
    let reps := Pool.strided s.pageSize freeIndex
    let (mapping, swaPages) := if s.cuda then getAndClearSwaPages reps s.mapping s.pageSize
      else freeSwaPagesNoneCuda reps s.mapping s.pageSize
    let s := { s with mapping := mapping }
    if s.swaReqRing then .ok s
    else if s.freeGroup then .ok { s with swaPageIdsGroup := s.swaPageIdsGroup ++ [swaPages] }
    else do
      let swa := s.swa.freePageIds swaPages
      checkFits swa
      return { s with swa := swa }

/-- `free_swa`: the peers of any slots, in whole pages. -/
def freeSwa : Except AllocFault Swa :=
  if s.swaReqRing ∨ freeIndex = [] then .ok s
  else if s.pageSize = 1 then s.freeSwaPages freeIndex 0
  else
    let mappingIndices := expandToFullPages s.pageSize freeIndex
    let swaIndices := mappingIndices.map s.mapping
    let s := s.clearFullToSwaMapping mappingIndices
    if s.freeGroup then .ok { s with swaFreeGroup := s.swaFreeGroup ++ [swaIndices] }
    else s.releaseSwa swaIndices

/-- `free_swa_segment`: the peers of a piece of a row that starts on a page. -/
def freeSwaSegment : Except AllocFault Swa :=
  if s.swaReqRing ∨ freeIndex = [] then .ok s else s.freeSwaPages freeIndex startPos

/-- `free_full`. -/
def freeFull : Except AllocFault Swa :=
  if freeIndex = [] then .ok s
  else do
    let full := s.full.free freeIndex
    checkFits full
    return { s with full := full }

/-- `free`. -/
def free : Except AllocFault Swa :=
  if freeIndex = [] then .ok s else s.freeSwa freeIndex >>= (freeFull · freeIndex)

/-- `free_full_segment`. -/
def freeFullSegment : Except AllocFault Swa :=
  if freeIndex = [] then .ok s
  else do
    let full ← s.full.freeSegment freeIndex startPos
    return { s with full := full }

/-- `free_segment`. -/
def freeSegment : Except AllocFault Swa :=
  if freeIndex = [] then .ok s
  else s.freeSwaSegment freeIndex startPos >>= (freeFullSegment · freeIndex startPos)

/-- `_page_disjoint`, as `free_segments` and `free_full_segments` go through it. -/
def forSegments (f : Swa → List Nat → Nat → Except AllocFault Swa) (prevEnd : Option Nat) :
    Swa → List (List Nat × Nat) → Except AllocFault Swa
  | s, [] => .ok s
  | s, (freeIndex, startPos) :: segments =>
    if freeIndex = [] then forSegments f prevEnd s segments
    else if prevEnd.any fun e => decide (startPos / s.pageSize ≤ (e - 1) / s.pageSize) then
      .error .sharedPage
    else f s freeIndex startPos >>= fun s =>
      forSegments f (some (startPos + freeIndex.length)) s segments

/-- `free_group_begin`. -/
def freeGroupBegin : Except AllocFault Swa :=
  if s.freeGroup then .error .nestedGroup
  else do
    let full ← s.full.freeGroupBegin
    return { s with freeGroup := true, swaFreeGroup := [], swaPageIdsGroup := [], full := full }

/-- The page ids of a closing group. -/
def endPageIds : Swa :=
  if s.swaPageIdsGroup = [] then s
  else { s with
    swaPageIdsGroup := []
    swa := if s.swaReqRing then s.swa else s.swa.freePageIds s.swaPageIdsGroup.flatten }

/-- The slots of a closing group. -/
def endFreeGroup : Except AllocFault Swa :=
  if s.swaFreeGroup = [] then .ok s
  else { s with swaFreeGroup := [] }.releaseSwa s.swaFreeGroup.flatten

/-- `free_group_end`. -/
def freeGroupEnd : Except AllocFault Swa := do
  let s ← { s with freeGroup := false }.endPageIds.endFreeGroup
  let s := { s with full := s.full.freeGroupEnd }
  checkFits s.full
  checkFits s.swa
  return s

/-- A cached slot takes over the peer of an incoming one, whose full slot is then free
(`_recover_tombstone_keeping_locked_full`). -/
def repoint (kept incoming : List Nat) : Except AllocFault Swa := do
  let s ← s.setFullToSwaMapping kept (incoming.map s.mapping)
  (s.clearFullToSwaMapping incoming).freeFullSegment incoming 0

end Swa

/-- The calls of the allocator. -/
inductive SwaCall
  | alloc (needSize : Nat)
  | allocExtend (batch : List ExtendReq)
  | allocExtendSwaTail (r : ExtendReq) (swaTailLen : Nat)
  | allocDecode (batch : List ExtendReq)
  | free (freeIndex : List Nat)
  | freeSwa (freeIndex : List Nat)
  | freeFull (freeIndex : List Nat)
  | freeSegment (freeIndex : List Nat) (startPos : Nat)
  | freeSwaSegment (freeIndex : List Nat) (startPos : Nat)
  | freeFullSegment (freeIndex : List Nat) (startPos : Nat)
  | freeSegments (segments : List (List Nat × Nat))
  | freeFullSegments (segments : List (List Nat × Nat))
  | repoint (kept incoming : List Nat)
  | freeGroupBegin
  | freeGroupEnd
  deriving DecidableEq, Repr

/-- What a call returns, if anything, and the state after it. -/
def Swa.call : SwaCall → Except AllocFault (Option (List Nat) × Swa)
  | .alloc needSize => s.alloc needSize
  | .allocExtend batch => s.allocExtend batch (numTokens batch)
  | .allocExtendSwaTail r swaTailLen => s.allocExtendSwaTail [r] r.extendLen swaTailLen
  | .allocDecode batch => s.allocDecode batch
  | .free freeIndex => return (none, ← s.free freeIndex)
  | .freeSwa freeIndex => return (none, ← s.freeSwa freeIndex)
  | .freeFull freeIndex => return (none, ← s.freeFull freeIndex)
  | .freeSegment freeIndex startPos => return (none, ← s.freeSegment freeIndex startPos)
  | .freeSwaSegment freeIndex startPos => return (none, ← s.freeSwaSegment freeIndex startPos)
  | .freeFullSegment freeIndex startPos => return (none, ← s.freeFullSegment freeIndex startPos)
  | .freeSegments segments => return (none, ← Swa.forSegments Swa.freeSegment none s segments)
  | .freeFullSegments segments =>
    return (none, ← Swa.forSegments Swa.freeFullSegment none s segments)
  | .repoint kept incoming => return (none, ← s.repoint kept incoming)
  | .freeGroupBegin => return (none, ← s.freeGroupBegin)
  | .freeGroupEnd => return (none, ← s.freeGroupEnd)

end Sglang.Alloc
