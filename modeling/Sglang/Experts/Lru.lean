import Sglang.Lib.Shelf

/-!
# The expert spill LRU

`RoutedExpertLru` of `layers/moe/dsv41_expert_spill.py`.  Of the routed experts of a layer some are
kept in rows of the GPU tensors and the others in rows of host tensors; `ensure` brings experts in
by swapping rows.  The tensors (the weight and its siblings) are named by a type `J` and consist of
rows of a type `R`; layouts match, so that the checks of shapes and dtypes pass.  `n_swaps` is
telemetry and left out, as are pinning and devices.
-/

namespace Sglang.Experts
open Lib

/-- A tensor by its rows. -/
structure Tensor (R : Type) where
  size : ℕ
  row : ℕ → R

/-- `t[i].copy_(x)` -/
def Tensor.set {R : Type} (t : Tensor R) (i : ℕ) (x : R) : Tensor R :=
  { t with row := Function.update t.row i x }

/-- The numbers a spill is built with. -/
structure Config where
  nExperts : ℕ
  nShared : ℕ
  nSpilled : ℕ

namespace Config
variable (c : Config)

def nRouted : ℕ := c.nExperts - c.nShared

def nKeptRouted : ℕ := c.nRouted - c.nSpilled

/-- `list(range(n_kept_routed))`: the ids that are kept if the tail is spilled. -/
def tailKept : List ℕ := List.range c.nKeptRouted

end Config

structure Lru (J R : Type) extends Config where
  keptIds : List ℕ
  coldIds : List ℕ
  gpus : J → Tensor R
  hosts : J → Tensor R
  slotToId : ℕ → ℕ
  idToSlot : ℕ → Option ℕ
  hostSlotToId : ℕ → ℕ
  idToHostSlot : ℕ → Option ℕ
  /-- slots, the least recently used one first -/
  lru : List ℕ
  applied : Bool
  mapTable : Option (ℕ → ℤ)
  hostMapTable : Option (ℕ → ℤ)
  nThrash : ℕ

/-! ## Construction -/

/-- What `RoutedExpertLru` is called with. -/
structure Args (J R : Type) where
  /-- the weight and its siblings -/
  weights : J → Tensor R
  nShared : ℕ
  nSpilled : ℕ
  hosts : Option (J → Tensor R)
  logicalNExperts : Option ℕ
  alreadyShrunk : Bool
  keptIds : Option (List ℕ)
  coldIds : Option (List ℕ)

inductive InitError
  | tooMany
  | siblingDim
  | shrunkDim
  | coldIds
  | keptIds
  deriving DecidableEq

/-- `{e: s for s, e in enumerate(ids)}` -/
def enumerated (ids : List ℕ) (e : ℕ) : Option ℕ :=
  if e ∈ ids then some (ids.length - 1 - ids.reverse.idxOf e) else none

section
variable {J R : Type}

/-- `_alloc_host`; `junk` is what `torch.empty` has. -/
def allocHost (c : Config) (coldIds : List ℕ) (junk : ℕ → R) (t : Tensor R) : Tensor R where
  size := c.nSpilled
  row s := if c.nRouted ≤ t.size then t.row (coldIds.getD s 0) else junk s

def Args.config (a : Args J R) (primary : J) : Config where
  nExperts :=
    match a.logicalNExperts with
    | some (n + 1) => n + 1
    | _ => (a.weights primary).size
  nShared := a.nShared
  nSpilled := a.nSpilled

/-- The ids that start on the host. -/
def Args.coldList (a : Args J R) (c : Config) : List ℕ :=
  match a.coldIds with
  | none => List.range' c.nKeptRouted c.nSpilled
  | some ids => ids.insertionSort (· ≤ ·)

/-- The ids that start on the GPU. -/
def Args.keptList (a : Args J R) (c : Config) : List ℕ :=
  match a.keptIds with
  | none => (List.range c.nRouted).filter (· ∉ a.coldList c)
  | some ids => ids

/-- The spill the constructor ends with. -/
def Lru.built (a : Args J R) (c : Config) (junk : ℕ → R) : Lru J R where
  toConfig := c
  keptIds := a.keptList c
  coldIds := a.coldList c
  gpus := a.weights
  hosts := match a.hosts with
    | some hosts => hosts
    | none => fun j => allocHost c (a.coldList c) junk (a.weights j)
  slotToId s := (a.keptList c).getD s 0
  idToSlot := enumerated (a.keptList c)
  hostSlotToId s := (a.coldList c).getD s 0
  idToHostSlot := enumerated (a.coldList c)
  lru := List.range c.nKeptRouted
  applied := a.alreadyShrunk
  mapTable := none
  hostMapTable := none
  nThrash := 0

variable [Fintype J]

/-- `RoutedExpertLru.__init__` -/
def Lru.init (a : Args J R) (primary : J) (junk : ℕ → R) : Except InitError (Lru J R) :=
  let c := a.config primary
  if c.nExperts < c.nShared + c.nSpilled then .error .tooMany
  else if ∃ j, (a.weights j).size ≠ (a.weights primary).size then .error .siblingDim
  else if a.alreadyShrunk ∧ (a.weights primary).size ≠ c.nExperts - c.nSpilled then
    .error .shrunkDim
  else
    let cold := a.coldList c
    if cold.length ≠ c.nSpilled ∨ (∃ i ∈ cold, c.nRouted ≤ i) ∨ ¬ cold.Nodup then
      .error .coldIds
    else
      let kept := a.keptList c
      if a.keptIds.isSome ∧ (kept.length ≠ c.nKeptRouted ∨ ∃ i ∈ kept, i ∈ cold) then
        .error .keptIds
      else .ok (Lru.built a c junk)

end

/-! ## Shrinking and tables -/

variable {J R : Type}

namespace Lru
variable (s : Lru J R)

/-- `_shrink_one` -/
def shrinkOne (t : Tensor R) : Tensor R where
  size := s.keptIds.length + s.nShared
  row i := if i < s.keptIds.length then t.row (s.keptIds.getD i 0)
    else t.row (s.nRouted + (i - s.keptIds.length))

def applyShrink : Lru J R :=
  if s.applied then s
  else { s with gpus := fun j => s.shrinkOne (s.gpus j), applied := true }

/-- The table of the GPU rows, by expert. -/
def cpuMap (i : ℕ) : ℤ :=
  if s.nRouted ≤ i ∧ i < s.nRouted + s.nShared then s.nKeptRouted + (i - s.nRouted)
  else match s.idToSlot i with
    | some slot => slot
    | none => -1

/-- The table of the host rows, by expert. -/
def cpuHost (i : ℕ) : ℤ :=
  match s.idToHostSlot i with
  | some hs => hs
  | none => -1

/-- `_ensure_device_tables` -/
def ensureDeviceTables : Lru J R :=
  if s.mapTable.isNone ∨ s.hostMapTable.isNone then
    { s with mapTable := some s.cpuMap, hostMapTable := some s.cpuHost }
  else s

/-- `map_ids`, entry by entry, once the tables are there. -/
def mapId (table : ℕ → ℤ) (logical : ℤ) : ℤ :=
  if logical < 0 then logical else table (min logical.toNat (s.nExperts - 1))

/-! ## Swapping -/

/-- `_swap_row` for one tensor: the GPU tensor and the host tensor afterwards. -/
def swapRow (gpu host : Tensor R) (victimSlot hs logical : ℕ) : Tensor R × Tensor R :=
  let staging := gpu.row victimSlot
  let gpu := gpu.set victimSlot (host.row hs)
  let host := host.set hs staging
  if ¬ s.applied ∧ logical < gpu.size then (gpu.set logical (gpu.row victimSlot), host)
  else (gpu, host)

def mruProtect : ℕ := 8

/-- The first loop of `_pick_victim`, from an index on and with the fallback so far. -/
def pickLoop (needed : ℕ → Bool) (bound : ℕ) : ℕ → Option ℕ → List ℕ → Option ℕ
  | _, fallback, [] => fallback
  | idx, fallback, slot :: slots =>
    let occupant := s.slotToId slot
    if needed occupant then pickLoop needed bound (idx + 1) fallback slots
    else if idx < bound ∧ occupant ∈ s.coldIds then some slot
    else pickLoop needed bound (idx + 1) (fallback.or (some slot)) slots

/-- `_pick_victim`; `none` is the `RuntimeError`. -/
def pickVictim (needed : ℕ → Bool) (current : ℕ) : Option ℕ :=
  let n := s.lru.length
  let protect := min mruProtect (n / 2)
  match s.pickLoop needed (n - protect) 0 none s.lru with
  | some slot => some slot
  | none => s.lru.find? fun slot => s.slotToId slot ≠ current

/-- The residents of the batch. -/
def needed (batch : List ℕ) (i : ℕ) : Bool := (s.idToSlot i).isSome ∧ i ∈ batch

/-- A miss: `logical`, in host row `hs`, takes the slot of the victim. -/
def swapIn (needed : ℕ → Bool) (logical hs victimSlot : ℕ) : Lru J R :=
  let victimId := s.slotToId victimSlot
  let swapped := fun j => s.swapRow (s.gpus j) (s.hosts j) victimSlot hs logical
  { s with
    nThrash := if needed victimId then s.nThrash + 1 else s.nThrash
    gpus := fun j => (swapped j).1
    hosts := fun j => (swapped j).2
    idToHostSlot :=
      Function.update (Function.update s.idToHostSlot logical none) victimId (some hs)
    hostSlotToId := Function.update s.hostSlotToId hs victimId
    idToSlot := Function.update (Function.update s.idToSlot victimId none) logical (some victimSlot)
    slotToId := Function.update s.slotToId victimSlot logical
    lru := s.lru.erase victimSlot ++ [victimSlot]
    mapTable := s.mapTable.map fun t =>
      Function.update (Function.update t victimId (-1)) logical victimSlot
    hostMapTable := s.hostMapTable.map fun t =>
      Function.update (Function.update t logical (-1)) victimId hs }

inductive EnsureError
  | placement
  | index
  | noSlots
  | noVictim
  | noHostRow
  deriving DecidableEq

/-- The body of the loop of `ensure`. -/
def ensureOne (batch : List ℕ) (logical : ℤ) : Except EnsureError (Lru J R) :=
  if logical < 0 then .ok s
  else if s.nExperts ≤ logical.toNat then .error .index
  else if s.nRouted ≤ logical.toNat then .ok s
  else
    match s.idToSlot logical.toNat with
    | some slot => .ok { s with lru := s.lru.erase slot ++ [slot] }
    | none =>
      if s.nKeptRouted = 0 then .error .noSlots
      else
        match s.pickVictim (s.needed batch) logical.toNat with
        | none => .error .noVictim
        | some victimSlot =>
          match s.idToHostSlot logical.toNat with
          | none => .error .noHostRow
          | some hs => .ok (s.swapIn (s.needed batch) logical.toNat hs victimSlot)

/-- The loop of `ensure`: the state it ends in, and the error if it raises. -/
def ensureLoop (batch : List ℕ) : Lru J R → List ℤ → Lru J R × Option EnsureError
  | s, [] => (s, none)
  | s, logical :: ids =>
    match s.ensureOne batch logical with
    | .error e => (s, some e)
    | .ok s' => ensureLoop batch s' ids

/-- The routed ids of a batch. -/
def batchOf (ids : List ℤ) : List ℕ :=
  (ids.filter fun i => 0 ≤ i ∧ i.toNat < s.nRouted).map Int.toNat

def ensure (ids : List ℤ) : Lru J R × Option EnsureError :=
  if ¬ s.applied ∧ s.keptIds ≠ s.tailKept then (s, some .placement)
  else ensureLoop (s.batchOf ids) s ids

end Lru

end Sglang.Experts
