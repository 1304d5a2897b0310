import StreamEP.Kv.Atomicity

/-!
# Loading the cache of a prompt

`disagmoe/kv_loader.py`: a decode-only engine gets the cache of a prompt from a store. Worker
threads fetch the pages of a prompt into a staging buffer of their own, and the engine loop
allocates blocks, copies the staged pages into them and admits the request
(`_drain_kv_loads` of `disagmoe/frontend/engine.py`).

A page is 16 tokens and has a K and a V object, each `bf16 [16][num_layers][kv_heads][head_dim]`.
The hash `sha256` and the store are parameters. What the device does in `install` may raise, which
is an argument here.

## Main results

* `KvLoader.reject_givenBack_iff` — when a rejection gives everything back
-/

namespace StreamEP

def pageTokens : ℕ := 16

/-! ### The keys of a prompt -/

/-- A number as four bytes, lowest first. -/
def u32le (x : ℕ) : List UInt8 :=
  [UInt8.ofNat x, UInt8.ofNat (x / 256), UInt8.ofNat (x / 256 ^ 2), UInt8.ofNat (x / 256 ^ 3)]

/-- `struct.pack("<nI", *page)`: ids that do not fit 32 bits raise. -/
def structPack (page : List ℤ) : Except String (List UInt8) := do
  ensure (∀ x ∈ page, 0 ≤ x ∧ x < 2 ^ 32) "argument out of range"
  return page.flatMap fun x => u32le x.toNat

def fullPages (tokenIds : List ℤ) : List (List ℤ) :=
  (List.range (tokenIds.length / pageTokens)).map fun p =>
    (tokenIds.drop (p * pageTokens)).take pageTokens

/-- The loop of `page_chain_hashes`, started with the digest of the page before. -/
def chainDigests (sha256 : List UInt8 → List UInt8) :
    List UInt8 → List (List ℤ) → Except String (List (List UInt8))
  | _, [] => .ok []
  | digest, page :: pages => do
    let bytes ← structPack page
    let rest ← chainDigests sha256 (sha256 (digest ++ bytes)) pages
    return sha256 (digest ++ bytes) :: rest

/-- `page_chain_hashes`, before `hex` -/
def pageChainHashes (sha256 : List UInt8 → List UInt8) (tokenIds : List ℤ) :
    Except String (List (List UInt8)) :=
  chainDigests sha256 [] (fullPages tokenIds)

def hex (digest : List UInt8) : String :=
  String.ofList (digest.flatMap fun b =>
    [Nat.digitChar (b.toNat / 16), Nat.digitChar (b.toNat % 16)])

namespace KvLoader

structure Config where
  numLayers : ℕ
  kvHeads : ℕ
  headDim : ℕ
  maxPromptTokens : ℕ
  numWorkers : ℕ
  pos : 0 < numLayers * kvHeads * headDim
  worker : 0 < numWorkers

def Config.objBytes (cfg : Config) : ℕ :=
  pageTokens * cfg.numLayers * cfg.kvHeads * cfg.headDim * 2

def Config.stageBytes (cfg : Config) : ℕ :=
  cfg.maxPromptTokens / pageTokens * 2 * cfg.objBytes

/-- What the loader and the engine read of a `TokenizedRequest`. -/
structure TokenizedRequest where
  reqId : ℕ
  initPrefillLen : ℤ
deriving DecidableEq, Repr

structure KVLoadJob where
  reqId : ℕ
  promptTokenIds : List ℤ
  ctx : TokenizedRequest
deriving DecidableEq, Repr

/-- The number of full pages of the prompt. -/
def KVLoadJob.nPages (job : KVLoadJob) : ℕ := job.promptTokenIds.length / pageTokens

/-- `keys`: the K and the V object of every page. -/
def keys (sha256 : List UInt8 → List UInt8) (job : KVLoadJob) : Except String (List String) := do
  let digests ← pageChainHashes sha256 job.promptTokenIds
  return digests.flatMap fun d => [hex d ++ "_0_k", hex d ++ "_0_v"]

/-- `KVLoadDone`, without its event -/
structure KVLoadDone where
  job : KVLoadJob
  worker : ℕ
  nPages : ℕ
  ok : Bool
deriving DecidableEq, Repr

/-! ### The engine's side -/

open Attempt

def getSeqBlockIds (reqId : ℕ) : Attempt BlockManager (List ℕ) := do
  let s ← get
  match s.blockTables.lookup reqId with
  | none => throw "has_seq_block_list(req_id)"
  | some blocks => return blocks

/-- The body of `install`: the blocks the pages go to, or `none` when the load itself failed.
`deviceOk` says that copying and scattering raise nothing. -/
def installBody (deviceOk : Bool) (d : KVLoadDone) :
    Attempt BlockManager (Option (List ℕ)) := do
  if d.ok = false then return none
  else do
    BlockManager.allocate d.job.reqId (d.nPages * pageTokens)
    if d.nPages = 0 then return some []
    else do
      let blockIds ← getSeqBlockIds d.job.reqId
      check (blockIds.length ≥ d.nPages) "len(block_ids) >= n_pages"
      check (deviceOk = true) "CUDA error"
      return some (blockIds.take d.nPages)

structure Installed where
  result : Bool
  mgr : BlockManager
  /-- The blocks the pages were written to. -/
  blocks : List ℕ
  /-- `released` is set. -/
  released : Bool

/-- `install`: every exception is caught and turned into `False`, and the event is set last. -/
def install (deviceOk : Bool) (d : KVLoadDone) (mgr : BlockManager) : Installed :=
  match (installBody deviceOk d).exec mgr with
  | (.ok (some blocks), mgr') => ⟨true, mgr', blocks, true⟩
  | (.ok none, mgr') => ⟨false, mgr', [], true⟩
  | (.error _, mgr') => ⟨false, mgr', [], true⟩

inductive Outcome
  | admitted
  | rejected
deriving DecidableEq, Repr

/-- One round of `_drain_kv_loads`. -/
def drainOne (deviceOk : Bool) (d : KVLoadDone) (mgr : BlockManager) : Outcome × Installed :=
  let i := install deviceOk d mgr
  if i.result = true ∧ (d.nPages * 16 : ℤ) = d.job.ctx.initPrefillLen then (.admitted, i)
  else (.rejected, i)

/-! ### Rejection -/

/-- The request holds nothing: as many blocks are free as before, the same requests have a list,
and the worker has its staging buffer back. -/
structure GivenBack (mgr : BlockManager) (i : Installed) : Prop where
  free : i.mgr.numFreeBlocks = mgr.numFreeBlocks
  /-- No request has got a list or lost one. -/
  owners : ∀ r, i.mgr.hasSeqBlockList r = mgr.hasSeqBlockList r
  released : i.released = true

variable {mgr : BlockManager} {d : KVLoadDone} {deviceOk : Bool}

theorem released_install (deviceOk : Bool) (d : KVLoadDone) (mgr : BlockManager) :
    (install deviceOk d mgr).released = true := by
  unfold install
  rcases (installBody deviceOk d).exec mgr with ⟨_ | (_ | _), _⟩ <;> rfl

/-- `install` gets as far as taking blocks: the load succeeded, the request has no list, and
enough blocks are free. -/
def Allocates (mgr : BlockManager) (d : KVLoadDone) : Prop :=
  d.ok = true ∧ mgr.hasSeqBlockList d.job.reqId = false ∧
    BlockManager.blocksNeeded mgr.blockSize (d.nPages * pageTokens) + mgr.reservedBlocks ≤
      mgr.numFreeBlocks

/-- The block manager after the allocation in `install`. -/
def allocated (mgr : BlockManager) (d : KVLoadDone) : BlockManager :=
  { mgr with
    freeBlocks := mgr.freeBlocks.drop
      (BlockManager.blocksNeeded mgr.blockSize (d.nPages * pageTokens))
    blockTables := mgr.blockTables.insert d.job.reqId (mgr.freeBlocks.take
      (BlockManager.blocksNeeded mgr.blockSize (d.nPages * pageTokens))) }

theorem Allocates.returns (h : Allocates mgr d) :
    (BlockManager.allocate d.job.reqId (d.nPages * pageTokens)).Returns mgr ()
      (allocated mgr d) :=
  BlockManager.returns_allocate.mpr ⟨BlockManager.hasSeqBlockList_eq_false.mp h.2.1, h.2.2, rfl⟩

theorem install_of_not_allocates (h : ¬Allocates mgr d) :
    install deviceOk d mgr = ⟨false, mgr, [], true⟩ := by
  by_cases hok : d.ok = true
  · have hfails : ∀ t, ¬(BlockManager.allocate d.job.reqId (d.nPages * pageTokens)).Returns
        mgr () t := by
      intro t ht
      obtain ⟨hnone, hfree, -⟩ := BlockManager.returns_allocate.mp ht
      exact h ⟨hok, BlockManager.hasSeqBlockList_eq_false.mpr hnone, hfree⟩
    have htraceless := BlockManager.allocate_traceless d.job.reqId (d.nPages * pageTokens) mgr
    rcases hexec : (BlockManager.allocate d.job.reqId (d.nPages * pageTokens)).exec mgr with
      ⟨e | u, t⟩
    · obtain rfl := htraceless e t hexec
      simp only [install, installBody, hok, Bool.true_eq_false, if_false, exec_bind, hexec]
    · exact absurd hexec (hfails t)
  · simp only [install, installBody, Bool.not_eq_true] at hok ⊢
    simp only [hok, if_true]
    rfl

theorem exec_getSeqBlockIds_allocated (mgr : BlockManager) (d : KVLoadDone) :
    (getSeqBlockIds d.job.reqId).exec (allocated mgr d) =
      (.ok (mgr.freeBlocks.take (BlockManager.blocksNeeded mgr.blockSize
        (d.nPages * pageTokens))), allocated mgr d) := by
  have hlookup : (allocated mgr d).blockTables.lookup d.job.reqId = some (mgr.freeBlocks.take
      (BlockManager.blocksNeeded mgr.blockSize (d.nPages * pageTokens))) :=
    AList.lookup_insert _
  simp only [getSeqBlockIds, exec_bind, exec_get, hlookup, exec_pure]

/-- What `install` does once it has taken blocks: the rest may still fail. -/
theorem install_of_allocates (h : Allocates mgr d) (deviceOk : Bool) :
    install deviceOk d mgr =
      if d.nPages = 0 then ⟨true, allocated mgr d, [], true⟩
      else if d.nPages ≤ (mgr.freeBlocks.take (BlockManager.blocksNeeded mgr.blockSize
          (d.nPages * pageTokens))).length ∧ deviceOk = true then
        ⟨true, allocated mgr d, (mgr.freeBlocks.take (BlockManager.blocksNeeded mgr.blockSize
          (d.nPages * pageTokens))).take d.nPages, true⟩
      else ⟨false, allocated mgr d, [], true⟩ := by
  have hexec : (BlockManager.allocate d.job.reqId (d.nPages * pageTokens)).exec mgr =
      (.ok (), allocated mgr d) := h.returns
  simp only [install, installBody, h.1, Bool.true_eq_false, if_false, exec_bind, hexec]
  by_cases hpages : d.nPages = 0
  · simp only [hpages, if_true, exec_pure]
  · rw [if_neg hpages, if_neg hpages]
    simp only [exec_bind, exec_getSeqBlockIds_allocated]
    by_cases hlen : d.nPages ≤ (mgr.freeBlocks.take (BlockManager.blocksNeeded mgr.blockSize
        (d.nPages * pageTokens))).length
    · rw [exec_check, if_pos hlen]
      cases deviceOk with
      | true =>
        rw [if_pos ⟨hlen, rfl⟩]
        rfl
      | false =>
        rw [if_neg (by simp)]
        rfl
    · rw [exec_check, if_neg hlen, if_neg fun h => hlen h.1]

theorem mgr_install_of_allocates (h : Allocates mgr d) (deviceOk : Bool) :
    (install deviceOk d mgr).mgr = allocated mgr d := by
  rw [install_of_allocates h]
  split_ifs <;> rfl

theorem blocksNeeded_pages (n : ℕ) : BlockManager.blocksNeeded pageTokens (n * pageTokens) = n := by
  rw [BlockManager.blocksNeeded, pageTokens]
  split_ifs <;> omega

theorem install_of_allocates_pages (hbs : mgr.blockSize = pageTokens) (h : Allocates mgr d)
    (deviceOk : Bool) : install deviceOk d mgr =
      if d.nPages = 0 ∨ deviceOk = true then
        ⟨true, allocated mgr d, mgr.freeBlocks.take d.nPages, true⟩
      else ⟨false, allocated mgr d, [], true⟩ := by
  have hfree := h.2.2
  rw [hbs, blocksNeeded_pages, BlockManager.numFreeBlocks] at hfree
  have hlen : d.nPages ≤ (mgr.freeBlocks.take d.nPages).length := by
    rw [List.length_take]
    omega
  rw [install_of_allocates h, hbs, blocksNeeded_pages, List.take_take, Nat.min_self]
  by_cases hpages : d.nPages = 0
  · rw [if_pos hpages, if_pos (.inl hpages), hpages, List.take_zero]
  · rw [if_neg hpages]
    cases deviceOk with
    | true => rw [if_pos ⟨hlen, rfl⟩, if_pos (.inr rfl)]
    | false => rw [if_neg (by simp), if_neg (by simp [hpages])]

theorem outcome_of_allocates (hbs : mgr.blockSize = pageTokens) (h : Allocates mgr d) :
    (drainOne deviceOk d mgr).1 = .rejected ↔
      ¬((d.nPages = 0 ∨ deviceOk = true) ∧ (d.nPages * 16 : ℤ) = d.job.ctx.initPrefillLen) := by
  simp only [drainOne, install_of_allocates_pages hbs h]
  by_cases hdevice : d.nPages = 0 ∨ deviceOk = true
  · by_cases hpages : (d.nPages * 16 : ℤ) = d.job.ctx.initPrefillLen
    · simp [hdevice, hpages]
    · simp [hdevice, hpages]
  · simp [hdevice]

theorem snd_drainOne (deviceOk : Bool) (d : KVLoadDone) (mgr : BlockManager) :
    (drainOne deviceOk d mgr).2 = install deviceOk d mgr := by
  simp only [drainOne]
  split_ifs <;> rfl

theorem not_givenBack_of_allocates (h : Allocates mgr d) :
    ¬GivenBack mgr (install deviceOk d mgr) := by
  intro hback
  have howner := hback.owners d.job.reqId
  have hlookup : (allocated mgr d).blockTables.lookup d.job.reqId = some (mgr.freeBlocks.take
      (BlockManager.blocksNeeded mgr.blockSize (d.nPages * pageTokens))) :=
    AList.lookup_insert _
  rw [mgr_install_of_allocates h, h.2.1, BlockManager.hasSeqBlockList_eq_false, hlookup] at howner
  cases howner

/-- **When a rejected request gives everything back**: the load failed, the request has a list
already, or too few blocks are free, so that `install` takes no blocks. The only other case is
that the request is not rejected. -/
theorem reject_givenBack_iff (hbs : mgr.blockSize = pageTokens) (d : KVLoadDone)
    (deviceOk : Bool) :
    ((drainOne deviceOk d mgr).1 = .rejected → GivenBack mgr (drainOne deviceOk d mgr).2) ↔
      d.ok = false ∨ mgr.hasSeqBlockList d.job.reqId = true ∨
        mgr.numFreeBlocks < d.nPages + mgr.reservedBlocks ∨
        ((d.nPages = 0 ∨ deviceOk = true) ∧
          (d.nPages * 16 : ℤ) = d.job.ctx.initPrefillLen) := by
  rw [snd_drainOne]
  by_cases h : Allocates mgr d
  · rw [outcome_of_allocates hbs h]
    have hok := h.1
    have hnone := h.2.1
    have hfree := h.2.2
    rw [hbs, blocksNeeded_pages] at hfree
    simp only [hok, hnone, Bool.true_eq_false, Bool.false_eq_true, Nat.not_lt.mpr hfree, false_or]
    refine ⟨fun hback => ?_, fun hagree hreject => absurd hagree hreject⟩
    by_contra hreject
    exact not_givenBack_of_allocates h (hback hreject)
  · have hcond := h
    rw [Allocates, hbs, blocksNeeded_pages, not_and_or, not_and_or, Bool.not_eq_true,
      Bool.not_eq_false, Nat.not_le] at hcond
    rw [install_of_not_allocates h]
    refine iff_of_true (fun _ => ⟨rfl, fun _ => rfl, rfl⟩) ?_
    rcases hcond with hok | hhas | hfree
    · exact .inl hok
    · exact .inr (.inl hhas)
    · exact .inr (.inr (.inl hfree))

/-- A prompt of one page for a request that asks for `initPrefillLen` tokens. -/
def onePage (initPrefillLen : ℤ) (ok : Bool) : KVLoadDone where
  job := ⟨3, List.replicate 16 1, ⟨3, initPrefillLen⟩⟩
  worker := 0
  nPages := 1
  ok := ok

theorem reject_givenBack_failed :
    GivenBack (.create 16 4 0) (drainOne true (onePage 16 false) (.create 16 4 0)).2 :=
  (@reject_givenBack_iff (.create 16 4 0) rfl (onePage 16 false) true).mpr (.inl rfl) rfl

/-- A page too few: the request is rejected and keeps a block. -/
theorem reject_keeps_block :
    (drainOne true (onePage 32 true) (.create 16 4 0)).1 = .rejected ∧
      (drainOne true (onePage 32 true) (.create 16 4 0)).2.mgr.numFreeBlocks = 3 ∧
      (drainOne true (onePage 32 true) (.create 16 4 0)).2.mgr.hasSeqBlockList 3 = true ∧
      (BlockManager.create 16 4 0).numFreeBlocks = 4 ∧
      (BlockManager.create 16 4 0).hasSeqBlockList 3 = false := by
  decide

end KvLoader

end StreamEP
