import StreamEP.Kv.LoaderRun
import StreamEP.Lib.Scatter

/-!
# What an install writes

The bytes of a load, from the store to the cache. A worker that has fetched the objects of a job
leaves its staging buffer alone until the completion is installed, so `install` reads the objects
of that job. The buffer is read as `[n_pages, 2, 16, num_layers, kv_heads, head_dim]`, permuted,
and scattered layer by layer into blocks that were free; every entry arrives at the block of its
page and at the offset of its token, and no other block changes.

## Main results

* `KvLoader.scatter_apply`, `KvLoader.scatter_of_notMem` — the scatters, entry by entry
* `KvLoader.install_exact`
-/

namespace StreamEP

namespace KvLoader

variable {L : MooncakeKVLoader} {A : KVLoadJob → Prop} {s s' : State} {w : ℕ}

/-! ### Keys and slots -/

/-- The key of the K object (0) or the V object (1) of a page. -/
def objectKey (digest : List UInt8) : ℕ → String
  | 0 => hex digest ++ "_0_k"
  | _ => hex digest ++ "_0_v"

theorem getElem?_flatMap_pair {α β : Type} (f : α → ℕ → β) (l : List α) {p kv : ℕ} {a : α}
    (ha : l[p]? = some a) (hkv : kv < 2) :
    (l.flatMap fun a => [f a 0, f a 1])[p * 2 + kv]? = some (f a kv) := by
  have hrows : ∀ row ∈ l.map fun a => [f a 0, f a 1], row.length = 2 := by
    intro row hrow
    obtain ⟨b, -, rfl⟩ := List.mem_map.mp hrow
    rfl
  rw [List.flatMap_def, Scatter.getElem?_flatten hrows hkv (by rw [List.getElem?_map, ha]; rfl)]
  rcases Nat.le_one_iff_eq_zero_or_eq_one.mp (Nat.lt_succ_iff.mp hkv) with rfl | rfl <;> rfl

theorem getElem?_ptrs {n p kv : ℕ} (hp : p < n) (hkv : kv < 2) :
    (L.ptrs n)[p * 2 + kv]? = some ((p * 2 + kv) * L.objBytes) := by
  have hget := getElem?_flatMap_pair (fun p kv => (2 * p + kv) * L.objBytes) (List.range n)
    (List.getElem?_range hp) hkv
  rw [Nat.mul_comm 2 p] at hget
  exact hget

theorem length_chainDigests {sha256 : List UInt8 → List UInt8} {digest : List UInt8}
    {pages : List (List ℤ)} {ds : List (List UInt8)}
    (h : chainDigests sha256 digest pages = .ok ds) : ds.length = pages.length := by
  induction pages generalizing digest ds with
  | nil =>
    obtain rfl := Except.ok.inj h
    rfl
  | cons page pages ih =>
    obtain ⟨bytes, -, htail⟩ := bind_eq_ok.mp h
    obtain ⟨rest, hrest, hds⟩ := bind_eq_ok.mp htail
    rw [← Except.ok.inj hds, List.length_cons, List.length_cons, ih hrest]

theorem length_pageChainHashes {sha256 : List UInt8 → List UInt8} {job : KVLoadJob}
    {ds : List (List UInt8)} (h : pageChainHashes sha256 job.promptTokenIds = .ok ds) :
    ds.length = job.nPages := by
  rw [length_chainDigests h, fullPages, List.length_map, List.length_range, KVLoadJob.nPages]

theorem keys_eq_ok {sha256 : List UInt8 → List UInt8} {job : KVLoadJob} {ks : List String} :
    keys sha256 job = .ok ks ↔ ∃ ds, pageChainHashes sha256 job.promptTokenIds = .ok ds ∧
      (ds.flatMap fun d => [objectKey d 0, objectKey d 1]) = ks := by
  rw [keys, bind_eq_ok]
  exact exists_congr fun ds => and_congr_right fun _ => ⟨Except.ok.inj, congrArg _⟩

/-! ### What a worker has fetched -/

/-- A store that fills what it reports as read in full: it answers for every key, and a code that
is the size of an object says that the object is at the address. -/
def MooncakeKVLoader.Faithful (L : MooncakeKVLoader) (objects : String → ℕ → UInt8) : Prop :=
  ∀ ks ptrs sizes codes mem mem', L.batchGetInto ks ptrs sizes (.codes codes) mem mem' →
    codes.length = ks.length ∧
      ∀ (k : ℕ) (key : String) (ptr : ℕ), ks[k]? = some key → ptrs[k]? = some ptr →
        codes[k]? = some (L.objBytes : ℤ) → ∀ i < L.objBytes, mem' (ptr + i) = objects key i

/-- The buffer has the objects of the job: slot `2 p` the K object of page `p`, and slot
`2 p + 1` the V object. -/
def Holds (L : MooncakeKVLoader) (objects : String → ℕ → UInt8) (job : KVLoadJob)
    (mem : ℕ → UInt8) : Prop :=
  ∃ ds, pageChainHashes L.sha256 job.promptTokenIds = .ok ds ∧
    ∀ (p : ℕ) (digest : List UInt8), ds[p]? = some digest → ∀ kv < 2, ∀ i < L.objBytes,
      mem ((p * 2 + kv) * L.objBytes + i) = objects (objectKey digest kv) i

variable {objects : String → ℕ → UInt8}

theorem holds_of_full (hstore : L.Faithful objects) {job : KVLoadJob} {ks : List String}
    (hks : keys L.sha256 job = .ok ks) {r : Fetched} {mem mem' : ℕ → UInt8}
    (hget : L.batchGetInto ks (L.ptrs job.nPages) (L.sizes job.nPages) r mem mem')
    (hfull : r.full L.objBytes ks = true) : Holds L objects job mem' := by
  obtain ⟨ds, hds, rfl⟩ := keys_eq_ok.mp hks
  refine ⟨ds, hds, fun p digest hdigest kv hkv => ?_⟩
  cases r with
  | raised => cases hfull
  | codes cs =>
    obtain ⟨hlen, hslots⟩ := hstore _ _ _ _ _ _ hget
    have hp : p < job.nPages := by
      rw [← length_pageChainHashes hds]
      exact (List.getElem?_eq_some_iff.mp hdigest).1
    have hkey := getElem?_flatMap_pair objectKey ds hdigest hkv
    refine hslots _ _ _ hkey (getElem?_ptrs hp hkv) ?_
    -- the key has a code, and no code is bad
    have hlt := (List.getElem?_eq_some_iff.mp hkey).1
    rw [← hlen] at hlt
    have hzip : ((ds.flatMap fun d => [objectKey d 0, objectKey d 1]).zip cs)[p * 2 + kv]? =
        some (objectKey digest kv, cs[p * 2 + kv]) :=
      List.getElem?_zip_eq_some.mpr ⟨hkey, List.getElem?_eq_getElem hlt⟩
    have hgood := List.all_eq_true.mp hfull _ (List.mem_of_getElem? hzip)
    rw [List.getElem?_eq_getElem hlt]
    exact congrArg some (by simpa using hgood)

/-- What the workers and the completions have. -/
structure Loaded (L : MooncakeKVLoader) (objects : String → ℕ → UInt8) (s : State) : Prop where
  /-- A worker fetches the objects of its job. -/
  fetching : ∀ w job ks attempt, s.worker w = .fetching job ks attempt →
    keys L.sha256 job.toKVLoadJob = .ok ks
  reporting : ∀ w job, s.worker w = .reporting job true →
    Holds L objects job.toKVLoadJob (s.staging w)
  /-- A completion of a success was queued with them. -/
  completed : ∀ c ∈ s.outstanding, c.done.ok = true → Holds L objects c.done.job c.bytes

theorem startJob_fetching {job job' : Job} {ks : List String} {attempt : ℕ}
    (h : L.startJob job = .fetching job' ks attempt) :
    keys L.sha256 job'.toKVLoadJob = .ok ks := by
  unfold MooncakeKVLoader.startJob at h
  split_ifs at h
  split at h
  · cases h
  · rename_i hks
    cases h
    exact hks

theorem startJob_reporting {job job' : Job} {ok : Bool}
    (h : L.startJob job = .reporting job' ok) : job'.nPages = 0 := by
  unfold MooncakeKVLoader.startJob at h
  split_ifs at h with hpages
  · cases h
    exact hpages
  · split at h <;> cases h

theorem holds_of_nPages_eq_zero {job : KVLoadJob} (h : job.nPages = 0) (mem : ℕ → UInt8) :
    Holds L objects job mem := by
  refine ⟨[], ?_, fun p digest hdigest => by simp at hdigest⟩
  rw [pageChainHashes, fullPages, ← KVLoadJob.nPages, h]
  rfl

theorem afterFetch_fetching {job job' : Job} {ks ks' : List String} {attempt attempt' : ℕ}
    {r : Fetched} (h : L.afterFetch job ks attempt r = .fetching job' ks' attempt') :
    job' = job ∧ ks' = ks := by
  unfold MooncakeKVLoader.afterFetch at h
  split_ifs at h
  cases h
  exact ⟨rfl, rfl⟩

theorem afterFetch_reporting {job job' : Job} {ks : List String} {attempt : ℕ} {r : Fetched}
    (h : L.afterFetch job ks attempt r = .reporting job' true) :
    job' = job ∧ r.full L.objBytes ks = true := by
  unfold MooncakeKVLoader.afterFetch at h
  split_ifs at h with hfull
  · cases h
    exact ⟨rfl, hfull⟩
  · cases h

theorem Loaded.setWorker (h : Loaded L objects s) (x : Worker) (mem : ℕ → UInt8)
    (hfetching : ∀ job ks attempt, x = .fetching job ks attempt →
      keys L.sha256 job.toKVLoadJob = .ok ks)
    (hreporting : ∀ job, x = .reporting job true → Holds L objects job.toKVLoadJob mem)
    (hworker : s'.worker = Function.update s.worker w x)
    (hstaging : s'.staging = Function.update s.staging w mem)
    (houtstanding : ∀ c ∈ s'.outstanding, c.done.ok = true → Holds L objects c.done.job c.bytes) :
    Loaded L objects s' where
  fetching v job ks attempt hv := by
    rw [hworker] at hv
    by_cases hvw : v = w
    · rw [hvw, Function.update_self] at hv
      exact hfetching job ks attempt hv
    · rw [Function.update_of_ne hvw] at hv
      exact h.fetching v job ks attempt hv
  reporting v job hv := by
    rw [hworker] at hv
    rw [hstaging]
    by_cases hvw : v = w
    · rw [hvw, Function.update_self] at hv
      rw [hvw, Function.update_self]
      exact hreporting job hv
    · rw [Function.update_of_ne hvw] at hv
      rw [Function.update_of_ne hvw]
      exact h.reporting v job hv
  completed := houtstanding

theorem Loaded.workerStep (hstore : L.Faithful objects) (h : Loaded L objects s)
    (hstep : WorkerStep L w s s') : Loaded L objects s' := by
  have hsame : s.staging = Function.update s.staging w (s.staging w) :=
    (Function.update_eq_self w s.staging).symm
  cases hstep with
  | take hidle hjobs =>
    refine h.setWorker _ _ (fun _ _ _ => startJob_fetching) (fun job hjob => ?_) rfl hsame
      h.completed
    exact holds_of_nPages_eq_zero (startJob_reporting hjob) _
  | @fetch job ks attempt r mem hfetching hget =>
    have hks := h.fetching w job ks attempt hfetching
    refine h.setWorker _ _ (fun job' ks' attempt' hx => ?_) (fun job' hx => ?_) rfl rfl
      h.completed
    · obtain ⟨rfl, rfl⟩ := afterFetch_fetching hx
      exact hks
    · obtain ⟨rfl, hfull⟩ := afterFetch_reporting hx
      exact holds_of_full hstore hks hget hfull
  | @report job ok hreporting =>
    refine h.setWorker (.waiting s.nextEvent) _ (by simp) (by simp) rfl hsame fun c hc hok => ?_
    rw [State.outstanding, ← List.append_assoc, List.mem_append, List.mem_singleton] at hc
    rcases hc with hc | rfl
    · exact h.completed c hc hok
    · obtain rfl : ok = true := hok
      exact h.reporting w job hreporting
  | resume hwaiting hreleased =>
    exact h.setWorker .idle _ (by simp) (by simp) rfl hsame h.completed

theorem Loaded.step (hstore : L.Faithful objects) (h : Loaded L objects s)
    (hstep : Step L A s s') : Loaded L objects s' := by
  cases hstep with
  | submit job hjob => exact ⟨h.fetching, h.reporting, h.completed⟩
  | worker hw hstep => exact h.workerStep hstore hstep
  | engine hstep =>
    cases hstep with
    | poll hpolled hdone =>
      refine ⟨h.fetching, h.reporting, ?_⟩
      rw [outstanding_poll hpolled]
      exact h.completed
    | install hpolled hkv =>
      refine ⟨h.fetching, h.reporting, fun c' hc' => h.completed c' ?_⟩
      rw [State.outstanding, hpolled]
      exact List.mem_cons_of_mem _ hc'
  | serve hsize hpool => exact ⟨h.fetching, h.reporting, h.completed⟩

theorem Loaded.of_run (hstore : L.Faithful objects) (h : Reachable L A s) : Loaded L objects s :=
  h.invariant (fun _ _ _ _ => ⟨nofun, nofun, nofun⟩) fun _ _ hstep hs => hs.step hstore hstep

/-! ### The layout -/

/-- The entry of an object at a token, a layer, a head and a dimension. -/
def Config.objectEntry (cfg : Config) (object : ℕ → UInt8) (t l h d : ℕ) : BFloat16 :=
  Tensor.view [pageTokens, cfg.numLayers, cfg.kvHeads, cfg.headDim] (bfloat16View object)
    [t, l, h, d]

theorem objBytes_eq (cfg : Config) :
    cfg.objBytes = 2 * [pageTokens, cfg.numLayers, cfg.kvHeads, cfg.headDim].prod := by
  rw [Config.objBytes]
  simp only [List.prod_cons, List.prod_nil]
  ring

/-- **A staged entry** is the entry of the object in its slot. -/
theorem staged_apply {cfg : Config} {mem object : ℕ → UInt8} {n p kv t l h d : ℕ}
    (hobject : ∀ i < cfg.objBytes, mem ((p * 2 + kv) * cfg.objBytes + i) = object i)
    (ht : t < pageTokens) (hl : l < cfg.numLayers) (hh : h < cfg.kvHeads) (hd : d < cfg.headDim) :
    cfg.staged n mem [kv, l, p, t, h, d] = cfg.objectEntry object t l h d := by
  have hentry : Tensor.rowMajor [pageTokens, cfg.numLayers, cfg.kvHeads, cfg.headDim] [t, l, h, d] <
      [pageTokens, cfg.numLayers, cfg.kvHeads, cfg.headDim].prod :=
    Tensor.rowMajor_lt (.cons ht (.cons hl (.cons hh (.cons hd .nil))))
  have haddress := @Tensor.rowMajor_append [n, 2] [p, kv] rfl
    [pageTokens, cfg.numLayers, cfg.kvHeads, cfg.headDim] [t, l, h, d] rfl
  have hslot : Tensor.rowMajor [n, 2] [p, kv] = p * 2 + kv := by
    simp [Tensor.rowMajor, Tensor.address]
  change bfloat16View mem (Tensor.rowMajor ([n, 2] ++
    [pageTokens, cfg.numLayers, cfg.kvHeads, cfg.headDim]) ([p, kv] ++ [t, l, h, d])) = _
  rw [haddress, hslot, Config.objectEntry, Tensor.view]
  generalize Tensor.rowMajor [pageTokens, cfg.numLayers, cfg.kvHeads, cfg.headDim] [t, l, h, d] = j
    at hentry
  rw [objBytes_eq] at hobject
  generalize [pageTokens, cfg.numLayers, cfg.kvHeads, cfg.headDim].prod = size at hentry hobject
  have hfirst := hobject (2 * j) (by omega)
  have hsecond := hobject (2 * j + 1) (by omega)
  rw [show (p * 2 + kv) * (2 * size) + 2 * j = 2 * ((p * 2 + kv) * size + j) by ring] at hfirst
  rw [show (p * 2 + kv) * (2 * size) + (2 * j + 1) = 2 * ((p * 2 + kv) * size + j) + 1 by ring]
    at hsecond
  exact Prod.ext hfirst hsecond

theorem indexCopyAt_self (x src : Tensor BFloat16) (i : ℕ) (index : List ℕ) (idx : List ℕ) :
    indexCopyAt x i index src (i :: idx) =
      Tensor.indexCopy (fun idx => x (i :: idx)) index src idx := if_pos rfl

theorem indexCopyAt_of_ne (x src : Tensor BFloat16) {i k : ℕ} (h : k ≠ i) (index idx : List ℕ) :
    indexCopyAt x i index src (k :: idx) = x (k :: idx) := if_neg h

theorem scatterLayer_apply {g layerBuf : Tensor BFloat16} {blocks : List ℕ} (hnodup : blocks.Nodup)
    {p b kv : ℕ} (hb : blocks[p]? = some b) (hkv : kv < 2) (l : ℕ) (rest : List ℕ) :
    scatterLayer g blocks l layerBuf (kv :: b :: rest) = g (kv :: l :: p :: rest) := by
  rcases Nat.le_one_iff_eq_zero_or_eq_one.mp (Nat.lt_succ_iff.mp hkv) with rfl | rfl
  · rw [scatterLayer, indexCopyAt_of_ne _ _ Nat.zero_ne_one, indexCopyAt_self,
      Tensor.indexCopy_of_getElem? hnodup hb]
  · rw [scatterLayer, indexCopyAt_self, Tensor.indexCopy_of_getElem? hnodup hb]

theorem indexCopyAt_of_notMem (x src : Tensor BFloat16) (i k : ℕ) {index : List ℕ} {b : ℕ}
    (hb : b ∉ index) (rest : List ℕ) :
    indexCopyAt x i index src (k :: b :: rest) = x (k :: b :: rest) := by
  by_cases hk : k = i
  · rw [hk, indexCopyAt_self, Tensor.indexCopy_of_notMem hb]
  · exact indexCopyAt_of_ne x src hk index _

theorem scatter_apply {cfg : Config} {mem : ℕ → UInt8} {n : ℕ} {blocks : List ℕ}
    (hnodup : blocks.Nodup) {p b kv l : ℕ} (hb : blocks[p]? = some b) (hkv : kv < 2)
    (hl : l < cfg.numLayers) (kvPool : ℕ → Tensor BFloat16) (rest : List ℕ) :
    cfg.scatter mem n blocks kvPool l (kv :: b :: rest) =
      cfg.staged n mem (kv :: l :: p :: rest) := by
  rw [Config.scatter, Tensor.foldl_update_range, if_pos hl, scatterLayer_apply hnodup hb hkv]

theorem scatter_of_notMem (cfg : Config) (mem : ℕ → UInt8) (n : ℕ) {blocks : List ℕ} {b : ℕ}
    (hb : b ∉ blocks) (kvPool : ℕ → Tensor BFloat16) (l kv : ℕ) (rest : List ℕ) :
    cfg.scatter mem n blocks kvPool l (kv :: b :: rest) = kvPool l (kv :: b :: rest) := by
  rw [Config.scatter, Tensor.foldl_update_range]
  split_ifs
  · rw [scatterLayer, indexCopyAt_of_notMem _ _ _ _ hb, indexCopyAt_of_notMem _ _ _ _ hb]
  · rfl

/-! ### The blocks -/

/-- The block manager hands out blocks of the size of a page, each once. -/
structure BlocksOk (s : State) : Prop where
  blockSize : s.mgr.blockSize = pageTokens
  pool : s.mgr.pool.Nodup

theorem moves_install (d : KVLoadDone) (deviceOk : Bool) (mgr : BlockManager) :
    mgr.Moves (install deviceOk d mgr).mgr := by
  by_cases h : Allocates mgr d
  · rw [mgr_install_of_allocates h]
    exact BlockManager.moves_allocate (BlockManager.hasSeqBlockList_eq_false.mp h.2.1)
  · rw [install_of_not_allocates h]
    exact .refl mgr

theorem BlocksOk.step (h : BlocksOk s) (hstep : Step L A s s') : BlocksOk s' := by
  cases hstep with
  | submit job hjob => exact ⟨h.blockSize, h.pool⟩
  | worker hw hstep => cases hstep <;> exact ⟨h.blockSize, h.pool⟩
  | engine hstep =>
    cases hstep with
    | poll hpolled hdone => exact ⟨h.blockSize, h.pool⟩
    | @install deviceOk c rest kvPool hpolled hkv =>
      have hmoves := moves_install c.done deviceOk s.mgr
      have hmgr : (s.drain deviceOk c rest kvPool).mgr = (install deviceOk c.done s.mgr).mgr := by
        simp only [State.drain, snd_drainOne]
      exact ⟨by rw [hmgr, hmoves.blockSize, h.blockSize], by rw [hmgr, hmoves.pool]; exact h.pool⟩
  | serve hsize hpool => exact ⟨hsize.trans h.blockSize, Multiset.nodup_of_le hpool h.pool⟩

theorem BlocksOk.of_run (h : Reachable L A s) : BlocksOk s := by
  refine h.invariant (fun staging numBlocks reserved kvPool => ⟨rfl, ?_⟩) fun _ _ hstep hs =>
    hs.step hstep
  rw [State.init, BlockManager.pool_create]
  exact Multiset.nodup_range _

/-! ### The result -/

/-- What an install has done for a job of `n` pages whose pages went to `blocks`. -/
structure InstalledExactly (L : MooncakeKVLoader) (objects : String → ℕ → UInt8)
    (job : KVLoadJob) (s s' : State) (blocks : List ℕ) : Prop where
  length : blocks.length = job.nPages
  nodup : blocks.Nodup
  new : s.mgr.blockTables.lookup job.reqId = none
  owned : s'.mgr.blockTables.lookup job.reqId = some blocks
  /-- The blocks were free, and no request had one. -/
  fresh : ∀ b ∈ blocks, b ∈ s.mgr.freeBlocks ∧
    ∀ r l, s.mgr.blockTables.lookup r = some l → b ∉ l
  /-- Every entry comes from the object of its page. -/
  entries : ∃ ds, pageChainHashes L.sha256 job.promptTokenIds = .ok ds ∧ ds.length = job.nPages ∧
    ∀ l < L.numLayers, ∀ pos < 16 * job.nPages, ∀ b digest, blocks[pos / 16]? = some b →
      ds[pos / 16]? = some digest → ∀ kv < 2, ∀ h < L.kvHeads, ∀ d < L.headDim,
        s'.kvPool l [kv, b, pos % 16, h, d] =
          L.objectEntry (objects (objectKey digest kv)) (pos % 16) l h d
  others : ∀ l kv b, b ∉ blocks → ∀ rest,
    s'.kvPool l (kv :: b :: rest) = s.kvPool l (kv :: b :: rest)

theorem install_of_result (h : BlocksOk s) {d : KVLoadDone} {deviceOk : Bool}
    (hresult : (install deviceOk d s.mgr).result = true) :
    Allocates s.mgr d ∧ d.nPages ≤ s.mgr.freeBlocks.length ∧
      install deviceOk d s.mgr =
        ⟨true, allocated s.mgr d, s.mgr.freeBlocks.take d.nPages, true⟩ := by
  have halloc : Allocates s.mgr d := by
    by_contra hnot
    rw [install_of_not_allocates hnot] at hresult
    cases hresult
  have hfree := halloc.2.2
  rw [h.blockSize, blocksNeeded_pages, BlockManager.numFreeBlocks] at hfree
  refine ⟨halloc, by omega, ?_⟩
  rw [install_of_allocates_pages h.blockSize halloc] at hresult ⊢
  split_ifs at hresult ⊢
  rfl

theorem notMem_of_free {mgr : BlockManager} (hnodup : mgr.pool.Nodup) {b r : ℕ} {l : List ℕ}
    (hb : b ∈ mgr.freeBlocks) (hl : mgr.blockTables.lookup r = some l) : b ∉ l := by
  intro hmem
  rw [BlockManager.pool, ← tableSum_erase _ hl, Multiset.nodup_add] at hnodup
  have hdisj := hnodup.2.2
  rw [Multiset.disjoint_add_right] at hdisj
  exact Multiset.disjoint_left.mp hdisj.1 (Multiset.mem_coe.mpr hb) (Multiset.mem_coe.mpr hmem)

theorem nodup_freeBlocks {mgr : BlockManager} (hnodup : mgr.pool.Nodup) :
    mgr.freeBlocks.Nodup := by
  rw [BlockManager.pool, Multiset.nodup_add] at hnodup
  exact Multiset.coe_nodup.mp hnodup.1

/-- **An install writes what was fetched for its job.** In every state of every run the completion
that is installed next has its worker waiting for it, with the buffer as it was when the fetch for
this job ended; if the fetch was complete the buffer holds the objects of the job; and if the
install succeeds they are in the cache, in new blocks of the request, and nowhere else. -/
theorem install_exact (hstore : L.Faithful objects) (hs : Reachable L A s) {c : Completion}
    {rest : List Completion} (hpolled : s.polled = c :: rest) (deviceOk : Bool) :
    Awaited L s c ∧
      (c.done.ok = true → Holds L objects c.done.job (s.staging c.done.worker)) ∧
      ((install deviceOk c.done s.mgr).result = true →
        InstalledExactly L objects c.done.job s
          (s.drain deviceOk c rest (L.scatter (s.staging c.done.worker) c.done.nPages
            (install deviceOk c.done s.mgr).blocks s.kvPool))
          (install deviceOk c.done s.mgr).blocks) := by
  have hmem : c ∈ s.outstanding := by
    rw [State.outstanding, hpolled]
    exact List.mem_cons_self
  have hawaited := (Protocol.of_run hs).awaited c hmem
  have hholds : c.done.ok = true → Holds L objects c.done.job (s.staging c.done.worker) := by
    intro hok
    rw [hawaited.bytes]
    exact (Loaded.of_run hstore hs).completed c hmem hok
  refine ⟨hawaited, hholds, fun hresult => ?_⟩
  have hblocks := BlocksOk.of_run hs
  obtain ⟨halloc, hfree, hinstall⟩ := install_of_result hblocks hresult
  have hnodup : (s.mgr.freeBlocks.take c.done.nPages).Nodup :=
    (nodup_freeBlocks hblocks.pool).sublist (List.take_sublist _ _)
  obtain ⟨ds, hds, hslots⟩ := hholds halloc.1
  rw [hinstall]
  constructor
  · rw [List.length_take, Nat.min_eq_left hfree, hawaited.nPages]
  · exact hnodup
  · exact BlockManager.hasSeqBlockList_eq_false.mp halloc.2.1
  · simp only [State.drain, snd_drainOne, hinstall]
    rw [allocated, hblocks.blockSize, blocksNeeded_pages]
    exact AList.lookup_insert _
  · intro b hb
    have hbfree := List.mem_of_mem_take hb
    exact ⟨hbfree, fun r l hl => notMem_of_free hblocks.pool hbfree hl⟩
  · refine ⟨ds, hds, length_pageChainHashes hds, ?_⟩
    intro l hl pos hpos b digest hb hdigest kv hkv h hh d hd
    have hentry := staged_apply (n := c.done.nPages) (hslots _ _ hdigest kv hkv)
      (Nat.mod_lt pos (by decide : 0 < 16)) hl hh hd
    exact (scatter_apply hnodup hb hkv hl _ _).trans hentry
  · intro l kv b hb rest'
    exact scatter_of_notMem _ _ _ hb _ _ _ _

/-- The objects of a store for one page. -/
def twoObjects (key : String) (i : ℕ) : UInt8 :=
  if key = "_0_k" then UInt8.ofNat i else UInt8.ofNat (100 + i)

/-- A loader for one page, with a store that raises or fills what it reports as read in full. -/
def twoObjectLoader : MooncakeKVLoader where
  numLayers := 1
  kvHeads := 1
  headDim := 1
  maxPromptTokens := 16
  numWorkers := 1
  pos := Nat.one_pos
  worker := Nat.one_pos
  sha256 := fun _ => []
  batchGetInto := fun ks ptrs _ r _ mem' => r = .raised ∨ ∃ codes, r = .codes codes ∧
    codes.length = ks.length ∧ ∀ (k : ℕ) (key : String) (ptr : ℕ), ks[k]? = some key →
      ptrs[k]? = some ptr → codes[k]? = some 32 → ∀ i < 32, mem' (ptr + i) = twoObjects key i
  returns := fun _ _ _ mem => ⟨.raised, mem, .inl rfl⟩

theorem faithful_twoObjectLoader : twoObjectLoader.Faithful twoObjects := by
  rintro ks ptrs sizes codes mem mem' (hraised | ⟨codes', hcodes, hcontract⟩)
  · cases hraised
  · cases hcodes
    exact hcontract

def pageJob : Job := ⟨⟨3, List.replicate 16 1, ⟨3, 16⟩⟩, 0⟩

def pageBytes (i : ℕ) : UInt8 :=
  if i < 32 then twoObjects "_0_k" i else twoObjects "_0_v" (i - 32)

theorem fetch_pageBytes : twoObjectLoader.batchGetInto ["_0_k", "_0_v"]
    (twoObjectLoader.ptrs pageJob.nPages) (twoObjectLoader.sizes pageJob.nPages)
    (.codes [32, 32]) (fun _ => 0) pageBytes := by
  refine .inr ⟨_, rfl, rfl, fun k key ptr hkey hptr _ i hi => ?_⟩
  match k with
  | 0 =>
    obtain rfl := Option.some.inj hkey
    obtain rfl : 0 = ptr := Option.some.inj hptr
    rw [Nat.zero_add, pageBytes, if_pos hi]
  | 1 =>
    obtain rfl := Option.some.inj hkey
    obtain rfl : 32 = ptr := Option.some.inj hptr
    rw [pageBytes, if_neg (by omega), Nat.add_sub_cancel_left]
  | k + 2 => cases hkey

theorem exists_polled {job : Job} (hjob : A job.toKVLoadJob) (hticket : job.ticket = 0)
    {ks : List String} (hstart : L.startJob job = .fetching job ks 0) {r : Fetched}
    {mem : ℕ → UInt8}
    (hget : L.batchGetInto ks (L.ptrs job.nPages) (L.sizes job.nPages) r (fun _ => 0) mem)
    (hfull : L.afterFetch job ks 0 r = .reporting job true) (numBlocks : ℕ) :
    ∃ s, Reachable L A s ∧ s.mgr = .create pageTokens numBlocks 0 ∧
      s.polled = [⟨⟨job.toKVLoadJob, 0, job.nPages, true⟩, 0, 0, mem⟩] := by
  obtain ⟨job, ticket⟩ := job
  obtain rfl : ticket = 0 := hticket
  have hsubmit := (Reachable.init (L := L) (A := A) (fun _ _ => 0) numBlocks 0
    fun _ _ => (0, 0)).step (.submit job hjob)
  have htake := hsubmit.step (.worker L.worker (.take rfl rfl))
  simp only [State.init, hstart] at htake
  have hfetch := htake.step (.worker L.worker (.fetch rfl hget))
  simp only [hfull, Function.update_idem] at hfetch
  have hreport := hfetch.step (.worker L.worker (.report rfl))
  simp only [Function.update_self, Function.update_idem, List.nil_append] at hreport
  exact ⟨_, hreport.step (.engine (.poll rfl (List.cons_ne_nil _ _))), rfl, rfl⟩

theorem install_exact_page : ∃ s c, Reachable twoObjectLoader (fun _ => True) s ∧
    s.polled = [c] ∧ (install true c.done s.mgr).result = true ∧
    InstalledExactly twoObjectLoader twoObjects c.done.job s
      (s.drain true c [] (twoObjectLoader.scatter (s.staging c.done.worker) c.done.nPages
        (install true c.done s.mgr).blocks s.kvPool)) (install true c.done s.mgr).blocks := by
  obtain ⟨s, hs, hmgr, hpolled⟩ := @exists_polled twoObjectLoader (fun _ => True) pageJob trivial
    rfl _ rfl _ _ fetch_pageBytes rfl 4
  have hresult : (install true ⟨pageJob.toKVLoadJob, 0, pageJob.nPages, true⟩ s.mgr).result =
      true := by
    rw [hmgr]
    rfl
  exact ⟨s, _, hs, hpolled, hresult,
    (install_exact faithful_twoObjectLoader hs hpolled true).2.2 hresult⟩

end KvLoader

end StreamEP
