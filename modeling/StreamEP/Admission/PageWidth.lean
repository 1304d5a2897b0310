import StreamEP.Admission.BlockSupply
import StreamEP.Engine.CudaGraph
import StreamEP.Kv.FlashMetadata

/-!
# The width of the block tables

The buffers for block tables have `max_seq_len // block_size` entries per token, both the GDR buffer
of the block manager and the static table of the CUDA graphs. The lists that go into them have as
many entries as the prompt and the passes of a request need, and `put_single_request` of
`disagmoe/frontend/controller.py` takes requests of any length. So tables fit in every run exactly
when only requests of at most that many pages are put. A longer request that is alone on an idle
rank is admitted like any other, and its tables leave their rows once it has grown.

## Main results

* `PageWidth.exists_decoded` — a request that is decoded to completion
* `PageWidth.tablesFit_iff` — when tables fit
* `PageWidth.overrun_default` — a run in which they do not
-/

namespace StreamEP

open Relation Attempt

variable {W : Type}

namespace PageWidth

/-! ### Tables and buffers -/

/-- A table of `pages` columns for the tokens of `m` fits buffers with `width` entries per token. -/
structure TableFits (width : ℕ) (m : BatchMetadata W) (pages : ℕ) (table : List ℤ) : Prop where
  pages_le : pages ≤ width
  /-- The GDR buffer takes the table of a batch that is not too large. -/
  gdr : ∀ maxBatchSizeAttn, 0 < m.numTokens → m.numTokens ≤ maxBatchSizeAttn →
    ∀ buf : GdrBuffer (maxBatchSizeAttn * width), ∃ buf', buf.copyFromHost table = .ok buf'
  /-- The preprocessing for a CUDA graph writes no pages into the next row of the static table. -/
  keepsRows : ∀ {V : Type} (x : GraphBatch V), x.numTokens = m.numTokens → x.numPages = pages →
    KeepsRows width x
  /-- It writes none past the end of a static table that has a row for every token. -/
  inside : ∀ {V : Type} (x : GraphBatch V), x.numTokens = m.numTokens → x.numPages = pages →
    ∀ rows, m.numTokens ≤ rows →
      ∀ y ∈ fusedLaunch 2 x.numTokens (blockTableThread 2 width x), y.1 < rows * width

/-- The table of the batch at hand fits. -/
def TablesFit (maxSeqLen bs : ℕ) (e : KvRun.State W) : Prop :=
  ∀ m lens, e.current = some (m, lens) → ∃ pages table slots,
    e.mgr.blockMgr.prepareBlockTableGdr m lens = .ok (pages, table, slots) ∧
      TableFits (maxSeqLen / bs) m pages table

theorem tableFits_of_le {width pages : ℕ} {m : BatchMetadata W} {table : List ℤ}
    (hpages : pages ≤ width) (hpos : 0 < m.numTokens → 0 < pages)
    (hlen : table.length = m.numTokens * pages) : TableFits width m pages table := by
  constructor
  case pages_le => exact hpages
  case gdr =>
    intro maxBatchSizeAttn htokens hbatch buf
    have hle : table.length ≤ maxBatchSizeAttn * width := hlen ▸ Nat.mul_le_mul hbatch hpages
    have hne : 0 < table.length := hlen ▸ Nat.mul_pos htokens (hpos htokens)
    obtain ⟨buf', hcopy, -⟩ := buf.copyFromHost_eq table hne hle
    exact ⟨buf', hcopy⟩
  case keepsRows =>
    rintro V x htokens rfl
    exact keepsRows_iff.mpr (.inr hpages)
  case inside =>
    rintro V x htokens rfl rows hrows y hy
    obtain ⟨token, htoken, i, hi, rfl⟩ := (mem_blockTable Nat.two_pos).mp hy
    calc token * width + i < token * width + width := Nat.add_lt_add_left (hi.trans_le hpages) _
      _ = (token + 1) * width := (Nat.succ_mul _ _).symm
      _ ≤ rows * width := Nat.mul_le_mul_right _ (htoken.trans_le (htokens ▸ hrows))

/-! ### The lists of a batch -/

variable {bs c : ℕ} {e : KvRun.State W} {m : BatchMetadata W} {lens : List ℤ}

theorem numPages_le {lists : List (List ℕ)} {n : ℕ} (h : ∀ l ∈ lists, l.length ≤ n) :
    BlockManager.numPages lists ≤ n := by
  have hmax : ∀ (xs : List ℕ) (a : ℕ), a ≤ n → (∀ x ∈ xs, x ≤ n) → xs.foldl max a ≤ n := by
    intro xs
    induction xs with
    | nil => exact fun a ha _ => ha
    | cons x xs ih =>
      intro a ha hxs
      refine ih _ (max_le ha (hxs x List.mem_cons_self)) fun y hy => ?_
      exact hxs y (List.mem_cons_of_mem _ hy)
  refine hmax _ 0 (Nat.zero_le n) fun x hx => ?_
  obtain ⟨l, hl, rfl⟩ := List.mem_map.mp hx
  exact h l hl

/-- The table of the batch at hand has a row of `numPages` entries per request. -/
theorem prepareBlockTableGdr_current (hs : KvRun.Inv bs c e) (hbs : 0 < bs)
    (hcur : e.current = some (m, lens)) :
    ∃ lists table slots,
      lists = m.reqIds.map (fun r => (e.mgr.blockMgr.blockTables.lookup r).getD []) ∧
      e.mgr.blockMgr.prepareBlockTableGdr m lens =
        .ok (BlockManager.numPages lists, table, slots) ∧
      table.length = m.numTokens * BlockManager.numPages lists ∧
      (0 < m.numTokens → 0 < BlockManager.numPages lists) := by
  obtain ⟨hholds, hcast⟩ := hs.holds hbs (hs.current m lens hcur)
  have hgdr := hholds.prepareBlockTableGdr_eq
  rw [hcast] at hgdr
  refine ⟨_, _, _, rfl, hgdr, ?_, fun hpos => hholds.numPages_pos hpos⟩
  rw [BlockManager.length_tableRows_flatten, hholds.lists_length]

theorem tablesFit_of_puts {policy : Policy} {cap : List ℕ} {firstLayer maxSeqLen : ℕ}
    (hbs : 0 < bs) {s : Serving.State (ℕ → KvRun.State W)}
    (hrun : BlockSupply.Reaches W policy bs cap firstLayer s)
    (hputs : ∀ item ∈ s.run.puts, 1 ≤ item.outputLen →
      (item.prefillLen + item.outputLen) ⌈/⌉ bs ≤ maxSeqLen / bs) (rank : ℕ) :
    TablesFit maxSeqLen bs (s.engines rank) := by
  intro m lens hcur
  obtain ⟨-, hengines⟩ := BlockSupply.Inv.of_reaches hbs hrun
  obtain ⟨hkv, -, hwithin⟩ := hengines rank
  obtain ⟨lists, table, slots, rfl, hgdr, hlen, hpos⟩ := prepareBlockTableGdr_current hkv hbs hcur
  refine ⟨_, table, slots, hgdr, tableFits_of_le (numPages_le ?_) hpos hlen⟩
  intro l hl
  obtain ⟨r, hr, rfl⟩ := List.mem_map.mp hl
  -- a request of the batch has made a pass, and no more than its output
  obtain ⟨i, hi⟩ := List.mem_iff_getElem?.mp hr
  obtain ⟨p, k, hreq, -⟩ := (hkv.current m lens hcur).get i r hi
  obtain ⟨l, hl, hlength⟩ := hkv.blocks r p (k + 1) hreq
  obtain ⟨item, hitem, -, rfl, hk⟩ := hwithin r p (k + 1) hreq
  have hput : item ∈ s.run.puts := Serving.mem_puts hrun hitem
  rw [hl, Option.getD_some, hlength]
  calc (item.prefillLen + (k + 1)) ⌈/⌉ bs
      ≤ (item.prefillLen + item.outputLen) ⌈/⌉ bs :=
        (gc_smul_ceilDiv hbs).monotone_l (Nat.add_le_add_left hk _)
    _ ≤ maxSeqLen / bs := hputs item hput (by omega)

/-! ### A request that decodes to completion -/

section Decode

variable {policy : Policy} {cap : List ℕ} {firstLayer rank q p o k : ℕ}
  {s : Serving.State (ℕ → KvRun.State W)}

/-- A batch at the first layer of a rank that is not reserved to its last block. -/
theorem exists_pass (hbs : 1 ≤ bs) (hpolicy : policy.CapacityAware cap.length)
    (hrun : BlockSupply.Reaches W policy bs cap firstLayer s) (hrank : rank < cap.length)
    (hload : SchedulerRun.load bs s.running rank < cap.getD rank 0)
    (hbatch : BlockSupply.Batch s.running rank (s.engines rank) m q) :
    ∃ s', BlockSupply.Reaches W policy bs cap firstLayer s' ∧ s'.run = s.run ∧
      s'.running = s.running ∧
      (s'.engines rank).mgr.firstLayer = (s.engines rank).mgr.firstLayer ∧
      (s'.engines rank).reqs = KvRun.countPass (s.engines rank).reqs m ∧
      ∃ lens, (s'.engines rank).current = some (m, lens) := by
  have hspare := BlockSupply.hasSpare_of_load_lt hbs hrun hload hbatch
  obtain ⟨lens, mgr, hok⟩ :=
    ((BlockSupply.succeeds_iff_hasSpare hbs hpolicy hrun hrank).2 m q hbatch).mpr hspare
  have hfirst : mgr.firstLayer = (s.engines rank).mgr.firstLayer := by
    obtain ⟨-, -, -, hfirst, -⟩ := CPUBlockManager.updateBlockTable_first hbatch.layer
      hbatch.first.nodup hbatch.first.numPrefillSeqs hok
    exact hfirst
  refine ⟨_, hrun.tail (.call (.firstLayer hbatch hok) (by simp)), rfl, ?_, ?_, ?_, lens, ?_⟩
  · exact Serving.running_call.trans (List.filter_eq_self.mpr (by simp))
  all_goals simp only [Function.update_self]
  exact hfirst

/-- What `put_single_request` puts for a prompt of `p` tokens and `o` tokens of output. -/
def request (p o : ℕ) : RequestItem := ⟨4, p + o, p, o⟩

/-- Another pass of request `4`. -/
def oneOld : BatchMetadata ℕ where
  batchTag := .attention
  numTokens := 1
  tokenHiddenDim := 1
  layerId := 0
  reqIds := [4]
  expIds := []
  topkWeights := []
  attnDpRanks := []
  initPrefillLens := []
  numPrefillSeqs := some 0
  numPrefillTokens := some 0
  numDecodeTokens := some 1

/-- Request `4` is alone on the rank and has made `k` passes. -/
structure Decoding (p o k : ℕ) (s : Serving.State (ℕ → KvRun.State ℕ)) : Prop where
  puts : s.run.puts = [request p o]
  running : s.running = [(request p o, 0)]
  firstLayer : (s.engines 0).mgr.firstLayer = 0
  reqs : ∀ r, (s.engines 0).reqs r = if r = 4 then some (p, k) else none
  current : ∃ m lens, (s.engines 0).current = some (m, lens) ∧ m.reqIds = [4]

theorem scheduleOne_request (hbs : 0 < bs) (hc : requiredBlocks bs p o ≤ c) (ho : 1 ≤ o) :
    ((DPScheduler.create .max bs [c]).scheduleOne p o).1 = (0 : ℕ) := by
  have hone : 0 < requiredBlocks bs p o := @StashSupply.one_le_required bs hbs (request p o) ho
  rcases (DPScheduler.create .max bs [c]).scheduleOne_spec p o .max rfl (fun h => h) with
    ⟨-, hall⟩ | ⟨i, v, hrank, hv, -⟩
  · have hlt := hall hone (c : ℤ) (List.mem_singleton_self _)
    exact absurd hlt (not_lt.mpr (by exact_mod_cast hc))
  · have hi : i < 1 := (List.getElem?_eq_some_iff.mp hv).1
    obtain rfl : i = 0 := by omega
    exact hrank

theorem exists_admitted (hbs : 0 < bs) (hc : requiredBlocks bs p o ≤ c) (ho : 1 ≤ o)
    (e : ℕ → KvRun.State ℕ) :
    ∃ s, ReflTransGen (Serving.Step BlockSupply.Call) (Serving.State.init .max bs [c] e) s ∧
      s.run.puts = [request p o] ∧ s.running = [(request p o, 0)] ∧ s.engines = e := by
  have hrun := @Serving.reaches_admission _ (Serving.State.init .max bs [c] e) BlockSupply.Call
    (request p o) 0 rfl rfl rfl ho List.not_mem_nil (scheduleOne_request hbs hc ho)
  exact ⟨_, hrun, rfl, rfl, rfl⟩

theorem load_request (hs : s.running = [(request p o, 0)]) :
    SchedulerRun.load bs s.running 0 = requiredBlocks bs p o := by
  rw [hs]
  simp [SchedulerRun.load, RequestItem.required, request]

theorem countPass_oneNew {reqs : ℕ → Option (ℕ × ℕ)} (h : ∀ r, reqs r = none) (r : ℕ) :
    KvRun.countPass reqs (BlockSupply.oneNew p) r = if r = 4 then some (p, 1) else none := by
  by_cases hr : r = 4
  · subst hr
    rw [if_pos rfl]
    exact @KvRun.countPass_of_none _ reqs (BlockSupply.oneNew p) 0 4 p (List.nodup_singleton 4) rfl
      rfl (h 4)
  · rw [if_neg hr, KvRun.countPass_of_notMem (by simpa [BlockSupply.oneNew] using hr), h]

theorem countPass_oneOld {reqs : ℕ → Option (ℕ × ℕ)}
    (h : ∀ r, reqs r = if r = 4 then some (p, k) else none) (r : ℕ) :
    KvRun.countPass reqs oneOld r = if r = 4 then some (p, k + 1) else none := by
  by_cases hr : r = 4
  · subst hr
    rw [if_pos rfl]
    exact KvRun.countPass_of_some (List.mem_singleton_self 4) (h 4)
  · rw [if_neg hr, KvRun.countPass_of_notMem (by simpa [oneOld] using hr), h, if_neg hr]

theorem Decoding.batch {s : Serving.State (ℕ → KvRun.State ℕ)} (h : Decoding p o (k + 1) s)
    (hk : k + 2 ≤ o) : BlockSupply.Batch s.running 0 (s.engines 0) oneOld 0 where
  layer := h.firstLayer.symm
  first :=
    { nodup := List.nodup_singleton 4
      reqIds := rfl
      numPrefillSeqs := rfl
      numPrefillTokens := rfl
      le := Nat.zero_le 1
      new := fun i r hi => absurd hi (Nat.not_lt_zero i)
      old := by
        intro i r _ hr
        obtain rfl := List.mem_singleton.mp (List.mem_of_getElem? hr)
        exact ⟨p, k, h.reqs 4⟩ }
  numDecodeTokens := rfl
  within := by
    intro r p' k' hr
    rw [countPass_oneOld h.reqs] at hr
    split_ifs at hr with heq
    obtain ⟨rfl, rfl⟩ := Prod.mk.inj (Option.some.inj hr)
    refine ⟨request p o, ?_, heq.symm, rfl, hk⟩
    rw [h.running]
    exact List.mem_singleton_self _

/-- **A request decodes to completion** on a rank with one block more than it reserves. -/
theorem exists_decoded (hbs : 1 ≤ bs) (hc : requiredBlocks bs p o < c) (hk : k < o) :
    ∃ s, BlockSupply.Reaches ℕ .max bs [c] 0 s ∧ Decoding p o (k + 1) s := by
  induction k with
  | zero =>
    obtain ⟨s, hrun, hputs, hrunning, hengines⟩ := exists_admitted hbs hc.le hk
      fun rank => KvRun.State.init ℕ bs ([c].getD rank 0) 0
    have hitem : (request p o, ((0 : ℕ) : ℤ)) ∈ s.running := by
      rw [hrunning]
      exact List.mem_singleton_self _
    have hnone : ∀ r, (s.engines 0).reqs r = none := by
      intro r
      rw [hengines]
      rfl
    have hfirst : (s.engines 0).mgr.firstLayer = 0 := by
      rw [hengines]
      rfl
    obtain ⟨s', hrun', hsame, hrunning', hfirst', hreqs, lens, hcur⟩ := exists_pass hbs .max hrun
      Nat.one_pos (by rw [load_request hrunning]; exact hc)
      (BlockSupply.batch_oneNew hitem rfl hk hfirst hnone)
    refine ⟨s', hrun', hsame ▸ hputs, hrunning'.trans hrunning, hfirst'.trans hfirst, ?_, _, lens,
      hcur, rfl⟩
    intro r
    rw [hreqs]
    exact countPass_oneNew hnone r
  | succ k ih =>
    obtain ⟨s, hrun, hs⟩ := ih (by omega)
    obtain ⟨s', hrun', hsame, hrunning', hfirst', hreqs, lens, hcur⟩ := exists_pass hbs .max hrun
      Nat.one_pos (by rw [load_request hs.running]; exact hc) (hs.batch hk)
    refine ⟨s', hrun', hsame ▸ hs.puts, hrunning'.trans hs.running, hfirst'.trans hs.firstLayer, ?_,
      _, lens, hcur, rfl⟩
    intro r
    rw [hreqs]
    exact countPass_oneOld hs.reqs r

theorem Decoding.prepareBlockTableGdr {s : Serving.State (ℕ → KvRun.State ℕ)}
    (h : Decoding p o (k + 1) s) (hbs : 0 < bs) (hs : KvRun.Inv bs c (s.engines 0)) :
    ∃ m lens table slots, (s.engines 0).current = some (m, lens) ∧ m.numTokens = 1 ∧
      (s.engines 0).mgr.blockMgr.prepareBlockTableGdr m lens =
        .ok ((p + (k + 1)) ⌈/⌉ bs, table, slots) ∧
      table.length = (p + (k + 1)) ⌈/⌉ bs := by
  obtain ⟨m, lens, hcur, hids⟩ := h.current
  have htokens : m.numTokens = 1 := by
    rw [← (hs.current m lens hcur).reqIds, hids]
    rfl
  obtain ⟨l, hl, hlength⟩ := hs.blocks 4 p (k + 1) (h.reqs 4)
  obtain ⟨lists, table, slots, hlists, hgdr, hlen, -⟩ := prepareBlockTableGdr_current hs hbs hcur
  have hpages : BlockManager.numPages lists = (p + (k + 1)) ⌈/⌉ bs := by
    rw [hlists, hids, List.map_singleton, hl, ← hlength]
    exact Nat.zero_max _
  rw [hpages] at hgdr hlen
  exact ⟨m, lens, table, slots, hcur, htokens, hgdr, by rw [hlen, htokens, Nat.one_mul]⟩

end Decode

/-! ### When tables fit -/

/-- **When tables fit.** If requests with accepted lengths are put, the tables of every batch of
every deployment fit exactly when every accepted request has at most `max_seq_len // block_size`
pages. -/
theorem tablesFit_iff (hbs : 1 ≤ bs) (maxSeqLen : ℕ) (accepted : ℕ → ℕ → Prop) :
    (∀ (W : Type) (policy : Policy) (cap : List ℕ) (firstLayer : ℕ)
        (s : Serving.State (ℕ → KvRun.State W)), policy.CapacityAware cap.length →
      BlockSupply.Reaches W policy bs cap firstLayer s →
      (∀ item ∈ s.run.puts, accepted item.prefillLen item.outputLen) →
      ∀ rank, TablesFit maxSeqLen bs (s.engines rank)) ↔
    ∀ prefillLen outputLen, accepted prefillLen outputLen → 1 ≤ outputLen →
      (prefillLen + outputLen) ⌈/⌉ bs ≤ maxSeqLen / bs := by
  constructor
  · intro hfits p o haccepted ho
    -- the request alone, in its last pass
    obtain ⟨k, rfl⟩ := Nat.exists_eq_add_of_le' ho
    obtain ⟨s, hrun, hs⟩ :=
      exists_decoded hbs (Nat.lt_succ_self (requiredBlocks bs p (k + 1))) (Nat.lt_succ_self k)
    have hkv := ((BlockSupply.Inv.of_reaches hbs hrun).2 0).kv
    obtain ⟨m, lens, table, slots, hcur, -, hgdr, -⟩ := hs.prepareBlockTableGdr hbs hkv
    have hputs : ∀ item ∈ s.run.puts, accepted item.prefillLen item.outputLen := by
      rw [hs.puts]
      exact List.forall_mem_singleton.mpr haccepted
    obtain ⟨pages, table', slots', hgdr', hfit⟩ := hfits ℕ .max _ 0 s .max hrun hputs 0 m lens hcur
    obtain ⟨rfl, -⟩ := Prod.mk.inj (Except.ok.inj (hgdr.symm.trans hgdr'))
    exact hfit.pages_le
  · intro hshort W policy cap firstLayer s _ hrun hputs
    exact tablesFit_of_puts hbs hrun fun item hitem ho => hshort _ _ (hputs item hitem) ho

/-- A request that makes three tokens, where 4096 are allowed. -/
theorem tablesFit_three_passes :
    ∃ s, BlockSupply.Reaches ℕ .max 16 [4] 0 s ∧ Decoding 20 3 3 s ∧
      TablesFit 4096 16 (s.engines 0) := by
  obtain ⟨s, hrun, hs⟩ := @exists_decoded 16 4 20 3 2 (by decide) (by decide) (by decide)
  have hshort : ∀ p o, p + o ≤ 4096 → 1 ≤ o → (p + o) ⌈/⌉ 16 ≤ 4096 / 16 := by
    intro p o hle _
    exact (ceilDiv_le_iff_le_mul (by decide)).mpr hle
  refine ⟨s, hrun, hs, (tablesFit_iff (by decide) 4096 fun p o => p + o ≤ 4096).mpr hshort ℕ .max
    [4] 0 s .max hrun ?_ 0⟩
  rw [hs.puts]
  exact List.forall_mem_singleton.mpr (by decide)

/-- The defaults, 4096 tokens in blocks of 16, and a request of 4096 tokens that makes one more. It
is admitted, and the table of its only pass has 257 columns: a GDR buffer with a row for it
overflows, and staging it for a graph writes into the next row. -/
theorem overrun_default :
    ∃ s m lens table slots, BlockSupply.Reaches ℕ .max 16 [258] 0 s ∧
      s.run.puts = [⟨4, 4097, 4096, 1⟩] ∧ (s.engines 0).current = some (m, lens) ∧
      m.numTokens = 1 ∧
      (s.engines 0).mgr.blockMgr.prepareBlockTableGdr m lens = .ok (257, table, slots) ∧
      (∀ buf : GdrBuffer (1 * (4096 / 16)),
        buf.copyFromHost table = .error "GdrContext::copy_from_host overflow") ∧
      ∀ x : GraphBatch ℕ, x.numTokens = m.numTokens → x.numPages = 257 →
        ¬ KeepsRows (4096 / 16) x := by
  obtain ⟨s, hrun, hs⟩ := @exists_decoded 16 258 4096 1 0 (by decide) (by decide) (by decide)
  have hkv := ((BlockSupply.Inv.of_reaches (by decide) hrun).2 0).kv
  obtain ⟨m, lens, table, slots, hcur, htokens, hgdr, hlen⟩ :=
    hs.prepareBlockTableGdr (by decide) hkv
  have hpages : (4096 + (0 + 1)) ⌈/⌉ 16 = 257 := by decide
  rw [hpages] at hgdr hlen
  refine ⟨s, m, lens, table, slots, hrun, hs.puts, hcur, htokens, hgdr, ?_, ?_⟩
  · exact fun buf => buf.copyFromHost_overflow (by rw [hlen]; decide)
  · intro x htokens' hpages'
    rw [keepsRows_iff, htokens', htokens, hpages']
    decide

end PageWidth

end StreamEP
