import StreamEP.Batch.Sort

/-!
# Gathering the expert outputs of a token

`TokenTopKPool` of `csrc/muhelper/muhelper.cpp`. Replies of the experts arrive row by row, in any
order. The pool keeps one entry per request id, appends the rows it gets for that id, and moves
the entry to `ready_tokens` when it holds `top_k` of them. A row is matched by its request id
alone; the prefill length and rank of an entry are those of the row that created it.

The hash map is a list of entries with distinct ids here. The counters of the statistics log are
left out.
-/

namespace StreamEP

variable {W V : Type}

@[simp] theorem TokenTopKInfo.count_appendTensor (t : TokenTopKInfo V) (x : V) :
    (t.appendTensor x).count = t.count + 1 := by
  simp [count, appendTensor]

structure TokenTopKPool (V : Type) where
  topK : ℕ
  /-- `pool_`: the entries, by request id -/
  pool : List (TokenTopKInfo V)
  readyTokens : List (TokenTopKInfo V)
deriving DecidableEq, Repr

namespace TokenTopKPool

def create (topK : ℕ) : TokenTopKPool V := ⟨topK, [], []⟩

/-- The body of the loop of `put_batch`. A new entry is not checked for completeness. -/
def putRow (p : TokenTopKPool V) (seqId : ℕ) (initPrefillLen : ℤ) (attnDpRank : ℕ) (row : V) :
    TokenTopKPool V :=
  match p.pool.find? (·.seqId = seqId) with
  | none => { p with pool := ⟨seqId, initPrefillLen, attnDpRank, [row]⟩ :: p.pool }
  | some info =>
    let info := info.appendTensor row
    let others := p.pool.filter (·.seqId ≠ seqId)
    if info.count = p.topK then
      { p with pool := others, readyTokens := p.readyTokens ++ [info] }
    else { p with pool := info :: others }

def putBatch [TensorRow V] (p : TokenTopKPool V) (b : TokenBatch W V) :
    Except String (TokenTopKPool V) := do
  let m := b.metadata
  ensure (b.data.length = m.numTokens) "Batch data shape mismatch"
  ensure (TensorRow.size V = m.tokenHiddenDim) "Batch data shape mismatch"
  ensure (m.numTokens = m.reqIds.length) "Batch data shape mismatch"
  ensure (m.numTokens = m.attnDpRanks.length) "Batch data shape mismatch"
  ensure (m.numTokens = m.initPrefillLens.length) "Batch data shape mismatch"
  return (List.range m.numTokens).foldl (fun p i =>
    p.putRow (m.reqIds.getD i 0) (m.initPrefillLens.getD i 0) (m.attnDpRanks.getD i 0)
      (b.data.getD i default)) p

def fetchReadyTokens (p : TokenTopKPool V) : List (TokenTopKInfo V) × TokenTopKPool V :=
  (p.readyTokens, { p with readyTokens := [] })

/-! ### Row by row -/

def put (p : TokenTopKPool V) (r : Row W V) : TokenTopKPool V :=
  p.putRow r.reqId r.initPrefillLen (r.attnDpRank.getD 0) r.data

/-- **A well-formed batch with ranks is accepted** and put row by row. -/
theorem putBatch_eq [TensorRow V] (p : TokenTopKPool V) {b : TokenBatch W V} (hb : b.Wf)
    (hrank : b.metadata.attnDpRanks.length = b.metadata.numTokens) :
    p.putBatch b = .ok (b.rows.foldl put p) := by
  rw [putBatch, ensure_of_true hb.data, ok_bind, ensure_of_true hb.hiddenDim.symm, ok_bind,
    ensure_of_true hb.reqIds.symm, ok_bind, ensure_of_true hrank.symm, ok_bind,
    ensure_of_true hb.initPrefillLens.symm, ok_bind, TokenBatch.rows, List.foldl_map]
  simp only [put, TokenBatch.rowAt, List.getD_eq_getElem?_getD]
  rfl

/-- One entry per id, each with at least one and fewer than `top_k` rows. -/
structure Ok (p : TokenTopKPool V) : Prop where
  nodup : (p.pool.map (·.seqId)).Nodup
  count_pos : ∀ t ∈ p.pool, 0 < t.count
  count_lt : ∀ t ∈ p.pool, t.count < p.topK

theorem ok_create (k : ℕ) : (create k : TokenTopKPool V).Ok := by
  constructor <;> simp [create]

theorem perm_cons_filter {l : List (TokenTopKInfo V)} (hl : (l.map (·.seqId)).Nodup)
    {t : TokenTopKInfo V} (ht : t ∈ l) : l.Perm (t :: l.filter (·.seqId ≠ t.seqId)) := by
  induction l with
  | nil => simp at ht
  | cons u l ih =>
    obtain ⟨hu, hl⟩ := List.nodup_cons.mp (List.map_cons ▸ hl)
    rcases List.mem_cons.mp ht with rfl | ht
    · rw [List.filter_cons_of_neg (by simp), List.filter_eq_self.mpr fun v hv => ?_]
      have hne : v.seqId ≠ t.seqId := fun h => hu (h ▸ List.mem_map_of_mem hv)
      simpa using hne
    · have hne : u.seqId ≠ t.seqId := fun h => hu (h ▸ List.mem_map_of_mem ht)
      rw [List.filter_cons_of_pos (by simpa using hne)]
      exact ((ih hl ht).cons u).trans (List.Perm.swap ..)

/-- **What one row can do**: open an entry, extend one, or complete one. -/
theorem Ok.putRow_cases {p : TokenTopKPool V} (hp : p.Ok) (seqId : ℕ) (len : ℤ) (rank : ℕ)
    (row : V) :
    ((∀ t ∈ p.pool, t.seqId ≠ seqId) ∧
      p.putRow seqId len rank row = { p with pool := ⟨seqId, len, rank, [row]⟩ :: p.pool }) ∨
    ∃ t ∈ p.pool, t.seqId = seqId ∧ p.pool.Perm (t :: p.pool.filter (·.seqId ≠ seqId)) ∧
      ((t.count + 1 < p.topK ∧ p.putRow seqId len rank row =
          { p with pool := t.appendTensor row :: p.pool.filter (·.seqId ≠ seqId) }) ∨
        (t.count + 1 = p.topK ∧ p.putRow seqId len rank row =
          { p with
            pool := p.pool.filter (·.seqId ≠ seqId)
            readyTokens := p.readyTokens ++ [t.appendTensor row] })) := by
  rw [putRow]
  cases hfind : p.pool.find? (·.seqId = seqId) with
  | none =>
    rw [List.find?_eq_none] at hfind
    exact .inl ⟨fun t ht => by simpa using hfind t ht, rfl⟩
  | some t =>
    have ht := List.mem_of_find?_eq_some hfind
    have hid : t.seqId = seqId := by simpa using List.find?_some hfind
    have hlt := hp.count_lt t ht
    have hcount := t.count_appendTensor row
    refine .inr ⟨t, ht, hid, hid ▸ perm_cons_filter hp.nodup ht, ?_⟩
    by_cases hfull : t.count + 1 = p.topK
    · exact .inr ⟨hfull, by simp only [hcount, hfull, if_true]⟩
    · exact .inl ⟨by omega, by simp only [hcount, hfull, if_false]⟩

theorem Ok.filter {p : TokenTopKPool V} (hp : p.Ok) (f : TokenTopKInfo V → Bool) :
    { p with pool := p.pool.filter f }.Ok where
  nodup := hp.nodup.sublist (List.filter_sublist.map _)
  count_pos t ht := hp.count_pos t (List.mem_of_mem_filter ht)
  count_lt t ht := hp.count_lt t (List.mem_of_mem_filter ht)

/-- The pool stays consistent. A new entry needs `top_k` to be more than one. -/
theorem Ok.putRow {p : TokenTopKPool V} (hp : p.Ok) (hk : 1 < p.topK) (seqId : ℕ) (len : ℤ)
    (rank : ℕ) (row : V) : (p.putRow seqId len rank row).Ok := by
  rcases hp.putRow_cases seqId len rank row with
    ⟨hnew, heq⟩ | ⟨t, ht, rfl, -, ⟨hlt, heq⟩ | ⟨-, heq⟩⟩
  · rw [heq]
    refine ⟨?_, ?_, ?_⟩
    · refine List.nodup_cons.mpr ⟨fun hmem => ?_, hp.nodup⟩
      obtain ⟨t, ht, hid⟩ := List.mem_map.mp hmem
      exact hnew t ht hid
    · simpa [TokenTopKInfo.count] using hp.count_pos
    · simpa [TokenTopKInfo.count, hk] using hp.count_lt
  · rw [heq]
    have hrest := hp.filter (·.seqId ≠ t.seqId)
    have hcount := t.count_appendTensor row
    refine ⟨?_, ?_, ?_⟩
    · refine List.nodup_cons.mpr ⟨fun hmem => ?_, hrest.nodup⟩
      obtain ⟨u, hu, hid⟩ := List.mem_map.mp hmem
      have hne : u.seqId ≠ t.seqId := by simpa using (List.mem_filter.mp hu).2
      exact hne hid
    · rintro u hu
      rcases List.mem_cons.mp hu with rfl | hu
      · omega
      · exact hrest.count_pos u hu
    · rintro u hu
      rcases List.mem_cons.mp hu with rfl | hu
      · show (t.appendTensor row).count < p.topK
        omega
      · exact hrest.count_lt u hu
  · rw [heq]
    have hrest := hp.filter (·.seqId ≠ t.seqId)
    exact ⟨hrest.nodup, hrest.count_pos, hrest.count_lt⟩

@[simp] theorem putRow_topK (p : TokenTopKPool V) (seqId : ℕ) (len : ℤ) (rank : ℕ) (row : V) :
    (p.putRow seqId len rank row).topK = p.topK := by
  rw [TokenTopKPool.putRow]
  split
  · rfl
  · dsimp only
    split_ifs <;> rfl

end TokenTopKPool

end StreamEP
