import StreamEP.Batch.Sort

/-!
# Layer queues

`UnifiedLayer` of `csrc/muhelper/layer.cpp`: the work queued for one layer. A layer holds whole
batches in `batch_queue` or gathered tokens in `token_queue`, and counts its tokens in
`num_tokens`. The restricted getters take tokens up to a threshold and cut the last batch when it
does not fit.

A getter returns the new layer even when it throws: the source changes the queue and the counter
before it asserts. Counters and thresholds are integers, since the source compares them as such
and a threshold of zero or less is a possible argument.
-/

namespace StreamEP

variable {W V : Type}

inductive LayerType
  | attention
  | expert
deriving DecidableEq, Repr

structure UnifiedLayer (W V : Type) where
  layerType : LayerType
  /-- `layer_id`, within the layers of its type -/
  layerId : ℕ
  numTokens : ℤ
  batchQueue : List (TokenBatch W V)
  tokenQueue : List (TokenTopKInfo V)
deriving DecidableEq, Repr

namespace UnifiedLayer

def create (layerType : LayerType) (layerId : ℕ) : UnifiedLayer W V :=
  ⟨layerType, layerId, 0, [], []⟩

def createAttentionLayer (layerId : ℕ) : UnifiedLayer W V := create .attention layerId

def createExpertLayer (layerId : ℕ) : UnifiedLayer W V := create .expert layerId

def addBatch (L : UnifiedLayer W V) (b : TokenBatch W V) : UnifiedLayer W V :=
  { L with
    batchQueue := L.batchQueue ++ [b]
    numTokens := L.numTokens + b.metadata.numTokens }

def addToken (L : UnifiedLayer W V) (t : TokenTopKInfo V) : UnifiedLayer W V :=
  { L with tokenQueue := L.tokenQueue ++ [t], numTokens := L.numTokens + 1 }

def addTokens (L : UnifiedLayer W V) (ts : List (TokenTopKInfo V)) : UnifiedLayer W V :=
  ts.foldl addToken L

def getAllBatches (L : UnifiedLayer W V) : List (TokenBatch W V) × UnifiedLayer W V :=
  (L.batchQueue, { L with batchQueue := [], numTokens := 0 })

def getAllTokens (L : UnifiedLayer W V) : List (TokenTopKInfo V) × UnifiedLayer W V :=
  (L.tokenQueue, { L with tokenQueue := [], numTokens := 0 })

end UnifiedLayer

/-- What the loop of `get_batches_restricted` has done when it ends. -/
structure Taken (W V : Type) where
  result : List (TokenBatch W V)
  /-- What is left of `batch_queue`. -/
  rest : List (TokenBatch W V)
  totalTokens : ℤ
deriving DecidableEq, Repr

/-- The loop of `get_batches_restricted`, started on `queue` with `totalTokens` taken before. -/
def takeBatches (tokenThreshold : ℤ) : List (TokenBatch W V) → ℤ → Taken W V
  | [], totalTokens => ⟨[], [], totalTokens⟩
  | first :: queue, totalTokens =>
    if totalTokens < tokenThreshold then
      if totalTokens + first.metadata.numTokens > tokenThreshold then
        let needTokens := (tokenThreshold - totalTokens).toNat
        match first.splitWithSizes [needTokens, first.metadata.numTokens - needTokens] with
        -- the threshold is reached exactly, so the loop ends with the second piece in front
        | [taken, kept] => ⟨[taken], kept :: queue, totalTokens + taken.metadata.numTokens⟩
        | _ => ⟨[], first :: queue, totalTokens⟩
      else
        let more := takeBatches tokenThreshold queue (totalTokens + first.metadata.numTokens)
        { more with result := first :: more.result }
    else ⟨[], first :: queue, totalTokens⟩

/-- The loop of `get_tokens_restricted`. -/
def takeTokens (tokenThreshold : ℤ) :
    List (TokenTopKInfo V) → ℤ → List (TokenTopKInfo V) × List (TokenTopKInfo V)
  | [], _ => ([], [])
  | t :: queue, totalTokens =>
    if totalTokens < tokenThreshold then
      let more := takeTokens tokenThreshold queue (totalTokens + 1)
      (t :: more.1, more.2)
    else ([], t :: queue)

namespace UnifiedLayer

def getBatchesRestricted (L : UnifiedLayer W V) (tokenThreshold : ℤ) :
    UnifiedLayer W V × Except String (List (TokenBatch W V)) :=
  let t := takeBatches tokenThreshold L.batchQueue 0
  let L' := { L with batchQueue := t.rest, numTokens := L.numTokens - t.totalTokens }
  (L', do
    ensure (t.totalTokens > 0 ∧ t.result ≠ [])
      ("Got nothing from layer" ++ toString L'.layerId ++
        " under token threshold, total tokens in layer: " ++ toString L'.numTokens ++
        ", num tokens in next batch in layer: " ++
        toString ((L'.batchQueue.head?.map (·.metadata.numTokens)).getD 0) ++
        ", token threshold: " ++ toString tokenThreshold)
    return t.result)

def getTokensRestricted (L : UnifiedLayer W V) (tokenThreshold : ℤ) :
    List (TokenTopKInfo V) × UnifiedLayer W V :=
  let t := takeTokens tokenThreshold L.tokenQueue 0
  (t.1, { L with tokenQueue := t.2, numTokens := L.numTokens - t.1.length })

end UnifiedLayer

/-! ### The loop over batches -/

def queuedTokens (q : List (TokenBatch W V)) : ℕ := (q.map (·.metadata.numTokens)).sum

@[simp] theorem queuedTokens_nil : queuedTokens ([] : List (TokenBatch W V)) = 0 := rfl

@[simp] theorem queuedTokens_cons (b : TokenBatch W V) (q : List (TokenBatch W V)) :
    queuedTokens (b :: q) = b.metadata.numTokens + queuedTokens q := by
  simp [queuedTokens]

theorem splitWithSizes_pair (b : TokenBatch W V) (k m : ℕ) :
    b.splitWithSizes [k, m] = [b.chunk 0 k, b.chunk k m] := by
  rw [TokenBatch.splitWithSizes_eq]
  simp [List.range_succ]

theorem takeBatches_of_le {t total : ℤ} (q : List (TokenBatch W V)) (h : t ≤ total) :
    takeBatches t q total = ⟨[], q, total⟩ := by
  cases q with
  | nil => rfl
  | cons b q => rw [takeBatches, if_neg (by omega)]

theorem takeBatches_cons_of_fit {t total : ℤ} {b : TokenBatch W V} (q : List (TokenBatch W V))
    (h : total < t) (hfit : total + b.metadata.numTokens ≤ t) :
    takeBatches t (b :: q) total =
      { takeBatches t q (total + b.metadata.numTokens) with
        result := b :: (takeBatches t q (total + b.metadata.numTokens)).result } := by
  rw [takeBatches, if_pos h, if_neg (by omega)]

theorem takeBatches_cons_of_cut {t total : ℤ} {b : TokenBatch W V} (q : List (TokenBatch W V))
    (h : total < t) (hcut : t < total + b.metadata.numTokens) :
    takeBatches t (b :: q) total =
      ⟨[b.chunk 0 (t - total).toNat],
        b.chunk (t - total).toNat (b.metadata.numTokens - (t - total).toNat) :: q, t⟩ := by
  rw [takeBatches, if_pos h, if_pos hcut]
  simp only [splitWithSizes_pair, TokenBatch.chunk_metadata, BatchMetadata.chunk_numTokens]
  rw [Int.toNat_of_nonneg (by omega), show total + (t - total) = t by omega]

/-- The case split every fact about the loop is proved by. -/
theorem takeBatches_induction {t : ℤ} {P : List (TokenBatch W V) → ℤ → Taken W V → Prop}
    (hstop : ∀ q total, t ≤ total → P q total ⟨[], q, total⟩)
    (hnil : ∀ total, total < t → P [] total ⟨[], [], total⟩)
    (hfit : ∀ b q total r, total < t → total + b.metadata.numTokens ≤ t →
      P q (total + b.metadata.numTokens) r → P (b :: q) total { r with result := b :: r.result })
    (hcut : ∀ b q total k, total < t → t = total + (k : ℕ) → k < b.metadata.numTokens →
      P (b :: q) total ⟨[b.chunk 0 k], b.chunk k (b.metadata.numTokens - k) :: q, t⟩)
    (q : List (TokenBatch W V)) (total : ℤ) : P q total (takeBatches t q total) := by
  induction q generalizing total with
  | nil =>
    rcases Int.lt_or_le total t with h | h
    · exact hnil total h
    · exact hstop [] total h
  | cons b q ih =>
    rcases Int.lt_or_le total t with h | h
    · rcases Int.lt_or_le t (total + b.metadata.numTokens) with hn | hn
      · rw [takeBatches_cons_of_cut q h hn]
        exact hcut b q total _ h (by omega) (by omega)
      · rw [takeBatches_cons_of_fit q h hn]
        exact hfit b q total _ h hn (ih _)
    · rw [takeBatches_of_le _ h]
      exact hstop _ _ h

/-- **Taken and kept batches spell the queue**, row by row. -/
theorem takeBatches_append [TensorRow V] (t : ℤ) (q : List (TokenBatch W V)) (total : ℤ) :
    (takeBatches t q total).result.flatMap TokenBatch.rows ++
      (takeBatches t q total).rest.flatMap TokenBatch.rows = q.flatMap TokenBatch.rows := by
  refine takeBatches_induction (P := fun q _ r => r.result.flatMap TokenBatch.rows ++
    r.rest.flatMap TokenBatch.rows = q.flatMap TokenBatch.rows) ?_ ?_ ?_ ?_ q total
  · intro q _ _; rfl
  · intro _ _; rfl
  · intro b q _ r _ _ ih
    rw [List.flatMap_cons, List.append_assoc, ih, List.flatMap_cons]
  · intro b q _ k _ _ hk
    have hcut : (b.chunk 0 k).rows ++ (b.chunk k (b.metadata.numTokens - k)).rows = b.rows := by
      rw [TokenBatch.rows_chunk b (by omega), TokenBatch.rows_chunk b (by omega), List.drop_zero,
        List.take_of_length_le (by simp) (i := b.metadata.numTokens - k), List.take_append_drop]
    simp [← hcut]

/-- What every piece with a token of the queued batches satisfies, the result and the rest
satisfy. -/
theorem takeBatches_forall_of_pos {Q : TokenBatch W V → Prop}
    (hchunk : ∀ b off n, Q b → 0 < n → off + n ≤ b.metadata.numTokens → Q (b.chunk off n)) (t : ℤ)
    {q : List (TokenBatch W V)} (total : ℤ) (hq : ∀ b ∈ q, Q b) :
    (∀ b ∈ (takeBatches t q total).result, Q b) ∧ ∀ b ∈ (takeBatches t q total).rest, Q b := by
  revert hq
  refine takeBatches_induction (P := fun q _ r => (∀ b ∈ q, Q b) →
    (∀ b ∈ r.result, Q b) ∧ ∀ b ∈ r.rest, Q b) ?_ ?_ ?_ ?_ q total
  · intro q _ _ hq
    exact ⟨by simp, hq⟩
  · intro _ _ _
    exact ⟨by simp, by simp⟩
  · intro b q _ r _ _ ih hq
    obtain ⟨hres, hrest⟩ := ih fun c hc => hq c (List.mem_cons_of_mem _ hc)
    refine ⟨fun c hc => ?_, hrest⟩
    rcases List.mem_cons.mp hc with rfl | hc
    · exact hq c (by simp)
    · exact hres c hc
  · intro b q total k hlt ht hk hq
    have hb := hq b (by simp)
    refine ⟨fun c hc => ?_, fun c hc => ?_⟩
    · rw [List.mem_singleton.mp hc]
      exact hchunk b 0 k hb (by omega) (by omega)
    · rcases List.mem_cons.mp hc with rfl | hc
      · exact hchunk b k _ hb (by omega) (by omega)
      · exact hq c (List.mem_cons_of_mem _ hc)

theorem takeBatches_forall {Q : TokenBatch W V → Prop}
    (hchunk : ∀ b off n, Q b → off + n ≤ b.metadata.numTokens → Q (b.chunk off n)) (t : ℤ)
    {q : List (TokenBatch W V)} (total : ℤ) (hq : ∀ b ∈ q, Q b) :
    (∀ b ∈ (takeBatches t q total).result, Q b) ∧ ∀ b ∈ (takeBatches t q total).rest, Q b :=
  takeBatches_forall_of_pos (fun b off n hb _ hn => hchunk b off n hb hn) t total hq

/-- **How many tokens are taken**: up to the threshold, or all there are. -/
theorem takeBatches_total {t total : ℤ} (h : total ≤ t) (q : List (TokenBatch W V)) :
    (takeBatches t q total).totalTokens = min t (total + queuedTokens q) := by
  revert h
  refine takeBatches_induction (P := fun q total r => total ≤ t →
    r.totalTokens = min t (total + queuedTokens q)) ?_ ?_ ?_ ?_ q total
  · intro q total hle h
    show total = _
    omega
  · intro total _ _
    show total = min t (total + (0 : ℕ))
    omega
  · intro b q total r _ hn ih _
    show r.totalTokens = _
    rw [ih hn, queuedTokens_cons]
    push_cast
    omega
  · intro b q total k _ ht hk _
    show t = _
    rw [queuedTokens_cons]
    push_cast
    omega

theorem takeBatches_tokens {t : ℤ} (q : List (TokenBatch W V)) (total : ℤ) :
    (takeBatches t q total).totalTokens =
      total + queuedTokens (takeBatches t q total).result := by
  refine takeBatches_induction (P := fun _ total r =>
    r.totalTokens = total + queuedTokens r.result) ?_ ?_ ?_ ?_ q total
  · intro q total _
    show total = total + (0 : ℕ)
    omega
  · intro total _
    show total = total + (0 : ℕ)
    omega
  · intro b q total r _ _ ih
    show r.totalTokens = _
    rw [ih, queuedTokens_cons]
    push_cast
    omega
  · intro b q total k _ ht _
    simpa [TokenBatch.chunk_metadata] using ht

theorem takeBatches_rest_tokens {t : ℤ} (q : List (TokenBatch W V)) (total : ℤ) :
    queuedTokens (takeBatches t q total).result + queuedTokens (takeBatches t q total).rest =
      queuedTokens q := by
  refine takeBatches_induction (P := fun q _ r =>
    queuedTokens r.result + queuedTokens r.rest = queuedTokens q) ?_ ?_ ?_ ?_ q total
  · intro q total _
    simp
  · intro total _
    rfl
  · intro b q total r _ _ ih
    rw [queuedTokens_cons, queuedTokens_cons, ← ih, Nat.add_assoc]
  · intro b q total k _ _ hk
    simp only [queuedTokens_cons, queuedTokens_nil, TokenBatch.chunk_metadata,
      BatchMetadata.chunk_numTokens]
    omega

/-! ### The loop over tokens -/

theorem takeTokens_eq (t : ℤ) (q : List (TokenTopKInfo V)) (total : ℤ) :
    takeTokens t q total = (q.take (t - total).toNat, q.drop (t - total).toNat) := by
  induction q generalizing total with
  | nil => simp [takeTokens]
  | cons a q ih =>
    rw [takeTokens]
    rcases Int.lt_or_le total t with h | h
    · have hn : (t - total).toNat = (t - (total + 1)).toNat + 1 := by omega
      rw [if_pos h, ih, hn]
      rfl
    · rw [if_neg (by omega), show (t - total).toNat = 0 by omega]
      rfl

end StreamEP
