import StreamEP.System.Machine
import StreamEP.Pool.PoolInvariant

/-!
# What is where

The invariant of the running system, place by place: what a batch looks like in every queue, on
every channel and in every engine. Messages only reach devices they are meant for: rows for an
expert reach the device that hosts it, replies the rank that owns the request, with new requests
first. That every pool operation succeeds on what it is given then follows from
`UnifiedPool.Inv`.

## Why place by place

A batch does not say where it is; its tag changes its meaning on the way, from who produced it to
who consumes it. So the invariant has one predicate per place. An action takes from one place and
adds to another, and its proof uses the predicates of these two only.
-/

namespace StreamEP

variable {W V : Type} [TensorRow V]

/-! ### Rows and batches on their way -/

namespace Setup

variable (M : Setup W V)

/-- A row some expert of device `d` works on. -/
structure OkRow (d : ℕ) (r : Row W V) : Prop where
  /-- Only `-1` stands for decoding. -/
  len : -1 ≤ r.initPrefillLen
  expert : ∃ e < M.numExperts, r.expId = some e ∧ M.deploy.owner e = d
  rank : ∃ q < M.numDevices, r.attnDpRank = some q

def MsgOk (d : ℕ) (b : TokenBatch W V) : Prop :=
  (∃ l < M.numLayers, ExpertMsg (M.OkRow d) l b) ∨
    ∃ l, 0 < l ∧ l ≤ M.numLayers ∧ ReplyMsg d l b

/-- Rows queued for the experts: as messages, but for experts anywhere. -/
structure ExpertOut (b : TokenBatch W V) : Prop extends b.Full where
  tag : b.metadata.batchTag = .attention
  layerId : b.metadata.layerId < M.numLayers
  /-- Its rows name an expert and a rank. -/
  rows : ∀ r ∈ b.rows, ∃ d, M.OkRow d r

structure ReplyOut (b : TokenBatch W V) : Prop extends b.Wf where
  tag : b.metadata.batchTag = .expert
  /-- It names an attention layer after the first. -/
  layerId : 0 < b.metadata.layerId ∧ b.metadata.layerId ≤ M.numLayers
  ranks : b.metadata.attnDpRanks.length = b.metadata.numTokens
  /-- Rows are grouped by rank, new requests first. -/
  ordered : AttnOrdered b.rows
  rows : ∀ r ∈ b.rows, -1 ≤ r.initPrefillLen ∧ ∃ q < M.numDevices, r.attnDpRank = some q

def OutOk (b : TokenBatch W V) : Prop := M.ExpertOut b ∨ M.ReplyOut b

structure AttnRun (b : TokenBatch W V) : Prop extends b.Wf where
  tag : b.metadata.batchTag = .attention
  /-- It names an attention layer or the final pseudo-layer. -/
  layerId : b.metadata.layerId ≤ M.numLayers
  nonempty : 0 < b.metadata.numTokens
  /-- Only `-1` stands for decoding. -/
  lens : ∀ r ∈ b.rows, -1 ≤ r.initPrefillLen

/-- A batch in the engine of device `d`. -/
def RunOk (d : ℕ) (b : TokenBatch W V) : Prop :=
  M.AttnRun b ∨ ∃ l < M.numLayers, ExpertWork (M.OkRow d) l b

omit [TensorRow V] in
theorem OkRow.expId_lt {M : Setup W V} {d : ℕ} (r : Row W V) (h : M.OkRow d r) :
    ∀ e ∈ r.expId, e < maxNumExperts := by
  intro e he
  obtain ⟨e', hlt, hexp, -⟩ := h.expert
  obtain rfl : e' = e := Option.some.inj (hexp.symm.trans he)
  exact hlt.trans_le M.deploy.numExperts_le

end Setup

/-! ### The invariant -/

structure Device.Inv (M : Setup W V) (d : ℕ) (dev : Device W V) : Prop where
  pool : dev.pool.Inv M.numLayers M.topK d (M.OkRow d)
  picked : ∀ l, dev.picked = some l → ∃ i < dev.pool.layerScheduler.numLayers, l = i ∧
    0 < (dev.pool.layerScheduler.layerAt i).numTokens
  /-- Its engine works on batches of its rank. -/
  running : ∀ b ∈ dev.running, M.RunOk d b
  /-- Its send queue holds rows for experts and replies. -/
  sendQueue : ∀ b ∈ dev.sendQueue, M.OutOk b
  /-- Every piece is on the channel of a device it is meant for. -/
  sending : ∀ x ∈ dev.sending, ∃ e < M.numDevices, M.deploy.peer d x.1 = some e ∧ M.MsgOk e x.2
  /-- What it is receiving is meant for it. -/
  pending : ∀ b ∈ dev.pending, M.MsgOk d b

structure System.Inv (M : Setup W V) (s : System W V M.numDevices) : Prop where
  device : ∀ d : Fin M.numDevices, (s.device d).Inv M d
  net : ∀ d e : Fin M.numDevices, ∀ b ∈ s.net (d, e), M.MsgOk e b

namespace System

variable {M : Setup W V} {s : System W V M.numDevices}

theorem Inv.setDevice (hs : s.Inv M) {d : Fin M.numDevices} {dev : Device W V}
    (hdev : dev.Inv M d) : (s.setDevice d dev).Inv M := by
  refine ⟨fun e => ?_, hs.net⟩
  by_cases he : e = d
  · subst he
    simpa [System.setDevice] using hdev
  · simpa [System.setDevice, he] using hs.device e

theorem Inv.setNet (hs : s.Inv M) {d e : Fin M.numDevices} {msgs : List (TokenBatch W V)}
    (hmsgs : ∀ b ∈ msgs, M.MsgOk e b) : (s.setNet (d, e) msgs).Inv M := by
  refine ⟨hs.device, fun d' e' b hb => ?_⟩
  by_cases hde : (d', e') = (d, e)
  · obtain ⟨rfl, rfl⟩ := Prod.mk.inj hde
    simp only [System.setNet, Function.update_self] at hb
    exact hmsgs b hb
  · simp only [System.setNet, Function.update_of_ne hde] at hb
    exact hs.net d' e' b hb

theorem Inv.ghost (hs : s.Inv M) (admitted finished : List ℕ) (job : ℕ → Option (Job W V))
    (emitted : List (Emission W V)) :
    Inv M { s with admitted := admitted, finished := finished, job := job, emitted := emitted } :=
  ⟨hs.device, hs.net⟩

def InFlightOk (M : Setup W V) (inFlight : Fin M.numDevices → List (TokenBatch W V)) : Prop :=
  ∀ d, ∀ b ∈ inFlight d, M.AttnRun b

theorem Inv.init {ty : Fin M.numDevices → SchedulerType} {attn expert : Fin M.numDevices → ℤ}
    {inFlight : Fin M.numDevices → List (TokenBatch W V)}
    (hattn : ∀ d, 1 ≤ attn d) (hexpert : ∀ d, 1 ≤ expert d) (hin : InFlightOk M inFlight) :
    (init M ty attn expert inFlight).Inv M where
  device d :=
    { pool := UnifiedPool.inv_create (ty d) _ _ _ _ (hattn d) (hexpert d)
      picked := by simp [System.init]
      running := fun b hb => .inl (hin d b hb)
      sendQueue := by simp [System.init]
      sending := by simp [System.init]
      pending := by simp [System.init] }
  net := by simp [System.init]

end System

end StreamEP
