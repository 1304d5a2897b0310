import StreamEP.Lib.ForkJoin
import StreamEP.System.Actions

/-!
# Whole tokens and copies

The running system read as a fork and join machine. A token is whole while it waits for attention
or is in an attention batch. Attention forks it into copies, one per chosen expert, and a copy
counts for what it will be worth when it comes back: the weighted output of its expert. So a copy
keeps its value on its whole way, through the send queue, the network, the queue of its expert, the
expert itself and back, and gathering the copies of a token is a join.
-/

namespace StreamEP

open Relation

variable {W V : Type}

/-- One copy of a token: the layer it returns to, what it will be worth there, and the rest of what
is gathered with it. -/
@[ext] structure Copy (V : Type) where
  layer : ℕ
  value : V
  initPrefillLen : ℤ
  attnDpRank : ℕ

/-- Copies of one token: all but their values agree. -/
def Alike (c : Multiset (Copy V)) : Prop :=
  ∀ x ∈ c, ∀ y ∈ c, x.layer = y.layer ∧ x.initPrefillLen = y.initPrefillLen ∧
    x.attnDpRank = y.attnDpRank

/-- The copies a job was forked into. -/
def Job.copies (K : Kernels W V) (j : Job W V) : Multiset (Copy V) :=
  ↑(j.gates.map fun g => (⟨j.layer + 1, K.scale g.2 (K.expert j.layer g.1 j.hidden),
    j.initPrefillLen, j.attnDpRank⟩ : Copy V))

/-- The copy a row of a reply to layer `l` stands for, with its request. -/
def Row.reply (l : ℕ) (r : Row W V) : ℕ × Copy V :=
  (r.reqId, ⟨l, r.data, r.initPrefillLen, r.attnDpRank.getD 0⟩)

/-- The copies a gathered entry of layer `l` holds. -/
def TokenTopKInfo.copies (l : ℕ) (t : TokenTopKInfo V) : Multiset (Copy V) :=
  ↑(t.topkTensors.map fun v => (⟨l, v, t.initPrefillLen, t.attnDpRank⟩ : Copy V))

def TokenTopKInfo.held (l : ℕ) (t : TokenTopKInfo V) : Multiset (ℕ × Copy V) :=
  (t.copies l).map (Prod.mk t.seqId)

section Places

variable [Inhabited W] [TensorRow V] (K : Kernels W V)

/-- The copy a row on its way to an expert of layer `l` stands for. -/
def Row.out (l : ℕ) (r : Row W V) : ℕ × Copy V := (r.answer K l).reply (l + 1)

/-- The copies in a batch on its way. -/
def TokenBatch.msgCopies (b : TokenBatch W V) : Multiset (ℕ × Copy V) :=
  match b.metadata.batchTag with
  | .attention => ↑(b.rows.map (Row.out K b.metadata.layerId))
  | .expert => ↑(b.rows.map (Row.reply b.metadata.layerId))
  | .tokenizer => 0

/-- The copies in a batch an expert works on. -/
def TokenBatch.runCopies (b : TokenBatch W V) : Multiset (ℕ × Copy V) :=
  if b.metadata.isExpert then ↑(b.rows.map (Row.out K b.metadata.layerId)) else 0

omit [Inhabited W] in
/-- The whole tokens in a batch attention works on. -/
def TokenBatch.runIds (b : TokenBatch W V) : Multiset ℕ :=
  if b.metadata.isAttention then ↑(b.rows.map (·.reqId)) else 0

omit [Inhabited W] in
def Device.whole (dev : Device W V) : Multiset ℕ :=
  dev.pool.layerScheduler.attnIds + (dev.running.map TokenBatch.runIds).sum

def Device.copies (dev : Device W V) : Multiset (ℕ × Copy V) :=
  dev.pool.layerScheduler.expertWork (Row.out K) +
    gathered TokenTopKInfo.held dev.pool.topkPools +
    (dev.running.map (TokenBatch.runCopies K)).sum +
    (dev.sendQueue.map (TokenBatch.msgCopies K)).sum +
    (dev.sending.map fun x => x.2.msgCopies K).sum +
    (dev.pending.map (TokenBatch.msgCopies K)).sum

namespace System

variable {D : ℕ}

omit [Inhabited W] in
def whole (s : System W V D) : Multiset ℕ := ∑ d, (s.device d).whole

def copies (s : System W V D) : Multiset (ℕ × Copy V) :=
  ∑ d, (s.device d).copies K + ∑ x, ((s.net x).map (TokenBatch.msgCopies K)).sum

/-- The system as a fork and join machine. -/
def abs (M : Setup W V) (s : System W V M.numDevices) : ForkJoin.State ℕ (Copy V) where
  seen := {r | r ∈ s.admitted}
  done := {r | r ∈ s.finished}
  whole := s.whole
  copies := s.copies M.kernels
  job := fun r => (s.job r).elim 0 (Job.copies M.kernels)

/-! ### Changing one place -/

variable {K} {s : System W V D}

omit [Inhabited W] in
theorem whole_setDevice {d : Fin D} {dev : Device W V} {taken added : Multiset ℕ}
    (h : dev.whole + taken = (s.device d).whole + added) :
    (s.setDevice d dev).whole + taken = s.whole + added :=
  sum_update_change (fun _ dev => Device.whole dev) s.device d dev h

theorem copies_setDevice {d : Fin D} {dev : Device W V} {taken added : Multiset (ℕ × Copy V)}
    (h : dev.copies K + taken = (s.device d).copies K + added) :
    (s.setDevice d dev).copies K + taken = s.copies K + added := by
  have hsum := sum_update_change (fun _ dev => Device.copies K dev) s.device d dev h
  rw [copies, copies, add_right_comm, add_right_comm (∑ d, (s.device d).copies K)]
  exact congrArg (· + _) hsum

theorem copies_setNet {x : Fin D × Fin D} {msgs : List (TokenBatch W V)}
    {taken added : Multiset (ℕ × Copy V)}
    (h : (msgs.map (TokenBatch.msgCopies K)).sum + taken =
      ((s.net x).map (TokenBatch.msgCopies K)).sum + added) :
    (s.setNet x msgs).copies K + taken = s.copies K + added := by
  have hsum := sum_update_change
    (fun _ msgs => (msgs.map (TokenBatch.msgCopies K)).sum) s.net x msgs h
  rw [copies, copies, add_assoc, add_assoc]
  exact congrArg (_ + ·) hsum

/-! ### The start -/

omit [Inhabited W] [TensorRow V] in
theorem queues_newPool (M : Setup W V) (ty : SchedulerType) (attn expert : ℤ) (i : ℕ) :
    ((newPool M ty attn expert).layerScheduler.layerAt i).batchQueue = [] ∧
      ((newPool M ty attn expert).layerScheduler.layerAt i).tokenQueue = [] := by
  have hall : ∀ L ∈ (newPool M ty attn expert).layerScheduler.layers,
      L.batchQueue = [] ∧ L.tokenQueue = [] := by
    intro L hL
    rcases List.mem_append.mp hL with hL | hL <;>
      · obtain ⟨j, -, rfl⟩ := List.mem_map.mp hL
        exact ⟨rfl, rfl⟩
  rw [LayerScheduler.layerAt]
  cases hget : (newPool M ty attn expert).layerScheduler.layers[i]? with
  | none => exact ⟨rfl, rfl⟩
  | some L => exact hall L (List.mem_of_getElem? hget)

theorem contents_newPool (M : Setup W V) (ty : SchedulerType) (attn expert : ℤ) :
    (newPool M ty attn expert).layerScheduler.attnIds = 0 ∧
      (newPool M ty attn expert).layerScheduler.expertWork (Row.out K) = 0 ∧
      gathered TokenTopKInfo.held (newPool M ty attn expert).topkPools = 0 := by
  have hempty := queues_newPool M ty attn expert
  refine ⟨Finset.sum_eq_zero fun i _ => ?_, Finset.sum_eq_zero fun i _ => ?_,
    Finset.sum_eq_zero fun i _ => ?_⟩
  · rw [UnifiedLayer.ids, UnifiedLayer.queued, (hempty i).1, (hempty i).2]
    rfl
  · rw [UnifiedLayer.batchRows, (hempty _).1]
    rfl
  · have hpool : ∀ tp ∈ (newPool M ty attn expert).topkPools, tp.pool = [] := by
      simp only [newPool, UnifiedPool.create, UnifiedPool.setScheduleTokenThreshold]
      split_ifs
      · exact fun tp htp => by rw [List.eq_of_mem_replicate htp]; rfl
      · simp
    rw [List.getD_eq_getElem?_getD]
    cases hget : (newPool M ty attn expert).topkPools[i]? with
    | none => rfl
    | some tp => rw [Option.getD_some, hpool tp (List.mem_of_getElem? hget)]; rfl

variable {M : Setup W V} {ty : Fin M.numDevices → SchedulerType}
  {attn expert : Fin M.numDevices → ℤ} {inFlight : Fin M.numDevices → List (TokenBatch W V)}

omit [Inhabited W] in
theorem sum_coe_flatMap {α β : Type} (l : List α) (f : α → List β) :
    (l.map fun a => (↑(f a) : Multiset β)).sum = ↑(l.flatMap f) := by
  induction l with
  | nil => rfl
  | cons a l ih => rw [List.map_cons, List.sum_cons, ih, List.flatMap_cons, Multiset.coe_add]

theorem whole_init (hin : InFlightOk M inFlight) : (init M ty attn expert inFlight).whole =
    ↑(init M ty attn expert inFlight).admitted := by
  rw [whole, Fin.sum_univ_def]
  refine Eq.trans ?_ (sum_coe_flatMap (List.finRange M.numDevices) _)
  congr 1
  refine List.map_congr_left fun d _ => ?_
  have hids : (inFlight d).map TokenBatch.runIds =
      (inFlight d).map fun b => (↑(b.rows.map (·.reqId)) : Multiset ℕ) :=
    List.map_congr_left fun b hb => if_pos (by simp [BatchMetadata.isAttention, (hin d b hb).tag])
  show (newPool M (ty d) (attn d) (expert d)).layerScheduler.attnIds +
    ((inFlight d).map TokenBatch.runIds).sum = _
  rw [(contents_newPool (K := M.kernels) M _ _ _).1, zero_add, hids, sum_coe_flatMap]

theorem copies_init (hin : InFlightOk M inFlight) :
    (init M ty attn expert inFlight).copies K = 0 := by
  have hdevice : ∀ d, ((init M ty attn expert inFlight).device d).copies K = 0 := by
    intro d
    obtain ⟨-, hwork, hgathered⟩ := contents_newPool (K := K) M (ty d) (attn d) (expert d)
    have hrun : ((inFlight d).map (TokenBatch.runCopies K)).sum = 0 := by
      refine List.sum_eq_zero fun x hx => ?_
      obtain ⟨b, hb, rfl⟩ := List.mem_map.mp hx
      exact if_neg (by simp [BatchMetadata.isExpert, (hin d b hb).tag])
    simp [Device.copies, init, hwork, hgathered, hrun]
  rw [copies, Finset.sum_eq_zero fun d _ => hdevice d, zero_add]
  exact Finset.sum_eq_zero fun x _ => rfl

theorem inv_abs_init (hin : InFlightOk M inFlight)
    (hnodup : (init M ty attn expert inFlight).admitted.Nodup) :
    ForkJoin.Inv M.topK Alike (abs M (init M ty attn expert inFlight)) := by
  intro r
  have hnone : (abs M (init M ty attn expert inFlight)).copiesOf r = 0 := by
    show ForkJoin.valuesOf r ((init M ty attn expert inFlight).copies M.kernels) = 0
    rw [copies_init hin]
    rfl
  have hcount : (abs M (init M ty attn expert inFlight)).whole.count r =
      (init M ty attn expert inFlight).admitted.count r := by
    show (init M ty attn expert inFlight).whole.count r = _
    rw [whole_init hin, Multiset.coe_count]
  constructor
  · rintro hr -
    exact .inl ⟨hcount.trans (List.count_eq_one_of_mem hnodup hr), hnone⟩
  · intro hr
    exact ⟨by simp [abs, init], hcount.trans (List.count_eq_zero.mpr hr), hnone⟩
  · intro hr
    simp [abs, init] at hr

end System

end Places

end StreamEP
