import Pfq.Skbuff

/-!
# Device submission: queue selection and the three locked submitters

`pfq_pick_tx` fixes the hardware queue of a submission, `pfq_xmit`, `pfq_batch_xmit` and
`pfq_batch_xmit_by_mask` take that queue's lock and call `__pfq_xmit` under it. A C `int` is a
`BitVec 32`; `__pfq_dev_cap_txqueue` compares it with the unsigned `real_num_tx_queues`, so the
comparison reads the queue as unsigned, and a negative queue is capped to 0 like a large one.

The batch primitives of `pf_q-skbuff-batch.h` are not in the sources; a batch is the list of its
buffers, and the iterations the submitters use are the list operations the spec describes.

The cleanup after a refusal frees the buffers from batch index `ret + 1` on, `ret` being the
number of accepted calls. In `pfq_batch_xmit` that is the index after the refused buffer; in
`pfq_batch_xmit_by_mask` it is not, and the cleanup there frees the refused buffer a second time
and buffers whose bit is clear (`pfqBatchXmitByMask_frees_unmasked`). When every index of the
batch is set in the mask, `ret` is the index of the submitted buffer, and the by-mask submitter
then does what `pfq_batch_xmit` does without the transmit hint.

The lock discipline of a log is replayed by `lockDiscipline`: it holds when every call of
`__pfq_xmit` happens under the lock of its own queue, the queue is one of the device's and the
buffer's queue mapping names it, and each lock taken is released once.
-/
namespace Pfq.Netdev
open Pfq.Skbuff

/-- The fields of `struct net_device` the transmit path reads. The bound on the number of queues
is the one `netif_alloc_netdev_queues` enforces. -/
structure NetDevice where
  ifindex : Nat
  realNumTxQueues : Nat
  ndoSelectQueue : Option (SkBuff → UInt16)
  one_le : 1 ≤ realNumTxQueues
  le_max : realNumTxQueues ≤ 0xffff

/-- `__pfq_dev_cap_txqueue`. -/
def __pfqDevCapTxqueue (dev : NetDevice) (hwQueue : BitVec 32) : BitVec 32 :=
  if dev.realNumTxQueues ≤ hwQueue.toNat then 0 else hwQueue

/-- `pfq_pick_tx`: the returned queue is the value left in `*hw_queue`, and the transmit queue is
`netdev_get_tx_queue(dev, *hw_queue)`. -/
def pfqPickTx (dev : NetDevice) (skb : SkBuff) (hwQueue : BitVec 32) : BitVec 32 :=
  let q : BitVec 32 :=
    if dev.realNumTxQueues ≠ 1 ∧ hwQueue = -1 then
      match dev.ndoSelectQueue with
      | some f => BitVec.ofNat 32 (f skb).toNat
      | none => 0
    else hwQueue
  __pfqDevCapTxqueue dev q

theorem __pfqDevCapTxqueue_lt (dev : NetDevice) (hwQueue : BitVec 32) :
    (__pfqDevCapTxqueue dev hwQueue).toNat < dev.realNumTxQueues := by
  unfold __pfqDevCapTxqueue
  split
  · simpa using dev.one_le
  · omega

theorem pfqPickTx_lt (dev : NetDevice) (skb : SkBuff) (hwQueue : BitVec 32) :
    (pfqPickTx dev skb hwQueue).toNat < dev.realNumTxQueues :=
  __pfqDevCapTxqueue_lt dev _

/-- The queue mapping a buffer gets for a selected queue names that queue. -/
theorem queueMapping_pickTx (dev : NetDevice) (skb skb' : SkBuff) (hwQueue : BitVec 32) :
    (skbSetQueueMapping skb' (pfqPickTx dev skb hwQueue)).queueMapping =
      (pfqPickTx dev skb hwQueue).toNat := by
  have h := pfqPickTx_lt dev skb hwQueue
  have := dev.le_max
  simp only [skbSetQueueMapping]
  omega

/-- What a batch submitter returns: the count of `NETDEV_TX_OK` answers, the batch afterwards
(a submitted buffer carries the queue mapping), and the events. -/
structure BatchXmit where
  sent : Nat
  skbs : List SkBuff
  events : List Event

/-- The loop of `pfq_batch_xmit` from batch index `n`. Each buffer gets the queue mapping and is
submitted with the hint set unless it is the last; at the first code other than `NETDEV_TX_OK`
the buffers after it are freed and the loop ends. `obs n` is what the call on buffer `n` meets. -/
def batchXmitLoop (u : Bool) (dev : NetDevice) (q : BitVec 32) (last : Nat)
    (obs : Nat → XmitObs) : Nat → List SkBuff → BatchXmit
  | _, [] => ⟨0, [], []⟩
  | n, skb :: rest =>
    let skb := skbSetQueueMapping skb q
    let r := __pfqXmit u dev.ifindex skb q.toNat (n != last) (obs n)
    if r.1 = NETDEV_TX_OK then
      let t := batchXmitLoop u dev q last obs (n + 1) rest
      ⟨t.sent + 1, skb :: t.skbs, r.2 ++ t.events⟩
    else ⟨0, skb :: rest, r.2 ++ rest.map .kfree⟩

/-- `pfq_batch_xmit`. The queue is selected along the first buffer; an empty batch reads a stale
slot there, for which any buffer serves. -/
def pfqBatchXmit (u : Bool) (skbs : List SkBuff) (dev : NetDevice) (hwQueue : BitVec 32)
    (obs : Nat → XmitObs) : BatchXmit :=
  let q := pfqPickTx dev skbs.headI hwQueue
  let r := batchXmitLoop u dev q (skbs.length - 1) obs 0 skbs
  ⟨r.sent, r.skbs, .lock dev.ifindex q.toNat :: r.events ++ [.unlock dev.ifindex q.toNat]⟩

/-- `pfq_batch_xmit` submits a prefix of the batch and stops at the first refusal: the buffers
the driver accepted are the first `sent` of the batch it hands back, which is the batch it was
given with queue mappings set; it neither allocates nor returns a buffer to the pool. -/
theorem batchXmitLoop_spec (u : Bool) (dev : NetDevice) (q : BitVec 32) (last : Nat)
    (obs : Nat → XmitObs) (n : Nat) (skbs : List SkBuff) :
    (batchXmitLoop u dev q last obs n skbs).sent ≤ skbs.length ∧
      (batchXmitLoop u dev q last obs n skbs).skbs.map SkBuff.key = skbs.map SkBuff.key ∧
      accepted (batchXmitLoop u dev q last obs n skbs).events =
        (batchXmitLoop u dev q last obs n skbs).skbs.take
          (batchXmitLoop u dev q last obs n skbs).sent ∧
      pooled (batchXmitLoop u dev q last obs n skbs).events = [] ∧
      allocated (batchXmitLoop u dev q last obs n skbs).events = [] := by
  induction skbs generalizing n with
  | nil => simp [batchXmitLoop]
  | cons skb rest ih =>
    obtain ⟨h1, h2, h3, h4, h5⟩ := ih (n + 1)
    obtain ⟨e1, e2, e3⟩ := __pfqXmit_events u dev.ifindex (skbSetQueueMapping skb q) q.toNat
      (n != last) (obs n)
    simp only [batchXmitLoop]
    split
    · next hok =>
      rw [__pfqXmit_ok_iff] at hok
      simp only [accepted_append, pooled_append, allocated_append, e1, e2, e3, hok, h1, h2, h3,
        h4, h5, if_true, List.length_cons, List.map_cons, key_skbSetQueueMapping,
        List.take_succ_cons, List.singleton_append, List.nil_append, true_and, and_true]
      omega
    · next hok =>
      rw [__pfqXmit_ok_iff, Bool.not_eq_true] at hok
      simp [e1, e2, e3, hok]

theorem pfqBatchXmit_spec (u : Bool) (skbs : List SkBuff) (dev : NetDevice) (hw : BitVec 32)
    (obs : Nat → XmitObs) :
    (pfqBatchXmit u skbs dev hw obs).sent ≤ skbs.length ∧
      (pfqBatchXmit u skbs dev hw obs).skbs.map SkBuff.key = skbs.map SkBuff.key ∧
      accepted (pfqBatchXmit u skbs dev hw obs).events =
        (pfqBatchXmit u skbs dev hw obs).skbs.take (pfqBatchXmit u skbs dev hw obs).sent ∧
      pooled (pfqBatchXmit u skbs dev hw obs).events = [] ∧
      allocated (pfqBatchXmit u skbs dev hw obs).events = [] := by
  obtain ⟨h1, h2, h3, h4, h5⟩ := batchXmitLoop_spec u dev (pfqPickTx dev skbs.headI hw)
    (skbs.length - 1) obs 0 skbs
  simp [pfqBatchXmit, h1, h2, h3, h4, h5, Event.accepted, Event.pooled, Event.allocated]

/-- The loop of `pfq_batch_xmit` gives up one reference of each buffer of the batch: the driver
consumes it, `__pfq_xmit` frees it, or the cleanup does. -/
theorem batchXmitLoop_refDelta (id : Nat) (u : Bool) (dev : NetDevice) (q : BitVec 32)
    (last : Nat) (obs : Nat → XmitObs) (n : Nat) (skbs : List SkBuff) :
    refDelta id (batchXmitLoop u dev q last obs n skbs).events =
      -(skbs.countP fun b => b.id = id : Int) := by
  induction skbs generalizing n with
  | nil => rfl
  | cons b rest ih =>
    simp only [batchXmitLoop]
    split <;> by_cases h : b.id = id <;> simp [__pfqXmit_refDelta, ih, List.countP_cons, h]

theorem pfqBatchXmit_refDelta (id : Nat) (u : Bool) (skbs : List SkBuff) (dev : NetDevice)
    (hw : BitVec 32) (obs : Nat → XmitObs) :
    refDelta id (pfqBatchXmit u skbs dev hw obs).events = -(skbs.countP fun b => b.id = id : Int) := by
  simp [pfqBatchXmit, batchXmitLoop_refDelta, Event.refDelta]

/-- The loop of `pfq_batch_xmit` from index `n`, when the first call refused is the `r`-th (or
none is and `r` is the last): the calls are made on the first `r + 1` buffers in order, a refused
buffer the driver did not consume is freed by `__pfq_xmit`, the cleanup frees every buffer after
it, and the loop counts the accepted calls. -/
theorem batchXmitLoop_to_first_refusal (u : Bool) (dev : NetDevice) (q : BitVec 32) (last : Nat)
    (obs : Nat → XmitObs) (skbs : List SkBuff) (n r : Nat) (hr : r < skbs.length)
    (hok : ∀ i < r, (obs (n + i)).ok = true)
    (hstop : (obs (n + r)).ok = false ∨ r = skbs.length - 1) :
    (batchXmitLoop u dev q last obs n skbs).events =
      (skbs.take (r + 1)).mapIdx (fun i b => Event.xmit dev.ifindex (skbSetQueueMapping b q)
          q.toNat (u && (n + i != last)) (obs (n + i))) ++
        (if (obs (n + r)).consumed then []
          else [.kfree (skbSetQueueMapping (skbs.getD r default) q)]) ++
        (skbs.drop (r + 1)).map .kfree ∧
    (batchXmitLoop u dev q last obs n skbs).sent =
      ((List.range (r + 1)).filter fun i => (obs (n + i)).ok).length := by
  induction skbs generalizing n r with
  | nil => cases hr
  | cons b rest ih =>
    simp only [batchXmitLoop, __pfqXmit_ok_iff]
    cases r with
    | zero =>
      cases ho : (obs n).ok
      · simp [__pfqXmit_events_eq, ho, List.range_succ_eq_map, List.range_zero]
      · have hrest : 0 = rest.length := by simpa [ho] using hstop
        rw [List.length_eq_zero.1 hrest.symm]
        simp [__pfqXmit_events_eq, ho, XmitObs.consumed_of_ok ho, batchXmitLoop, List.range_succ_eq_map, List.range_zero]
    | succ r =>
      have ho : (obs n).ok = true := by simpa using hok 0 (Nat.succ_pos r)
      obtain ⟨he, hs⟩ := ih (n + 1) r (by simpa using hr)
        (fun i hi => by simpa [Nat.add_assoc, Nat.add_comm 1] using hok (i + 1) (by omega))
        (hstop.imp (fun h => by simpa [Nat.add_assoc, Nat.add_comm 1] using h)
          (fun h => by simp only [List.length_cons] at h; omega))
      have hshift : ∀ i, n + 1 + i = n + (i + 1) := fun i => by omega
      simp only [hshift] at he hs
      simp only [ho, if_true, __pfqXmit_events_eq, XmitObs.consumed_of_ok ho, he, hs,
        List.take_succ_cons, List.mapIdx_cons, List.drop_succ_cons, List.getD_cons_succ,
        Nat.add_zero, List.range_succ_eq_map (r + 1), List.filter_cons, List.filter_map,
        Function.comp_def, Nat.succ_eq_add_one, List.length_cons, List.cons_append,
        List.singleton_append, List.append_assoc, List.nil_append, List.length_map, true_and]

/-- `pfq_batch_xmit` on a batch of `K ≥ 1` buffers whose first refused call is the `r`-th (or
`r = K - 1` when none is refused): under the lock of the selected queue it calls `__pfq_xmit` on
`b_0, ..., b_r` in order, the call on `b_i` with the hint `i != K - 1` (cleared without
`PFQ_USE_XMIT_MORE`), frees `b_r` only when the driver did not consume it, frees each of
`b_(r+1), ..., b_(K-1)` once, and returns the number of calls accepted with `NETDEV_TX_OK`. -/
theorem pfqBatchXmit_submits_to_first_refusal (u : Bool) (skbs : List SkBuff) (dev : NetDevice)
    (hw : BitVec 32) (obs : Nat → XmitObs) (r : Nat) (hr : r < skbs.length)
    (hok : ∀ i < r, (obs i).ok = true) (hstop : (obs r).ok = false ∨ r = skbs.length - 1) :
    (pfqBatchXmit u skbs dev hw obs).events =
      .lock dev.ifindex (pfqPickTx dev skbs.headI hw).toNat ::
        (skbs.take (r + 1)).mapIdx (fun i b => Event.xmit dev.ifindex
          (skbSetQueueMapping b (pfqPickTx dev skbs.headI hw)) (pfqPickTx dev skbs.headI hw).toNat
          (u && (i != skbs.length - 1)) (obs i)) ++
        (if (obs r).consumed then []
          else [.kfree (skbSetQueueMapping (skbs.getD r default) (pfqPickTx dev skbs.headI hw))]) ++
        (skbs.drop (r + 1)).map .kfree ++ [.unlock dev.ifindex (pfqPickTx dev skbs.headI hw).toNat] ∧
    (pfqBatchXmit u skbs dev hw obs).sent =
      ((List.range (r + 1)).filter fun i => (obs i).ok).length := by
  obtain ⟨he, hs⟩ := batchXmitLoop_to_first_refusal u dev (pfqPickTx dev skbs.headI hw)
    (skbs.length - 1) obs skbs 0 r hr (by simpa using hok) (by simpa using hstop)
  simp only [Nat.zero_add] at he hs
  exact ⟨by simp [pfqBatchXmit, he], hs⟩

/-- A one-queue device without a queue selector. -/
def oneQueueDev : NetDevice := ⟨1, 1, none, le_rfl, by decide⟩

/-- Three fresh buffers of 60 bytes. -/
def threeSkbs : List SkBuff := [⟨1, 60, [], 0⟩, ⟨2, 60, [], 0⟩, ⟨3, 60, [], 0⟩]

/-- The driver meets a device that is down at the call on batch index 1, and accepts the others. -/
def downAtOne : Nat → XmitObs := fun i => if i = 1 then ⟨false, false, 0⟩ else ⟨true, false, 0⟩

/-- The second of three buffers refused: the first is submitted with the hint, the second is
freed by `__pfq_xmit` and the third by the cleanup. -/
theorem pfqBatchXmit_three_refused_second :
    (pfqBatchXmit true threeSkbs oneQueueDev 0 downAtOne).events =
      [.lock 1 0, .xmit 1 ⟨1, 60, [], 0⟩ 0 true ⟨true, false, 0⟩,
        .xmit 1 ⟨2, 60, [], 0⟩ 0 true ⟨false, false, 0⟩, .kfree ⟨2, 60, [], 0⟩,
        .kfree ⟨3, 60, [], 0⟩, .unlock 1 0] ∧
    (pfqBatchXmit true threeSkbs oneQueueDev 0 downAtOne).sent = 1 := by
  obtain ⟨he, hs⟩ := pfqBatchXmit_submits_to_first_refusal true threeSkbs oneQueueDev 0 downAtOne 1
    (by decide) (by decide) (by decide)
  exact ⟨he.trans (by decide), hs.trans (by decide)⟩

/-- Modelled from the spec: the iteration of `for_each_skbuff_bitmask`, which visits, in order,
the indices of the batch whose bit is set in the 64-bit mask. -/
def maskedIndices (mask : BitVec 64) (skbs : List SkBuff) : List (Nat × SkBuff) :=
  skbs.enum.filter fun p => decide (p.1 < 64) && mask.getLsbD p.1

/-- The loop of `pfq_batch_xmit_by_mask` over the masked buffers, `ret` submissions accepted so
far; after a refusal the cleanup frees every buffer from index `ret + 1` on. -/
def maskXmitLoop (u : Bool) (dev : NetDevice) (q : BitVec 32) (obs : Nat → XmitObs)
    (skbs : List SkBuff) (ret : Nat) : List (Nat × SkBuff) → Nat × List Event
  | [] => (ret, [])
  | (n, skb) :: rest =>
    let r := __pfqXmit u dev.ifindex (skbSetQueueMapping skb q) q.toNat false (obs n)
    if r.1 = NETDEV_TX_OK then
      let t := maskXmitLoop u dev q obs skbs (ret + 1) rest
      (t.1, r.2 ++ t.2)
    else (ret, r.2 ++ (skbs.drop (ret + 1)).map .kfree)

/-- `pfq_batch_xmit_by_mask`. -/
def pfqBatchXmitByMask (u : Bool) (skbs : List SkBuff) (mask : BitVec 64) (dev : NetDevice)
    (hwQueue : BitVec 32) (obs : Nat → XmitObs) : Nat × List Event :=
  let q := pfqPickTx dev skbs.headI hwQueue
  let r := maskXmitLoop u dev q obs skbs 0 (maskedIndices mask skbs)
  (r.1, .lock dev.ifindex q.toNat :: r.2 ++ [.unlock dev.ifindex q.toNat])

/-- The cleanup of `pfq_batch_xmit_by_mask` starts at batch index `ret + 1` whatever the mask: with
only bit 1 set and that buffer refused, `__pfq_xmit` frees buffer 2, and the cleanup frees it
again and frees buffer 3, whose bit is clear. -/
theorem pfqBatchXmitByMask_frees_unmasked :
    pfqBatchXmitByMask true threeSkbs 2 oneQueueDev 0 downAtOne =
      (0, [.lock 1 0, .xmit 1 ⟨2, 60, [], 0⟩ 0 false ⟨false, false, 0⟩, .kfree ⟨2, 60, [], 0⟩,
        .kfree ⟨2, 60, [], 0⟩, .kfree ⟨3, 60, [], 0⟩, .unlock 1 0]) := by
  decide

/-- The by-mask submitter passes no hint, so with or without the hint configured its call of
`__pfq_xmit` is the one `pfq_batch_xmit` makes when built without the hint. -/
theorem __pfqXmit_noHint (u : Bool) (d : Nat) (skb : SkBuff) (q : Nat) (more : Bool)
    (o : XmitObs) : __pfqXmit u d skb q false o = __pfqXmit false d skb q more o := by
  simp [__pfqXmit]

/-- Over the buffers from batch index `n` on, visited in order, the by-mask loop makes the calls,
cleanup and count of the loop of `pfq_batch_xmit`: its `ret` is then the index of the buffer it
submits, so the cleanup from `ret + 1` starts right after a refused buffer. -/
theorem maskXmitLoop_enumFrom (u : Bool) (dev : NetDevice) (q : BitVec 32) (last : Nat)
    (obs : Nat → XmitObs) (skbs : List SkBuff) (rest : List SkBuff) :
    ∀ n, skbs.drop n = rest → maskXmitLoop u dev q obs skbs n (rest.enumFrom n) =
      ((batchXmitLoop false dev q last obs n rest).sent + n,
        (batchXmitLoop false dev q last obs n rest).events) := by
  induction rest with
  | nil => intro n _; simp [maskXmitLoop, batchXmitLoop]
  | cons skb rest ih =>
    intro n h
    have hdrop : skbs.drop (n + 1) = rest := by rw [← List.drop_drop, h]; rfl
    simp only [List.enumFrom_cons, maskXmitLoop, batchXmitLoop,
      __pfqXmit_noHint u _ _ _ (n != last)]
    split
    · rw [ih (n + 1) hdrop, Nat.add_right_comm, Nat.add_assoc]
    · simp [hdrop]

theorem maskedIndices_of_full {mask : BitVec 64} {skbs : List SkBuff} (hlen : skbs.length ≤ 64)
    (hm : ∀ i < skbs.length, mask.getLsbD i = true) : maskedIndices mask skbs = skbs.enum :=
  List.filter_eq_self.2 fun p hp => by
    have := List.fst_lt_of_mem_enum hp
    simp [hm _ this, show p.1 < 64 by omega]

/-- On a batch of at most 64 buffers with every index set in the mask, `pfq_batch_xmit_by_mask`
does what `pfq_batch_xmit` built without the transmit hint does: the same calls of the driver
under the same lock, the same cleanup after a refusal, and the same count. -/
theorem batchXmitByMask_full_mask (u : Bool) (skbs : List SkBuff) (mask : BitVec 64)
    (dev : NetDevice) (hw : BitVec 32) (obs : Nat → XmitObs) (hlen : skbs.length ≤ 64)
    (hm : ∀ i < skbs.length, mask.getLsbD i = true) :
    pfqBatchXmitByMask u skbs mask dev hw obs =
      ((pfqBatchXmit false skbs dev hw obs).sent, (pfqBatchXmit false skbs dev hw obs).events) := by
  simp only [pfqBatchXmitByMask, pfqBatchXmit, maskedIndices_of_full hlen hm, List.enum_eq_enumFrom,
    maskXmitLoop_enumFrom u dev _ (skbs.length - 1) obs skbs skbs 0 rfl, Nat.add_zero]

theorem batchXmitByMask_full_mask_refused_second : threeSkbs.length ≤ 64 ∧
    (∀ i < threeSkbs.length, (7 : BitVec 64).getLsbD i = true) ∧
    pfqBatchXmitByMask true threeSkbs 7 oneQueueDev 0 downAtOne =
      ((pfqBatchXmit false threeSkbs oneQueueDev 0 downAtOne).sent,
        (pfqBatchXmit false threeSkbs oneQueueDev 0 downAtOne).events) :=
  ⟨by decide, by decide,
    batchXmitByMask_full_mask true threeSkbs 7 oneQueueDev 0 downAtOne (by decide) (by decide)⟩

/-! ### Lock discipline -/

/-- Replays a log against the queue lock held (`none` when no lock is held): every call of
`__pfq_xmit` is made under the lock of its own queue, with the buffer's queue mapping equal to
that queue; a lock is taken on a queue the device has, never while another is held, and the log
ends with no lock held. `numQueues` gives each device's `real_num_tx_queues`. -/
def lockDiscipline (numQueues : Nat → Nat) : Option (Nat × Nat) → List Event → Bool
  | held, [] => held.isNone
  | none, .lock d q :: es => decide (q < numQueues d) && lockDiscipline numQueues (some (d, q)) es
  | some _, .lock _ _ :: _ => false
  | some h, .unlock d q :: es => (d, q) == h && lockDiscipline numQueues none es
  | none, .unlock _ _ :: _ => false
  | some h, .xmit d skb q _ _ :: es =>
    (d, q) == h && skb.queueMapping == q && lockDiscipline numQueues (some h) es
  | none, .xmit .. :: _ => false
  | held, _ :: es => lockDiscipline numQueues held es

/-- An event that may stand while the lock of queue `q` of device `d` is held. -/
def underLock (d q : Nat) : Event → Bool
  | .lock _ _ | .unlock _ _ => false
  | .xmit d' skb q' _ _ => d' == d && q' == q && skb.queueMapping == q
  | _ => true

/-- An event that may stand under the lock of queue `q` of device `d` leaves the replay where it
was. -/
theorem lockDiscipline_cons_underLock (nq : Nat → Nat) {d q : Nat} {e : Event} (es : List Event)
    (he : underLock d q e = true) :
    lockDiscipline nq (some (d, q)) (e :: es) = lockDiscipline nq (some (d, q)) es := by
  cases e with
  | xmit d' skb q' more o =>
    simp only [underLock, Bool.and_eq_true, beq_iff_eq] at he
    obtain ⟨⟨rfl, rfl⟩, hm⟩ := he
    simp [lockDiscipline, hm]
  | lock | unlock => simp [underLock] at he
  | _ => rfl

theorem lockDiscipline_append_underLock (nq : Nat → Nat) (d q : Nat) (mid rest : List Event)
    (h : ∀ e ∈ mid, underLock d q e = true) :
    lockDiscipline nq (some (d, q)) (mid ++ rest) = lockDiscipline nq (some (d, q)) rest := by
  induction mid with
  | nil => rfl
  | cons e mid ih =>
    rw [List.cons_append, lockDiscipline_cons_underLock nq _ (h e (List.mem_cons_self _ _)),
      ih fun e' he' => h e' (List.mem_cons_of_mem _ he')]

/-- A log that takes one queue lock, makes only calls under it, and releases it. -/
theorem lockDiscipline_locked (nq : Nat → Nat) (d q : Nat) (hq : q < nq d) (mid : List Event)
    (h : ∀ e ∈ mid, underLock d q e = true) :
    lockDiscipline nq none (.lock d q :: mid ++ [.unlock d q]) = true := by
  show (decide (q < nq d) && lockDiscipline nq (some (d, q)) (mid ++ [.unlock d q])) = true
  rw [lockDiscipline_append_underLock nq d q mid _ h]
  simp [lockDiscipline, hq]

theorem __pfqXmit_underLock (u : Bool) (d : Nat) (skb : SkBuff) (q : Nat) (more : Bool)
    (o : XmitObs) (hq : skb.queueMapping = q) : ∀ e ∈ (__pfqXmit u d skb q more o).2,
      underLock d q e = true := by
  unfold __pfqXmit
  split <;> simp [underLock, hq]

theorem kfree_underLock (d q : Nat) (l : List SkBuff) :
    ∀ e ∈ l.map Event.kfree, underLock d q e = true := by
  simp [underLock]

section
variable (u : Bool) (dev : NetDevice)

theorem batchXmitLoop_underLock (skb₀ : SkBuff) (hw : BitVec 32) (last : Nat)
    (obs : Nat → XmitObs) (n : Nat) (skbs : List SkBuff) :
    ∀ e ∈ (batchXmitLoop u dev (pfqPickTx dev skb₀ hw) last obs n skbs).events,
      underLock dev.ifindex (pfqPickTx dev skb₀ hw).toNat e = true := by
  induction skbs generalizing n with
  | nil => simp [batchXmitLoop]
  | cons skb rest ih =>
    have hx := __pfqXmit_underLock u dev.ifindex _ _ (n != last) (obs n)
      (queueMapping_pickTx dev skb₀ skb hw)
    simp only [batchXmitLoop]
    split
    · intro e he
      rcases List.mem_append.mp he with he | he
      · exact hx e he
      · exact ih (n + 1) e he
    · intro e he
      rcases List.mem_append.mp he with he | he
      · exact hx e he
      · exact kfree_underLock _ _ rest e he

theorem pfqBatchXmit_lockDiscipline (skbs : List SkBuff) (hw : BitVec 32)
    (obs : Nat → XmitObs) :
    lockDiscipline (fun _ => dev.realNumTxQueues) none
      (pfqBatchXmit u skbs dev hw obs).events = true :=
  lockDiscipline_locked _ _ _ (pfqPickTx_lt dev _ hw) _
    (batchXmitLoop_underLock u dev _ hw _ obs 0 skbs)

end

end Pfq.Netdev
