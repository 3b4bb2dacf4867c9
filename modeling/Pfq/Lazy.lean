import Pfq.Netdev

/-!
# Lazy forwarding: annotation logs and their commit

`pfq_lazy_xmit` records a target device in the log of an in-flight buffer and sets the buffer's
queue mapping; `pfq_lazy_xmit_exec` later walks the targets and, for each, the buffers whose log
names it, delivering each buffer once per occurrence under the lock of one queue of the device.
The queue is picked from the queue mapping of the first buffer that has a delivery for the
device, and the later buffers are submitted under that lock with their own mapping.

The garbage-collector header is not in the sources: a log is modelled from the spec by its list
of devices (`dev[0 .. num_devs)`), `xmit_todo` (a `size_t`) and `to_kernel`. A device is named by
its interface index, and `devs` gives the `struct net_device` behind each.
-/
namespace Pfq.Lazy
open Pfq.Skbuff Pfq.Netdev

/-- Modelled from the spec: `struct gc_log`, the annotations of one buffer. -/
structure GcLog where
  dev : List Nat
  xmitTodo : Nat
  toKernel : Bool
  deriving DecidableEq, Repr, Inhabited

/-- A buffer of the garbage collector's pool with its log (`PFQ_CB(skb)->log`). -/
structure GcBuff where
  skb : SkBuff
  log : GcLog
  deriving DecidableEq, Repr, Inhabited

/-- Modelled from the spec: `gc_count_dev_in_log`, the references of a log to a device. -/
def gcCountDevInLog (d : Nat) (log : GcLog) : Nat := log.dev.count d

/-- `pfq_lazy_xmit` for a log capacity `Q_GC_LOG_QUEUE_LEN`: a full log refuses the annotation,
otherwise the buffer gets the queue mapping and the device is appended. -/
def pfqLazyXmit (logQueueLen : Nat) (buff : GcBuff) (d : Nat) (hwQueue : BitVec 32) :
    Bool × GcBuff :=
  if logQueueLen ≤ buff.log.dev.length then (false, buff)
  else (true, ⟨skbSetQueueMapping buff.skb hwQueue,
    { buff.log with dev := buff.log.dev ++ [d], xmitTodo := (buff.log.xmitTodo + 1) % 2 ^ 64 }⟩)

/-- The loop of `pfq_batch_lazy_xmit` and `pfq_batch_lazy_xmit_by_mask` from queue index `i`:
`pfq_lazy_xmit` on every buffer whose index `pick` selects, counting the accepted annotations. -/
def batchLazyXmitPicked (logQueueLen : Nat) (pick : Nat → Bool) (d : Nat) (hwQueue : BitVec 32) :
    Nat → List GcBuff → Nat × List GcBuff
  | _, [] => (0, [])
  | i, b :: rest =>
    let r := batchLazyXmitPicked logQueueLen pick d hwQueue (i + 1) rest
    if pick i then
      let a := pfqLazyXmit logQueueLen b d hwQueue
      ((if a.1 then 1 else 0) + r.1, a.2 :: r.2)
    else (r.1, b :: r.2)

/-- `pfq_batch_lazy_xmit`: annotate every buffer of the queue, counting the accepted ones. -/
def pfqBatchLazyXmit (logQueueLen : Nat) (queue : List GcBuff) (d : Nat) (hwQueue : BitVec 32) :
    Nat × List GcBuff :=
  batchLazyXmitPicked logQueueLen (fun _ => true) d hwQueue 0 queue

/-- `pfq_batch_lazy_xmit_by_mask`: annotate the buffers whose index is set in `mask`. The
iteration `for_each_gcbuff_bitmask` is not in the sources; it is the spec's iterate-by-mask over
the 64 bits of the mask. -/
def pfqBatchLazyXmitByMask (logQueueLen : Nat) (queue : List GcBuff) (mask : BitVec 64) (d : Nat)
    (hwQueue : BitVec 32) : Nat × List GcBuff :=
  batchLazyXmitPicked logQueueLen (fun i => decide (i < 64) && mask.getLsbD i) d hwQueue 0 queue

/-- Whether the batch annotation from index `i` annotates entry `k` of `queue`: picked, with room
left in its log. -/
def annotates (logQueueLen : Nat) (pick : Nat → Bool) (i : Nat) (queue : List GcBuff) (k : Nat) :
    Bool :=
  pick (i + k) && decide ((queue.getD k default).log.dev.length < logQueueLen)

/-- A batch annotation keeps every buffer in its place and applies `pfq_lazy_xmit` to each buffer
`pick` selects, leaving the others as they were; it returns the number it annotated. -/
theorem batchLazyXmitPicked_spec (logQueueLen : Nat) (pick : Nat → Bool) (d : Nat)
    (hwQueue : BitVec 32) (i : Nat) (queue : List GcBuff) :
    (batchLazyXmitPicked logQueueLen pick d hwQueue i queue).2 =
        queue.mapIdx (fun k b => if pick (i + k) then (pfqLazyXmit logQueueLen b d hwQueue).2 else b) ∧
      (batchLazyXmitPicked logQueueLen pick d hwQueue i queue).1 =
        ((List.range queue.length).filter (annotates logQueueLen pick i queue)).length := by
  induction queue generalizing i with
  | nil => simp [batchLazyXmitPicked]
  | cons b rest ih =>
    obtain ⟨h1, h2⟩ := ih (i + 1)
    have hshift : ∀ k, annotates logQueueLen pick i (b :: rest) (k + 1) =
        annotates logQueueLen pick (i + 1) rest k := fun k => by
      simp only [annotates, List.getD_cons_succ]
      rw [show i + (k + 1) = i + 1 + k by omega]
    have hcount : ((List.range (rest.length + 1)).filter
        (annotates logQueueLen pick i (b :: rest))).length =
        (if annotates logQueueLen pick i (b :: rest) 0 then 1 else 0) +
          ((List.range rest.length).filter (annotates logQueueLen pick (i + 1) rest)).length := by
      rw [List.range_succ_eq_map, List.filter_cons, List.filter_map]
      simp only [Function.comp_def, hshift, ← Nat.succ_eq_add_one]
      split <;> simp [Nat.add_comm]
    have hann : annotates logQueueLen pick i (b :: rest) 0 =
        (pick i && decide (b.log.dev.length < logQueueLen)) := by
      simp [annotates]
    have hf : (fun k c => if pick (i + (k + 1)) then (pfqLazyXmit logQueueLen c d hwQueue).2
        else c) = fun k c => if pick (i + 1 + k) then (pfqLazyXmit logQueueLen c d hwQueue).2
        else c := by
      funext k c
      rw [show i + (k + 1) = i + 1 + k by omega]
    simp only [batchLazyXmitPicked, List.length_cons, List.mapIdx_cons, Nat.add_zero, hf, ← h1]
    refine ⟨by split <;> simp [*], ?_⟩
    rw [hcount, h2]
    by_cases hp : pick i <;> by_cases hr : b.log.dev.length < logQueueLen <;>
      simp [hann, hp, hr, pfqLazyXmit, Nat.not_le.2, Nat.le_of_not_lt]

/-- `pfq_batch_lazy_xmit_by_mask` keeps every buffer in its place. A buffer among the first 64
whose bit is set in the mask and whose log has room gets the queue mapping, the device appended
to its log and one more pending delivery; every other buffer, log included, is left as it was.
It returns how many buffers it annotated. -/
theorem batchLazyXmitByMask_annotates (logQueueLen : Nat) (queue : List GcBuff)
    (mask : BitVec 64) (d : Nat) (hwQueue : BitVec 32) :
    (pfqBatchLazyXmitByMask logQueueLen queue mask d hwQueue).2 =
        queue.mapIdx (fun k b =>
          if k < 64 ∧ mask.getLsbD k = true ∧ b.log.dev.length < logQueueLen then
            ⟨skbSetQueueMapping b.skb hwQueue,
              { b.log with dev := b.log.dev ++ [d], xmitTodo := (b.log.xmitTodo + 1) % 2 ^ 64 }⟩
          else b) ∧
      (pfqBatchLazyXmitByMask logQueueLen queue mask d hwQueue).1 =
        ((List.range queue.length).filter fun k => decide (k < 64 ∧ mask.getLsbD k = true ∧
          (queue.getD k default).log.dev.length < logQueueLen)).length := by
  have hann : annotates logQueueLen (fun i => decide (i < 64) && mask.getLsbD i) 0 queue =
      fun k => decide (k < 64 ∧ mask.getLsbD k = true ∧
        (queue.getD k default).log.dev.length < logQueueLen) := by
    funext k
    simp [annotates, Bool.and_assoc]
  obtain ⟨h1, h2⟩ := batchLazyXmitPicked_spec logQueueLen _ d hwQueue 0 queue
  rw [hann] at h2
  refine ⟨h1.trans (congrArg (List.mapIdx · queue) (funext fun k => funext fun b => ?_)), h2⟩
  unfold pfqLazyXmit
  by_cases hk : k < 64 ∧ mask.getLsbD k = true
  · by_cases hr : b.log.dev.length < logQueueLen
    · simp [hk, hr, Nat.not_le.2 hr]
    · simp [hk, hr, Nat.not_lt.1 hr]
  · have hn : ¬ (k < 64 ∧ mask.getLsbD k = true ∧ b.log.dev.length < logQueueLen) :=
      fun h => hk ⟨h.1, h.2.1⟩
    rw [if_neg hn]
    simp [hk]

/-! ### Annotation histories -/

/-- A call of the capture path that annotates the pool: `pfq_lazy_xmit` on entry `i`, or one of
the two batch calls on the whole pool. -/
inductive LazyCall where
  | lazyXmit (i d : Nat) (hwQueue : BitVec 32)
  | batchLazyXmit (d : Nat) (hwQueue : BitVec 32)
  | batchLazyXmitByMask (mask : BitVec 64) (d : Nat) (hwQueue : BitVec 32)
  deriving DecidableEq, Repr

/-- The pool after one annotation call, for a log capacity `Q_GC_LOG_QUEUE_LEN`. -/
def LazyCall.apply (logQueueLen : Nat) (pool : List GcBuff) : LazyCall → List GcBuff
  | .lazyXmit i d hwQueue =>
    pool.set i (pfqLazyXmit logQueueLen (pool.getD i default) d hwQueue).2
  | .batchLazyXmit d hwQueue => (pfqBatchLazyXmit logQueueLen pool d hwQueue).2
  | .batchLazyXmitByMask mask d hwQueue =>
    (pfqBatchLazyXmitByMask logQueueLen pool mask d hwQueue).2

/-- The pools whose logs a sequence of annotation calls, accepted or refused, built from empty
logs (`num_devs = xmit_todo = 0`). -/
inductive Annotated (logQueueLen : Nat) : List GcBuff → Prop where
  | empty (pool : List GcBuff) (h : ∀ b ∈ pool, b.log.dev = [] ∧ b.log.xmitTodo = 0) :
    Annotated logQueueLen pool
  | call {pool : List GcBuff} (c : LazyCall) :
    Annotated logQueueLen pool → Annotated logQueueLen (c.apply logQueueLen pool)

/-- A log as the annotations leave it: one pending delivery per logged device, within the
capacity. -/
def GcLog.Wf (logQueueLen : Nat) (log : GcLog) : Prop :=
  log.xmitTodo = log.dev.length ∧ log.dev.length ≤ logQueueLen

theorem batchLazyXmitPicked_forall (P : GcBuff → Prop) {logQueueLen : Nat} {d : Nat}
    {hwQueue : BitVec 32} (hP : ∀ b, P b → P (pfqLazyXmit logQueueLen b d hwQueue).2)
    (pick : Nat → Bool) (i : Nat) (queue : List GcBuff) (h : ∀ b ∈ queue, P b) :
    ∀ b ∈ (batchLazyXmitPicked logQueueLen pick d hwQueue i queue).2, P b := by
  induction queue generalizing i with
  | nil => simp [batchLazyXmitPicked]
  | cons c rest ih =>
    simp only [List.forall_mem_cons] at h
    simp only [batchLazyXmitPicked]
    split <;> simp only [List.forall_mem_cons] <;> exact ⟨by first | exact hP c h.1 | exact h.1,
      ih (i + 1) h.2⟩

theorem LazyCall.apply_forall (P : GcBuff → Prop) {logQueueLen : Nat}
    (hP : ∀ b d hwQueue, P b → P (pfqLazyXmit logQueueLen b d hwQueue).2) (c : LazyCall)
    {pool : List GcBuff} (h : ∀ b ∈ pool, P b) : ∀ b ∈ c.apply logQueueLen pool, P b := by
  cases c with
  | lazyXmit i d hwQueue =>
    intro b hb
    by_cases hi : i < pool.length
    · rcases List.mem_or_eq_of_mem_set hb with hb | rfl
      · exact h b hb
      · exact hP _ d hwQueue (h _ (by rw [List.getD_eq_getElem _ _ hi]; exact List.getElem_mem hi))
    · rw [LazyCall.apply, List.set_eq_of_length_le (by omega)] at hb
      exact h b hb
  | batchLazyXmit d hwQueue => exact batchLazyXmitPicked_forall P (hP · d hwQueue) _ 0 pool h
  | batchLazyXmitByMask mask d hwQueue =>
    exact batchLazyXmitPicked_forall P (hP · d hwQueue) _ 0 pool h

theorem pfqLazyXmit_wf {logQueueLen : Nat} (hL : logQueueLen < 2 ^ 64) {b : GcBuff} (d : Nat)
    (hwQueue : BitVec 32) (h : b.log.Wf logQueueLen) :
    (pfqLazyXmit logQueueLen b d hwQueue).2.log.Wf logQueueLen := by
  unfold pfqLazyXmit GcLog.Wf at *
  split
  · exact h
  · simp only [List.length_append, List.length_singleton]
    omega

theorem Annotated.foldl {logQueueLen : Nat} {pool : List GcBuff} (h : Annotated logQueueLen pool)
    (calls : List LazyCall) :
    Annotated logQueueLen (calls.foldl (LazyCall.apply logQueueLen) pool) := by
  induction calls generalizing pool with
  | nil => exact h
  | cons c calls ih => exact ih (.call c h)

theorem Annotated.wf {logQueueLen : Nat} (hL : logQueueLen < 2 ^ 64) {pool : List GcBuff}
    (h : Annotated logQueueLen pool) : ∀ b ∈ pool, b.log.Wf logQueueLen := by
  induction h with
  | empty pool h => exact fun b hb => by simp [GcLog.Wf, (h b hb).1, (h b hb).2]
  | call c _ ih => exact c.apply_forall _ (fun _ d q hb => pfqLazyXmit_wf hL d q hb) ih

/-- `lazy_fwd_targets`: the distinct devices of a drain and, for each, the deliveries the logs
make to it. -/
structure LazyFwdTargets where
  dev : List Nat
  cnt : List Nat
  deriving DecidableEq, Repr

/-- What a commit meets: the outcome of each call of `__pfq_xmit` and of each `skb_clone` (the
address of the clone, or failure), both in call order. -/
structure LazyEnv where
  obs : Nat → XmitObs
  clone : Nat → Option Nat

/-- The state a commit threads: the pool with its logs, the count of accepted submissions, the
calls made so far of `__pfq_xmit` and of `skb_clone`, and the events. -/
structure Commit where
  pool : List GcBuff
  sent : Nat
  xi : Nat
  ci : Nat
  events : List Event

/-- One delivery of pool entry `i` to device `d` on queue `q`, as the innermost loop of
`pfq_lazy_xmit_exec` makes it; `sentDev` counts this device's deliveries before it. The buffer
is cloned while the kernel or a later delivery still needs it (`xmit_todo` is decremented only
when `to_kernel` is clear), and handed over with `skb_get` otherwise. -/
def deliver (e : LazyEnv) (u : Bool) (d q cnt i sentDev : Nat) (s : Commit) : Commit :=
  let b := s.pool.getD i default
  let more := sentDev + 1 != cnt
  let toClone := b.log.toKernel || decide (1 < b.log.xmitTodo)
  let log := if b.log.toKernel then b.log
    else { b.log with xmitTodo := (b.log.xmitTodo + 2 ^ 64 - 1) % 2 ^ 64 }
  let pool := s.pool.set i { b with log := log }
  let (nskb, ci, ev) :=
    if toClone then
      let n := (e.clone s.ci).map fun a => { b.skb with id := a }
      (n, s.ci + 1, Event.clone b.skb n)
    else (some b.skb, s.ci, Event.get b.skb)
  match nskb with
  | none => ⟨pool, s.sent, s.xi, ci, s.events ++ [ev, .abrt]⟩
  | some n =>
    let r := __pfqXmit u d n q more (e.obs s.xi)
    if r.1 = NETDEV_TX_OK then ⟨pool, s.sent + 1, s.xi + 1, ci, s.events ++ ev :: r.2⟩
    else ⟨pool, s.sent, s.xi + 1, ci, s.events ++ ev :: r.2 ++ [.abrt]⟩

/-- The `num` deliveries of pool entry `i`, numbered on from `sentDev`. -/
def deliverN (e : LazyEnv) (u : Bool) (d q cnt i : Nat) : Nat → Nat → Commit → Commit
  | 0, _, s => s
  | num + 1, sentDev, s => deliverN e u d q cnt i num (sentDev + 1) (deliver e u d q cnt i sentDev s)

/-- The scan of the pool for device `d` from entry `i` on: `txq` is the queue locked so far, if
any; the first entry with a delivery picks the queue from its buffer's mapping and locks it. -/
def scanPool (e : LazyEnv) (u : Bool) (dev : NetDevice) (cnt : Nat) :
    List GcBuff → Nat → Option Nat → Nat → Commit → Option Nat × Commit
  | [], _, txq, _, s => (txq, s)
  | b :: rest, i, txq, sentDev, s =>
    let num := gcCountDevInLog dev.ifindex b.log
    if num = 0 then scanPool e u dev cnt rest (i + 1) txq sentDev s
    else
      let (q, s) := match txq with
        | some q => (q, s)
        | none =>
          let q := (pfqPickTx dev b.skb (BitVec.ofNat 32 b.skb.queueMapping)).toNat
          (q, { s with events := s.events ++ [.lock dev.ifindex q] })
      scanPool e u dev cnt rest (i + 1) (some q) (sentDev + num)
        (deliverN e u dev.ifindex q cnt i num sentDev s)

/-- `pfq_lazy_xmit_exec` over the targets from index `n` on. -/
def execTargets (e : LazyEnv) (u : Bool) (devs : Nat → NetDevice) (ts : LazyFwdTargets) :
    List Nat → Nat → Commit → Commit
  | [], _, s => s
  | d :: rest, n, s =>
    let dev := devs d
    let (txq, s) := scanPool e u dev (ts.cnt.getD n 0) s.pool 0 none 0 s
    let s := match txq with
      | some q => { s with events := s.events ++ [.unlock dev.ifindex q] }
      | none => s
    execTargets e u devs ts rest (n + 1) s

/-- `pfq_lazy_xmit_exec`: the count of accepted submissions, the pool with its logs afterwards,
and the events. -/
def pfqLazyXmitExec (e : LazyEnv) (u : Bool) (devs : Nat → NetDevice) (pool : List GcBuff)
    (ts : LazyFwdTargets) : Commit :=
  execTargets e u devs ts ts.dev 0 ⟨pool, 0, 0, 0, []⟩

/-! ### The commit breaks the queue discipline of the other submitters

Unlike `pfq_xmit` and the two batch submitters, the commit never sets a buffer's queue mapping to
the queue it locked. Two buffers annotated for queues 0 and 1 of a two-queue device are both
submitted under the lock of queue 0, the second with mapping 1. -/

def twoQueueDev : NetDevice := ⟨7, 2, none, by decide, by decide⟩

def freshBuff (id : Nat) : GcBuff := ⟨⟨id, 60, [], 0⟩, ⟨[], 0, false⟩⟩

/-- Buffer 1 annotated for queue 0 and buffer 2 for queue 1 of `twoQueueDev`. -/
def annotatedPool : List GcBuff :=
  [(pfqLazyXmit 8 (freshBuff 1) 7 0).2, (pfqLazyXmit 8 (freshBuff 2) 7 1).2]

/-- The commit of `annotatedPool` to `twoQueueDev`, both deliveries accepted: it locks queue 0
along buffer 1 and submits buffer 2, whose mapping is 1, under that lock. -/
theorem lazyXmitExec_submits_under_other_queue :
    (pfqLazyXmitExec ⟨fun _ => ⟨true, false, 0⟩, fun _ => none⟩ true (fun _ => twoQueueDev)
        annotatedPool ⟨[7], [2]⟩).events =
      [.lock 7 0, .get ⟨1, 60, [], 0⟩, .xmit 7 ⟨1, 60, [], 0⟩ 0 true ⟨true, false, 0⟩,
        .get ⟨2, 60, [], 1⟩, .xmit 7 ⟨2, 60, [], 1⟩ 0 false ⟨true, false, 0⟩, .unlock 7 0] ∧
    lockDiscipline (fun _ => 2) none
      (pfqLazyXmitExec ⟨fun _ => ⟨true, false, 0⟩, fun _ => none⟩ true (fun _ => twoQueueDev)
        annotatedPool ⟨[7], [2]⟩).events = false := by
  decide

/-- Whatever annotation calls the capture path makes on a pool whose logs start empty (one buffer
or a batch, by mask or not, accepted or refused for a full log), every log keeps one pending
delivery per logged device, `xmit_todo = num_devs`, and never names more than
`Q_GC_LOG_QUEUE_LEN` devices. -/
theorem annotations_keep_logs_wf (logQueueLen : Nat) (hL : logQueueLen < 2 ^ 64)
    (pool : List GcBuff) (h₀ : ∀ b ∈ pool, b.log.dev = [] ∧ b.log.xmitTodo = 0)
    (calls : List LazyCall) :
    ∀ b ∈ calls.foldl (LazyCall.apply logQueueLen) pool,
      b.log.xmitTodo = b.log.dev.length ∧ b.log.dev.length ≤ logQueueLen :=
  ((Annotated.empty pool h₀).foldl calls).wf hL

/-- Two fresh buffers with room for one device each: buffer 1 annotated for device 1, then both
for device 2, then buffer 2 by mask for device 3; every annotation but the first is refused. -/
def refusedPool : List GcBuff :=
  [LazyCall.lazyXmit 0 1 0, .batchLazyXmit 2 0, .batchLazyXmitByMask 2 3 0].foldl
    (LazyCall.apply 1) [freshBuff 1, freshBuff 2]

theorem annotations_keep_logs_wf_refused :
    (refusedPool.getD 0 default).log.xmitTodo = (refusedPool.getD 0 default).log.dev.length ∧
      (refusedPool.getD 0 default).log.dev.length ≤ 1 :=
  annotations_keep_logs_wf 1 (by decide) [freshBuff 1, freshBuff 2] (by decide)
    [.lazyXmit 0 1 0, .batchLazyXmit 2 0, .batchLazyXmitByMask 2 3 0] _ (by decide)

end Pfq.Lazy
