import Pfq.Netdev
import Pfq.TxRing
import Pfq.Swap

/-!
# The drain of a TX ring (`__pfq_queue_xmit`)

`__pfq_queue_xmit` swaps the ring, walks the drained half descriptor by descriptor, fills one
buffer per descriptor and submits the buffers in batches through `full_batch_xmit`, pacing them
by their timestamps; it then flushes the residual batch, releases what is left in it, counts the
descriptors it did not reach, updates the counters and clears the half. It is modelled as a
machine whose program points are the loops of the function and of the helpers it calls
(`swap_tx_queue_and_wait`, `full_batch_xmit`, `wait_until`), one step per loop iteration or
straight-line stretch, on a flat state record.

The environment is a set of oracles, read in order: the successive evaluations of
`giveup_tx_process`, the successive outcomes of `pfq_tx_alloc_skb`, what each buffer of each call
of `pfq_batch_xmit` meets at the driver, and the successive loads of `prod` in the swap spin. The
real-time clock is a function of the step count: a reading at step `k` returns `clock k`, and an
event of step `k` happens at time `clock k`. Readings are the non-negative nanosecond values of
`ktime_get_real`, for which the comparisons of the code with the `u64` timestamps are those of
the naturals.

A buffer is named by the index of the allocation that returned it. The batch of
`pf_q-skbuff-batch.h` is not in the sources; as the spec describes it, it is the list of its
buffers with a fixed capacity, and a push on a full batch, a caller bug, stops the machine. The
sparse counters are their sums: `__sparse_add` on the worker's cell and `sparse_add` add the same
amount to the sum.
-/
namespace Pfq.Drain
open Pfq.Skbuff Pfq.Netdev Pfq.TxRing Pfq.Swap

/-- The call of `full_batch_xmit` being run: the one in the transmit loop, or the flush of the
residual batch. -/
inductive Site where
  | inLoop
  | flush
  deriving DecidableEq, Repr

/-- Program points of `__pfq_queue_xmit` and of the helpers it runs: the increment of `cons` in
`swap_tx_queue_and_wait` (`swap`) and one iteration of its spin on `prod` (`spin`); the half's
bounds, the empty batch and the first clock reading (`start`); the test of the transmit loop,
the timestamp and `transmission_required` (`loop`); the loop of `full_batch_xmit` (`batch`);
`if (last_ts > ktime_to_ns(now))` (`waitCheck`) and one iteration of `wait_until` (`wait`);
`pfq_tx_alloc_skb`, the fill, the push into the batch and the advance of the cursor (`alloc`);
the flush of the residual batch (`flush`); the release of the buffers left in the batch
(`leftover`); one iteration of the loop that counts the descriptors not reached (`discard`); the
return (`ret`); and a push on a full batch (`overflow`). -/
inductive Pc where
  | swap
  | spin
  | start
  | loop
  | batch (site : Site)
  | waitCheck
  | wait
  | alloc
  | flush
  | leftover
  | discard
  | ret (r : Int)
  | overflow
  deriving DecidableEq, Repr

/-- The `sent` and `disc` counters of the socket's TX options and of `global_stats`. -/
structure Stats where
  sockSent : Nat
  sockDisc : Nat
  globalSent : Nat
  globalDisc : Nat
  deriving DecidableEq, Repr

/-- The four `sparse_add`s (or `__sparse_add`s) at the end of the drain. -/
def Stats.add (st : Stats) (disc sent : Nat) : Stats :=
  ⟨st.sockSent + sent, st.sockDisc + disc, st.globalSent + sent, st.globalDisc + disc⟩

/-- What a drain is given: the ring's memory and stamps, its configuration (`base` is
`to->queue[idx].base_addr`, `size` is `txs->size`, the size of a half, and `worker` is
`cpu != Q_NO_KTHREAD`), the device, the counters, the module parameters `batch_len` and
`max_len`, the batch capacity (modelled from the spec: the fixed capacity of a short batch) and
the build options `PFQ_DEBUG` and `PFQ_USE_XMIT_MORE`. -/
structure Ctx where
  mem : Mem
  stamps : TxStamps
  stats : Stats
  base : Nat
  size : Nat
  hwQueue : BitVec 32
  dev : NetDevice
  worker : Bool
  batchLen : Nat
  capacity : Nat
  maxLen : Nat
  debug : Bool
  useXmitMore : Bool

/-- The oracles a drain reads. -/
structure Env where
  giveup : Nat → Bool
  clock : Nat → Nat
  alloc : Nat → Bool
  driver : Nat → Nat → XmitObs
  prod : Nat → BitVec 64

/-- The state of a drain: the program point, the ring, the counters, the cursor and the batch,
`total` of the running `full_batch_xmit`, the steps taken (`tick`, the count at which the clock
is read), the evaluations of `giveup_tx_process`, calls of `pfq_tx_alloc_skb`, calls of
`pfq_batch_xmit` and loads of `prod` so far (`gi`, `ai`, `bi`, `pi`), and the events of the
drain with the step of each. -/
structure State where
  pc : Pc
  mem : Mem
  stamps : TxStamps
  stats : Stats
  index : BitVec 32
  ptr : Nat
  skbs : List SkBuff
  now : Nat
  lastTs : Nat
  total : Nat
  totSent : Nat
  disc : Nat
  tick : Nat
  gi : Nat
  ai : Nat
  bi : Nat
  pi : Nat
  log : List (Nat × Event)

/-- The entry state of `__pfq_queue_xmit`. -/
def init (ctx : Ctx) : State :=
  ⟨.swap, ctx.mem, ctx.stamps, ctx.stats, 0, 0, [], 0, 0, 0, 0, 0, 0, 0, 0, 0, 0, []⟩

/-- `begin = base_addr + (swap & 1) * txs->size`, with `swap` the incremented index. -/
def drainBegin (ctx : Ctx) (index : BitVec 32) : Nat :=
  (ctx.base + halfOf index * ctx.size) % 2 ^ 64

/-- `end = begin + txs->size`. -/
def drainEnd (ctx : Ctx) (index : BitVec 32) : Nat :=
  (drainBegin ctx index + ctx.size) % 2 ^ 64

/-- `n` bytes read from address `a` on. -/
def readBytes (m : Mem) (a n : Nat) : List UInt8 :=
  (List.range n).map fun k => m ((a + k) % 2 ^ 64)

/-- The eight bytes at `a` set to the little-endian `u64` value `v`. -/
def writeU64 (m : Mem) (a v : Nat) : Mem := fun x =>
  match (List.range 8).find? fun k => (a + k) % 2 ^ 64 == x with
  | some k => UInt8.ofNat (v / 256 ^ k % 256)
  | none => m x

/-- The buffer returned by the `id`-th allocation, filled from the descriptor at `p`: length
`min(hdr->len, max_len)`, `max(len, 64)` bytes copied from `hdr + 1`, queue mapping `hw_queue`. -/
def fillSkb (maxLen : Nat) (hwQueue : BitVec 32) (m : Mem) (p id : Nat) : SkBuff :=
  let len := min (hdrLen m p) maxLen
  skbSetQueueMapping
    ⟨id, len, readBytes m ((p + sizeofPkthdrTx) % 2 ^ 64) (if len < 64 then 64 else len), 0⟩ hwQueue

/-- `transmission_required`. -/
def transmissionRequired (batchLen : Nat) (q : List SkBuff) (now ts : Nat) : Bool :=
  q.length == batchLen || (0 < q.length && now < ts)

/-- One iteration of the loop of `full_batch_xmit` past its give-up check: a reference is taken
on every buffer, the batch is submitted, and the accepted prefix is returned to the pool and
dropped from the batch. -/
def batchRound (u : Bool) (dev : NetDevice) (hwQueue : BitVec 32) (obs : Nat → XmitObs)
    (skbs : List SkBuff) : Nat × List SkBuff × List Event :=
  let r := pfqBatchXmit u skbs dev hwQueue obs
  (r.sent, r.skbs.drop r.sent,
    skbs.map .get ++ .batchXmit :: r.events ++ (r.skbs.take r.sent).map .poolFree)

/-- The events of one step, all at that step. -/
def State.emit (s : State) (es : List Event) : List (Nat × Event) :=
  s.log ++ es.map fun e => (s.tick, e)

/-- `full_batch_xmit` returns `total`, or `~total` when interrupted; the caller adds
`sent >= 0 ? sent : ~sent` to `tot_sent`, and in the transmit loop breaks on a negative result. -/
def batchReturn (site : Site) (interrupted : Bool) (s : State) : State :=
  let sent : Int := if interrupted then ~~~(s.total : Int) else s.total
  let s := { s with totSent := s.totSent + (if 0 ≤ sent then sent else ~~~sent).toNat }
  match site with
  | .inLoop => { s with pc := if sent < 0 then .flush else .waitCheck }
  | .flush => { s with pc := .leftover }

/-- Where the caller of `full_batch_xmit` goes on, after an interrupted call or not. -/
def batchNext : Site → Bool → Pc
  | .inLoop, b => if b then .flush else .waitCheck
  | .flush, _ => .leftover

/-- Whether interrupted or not, `full_batch_xmit` adds its `total` to `tot_sent`; an interrupted
call in the transmit loop breaks it. -/
theorem batchReturn_eq (site : Site) (b : Bool) (s : State) :
    batchReturn site b s = { s with totSent := s.totSent + s.total, pc := batchNext site b } := by
  have h1 : ~~~(s.total : Int) = Int.negSucc s.total := rfl
  have h2 : ~~~(Int.negSucc s.total) = s.total := rfl
  cases site <;> cases b <;> simp [batchReturn, batchNext, h1, h2, Int.negSucc_lt_zero]

/-- The step at the current program point, before the step count moves; `none` once the drain has
returned or overflowed its batch. -/
def exec (ctx : Ctx) (env : Env) (s : State) : Option State :=
  let b := drainBegin ctx s.index
  let e := drainEnd ctx s.index
  match s.pc with
  | .swap =>
    some { s with stamps := swapStart ctx.worker s.stamps, index := swapIndex s.stamps,
                  pc := if ctx.worker then .spin else .start }
  | .spin =>
    if prodReached s.index (env.prod s.pi) then some { s with pi := s.pi + 1, pc := .start }
    else
      let g := env.giveup s.gi
      some { s with pi := s.pi + 1, gi := s.gi + 1, log := s.emit [.giveup g],
                    pc := if g then .ret (-EINTR) else .spin }
  | .start => some { s with ptr := b, skbs := [], now := env.clock s.tick, pc := .loop }
  | .loop =>
    if traverseTxQueue ctx.debug s.mem s.ptr b e then
      let ts := hdrNsec s.mem s.ptr
      if transmissionRequired ctx.batchLen s.skbs s.now ts then
        some { s with lastTs := ts, total := 0, pc := .batch .inLoop }
      else some { s with lastTs := ts, pc := .waitCheck }
    else some { s with pc := .flush }
  | .batch site =>
    if s.skbs.isEmpty then some (batchReturn site false s)
    else
      let g := env.giveup s.gi
      if g then some (batchReturn site true { s with gi := s.gi + 1, log := s.emit [.giveup g] })
      else
        let r := batchRound ctx.useXmitMore ctx.dev ctx.hwQueue (env.driver s.bi) s.skbs
        some { s with gi := s.gi + 1, bi := s.bi + 1, total := s.total + r.1, skbs := r.2.1,
                      log := s.emit (.giveup g :: r.2.2) }
  | .waitCheck => some { s with pc := if s.now < s.lastTs then .wait else .alloc }
  | .wait =>
    let now := env.clock s.tick
    let g := env.giveup s.gi
    some { s with now := now, gi := s.gi + 1, log := s.emit [.giveup g],
                  pc := if g then .alloc else if now < s.lastTs then .wait else .alloc }
  | .alloc =>
    if env.alloc s.ai then
      let skb := fillSkb ctx.maxLen ctx.hwQueue s.mem s.ptr s.ai
      if s.skbs.length < ctx.capacity then
        some { s with ai := s.ai + 1, skbs := s.skbs ++ [skb], ptr := advance s.mem s.ptr,
                      log := s.emit [.alloc skb s.ptr], pc := .loop }
      else some { s with ai := s.ai + 1, log := s.emit [.alloc skb s.ptr], pc := .overflow }
    else some { s with ai := s.ai + 1, pc := .flush }
  | .flush =>
    if s.skbs.isEmpty then some { s with pc := .leftover }
    else some { s with total := 0, pc := .batch .flush }
  | .leftover =>
    some { s with disc := s.skbs.length, log := s.emit (s.skbs.map .poolFree), pc := .discard }
  | .discard =>
    if traverseTxQueue ctx.debug s.mem s.ptr b e then
      some { s with ptr := advance s.mem s.ptr, disc := s.disc + 1 }
    else
      some { s with stats := s.stats.add s.disc s.totSent, mem := writeU64 s.mem ((b + 8) % 2 ^ 64) 0,
                    pc := .ret (BitVec.ofNat 32 s.totSent).toInt }
  | .ret _ | .overflow => none

/-- A step of the drain. -/
def step (ctx : Ctx) (env : Env) (s : State) : Option State :=
  (exec ctx env s).map fun t => { t with tick := s.tick + 1 }

/-- The states a drain passes through from `s`. -/
def Reaches (ctx : Ctx) (env : Env) : State → State → Prop :=
  Relation.ReflTransGen fun s t => step ctx env s = some t

/-- At most `n` steps of the drain from `s`, stopping where the drain stops. -/
def run (ctx : Ctx) (env : Env) : Nat → State → State
  | 0, s => s
  | n + 1, s =>
    match step ctx env s with
    | some t => run ctx env n t
    | none => s

theorem reaches_run {ctx : Ctx} {env : Env} (n : Nat) (s : State) :
    Reaches ctx env s (run ctx env n s) := by
  induction n generalizing s with
  | zero => exact .refl
  | succ n ih =>
    unfold run
    split
    · next t ht => exact .head ht (ih t)
    · exact .refl

theorem run_of_step_none {ctx : Ctx} {env : Env} {s : State} (h : step ctx env s = none)
    (n : Nat) : run ctx env n s = s := by
  cases n <;> simp [run, h]

theorem run_add {ctx : Ctx} {env : Env} (m n : Nat) (s : State) :
    run ctx env (m + n) s = run ctx env n (run ctx env m s) := by
  induction m generalizing s with
  | zero => rw [Nat.zero_add]; rfl
  | succ m ih =>
    rw [Nat.succ_add]
    simp only [run]
    cases h : step ctx env s with
    | none => exact (run_of_step_none h n).symm
    | some t => exact ih t

theorem step_run_one {ctx : Ctx} {env : Env} {s : State} (h : (step ctx env s).isSome = true) :
    step ctx env s = some (run ctx env 1 s) := by
  obtain ⟨t, ht⟩ := Option.isSome_iff_exists.1 h
  simp [run, ht]

/-- A ring whose first half holds two descriptors of eight bytes, stamped `ts₁` and `ts₂`, at
offsets 0 and 24, followed by a zero length at 56. -/
def twoDescRing (ts₁ ts₂ : UInt8) : Mem := fun a =>
  if a = 0 then ts₁ else if a = 8 then 8 else if a = 24 then ts₂ else if a = 32 then 8 else 0

/-- A flush (no worker thread) of a ring stamped 5 and 7 on a one-queue device, with batches of
one. -/
def twoDescCtx : Ctx :=
  ⟨twoDescRing 5 7, ⟨0, 0⟩, ⟨0, 0, 0, 0⟩, 0, 64, 0, ⟨1, 1, none, le_rfl, by decide⟩, false, 1, 1,
    1500, false, false⟩

/-- A clock that reads the step count, no give-up, and every allocation and submission succeeds. -/
def steadyEnv : Env :=
  ⟨fun _ => false, fun k => k, fun _ => true, fun _ _ => ⟨true, false, 0⟩, fun _ => 0⟩

/-- The drain of `twoDescCtx` under `steadyEnv`, which returns after 19 steps. -/
def twoDescRun : State := run twoDescCtx steadyEnv 19 (init twoDescCtx)

example : twoDescRun.pc = .ret 2 := by decide

/-- Past the start of the transmit loop. -/
def Pc.started : Pc → Bool
  | .swap | .spin | .start => false
  | _ => true

/-- The events of a state's log, without their steps. -/
def State.events (s : State) : List Event := s.log.map Prod.snd

@[simp] theorem events_mk (pc : Pc) (mem : Mem) (stamps : TxStamps) (stats : Stats)
    (index : BitVec 32) (ptr : Nat) (skbs : List SkBuff)
    (now lastTs total totSent disc tick gi ai bi pi : Nat) (log : List (Nat × Event)) :
    (State.mk pc mem stamps stats index ptr skbs now lastTs total totSent disc tick gi ai bi pi
      log).events = log.map Prod.snd := rfl

@[simp] theorem log_map_snd (s : State) : s.log.map Prod.snd = s.events := rfl

@[simp] theorem events_emit (s : State) (es : List Event) :
    (s.emit es).map Prod.snd = s.events ++ es := by
  unfold State.emit State.events
  rw [List.map_append, List.map_map]
  simp only [Function.comp_def, List.map_id']

section
variable (l : List SkBuff)
@[simp] theorem accepted_map_get : accepted (l.map .get) = [] := by
  induction l <;> simp_all [Event.accepted]
@[simp] theorem pooled_map_get : pooled (l.map .get) = [] := by
  induction l <;> simp_all [Event.pooled]
@[simp] theorem allocated_map_get : allocated (l.map .get) = [] := by
  induction l <;> simp_all [Event.allocated]
@[simp] theorem accepted_map_poolFree : accepted (l.map .poolFree) = [] := by
  induction l <;> simp_all [Event.accepted]
@[simp] theorem pooled_map_poolFree : pooled (l.map .poolFree) = l := by
  induction l <;> simp_all [Event.pooled]
@[simp] theorem allocated_map_poolFree : allocated (l.map .poolFree) = [] := by
  induction l <;> simp_all [Event.allocated]
end

/-- A round of `full_batch_xmit` hands a prefix of the batch to the driver: the accepted buffers
are its first `sent`, the batch keeps the rest, and exactly the accepted buffers go back to the
pool. -/
theorem batchRound_spec (u : Bool) (dev : NetDevice) (hw : BitVec 32) (obs : Nat → XmitObs)
    (skbs : List SkBuff) :
    (batchRound u dev hw obs skbs).1 ≤ skbs.length ∧
      (batchRound u dev hw obs skbs).2.1.map SkBuff.key =
        (skbs.map SkBuff.key).drop (batchRound u dev hw obs skbs).1 ∧
      (accepted (batchRound u dev hw obs skbs).2.2).map SkBuff.key =
        (skbs.map SkBuff.key).take (batchRound u dev hw obs skbs).1 ∧
      pooled (batchRound u dev hw obs skbs).2.2 = accepted (batchRound u dev hw obs skbs).2.2 ∧
      allocated (batchRound u dev hw obs skbs).2.2 = [] := by
  obtain ⟨h1, h2, h3, h4, h5⟩ := pfqBatchXmit_spec u skbs dev hw obs
  have ha : accepted (batchRound u dev hw obs skbs).2.2 =
      (pfqBatchXmit u skbs dev hw obs).skbs.take (pfqBatchXmit u skbs dev hw obs).sent := by
    simp [batchRound, h3, Event.accepted, -List.map_take]
  refine ⟨h1, ?_, ?_, ?_, ?_⟩
  · simp only [batchRound, List.map_drop, h2]
  · rw [ha, List.map_take, h2]; rfl
  · rw [ha]; simp [batchRound, h4, Event.pooled, -List.map_take]
  · simp [batchRound, h5, Event.allocated, -List.map_take]

end Pfq.Drain
