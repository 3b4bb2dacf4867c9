import Pfq.Lazy

/-!
# The lazy commit, attempt by attempt

`pfq_lazy_xmit_exec` is three nested loops (the targets, the pool entries, the deliveries of one
entry) around one delivery attempt. An `Attempt` records what one attempt did: the pool entry it
delivered, how it took the buffer (`skb_get` or `skb_clone`, which may fail) and the driver's
answer. One spec lemma per loop level then shows that the commit's events are the attempts the
logs plan: for each target, the pool entries in order, each as often as its log names the
device, all under the lock of one queue (`lazyXmitExec_trace`).

Two results follow. Whatever clones and driver calls fail, each target gets exactly its
planned attempts, numbered against `cnt[n]` for the `xmit_more` hint, and the return value counts
the submissions the driver accepted, every other attempt counting one `abrt`. And on logs that
the annotation calls built from empty, with every logged device a target exactly once, a buffer
not kept for the kernel is cloned for every delivery but its last, where `skb_get` hands over the
buffer itself and `xmit_todo` reaches zero.
-/
namespace Pfq.Lazy
open Pfq.Skbuff Pfq.Netdev

/-! ### One attempt -/

/-- How an attempt took the buffer it submits: `skb_get` on the pool buffer, or `skb_clone` with
the clone it returned (`none` for `NULL`). -/
inductive Take where
  | get
  | clone (nskb : Option SkBuff)
  deriving DecidableEq, Repr

/-- One delivery attempt of the commit: the pool entry and its buffer, how the buffer was taken,
and the driver's answer to the submission, if there was one. -/
structure Attempt where
  entry : Nat
  skb : SkBuff
  take : Take
  o : XmitObs
  deriving DecidableEq, Repr

namespace Attempt

def cloned (a : Attempt) : Bool := a.take != .get

/-- The buffer submitted to the driver: the pool buffer after `skb_get`, the clone after
`skb_clone`, nothing when the clone failed. -/
def submitted (a : Attempt) : Option SkBuff :=
  match a.take with
  | .get => some a.skb
  | .clone nskb => nskb

def accepted (a : Attempt) : Bool := a.submitted.isSome && a.o.ok

/-- The events of an attempt on queue `q` of the device with interface index `x`, with the hint
`more`: taking the buffer, the call of `__pfq_xmit` when there is a buffer to submit, and one
`abrt` unless the driver accepted it. -/
def events (x q : Nat) (u more : Bool) (a : Attempt) : List Event :=
  (match a.take with
    | .get => Event.get a.skb
    | .clone nskb => .clone a.skb nskb) ::
    match a.submitted with
    | none => [.abrt]
    | some n => (__pfqXmit u x n q more a.o).2 ++ if a.o.ok then [] else [.abrt]

theorem count_abrt_events (x q : Nat) (u more : Bool) (a : Attempt) :
    (a.events x q u more).count .abrt = if a.accepted then 0 else 1 := by
  obtain ⟨i, skb, t, o⟩ := a
  have hx : ∀ n, ((__pfqXmit u x n q more o).2).count .abrt = 0 := fun n => by
    rw [__pfqXmit_events_eq]; split <;> simp
  cases t with
  | get => cases h : o.ok <;> simp [events, accepted, submitted, hx, h]
  | clone nskb => cases nskb <;> cases h : o.ok <;> simp [events, accepted, submitted, hx, h]

end Attempt

/-- The events of consecutive attempts on queue `q` of device `x`, the first one numbered `k`:
the attempt numbered `k` passes the hint `k + 1 ≠ cnt`. -/
def attemptsEvents (x q cnt : Nat) (u : Bool) : Nat → List Attempt → List Event
  | _, [] => []
  | k, a :: as => a.events x q u (k + 1 != cnt) ++ attemptsEvents x q cnt u (k + 1) as

theorem attemptsEvents_append (x q cnt : Nat) (u : Bool) (as bs : List Attempt) (k : Nat) :
    attemptsEvents x q cnt u k (as ++ bs) =
      attemptsEvents x q cnt u k as ++ attemptsEvents x q cnt u (k + as.length) bs := by
  induction as generalizing k with
  | nil => rfl
  | cons a as ih => simp [attemptsEvents, ih, Nat.add_assoc, Nat.add_comm 1]

/-! ### What the logs plan -/

/-- The deliveries the logs of `pool` (its entries numbered from `i`) make to the device with
interface index `x`: each entry in pool order, as often as its log names `x`. -/
def deliveryPlan (x : Nat) : List GcBuff → Nat → List Nat
  | [], _ => []
  | b :: rest, i => List.replicate (gcCountDevInLog x b.log) i ++ deliveryPlan x rest (i + 1)

/-- The queue the commit locks for `dev`: picked from the queue mapping of the first buffer with a
delivery to it. -/
def pickQueue (dev : NetDevice) : List GcBuff → Nat
  | [] => 0
  | b :: rest =>
    if gcCountDevInLog dev.ifindex b.log = 0 then pickQueue dev rest
    else (pfqPickTx dev b.skb (BitVec.ofNat 32 b.skb.queueMapping)).toNat

/-- The events of the commit's work for `dev`: nothing without attempts, otherwise the attempts,
numbered from zero, under the lock of the queue `pickQueue` names. -/
def targetEvents (dev : NetDevice) (cnt : Nat) (u : Bool) (pool : List GcBuff)
    (as : List Attempt) : List Event :=
  if as = [] then [] else
    .lock dev.ifindex (pickQueue dev pool) ::
      attemptsEvents dev.ifindex (pickQueue dev pool) cnt u 0 as ++
        [.unlock dev.ifindex (pickQueue dev pool)]

/-- The events of the commit for the targets `ds`, the first one numbered `n`, given the attempts
of each. -/
def commitEvents (devs : Nat → NetDevice) (ts : LazyFwdTargets) (u : Bool) (pool : List GcBuff) :
    List Nat → Nat → List (List Attempt) → List Event
  | d :: ds, n, as :: att =>
    targetEvents (devs d) (ts.cnt.getD n 0) u pool as ++ commitEvents devs ts u pool ds (n + 1) att
  | _, _, _ => []

/-! ### What the deliveries do to the logs -/

/-- The log after one delivery: `xmit_todo`, a `size_t`, is decremented unless the kernel keeps
the buffer. -/
def GcLog.delivered (log : GcLog) : GcLog :=
  if log.toKernel then log else { log with xmitTodo := (log.xmitTodo + 2 ^ 64 - 1) % 2 ^ 64 }

/-- The pool after one delivery of entry `i`. -/
def deliveredAt (pool : List GcBuff) (i : Nat) : List GcBuff :=
  pool.set i { pool.getD i default with log := (pool.getD i default).log.delivered }

def deliverLogs (pool : List GcBuff) (as : List Attempt) : List GcBuff :=
  as.foldl (fun p a => deliveredAt p a.entry) pool

/-- Each attempt of `as` cloned exactly when the log of its entry, as the earlier attempts left
it, asks for a clone: `to_kernel || xmit_todo > 1`. -/
def ClonesAsLogged : List GcBuff → List Attempt → Prop
  | _, [] => True
  | pool, a :: as =>
    a.cloned = ((pool.getD a.entry default).log.toKernel ||
      decide (1 < (pool.getD a.entry default).log.xmitTodo)) ∧
    ClonesAsLogged (deliveredAt pool a.entry) as

/-! ### One delivery -/

/-- One delivery of entry `i` is one attempt: the pool buffer taken as its log asks, the log
updated, the count raised when the driver accepted, and the attempt's events. -/
theorem deliver_spec (e : LazyEnv) (u : Bool) (d q cnt i sentDev : Nat) (s : Commit) :
    ∃ a : Attempt, a.entry = i ∧ a.skb = (s.pool.getD i default).skb ∧
      a.cloned = ((s.pool.getD i default).log.toKernel ||
        decide (1 < (s.pool.getD i default).log.xmitTodo)) ∧
      (deliver e u d q cnt i sentDev s).pool = deliveredAt s.pool i ∧
      (deliver e u d q cnt i sentDev s).sent = s.sent + (if a.accepted then 1 else 0) ∧
      (deliver e u d q cnt i sentDev s).events =
        s.events ++ a.events d q u (sentDev + 1 != cnt) := by
  by_cases hc : ((s.pool.getD i default).log.toKernel ||
      decide (1 < (s.pool.getD i default).log.xmitTodo)) = true
  · refine ⟨⟨i, _, .clone ((e.clone s.ci).map fun a =>
      { (s.pool.getD i default).skb with id := a }), e.obs s.xi⟩, rfl, rfl,
      by simp only [Attempt.cloned, hc]; rfl, ?_⟩
    cases hcl : e.clone s.ci <;> simp only [deliver, hc, hcl, ite_true, Option.map_none',
      Option.map_some'] <;> by_cases ho : (e.obs s.xi).ok = true <;>
      simp [__pfqXmit_ok_iff, ho, Attempt.events, Attempt.accepted, Attempt.submitted, deliveredAt,
        GcLog.delivered]
  · refine ⟨⟨i, _, .get, e.obs s.xi⟩, rfl, rfl, by simpa [Attempt.cloned] using hc, ?_⟩
    simp only [deliver, hc]
    by_cases ho : (e.obs s.xi).ok = true <;>
      simp [__pfqXmit_ok_iff, ho, Attempt.events, Attempt.accepted, Attempt.submitted, deliveredAt,
          GcLog.delivered]

/-! ### Runs of attempts -/

/-- What the commit never changes in a pool entry: its buffer, the devices its log names and
`to_kernel`. -/
def GcBuff.shape (b : GcBuff) : SkBuff × List Nat × Bool := (b.skb, b.log.dev, b.log.toKernel)

@[simp] theorem GcLog.delivered_dev (log : GcLog) : log.delivered.dev = log.dev := by
  unfold GcLog.delivered; split <;> rfl

@[simp] theorem GcLog.delivered_toKernel (log : GcLog) :
    log.delivered.toKernel = log.toKernel := by
  unfold GcLog.delivered; split <;> rfl

theorem GcLog.delivered_xmitTodo (log : GcLog) : log.delivered.xmitTodo =
    if log.toKernel then log.xmitTodo else (log.xmitTodo + 2 ^ 64 - 1) % 2 ^ 64 := by
  unfold GcLog.delivered; split <;> rfl

theorem deliveredAt_shape (pool : List GcBuff) (i : Nat) :
    (deliveredAt pool i).map GcBuff.shape = pool.map GcBuff.shape := by
  induction pool generalizing i with
  | nil => rfl
  | cons b rest ih => cases i <;> simp_all [deliveredAt, GcBuff.shape]

theorem deliveredAt_length (pool : List GcBuff) (i : Nat) :
    (deliveredAt pool i).length = pool.length := List.length_set ..

theorem deliverLogs_cons (pool : List GcBuff) (a : Attempt) (as : List Attempt) :
    deliverLogs pool (a :: as) = deliverLogs (deliveredAt pool a.entry) as := rfl

theorem deliverLogs_append (pool : List GcBuff) (as bs : List Attempt) :
    deliverLogs pool (as ++ bs) = deliverLogs (deliverLogs pool as) bs := List.foldl_append ..

theorem deliverLogs_shape (pool : List GcBuff) (as : List Attempt) :
    (deliverLogs pool as).map GcBuff.shape = pool.map GcBuff.shape := by
  induction as generalizing pool with
  | nil => rfl
  | cons a as ih => rw [deliverLogs_cons, ih, deliveredAt_shape]

theorem getD_skb_of_shape {bs cs : List GcBuff} (h : bs.map GcBuff.shape = cs.map GcBuff.shape)
    (j : Nat) : (bs.getD j default).skb = (cs.getD j default).skb := by
  have := congrArg (fun l => (l.getD j (GcBuff.shape default)).1) h
  simpa only [List.getD_map] using this

theorem clonesAsLogged_append (pool : List GcBuff) (as bs : List Attempt) :
    ClonesAsLogged pool (as ++ bs) ↔
      ClonesAsLogged pool as ∧ ClonesAsLogged (deliverLogs pool as) bs := by
  induction as generalizing pool with
  | nil => simp [ClonesAsLogged, deliverLogs]
  | cons a as ih => simp [ClonesAsLogged, ih, deliverLogs_cons, and_assoc]

/-- From `s` to `t` the commit made the attempts `as`: each on the buffer of its pool entry and
cloned as the logs asked, with the pool and the count of accepted submissions that these attempts
leave. -/
structure Made (s t : Commit) (as : List Attempt) : Prop where
  skb_eq : ∀ a ∈ as, a.skb = (s.pool.getD a.entry default).skb
  clones : ClonesAsLogged s.pool as
  pool_eq : t.pool = deliverLogs s.pool as
  sent_eq : t.sent = s.sent + as.countP Attempt.accepted

theorem Made.nil {s t : Commit} (hp : t.pool = s.pool) (hs : t.sent = s.sent) : Made s t [] :=
  ⟨by simp, trivial, hp, by simp [hs]⟩

theorem Made.append {s t v : Commit} {as bs : List Attempt} (h₁ : Made s t as)
    (h₂ : Made t v bs) : Made s v (as ++ bs) where
  skb_eq a ha := by
    rcases List.mem_append.1 ha with ha | ha
    · exact h₁.skb_eq a ha
    · rw [h₂.skb_eq a ha, h₁.pool_eq, getD_skb_of_shape (deliverLogs_shape _ _)]
  clones := (clonesAsLogged_append _ _ _).2 ⟨h₁.clones, h₁.pool_eq ▸ h₂.clones⟩
  pool_eq := by rw [h₂.pool_eq, h₁.pool_eq, deliverLogs_append]
  sent_eq := by rw [h₂.sent_eq, h₁.sent_eq, List.countP_append, Nat.add_assoc]

/-! ### The loops of the commit -/

/-- The `num` deliveries of entry `i` are `num` attempts on it, numbered on from `sentDev`. -/
theorem deliverN_spec (e : LazyEnv) (u : Bool) (d q cnt i : Nat) (num : Nat) :
    ∀ (sentDev : Nat) (s : Commit), ∃ as : List Attempt,
      as.map Attempt.entry = List.replicate num i ∧
      Made s (deliverN e u d q cnt i num sentDev s) as ∧
      (deliverN e u d q cnt i num sentDev s).events =
        s.events ++ attemptsEvents d q cnt u sentDev as := by
  induction num with
  | zero => exact fun _ s => ⟨[], rfl, .nil rfl rfl, by simp [deliverN, attemptsEvents]⟩
  | succ num ih =>
    intro sentDev s
    obtain ⟨a, rfl, hskb, hcl, hp, hs, he⟩ := deliver_spec e u d q cnt i sentDev s
    obtain ⟨as, hm, hmade, hev⟩ := ih (sentDev + 1) (deliver e u d q cnt a.entry sentDev s)
    have h₁ : Made s (deliver e u d q cnt a.entry sentDev s) [a] :=
      ⟨by simp [hskb], ⟨hcl, trivial⟩, hp, by simp [hs, List.countP_cons]⟩
    refine ⟨a :: as, by simp [hm, List.replicate_succ], h₁.append hmade, ?_⟩
    simp [deliverN, hev, he, attemptsEvents]

theorem deliveryPlan_congr (x : Nat) {bs cs : List GcBuff}
    (h : bs.map GcBuff.shape = cs.map GcBuff.shape) (i : Nat) :
    deliveryPlan x bs i = deliveryPlan x cs i := by
  induction bs generalizing cs i with
  | nil => cases cs <;> simp_all
  | cons b rest ih =>
    cases cs with
    | nil => simp at h
    | cons c cs =>
      simp only [List.map_cons, List.cons.injEq, GcBuff.shape, Prod.mk.injEq] at h
      simp [deliveryPlan, gcCountDevInLog, h.1.2.1, ih h.2]

theorem pickQueue_congr (dev : NetDevice) {bs cs : List GcBuff}
    (h : bs.map GcBuff.shape = cs.map GcBuff.shape) : pickQueue dev bs = pickQueue dev cs := by
  induction bs generalizing cs with
  | nil => cases cs <;> simp_all
  | cons b rest ih =>
    cases cs with
    | nil => simp at h
    | cons c cs =>
      simp only [List.map_cons, List.cons.injEq, GcBuff.shape, Prod.mk.injEq] at h
      simp [pickQueue, gcCountDevInLog, h.1.1, h.1.2.1, ih h.2]

theorem commitEvents_congr (devs : Nat → NetDevice) (ts : LazyFwdTargets) (u : Bool)
    {bs cs : List GcBuff} (h : bs.map GcBuff.shape = cs.map GcBuff.shape) :
    ∀ (ds : List Nat) (n : Nat) (att : List (List Attempt)),
      commitEvents devs ts u bs ds n att = commitEvents devs ts u cs ds n att
  | [], _, _ | _ :: _, _, [] => by simp [commitEvents]
  | d :: ds, n, as :: att => by
    simp [commitEvents, targetEvents, pickQueue_congr _ h, commitEvents_congr devs ts u h ds]

/-- Once a queue is locked, the scan of the pool makes the attempts the logs plan, in pool order,
numbered on from `sentDev`, under that lock. -/
theorem scanPool_some (e : LazyEnv) (u : Bool) (dev : NetDevice) (cnt q : Nat)
    (bs : List GcBuff) : ∀ (i sentDev : Nat) (s : Commit), ∃ (as : List Attempt) (t : Commit),
      scanPool e u dev cnt bs i (some q) sentDev s = (some q, t) ∧
      as.map Attempt.entry = deliveryPlan dev.ifindex bs i ∧ Made s t as ∧
      t.events = s.events ++ attemptsEvents dev.ifindex q cnt u sentDev as := by
  induction bs with
  | nil => exact fun _ _ s => ⟨[], s, rfl, rfl, .nil rfl rfl, by simp [attemptsEvents]⟩
  | cons b rest ih =>
    intro i sentDev s
    by_cases h : gcCountDevInLog dev.ifindex b.log = 0
    · simpa [scanPool, deliveryPlan, h] using ih (i + 1) sentDev s
    · obtain ⟨as₁, hm₁, hmade₁, hev₁⟩ := deliverN_spec e u dev.ifindex q cnt i
        (gcCountDevInLog dev.ifindex b.log) sentDev s
      obtain ⟨as₂, t, hr, hm₂, hmade₂, hev₂⟩ := ih (i + 1)
        (sentDev + gcCountDevInLog dev.ifindex b.log)
        (deliverN e u dev.ifindex q cnt i (gcCountDevInLog dev.ifindex b.log) sentDev s)
      have hlen : as₁.length = gcCountDevInLog dev.ifindex b.log := by
        simpa using congrArg List.length hm₁
      refine ⟨as₁ ++ as₂, t, by simpa [scanPool, h] using hr,
        by simp [deliveryPlan, hm₁, hm₂], hmade₁.append hmade₂, ?_⟩
      rw [hev₂, hev₁, attemptsEvents_append, hlen, List.append_assoc]

/-- Before the lock, the scan skips the entries without a delivery; at the first entry with one,
it locks the queue `pickQueue` names and goes on as `scanPool_some`. -/
theorem scanPool_none (e : LazyEnv) (u : Bool) (dev : NetDevice) (cnt : Nat) (bs : List GcBuff) :
    ∀ (i sentDev : Nat) (s : Commit),
      scanPool e u dev cnt bs i none sentDev s =
        if deliveryPlan dev.ifindex bs i = [] then (none, s)
        else scanPool e u dev cnt bs i (some (pickQueue dev bs)) sentDev
          { s with events := s.events ++ [.lock dev.ifindex (pickQueue dev bs)] } := by
  induction bs with
  | nil => simp [scanPool, deliveryPlan]
  | cons b rest ih =>
    intro i sentDev s
    by_cases h : gcCountDevInLog dev.ifindex b.log = 0
    · simp [scanPool, deliveryPlan, pickQueue, h, ih]
    · simp [scanPool, deliveryPlan, pickQueue, h]

/-- The commit over the targets `ds` makes, for each, the attempts its logs plan, the pool being
the one the commit starts from: deliveries change no log's devices. -/
theorem execTargets_spec (e : LazyEnv) (u : Bool) (devs : Nat → NetDevice) (ts : LazyFwdTargets)
    (ds : List Nat) : ∀ (n : Nat) (s : Commit), ∃ att : List (List Attempt),
      att.map (List.map Attempt.entry) =
        ds.map (fun d => deliveryPlan (devs d).ifindex s.pool 0) ∧
      Made s (execTargets e u devs ts ds n s) att.flatten ∧
      (execTargets e u devs ts ds n s).events =
        s.events ++ commitEvents devs ts u s.pool ds n att := by
  induction ds with
  | nil => exact fun _ s => ⟨[], rfl, .nil rfl rfl, by simp [execTargets, commitEvents]⟩
  | cons d ds ih =>
    intro n s
    by_cases hp : deliveryPlan (devs d).ifindex s.pool 0 = []
    · obtain ⟨att, hm, hmade, hev⟩ := ih (n + 1) s
      refine ⟨[] :: att, by simp [hm, hp], ?_⟩
      simpa [execTargets, scanPool_none, hp, commitEvents, targetEvents] using ⟨hmade, hev⟩
    · obtain ⟨as, t, hr, hm, hmade, hev⟩ := scanPool_some e u (devs d) (ts.cnt.getD n 0)
        (pickQueue (devs d) s.pool) s.pool 0 0
        { s with events := s.events ++ [.lock (devs d).ifindex (pickQueue (devs d) s.pool)] }
      obtain ⟨att, hm', hmade', hev'⟩ := ih (n + 1)
        { t with events := t.events ++ [.unlock (devs d).ifindex (pickQueue (devs d) s.pool)] }
      have hshape : t.pool.map GcBuff.shape = s.pool.map GcBuff.shape :=
        hmade.pool_eq ▸ deliverLogs_shape s.pool as
      have has : as ≠ [] := fun h => hp (by simpa [h] using hm.symm)
      refine ⟨as :: att, by simp [hm, hm', deliveryPlan_congr _ hshape], ?_⟩
      simp only [execTargets, scanPool_none, hp, if_false, hr]
      refine ⟨Made.append ?_ hmade', ?_⟩
      · exact ⟨hmade.1, hmade.2, hmade.3, hmade.4⟩
      · rw [hev', commitEvents_congr _ _ _ hshape, hev]
        simp [commitEvents, targetEvents, has]

/-! ### The commit -/

/-- What the commit of `pool` to the targets `ts` did, attempt by attempt: `att` holds the
attempts for each target, which are the deliveries its logs plan, in pool order; the commit's
events, return value and pool are the ones these attempts give. -/
structure CommitTrace (e : LazyEnv) (u : Bool) (devs : Nat → NetDevice) (pool : List GcBuff)
    (ts : LazyFwdTargets) (att : List (List Attempt)) : Prop where
  entries_eq :
    att.map (List.map Attempt.entry) = ts.dev.map fun d => deliveryPlan (devs d).ifindex pool 0
  skb_eq : ∀ a ∈ att.flatten, a.skb = (pool.getD a.entry default).skb
  clones : ClonesAsLogged pool att.flatten
  events_eq : (pfqLazyXmitExec e u devs pool ts).events = commitEvents devs ts u pool ts.dev 0 att
  sent_eq : (pfqLazyXmitExec e u devs pool ts).sent = att.flatten.countP Attempt.accepted
  pool_eq : (pfqLazyXmitExec e u devs pool ts).pool = deliverLogs pool att.flatten

/-- Every commit is the attempts its logs plan, whatever clones and driver calls fail. -/
theorem lazyXmitExec_trace (e : LazyEnv) (u : Bool) (devs : Nat → NetDevice) (pool : List GcBuff)
    (ts : LazyFwdTargets) : ∃ att, CommitTrace e u devs pool ts att := by
  obtain ⟨att, hm, hmade, hev⟩ := execTargets_spec e u devs ts ts.dev 0 ⟨pool, 0, 0, 0, []⟩
  exact ⟨att, hm, hmade.skb_eq, hmade.clones, by simpa using hev, by simpa using hmade.sent_eq,
    hmade.pool_eq⟩

namespace CommitTrace

variable {e : LazyEnv} {u : Bool} {devs : Nat → NetDevice} {pool : List GcBuff}
  {ts : LazyFwdTargets} {att : List (List Attempt)}

theorem length_eq (h : CommitTrace e u devs pool ts att) : att.length = ts.dev.length := by
  simpa using congrArg List.length h.entries_eq

theorem entries_getD (h : CommitTrace e u devs pool ts att) {n : Nat} (hn : n < ts.dev.length) :
    (att.getD n []).map Attempt.entry = deliveryPlan (devs (ts.dev.getD n 0)).ifindex pool 0 := by
  have := congrArg (fun l => l.getD n []) h.entries_eq
  simpa [hn, h.length_eq] using this

end CommitTrace

theorem length_deliveryPlan (x : Nat) (pool : List GcBuff) (i : Nat) :
    (deliveryPlan x pool i).length = (pool.map fun b => gcCountDevInLog x b.log).sum := by
  induction pool generalizing i <;> simp [deliveryPlan, *]

theorem count_abrt_attemptsEvents (x q cnt : Nat) (u : Bool) (k : Nat) (as : List Attempt) :
    (attemptsEvents x q cnt u k as).count .abrt = as.countP fun a => !a.accepted := by
  induction as generalizing k with
  | nil => rfl
  | cons a as ih =>
    simp only [attemptsEvents, List.count_append, Attempt.count_abrt_events, ih, List.countP_cons]
    cases a.accepted <;> simp [Nat.add_comm]

theorem count_abrt_commitEvents (devs : Nat → NetDevice) (ts : LazyFwdTargets) (u : Bool)
    (pool : List GcBuff) : ∀ (ds : List Nat) (n : Nat) (att : List (List Attempt)),
      ds.length = att.length →
        (commitEvents devs ts u pool ds n att).count .abrt = att.flatten.countP fun a => !a.accepted
  | [], _, [], _ => rfl
  | d :: ds, n, as :: att, h => by
    rw [commitEvents, List.count_append, count_abrt_commitEvents devs ts u pool ds (n + 1) att
      (by simpa using h), List.flatten_cons, List.countP_append]
    unfold targetEvents
    split <;> simp_all [count_abrt_attemptsEvents]

/-- Each target `n` gets exactly `cnt[n]` attempts when `cnt[n]` counts the references to it in
the logs, the last one with the hint cleared; the return value counts the submissions the driver
accepted, and every other attempt increments `abrt` once. -/
theorem lazyXmitExec_attempts (e : LazyEnv) (u : Bool) (devs : Nat → NetDevice)
    (pool : List GcBuff) (ts : LazyFwdTargets)
    (hcnt : ∀ n < ts.dev.length, ts.cnt.getD n 0 =
      (pool.map fun b => gcCountDevInLog (devs (ts.dev.getD n 0)).ifindex b.log).sum) :
    ∃ att, CommitTrace e u devs pool ts att ∧
      (∀ n < ts.dev.length, (att.getD n []).length = ts.cnt.getD n 0) ∧
      (pfqLazyXmitExec e u devs pool ts).events.count .abrt =
        att.flatten.countP fun a => !a.accepted := by
  obtain ⟨att, h⟩ := lazyXmitExec_trace e u devs pool ts
  refine ⟨att, h, fun n hn => ?_, ?_⟩
  · rw [hcnt n hn, ← length_deliveryPlan _ _ 0, ← h.entries_getD hn, List.length_map]
  · rw [h.events_eq, count_abrt_commitEvents _ _ _ _ _ _ _ h.length_eq.symm]

/-! ### Three buffers forwarded to two devices -/

def oneQueueDevAt (d : Nat) : NetDevice := ⟨d, 1, none, le_rfl, by decide⟩

/-- Buffer 1 annotated for device 1 once and device 2 twice, buffer 2 for device 1 and buffer 3
for device 2, all on queue 0, with logs of capacity 8. -/
def forwardPool : List GcBuff :=
  [.lazyXmit 0 1 0, .lazyXmit 0 2 0, .lazyXmit 0 2 0, .lazyXmit 1 1 0, .lazyXmit 2 2 0].foldl
    (LazyCall.apply 8) [freshBuff 1, freshBuff 2, freshBuff 3]

def forwardTargets : LazyFwdTargets := ⟨[1, 2], [2, 3]⟩

/-- A commit in which the first clone fails and the driver refuses its second call. -/
def cloneFailsEnv : LazyEnv :=
  ⟨fun i => if i = 1 then ⟨true, false, 16⟩ else ⟨true, false, 0⟩,
    fun c => if c = 0 then none else some (100 + c)⟩

theorem lazyXmitExec_forward_attempts :
    (∀ n < forwardTargets.dev.length, forwardTargets.cnt.getD n 0 =
      (forwardPool.map fun b =>
        gcCountDevInLog (oneQueueDevAt (forwardTargets.dev.getD n 0)).ifindex b.log).sum) ∧
    ∃ att, CommitTrace cloneFailsEnv true oneQueueDevAt forwardPool forwardTargets att ∧
      (∀ n < forwardTargets.dev.length, (att.getD n []).length = forwardTargets.cnt.getD n 0) ∧
      (pfqLazyXmitExec cloneFailsEnv true oneQueueDevAt forwardPool forwardTargets).events.count
        .abrt = att.flatten.countP fun a => !a.accepted :=
  ⟨by decide, lazyXmitExec_attempts _ _ _ _ _ (by decide)⟩

/-! ### Clones and the last delivery -/

theorem count_deliveryPlan (x : Nat) (pool : List GcBuff) (j k : Nat) :
    (deliveryPlan x pool j).count k =
      if j ≤ k then gcCountDevInLog x (pool.getD (k - j) default).log else 0 := by
  induction pool generalizing j with
  | nil => simp only [deliveryPlan, List.count_nil]; split <;> rfl
  | cons b rest ih =>
    rw [deliveryPlan, List.count_append, List.count_replicate, ih]
    rcases Nat.lt_trichotomy k j with h | rfl | h
    · simp [h, show ¬j ≤ k by omega, show ¬j + 1 ≤ k by omega, Nat.ne_of_gt h]
    · simp
    · obtain ⟨m, rfl⟩ : ∃ m, k = j + 1 + m := ⟨k - j - 1, by omega⟩
      simp [show j + 1 + m - j = m + 1 by omega, show j + 1 + m - (j + 1) = m by omega,
        Nat.ne_of_lt h, Nat.le_of_lt h]

theorem sum_map_count_of_nodup {xs l : List Nat} (hxs : xs.Nodup) (hl : ∀ x ∈ l, x ∈ xs) :
    (xs.map fun x => l.count x).sum = l.length := by
  rw [← List.sum_toFinset _ hxs]
  simpa using Multiset.sum_count_eq_card (s := xs.toFinset) (m := l) (by simpa using hl)

theorem deliveredAt_getD_self (pool : List GcBuff) {i : Nat} (hi : i < pool.length) :
    (deliveredAt pool i).getD i default =
      { pool.getD i default with log := (pool.getD i default).log.delivered } := by
  simp [deliveredAt, List.getElem?_set, hi]

theorem deliveredAt_getD_of_ne (pool : List GcBuff) {i j : Nat} (h : j ≠ i) :
    (deliveredAt pool i).getD j default = pool.getD j default := by
  simp [deliveredAt, List.getElem?_set, Ne.symm h]

theorem deliverLogs_getD {i : Nat} : ∀ {pool : List GcBuff} (as : List Attempt),
    i < pool.length → ((deliverLogs pool as).getD i default).log =
      GcLog.delivered^[as.countP fun a => a.entry == i] (pool.getD i default).log
  | _, [], _ => rfl
  | pool, a :: as, hi => by
    rw [deliverLogs_cons, deliverLogs_getD as (by rwa [deliveredAt_length]), List.countP_cons]
    by_cases h : a.entry = i
    · subst h
      rw [deliveredAt_getD_self _ hi]
      simp [Function.iterate_succ_apply]
    · rw [deliveredAt_getD_of_ne _ (Ne.symm h)]
      simp [h]

theorem CommitTrace.countP_entry {e : LazyEnv} {u : Bool} {devs : Nat → NetDevice}
    {pool : List GcBuff} {ts : LazyFwdTargets} {att : List (List Attempt)}
    (h : CommitTrace e u devs pool ts att) (hdist : (ts.dev.map fun d => (devs d).ifindex).Nodup)
    {i : Nat}
    (hcov : ∀ x ∈ (pool.getD i default).log.dev, x ∈ ts.dev.map fun d => (devs d).ifindex) :
    (att.flatten.countP fun a => a.entry == i) = (pool.getD i default).log.dev.length := by
  have : (att.flatten.countP fun a => a.entry == i) = (att.flatten.map Attempt.entry).count i := by
    simp [List.count, List.countP_map, Function.comp_def]
  rw [this, List.map_flatten, h.entries_eq, List.count_flatten, List.map_map,
    ← sum_map_count_of_nodup hdist hcov, List.map_map]
  simp [Function.comp_def, count_deliveryPlan, gcCountDevInLog]

theorem clonesAsLogged_filter {i : Nat} : ∀ {pool : List GcBuff} (as : List Attempt),
    i < pool.length → ClonesAsLogged pool as →
      (as.filter fun a => a.entry == i).map Attempt.cloned =
        (List.range (as.countP fun a => a.entry == i)).map fun k =>
          (GcLog.delivered^[k] (pool.getD i default).log).toKernel ||
            decide (1 < (GcLog.delivered^[k] (pool.getD i default).log).xmitTodo)
  | _, [], _, _ => rfl
  | pool, a :: as, hi, ⟨ha, h⟩ => by
    have ih := clonesAsLogged_filter as (by rwa [deliveredAt_length]) h
    by_cases he : a.entry = i
    · subst he
      rw [deliveredAt_getD_self _ hi] at ih
      simp [List.filter_cons, List.countP_cons, List.range_succ_eq_map, ih, ha,
        Function.iterate_succ_apply]
    · rw [deliveredAt_getD_of_ne _ (Ne.symm he)] at ih
      simp [List.filter_cons, List.countP_cons, he, ih]

theorem GcLog.toKernel_iterate_delivered (log : GcLog) (k : Nat) :
    (GcLog.delivered^[k] log).toKernel = log.toKernel := by
  induction k with
  | zero => rfl
  | succ k ih => rw [Function.iterate_succ_apply', GcLog.delivered_toKernel, ih]

theorem GcLog.xmitTodo_iterate_delivered (log : GcLog) {k : Nat} (hk : k ≤ log.xmitTodo)
    (ht : log.xmitTodo < 2 ^ 64) : (GcLog.delivered^[k] log).xmitTodo =
      if log.toKernel then log.xmitTodo else log.xmitTodo - k := by
  induction k with
  | zero => split <;> rfl
  | succ k ih =>
    rw [Function.iterate_succ_apply', GcLog.delivered_xmitTodo, toKernel_iterate_delivered,
      ih (by omega)]
    split <;> omega

/-- On logs built from empty by annotation calls, and targets that name each logged device exactly
once, every buffer not kept for the kernel is cloned for each of its deliveries but the last, where
`skb_get` hands over the buffer itself and `xmit_todo` reaches zero; a buffer kept for the kernel
is only cloned. -/
theorem lazyXmitExec_gets_on_last_delivery (e : LazyEnv) (u : Bool) (devs : Nat → NetDevice)
    (ts : LazyFwdTargets) {logQueueLen : Nat} (hL : logQueueLen < 2 ^ 64) {pool : List GcBuff}
    (hpool : Annotated logQueueLen pool) (hdist : (ts.dev.map fun d => (devs d).ifindex).Nodup)
    (hcov : ∀ b ∈ pool, ∀ x ∈ b.log.dev, x ∈ ts.dev.map fun d => (devs d).ifindex) :
    ∃ att, CommitTrace e u devs pool ts att ∧
      ∀ i < pool.length,
        (att.flatten.filter fun a => a.entry == i).map Attempt.cloned =
          (List.range (pool.getD i default).log.dev.length).map (fun k =>
            (pool.getD i default).log.toKernel ||
              decide (k + 1 < (pool.getD i default).log.dev.length)) ∧
        ((pfqLazyXmitExec e u devs pool ts).pool.getD i default).log.xmitTodo =
          if (pool.getD i default).log.toKernel then (pool.getD i default).log.dev.length
          else 0 := by
  obtain ⟨att, h⟩ := lazyXmitExec_trace e u devs pool ts
  refine ⟨att, h, fun i hi => ?_⟩
  have hb : pool.getD i default ∈ pool := by
    rw [List.getD_eq_getElem _ _ hi]; exact List.getElem_mem hi
  obtain ⟨htodo, hlen⟩ := hpool.wf hL _ hb
  have hcount := h.countP_entry hdist (hcov _ hb)
  refine ⟨?_, ?_⟩
  · rw [clonesAsLogged_filter _ hi h.clones, hcount]
    refine List.map_congr_left fun k hk => ?_
    rw [List.mem_range] at hk
    rw [GcLog.toKernel_iterate_delivered, GcLog.xmitTodo_iterate_delivered _ (by omega) (by omega)]
    cases (pool.getD i default).log.toKernel
    · simp only [Bool.false_or, Bool.false_eq_true, ite_false, decide_eq_decide]
      omega
    · rfl
  · rw [h.pool_eq, deliverLogs_getD _ hi, hcount,
      GcLog.xmitTodo_iterate_delivered _ (by omega) (by omega)]
    split <;> omega

theorem lazyXmitExec_forward_gets_last :
    8 < 2 ^ 64 ∧ Annotated 8 forwardPool ∧
    (forwardTargets.dev.map fun d => (oneQueueDevAt d).ifindex).Nodup ∧
    (∀ b ∈ forwardPool, ∀ x ∈ b.log.dev,
      x ∈ forwardTargets.dev.map fun d => (oneQueueDevAt d).ifindex) ∧
    ∃ att, CommitTrace cloneFailsEnv true oneQueueDevAt forwardPool forwardTargets att ∧
      ∀ i < forwardPool.length,
        (att.flatten.filter fun a => a.entry == i).map Attempt.cloned =
          (List.range (forwardPool.getD i default).log.dev.length).map (fun k =>
            (forwardPool.getD i default).log.toKernel ||
              decide (k + 1 < (forwardPool.getD i default).log.dev.length)) ∧
        ((pfqLazyXmitExec cloneFailsEnv true oneQueueDevAt forwardPool forwardTargets).pool.getD i
          default).log.xmitTodo =
          if (forwardPool.getD i default).log.toKernel then
            (forwardPool.getD i default).log.dev.length
          else 0 :=
  have hp : Annotated 8 forwardPool := (Annotated.empty _ (by decide)).foldl _
  ⟨by decide, hp, by decide, by decide,
    lazyXmitExec_gets_on_last_delivery _ _ _ _ (by decide) hp (by decide) (by decide)⟩

/-- The commit of `forwardPool`: buffer 1 twice to device 2 after once to device 1, its first clone
failing; every log ends with `xmit_todo` zero. -/
example : (pfqLazyXmitExec cloneFailsEnv true oneQueueDevAt forwardPool forwardTargets).pool.map
    (·.log.xmitTodo) = [0, 0, 0] := by
  decide

end Pfq.Lazy
