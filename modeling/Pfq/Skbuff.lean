import Mathlib

/-!
# Socket buffers, driver outcomes and the event log of the transmit path

A socket buffer is modelled by the fields the transmit path writes or reads: its identity (the
buffer's address), `len`, the bytes copied into its linear data and `queue_mapping`. The other
fields of `struct sk_buff` are not read by any modelled function.

What a function of the transmit path does to the outside world is recorded as a list of events:
queue locks, calls of `__pfq_xmit` with the driver's answer, releases through `kfree_skb` or the
buffer pool, extra references, allocations and checks of the give-up condition. Every property of
the path is then a statement about the events of a run. A call of `__pfq_xmit` is the only place
where the driver is reached; its outcome is the device state and driver return code it met,
`XmitObs`, which the environment chooses freely.
-/
namespace Pfq.Skbuff

/-- `NETDEV_TX_OK`, the driver's return code for an accepted buffer. -/
def NETDEV_TX_OK : Int := 0
/-- `NET_XMIT_MASK`: return codes below it mean that the driver consumed the buffer. -/
def NET_XMIT_MASK : Int := 0x0f
def ENETDOWN : Int := 100
def EINTR : Int := 4

/-- `dev_xmit_complete`. -/
def devXmitComplete (rc : Int) : Bool := decide (rc < NET_XMIT_MASK)

/-- The fields of `struct sk_buff` that the transmit path writes or reads. -/
structure SkBuff where
  id : Nat
  len : Nat
  data : List UInt8
  queueMapping : Nat
  deriving DecidableEq, Repr, Inhabited

/-- `skb_set_queue_mapping`: the field is a `u16`, the queue an `int`. -/
def skbSetQueueMapping (skb : SkBuff) (q : BitVec 32) : SkBuff :=
  { skb with queueMapping := q.toNat % 2 ^ 16 }

@[simp] theorem skbSetQueueMapping_id (skb : SkBuff) (q : BitVec 32) :
    (skbSetQueueMapping skb q).id = skb.id := rfl
@[simp] theorem skbSetQueueMapping_len (skb : SkBuff) (q : BitVec 32) :
    (skbSetQueueMapping skb q).len = skb.len := rfl
@[simp] theorem skbSetQueueMapping_data (skb : SkBuff) (q : BitVec 32) :
    (skbSetQueueMapping skb q).data = skb.data := rfl

/-- A buffer apart from its queue mapping: which allocation it is, its length and its bytes. -/
def SkBuff.key (skb : SkBuff) : Nat × Nat × List UInt8 := (skb.id, skb.len, skb.data)

@[simp] theorem key_skbSetQueueMapping (skb : SkBuff) (q : BitVec 32) :
    (skbSetQueueMapping skb q).key = skb.key := rfl

theorem SkBuff.id_eq_of_key {a b : SkBuff} (h : a.key = b.key) : a.id = b.id :=
  congrArg Prod.fst h

/-- What one call of `__pfq_xmit` meets: `dev->flags & IFF_UP`, `netif_xmit_stopped(txq)` and the
code `ndo_start_xmit` returns when it is called. -/
structure XmitObs where
  up : Bool
  stopped : Bool
  rc : Int
  deriving DecidableEq, Repr

/-- The driver took the buffer: it was called and its code is one of the completed ones. -/
def XmitObs.consumed (o : XmitObs) : Bool := o.up && !o.stopped && devXmitComplete o.rc

/-- The driver accepted the buffer with `NETDEV_TX_OK`. -/
def XmitObs.ok (o : XmitObs) : Bool := o.up && !o.stopped && decide (o.rc = NETDEV_TX_OK)

theorem XmitObs.consumed_of_ok {o : XmitObs} (h : o.ok = true) : o.consumed = true := by
  simp only [XmitObs.ok, XmitObs.consumed, devXmitComplete, NETDEV_TX_OK, NET_XMIT_MASK,
    Bool.and_eq_true, decide_eq_true_eq] at h ⊢
  exact ⟨h.1, by omega⟩

/-- Everything the transmit path does that another party can observe. Devices are named by their
interface index; `q` is a hardware TX queue of that device. The events are
`__netif_tx_lock_bh` and `__netif_tx_unlock_bh` on queue `q` of device `dev`; a call
`__pfq_xmit(skb, dev, txq q, more)`, with the hint as stored in the buffer and what the call met;
`kfree_skb`, with `os_free` incremented; `skb_get`; `skb_clone(skb, GFP_ATOMIC)` with the clone it
returned or `NULL`; `sparse_inc(&global_stats.abrt)`; `pfq_kfree_skb_pool`, which gives the buffer
back to the CPU-local pool; `pfq_tx_alloc_skb` returning `skb`, filled from the descriptor whose
header is at `hdr`; an evaluation of `giveup_tx_process`; and a call of `pfq_batch_xmit`. -/
inductive Event where
  | lock (dev q : Nat)
  | unlock (dev q : Nat)
  | xmit (dev : Nat) (skb : SkBuff) (q : Nat) (more : Bool) (o : XmitObs)
  | kfree (skb : SkBuff)
  | get (skb : SkBuff)
  | clone (skb : SkBuff) (nskb : Option SkBuff)
  | abrt
  | poolFree (skb : SkBuff)
  | alloc (skb : SkBuff) (hdr : Nat)
  | giveup (b : Bool)
  | batchXmit
  deriving DecidableEq, Repr

/-- `__pfq_xmit`: the driver is called when the device is up and the queue is running; unless it
consumed the buffer, the buffer is freed here and `-ENETDOWN` returned. Without
`PFQ_USE_XMIT_MORE` the hint is cleared. -/
def __pfqXmit (useXmitMore : Bool) (dev : Nat) (skb : SkBuff) (q : Nat) (more : Bool)
    (o : XmitObs) : Int × List Event :=
  let ev := Event.xmit dev skb q (useXmitMore && more) o
  if o.consumed then (o.rc, [ev]) else (-ENETDOWN, [ev, .kfree skb])

theorem __pfqXmit_ok_iff (u : Bool) (dev : Nat) (skb : SkBuff) (q : Nat) (more : Bool)
    (o : XmitObs) : (__pfqXmit u dev skb q more o).1 = NETDEV_TX_OK ↔ o.ok = true := by
  unfold __pfqXmit
  by_cases h : o.consumed = true
  · simp only [h, if_true, XmitObs.ok]
    simp only [XmitObs.consumed, Bool.and_eq_true] at h
    simp [h.1.1, h.1.2]
  · simp only [h, Bool.false_eq_true, if_false, ENETDOWN, NETDEV_TX_OK]
    constructor
    · intro h'; omega
    · intro h'; exact absurd (XmitObs.consumed_of_ok h') h

/-- The events of `__pfq_xmit`: the call of the driver, and the release of a buffer the driver did
not consume. -/
theorem __pfqXmit_events_eq (u : Bool) (dev : Nat) (skb : SkBuff) (q : Nat) (more : Bool)
    (o : XmitObs) : (__pfqXmit u dev skb q more o).2 =
      .xmit dev skb q (u && more) o :: if o.consumed then [] else [.kfree skb] := by
  unfold __pfqXmit
  split <;> simp [*]

/-! ### Reading a log -/

/-- The buffer of an event the driver accepted with `NETDEV_TX_OK`. -/
@[simp] def Event.accepted : Event → Option SkBuff
  | .xmit _ skb _ _ o => if o.ok then some skb else none
  | _ => none

@[simp] def Event.pooled : Event → Option SkBuff
  | .poolFree skb => some skb
  | _ => none

@[simp] def Event.allocated : Event → Option SkBuff
  | .alloc skb _ => some skb
  | _ => none

/-- A call of `pfq_batch_xmit` or of the driver. -/
def Event.reachesDriver : Event → Bool
  | .batchXmit | .xmit .. => true
  | _ => false

/-- The buffers accepted by the driver, in submission order. -/
def accepted (l : List Event) : List SkBuff := l.filterMap Event.accepted
/-- The buffers handed to `pfq_kfree_skb_pool`, in order. -/
def pooled (l : List Event) : List SkBuff := l.filterMap Event.pooled
/-- The buffers allocated, in order. -/
def allocated (l : List Event) : List SkBuff := l.filterMap Event.allocated

section
variable (l l' : List Event)
@[simp] theorem accepted_nil : accepted [] = [] := rfl
@[simp] theorem accepted_append : accepted (l ++ l') = accepted l ++ accepted l' :=
  List.filterMap_append _ _ _
@[simp] theorem pooled_nil : pooled [] = [] := rfl
@[simp] theorem pooled_append : pooled (l ++ l') = pooled l ++ pooled l' :=
  List.filterMap_append _ _ _
@[simp] theorem allocated_nil : allocated [] = [] := rfl
@[simp] theorem allocated_append : allocated (l ++ l') = allocated l ++ allocated l' :=
  List.filterMap_append _ _ _
end

/-- Each reader keeps the buffer an event names, in order. -/
theorem filterMap_cons_toList {α β : Type} (f : α → Option β) (a : α) (l : List α) :
    (a :: l).filterMap f = (f a).toList ++ l.filterMap f := by
  cases h : f a <;> simp [List.filterMap_cons, h]

section
variable (e : Event) (l : List Event)
@[simp] theorem accepted_cons : accepted (e :: l) = (e.accepted).toList ++ accepted l :=
  filterMap_cons_toList _ _ _
@[simp] theorem pooled_cons : pooled (e :: l) = (e.pooled).toList ++ pooled l :=
  filterMap_cons_toList _ _ _
@[simp] theorem allocated_cons : allocated (e :: l) = (e.allocated).toList ++ allocated l :=
  filterMap_cons_toList _ _ _
end

section
variable (l : List SkBuff)
@[simp] theorem accepted_map_kfree : accepted (l.map .kfree) = [] := by
  induction l <;> simp_all [Event.accepted]
@[simp] theorem pooled_map_kfree : pooled (l.map .kfree) = [] := by
  induction l <;> simp_all [Event.pooled]
@[simp] theorem allocated_map_kfree : allocated (l.map .kfree) = [] := by
  induction l <;> simp_all [Event.allocated]
end

/-! ### Reference counts -/

/-- How an event changes the reference count of the buffer at address `id`: `skb_get` takes a
reference; a driver that consumes the buffer, `kfree_skb` and `pfq_kfree_skb_pool` each give one
up. A clone is a buffer of its own. -/
def Event.refDelta (id : Nat) : Event → Int
  | .get skb => if skb.id = id then 1 else 0
  | .xmit _ skb _ _ o => if skb.id = id ∧ o.consumed = true then -1 else 0
  | .kfree skb | .poolFree skb => if skb.id = id then -1 else 0
  | _ => 0

/-- The change a log makes to the reference count of the buffer at `id`. -/
def refDelta (id : Nat) (l : List Event) : Int := (l.map (Event.refDelta id)).sum

section
variable (id : Nat) (l l' : List Event) (bs : List SkBuff)
@[simp] theorem refDelta_nil : refDelta id [] = 0 := rfl
@[simp] theorem refDelta_cons (e : Event) : refDelta id (e :: l) = e.refDelta id + refDelta id l :=
  List.sum_cons
@[simp] theorem refDelta_append : refDelta id (l ++ l') = refDelta id l + refDelta id l' := by
  simp [refDelta]
@[simp] theorem refDelta_map_get :
    refDelta id (bs.map .get) = bs.countP fun b => b.id = id := by
  induction bs with
  | nil => rfl
  | cons b bs ih => by_cases h : b.id = id <;> simp [Event.refDelta, List.countP_cons, ih, h]; omega
@[simp] theorem refDelta_map_kfree :
    refDelta id (bs.map .kfree) = -(bs.countP fun b => b.id = id : Int) := by
  induction bs with
  | nil => rfl
  | cons b bs ih => by_cases h : b.id = id <;> simp [Event.refDelta, List.countP_cons, ih, h]
@[simp] theorem refDelta_map_poolFree :
    refDelta id (bs.map .poolFree) = -(bs.countP fun b => b.id = id : Int) := by
  induction bs with
  | nil => rfl
  | cons b bs ih => by_cases h : b.id = id <;> simp [Event.refDelta, List.countP_cons, ih, h]
end

/-- `__pfq_xmit` gives up the reference it is handed: the driver consumes it, or it is freed. -/
theorem __pfqXmit_refDelta (id : Nat) (u : Bool) (dev : Nat) (skb : SkBuff) (q : Nat)
    (more : Bool) (o : XmitObs) :
    refDelta id (__pfqXmit u dev skb q more o).2 = if skb.id = id then -1 else 0 := by
  rw [__pfqXmit_events_eq]
  cases hc : o.consumed <;> by_cases h : skb.id = id <;> simp [Event.refDelta, hc, h]

theorem __pfqXmit_events (u : Bool) (dev : Nat) (skb : SkBuff) (q : Nat) (more : Bool)
    (o : XmitObs) :
    accepted (__pfqXmit u dev skb q more o).2 = (if o.ok then [skb] else []) ∧
      pooled (__pfqXmit u dev skb q more o).2 = [] ∧
      allocated (__pfqXmit u dev skb q more o).2 = [] := by
  unfold __pfqXmit
  split
  · cases h : o.ok <;> simp [Event.accepted, Event.pooled, Event.allocated, h]
  · next h =>
    have : o.ok = false := by
      cases hk : o.ok
      · rfl
      · exact absurd (XmitObs.consumed_of_ok hk) h
    simp [Event.accepted, Event.pooled, Event.allocated, this]

end Pfq.Skbuff
