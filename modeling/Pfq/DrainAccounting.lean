import Pfq.Drain

/-!
# What a drain accounts for

A drain that completes its swap walks the traversal `ps` of its half. The invariant `Acct`
relates its state to `ps` at every program point from the start of the transmit loop on: the
`j`-th allocation copies the `j`-th descriptor; the accepted buffers followed by the batch are the
allocated ones, in order; the buffers returned to the pool are the accepted ones, followed, once
the leftovers are released, by the batch; `tot_sent`, with the running `total` of
`full_batch_xmit`, counts the accepted buffers; and the cursor stands at the descriptor after the
ones taken, or, in the loop that counts the rest, after the ones counted. At the return the
counters have grown by `tot_sent` and by the descriptors not accepted, and the drain returns
`tot_sent` converted to `int`: a drain of `2^31` accepted descriptors returns `-2^31`.
-/
namespace Pfq.Drain
open Pfq.Skbuff Pfq.Netdev Pfq.TxRing Pfq.Swap

/-- The copies the drain makes of the descriptors at `ps`: the `j`-th allocation fills from the
`j`-th. -/
def copies (ctx : Ctx) (ps : List Nat) : List (Nat × Nat × List UInt8) :=
  ps.mapIdx fun j p => (fillSkb ctx.maxLen ctx.hwQueue ctx.mem p j).key

theorem copies_append_singleton (ctx : Ctx) (ps : List Nat) (p : Nat) :
    copies ctx (ps ++ [p]) =
      copies ctx ps ++ [(fillSkb ctx.maxLen ctx.hwQueue ctx.mem p ps.length).key] := by
  simp [copies, List.mapIdx_append]

theorem copies_take (ctx : Ctx) (ps : List Nat) (n : Nat) :
    (copies ctx ps).take n = copies ctx (ps.take n) := by
  apply List.ext_getElem
  · simp [copies]
  · intro i h₁ h₂
    simp [copies]

/-- Once the leftovers are released, the batch counts among the pooled buffers. -/
def Pc.released : Pc → Bool
  | .discard | .ret _ => true
  | _ => false

/-- While `full_batch_xmit` runs, its `total` counts toward the accepted buffers. -/
def Pc.pending (total : Nat) : Pc → Nat
  | .batch _ => total
  | _ => 0

/-- The ring and the counters, as the drain found them. -/
def Fixed (ctx : Ctx) (s : State) : Prop :=
  s.mem = ctx.mem ∧ s.index = swapIndex ctx.stamps ∧ s.stats = ctx.stats

/-- The cursor stands at the `j`-th descriptor of the traversal `ps`, or at its end. -/
def At (ctx : Ctx) (ps : List Nat) (s : State) (j : Nat) : Prop :=
  Traverse ctx.debug ctx.mem (drainBegin ctx (swapIndex ctx.stamps))
    (drainEnd ctx (swapIndex ctx.stamps)) s.ptr (ps.drop j) ∧ j ≤ ps.length

/-- In the transmit loop: the cursor follows the allocations, one per descriptor. -/
def Main (ctx : Ctx) (ps : List Nat) (s : State) : Prop :=
  Fixed ctx s ∧ At ctx ps s (allocated s.events).length ∧ s.ai = (allocated s.events).length

/-- What each program point says of the cursor, the batch and the counters. -/
def AcctAt (ctx : Ctx) (ps : List Nat) (s : State) : Prop :=
  match s.pc with
  | .start => Fixed ctx s ∧ allocated s.events = [] ∧ s.ai = 0
  | .loop => Main ctx ps s ∧ s.skbs.length ≤ ctx.batchLen
  | .batch .inLoop =>
    Main ctx ps s ∧ (allocated s.events).length < ps.length ∧ s.skbs.length ≤ ctx.batchLen
  | .waitCheck | .wait | .alloc =>
    Main ctx ps s ∧ (allocated s.events).length < ps.length ∧ s.skbs.length < ctx.batchLen
  | .flush | .batch .flush | .leftover => Fixed ctx s ∧ At ctx ps s (allocated s.events).length
  | .discard =>
    Fixed ctx s ∧ s.skbs.length ≤ s.disc ∧
      At ctx ps s ((allocated s.events).length + (s.disc - s.skbs.length))
  | .ret r =>
    s.stats = ctx.stats.add s.disc s.totSent ∧ r = (BitVec.ofNat 32 s.totSent).toInt ∧
      s.disc = s.skbs.length + (ps.length - (allocated s.events).length) ∧
      (allocated s.events).length ≤ ps.length
  | .swap | .spin | .overflow => False

structure Acct (ctx : Ctx) (ps : List Nat) (s : State) : Prop where
  copies : (allocated s.events).map SkBuff.key = copies ctx (ps.take (allocated s.events).length)
  split : (accepted s.events).map SkBuff.key ++ s.skbs.map SkBuff.key =
    (allocated s.events).map SkBuff.key
  pooled : pooled s.events = accepted s.events ++ if s.pc.released then s.skbs else []
  sent : s.totSent + s.pc.pending s.total = (accepted s.events).length
  point : AcctAt ctx ps s

section
variable {ctx : Ctx} {env : Env} {ps : List Nat} {s u : State}

/-- While the test holds, the cursor is on a descriptor of the traversal. -/
theorem At.lt_length {j : Nat} (h : At ctx ps s j) (ht : traverseTxQueue ctx.debug ctx.mem s.ptr
      (drainBegin ctx (swapIndex ctx.stamps)) (drainEnd ctx (swapIndex ctx.stamps)) = true) :
    j < ps.length := by
  obtain ⟨rest, hr, -⟩ := h.1.eq_cons ht
  by_contra hn
  rw [List.drop_eq_nil_of_le (by omega)] at hr
  cases hr

/-- On the `j`-th descriptor the test holds, the descriptor is the cursor's, and the advance
moves to the next. -/
theorem At.next {j : Nat} (h : At ctx ps s j) (hj : j < ps.length) :
    traverseTxQueue ctx.debug ctx.mem s.ptr (drainBegin ctx (swapIndex ctx.stamps))
        (drainEnd ctx (swapIndex ctx.stamps)) = true ∧
      ps.take (j + 1) = ps.take j ++ [s.ptr] ∧
      Traverse ctx.debug ctx.mem (drainBegin ctx (swapIndex ctx.stamps))
        (drainEnd ctx (swapIndex ctx.stamps)) (advance ctx.mem s.ptr) (ps.drop (j + 1)) := by
  have h1 := h.1
  rw [List.drop_eq_getElem_cons hj] at h1
  obtain ⟨he, ht, hr⟩ := h1.cons_inv
  refine ⟨ht, ?_, hr⟩
  rw [List.take_succ, List.getElem?_eq_getElem hj, he]
  rfl

/-- When the test fails the traversal is over. -/
theorem At.last {j : Nat} (h : At ctx ps s j) (hf : traverseTxQueue ctx.debug ctx.mem s.ptr
      (drainBegin ctx (swapIndex ctx.stamps)) (drainEnd ctx (swapIndex ctx.stamps)) = false) :
    j = ps.length := by
  have := h.1.eq_nil hf
  rw [List.drop_eq_nil_iff] at this
  exact le_antisymm h.2 this

/-- The traversal of the drained half from `begin`. -/
abbrev Drains (ctx : Ctx) (ps : List Nat) : Prop :=
  Traverse ctx.debug ctx.mem (drainBegin ctx (swapIndex ctx.stamps))
    (drainEnd ctx (swapIndex ctx.stamps)) (drainBegin ctx (swapIndex ctx.stamps)) ps

theorem twoDesc_drains : Drains twoDescCtx [0, 24] :=
  .visit (by decide) (.visit (by decide) (.stop (by decide)))

theorem acct_start (hps : Drains ctx ps) (hi : Acct ctx ps s) (hpc : s.pc = .start)
    (h : exec ctx env s = some u) : Acct ctx ps u := by
  have hp := hi.point
  simp only [AcctAt, hpc] at hp
  obtain ⟨⟨hm, hx, hs⟩, ha, hai⟩ := hp
  simp only [exec, hpc, Option.some.injEq] at h
  subst h
  have hsplit := hi.split
  rw [ha] at hsplit
  simp only [List.map_nil, List.append_eq_nil, List.map_eq_nil_iff] at hsplit
  refine ⟨hi.copies, by simp [hsplit.1, ha], ?_, ?_, ?_⟩
  · simpa [Pc.released, hpc] using hi.pooled
  · simpa [Pc.pending, hpc] using hi.sent
  · refine ⟨⟨⟨hm, hx, hs⟩, ⟨?_, by simp [ha]⟩, by simp [ha, hai]⟩, by simp⟩
    simpa [ha, hx] using hps

theorem acct_loop (hi : Acct ctx ps s) (hpc : s.pc = .loop) (h : exec ctx env s = some u) :
    Acct ctx ps u := by
  have hp := hi.point
  simp only [AcctAt, hpc] at hp
  obtain ⟨⟨⟨hm, hx, hs⟩, hat, hai⟩, hlen⟩ := hp
  have pooled := hi.pooled
  have sent := hi.sent
  simp only [Pc.released, Pc.pending, hpc] at pooled sent
  simp only [exec, hpc, hm, hx] at h
  split at h
  · next ht =>
    have hk := hat.lt_length ht
    split at h <;> cases h
    · exact ⟨hi.copies, hi.split, by simpa [Pc.released] using pooled,
        by simpa [Pc.pending] using sent, ⟨⟨rfl, rfl, hs⟩, hat, hai⟩, hk, hlen⟩
    · next hr =>
      have : s.skbs.length ≠ ctx.batchLen := fun he => by simp [transmissionRequired, he] at hr
      exact ⟨hi.copies, hi.split, by simpa [Pc.released] using pooled,
        by simpa [Pc.pending] using sent, ⟨⟨rfl, rfl, hs⟩, hat, hai⟩, hk, by dsimp only; omega⟩
  · cases h
    exact ⟨hi.copies, hi.split, by simpa [Pc.released] using pooled,
      by simpa [Pc.pending] using sent, ⟨rfl, rfl, hs⟩, hat⟩

theorem acct_batch {site : Site} (hb : 1 ≤ ctx.batchLen) (hi : Acct ctx ps s)
    (hpc : s.pc = .batch site) (h : exec ctx env s = some u) : Acct ctx ps u := by
  have hp := hi.point
  have hpool := hi.pooled
  have hsent := hi.sent
  simp only [Pc.released, Pc.pending, hpc, Bool.false_eq_true, if_false, if_true, List.append_nil,
    Nat.add_zero] at hpool hsent
  simp only [exec, hpc] at h
  split at h
  · next he =>
    cases h
    rw [batchReturn_eq]
    have hnil : s.skbs = [] := List.isEmpty_iff.1 he
    refine ⟨hi.copies, hi.split, by cases site <;> simpa [Pc.released, batchNext] using hpool,
      by cases site <;> simpa [Pc.pending, batchNext] using hsent, ?_⟩
    cases site <;> simp only [AcctAt, hpc] at hp
    · obtain ⟨hmain, hk, -⟩ := hp
      exact ⟨hmain, hk, by simp [hnil]; omega⟩
    · exact hp
  · split at h
    · cases h
      rw [batchReturn_eq]
      refine ⟨by simpa using hi.copies, by simpa [Event.accepted] using hi.split,
        by cases site <;> simpa [Pc.released, batchNext, Event.pooled, Event.accepted] using hpool,
        by cases site <;> simpa [Pc.pending, batchNext, Event.accepted] using hsent, ?_⟩
      cases site <;> simp only [AcctAt, hpc] at hp
      · exact ⟨hp.1.1, by simpa using hp.1.2.1⟩
      · simpa [AcctAt, batchNext] using hp
    · cases h
      obtain ⟨r1, r2, r3, r4, r5⟩ := batchRound_spec ctx.useXmitMore ctx.dev ctx.hwQueue
        (env.driver s.bi) s.skbs
      have hacc := congrArg List.length r3
      have hrest := congrArg List.length r2
      simp only [List.length_map, List.length_take, List.length_drop] at hacc hrest
      refine ⟨by simpa [Event.allocated, r5] using hi.copies, ?_, ?_, ?_, ?_⟩
      · simp only [events_mk, events_emit, accepted_append, accepted_cons, allocated_append,
          allocated_cons, Event.accepted, Event.allocated, Option.toList, List.nil_append, r5,
          List.append_nil, List.map_append, r2, r3, List.append_assoc, List.take_append_drop]
        exact hi.split
      · simp [hpool, r4, Pc.released]
      · simp only [events_mk, events_emit, accepted_append, accepted_cons, Event.accepted,
          Option.toList, List.nil_append, List.length_append, Pc.pending]
        omega
      · cases site <;> simp only [AcctAt, hpc] at hp ⊢
        · obtain ⟨⟨hf, hat, hai⟩, hk, hlen⟩ := hp
          simp only [Main, events_mk, events_emit, allocated_append, allocated_cons,
            Event.allocated, Option.toList, List.nil_append, r5, List.append_nil]
          exact ⟨⟨hf, hat, hai⟩, hk, by omega⟩
        · simpa [Event.allocated, r5] using hp

theorem acct_waitCheck (hi : Acct ctx ps s) (hpc : s.pc = .waitCheck)
    (h : exec ctx env s = some u) : Acct ctx ps u := by
  have hp := hi.point
  simp only [AcctAt, hpc] at hp
  simp only [exec, hpc, Option.some.injEq] at h
  subst h
  have hpool := hi.pooled
  have hsent := hi.sent
  simp only [Pc.released, Pc.pending, hpc, Bool.false_eq_true, if_false, if_true, List.append_nil,
    Nat.add_zero] at hpool hsent
  generalize hq : (if s.now < s.lastTs then Pc.wait else Pc.alloc) = q
  have : q = .wait ∨ q = .alloc := by split_ifs at hq <;> simp [← hq]
  rcases this with rfl | rfl <;>
    exact ⟨hi.copies, hi.split, by simpa [Pc.released] using hpool,
      by simpa [Pc.pending] using hsent, by simpa [AcctAt] using hp⟩

theorem acct_wait (hi : Acct ctx ps s) (hpc : s.pc = .wait)
    (h : exec ctx env s = some u) : Acct ctx ps u := by
  have hp := hi.point
  simp only [AcctAt, hpc] at hp
  simp only [exec, hpc, Option.some.injEq] at h
  subst h
  have hpool := hi.pooled
  have hsent := hi.sent
  simp only [Pc.released, Pc.pending, hpc, Bool.false_eq_true, if_false, if_true, List.append_nil,
    Nat.add_zero] at hpool hsent
  generalize hq : (if env.giveup s.gi = true then Pc.alloc
    else if env.clock s.tick < s.lastTs then Pc.wait else Pc.alloc) = q
  have : q = .wait ∨ q = .alloc := by split_ifs at hq <;> simp [← hq]
  rcases this with rfl | rfl <;>
    exact ⟨by simpa using hi.copies, by simpa using hi.split, by simpa [Pc.released] using hpool,
      by simpa [Pc.pending] using hsent, by simpa [AcctAt, Main, Fixed, At] using hp⟩

theorem acct_alloc (hc : ctx.batchLen ≤ ctx.capacity) (hi : Acct ctx ps s) (hpc : s.pc = .alloc)
    (h : exec ctx env s = some u) : Acct ctx ps u := by
  have hp := hi.point
  simp only [AcctAt, hpc] at hp
  obtain ⟨⟨⟨hm, hx, hs⟩, hat, hai⟩, hk, hlen⟩ := hp
  have hpool := hi.pooled
  have hsent := hi.sent
  simp only [Pc.released, Pc.pending, hpc, Bool.false_eq_true, if_false, if_true, List.append_nil,
    Nat.add_zero] at hpool hsent
  simp only [exec, hpc] at h
  split at h
  · rw [if_pos (by omega : s.skbs.length < ctx.capacity)] at h
    cases h
    obtain ⟨-, htake, hnext⟩ := hat.next hk
    have hA : allocated (s.events ++ [.alloc (fillSkb ctx.maxLen ctx.hwQueue s.mem s.ptr s.ai)
        s.ptr]) = allocated s.events ++ [fillSkb ctx.maxLen ctx.hwQueue s.mem s.ptr s.ai] := by
      simp
    refine ⟨?_, ?_, by simpa [Pc.released] using hpool, by simpa [Pc.pending] using hsent, ?_⟩
    · simp only [events_mk, events_emit, hA]
      rw [List.length_append, List.length_singleton, htake, copies_append_singleton,
        List.length_take_of_le (by omega), List.map_append, hi.copies, hm, hai]
      rfl
    · simp only [events_mk, events_emit, hA, accepted_append, accepted_cons, accepted_nil,
        Event.accepted, Option.toList, List.append_nil, List.map_append]
      rw [← hi.split, List.append_assoc]
    · simp only [AcctAt, Main, Fixed, At, events_mk, events_emit, hA, List.length_append,
        List.length_singleton]
      exact ⟨⟨⟨hm, hx, hs⟩, ⟨by rw [hm]; exact hnext, hk⟩, by rw [hai]⟩, by omega⟩
  · cases h
    exact ⟨hi.copies, hi.split, by simpa [Pc.released] using hpool,
      by simpa [Pc.pending] using hsent, ⟨hm, hx, hs⟩, hat⟩

theorem acct_flush (hi : Acct ctx ps s) (hpc : s.pc = .flush) (h : exec ctx env s = some u) :
    Acct ctx ps u := by
  have hp := hi.point
  simp only [AcctAt, hpc] at hp
  have hpool := hi.pooled
  have hsent := hi.sent
  simp only [Pc.released, Pc.pending, hpc, Bool.false_eq_true, if_false, if_true, List.append_nil,
    Nat.add_zero] at hpool hsent
  simp only [exec, hpc] at h
  split at h <;> cases h <;>
    exact ⟨hi.copies, hi.split, by simpa [Pc.released] using hpool,
      by simpa [Pc.pending] using hsent, hp⟩

theorem acct_leftover (hi : Acct ctx ps s) (hpc : s.pc = .leftover)
    (h : exec ctx env s = some u) : Acct ctx ps u := by
  have hp := hi.point
  simp only [AcctAt, hpc] at hp
  have hpool := hi.pooled
  have hsent := hi.sent
  simp only [Pc.released, Pc.pending, hpc, Bool.false_eq_true, if_false, if_true, List.append_nil,
    Nat.add_zero] at hpool hsent
  simp only [exec, hpc, Option.some.injEq] at h
  subst h
  refine ⟨by simpa using hi.copies, by simpa using hi.split, by simp [Pc.released, hpool],
    by simpa [Pc.pending] using hsent, ?_⟩
  simpa [AcctAt] using hp

theorem acct_discard (hi : Acct ctx ps s) (hpc : s.pc = .discard)
    (h : exec ctx env s = some u) : Acct ctx ps u := by
  have hp := hi.point
  simp only [AcctAt, hpc] at hp
  obtain ⟨⟨hm, hx, hs⟩, hd, hat⟩ := hp
  have hpool := hi.pooled
  have hsent := hi.sent
  simp only [Pc.released, Pc.pending, hpc, Bool.false_eq_true, if_false, if_true, List.append_nil,
    Nat.add_zero] at hpool hsent
  simp only [exec, hpc, hm, hx] at h
  split at h <;> cases h
  · next ht =>
    have hk := hat.lt_length ht
    have hnext := (hat.next hk).2.2
    refine ⟨hi.copies, hi.split, by simpa [Pc.released] using hpool,
      by simpa [Pc.pending] using hsent, ⟨rfl, rfl, hs⟩, ?_, ?_, ?_⟩ <;>
      simp only [events_mk, log_map_snd]
    · omega
    · rwa [show (allocated s.events).length + (s.disc + 1 - s.skbs.length) =
        (allocated s.events).length + (s.disc - s.skbs.length) + 1 by omega]
    · omega
  · next ht =>
    have := hat.last (by simpa using ht)
    refine ⟨hi.copies, hi.split, by simpa [Pc.released] using hpool,
      by simpa [Pc.pending] using hsent, by simp [hs], rfl, ?_, ?_⟩ <;>
      simp only [events_mk, log_map_snd] <;> omega

theorem exec_acct (hb : 1 ≤ ctx.batchLen) (hc : ctx.batchLen ≤ ctx.capacity)
    (hps : Drains ctx ps) (hi : Acct ctx ps s) (h : exec ctx env s = some u) : Acct ctx ps u := by
  cases hpc : s.pc with
  | swap | spin | overflow => have := hi.point; simp [AcctAt, hpc] at this
  | ret r => simp [exec, hpc] at h
  | start => exact acct_start hps hi hpc h
  | loop => exact acct_loop hi hpc h
  | batch site => exact acct_batch hb hi hpc h
  | waitCheck => exact acct_waitCheck hi hpc h
  | wait => exact acct_wait hi hpc h
  | alloc => exact acct_alloc hc hi hpc h
  | flush => exact acct_flush hi hpc h
  | leftover => exact acct_leftover hi hpc h
  | discard => exact acct_discard hi hpc h

theorem acct_of_reaches (hb : 1 ≤ ctx.batchLen) (hc : ctx.batchLen ≤ ctx.capacity)
    (hps : Drains ctx ps) {s₀ : State} (h₀ : Acct ctx ps s₀) (h : Reaches ctx env s₀ s) :
    Acct ctx ps s := by
  induction h with
  | refl => exact h₀
  | tail _ hst ih =>
    obtain ⟨v, hv, rfl⟩ := Option.map_eq_some'.1 hst
    have := exec_acct hb hc hps ih hv
    exact ⟨this.1, this.2, this.3, this.4, this.5⟩

/-- Before the transmit loop the drain has only swapped and spun: the ring and the counters are
untouched, and no buffer has been allocated, accepted or pooled. -/
def Pre (ctx : Ctx) (s : State) : Prop :=
  s.mem = ctx.mem ∧ s.stats = ctx.stats ∧ s.skbs = [] ∧ s.ai = 0 ∧ s.totSent = 0 ∧
    allocated s.events = [] ∧ accepted s.events = [] ∧ pooled s.events = [] ∧
    (s.pc = .swap ∧ s.stamps = ctx.stamps ∨
      (s.pc = .spin ∨ s.pc = .start) ∧ s.index = swapIndex ctx.stamps)

theorem exec_started (hs : s.pc.started = true) (h : exec ctx env s = some u) :
    u.pc.started = true := by
  cases hpc : s.pc <;> simp [Pc.started, hpc] at hs <;> simp only [exec, hpc] at h
  case ret | overflow => cases h
  case batch site =>
    split at h
    · cases h; rw [batchReturn_eq]; cases site <;> rfl
    · split at h <;> cases h
      · rw [batchReturn_eq]; cases site <;> rfl
      · rfl
  all_goals (repeat' split at h) <;> cases h <;> rfl

theorem pre_or_started (h : Reaches ctx env (init ctx) s) : Pre ctx s ∨ s.pc.started = true := by
  induction h with
  | refl => exact .inl ⟨rfl, rfl, rfl, rfl, rfl, rfl, rfl, rfl, .inl ⟨rfl, rfl⟩⟩
  | tail _ hst ih =>
    obtain ⟨v, hv, rfl⟩ := Option.map_eq_some'.1 hst
    rcases ih with ⟨hm, hs, hk, hai, ht, hA, hC, hP, hpc⟩ | hs
    · rcases hpc with ⟨hpc, hsm⟩ | ⟨hpc | hpc, hx⟩ <;> simp only [exec, hpc] at hv
      · cases hv
        refine .inl ⟨hm, hs, hk, hai, ht, hA, hC, hP, .inr ⟨?_, by rw [hsm]⟩⟩
        split <;> simp
      · split at hv <;> cases hv
        · exact .inl ⟨hm, hs, hk, hai, ht, hA, hC, hP, .inr ⟨.inr rfl, hx⟩⟩
        · split
          · exact .inr rfl
          · exact .inl ⟨hm, hs, hk, hai, ht, by simpa using hA, by simpa using hC,
              by simpa using hP, .inr ⟨.inl rfl, hx⟩⟩
      · cases hv; exact .inr rfl
    · exact .inr (exec_started (u := v) hs hv)

theorem acct_start_state (h : Reaches ctx env (init ctx) s) (hpc : s.pc = .start) :
    Acct ctx ps s := by
  rcases pre_or_started h with ⟨hm, hs, hk, hai, ht, hA, hC, hP, hr⟩ | hst
  · have hx : s.index = swapIndex ctx.stamps := by
      rcases hr with ⟨h', -⟩ | ⟨-, hx⟩
      · rw [hpc] at h'; cases h'
      · exact hx
    refine ⟨by simp [hA, copies], by simp [hA, hC, hk], by simp [hP, hC, hk], ?_, ?_⟩
    · simp [Pc.pending, hpc, ht, hC]
    · simp only [AcctAt, hpc]
      exact ⟨⟨hm, hx, hs⟩, hA, hai⟩
  · simp [hpc, Pc.started] at hst

/-- Past the start of the transmit loop a drain has either returned from its swap or satisfies
`Acct`. -/
theorem acct_of_started (hb : 1 ≤ ctx.batchLen) (hc : ctx.batchLen ≤ ctx.capacity)
    (hps : Drains ctx ps) (h : Reaches ctx env (init ctx) s) (hs : s.pc.started = true) :
    (∃ r, s.pc = .ret r) ∨ Acct ctx ps s := by
  induction h with
  | refl => simp [init, Pc.started] at hs
  | @tail b _ hr hst ih =>
    obtain ⟨v, hv, rfl⟩ := Option.map_eq_some'.1 hst
    have repack : Acct ctx ps v → Acct ctx ps { v with tick := b.tick + 1 } :=
      fun h => ⟨h.1, h.2, h.3, h.4, h.5⟩
    cases hbs : b.pc.started
    · cases hpc : b.pc
      case start => exact .inr (repack (exec_acct hb hc hps (acct_start_state hr hpc) hv))
      case swap =>
        simp only [exec, hpc, Option.some.injEq] at hv
        subst hv
        cases hw : ctx.worker <;> simp [hw, Pc.started] at hs
      case spin =>
        simp only [exec, hpc] at hv
        split at hv <;> cases hv
        · simp [Pc.started] at hs
        · cases hg : env.giveup b.gi
          · simp [hg, Pc.started] at hs
          · exact .inl ⟨-EINTR, by simp [hg]⟩
      all_goals simp [Pc.started, hpc] at hbs
    · rcases ih hbs with ⟨r, hr'⟩ | hi
      · simp [exec, hr'] at hv
      · exact .inr (repack (exec_acct hb hc hps hi hv))

/-- A drain that completes its swap and returns `r`: the driver accepted, in submission order,
copies of the first `tot_sent` descriptors of the traversal, each from its own allocation; the
`sent` counters grew by `tot_sent` and the `disc` counters by the other descriptors; every
allocated buffer went back to the pool once, the accepted ones and then the batch's leftovers;
and `r` is `tot_sent` converted to `int`. -/
theorem drain_accounting {ps : List Nat} {s₀ : State} {r : Int}
    (hb : 1 ≤ ctx.batchLen) (hc : ctx.batchLen ≤ ctx.capacity) (hps : Drains ctx ps)
    (h₀ : Reaches ctx env (init ctx) s₀) (hs₀ : s₀.pc = .start) (h : Reaches ctx env s₀ s)
    (hr : s.pc = .ret r) :
    r = (BitVec.ofNat 32 s.totSent).toInt ∧
      (accepted s.events).map SkBuff.key = copies ctx (ps.take s.totSent) ∧
      s.totSent ≤ ps.length ∧
      s.stats = ctx.stats.add (ps.length - s.totSent) s.totSent ∧
      pooled s.events = accepted s.events ++ s.skbs ∧
      (pooled s.events).map SkBuff.key = (allocated s.events).map SkBuff.key := by
  have hi := acct_of_reaches hb hc hps (acct_start_state h₀ hs₀) h
  have hp := hi.point
  simp only [AcctAt, hr] at hp
  obtain ⟨hst, hret, hdisc, hA⟩ := hp
  have hsent := hi.sent
  have hpool := hi.pooled
  simp only [Pc.pending, Pc.released, hr, if_true, Nat.add_zero] at hsent hpool
  have hlen := congrArg List.length hi.split
  simp only [List.length_append, List.length_map] at hlen
  have hacc : (accepted s.events).map SkBuff.key =
      ((allocated s.events).map SkBuff.key).take s.totSent := by
    rw [← hi.split, hsent, List.take_left' (by simp)]
  refine ⟨hret, ?_, by omega, by rw [hst]; congr 1; omega, hpool, ?_⟩
  · rw [hacc, hi.copies, copies_take, List.take_take, min_eq_left (by omega)]
  · rw [hpool, List.map_append, hi.split]

theorem drain_accounting_two_descriptors :
    (2 : Int) = (BitVec.ofNat 32 twoDescRun.totSent).toInt ∧
      (accepted twoDescRun.events).map SkBuff.key =
        copies twoDescCtx ([0, 24].take twoDescRun.totSent) ∧
      twoDescRun.totSent ≤ [0, 24].length ∧
      twoDescRun.stats =
        twoDescCtx.stats.add ([0, 24].length - twoDescRun.totSent) twoDescRun.totSent ∧
      pooled twoDescRun.events = accepted twoDescRun.events ++ twoDescRun.skbs ∧
      (pooled twoDescRun.events).map SkBuff.key = (allocated twoDescRun.events).map SkBuff.key :=
  drain_accounting le_rfl le_rfl twoDesc_drains
    (reaches_run 1 _ : Reaches twoDescCtx steadyEnv _ (run twoDescCtx steadyEnv 1 _)) (by decide)
    (by rw [twoDescRun, show 19 = 1 + 18 from rfl, run_add]; exact reaches_run 18 _) (by decide)

end

/-! ### A drain of `2^31` descriptors

`__pfq_queue_xmit` counts the accepted buffers in the `size_t` `tot_sent` and returns it as an
`int`. A half holding `2^31` descriptors, all accepted, makes it return `-2^31`: the run below
follows the drain descriptor by descriptor, five steps each, with `StrideAt` naming what the
next steps read. -/

/-- A ring of descriptors of eight bytes stamped 0, one every 24 bytes from address 0. -/
def strideRing : Mem := fun a => if a % 24 = 8 then 8 else 0

/-- A flush of a half of `24 * 2^31` bytes of `strideRing`, with `twoDescCtx`'s device and batches
of one. -/
def strideCtx : Ctx := { twoDescCtx with mem := strideRing, size := 24 * 2 ^ 31 }

/-- What the next steps of `strideCtx`'s drain read: the program point, the ring and the counters
as the drain found them, the cursor, the batch's length, a zero timestamp, and the buffers sent. -/
structure StrideAt (pc : Pc) (ptr n sent : Nat) (s : State) : Prop where
  pc : s.pc = pc
  mem : s.mem = strideRing
  index : s.index = 1
  stats : s.stats = strideCtx.stats
  ptr : s.ptr = ptr
  len : s.skbs.length = n
  lastTs : s.lastTs = 0
  sent : s.totSent = sent

@[simp] theorem strideCtx_debug : strideCtx.debug = false := rfl
@[simp] theorem strideCtx_batchLen : strideCtx.batchLen = 1 := rfl
@[simp] theorem strideCtx_capacity : strideCtx.capacity = 1 := rfl
@[simp] theorem steadyEnv_giveup (i : Nat) : steadyEnv.giveup i = false := rfl
@[simp] theorem steadyEnv_alloc (i : Nat) : steadyEnv.alloc i = true := rfl

theorem strideCtx_half : drainBegin strideCtx 1 = 0 ∧ drainEnd strideCtx 1 = 24 * 2 ^ 31 := by
  decide

section
variable {j p n k : Nat} {s : State}

theorem strideRing_byte (hj : j ≤ 2 ^ 31) (hk : k < 16) :
    strideRing ((24 * j + k) % 2 ^ 64) = strideRing k := by
  unfold strideRing
  rw [Nat.mod_eq_of_lt (show 24 * j + k < 2 ^ 64 by omega),
    show (24 * j + k) % 24 = k % 24 by omega]

theorem strideRing_nsec (hj : j ≤ 2 ^ 31) : hdrNsec strideRing (24 * j) = 0 := by
  refine (readU64_congr (n := strideRing) (b := 0) fun k hk => ?_).trans (by decide)
  rw [strideRing_byte hj (by omega)]
  congr 1
  omega

theorem strideRing_len (hj : j < 2 ^ 31) : hdrLen strideRing (24 * j) = 8 := by
  refine (readU64_congr (n := strideRing) (b := 8) fun k hk => ?_).trans (by decide)
  rw [Nat.mod_eq_of_lt (show 24 * j + 8 < 2 ^ 64 by omega), Nat.add_assoc,
    strideRing_byte hj.le (by omega)]
  congr 1
  omega

theorem strideRing_advance (hj : j < 2 ^ 31) : advance strideRing (24 * j) = 24 * (j + 1) := by
  unfold advance
  rw [strideRing_len hj]
  show (24 * j + 24) % 2 ^ 64 = _
  omega

theorem stride_traverse (hj : j < 2 ^ 31) :
    traverseTxQueue strideCtx.debug strideRing (24 * j) (drainBegin strideCtx 1)
      (drainEnd strideCtx 1) = true := by
  rw [strideCtx_half.2]
  simp [traverseTxQueue, strideRing_len hj]
  omega

theorem stride_traverse_end :
    traverseTxQueue strideCtx.debug strideRing (24 * 2 ^ 31) (drainBegin strideCtx 1)
      (drainEnd strideCtx 1) = false := by
  rw [strideCtx_half.2]
  simp [traverseTxQueue]

/-- The traversal from descriptor `j` visits the descriptors `j` to `2^31 - 1`. -/
theorem stride_traverse_from : ∀ m j, j + m = 2 ^ 31 →
    Traverse strideCtx.debug strideRing (drainBegin strideCtx 1) (drainEnd strideCtx 1) (24 * j)
      ((List.range' j m).map fun i => 24 * i)
  | 0, j, h => .stop (by rw [show j = 2 ^ 31 by omega]; exact stride_traverse_end)
  | m + 1, j, h => by
    rw [List.range'_succ, List.map_cons]
    refine .visit (stride_traverse (by omega)) ?_
    rw [strideRing_advance (by omega)]
    exact stride_traverse_from m (j + 1) (by omega)

theorem stride_drains : Drains strideCtx ((List.range (2 ^ 31)).map fun i => 24 * i) := by
  rw [List.range_eq_range']
  exact stride_traverse_from (2 ^ 31) 0 rfl

/-- With every call of the driver accepted, a round on a batch of one sends it. -/
theorem batchRound_ok (u : Bool) (dev : NetDevice) (hw : BitVec 32) (b : SkBuff) :
    (batchRound u dev hw (steadyEnv.driver k) [b]).1 = 1 ∧
      (batchRound u dev hw (steadyEnv.driver k) [b]).2.1 = [] := ⟨rfl, rfl⟩

theorem stride_waitCheck (h : StrideAt .waitCheck p 0 k s) :
    ∃ t, step strideCtx steadyEnv s = some t ∧ StrideAt .alloc p 0 k t := by
  obtain ⟨hpc, hm, hx, hst, hp, hn, hl, ht⟩ := h
  simp only [step, exec, hpc, hl, Nat.not_lt_zero, if_false, Option.map_some',
    Option.some.injEq, exists_eq_left']
  constructor <;> simp [*]

theorem stride_alloc (hj : j < 2 ^ 31) (h : StrideAt .alloc (24 * j) 0 k s) :
    ∃ t, step strideCtx steadyEnv s = some t ∧ StrideAt .loop (24 * (j + 1)) 1 k t := by
  obtain ⟨hpc, hm, hx, hst, hp, hn, hl, ht⟩ := h
  simp only [step, exec, hpc, steadyEnv_alloc, hn, strideCtx_capacity, Nat.zero_lt_one, if_true,
    Option.map_some', Option.some.injEq, exists_eq_left']
  constructor <;> simp [*, strideRing_advance hj]

theorem stride_loop_empty (hj : j < 2 ^ 31) (h : StrideAt .loop (24 * j) 0 k s) :
    ∃ t, step strideCtx steadyEnv s = some t ∧ StrideAt .waitCheck (24 * j) 0 k t := by
  obtain ⟨hpc, hm, hx, hst, hp, hn, hl, ht⟩ := h
  have hreq : transmissionRequired strideCtx.batchLen s.skbs s.now 0 = false := by
    simp [transmissionRequired, hn]
  simp only [step, exec, hpc, hm, hp, hx, stride_traverse hj, strideRing_nsec hj.le, hreq,
    if_true, Bool.false_eq_true, if_false, Option.map_some', Option.some.injEq, exists_eq_left']
  constructor <;> simp [*]

theorem stride_loop_full (hj : j < 2 ^ 31) (h : StrideAt .loop (24 * j) 1 k s) :
    ∃ t, step strideCtx steadyEnv s = some t ∧ StrideAt (.batch .inLoop) (24 * j) 1 k t ∧
      t.total = 0 := by
  obtain ⟨hpc, hm, hx, hst, hp, hn, hl, ht⟩ := h
  have hreq : transmissionRequired strideCtx.batchLen s.skbs s.now 0 = true := by
    simp [transmissionRequired, hn]
  simp only [step, exec, hpc, hm, hp, hx, stride_traverse hj, strideRing_nsec hj.le, hreq,
    if_true, Option.map_some', Option.some.injEq, exists_eq_left']
  exact ⟨by constructor <;> simp [*], trivial⟩

theorem stride_loop_end (h : StrideAt .loop (24 * 2 ^ 31) 1 k s) :
    ∃ t, step strideCtx steadyEnv s = some t ∧ StrideAt .flush (24 * 2 ^ 31) 1 k t := by
  obtain ⟨hpc, hm, hx, hst, hp, hn, hl, ht⟩ := h
  simp only [step, exec, hpc, hm, hp, hx, stride_traverse_end, Bool.false_eq_true,
    if_false, Option.map_some', Option.some.injEq, exists_eq_left']
  constructor <;> simp [*]

theorem stride_flush (h : StrideAt .flush p 1 k s) :
    ∃ t, step strideCtx steadyEnv s = some t ∧ StrideAt (.batch .flush) p 1 k t ∧
      t.total = 0 := by
  obtain ⟨hpc, hm, hx, hst, hp, hn, hl, ht⟩ := h
  obtain ⟨b, hb⟩ := List.length_eq_one.1 hn
  simp only [step, exec, hpc, hb, List.isEmpty_cons, Bool.false_eq_true, if_false,
    Option.map_some', Option.some.injEq, exists_eq_left']
  exact ⟨by constructor <;> simp [*], trivial⟩

theorem stride_round {site : Site} (h : StrideAt (.batch site) p 1 k s) (hz : s.total = 0) :
    ∃ t, step strideCtx steadyEnv s = some t ∧ StrideAt (.batch site) p 0 k t ∧ t.total = 1 := by
  obtain ⟨hpc, hm, hx, hst, hp, hn, hl, ht⟩ := h
  obtain ⟨b, hb⟩ := List.length_eq_one.1 hn
  obtain ⟨r1, r2⟩ := batchRound_ok (k := s.bi) strideCtx.useXmitMore strideCtx.dev
    strideCtx.hwQueue b
  simp only [step, exec, hpc, hb, List.isEmpty_cons, steadyEnv_giveup, Bool.false_eq_true,
    if_false, Option.map_some', Option.some.injEq, exists_eq_left']
  refine ⟨?_, ?_⟩
  · constructor <;> simp [*]
  · simp [*]

theorem stride_return {site : Site} (h : StrideAt (.batch site) p 0 k s) (hz : s.total = 1) :
    ∃ t, step strideCtx steadyEnv s = some t ∧ StrideAt (batchNext site false) p 0 (k + 1) t := by
  obtain ⟨hpc, hm, hx, hst, hp, hn, hl, ht⟩ := h
  simp only [step, exec, hpc, List.length_eq_zero.1 hn, List.isEmpty_nil, if_true,
    batchReturn_eq, Option.map_some', Option.some.injEq, exists_eq_left']
  constructor <;> simp [*]

theorem stride_leftover (h : StrideAt .leftover p 0 k s) :
    ∃ t, step strideCtx steadyEnv s = some t ∧ StrideAt .discard p 0 k t ∧ t.disc = 0 := by
  obtain ⟨hpc, hm, hx, hst, hp, hn, hl, ht⟩ := h
  simp only [step, exec, hpc, Option.map_some', Option.some.injEq, exists_eq_left']
  exact ⟨by constructor <;> simp [*], hn⟩

theorem stride_discard_end (h : StrideAt .discard (24 * 2 ^ 31) 0 k s) (hd : s.disc = 0) :
    ∃ t, step strideCtx steadyEnv s = some t ∧ t.pc = .ret (BitVec.ofNat 32 k).toInt ∧
      t.totSent = k ∧ t.stats = strideCtx.stats.add 0 k := by
  obtain ⟨hpc, hm, hx, hst, hp, hn, hl, ht⟩ := h
  simp only [step, exec, hm, hp, hx, hpc, stride_traverse_end, Bool.false_eq_true,
    if_false, Option.map_some', Option.some.injEq, exists_eq_left']
  simp [*]

theorem stride_start :
    ∃ t, Reaches strideCtx steadyEnv (init strideCtx) t ∧ StrideAt .loop (24 * 0) 0 0 t :=
  ⟨_, reaches_run 2 _, by decide, rfl, by decide, by decide, by decide, by decide, by decide,
    by decide⟩

/-- Every descriptor before the last costs five steps: a wait check, an allocation, the loop's
test, one submission round and the return of `full_batch_xmit`. -/
theorem stride_wait : ∀ j < 2 ^ 31,
    ∃ t, Reaches strideCtx steadyEnv (init strideCtx) t ∧ StrideAt .waitCheck (24 * j) 0 j t
  | 0, h => by
    obtain ⟨t, ht, hl⟩ := stride_start
    obtain ⟨u, e, hu⟩ := stride_loop_empty h hl
    exact ⟨u, ht.tail e, hu⟩
  | j + 1, hj => by
    obtain ⟨t, ht, hw⟩ := stride_wait j (by omega)
    obtain ⟨t1, e1, h1⟩ := stride_waitCheck hw
    obtain ⟨t2, e2, h2⟩ := stride_alloc (by omega) h1
    obtain ⟨t3, e3, h3, z3⟩ := stride_loop_full hj h2
    obtain ⟨t4, e4, h4, z4⟩ := stride_round h3 z3
    obtain ⟨t5, e5, h5⟩ := stride_return h4 z4
    exact ⟨t5, ((((ht.tail e1).tail e2).tail e3).tail e4).tail e5, h5⟩

theorem stride_returns :
    ∃ t, Reaches strideCtx steadyEnv (init strideCtx) t ∧
      t.pc = .ret (BitVec.ofNat 32 (2 ^ 31)).toInt ∧ t.totSent = 2 ^ 31 ∧
      t.stats = strideCtx.stats.add 0 (2 ^ 31) := by
  obtain ⟨t, ht, hw⟩ := stride_wait (2 ^ 31 - 1) (by norm_num)
  obtain ⟨t1, e1, h1⟩ := stride_waitCheck hw
  obtain ⟨t2, e2, h2⟩ := stride_alloc (by norm_num) h1
  obtain ⟨t3, e3, h3⟩ := stride_loop_end h2
  obtain ⟨t4, e4, h4, z4⟩ := stride_flush h3
  obtain ⟨t5, e5, h5, z5⟩ := stride_round h4 z4
  obtain ⟨t6, e6, h6⟩ := stride_return h5 z5
  obtain ⟨t7, e7, h7, z7⟩ := stride_leftover h6
  obtain ⟨t8, e8, h8⟩ := stride_discard_end h7 z7
  exact ⟨t8, (((((((ht.tail e1).tail e2).tail e3).tail e4).tail e5).tail e6).tail e7).tail e8,
    h8⟩

end

/-- A drain of `2^31` descriptors with batches of one, all accepted: the `sent` counters grow by
`2^31` and the `disc` counters by nothing, while `__pfq_queue_xmit` returns `-2^31`. -/
theorem drain_returns_negative :
    1 ≤ strideCtx.batchLen ∧ strideCtx.batchLen ≤ strideCtx.capacity ∧
      Drains strideCtx ((List.range (2 ^ 31)).map fun i => 24 * i) ∧
      ∃ t, Reaches strideCtx steadyEnv (init strideCtx) t ∧ t.pc = .ret (-2 ^ 31) ∧
        t.totSent = 2 ^ 31 ∧ t.stats = strideCtx.stats.add 0 (2 ^ 31) := by
  obtain ⟨t, ht, hr, hs, hst⟩ := stride_returns
  exact ⟨le_rfl, le_rfl, stride_drains, t, ht, hr.trans (by decide), hs, hst⟩

end Pfq.Drain
