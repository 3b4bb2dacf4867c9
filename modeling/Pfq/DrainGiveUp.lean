import Pfq.DrainTiming

/-!
# Giving up

From the first true evaluation of `giveup_tx_process` on, under a give-up condition that stays
true, the drain submits nothing more: `full_batch_xmit` returns at its first check (interrupted
when its batch is not empty) and `wait_until` returns at once. With `1 ≤ batch_len ≤` the batch
capacity and a finite traversal, the drain then returns within five steps per descriptor left:
the potential `quitPotential`, read off the accounting invariant, falls at every step.

The bound on `batch_len` is the caller's contract, as for the accounting: a `batch_len` above the
capacity of the short batch is a caller bug, at which the model stops (`Pc.overflow`).
-/
namespace Pfq.Drain
open Pfq.Skbuff Pfq.Netdev Pfq.TxRing Pfq.Swap

/-- The steps left to a drain that gave up: five per descriptor the transmit loop has not taken,
one per descriptor the loop that counts the rest has not counted, and the steps to the return. -/
def quitPotential (ps : List Nat) (s : State) : Nat :=
  let r := ps.length - (allocated s.events).length
  match s.pc with
  | .loop => 5 * r + 5
  | .batch .inLoop => 5 * r + 4
  | .waitCheck => 5 * r + 3
  | .wait => 5 * r + 2
  | .alloc => 5 * r + 1
  | .flush => r + 4
  | .batch .flush => r + 3
  | .leftover => r + 2
  | .discard => ps.length - ((allocated s.events).length + (s.disc - s.skbs.length)) + 1
  | _ => 0

section
variable {ctx : Ctx} {env : Env} {ps : List Nat} {s t u : State}

theorem exec_gi_le (h : exec ctx env s = some u) : s.gi ≤ u.gi := by
  cases hpc : s.pc <;> simp only [exec, hpc, batchReturn_eq] at h <;> (repeat' split at h) <;>
    cases h <;> simp

/-- A step keeps the log or adds events to it; only a submission round of `full_batch_xmit`,
made when give-up was false, adds a call that reaches the driver. -/
theorem exec_log (h : exec ctx env s = some u) :
    (∃ es : List Event, u.log = s.emit es ∧ ∀ e ∈ es, e.reachesDriver = false) ∨ u.log = s.log ∨
      ∃ site, s.pc = .batch site ∧ env.giveup s.gi = false := by
  cases hpc : s.pc <;> simp only [exec, hpc, batchReturn_eq] at h <;> (repeat' split at h) <;>
    cases h <;>
    first
    | exact .inr (.inr ⟨_, rfl, Bool.eq_false_iff.2 ‹_›⟩)
    | exact .inr (.inl rfl)
    | exact .inl ⟨_, rfl, by simp [Event.reachesDriver]⟩

/-- Before the transmit loop every evaluation of `giveup_tx_process` was false: a true one in the
spin returns at once. -/
theorem started_of_gaveUp (h : Reaches ctx env (init ctx) s) (hg : GaveUp env s) :
    s.pc.started = true := by
  suffices ∀ i < s.gi, s.pc.started = false → env.giveup i = false by
    obtain ⟨i, hi, hgi⟩ := hg
    by_contra hs
    simpa [hgi] using this i hi (by simpa using hs)
  clear hg
  induction h with
  | refl => intro i hi; cases hi
  | @tail b _ _ hst ih =>
    obtain ⟨v, hv, rfl⟩ := Option.map_eq_some'.1 hst
    intro i hi hs
    have hb : b.pc.started = false := by
      by_contra hb
      simp [exec_started (Bool.eq_true_of_not_eq_false hb) hv] at hs
    cases hpc : b.pc
    case swap =>
      simp only [exec, hpc, Option.some.injEq] at hv
      subst hv
      exact ih i hi hb
    case spin =>
      simp only [exec, hpc] at hv
      split at hv <;> cases hv
      · exact ih i hi hb
      · cases hg : env.giveup b.gi
        · rcases Nat.lt_succ_iff_lt_or_eq.1 hi with hi | rfl
          · exact ih i hi hb
          · exact hg
        · simp [hg, Pc.started] at hs
    case start =>
      simp only [exec, hpc, Option.some.injEq] at hv
      subst hv
      simp [Pc.started] at hs
    all_goals simp [Pc.started, hpc] at hb

theorem quit_wait (hst : env.Sticky) (hg : GaveUp env s) (hpc : s.pc = .wait)
    (h : exec ctx env s = some u) : u.pc = .alloc := by
  simp only [exec, hpc, hg.giveup hst, if_true, Option.some.injEq] at h
  rw [← h]

theorem quit_batch {site : Site} (hst : env.Sticky) (hg : GaveUp env s) (hpc : s.pc = .batch site)
    (h : exec ctx env s = some u) : u.pc = batchNext site !s.skbs.isEmpty ∧ u.skbs = s.skbs := by
  simp only [exec, hpc, hg.giveup hst, if_true] at h
  split at h <;> cases h <;> simp [batchReturn_eq, *]

/-- After giving up the drain stays given up, and its log only grows by events that do not reach
the driver. -/
theorem quit_log (hst : env.Sticky) (hg : GaveUp env s) (h : Reaches ctx env s t) :
    GaveUp env t ∧ ∃ l, t.log = s.log ++ l ∧ ∀ x ∈ l, x.2.reachesDriver = false := by
  induction h with
  | refl => exact ⟨hg, [], (List.append_nil _).symm, by simp⟩
  | @tail b _ _ hs ih =>
    obtain ⟨hgv, l, hl, hnl⟩ := ih
    obtain ⟨v, hv, rfl⟩ := Option.map_eq_some'.1 hs
    have hgi := exec_gi_le hv
    refine ⟨hgv.mono hgi, ?_⟩
    rcases exec_log hv with ⟨es, hes, hnes⟩ | hkeep | ⟨-, -, hfalse⟩
    · refine ⟨l ++ es.map fun e => (b.tick, e), by rw [← List.append_assoc, ← hl]; exact hes,
        fun x hx => ?_⟩
      rcases List.mem_append.1 hx with hx | hx
      · exact hnl x hx
      · obtain ⟨e, he, rfl⟩ := List.mem_map.1 hx
        exact hnes e he
    · exact ⟨l, hkeep.trans hl, hnl⟩
    · rw [hgv.giveup hst] at hfalse
      cases hfalse

/-- Every step of a drain that gave up lowers `quitPotential`. -/
theorem quit_potential_lt (hst : env.Sticky) (hc : ctx.batchLen ≤ ctx.capacity)
    (hi : Acct ctx ps s) (hg : GaveUp env s) (hs : s.pc ≠ .start) (h : exec ctx env s = some u) :
    quitPotential ps u < quitPotential ps s := by
  have hp := hi.point
  cases hpc : s.pc with
  | swap | spin | overflow => simp [AcctAt, hpc] at hp
  | start => exact absurd hpc hs
  | ret r => simp [exec, hpc] at h
  | loop =>
    simp only [exec, hpc] at h
    split at h
    · split at h <;> cases h <;> simp only [quitPotential, hpc, events_mk, log_map_snd] <;> omega
    · cases h
      simp only [quitPotential, hpc, events_mk, log_map_snd]
      omega
  | batch site =>
    obtain ⟨hnext, hskbs⟩ := quit_batch hst hg hpc h
    have hev : allocated u.events = allocated s.events := by
      simp only [exec, hpc, hg.giveup hst, if_true] at h
      split at h <;> cases h <;> simp [batchReturn_eq]
    cases site <;> simp only [AcctAt, hpc] at hp <;>
      simp only [quitPotential, hpc, hnext, hev] <;> cases s.skbs.isEmpty <;>
      simp only [batchNext, Bool.not_true, Bool.not_false, if_true, Bool.false_eq_true,
        if_false] <;> omega
  | waitCheck =>
    simp only [exec, hpc, Option.some.injEq] at h
    subst h
    by_cases hlt : s.now < s.lastTs <;>
      simp only [quitPotential, hpc, hlt, if_true, if_false, events_mk, log_map_snd] <;> omega
  | wait =>
    simp only [exec, hpc, Option.some.injEq] at h
    subst h
    simp only [quitPotential, hpc, hg.giveup hst, if_true, events_mk, events_emit, allocated_append,
      allocated_cons, Event.allocated, Option.toList, allocated_nil, List.append_nil]
    omega
  | alloc =>
    simp only [AcctAt, hpc] at hp
    obtain ⟨-, hk, hlen⟩ := hp
    simp only [exec, hpc] at h
    split at h
    · split at h
      · cases h
        simp only [quitPotential, hpc, events_mk, events_emit, allocated_append, allocated_cons,
          Event.allocated, Option.toList, allocated_nil, List.append_nil, List.length_append,
          List.length_singleton]
        omega
      · omega
    · cases h
      simp only [quitPotential, hpc, events_mk, log_map_snd]
      omega
  | flush =>
    simp only [exec, hpc] at h
    split at h <;> cases h <;> simp only [quitPotential, hpc, events_mk, log_map_snd] <;> omega
  | leftover =>
    simp only [exec, hpc, Option.some.injEq] at h
    subst h
    simp only [quitPotential, hpc, events_mk, events_emit, allocated_append,
      allocated_map_poolFree, List.append_nil, Nat.sub_self, Nat.add_zero]
    omega
  | discard =>
    simp only [AcctAt, hpc] at hp
    obtain ⟨⟨hm, hx, -⟩, hle, hat⟩ := hp
    simp only [exec, hpc] at h
    split at h
    · next ht =>
      cases h
      have := hat.lt_length (by rw [← hm, ← hx]; exact ht)
      simp only [quitPotential, hpc, events_mk, log_map_snd]
      omega
    · cases h
      simp only [quitPotential, hpc]
      omega

/-- A drain that gave up returns within `quitPotential` steps. -/
theorem quit_returns (hst : env.Sticky) (hb : 1 ≤ ctx.batchLen) (hc : ctx.batchLen ≤ ctx.capacity)
    (hps : Drains ctx ps) (hi : Acct ctx ps s) (hg : GaveUp env s) (hs : s.pc.started = true) :
    ∃ t r, Reaches ctx env s t ∧ t.pc = .ret r ∧ t.tick ≤ s.tick + quitPotential ps s := by
  obtain ⟨n, hn⟩ : ∃ n, quitPotential ps s = n := ⟨_, rfl⟩
  induction n using Nat.strong_induction_on generalizing s with
  | _ n ih =>
    cases hv : exec ctx env s with
    | none =>
      have hp := hi.point
      cases hpc : s.pc
      case ret r => exact ⟨s, r, .refl, hpc, Nat.le_add_right _ _⟩
      case swap | spin | overflow => simp [AcctAt, hpc] at hp
      all_goals simp only [exec, hpc] at hv; (repeat' split at hv) <;> cases hv
    | some v =>
      have hv' : step ctx env s = some { v with tick := s.tick + 1 } := by simp [step, hv]
      have hlt := quit_potential_lt hst hc hi hg (fun h' => by simp [h', Pc.started] at hs) hv
      have hgi := exec_gi_le hv
      have hsv := exec_started hs hv
      have hq : quitPotential ps { v with tick := s.tick + 1 } = quitPotential ps v := rfl
      obtain ⟨t, r, ht, hr, htick⟩ := ih _ (hn ▸ hlt) (s := { v with tick := s.tick + 1 })
        (by have := exec_acct hb hc hps hi hv; exact ⟨this.1, this.2, this.3, this.4, this.5⟩)
        (hg.mono hgi) hsv rfl
      exact ⟨t, r, .head hv' ht, hr, by simp only at htick; omega⟩


/-- At a program point past the start, `quitPotential` is at most five steps for each descriptor
left at the cursor, and five more. -/
theorem quitPotential_le {rest : List Nat} (hi : Acct ctx ps s)
    (hrest : Traverse ctx.debug ctx.mem (drainBegin ctx (swapIndex ctx.stamps))
      (drainEnd ctx (swapIndex ctx.stamps)) s.ptr rest) :
    quitPotential ps s ≤ 5 * rest.length + 5 := by
  have hp := hi.point
  have hlen : ∀ {j}, At ctx ps s j → rest.length = ps.length - j := fun h => by
    rw [hrest.unique h.1, List.length_drop]
  cases hpc : s.pc with
  | loop | waitCheck | wait | alloc =>
    simp only [AcctAt, hpc] at hp
    have := hlen hp.1.2.1
    simp only [quitPotential, hpc]
    omega
  | batch site =>
    cases site <;> simp only [AcctAt, hpc] at hp
    · have := hlen hp.1.2.1
      simp only [quitPotential, hpc]
      omega
    · have := hlen hp.2
      simp only [quitPotential, hpc]
      omega
  | flush | leftover =>
    simp only [AcctAt, hpc] at hp
    have := hlen hp.2
    simp only [quitPotential, hpc]
    omega
  | discard =>
    simp only [AcctAt, hpc] at hp
    have := hlen hp.2.2
    simp only [quitPotential, hpc]
    omega
  | _ => simp [quitPotential, hpc]

/-- Giving up, under a give-up condition that stays true once true and `1 ≤ batch_len ≤` the
batch capacity. From a state that a drain reaches after a true evaluation of
`giveup_tx_process`, nothing more reaches the driver, every later `wait_until` and
`full_batch_xmit` returns at its first check, and for a finite traversal `ps` of the half the
drain returns within five steps for each descriptor left at the cursor, and five more. -/
theorem giveup_ends_drain (hb : 1 ≤ ctx.batchLen) (hc : ctx.batchLen ≤ ctx.capacity)
    (hst : env.Sticky) (h₀ : Reaches ctx env (init ctx) s) (hg : GaveUp env s) :
    (∀ t, Reaches ctx env s t → ∃ l, t.log = s.log ++ l ∧ ∀ x ∈ l, x.2.reachesDriver = false) ∧
    (∀ t u, Reaches ctx env s t → step ctx env t = some u →
      (t.pc = .wait → u.pc = .alloc) ∧
      ∀ site, t.pc = .batch site → u.pc = batchNext site !t.skbs.isEmpty) ∧
    (∀ ps, Drains ctx ps →
      ∀ rest, Traverse ctx.debug ctx.mem (drainBegin ctx (swapIndex ctx.stamps))
        (drainEnd ctx (swapIndex ctx.stamps)) s.ptr rest →
      ∃ t r, Reaches ctx env s t ∧ t.pc = .ret r ∧ t.tick ≤ s.tick + 5 * rest.length + 5) := by
  refine ⟨fun t ht => (quit_log hst hg ht).2, fun t u ht hu => ?_, fun ps hps rest hrest => ?_⟩
  · have hgt := (quit_log hst hg ht).1
    obtain ⟨v, hv, rfl⟩ := Option.map_eq_some'.1 hu
    exact ⟨fun hpc => quit_wait (u := v) hst hgt hpc hv,
      fun site hpc => (quit_batch (u := v) hst hgt hpc hv).1⟩
  · have hs := started_of_gaveUp h₀ hg
    rcases acct_of_started hb hc hps h₀ hs with ⟨r, hr⟩ | hi
    · exact ⟨s, r, .refl, hr, by omega⟩
    · obtain ⟨t, r, ht, hr, htick⟩ := quit_returns hst hb hc hps hi hg hs
      have := quitPotential_le hi hrest
      exact ⟨t, r, ht, hr, by omega⟩

/-- Every evaluation of `giveup_tx_process` is true and the clock stays at 0. -/
def quitEnv : Env := { steadyEnv with giveup := fun _ => true, clock := fun _ => 0 }

/-- The drain of `twoDescCtx` under `quitEnv` after five steps: it has just given up in
`wait_until`. -/
def twoDescQuit : State := run twoDescCtx quitEnv 5 (init twoDescCtx)

theorem giveup_ends_two_descriptors :
    1 ≤ twoDescCtx.batchLen ∧ twoDescCtx.batchLen ≤ twoDescCtx.capacity ∧
    (∀ t, Reaches twoDescCtx quitEnv twoDescQuit t →
      ∃ l, t.log = twoDescQuit.log ++ l ∧ ∀ x ∈ l, x.2.reachesDriver = false) ∧
    (∀ t u, Reaches twoDescCtx quitEnv twoDescQuit t → step twoDescCtx quitEnv t = some u →
      (t.pc = .wait → u.pc = .alloc) ∧
      ∀ site, t.pc = .batch site → u.pc = batchNext site !t.skbs.isEmpty) ∧
    (∀ ps, Drains twoDescCtx ps →
      ∀ rest, Traverse twoDescCtx.debug twoDescCtx.mem
        (drainBegin twoDescCtx (swapIndex twoDescCtx.stamps))
        (drainEnd twoDescCtx (swapIndex twoDescCtx.stamps)) twoDescQuit.ptr rest →
      ∃ t r, Reaches twoDescCtx quitEnv twoDescQuit t ∧ t.pc = .ret r ∧
        t.tick ≤ twoDescQuit.tick + 5 * rest.length + 5) :=
  ⟨by decide, by decide,
    giveup_ends_drain (by decide) (by decide) (fun _ _ _ h => h) (reaches_run 5 _) ⟨0, by decide, rfl⟩⟩

example : (run twoDescCtx quitEnv 8 twoDescQuit).pc = .ret 0 := by decide

end

end Pfq.Drain
