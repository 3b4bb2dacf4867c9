import Pfq.DrainAccounting

/-!
# Pacing

The drain's timing, for environments whose clock never goes back and whose give-up condition,
once true, stays true. A buffer is filled only once the clock has reached its descriptor's
timestamp, or once the drain has given up; the batch is flushed before every wait, so a buffer
waits in the batch only for buffers of the same or earlier times; and after giving up no batch is
submitted again. Every buffer the driver accepts was therefore submitted at a time no earlier than
its timestamp. The invariant `Paced` says this of the batch and of the log, with each buffer's
timestamp read through the allocation event that filled it.
-/
namespace Pfq.Drain
open Pfq.Skbuff Pfq.Netdev Pfq.TxRing Pfq.Swap

/-- A true evaluation of `giveup_tx_process` has been made. -/
def GaveUp (env : Env) (s : State) : Prop := ∃ i < s.gi, env.giveup i = true

/-- Give-up, once observed true, stays true. -/
def Env.Sticky (env : Env) : Prop := ∀ i j, i ≤ j → env.giveup i = true → env.giveup j = true

/-- Every allocation event for buffer `id` in `log` filled it from a header stamped at most `t`. -/
def StampedBy (ctx : Ctx) (log : List (Nat × Event)) (id t : Nat) : Prop :=
  ∀ kt b p, (kt, Event.alloc b p) ∈ log → b.id = id → hdrNsec ctx.mem p ≤ t

section
variable {ctx : Ctx} {env : Env} {s u : State}

theorem GaveUp.giveup (hst : env.Sticky) (h : GaveUp env s) : env.giveup s.gi = true := by
  obtain ⟨i, hi, hg⟩ := h
  exact hst i s.gi hi.le hg

theorem StampedBy.mono {log : List (Nat × Event)} {id t t' : Nat} (h : StampedBy ctx log id t)
    (ht : t ≤ t') : StampedBy ctx log id t' :=
  fun kt b p hm hb => (h kt b p hm hb).trans ht

/-- Events that are not allocations of `id` leave the stamp of `id` as it was. -/
theorem StampedBy.append {log : List (Nat × Event)} {id t : Nat} (es : List (Nat × Event))
    (h : StampedBy ctx log id t) (hes : ∀ kt b p, (kt, Event.alloc b p) ∈ es → b.id ≠ id) :
    StampedBy ctx (log ++ es) id t := by
  intro kt b p hm hb
  rcases List.mem_append.1 hm with hm | hm
  · exact h kt b p hm hb
  · exact absurd hb (hes kt b p hm)

/-- Buffer `b` is, up to its queue mapping, a buffer that an allocation event of `log` filled. -/
def Filled (log : List (Nat × Event)) (b : SkBuff) : Prop :=
  ∃ kt b₀ p, (kt, Event.alloc b₀ p) ∈ log ∧ b₀.key = b.key

theorem Filled.append {log : List (Nat × Event)} {b : SkBuff} (es : List (Nat × Event))
    (h : Filled log b) : Filled (log ++ es) b := by
  obtain ⟨kt, b₀, p, hm, hk⟩ := h
  exact ⟨kt, b₀, p, List.mem_append_left _ hm, hk⟩

theorem GaveUp.mono (h : GaveUp env s) (hgi : s.gi ≤ u.gi) : GaveUp env u := by
  obtain ⟨i, hi, hg⟩ := h
  exact ⟨i, by omega, hg⟩

/-- What each program point says of the timestamp, the clock and the batch. -/
def PacedAt (ctx : Ctx) (env : Env) (s : State) : Prop :=
  match s.pc with
  | .batch .inLoop => s.lastTs = hdrNsec ctx.mem s.ptr
  | .waitCheck => s.lastTs = hdrNsec ctx.mem s.ptr ∧ (s.skbs = [] ∨ s.lastTs ≤ s.now)
  | .wait => s.lastTs = hdrNsec ctx.mem s.ptr ∧ s.skbs = []
  | .alloc => s.lastTs = hdrNsec ctx.mem s.ptr ∧ (s.lastTs ≤ s.now ∨ GaveUp env s)
  | _ => True

/-- The pacing invariant: the last clock reading is not ahead of the clock, the ring is as the
drain found it until the return, every buffer in play is a filled allocation of the drain, a
buffer in the batch is due unless the drain has given up (`batch`), and a buffer the driver
accepted was due when it was submitted (`sent`). -/
structure Paced (ctx : Ctx) (env : Env) (s : State) : Prop where
  now_le : s.now ≤ env.clock s.tick
  mem : s.mem = ctx.mem ∨ ∃ r, s.pc = .ret r
  fresh : ∀ kt b p, (kt, Event.alloc b p) ∈ s.log → b.id < s.ai
  fresh_batch : ∀ b ∈ s.skbs, b.id < s.ai
  fresh_sent : ∀ k e b, (k, e) ∈ s.log → e.accepted = some b → b.id < s.ai
  filled_batch : ∀ b ∈ s.skbs, Filled s.log b
  filled_sent : ∀ k e b, (k, e) ∈ s.log → e.accepted = some b → Filled s.log b
  batch : ∀ b ∈ s.skbs, StampedBy ctx s.log b.id (env.clock s.tick) ∨ GaveUp env s
  sent : ∀ k e b, (k, e) ∈ s.log → e.accepted = some b → StampedBy ctx s.log b.id (env.clock k)
  point : PacedAt ctx env s

theorem paced_init : Paced ctx env (init ctx) :=
  ⟨Nat.zero_le _, .inl rfl, by simp [init], by simp [init], by simp [init], by simp [init],
    by simp [init], by simp [init], by simp [init], trivial⟩

theorem Paced.mem_eq (hi : Paced ctx env s) (hpc : ∀ r, s.pc ≠ .ret r) : s.mem = ctx.mem :=
  hi.mem.resolve_right fun ⟨r, h⟩ => hpc r h

theorem emit_mem {s : State} {es : List Event} {k : Nat} {e : Event} (h : (k, e) ∈ s.emit es) :
    (k, e) ∈ s.log ∨ (k = s.tick ∧ e ∈ es) := by
  rcases List.mem_append.1 h with h | h
  · exact .inl h
  · obtain ⟨e', he', hk⟩ := List.mem_map.1 h
    cases hk
    exact .inr ⟨rfl, he'⟩

/-- Log entries that neither allocate a buffer nor record an acceptance. -/
def Quiet (l : List (Nat × Event)) : Prop := ∀ x ∈ l, x.2.allocated = none ∧ x.2.accepted = none

theorem quiet_nil : Quiet [] := fun _ h => absurd h (List.not_mem_nil _)

theorem quiet_giveup (k : Nat) (g : Bool) : Quiet [(k, .giveup g)] := by
  intro x hx
  rw [List.mem_singleton.1 hx]
  exact ⟨rfl, rfl⟩

theorem quiet_poolFree (k : Nat) (l : List SkBuff) :
    Quiet ((l.map .poolFree).map fun e => (k, e)) := by
  intro x hx
  obtain ⟨e, he, rfl⟩ := List.mem_map.1 hx
  obtain ⟨b, -, rfl⟩ := List.mem_map.1 he
  exact ⟨rfl, rfl⟩

/-- A step that only adds events other than allocations and acceptances, keeps the allocation
count or raises it, takes no buffer into the batch and reads the clock at most now, keeps `Paced`
once its program point does. -/
theorem Paced.keep (hmono : Monotone env.clock) (hi : Paced ctx env s) {v : State}
    {l : List (Nat × Event)} (hlog : v.log = s.log ++ l)
    (hes : Quiet l) (hskbs : ∀ b ∈ v.skbs, b ∈ s.skbs)
    (hai : s.ai ≤ v.ai) (hnow : v.now ≤ env.clock (s.tick + 1)) (hgi : s.gi ≤ v.gi)
    (hmem : v.mem = ctx.mem ∨ ∃ r, v.pc = .ret r)
    (hp : PacedAt ctx env { v with tick := s.tick + 1 }) :
    Paced ctx env { v with tick := s.tick + 1 } := by
  have hold : ∀ kt b p, (kt, Event.alloc b p) ∈ v.log → (kt, Event.alloc b p) ∈ s.log := by
    intro kt b p hm
    rw [hlog] at hm
    rcases List.mem_append.1 hm with hm | hm
    · exact hm
    · exact absurd (hes _ hm).1 (Option.some_ne_none b)
  have hacc : ∀ k e b, (k, e) ∈ v.log → e.accepted = some b → (k, e) ∈ s.log := by
    intro k e b hm he
    rw [hlog] at hm
    rcases List.mem_append.1 hm with hm | hm
    · exact hm
    · exact absurd ((hes _ hm).2) (by rw [he]; exact Option.some_ne_none b)
  have hstamp : ∀ id t, StampedBy ctx s.log id t → StampedBy ctx v.log id t :=
    fun id t h kt b p hm hb => h kt b p (hold kt b p hm) hb
  refine ⟨hnow, hmem, ?_, ?_, ?_, ?_, ?_, ?_, ?_, hp⟩ <;> dsimp only
  · exact fun kt b p hm => (hi.fresh kt b p (hold kt b p hm)).trans_le hai
  · exact fun b hb => (hi.fresh_batch b (hskbs b hb)).trans_le hai
  · exact fun k e b hm he => (hi.fresh_sent k e b (hacc k e b hm he) he).trans_le hai
  · exact fun b hb => hlog ▸ (hi.filled_batch b (hskbs b hb)).append l
  · exact fun k e b hm he => hlog ▸ (hi.filled_sent k e b (hacc k e b hm he) he).append l
  · intro b hb
    rcases hi.batch b (hskbs b hb) with h | h
    · exact .inl (hstamp _ _ (h.mono (hmono (Nat.le_succ _))))
    · exact .inr (h.mono hgi)
  · intro k e b hm he
    exact hstamp _ _ (hi.sent k e b (hacc k e b hm he) he)

/-- A step that adds no event and leaves the batch, the counters, the clock reading and the
memory as they were keeps `Paced` once its program point does. -/
theorem Paced.quiet (hmono : Monotone env.clock) (hi : Paced ctx env s) {v : State}
    (hlog : v.log = s.log) (hskbs : v.skbs = s.skbs) (hai : v.ai = s.ai) (hgi : v.gi = s.gi)
    (hnow : v.now = s.now) (hmem : v.mem = s.mem) (hpc : ∀ r, s.pc ≠ .ret r)
    (hp : PacedAt ctx env { v with tick := s.tick + 1 }) :
    Paced ctx env { v with tick := s.tick + 1 } :=
  hi.keep hmono (l := []) (by rw [hlog, List.append_nil]) quiet_nil (fun _ hb => hskbs ▸ hb)
    hai.ge (hnow ▸ hi.now_le.trans (hmono (Nat.le_succ _))) hgi.ge
    (.inl (hmem.trans (hi.mem_eq hpc))) hp

/-- Filling buffer `b₀`, numbered `s.ai`, from the descriptor at the cursor keeps `Paced`: the
new buffer is stamped with a timestamp the clock has reached, unless the drain has given up. -/
theorem Paced.alloc (hmono : Monotone env.clock) (hi : Paced ctx env s) (hpc : s.pc = .alloc)
    {v : State} {b₀ : SkBuff} (hb₀ : b₀.id = s.ai) (hlog : v.log = s.emit [.alloc b₀ s.ptr])
    (hskbs : ∀ b ∈ v.skbs, b ∈ s.skbs ∨ b = b₀) (hai : v.ai = s.ai + 1) (hnow : v.now = s.now)
    (hgi : v.gi = s.gi) (hmem : v.mem = s.mem) (hp : PacedAt ctx env { v with tick := s.tick + 1 }) :
    Paced ctx env { v with tick := s.tick + 1 } := by
  obtain ⟨hts, hdue⟩ : s.lastTs = hdrNsec ctx.mem s.ptr ∧ (s.lastTs ≤ s.now ∨ GaveUp env s) := by
    simpa only [PacedAt, hpc] using hi.point
  have hclock : s.now ≤ env.clock (s.tick + 1) := hi.now_le.trans (hmono (Nat.le_add_right _ _))
  have hnew : ∀ {kt b p}, (kt, Event.alloc b p) ∈ v.log →
      (kt, Event.alloc b p) ∈ s.log ∨ b = b₀ ∧ p = s.ptr := by
    intro kt b p hm
    rw [hlog] at hm
    rcases emit_mem hm with hm | ⟨-, hm⟩
    · exact .inl hm
    · simp only [List.mem_singleton, Event.alloc.injEq] at hm
      exact .inr hm
  have hacc : ∀ {k e b}, (k, e) ∈ v.log → e.accepted = some b → (k, e) ∈ s.log := by
    intro k e b hm he
    rw [hlog] at hm
    rcases emit_mem hm with hm | ⟨-, hm⟩
    · exact hm
    · rw [List.mem_singleton.1 hm] at he
      cases he
  have hold : ∀ {id t}, id < s.ai → StampedBy ctx s.log id t → StampedBy ctx v.log id t := by
    intro id t hlt h kt b p hm hb
    rcases hnew hm with hm | ⟨rfl, -⟩
    · exact h kt b p hm hb
    · omega
  have hfilled : ∀ {b}, Filled s.log b → Filled v.log b := fun h => hlog ▸ h.append _
  refine ⟨hnow ▸ hclock, .inl (hmem.trans (hi.mem_eq (by simp [hpc]))), ?_, ?_, ?_, ?_, ?_, ?_,
    ?_, hp⟩ <;> dsimp only
  · intro kt b p hm
    rcases hnew hm with hm | ⟨rfl, -⟩
    · have := hi.fresh kt b p hm
      omega
    · omega
  · intro b hb
    rcases hskbs b hb with hb | rfl
    · have := hi.fresh_batch b hb
      omega
    · omega
  · intro k e b hm he
    have := hi.fresh_sent k e b (hacc hm he) he
    omega
  · intro b hb
    rcases hskbs b hb with hb | rfl
    · exact hfilled (hi.filled_batch b hb)
    · exact ⟨s.tick, b, s.ptr, by rw [hlog]; simp [State.emit], rfl⟩
  · exact fun k e b hm he => hfilled (hi.filled_sent k e b (hacc hm he) he)
  · intro b hb
    rcases hskbs b hb with hb | rfl
    · rcases hi.batch b hb with h | h
      · exact .inl (hold (hi.fresh_batch b hb) (h.mono (hmono (Nat.le_succ _))))
      · exact .inr (h.mono hgi.ge)
    · rcases hdue with hle | h
      · refine .inl fun kt b' p hm hb' => ?_
        rcases hnew hm with hm | ⟨-, rfl⟩
        · have := hi.fresh kt b' p hm
          omega
        · omega
      · exact .inr (h.mono hgi.ge)
  · exact fun k e b hm he =>
      hold (hi.fresh_sent k e b (hacc hm he) he) (hi.sent k e b (hacc hm he) he)

/-- One submission round of `full_batch_xmit` before giving up: every buffer it submits was due,
since the drain had not given up when the batch took it. -/
theorem paced_round {site : Site} (hmono : Monotone env.clock) (hst : env.Sticky)
    (hi : Paced ctx env s) (hpc : s.pc = .batch site) (hne : s.skbs.isEmpty = false)
    (hg : env.giveup s.gi = false) (h : exec ctx env s = some v) :
    Paced ctx env { v with tick := s.tick + 1 } := by
  simp only [exec, hpc, hne, hg, Bool.false_eq_true, if_false, Option.some.injEq] at h
  subst h
  obtain ⟨-, r2, r3, -, r5⟩ := batchRound_spec ctx.useXmitMore ctx.dev ctx.hwQueue
    (env.driver s.bi) s.skbs
  set r := batchRound ctx.useXmitMore ctx.dev ctx.hwQueue (env.driver s.bi) s.skbs
  have hnot : ¬ GaveUp env s := fun h => by rw [h.giveup hst] at hg; cases hg
  have hnoalloc : ∀ kt b p, (kt, Event.alloc b p) ∈ s.emit (.giveup false :: r.2.2) →
      (kt, Event.alloc b p) ∈ s.log := by
    intro kt b p hm
    rcases emit_mem hm with hm | ⟨-, hm⟩
    · exact hm
    · have : b ∈ allocated (.giveup false :: r.2.2) := List.mem_filterMap.2 ⟨_, hm, rfl⟩
      simp [r5] at this
  have hstamp : ∀ id t, StampedBy ctx s.log id t →
      StampedBy ctx (s.emit (.giveup false :: r.2.2)) id t :=
    fun id t h kt b p hm hb => h kt b p (hnoalloc kt b p hm) hb
  have hfilled : ∀ {b}, Filled s.log b → Filled (s.emit (.giveup false :: r.2.2)) b :=
    fun h => h.append _
  have hkept : ∀ b ∈ r.2.1, ∃ b' ∈ s.skbs, b'.key = b.key := fun b hb =>
    List.mem_map.1 (List.mem_of_mem_drop (r2 ▸ List.mem_map_of_mem _ hb))
  have hsent : ∀ k e b, (k, e) ∈ s.emit (.giveup false :: r.2.2) → e.accepted = some b →
      (k, e) ∈ s.log ∨ k = s.tick ∧ ∃ b' ∈ s.skbs, b'.key = b.key := by
    intro k e b hm he
    rcases emit_mem hm with hm | ⟨rfl, hes⟩
    · exact .inl hm
    · have : b ∈ accepted (.giveup false :: r.2.2) := List.mem_filterMap.2 ⟨e, hes, he⟩
      exact .inr ⟨rfl, List.mem_map.1 (List.mem_of_mem_take
        (r3 ▸ List.mem_map_of_mem _ (by simpa [Event.accepted] using this)))⟩
  have hdue : ∀ b' ∈ s.skbs, StampedBy ctx s.log b'.id (env.clock s.tick) := fun b' hb' =>
    (hi.batch b' hb').resolve_right hnot
  refine ⟨hi.now_le.trans (hmono (Nat.le_succ _)), by simpa [hpc] using hi.mem, ?_, ?_, ?_, ?_,
    ?_, ?_, ?_, ?_⟩ <;> dsimp only
  · exact fun kt b p hm => hi.fresh kt b p (hnoalloc kt b p hm)
  · intro b hb
    obtain ⟨b', hb', he⟩ := hkept b hb
    exact SkBuff.id_eq_of_key he ▸ hi.fresh_batch b' hb'
  · intro k e b hm he
    rcases hsent k e b hm he with hm | ⟨-, b', hb', he⟩
    · exact hi.fresh_sent k e b hm he
    · exact SkBuff.id_eq_of_key he ▸ hi.fresh_batch b' hb'
  · intro b hb
    obtain ⟨b', hb', he⟩ := hkept b hb
    obtain ⟨kt, b₀, p, hm, hk⟩ := hi.filled_batch b' hb'
    exact hfilled ⟨kt, b₀, p, hm, hk.trans he⟩
  · intro k e b hm he
    rcases hsent k e b hm he with hm | ⟨-, b', hb', he⟩
    · exact hfilled (hi.filled_sent k e b hm he)
    · obtain ⟨kt, b₀, p, hm, hk⟩ := hi.filled_batch b' hb'
      exact hfilled ⟨kt, b₀, p, hm, hk.trans he⟩
  · intro b hb
    obtain ⟨b', hb', he⟩ := hkept b hb
    exact .inl (hstamp _ _ (SkBuff.id_eq_of_key he ▸ (hdue b' hb').mono (hmono (Nat.le_succ _))))
  · intro k e b hm he
    rcases hsent k e b hm he with hm | ⟨rfl, b', hb', he⟩
    · exact hstamp _ _ (hi.sent k e b hm he)
    · exact hstamp _ _ (SkBuff.id_eq_of_key he ▸ hdue b' hb')
  · cases site
    · simpa only [PacedAt, hpc] using hi.point
    · trivial

theorem paced_batch {site : Site} (hmono : Monotone env.clock) (hst : env.Sticky)
    (hi : Paced ctx env s) (hpc : s.pc = .batch site) (h : exec ctx env s = some v) :
    Paced ctx env { v with tick := s.tick + 1 } := by
  have hnow := hi.now_le.trans (hmono (Nat.le_succ s.tick))
  have hmem := hi.mem_eq (by simp [hpc])
  cases hne : s.skbs.isEmpty
  · cases hg : env.giveup s.gi
    · exact paced_round hmono hst hi hpc hne hg h
    · simp only [exec, hpc, hne, hg, Bool.false_eq_true, if_false, if_true,
        Option.some.injEq] at h
      subst h
      rw [batchReturn_eq]
      refine hi.keep hmono (l := [(s.tick, .giveup true)]) rfl (quiet_giveup _ _) (fun _ hb => hb) le_rfl
        hnow (Nat.le_succ _) (.inl hmem) ?_
      cases site <;> trivial
  · simp only [exec, hpc, hne, if_true, Option.some.injEq] at h
    subst h
    rw [batchReturn_eq]
    refine hi.quiet hmono rfl rfl rfl rfl rfl rfl (by simp [hpc]) ?_
    cases site
    · exact ⟨by simpa only [PacedAt, hpc] using hi.point, .inl (List.isEmpty_iff.1 hne)⟩
    · trivial

theorem paced_loop (hmono : Monotone env.clock) (hi : Paced ctx env s) (hpc : s.pc = .loop)
    (h : exec ctx env s = some v) : Paced ctx env { v with tick := s.tick + 1 } := by
  have hmem := hi.mem_eq (by simp [hpc])
  simp only [exec, hpc] at h
  split at h
  · split at h <;> cases h <;> refine hi.quiet hmono rfl rfl rfl rfl rfl rfl (by simp [hpc]) ?_
    · simp only [PacedAt, hmem]
    · next hreq =>
      simp only [PacedAt, hmem, true_and]
      by_cases h0 : s.skbs = []
      · exact .inl h0
      · right
        by_contra hlt
        exact hreq (by simp [transmissionRequired, List.length_pos.2 h0, hmem, Nat.lt_of_not_le hlt])
  · cases h
    exact hi.quiet hmono rfl rfl rfl rfl rfl rfl (by simp [hpc]) trivial

theorem exec_paced (hmono : Monotone env.clock) (hst : env.Sticky) (hi : Paced ctx env s)
    (h : exec ctx env s = some v) : Paced ctx env { v with tick := s.tick + 1 } := by
  have hnow := hi.now_le.trans (hmono (Nat.le_succ s.tick))
  cases hpc : s.pc with
  | ret r => simp [exec, hpc] at h
  | overflow => simp [exec, hpc] at h
  | swap =>
    simp only [exec, hpc, Option.some.injEq] at h
    subst h
    exact hi.quiet hmono rfl rfl rfl rfl rfl rfl (by simp [hpc]) (by cases ctx.worker <;> trivial)
  | spin =>
    simp only [exec, hpc] at h
    split at h <;> cases h
    · exact hi.quiet hmono rfl rfl rfl rfl rfl rfl (by simp [hpc]) trivial
    · exact hi.keep hmono (l := [(s.tick, .giveup _)]) rfl (quiet_giveup _ _) (fun _ hb => hb) le_rfl hnow
        (Nat.le_succ _) (.inl (hi.mem_eq (by simp [hpc]))) (by cases env.giveup s.gi <;> trivial)
  | start =>
    simp only [exec, hpc, Option.some.injEq] at h
    subst h
    exact hi.keep hmono (l := []) (List.append_nil _).symm quiet_nil
      (fun _ hb => absurd hb (List.not_mem_nil _)) le_rfl (hmono (Nat.le_succ _)) le_rfl
      (.inl (hi.mem_eq (by simp [hpc]))) trivial
  | loop => exact paced_loop hmono hi hpc h
  | batch site => exact paced_batch hmono hst hi hpc h
  | waitCheck =>
    simp only [exec, hpc, Option.some.injEq] at h
    subst h
    refine hi.quiet hmono rfl rfl rfl rfl rfl rfl (by simp [hpc]) ?_
    obtain ⟨hts, hq⟩ : s.lastTs = hdrNsec ctx.mem s.ptr ∧ (s.skbs = [] ∨ s.lastTs ≤ s.now) := by
      simpa only [PacedAt, hpc] using hi.point
    by_cases hlt : s.now < s.lastTs
    · simp only [PacedAt, hlt, if_true]
      exact ⟨hts, hq.resolve_right (by omega)⟩
    · simp only [PacedAt, hlt, if_false]
      exact ⟨hts, .inl (by omega)⟩
  | wait =>
    simp only [exec, hpc, Option.some.injEq] at h
    subst h
    obtain ⟨hts, hq⟩ : s.lastTs = hdrNsec ctx.mem s.ptr ∧ s.skbs = [] := by
      simpa only [PacedAt, hpc] using hi.point
    refine hi.keep hmono (l := [(s.tick, .giveup _)]) rfl (quiet_giveup _ _) (fun _ hb => hb) le_rfl
      (hmono (Nat.le_succ _)) (Nat.le_succ _) (.inl (hi.mem_eq (by simp [hpc]))) ?_
    cases hg : env.giveup s.gi
    · by_cases hlt : env.clock s.tick < s.lastTs
      · simp only [PacedAt, hg, hlt, Bool.false_eq_true, if_true, if_false]
        exact ⟨hts, hq⟩
      · simp only [PacedAt, hg, hlt, Bool.false_eq_true, if_false]
        exact ⟨hts, .inl (by omega)⟩
    · simp only [PacedAt, hg, if_true]
      exact ⟨hts, .inr ⟨s.gi, Nat.lt_succ_self _, hg⟩⟩
  | alloc =>
    simp only [exec, hpc] at h
    split at h
    · split at h <;> cases h
      · exact hi.alloc hmono hpc rfl rfl (fun b hb => by simpa using hb) rfl rfl rfl rfl trivial
      · exact hi.alloc hmono hpc rfl rfl (fun b hb => .inl hb) rfl rfl rfl rfl trivial
    · cases h
      exact hi.keep hmono (l := []) (List.append_nil _).symm quiet_nil (fun _ hb => hb)
        (Nat.le_succ _) hnow le_rfl (.inl (hi.mem_eq (by simp [hpc]))) trivial
  | flush =>
    simp only [exec, hpc] at h
    split at h <;> cases h <;>
      exact hi.quiet hmono rfl rfl rfl rfl rfl rfl (by simp [hpc]) trivial
  | leftover =>
    simp only [exec, hpc, Option.some.injEq] at h
    subst h
    exact hi.keep hmono rfl (quiet_poolFree _ _) (fun _ hb => hb) le_rfl hnow le_rfl
      (.inl (hi.mem_eq (by simp [hpc]))) trivial
  | discard =>
    simp only [exec, hpc] at h
    split at h <;> cases h
    · exact hi.quiet hmono rfl rfl rfl rfl rfl rfl (by simp [hpc]) trivial
    · exact hi.keep hmono (l := []) (List.append_nil _).symm quiet_nil (fun _ hb => hb) le_rfl
        hnow le_rfl (.inr ⟨_, rfl⟩) trivial

theorem paced_of_reaches (hmono : Monotone env.clock) (hst : env.Sticky) {s₀ : State}
    (h₀ : Paced ctx env s₀) (h : Reaches ctx env s₀ s) : Paced ctx env s := by
  induction h with
  | refl => exact h₀
  | tail _ hs ih =>
    obtain ⟨v, hv, rfl⟩ := Option.map_eq_some'.1 hs
    exact exec_paced hmono hst ih hv


/-- Pacing: in every drain under a clock that never goes back and a give-up condition that stays
true once true, every buffer the driver accepts at step `k` was filled from a descriptor, and every
descriptor it was filled from has a timestamp the clock had reached at step `k`; and `wait_until`
is only entered with an empty batch. -/
theorem drain_paces_submissions (hmono : Monotone env.clock) (hst : env.Sticky)
    (h : Reaches ctx env (init ctx) s) :
    (∀ k e b, (k, e) ∈ s.log → e.accepted = some b →
      Filled s.log b ∧ StampedBy ctx s.log b.id (env.clock k)) ∧
    (s.pc = .wait → s.skbs = []) := by
  have hp := paced_of_reaches hmono hst paced_init h
  refine ⟨fun k e b hm he => ⟨hp.filled_sent k e b hm he, hp.sent k e b hm he⟩, fun hpc => ?_⟩
  have hw := hp.point
  simp only [PacedAt, hpc] at hw
  exact hw.2

theorem drain_paces_two_descriptors :
    (∀ k e b, (k, e) ∈ twoDescRun.log → e.accepted = some b →
      Filled twoDescRun.log b ∧ StampedBy twoDescCtx twoDescRun.log b.id (steadyEnv.clock k)) ∧
    (twoDescRun.pc = .wait → twoDescRun.skbs = []) :=
  drain_paces_submissions (fun _ _ h => h) (fun _ _ _ h => h) (reaches_run 19 _)

example : (accepted twoDescRun.events).length = 2 := by decide

end

end Pfq.Drain
