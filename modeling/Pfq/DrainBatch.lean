import Pfq.Drain

/-!
# The short batch of the drain and `full_batch_xmit`

With `1 ≤ batch_len ≤` the capacity of the short batch, the batch of `__pfq_queue_xmit` never
holds more than `batch_len` buffers: `transmission_required` hands a full batch to
`full_batch_xmit`, which returns with the batch empty or interrupted, and an interrupted call breaks
the transmit loop before the next push. Every call of `full_batch_xmit`, and every call of
`pfq_batch_xmit` it makes, gets a nonempty batch. This holds for every ring, allocator, driver and
give-up condition; it needs no finite traversal.

One call of `full_batch_xmit` hands the batch to the driver round after round. Whatever the driver
answers and wherever a give-up interrupts it, the buffers it accepted are a prefix of the batch, in
order, each passed once to `pfq_kfree_skb_pool` after its acceptance, and the batch keeps the rest;
every reference `skb_get` took is given back by `__pfq_xmit`, by the driver or by the cleanup of
`pfq_batch_xmit`, so only the buffers passed to the pool change their reference count.
-/
namespace Pfq.Drain
open Pfq.Skbuff Pfq.Netdev

/-! ### The batch stays within `batch_len` -/

/-- What each program point says of the batch: at most `batch_len` buffers, fewer where a push may
follow, and no push on a full batch. -/
def BatchAt (ctx : Ctx) (s : State) : Prop :=
  match s.pc with
  | .waitCheck | .wait | .alloc => s.skbs.length < ctx.batchLen
  | .overflow => False
  | _ => s.skbs.length ≤ ctx.batchLen

section
variable {ctx : Ctx} {env : Env} {s t : State}

/-- A round of `full_batch_xmit` leaves a suffix of the batch. -/
theorem batchRound_length_le (u : Bool) (dev : NetDevice) (hw : BitVec 32) (obs : Nat → XmitObs)
    (skbs : List SkBuff) : (batchRound u dev hw obs skbs).2.1.length ≤ skbs.length := by
  have h := congrArg List.length (batchRound_spec u dev hw obs skbs).2.1
  simp only [List.length_map, List.length_drop] at h
  omega

/-- `transmission_required` never holds of an empty batch when `batch_len ≥ 1`. -/
theorem transmissionRequired_ne_nil {L now ts : Nat} {q : List SkBuff} (hb : 1 ≤ L)
    (h : transmissionRequired L q now ts = true) : q ≠ [] := by
  rintro rfl
  simp [transmissionRequired] at h
  omega

/-- One step keeps `BatchAt`; a step that enters `full_batch_xmit` enters it with a nonempty batch,
and a step that calls `pfq_batch_xmit` calls it on a nonempty batch. -/
theorem exec_batchAt (hb : 1 ≤ ctx.batchLen) (hc : ctx.batchLen ≤ ctx.capacity)
    (hi : BatchAt ctx s) (h : exec ctx env s = some t) :
    BatchAt ctx t ∧ (∀ site, t.pc = .batch site → s.pc ≠ .batch site → t.skbs ≠ []) ∧
      (s.bi < t.bi → s.skbs ≠ []) := by
  cases hpc : s.pc <;> simp only [BatchAt, hpc] at hi <;> simp only [exec, hpc] at h
  case swap =>
    cases h
    refine ⟨?_, by split <;> simp, by simp⟩
    split <;> simpa [BatchAt]
  case spin =>
    split at h <;> cases h
    · exact ⟨by simpa [BatchAt], by simp, by simp⟩
    · exact ⟨by split <;> simpa [BatchAt], by split <;> simp, by simp⟩
  case start => cases h; exact ⟨by simp [BatchAt], by simp, by simp⟩
  case loop =>
    split at h
    · split at h <;> cases h
      · next hr => exact ⟨hi, fun _ _ _ => transmissionRequired_ne_nil hb hr, by simp⟩
      · next hr =>
        have : s.skbs.length ≠ ctx.batchLen := fun he => by simp [transmissionRequired, he] at hr
        exact ⟨show s.skbs.length < ctx.batchLen by omega, by simp, by simp⟩
    · cases h; exact ⟨hi, by simp, by simp⟩
  case batch site =>
    split at h
    · next he =>
      cases h
      rw [batchReturn_eq]
      have : s.skbs.length = 0 := by simpa using he
      refine ⟨?_, fun _ hp => by cases site <;> simp [batchNext] at hp, by simp⟩
      cases site
      · simp [BatchAt, batchNext, this]; omega
      · simp [BatchAt, batchNext, this]
    · next he =>
      split at h <;> cases h
      · rw [batchReturn_eq]
        refine ⟨?_, fun _ hp => by cases site <;> simp [batchNext] at hp, by simp⟩
        cases site <;> simpa only [BatchAt, batchNext]
      · refine ⟨?_, fun _ hp hne => absurd hp hne, fun _ => by simpa using he⟩
        have := batchRound_length_le ctx.useXmitMore ctx.dev ctx.hwQueue (env.driver s.bi) s.skbs
        simp only [BatchAt]
        omega
  case waitCheck =>
    cases h
    refine ⟨?_, by split <;> simp, by simp⟩
    split <;> simpa [BatchAt]
  case wait =>
    cases h
    refine ⟨?_, by repeat' split <;> simp, by simp⟩
    repeat' split
    all_goals simpa [BatchAt]
  case alloc =>
    split at h
    · split at h <;> cases h
      · exact ⟨by simp only [BatchAt, List.length_append, List.length_singleton]; omega, by simp,
          by simp⟩
      · omega
    · cases h; exact ⟨by simp only [BatchAt]; omega, by simp, by simp⟩
  case flush =>
    split at h <;> cases h
    · exact ⟨hi, by simp, by simp⟩
    · next he => exact ⟨hi, fun _ _ _ => by simpa using he, by simp⟩
  case leftover => cases h; exact ⟨hi, by simp, by simp⟩
  case discard =>
    split at h <;> cases h
    · exact ⟨hi, by simp, by simp⟩
    · exact ⟨hi, by simp, by simp⟩
  case ret => cases h

theorem batchAt_of_reaches (hb : 1 ≤ ctx.batchLen) (hc : ctx.batchLen ≤ ctx.capacity)
    (h : Reaches ctx env (init ctx) s) : BatchAt ctx s := by
  induction h with
  | refl => simp [BatchAt, init]
  | tail _ hst ih =>
    obtain ⟨v, hv, rfl⟩ := Option.map_eq_some'.1 hst
    exact (exec_batchAt hb hc ih hv).1

/-- For every ring, allocator, driver and give-up condition, and `1 ≤ batch_len ≤` the capacity:
the batch of a drain holds at most `batch_len` buffers, a push is made only on a batch below
`batch_len`, the batch never overflows, and every call of `full_batch_xmit`, and of
`pfq_batch_xmit`, is given a nonempty batch. -/
theorem drain_batch_within_batch_len (hb : 1 ≤ ctx.batchLen) (hc : ctx.batchLen ≤ ctx.capacity)
    (h : Reaches ctx env (init ctx) s) :
    s.skbs.length ≤ ctx.batchLen ∧ (s.pc = .alloc → s.skbs.length < ctx.batchLen) ∧
      s.pc ≠ .overflow ∧
      ∀ t, step ctx env s = some t →
        (∀ site, t.pc = .batch site → s.pc ≠ .batch site → t.skbs ≠ []) ∧
          (s.bi < t.bi → s.skbs ≠ []) := by
  have hi := batchAt_of_reaches hb hc h
  refine ⟨?_, fun hpc => by simpa [BatchAt, hpc] using hi,
    fun hpc => by simp [BatchAt, hpc] at hi, fun t ht => ?_⟩
  · unfold BatchAt at hi
    split at hi <;> first | omega | exact hi.elim
  · obtain ⟨v, hv, rfl⟩ := Option.map_eq_some'.1 ht
    exact (exec_batchAt hb hc hi hv).2

/-- The drain of `twoDescRun`, with batches of one. -/
theorem drain_batch_two_descriptors :
    twoDescRun.skbs.length ≤ twoDescCtx.batchLen ∧
      (twoDescRun.pc = .alloc → twoDescRun.skbs.length < twoDescCtx.batchLen) ∧
      twoDescRun.pc ≠ .overflow ∧
      ∀ t, step twoDescCtx steadyEnv twoDescRun = some t →
        (∀ site, t.pc = .batch site → twoDescRun.pc ≠ .batch site → t.skbs ≠ []) ∧
          (twoDescRun.bi < t.bi → twoDescRun.skbs ≠ []) :=
  drain_batch_within_batch_len (by decide) (by decide) (reaches_run 19 _)

end

/-! ### One call of `full_batch_xmit` -/

/-- The value `full_batch_xmit` returns, the `sent` of `batchReturn`: `total`, or `~total` when a
give-up interrupted it. -/
def fullBatchXmitRet (interrupted : Bool) (total : Nat) : Int :=
  if interrupted then ~~~(total : Int) else total

/-- The states of one call of `full_batch_xmit` from `s`: the steps that stay in its loop. -/
def InBatchLoop (ctx : Ctx) (env : Env) (site : Site) : State → State → Prop :=
  Relation.ReflTransGen fun s t => step ctx env s = some t ∧ t.pc = .batch site

/-- What the loop of `full_batch_xmit` keeps from its entry `s₀`, with `l` the events since: the
buffers accepted are the first `total` of the batch, in order; they went to the pool in that order,
each after its acceptance; the batch holds the others; and the reference counts moved only by the
buffers passed to the pool. -/
structure LoopInv (s₀ t : State) (l : List Event) : Prop where
  events_eq : t.events = s₀.events ++ l
  total_le : t.total ≤ s₀.skbs.length
  accepted_eq : (accepted l).map SkBuff.key = (s₀.skbs.map SkBuff.key).take t.total
  rest_eq : t.skbs.map SkBuff.key = (s₀.skbs.map SkBuff.key).drop t.total
  pooled_eq : pooled l = accepted l
  ordered : ∀ k, pooled (l.take k) <+: accepted (l.take k)
  refs : ∀ id, refDelta id l = -((pooled l).countP fun b => b.id = id : Int)

section
variable {ctx : Ctx} {env : Env} {site : Site} {s₀ t v : State} {l : List Event}

section
variable (u : Bool) (dev : NetDevice) (hw : BitVec 32) (obs : Nat → XmitObs) (skbs : List SkBuff)

theorem batchRound_pooled :
    pooled (batchRound u dev hw obs skbs).2.2 =
      ((pfqBatchXmit u skbs dev hw obs).skbs.take (pfqBatchXmit u skbs dev hw obs).sent) := by
  simp [batchRound, (pfqBatchXmit_spec u skbs dev hw obs).2.2.2.1, Event.pooled, -List.map_take]

/-- In a round every reference `skb_get` took is given back, except those of the buffers passed to
the pool. -/
theorem batchRound_refDelta (id : Nat) :
    refDelta id (batchRound u dev hw obs skbs).2.2 =
      -((pooled (batchRound u dev hw obs skbs).2.2).countP fun b => b.id = id : Int) := by
  rw [batchRound_pooled]
  simp [batchRound, pfqBatchXmit_refDelta, Event.refDelta, -List.map_take]

/-- Within a round a buffer goes to the pool only after the driver accepted it, in the order of
acceptance. -/
theorem batchRound_ordered (j : Nat) :
    pooled ((batchRound u dev hw obs skbs).2.2.take j) <+:
      accepted ((batchRound u dev hw obs skbs).2.2.take j) := by
  obtain ⟨-, -, h3, h4, -⟩ := pfqBatchXmit_spec u skbs dev hw obs
  set r := pfqBatchXmit u skbs dev hw obs
  set A := skbs.map Event.get ++ Event.batchXmit :: r.events
  have hA : pooled A = [] := by simp [A, h4, Event.pooled]
  have hnil : pooled (A.take j) = [] :=
    List.prefix_nil.1 (hA ▸ (List.take_prefix j A).filterMap Event.pooled)
  have hacc : accepted A = r.skbs.take r.sent := by simp [A, h3, Event.accepted]
  show pooled ((A ++ (r.skbs.take r.sent).map Event.poolFree).take j) <+:
    accepted ((A ++ (r.skbs.take r.sent).map Event.poolFree).take j)
  rw [List.take_append_eq_append_take, ← List.map_take]
  simp only [pooled_append, accepted_append, hnil, pooled_map_poolFree, accepted_map_poolFree,
    List.nil_append, List.append_nil]
  by_cases hj : j ≤ A.length
  · rw [Nat.sub_eq_zero_of_le hj]
    exact List.nil_prefix
  · rw [List.take_of_length_le (show A.length ≤ j by omega), hacc, List.take_take]
    exact List.prefix_take_iff.2
      ⟨List.take_prefix _ _, (List.length_take_le _ _).trans (min_le_right _ _)⟩

end

/-- The three outcomes of a step of the loop of `full_batch_xmit`: the return with the batch empty,
the return interrupted by a give-up, and a round. -/
theorem exec_batch_cases (hpc : t.pc = .batch site) (h : exec ctx env t = some v) :
    (t.skbs = [] ∧ v = batchReturn site false t) ∨
      (t.skbs ≠ [] ∧ env.giveup t.gi = true ∧
        v = batchReturn site true { t with gi := t.gi + 1, log := t.emit [.giveup true] }) ∨
      (t.skbs ≠ [] ∧ env.giveup t.gi = false ∧
        v = let r := batchRound ctx.useXmitMore ctx.dev ctx.hwQueue (env.driver t.bi) t.skbs
          { t with gi := t.gi + 1, bi := t.bi + 1, total := t.total + r.1, skbs := r.2.1,
                   log := t.emit (.giveup false :: r.2.2) }) := by
  simp only [exec, hpc] at h
  split at h
  · next he => exact .inl ⟨List.isEmpty_iff.1 he, (Option.some.inj h).symm⟩
  · next he =>
    have hne : t.skbs ≠ [] := fun h' => by simp [h'] at he
    cases hg : env.giveup t.gi <;> simp only [hg, if_true, Bool.false_eq_true, if_false] at h
    · exact .inr (.inr ⟨hne, rfl, by rw [← Option.some.inj h]; simp only [hpc]⟩)
    · exact .inr (.inl ⟨hne, rfl, (Option.some.inj h).symm⟩)

theorem loopInv_start (hs : s₀.total = 0) : LoopInv s₀ s₀ [] :=
  ⟨by simp, by omega, by simp [hs], by simp [hs], rfl, fun _ => by simp, fun _ => by simp⟩

/-- Appending events that keep the pool behind the acceptances to a log whose accepted buffers all
went to the pool keeps the pool behind the acceptances. -/
theorem ordered_append {l' : List Event} (h : ∀ k, pooled (l.take k) <+: accepted (l.take k))
    (hp : pooled l = accepted l) (h' : ∀ k, pooled (l'.take k) <+: accepted (l'.take k))
    (k : Nat) : pooled ((l ++ l').take k) <+: accepted ((l ++ l').take k) := by
  rw [List.take_append_eq_append_take]
  simp only [pooled_append, accepted_append]
  by_cases hk : k ≤ l.length
  · rw [Nat.sub_eq_zero_of_le hk, List.take_zero, pooled_nil, accepted_nil, List.append_nil,
      List.append_nil]
    exact h k
  · rw [List.take_of_length_le (show l.length ≤ k by omega), hp, List.prefix_append_right_inj]
    exact h' _

/-- A round keeps the invariant. -/
theorem loopInv_round (hi : LoopInv s₀ t l) (hpc : t.pc = .batch site)
    (h : step ctx env t = some v) (hv : v.pc = .batch site) : ∃ l', LoopInv s₀ v l' := by
  obtain ⟨w, hw, rfl⟩ := Option.map_eq_some'.1 h
  rcases exec_batch_cases hpc hw with ⟨-, rfl⟩ | ⟨-, -, rfl⟩ | ⟨-, -, rfl⟩
  · rw [batchReturn_eq] at hv; cases site <;> simp [batchNext] at hv
  · rw [batchReturn_eq] at hv; cases site <;> simp [batchNext] at hv
  obtain ⟨h1, h2, h3, h4, -⟩ := batchRound_spec ctx.useXmitMore ctx.dev ctx.hwQueue
    (env.driver t.bi) t.skbs
  have hlen : t.skbs.length = s₀.skbs.length - t.total := by
    simpa using congrArg List.length hi.rest_eq
  refine ⟨l ++ .giveup false ::
    (batchRound ctx.useXmitMore ctx.dev ctx.hwQueue (env.driver t.bi) t.skbs).2.2,
    ?_, ?_, ?_, ?_, ?_, ?_, ?_⟩
  · simp [hi.events_eq]
  · have := hi.total_le; dsimp only; omega
  · simp only [accepted_append, accepted_cons, Event.accepted, Option.toList, List.nil_append,
      List.map_append, hi.accepted_eq, h3, hi.rest_eq, List.take_add]
  · simp only [h2, hi.rest_eq, List.drop_drop]
  · simp [hi.pooled_eq, h4, Event.pooled, Event.accepted]
  · refine ordered_append hi.ordered hi.pooled_eq fun k => ?_
    cases k with
    | zero => simp
    | succ j =>
      simpa [Event.pooled, Event.accepted] using batchRound_ordered ctx.useXmitMore ctx.dev
        ctx.hwQueue (env.driver t.bi) t.skbs j
  · intro id
    simp [hi.refs, batchRound_refDelta, Event.refDelta, hi.pooled_eq, h4, List.countP_append]
    omega

/-- Every state of one call of `full_batch_xmit` is in its loop and keeps the invariant. -/
theorem loopInv_of_inBatchLoop (hpc : s₀.pc = .batch site) (hs : s₀.total = 0)
    (h : InBatchLoop ctx env site s₀ t) : t.pc = .batch site ∧ ∃ l, LoopInv s₀ t l := by
  induction h with
  | refl => exact ⟨hpc, [], loopInv_start hs⟩
  | tail _ hst ih =>
    obtain ⟨hp, l, hi⟩ := ih
    exact ⟨hst.2, loopInv_round hi hp hst.1 hst.2⟩

/-- In a batch of distinct buffers, a buffer left after the first `n` is none of the first `n`. -/
theorem countP_id_eq_zero {bs taken : List SkBuff} {b : SkBuff} {n : Nat}
    (hd : (bs.map SkBuff.id).Nodup) (ht : taken.map SkBuff.key = (bs.map SkBuff.key).take n)
    (hb : b.key ∈ (bs.map SkBuff.key).drop n) : taken.countP (fun x => x.id = b.id) = 0 := by
  have hid : ∀ l : List SkBuff, l.map SkBuff.id = (l.map SkBuff.key).map Prod.fst := fun l => by
    simp [Function.comp_def, SkBuff.key]
  have hdis := List.disjoint_of_nodup_append
    ((List.take_append_drop n (bs.map SkBuff.id)).symm ▸ hd)
  rw [List.countP_eq_zero]
  intro x hx hxb
  have h₁ : x.id ∈ (bs.map SkBuff.id).take n := by
    rw [hid, ← List.map_take, ← ht, ← hid]
    exact List.mem_map_of_mem _ hx
  have h₂ : b.id ∈ (bs.map SkBuff.id).drop n := by
    rw [hid, ← List.map_drop]
    exact List.mem_map_of_mem Prod.fst hb
  rw [decide_eq_true_eq] at hxb
  exact hdis h₁ (hxb ▸ h₂)

/-- One call of `full_batch_xmit`, from its entry `s` with `total = 0` to the step from `t` that
returns `r`, whatever the driver answers and wherever a give-up interrupts it: the accepted
buffers went to the pool, each once and after its acceptance, and every reference `skb_get` took
was given back except those passed to the pool. A return `r ≥ 0` is `r = K` with every buffer of
the batch accepted once, in order, and the batch empty; a return `r < 0` has `s = ~r ≤ K` with the
first `s` buffers accepted once, in order, and the batch holding the others, in order, each, in a
batch of distinct buffers, with the reference count it had on entry. -/
theorem full_batch_xmit_contract {s u : State} (hpc : s.pc = .batch site) (hs : s.total = 0)
    (ht : InBatchLoop ctx env site s t) (hu : step ctx env t = some u)
    (hx : u.pc ≠ .batch site) :
    ∃ l, u.events = s.events ++ l ∧ pooled l = accepted l ∧
      (∀ k, pooled (l.take k) <+: accepted (l.take k)) ∧
      (∀ id, refDelta id l = -((pooled l).countP fun b => b.id = id : Int)) ∧
      (0 ≤ fullBatchXmitRet (!t.skbs.isEmpty) t.total →
        fullBatchXmitRet (!t.skbs.isEmpty) t.total = s.skbs.length ∧ u.skbs = [] ∧
          (accepted l).map SkBuff.key = s.skbs.map SkBuff.key) ∧
      (fullBatchXmitRet (!t.skbs.isEmpty) t.total < 0 →
        ~~~(fullBatchXmitRet (!t.skbs.isEmpty) t.total) = t.total ∧ t.total ≤ s.skbs.length ∧
          (accepted l).map SkBuff.key = (s.skbs.map SkBuff.key).take t.total ∧
          u.skbs.map SkBuff.key = (s.skbs.map SkBuff.key).drop t.total ∧
          ((s.skbs.map SkBuff.id).Nodup → ∀ b ∈ u.skbs, refDelta b.id l = 0)) := by
  obtain ⟨htp, l, hi⟩ := loopInv_of_inBatchLoop hpc hs ht
  obtain ⟨w, hw, rfl⟩ := Option.map_eq_some'.1 hu
  rcases exec_batch_cases htp hw with ⟨he, rfl⟩ | ⟨hne, -, rfl⟩ | ⟨-, -, rfl⟩
  · -- the batch is empty: `total` is returned
    have hK : t.total = s.skbs.length := by
      have := congrArg List.length hi.rest_eq
      simp only [he, List.map_nil, List.length_nil, List.length_drop, List.length_map] at this
      have := hi.total_le
      omega
    refine ⟨l, by simp [batchReturn_eq, hi.events_eq], hi.pooled_eq, hi.ordered, hi.refs,
      fun _ => ⟨by simp [fullBatchXmitRet, he, hK], by simp [batchReturn_eq, he], ?_⟩,
      fun h => by simp [fullBatchXmitRet, he] at h; omega⟩
    rw [hi.accepted_eq, hK, ← List.length_map s.skbs SkBuff.key, List.take_length]
  · -- a give-up: `~total` is returned and the batch keeps the rest
    have hr : fullBatchXmitRet (!t.skbs.isEmpty) t.total = ~~~(t.total : Int) := by
      simp [fullBatchXmitRet, hne]
    refine ⟨l ++ [.giveup true], by simp [batchReturn_eq, hi.events_eq], ?_, ?_, ?_,
      fun h => absurd h (by rw [hr]; exact Int.not_le.2 (Int.negSucc_lt_zero _)), fun _ => ?_⟩
    · simp [hi.pooled_eq, Event.pooled, Event.accepted]
    · exact ordered_append hi.ordered hi.pooled_eq fun k => by
        cases k <;> simp [Event.pooled, Event.accepted]
    · simp [hi.refs, Event.refDelta, Event.pooled]
    · refine ⟨by rw [hr]; rfl, hi.total_le, by simpa [Event.accepted] using
        hi.accepted_eq, by simpa [batchReturn_eq] using hi.rest_eq, fun hd b hb => ?_⟩
      have hb' : b.key ∈ (s.skbs.map SkBuff.key).drop t.total :=
        hi.rest_eq ▸ List.mem_map_of_mem SkBuff.key (by simpa [batchReturn_eq] using hb)
      have := countP_id_eq_zero hd hi.accepted_eq hb'
      simp [hi.refs, Event.refDelta, hi.pooled_eq, this]
  · -- a round stays in the loop
    exact absurd (by simpa using htp) hx

/-- The entry of the first call of `full_batch_xmit` in `twoDescRun`, with one buffer. -/
def twoDescEntry : State := run twoDescCtx steadyEnv 8 (init twoDescCtx)

/-- That call submits its buffer in one round and returns `1`. -/
theorem full_batch_xmit_two_descriptors :
    ∃ l, (run twoDescCtx steadyEnv 1 (run twoDescCtx steadyEnv 1 twoDescEntry)).events =
        twoDescEntry.events ++ l ∧ pooled l = accepted l ∧
      (∀ k, pooled (l.take k) <+: accepted (l.take k)) ∧
      (∀ id, refDelta id l = -((pooled l).countP fun b => b.id = id : Int)) ∧
      (0 ≤ fullBatchXmitRet (!(run twoDescCtx steadyEnv 1 twoDescEntry).skbs.isEmpty)
          (run twoDescCtx steadyEnv 1 twoDescEntry).total →
        fullBatchXmitRet (!(run twoDescCtx steadyEnv 1 twoDescEntry).skbs.isEmpty)
            (run twoDescCtx steadyEnv 1 twoDescEntry).total = twoDescEntry.skbs.length ∧
          (run twoDescCtx steadyEnv 1 (run twoDescCtx steadyEnv 1 twoDescEntry)).skbs = [] ∧
          (accepted l).map SkBuff.key = twoDescEntry.skbs.map SkBuff.key) ∧
      (fullBatchXmitRet (!(run twoDescCtx steadyEnv 1 twoDescEntry).skbs.isEmpty)
          (run twoDescCtx steadyEnv 1 twoDescEntry).total < 0 →
        ~~~(fullBatchXmitRet (!(run twoDescCtx steadyEnv 1 twoDescEntry).skbs.isEmpty)
            (run twoDescCtx steadyEnv 1 twoDescEntry).total) =
            (run twoDescCtx steadyEnv 1 twoDescEntry).total ∧
          (run twoDescCtx steadyEnv 1 twoDescEntry).total ≤ twoDescEntry.skbs.length ∧
          (accepted l).map SkBuff.key = (twoDescEntry.skbs.map SkBuff.key).take
            (run twoDescCtx steadyEnv 1 twoDescEntry).total ∧
          (run twoDescCtx steadyEnv 1 (run twoDescCtx steadyEnv 1 twoDescEntry)).skbs.map
              SkBuff.key =
            (twoDescEntry.skbs.map SkBuff.key).drop
              (run twoDescCtx steadyEnv 1 twoDescEntry).total ∧
          ((twoDescEntry.skbs.map SkBuff.id).Nodup →
            ∀ b ∈ (run twoDescCtx steadyEnv 1 (run twoDescCtx steadyEnv 1 twoDescEntry)).skbs,
              refDelta b.id l = 0)) :=
  full_batch_xmit_contract (show twoDescEntry.pc = .batch .inLoop by decide) (by decide)
    (.single ⟨step_run_one (by decide), by decide⟩) (step_run_one (by decide)) (by decide)

end

end Pfq.Drain
