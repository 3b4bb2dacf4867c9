import Pfq.Skbuff

/-!
# The swap of the TX ring

Before a drain, `swap_tx_queue_and_wait` increments the ring's consumer stamp and, with a worker
thread, spins until user space has set the producer stamp to the new value; without one it sets
`prod = 1` itself. The drained half is the parity of the incremented index plus one. The stamps'
declaration is not in the sources; the spec's ring layout makes them 64-bit, while the index is
the function's `int`.

Three consequences are proved. The `int` index breaks the spin's comparison once `cons`
reaches `2^31`, so from then on a worker never completes a swap. An interrupted swap keeps its
increment, so the next swap drains the other half. And the swap alone does not keep concurrent
drains apart: the invocations of a ring are modelled as an interleaving system, every
invocation's half is fixed by the order of its increment, and two invocations that are not
adjacent in that order can drain one half at the same time.
-/
namespace Pfq.Swap
open Pfq.Skbuff

/-- Modelled from the spec: the producer and consumer stamps of `struct pfq_tx_queue`. -/
structure TxStamps where
  prod : BitVec 64
  cons : BitVec 64
  deriving DecidableEq, Repr

/-- The `int` that `__atomic_add_fetch(&txs->cons, 1, ...)` leaves in `*index`. -/
def swapIndex (t : TxStamps) : BitVec 32 := (t.cons + 1).setWidth 32

/-- The stamps after the start of `swap_tx_queue_and_wait`: `cons` is incremented, and a caller
that is not a worker thread (`cpu == Q_NO_KTHREAD`) also stores `prod = 1`. -/
def swapStart (worker : Bool) (t : TxStamps) : TxStamps :=
  if worker then { t with cons := t.cons + 1 } else ⟨1, t.cons + 1⟩

/-- The spin's test `*index != txs->prod`, negated: the `int` is converted to the stamp's width. -/
def prodReached (index : BitVec 32) (prod : BitVec 64) : Bool := index.signExtend 64 == prod

/-- One iteration of the spin: a load of `prod`; when it differs, a relax and an evaluation of
the give-up condition. `none` spins again. -/
def swapSpinStep (index : BitVec 32) (prod : BitVec 64) (giveup : Bool) : Option Int :=
  if prodReached index prod then some 0 else if giveup then some (-EINTR) else none

/-- The spin over the `k`-th and later loads of `prod` and evaluations of the give-up condition,
for at most `fuel` iterations. -/
def swapSpin (index : BitVec 32) (prod : Nat → BitVec 64) (giveup : Nat → Bool) :
    Nat → Nat → Option Int
  | 0, _ => none
  | fuel + 1, k =>
    match swapSpinStep index (prod k) (giveup k) with
    | some r => some r
    | none => swapSpin index prod giveup fuel (k + 1)

/-- The half drained after the swap: `swap++; begin = base_addr + (swap & 1) * size`. -/
def halfOf (index : BitVec 32) : Nat := ((index + 1) &&& 1).toNat

theorem halfOf_swapIndex (t : TxStamps) : halfOf (swapIndex t) = t.cons.toNat % 2 := by
  have h1 : (1 : BitVec 32).toNat = 1 := rfl
  have h2 : (1 : BitVec 64).toNat = 1 := rfl
  simp only [halfOf, swapIndex, BitVec.toNat_and, BitVec.toNat_add, BitVec.toNat_setWidth, h1, h2]
  rw [Nat.and_one_is_mod]
  omega

theorem halfOf_lt_two (index : BitVec 32) : halfOf index < 2 := by
  simp only [halfOf, BitVec.toNat_and]
  exact Nat.lt_succ_of_le (Nat.and_le_right.trans (by decide))

/-- While `cons + 1` is below `2^31` the `int` index holds the stamp, and the spin ends once
user space publishes it. -/
theorem prodReached_of_lt (t : TxStamps) (h : t.cons.toNat + 1 < 2 ^ 31) :
    prodReached (swapIndex t) (t.cons + 1) = true := by
  have h1 : (1 : BitVec 64).toNat = 1 := rfl
  have he : (swapIndex t).signExtend 64 = t.cons + 1 := by
    apply BitVec.eq_of_toNat_eq
    simp only [swapIndex, BitVec.signExtend, BitVec.toInt, BitVec.toNat_setWidth,
      BitVec.toNat_add, BitVec.toNat_ofInt, h1]
    split <;> omega
  simp [prodReached, he]

/-- A spin whose loads never equal the index returns nothing but `-EINTR`. -/
theorem swapSpin_ne_zero (index : BitVec 32) (prod : Nat → BitVec 64) (giveup : Nat → Bool)
    (h : ∀ k, prodReached index (prod k) = false) : ∀ fuel k, swapSpin index prod giveup fuel k ≠ some 0 := by
  intro fuel
  induction fuel with
  | zero => intro k; simp [swapSpin]
  | succ fuel ih =>
    intro k
    simp only [swapSpin, swapSpinStep, h k, Bool.false_eq_true, if_false]
    cases giveup k
    · simpa using ih (k + 1)
    · simp [EINTR]

/-- The spin after `2^31 - 1` earlier swaps, once user space has stored `2^31`, the value the
increment gave `cons`: the `int` index reads `-2^31`, and whatever the give-up observations and
however long the spin runs, the swap never completes. -/
theorem swap_spin_stuck_at_2_pow_31 (p : BitVec 64) (giveup : Nat → Bool) (fuel : Nat) :
    (0x7FFFFFFF : BitVec 64) + 1 = 0x80000000 ∧
      prodReached (swapIndex ⟨p, 0x7FFFFFFF⟩) 0x80000000 = false ∧
      swapSpin (swapIndex ⟨p, 0x7FFFFFFF⟩) (fun _ => 0x80000000) giveup fuel 0 ≠ some 0 := by
  have hr : prodReached (swapIndex ⟨p, 0x7FFFFFFF⟩) 0x80000000 = false :=
    (by decide : prodReached (swapIndex ⟨0, 0x7FFFFFFF⟩) 0x80000000 = false)
  exact ⟨by decide, hr, swapSpin_ne_zero _ _ giveup (fun _ => hr) fuel 0⟩

/-! ### Invocations of one ring, interleaved -/

/-- Where an invocation of `__pfq_queue_xmit` is with respect to the ring: spinning in the swap,
draining the half of its index, or returned. -/
inductive Phase where
  | spinning
  | draining
  | returned (r : Int)
  deriving DecidableEq, Repr

/-- An invocation: its carrier (a worker thread, or a flush call), the index its increment
gave, and its phase. -/
structure Invocation where
  worker : Bool
  index : BitVec 32
  phase : Phase
  deriving DecidableEq, Repr

/-- The stamps of a ring and the invocations on it, in the order of their increments. -/
structure RingSys where
  stamps : TxStamps
  calls : List Invocation
  deriving DecidableEq, Repr

/-- One step of the ring's parties: user space stores a producer stamp; an invocation starts its
swap; a spinning invocation makes an iteration (observing the give-up condition `g`) that ends
its spin; a draining invocation returns. -/
inductive RingStep : RingSys → RingSys → Prop
  | user (s : RingSys) (v : BitVec 64) : RingStep s { s with stamps := { s.stamps with prod := v } }
  | start (s : RingSys) (w : Bool) :
      RingStep s ⟨swapStart w s.stamps,
        s.calls ++ [⟨w, swapIndex s.stamps, if w then .spinning else .draining⟩]⟩
  | spin (s : RingSys) (i : Nat) (c : Invocation) (g : Bool) (r : Int)
      (hi : s.calls[i]? = some c) (hc : c.phase = .spinning)
      (hr : swapSpinStep c.index s.stamps.prod g = some r) :
      RingStep s ⟨s.stamps, s.calls.set i
        { c with phase := if r = 0 then Phase.draining else Phase.returned r }⟩
  | finish (s : RingSys) (i : Nat) (c : Invocation) (r : Int)
      (hi : s.calls[i]? = some c) (hc : c.phase = .draining) (hr : 0 ≤ r) :
      RingStep s ⟨s.stamps, s.calls.set i { c with phase := Phase.returned r }⟩

/-- The states reachable from the stamps `t₀` with no invocation yet. -/
def RingReachable (t₀ : TxStamps) (s : RingSys) : Prop :=
  Relation.ReflTransGen RingStep ⟨t₀, []⟩ s

/-- Every invocation keeps the index of its own increment: the `k`-th one took `cons₀ + k + 1`,
and `cons` has been incremented once per invocation. -/
def IndexInv (t₀ : TxStamps) (s : RingSys) : Prop :=
  s.stamps.cons = t₀.cons + BitVec.ofNat 64 s.calls.length ∧
    ∀ k c, s.calls[k]? = some c → c.index = swapIndex ⟨0, t₀.cons + BitVec.ofNat 64 k⟩

theorem getElem?_append_singleton {α : Type} {l : List α} {x c : α} {k : Nat}
    (h : (l ++ [x])[k]? = some c) : l[k]? = some c ∨ (k = l.length ∧ c = x) := by
  rcases Nat.lt_or_ge k l.length with hk | hk
  · rw [List.getElem?_append_left hk] at h
    exact .inl h
  · rw [List.getElem?_append_right hk] at h
    rcases Nat.eq_or_lt_of_le hk with rfl | hk'
    · simp at h; exact .inr ⟨rfl, h.symm⟩
    · obtain ⟨j, hj⟩ := Nat.exists_eq_succ_of_ne_zero (Nat.sub_ne_zero_of_lt hk')
      simp [hj] at h

/-- Overwriting an entry with one that agrees with it under `f` keeps every entry's `f`. -/
theorem getElem?_set_of_eq {α β : Type} {l : List α} {i k : Nat} {c d v : α} (f : α → β)
    (hi : l[i]? = some c) (hk : (l.set i v)[k]? = some d) (hv : f v = f c) :
    ∃ c', l[k]? = some c' ∧ f d = f c' := by
  rw [List.getElem?_set] at hk
  split at hk
  · subst k
    have : i < l.length := by
      rcases Nat.lt_or_ge i l.length with h | h
      · exact h
      · simp [List.getElem?_eq_none h] at hi
    simp only [this, if_true, Option.some.injEq] at hk
    exact ⟨c, hi, hk ▸ hv⟩
  · exact ⟨d, hk, rfl⟩

theorem ringStep_indexInv {t₀ : TxStamps} {s s' : RingSys} (h : RingStep s s')
    (hi : IndexInv t₀ s) : IndexInv t₀ s' := by
  obtain ⟨hc, hk⟩ := hi
  cases h with
  | user v => exact ⟨hc, hk⟩
  | start w =>
    refine ⟨?_, fun k c hkc => ?_⟩
    · cases w <;> simp [swapStart, hc, BitVec.ofNat_add, BitVec.add_assoc]
    · rcases getElem?_append_singleton hkc with hkc | ⟨rfl, rfl⟩
      · exact hk k c hkc
      · simp [swapIndex, hc]
  | spin i c g r hci _ _ =>
    refine ⟨by simpa using hc, fun k d hkd => ?_⟩
    obtain ⟨c', hc', he⟩ := getElem?_set_of_eq Invocation.index hci hkd rfl
    exact he.trans (hk k c' hc')
  | finish i c r hci _ _ =>
    refine ⟨by simpa using hc, fun k d hkd => ?_⟩
    obtain ⟨c', hc', he⟩ := getElem?_set_of_eq Invocation.index hci hkd rfl
    exact he.trans (hk k c' hc')

theorem indexInv_of_reachable {t₀ : TxStamps} {s : RingSys} (h : RingReachable t₀ s) :
    IndexInv t₀ s := by
  induction h with
  | refl => exact ⟨by simp, by simp⟩
  | tail _ hs ih => exact ringStep_indexInv hs ih

/-- The half of the `k`-th invocation is the parity of `cons₀ + k`. -/
theorem halfOf_call {t₀ : TxStamps} {s : RingSys} (h : RingReachable t₀ s) {k : Nat}
    {c : Invocation} (hk : s.calls[k]? = some c) : halfOf c.index = (t₀.cons.toNat + k) % 2 := by
  rw [(indexInv_of_reachable h).2 k c hk, halfOf_swapIndex]
  simp only [BitVec.toNat_add, BitVec.toNat_ofNat]
  omega

/-- An interrupted swap keeps its increment: of two invocations `j + 1` increments apart, the later
one drains the half `j + 1` parities past the half of the earlier, whatever either's outcome.
The call right after an interrupted one drains the other half. -/
theorem swap_half_after {t₀ : TxStamps} {s : RingSys} (h : RingReachable t₀ s) {k j : Nat}
    {a b : Invocation} (ha : s.calls[k]? = some a) (hb : s.calls[k + 1 + j]? = some b) :
    halfOf b.index = (halfOf a.index + 1 + j) % 2 := by
  rw [halfOf_call h ha, halfOf_call h hb]
  omega

/-- Two invocations of one half, in particular two draining it at the same time, are an even
number of increments apart, so another invocation started between them: invocations adjacent in
increment order never drain the same half. -/
theorem same_half_apart {t₀ : TxStamps} {s : RingSys} (h : RingReachable t₀ s)
    {i j : Nat} {a b : Invocation} (ha : s.calls[i]? = some a) (hb : s.calls[j]? = some b)
    (hij : i < j) (hh : halfOf a.index = halfOf b.index) : i + 2 ≤ j ∧ (j - i) % 2 = 0 := by
  rw [halfOf_call h ha, halfOf_call h hb] at hh
  omega

/-- A worker's swap interrupted on a ring with `cons = 0`, then the next worker's swap, which
user space lets complete. -/
def afterInterrupt : RingSys :=
  ⟨⟨2, 2⟩, [⟨true, 1, .returned (-EINTR)⟩, ⟨true, 2, .draining⟩]⟩

theorem afterInterrupt_reachable : RingReachable ⟨0, 0⟩ afterInterrupt :=
  .tail (.tail (.tail (.tail (.single (RingStep.start _ true))
    (RingStep.spin _ 0 ⟨true, 1, .spinning⟩ true (-EINTR) rfl rfl (by decide)))
    (RingStep.start _ true)) (RingStep.user _ 2))
    (RingStep.spin _ 1 ⟨true, 2, .spinning⟩ false 0 rfl rfl (by decide))

/-- The interrupted swap would have drained half 0; the next swap completes and drains half 1. -/
theorem interrupted_swap_skips_half :
    RingReachable ⟨0, 0⟩ afterInterrupt ∧ halfOf 1 = 0 ∧ halfOf 2 = 1 :=
  ⟨afterInterrupt_reachable, by decide, by decide⟩

theorem swap_half_after_interrupt :
    halfOf (⟨true, 2, .draining⟩ : Invocation).index =
      (halfOf (⟨true, 1, .returned (-EINTR)⟩ : Invocation).index + 1 + 0) % 2 :=
  swap_half_after afterInterrupt_reachable (k := 0) (j := 0) (by decide) (by decide)

/-- Three flush calls on a ring with `cons = 0`: none spins, and the first and the third drain
half 0 at the same time. -/
def threeFlushes : RingSys :=
  ⟨⟨1, 3⟩, [⟨false, 1, .draining⟩, ⟨false, 2, .draining⟩, ⟨false, 3, .draining⟩]⟩

theorem threeFlushes_reachable : RingReachable ⟨0, 0⟩ threeFlushes :=
  .tail (.tail (.single (RingStep.start _ false)) (RingStep.start _ false))
    (RingStep.start _ false)

theorem flushes_drain_same_half :
    RingReachable ⟨0, 0⟩ threeFlushes ∧ halfOf 1 = 0 ∧ halfOf 3 = 0 :=
  ⟨threeFlushes_reachable, by decide, by decide⟩

theorem same_half_apart_flushes : 0 + 2 ≤ 2 ∧ (2 - 0) % 2 = 0 :=
  same_half_apart threeFlushes_reachable (a := ⟨false, 1, .draining⟩)
    (b := ⟨false, 3, .draining⟩) (by decide) (by decide) (by decide) (by decide)

end Pfq.Swap
