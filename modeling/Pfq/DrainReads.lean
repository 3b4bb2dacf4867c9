import Pfq.Drain

/-!
# What a drain reads of the ring

The drain reads the ring at its cursor: `traverse_tx_queue` reads `hdr->len` past its bound checks,
the transmit loop reads `hdr->nsec`, the fill reads `hdr->len` and copies `max(len, 64)` bytes from
`hdr + 1`, with `len = min(hdr->len, max_len)`, and the advance reads `hdr->len`. When every header
the traversal reads and every such copy lie inside the drained half `[begin, end)`, the drain reads
nothing else: the drain of a ring that differs from it only outside the half passes through the
same states, step for step, apart from those bytes.

A declared payload inside the half is not enough. A descriptor shorter than 64 bytes makes the copy
read 64 bytes from `hdr + 1`, past its payload; at the end of the half it reads past `end`, and a
byte there becomes part of the buffer.
-/
namespace Pfq.Drain
open Pfq.Skbuff Pfq.TxRing Pfq.Swap

/-- The byte at `a` lies in the drained half `[begin, end)`. -/
def InHalf (ctx : Ctx) (a : Nat) : Prop :=
  drainBegin ctx (swapIndex ctx.stamps) ≤ a ∧ a < drainEnd ctx (swapIndex ctx.stamps)

/-- The positions the cursor takes in the drained half: its start, and the next header after every
header on which `traverse_tx_queue` passes. -/
def Cursor (ctx : Ctx) : Nat → Prop :=
  Reached ctx.debug ctx.mem (drainBegin ctx (swapIndex ctx.stamps))
    (drainEnd ctx (swapIndex ctx.stamps)) (drainBegin ctx (swapIndex ctx.stamps))

theorem Cursor.start {ctx : Ctx} : Cursor ctx (drainBegin ctx (swapIndex ctx.stamps)) :=
  Reached.start

theorem Cursor.next {ctx : Ctx} {p : Nat} (h : Cursor ctx p)
    (ht : traverseTxQueue ctx.debug ctx.mem p (drainBegin ctx (swapIndex ctx.stamps))
      (drainEnd ctx (swapIndex ctx.stamps)) = true) : Cursor ctx (advance ctx.mem p) :=
  Reached.next h ht

/-- Every header the traversal reads lies in the half: the test reads the header at `p` once its
bound checks pass (`begin ≤` only in the debug build). -/
def HeadersInside (ctx : Ctx) : Prop :=
  ∀ p, Cursor ctx p → (ctx.debug = true → drainBegin ctx (swapIndex ctx.stamps) ≤ p) →
    p < drainEnd ctx (swapIndex ctx.stamps) →
      ∀ k < sizeofPkthdrTx, InHalf ctx ((p + k) % 2 ^ 64)

/-- Every visited descriptor's payload, `min(len, max_len)` bytes after its header, lies in the
half. -/
def PayloadsInside (ctx : Ctx) : Prop :=
  ∀ p, Cursor ctx p →
    traverseTxQueue ctx.debug ctx.mem p (drainBegin ctx (swapIndex ctx.stamps))
      (drainEnd ctx (swapIndex ctx.stamps)) = true →
    ∀ k < min (hdrLen ctx.mem p) ctx.maxLen, InHalf ctx ((p + sizeofPkthdrTx + k) % 2 ^ 64)

/-- Every visited descriptor's copy, the `max(len, 64)` bytes with `len = min(len, max_len)` that
`skb_copy_to_linear_data` reads from `hdr + 1`, lies in the half. -/
def CopiesInside (ctx : Ctx) : Prop :=
  ∀ p, Cursor ctx p →
    traverseTxQueue ctx.debug ctx.mem p (drainBegin ctx (swapIndex ctx.stamps))
      (drainEnd ctx (swapIndex ctx.stamps)) = true →
    ∀ k < max (min (hdrLen ctx.mem p) ctx.maxLen) 64,
      InHalf ctx ((p + sizeofPkthdrTx + k) % 2 ^ 64)

/-- Two rings that agree on the drained half. -/
def AgreeOnHalf (ctx : Ctx) (m n : Mem) : Prop := ∀ a, InHalf ctx a → m a = n a

/-- What each program point says of the cursor: the ring is the one the drain was given and its
half is the drained one; in the loops the cursor is a cursor position, and on a descriptor the test
passed there. -/
def CursorAt (ctx : Ctx) (s : State) : Prop :=
  match s.pc with
  | .swap => s.mem = ctx.mem ∧ s.stamps = ctx.stamps
  | .spin | .start => s.mem = ctx.mem ∧ s.index = swapIndex ctx.stamps
  | .batch .inLoop | .waitCheck | .wait | .alloc =>
    s.mem = ctx.mem ∧ s.index = swapIndex ctx.stamps ∧ Cursor ctx s.ptr ∧
      traverseTxQueue ctx.debug ctx.mem s.ptr (drainBegin ctx (swapIndex ctx.stamps))
        (drainEnd ctx (swapIndex ctx.stamps)) = true
  | .ret _ | .overflow => True
  | _ => s.mem = ctx.mem ∧ s.index = swapIndex ctx.stamps ∧ Cursor ctx s.ptr

section
variable {ctx : Ctx} {env : Env} {s t : State}

theorem exec_cursorAt (hi : CursorAt ctx s) (h : exec ctx env s = some t) : CursorAt ctx t := by
  cases hpc : s.pc <;> simp only [CursorAt, hpc] at hi <;> simp only [exec, hpc] at h
  case swap =>
    obtain ⟨hm, hs⟩ := hi
    cases h
    split <;> simp [CursorAt, *]
  case spin =>
    obtain ⟨hm, hx⟩ := hi
    split at h <;> cases h
    · simp [CursorAt, *]
    · split <;> simp [CursorAt, *]
  case start =>
    obtain ⟨hm, hx⟩ := hi
    cases h
    simpa [CursorAt, hm, hx] using Cursor.start
  case loop =>
    obtain ⟨hm, hx, hc⟩ := hi
    rw [hm, hx] at h
    split at h
    · split at h <;> cases h <;> simp [CursorAt, *]
    · cases h; simp [CursorAt, *]
  case batch site =>
    cases site <;> simp only at hi
    all_goals
      split at h
      · cases h; rw [batchReturn_eq]; simp [CursorAt, batchNext, *]
      · split at h <;> cases h
        · rw [batchReturn_eq]; simp [CursorAt, batchNext, *]
        · simp [CursorAt, *]
  case waitCheck | wait =>
    cases h
    split <;> (try split) <;> simp [CursorAt, *]
  case alloc =>
    obtain ⟨hm, hx, hc, ht⟩ := hi
    split at h
    · split at h <;> cases h
      · simpa [CursorAt, hm, hx] using hc.next ht
      · simp [CursorAt]
    · cases h; simp [CursorAt, *]
  case flush | leftover =>
    (repeat' split at h) <;> cases h <;> simp [CursorAt, *]
  case discard =>
    obtain ⟨hm, hx, hc⟩ := hi
    split at h <;> cases h
    · next ht =>
      rw [hm, hx] at ht
      simpa [CursorAt, hm, hx] using hc.next ht
    · simp [CursorAt]
  case ret => cases h
  case overflow => cases h

theorem cursorAt_of_reaches (h : Reaches ctx env (init ctx) s) : CursorAt ctx s := by
  induction h with
  | refl => exact ⟨rfl, rfl⟩
  | tail _ hst ih =>
    obtain ⟨v, hv, rfl⟩ := Option.map_eq_some'.1 hst
    have := exec_cursorAt ih hv
    exact this

/-! ### Where a step reads the ring -/

variable {m : Mem}

/-- Away from the transmit loop's test, the allocation and the loop that counts the rest, a step
does not read the ring. -/
theorem exec_mem_free (hpc : s.pc ≠ .loop) (hpa : s.pc ≠ .alloc) (hpd : s.pc ≠ .discard) :
    exec ctx env { s with mem := m } = (exec ctx env s).map fun t => { t with mem := m } := by
  cases s with
  | mk pc =>
    cases pc <;> simp only [ne_eq, not_true_eq_false] at hpc hpa hpd
    all_goals simp only [exec, batchReturn_eq]
    all_goals (repeat' split) <;> rfl

/-- The test of the transmit loop reads `hdr->len`, and `hdr->nsec` on a descriptor. -/
theorem exec_loop_mem (hpc : s.pc = .loop)
    (htr : traverseTxQueue ctx.debug m s.ptr (drainBegin ctx s.index) (drainEnd ctx s.index) =
      traverseTxQueue ctx.debug s.mem s.ptr (drainBegin ctx s.index) (drainEnd ctx s.index))
    (hns : traverseTxQueue ctx.debug s.mem s.ptr (drainBegin ctx s.index) (drainEnd ctx s.index) =
      true → hdrNsec m s.ptr = hdrNsec s.mem s.ptr) :
    exec ctx env { s with mem := m } = (exec ctx env s).map fun t => { t with mem := m } := by
  cases s with
  | mk pc =>
    subst hpc
    simp only [exec] at htr hns ⊢
    rw [htr]
    split
    · next ht => rw [hns ht]; split <;> rfl
    · rfl

/-- The allocation reads the descriptor it fills from and the length it advances by. -/
theorem exec_alloc_mem (hpc : s.pc = .alloc)
    (hf : ∀ id, fillSkb ctx.maxLen ctx.hwQueue m s.ptr id =
      fillSkb ctx.maxLen ctx.hwQueue s.mem s.ptr id)
    (ha : advance m s.ptr = advance s.mem s.ptr) :
    exec ctx env { s with mem := m } = (exec ctx env s).map fun t => { t with mem := m } := by
  cases s with
  | mk pc =>
    subst hpc
    simp only [exec] at hf ha ⊢
    rw [hf, ha]
    (repeat' split) <;> rfl

/-- The loop that counts the rest reads the test and the advance; at its end the half is cleared. -/
theorem exec_discard_mem (hpc : s.pc = .discard)
    (htr : traverseTxQueue ctx.debug m s.ptr (drainBegin ctx s.index) (drainEnd ctx s.index) =
      traverseTxQueue ctx.debug s.mem s.ptr (drainBegin ctx s.index) (drainEnd ctx s.index))
    (ha : traverseTxQueue ctx.debug s.mem s.ptr (drainBegin ctx s.index) (drainEnd ctx s.index) =
      true → advance m s.ptr = advance s.mem s.ptr) :
    exec ctx env { s with mem := m } = (exec ctx env s).map fun t =>
      { t with mem :=
        if traverseTxQueue ctx.debug s.mem s.ptr (drainBegin ctx s.index) (drainEnd ctx s.index)
        then m else writeU64 m ((drainBegin ctx s.index + 8) % 2 ^ 64) 0 } := by
  cases s with
  | mk pc =>
    subst hpc
    simp only [exec] at htr ha ⊢
    rw [htr]
    split
    · next ht => rw [ha ht]; rfl
    · rfl

/-- Clearing the half keeps two rings that agree on it in agreement. -/
theorem writeU64_agree {n : Mem} {a v : Nat} (h : AgreeOnHalf ctx m n) :
    AgreeOnHalf ctx (writeU64 m a v) (writeU64 n a v) := fun x hx => by
  unfold writeU64
  split
  · rfl
  · exact h x hx

/-! ### The bytes read agree -/

/-- On a descriptor the test's bound checks passed. -/
theorem traverse_bounds {debug : Bool} {m : Mem} {p b e : Nat}
    (h : traverseTxQueue debug m p b e = true) : (debug = true → b ≤ p) ∧ p < e := by
  unfold traverseTxQueue at h
  cases debug <;> simp only [Bool.false_eq_true, if_false, if_true] at h
  · simp only [Bool.and_eq_true, decide_eq_true_eq] at h
    exact ⟨by simp, h.1⟩
  · split at h
    · cases h
    · exact ⟨fun _ => by omega, by omega⟩

theorem readBytes_congr {m n : Mem} {a c : Nat}
    (h : ∀ k < c, m ((a + k) % 2 ^ 64) = n ((a + k) % 2 ^ 64)) :
    readBytes m a c = readBytes n a c :=
  List.map_congr_left fun k hk => h k (List.mem_range.1 hk)

variable {m : Mem} {p : Nat}

/-- A header the test reads agrees, byte for byte, in two rings that agree on the half. -/
theorem header_agree (hh : HeadersInside ctx) (hc : Cursor ctx p) (hm : AgreeOnHalf ctx m ctx.mem)
    (hd : ctx.debug = true → drainBegin ctx (swapIndex ctx.stamps) ≤ p)
    (he : p < drainEnd ctx (swapIndex ctx.stamps)) {k : Nat} (hk : k < sizeofPkthdrTx) :
    m ((p + k) % 2 ^ 64) = ctx.mem ((p + k) % 2 ^ 64) :=
  hm _ (hh p hc hd he k hk)

theorem len_agree (hh : HeadersInside ctx) (hc : Cursor ctx p) (hm : AgreeOnHalf ctx m ctx.mem)
    (hd : ctx.debug = true → drainBegin ctx (swapIndex ctx.stamps) ≤ p)
    (he : p < drainEnd ctx (swapIndex ctx.stamps)) :
    ∀ k < 8, m ((p + 8 + k) % 2 ^ 64) = ctx.mem ((p + 8 + k) % 2 ^ 64) := fun k hk => by
  rw [Nat.add_assoc]
  exact header_agree hh hc hm hd he (by unfold sizeofPkthdrTx; omega)

/-- The test reads the same in two rings that agree on the half. -/
theorem traverse_agree (hh : HeadersInside ctx) (hc : Cursor ctx p)
    (hm : AgreeOnHalf ctx m ctx.mem) :
    traverseTxQueue ctx.debug m p (drainBegin ctx (swapIndex ctx.stamps))
        (drainEnd ctx (swapIndex ctx.stamps)) =
      traverseTxQueue ctx.debug ctx.mem p (drainBegin ctx (swapIndex ctx.stamps))
        (drainEnd ctx (swapIndex ctx.stamps)) :=
  traverseTxQueue_congr fun hd he => len_agree hh hc hm hd he

section
variable (hh : HeadersInside ctx) (hc : Cursor ctx p) (hm : AgreeOnHalf ctx m ctx.mem)
  (ht : traverseTxQueue ctx.debug ctx.mem p (drainBegin ctx (swapIndex ctx.stamps))
    (drainEnd ctx (swapIndex ctx.stamps)) = true)
include hh hc hm ht

theorem nsec_agree : hdrNsec m p = hdrNsec ctx.mem p :=
  hdrNsec_congr fun _ hk => header_agree hh hc hm (traverse_bounds ht).1 (traverse_bounds ht).2
    (by unfold sizeofPkthdrTx; omega)

theorem advance_agree : advance m p = advance ctx.mem p :=
  advance_congr (len_agree hh hc hm (traverse_bounds ht).1 (traverse_bounds ht).2)

/-- The fill reads the same in two rings that agree on the half, when the copy lies in it. -/
theorem fill_agree (hcp : CopiesInside ctx) (id : Nat) :
    fillSkb ctx.maxLen ctx.hwQueue m p id = fillSkb ctx.maxLen ctx.hwQueue ctx.mem p id := by
  have hl : hdrLen m p = hdrLen ctx.mem p :=
    hdrLen_congr (len_agree hh hc hm (traverse_bounds ht).1 (traverse_bounds ht).2)
  unfold fillSkb
  dsimp only
  rw [hl, readBytes_congr (n := ctx.mem) fun k hk => ?_]
  rw [Nat.mod_add_mod]
  refine hm _ (hcp p hc ht k ?_)
  split at hk <;> omega

end

/-- A state's own ring read through one of the lemmas above: the step leaves the ring as given. -/
theorem exec_mem_of_map {f : State → Mem} (h : exec ctx env s = some t)
    (he : exec ctx env s = (exec ctx env s).map fun t => { t with mem := f t }) : t.mem = f t := by
  rw [h] at he
  exact congrArg State.mem (Option.some.inj he)

/-- One step of the drain, on a ring that agrees with the drain's on the half, when the headers
the traversal reads and the copies lie in the half: the same step, on a ring that still agrees. -/
theorem exec_agree (hh : HeadersInside ctx) (hcp : CopiesInside ctx) (hi : CursorAt ctx s)
    (hm : AgreeOnHalf ctx m s.mem) (h : exec ctx env s = some t) :
    ∃ m', exec ctx env { s with mem := m } = some { t with mem := m' } ∧
      AgreeOnHalf ctx m' t.mem := by
  by_cases hpl : s.pc = .loop
  · simp only [CursorAt, hpl] at hi
    obtain ⟨hms, hx, hc⟩ := hi
    rw [hms] at hm
    have he : exec ctx env { s with mem := m } = _ :=
      exec_loop_mem hpl (by rw [hx, hms]; exact traverse_agree hh hc hm)
        (fun ht => by rw [hms]; rw [hx, hms] at ht; exact nsec_agree hh hc hm ht)
    have h0 := exec_mem_of_map h (exec_loop_mem (m := s.mem) hpl rfl fun _ => rfl)
    exact ⟨m, by rw [he, h]; rfl, by rw [h0, hms]; exact hm⟩
  by_cases hpa : s.pc = .alloc
  · simp only [CursorAt, hpa] at hi
    obtain ⟨hms, -, hc, ht⟩ := hi
    rw [hms] at hm
    have he : exec ctx env { s with mem := m } = _ :=
      exec_alloc_mem hpa (fun id => by rw [hms]; exact fill_agree hh hc hm ht hcp id)
        (by rw [hms]; exact advance_agree hh hc hm ht)
    have h0 := exec_mem_of_map h (exec_alloc_mem (m := s.mem) hpa (fun _ => rfl) rfl)
    exact ⟨m, by rw [he, h]; rfl, by rw [h0, hms]; exact hm⟩
  by_cases hpd : s.pc = .discard
  · simp only [CursorAt, hpd] at hi
    obtain ⟨hms, hx, hc⟩ := hi
    rw [hms] at hm
    have he : exec ctx env { s with mem := m } = _ :=
      exec_discard_mem hpd (by rw [hx, hms]; exact traverse_agree hh hc hm)
        (fun ht => by rw [hms]; rw [hx, hms] at ht; exact advance_agree hh hc hm ht)
    have h0 := exec_mem_of_map h (exec_discard_mem (m := s.mem) hpd rfl fun _ => rfl)
    refine ⟨_, by rw [he, h]; rfl, ?_⟩
    rw [h0, hms]
    split
    · exact hm
    · exact writeU64_agree hm
  · have he : exec ctx env { s with mem := m } = _ := exec_mem_free hpl hpa hpd
    have h0 := exec_mem_of_map h (exec_mem_free (m := s.mem) hpl hpa hpd)
    exact ⟨m, by rw [he, h]; rfl, by rw [h0]; exact hm⟩

/-- When every header the traversal reads and every copy of a visited descriptor lie in the
drained half, the drain reads nothing else of the ring: the drain of a ring that agrees with it on
the half passes through the same states, step for step, apart from the bytes outside the half. -/
theorem drain_reads_only_half (hh : HeadersInside ctx) (hcp : CopiesInside ctx)
    (hm : AgreeOnHalf ctx m ctx.mem) (h : Reaches ctx env (init ctx) s) :
    ∃ m', Reaches { ctx with mem := m } env (init { ctx with mem := m }) { s with mem := m' } ∧
      AgreeOnHalf ctx m' s.mem := by
  induction h with
  | refl => exact ⟨m, .refl, hm⟩
  | @tail b _ hb hst ih =>
    obtain ⟨m', hr, hm'⟩ := ih
    obtain ⟨v, hv, rfl⟩ := Option.map_eq_some'.1 hst
    obtain ⟨m'', he, hm''⟩ := exec_agree hh hcp (cursorAt_of_reaches hb) hm' hv
    refine ⟨m'', hr.tail ?_, hm''⟩
    show (exec ctx env { b with mem := m' }).map _ = _
    rw [he]
    rfl

end

/-! ### Two short descriptors -/

theorem twoDesc_hdrLen : hdrLen (twoDescRing 5 7) 0 = 8 ∧ hdrLen (twoDescRing 5 7) 24 = 8 ∧
    hdrLen (twoDescRing 5 7) 48 = 0 := by
  decide

section
variable {ctx : Ctx} {E : Nat} (hm : ctx.mem = twoDescRing 5 7)
  (hb : drainBegin ctx (swapIndex ctx.stamps) = 0) (he : drainEnd ctx (swapIndex ctx.stamps) = E)
include hm hb

/-- The cursor of a drain of `twoDescRing` from address 0 takes the positions 0, 24 and 48. -/
theorem twoDesc_cursor {p : Nat} (h : Cursor ctx p) : p = 0 ∨ p = 24 ∨ p = 48 := by
  induction h with
  | start => exact .inl hb
  | next _ ht ih =>
    rw [hm] at ht ⊢
    rcases ih with rfl | rfl | rfl
    · exact .inr (.inl (by decide))
    · exact .inr (.inr (by decide))
    · simp [traverseTxQueue, twoDesc_hdrLen] at ht

include he

theorem twoDesc_headersInside (hE : 64 ≤ E) : HeadersInside ctx := by
  intro p hc _ _ k hk
  unfold sizeofPkthdrTx at hk
  rcases twoDesc_cursor hm hb hc with rfl | rfl | rfl <;> simp only [InHalf, hb, he] <;> omega

theorem twoDesc_payloadsInside (hE : 64 ≤ E) : PayloadsInside ctx := by
  intro p hc _ k hk
  rw [hm] at hk
  unfold sizeofPkthdrTx
  rcases twoDesc_cursor hm hb hc with rfl | rfl | rfl <;> simp only [twoDesc_hdrLen] at hk <;>
    simp only [InHalf, hb, he] <;> omega

theorem twoDesc_copiesInside (hE : 104 ≤ E) : CopiesInside ctx := by
  intro p hc ht k hk
  rw [hm] at hk ht
  unfold sizeofPkthdrTx
  rcases twoDesc_cursor hm hb hc with rfl | rfl | rfl
  · simp only [twoDesc_hdrLen] at hk; simp only [InHalf, hb, he]; omega
  · simp only [twoDesc_hdrLen] at hk; simp only [InHalf, hb, he]; omega
  · simp [traverseTxQueue, twoDesc_hdrLen] at ht

end

/-- `twoDescRing` with the byte at `a₀` set. -/
def twoDescRingSet (a₀ : Nat) : Mem := fun a => if a = a₀ then 1 else twoDescRing 5 7 a

/-- The drain of `twoDescCtx` keeps its headers and payloads inside the half: its headers, at 0,
24 and 48, and the eight-byte payloads of its two descriptors lie in the half `[0, 64)`. Yet the
copy of 64 bytes from `hdr + 1` reads past `end`: with the byte at 64 set, both buffers
differ. -/
theorem drain_reads_past_half :
    HeadersInside twoDescCtx ∧ PayloadsInside twoDescCtx ∧
      AgreeOnHalf twoDescCtx (twoDescRingSet 64) twoDescCtx.mem ∧
      allocated (run { twoDescCtx with mem := twoDescRingSet 64 } steadyEnv 19
          (init { twoDescCtx with mem := twoDescRingSet 64 })).events ≠
        allocated twoDescRun.events := by
  have hb : drainBegin twoDescCtx (swapIndex twoDescCtx.stamps) = 0 := by decide
  have he : drainEnd twoDescCtx (swapIndex twoDescCtx.stamps) = 64 := by decide
  refine ⟨twoDesc_headersInside rfl hb he le_rfl, twoDesc_payloadsInside rfl hb he le_rfl,
    fun a ha => ?_, by decide⟩
  simp only [InHalf, hb, he] at ha
  simp only [twoDescRingSet, twoDescCtx, if_neg (show a ≠ 64 by omega)]

/-- The two descriptors in a half of 128 bytes, whose copies fit in it. -/
def twoDescWide : Ctx := { twoDescCtx with size := 128 }

/-- In the half of 128 bytes the drain reads nothing past it: with the byte at 128 set, the drain
passes through the same states. -/
theorem drain_reads_only_wide_half :
    HeadersInside twoDescWide ∧ CopiesInside twoDescWide ∧
      AgreeOnHalf twoDescWide (twoDescRingSet 128) twoDescWide.mem ∧
      ∃ m', Reaches { twoDescWide with mem := twoDescRingSet 128 } steadyEnv
          (init { twoDescWide with mem := twoDescRingSet 128 })
          { run twoDescWide steadyEnv 19 (init twoDescWide) with mem := m' } ∧
        AgreeOnHalf twoDescWide m' (run twoDescWide steadyEnv 19 (init twoDescWide)).mem := by
  have hb : drainBegin twoDescWide (swapIndex twoDescWide.stamps) = 0 := by decide
  have he : drainEnd twoDescWide (swapIndex twoDescWide.stamps) = 128 := by decide
  have hh := twoDesc_headersInside rfl hb he (by omega)
  have hc := twoDesc_copiesInside rfl hb he (by omega)
  have hm : AgreeOnHalf twoDescWide (twoDescRingSet 128) twoDescWide.mem := fun a ha => by
    simp only [InHalf, hb, he] at ha
    simp only [twoDescRingSet, twoDescWide, twoDescCtx, if_neg (show a ≠ 128 by omega)]
  exact ⟨hh, hc, hm, drain_reads_only_half hh hc hm (reaches_run 19 _)⟩

end Pfq.Drain
