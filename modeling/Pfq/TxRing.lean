import Mathlib

/-!
# The shared TX ring: descriptor layout and traversal

A half of the ring is a run of descriptors `{ u64 nsec; u64 len; u8 payload[len]; }`, each padded
to 8 bytes; a zero length ends the live part. `struct pfq_pkthdr_tx` is not in the sources: its
layout is the spec's (16 bytes, `nsec` at offset 0 and `len` at offset 8), read little-endian
from byte memory.

`traverse_tx_queue` decides whether the cursor stands on a descriptor, and the drain moves the
cursor by `sizeof(struct pfq_pkthdr_tx) + ALIGN(len, 8)`. Both are computed as the C code
computes them: `size_t` arithmetic and pointer arithmetic wrap modulo `2^64`. The release build
checks only `ptr < end` and a nonzero length, so a length close to `2^64` makes the advance wrap:
a header with `len = 2^64 - 16` leaves the cursor where it is, and the traversal never ends.
When no advance wraps, every step moves the cursor on by at least one header, and the
traversal of a half visits at most one descriptor per 16 bytes of it.
-/
namespace Pfq.TxRing

/-- The ring memory, one byte per address. -/
def Mem := Nat → UInt8

/-- A little-endian `u64` read at address `a`. -/
def readU64 (m : Mem) (a : Nat) : Nat :=
  (List.range 8).foldr (fun k acc => (m ((a + k) % 2 ^ 64)).toNat + 256 * acc) 0

/-- Modelled from the spec: `sizeof(struct pfq_pkthdr_tx)`. -/
def sizeofPkthdrTx : Nat := 16

/-- `hdr->nsec` of the header at `p`. -/
def hdrNsec (m : Mem) (p : Nat) : Nat := readU64 m p

/-- `hdr->len` of the header at `p`. -/
def hdrLen (m : Mem) (p : Nat) : Nat := readU64 m ((p + 8) % 2 ^ 64)

/-- `ALIGN(x, 8)` on a `size_t`. -/
def align8 (x : Nat) : Nat := (x + 7) % 2 ^ 64 / 8 * 8

/-- `ptr += sizeof(struct pfq_pkthdr_tx) + ALIGN(hdr->len, 8)`. -/
def advance (m : Mem) (p : Nat) : Nat :=
  (p + (sizeofPkthdrTx + align8 (hdrLen m p)) % 2 ^ 64) % 2 ^ 64

/-- `traverse_tx_queue`; `debug` is `PFQ_DEBUG`. The debug build also rejects a cursor below
`begin` and a length above 2048. -/
def traverseTxQueue (debug : Bool) (m : Mem) (p begin end_ : Nat) : Bool :=
  if debug then
    if p < begin ∨ end_ ≤ p then false
    else if 2048 < hdrLen m p then false
    else hdrLen m p != 0
  else decide (p < end_) && hdrLen m p != 0

/-- The headers the traversal visits from `p` on, in order: the loops of `__pfq_queue_xmit`
test `traverse_tx_queue` and advance the cursor until the test fails. -/
inductive Traverse (debug : Bool) (m : Mem) (begin end_ : Nat) : Nat → List Nat → Prop
  | stop {p : Nat} : traverseTxQueue debug m p begin end_ = false → Traverse debug m begin end_ p []
  | visit {p : Nat} {ps : List Nat} : traverseTxQueue debug m p begin end_ = true →
      Traverse debug m begin end_ (advance m p) ps → Traverse debug m begin end_ p (p :: ps)

/-- The cursor positions the traversal from `p₀` reaches: `p₀`, and the position after each
header on which the test passes. -/
inductive Reached (debug : Bool) (m : Mem) (begin end_ p₀ : Nat) : Nat → Prop
  | start : Reached debug m begin end_ p₀ p₀
  | next {p : Nat} : Reached debug m begin end_ p₀ p → traverseTxQueue debug m p begin end_ = true →
      Reached debug m begin end_ p₀ (advance m p)

section
variable {debug : Bool} {m : Mem} {begin end_ : Nat}

theorem Traverse.unique {p : Nat} {ps qs : List Nat} (h : Traverse debug m begin end_ p ps)
    (h' : Traverse debug m begin end_ p qs) : ps = qs := by
  induction h generalizing qs with
  | stop hs =>
    cases h' with
    | stop _ => rfl
    | visit ht _ => simp_all
  | visit ht _ ih =>
    cases h' with
    | stop hs => simp_all
    | visit _ h'' => rw [ih h'']

theorem Traverse.eq_nil {p : Nat} {ps : List Nat} (h : Traverse debug m begin end_ p ps)
    (hf : traverseTxQueue debug m p begin end_ = false) : ps = [] := by
  cases h with
  | stop _ => rfl
  | visit ht _ => simp_all

theorem Traverse.eq_cons {p : Nat} {ps : List Nat} (h : Traverse debug m begin end_ p ps)
    (ht : traverseTxQueue debug m p begin end_ = true) :
    ∃ rest, ps = p :: rest ∧ Traverse debug m begin end_ (advance m p) rest := by
  cases h with
  | stop hs => simp_all
  | visit _ hr => exact ⟨_, rfl, hr⟩

theorem Traverse.cons_inv {p a : Nat} {ps : List Nat}
    (h : Traverse debug m begin end_ p (a :: ps)) :
    a = p ∧ traverseTxQueue debug m p begin end_ = true ∧
      Traverse debug m begin end_ (advance m p) ps := by
  cases h with
  | visit ht hr => exact ⟨rfl, ht, hr⟩

end

theorem readU64_lt (m : Mem) (a : Nat) : readU64 m a < 2 ^ 64 := by
  have step : ∀ (n : Nat) (acc : Nat), acc < 256 ^ n → ∀ k,
      (m ((a + k) % 2 ^ 64)).toNat + 256 * acc < 256 ^ (n + 1) := by
    intro n acc hacc k
    have := UInt8.toNat_lt_size (m ((a + k) % 2 ^ 64))
    simp only [UInt8.size] at this
    rw [pow_succ 256 n]
    omega
  have key : ∀ l : List Nat, l.foldr (fun k acc => (m ((a + k) % 2 ^ 64)).toNat + 256 * acc) 0
      < 256 ^ l.length := by
    intro l
    induction l with
    | nil => simp
    | cons k l ih => exact step _ _ ih k
  simpa using key (List.range 8)

theorem hdrLen_lt (m : Mem) (p : Nat) : hdrLen m p < 2 ^ 64 := readU64_lt m _

/-- A `u64` read depends only on its eight bytes. -/
theorem readU64_congr {m n : Mem} {a b : Nat}
    (h : ∀ k < 8, m ((a + k) % 2 ^ 64) = n ((b + k) % 2 ^ 64)) : readU64 m a = readU64 n b := by
  have key : ∀ l : List Nat, (∀ k ∈ l, k < 8) →
      l.foldr (fun k acc => (m ((a + k) % 2 ^ 64)).toNat + 256 * acc) 0 =
        l.foldr (fun k acc => (n ((b + k) % 2 ^ 64)).toNat + 256 * acc) 0 := by
    intro l hl
    induction l with
    | nil => rfl
    | cons k l ih =>
      simp only [List.foldr_cons, h k (hl k (List.mem_cons_self _ _)),
        ih fun k hk => hl k (List.mem_cons_of_mem _ hk)]
  exact key _ fun k hk => List.mem_range.1 hk

/-! ### What a read depends on -/

section
variable {m n : Mem} {p : Nat}

/-- `hdr->len` depends only on bytes 8 to 15 of the header. -/
theorem hdrLen_congr (h : ∀ k < 8, m ((p + 8 + k) % 2 ^ 64) = n ((p + 8 + k) % 2 ^ 64)) :
    hdrLen m p = hdrLen n p :=
  readU64_congr fun k hk => by simpa only [Nat.mod_add_mod] using h k hk

/-- `hdr->nsec` depends only on the first eight bytes of the header. -/
theorem hdrNsec_congr (h : ∀ k < 8, m ((p + k) % 2 ^ 64) = n ((p + k) % 2 ^ 64)) :
    hdrNsec m p = hdrNsec n p :=
  readU64_congr h

theorem advance_congr (h : ∀ k < 8, m ((p + 8 + k) % 2 ^ 64) = n ((p + 8 + k) % 2 ^ 64)) :
    advance m p = advance n p := by
  unfold advance
  rw [hdrLen_congr h]

/-- `traverse_tx_queue` reads `hdr->len` only past its bound checks: `ptr < end` in the release
build, `begin ≤ ptr < end` in the debug build. -/
theorem traverseTxQueue_congr {debug : Bool} {begin end_ : Nat}
    (h : (debug = true → begin ≤ p) → p < end_ →
      ∀ k < 8, m ((p + 8 + k) % 2 ^ 64) = n ((p + 8 + k) % 2 ^ 64)) :
    traverseTxQueue debug m p begin end_ = traverseTxQueue debug n p begin end_ := by
  unfold traverseTxQueue
  cases debug
  · by_cases hp : p < end_
    · rw [hdrLen_congr (h (by simp) hp)]
    · simp [hp]
  · by_cases hp : p < begin ∨ end_ ≤ p
    · simp [hp]
    · rw [hdrLen_congr (h (fun _ => by omega) (by omega))]

end

/-- Without wrap-around, `ALIGN(len, 8)` rounds up to a multiple of 8. -/
theorem align8_of_lt {x : Nat} (hx : x + 7 < 2 ^ 64) : x ≤ align8 x ∧ align8 x ≤ x + 7 := by
  unfold align8
  rw [Nat.mod_eq_of_lt hx]
  omega

/-- A release-build step from a header whose advance cannot wrap moves the cursor to
`p + 16 + ALIGN(len, 8)`, past the whole header. -/
theorem advance_of_no_wrap {m : Mem} {p : Nat}
    (hw : p + sizeofPkthdrTx + hdrLen m p + 7 < 2 ^ 64) :
    advance m p = p + sizeofPkthdrTx + align8 (hdrLen m p) := by
  have ha := align8_of_lt (x := hdrLen m p) (by omega)
  unfold advance
  rw [Nat.mod_eq_of_lt (by omega), Nat.mod_eq_of_lt (by omega)]
  omega

theorem traverse_release {m : Mem} {p begin end_ : Nat}
    (h : traverseTxQueue false m p begin end_ = true) : p < end_ ∧ hdrLen m p ≠ 0 := by
  simpa [traverseTxQueue] using h

theorem release_traverse_aux (m : Mem) (b size : Nat)
    (hlen : ∀ p, Reached false m b (b + size) b p → traverseTxQueue false m p b (b + size) = true →
      b + size + hdrLen m p + 23 ≤ 2 ^ 64) :
    ∀ n p, b + size - p ≤ n → b ≤ p → Reached false m b (b + size) b p →
      ∃ ps, Traverse false m b (b + size) p ps ∧
        ps.length ≤ (b + size - p + 15) / 16 ∧ ∀ a ∈ ps, b ≤ a ∧ a < b + size := by
  intro n
  induction n using Nat.strong_induction_on with
  | _ n ih =>
    intro p hn hp hr
    cases ht : traverseTxQueue false m p b (b + size) with
    | false => exact ⟨[], .stop ht, by simp, by simp⟩
    | true =>
      have hpe := (traverse_release ht).1
      have hl := hlen p hr ht
      have hadv := advance_of_no_wrap (m := m) (p := p) (by unfold sizeofPkthdrTx; omega)
      have ha := align8_of_lt (x := hdrLen m p) (by omega)
      unfold sizeofPkthdrTx at hadv
      obtain ⟨ps, hps, hlen', hin⟩ :=
        ih (b + size - advance m p) (by omega) (advance m p) le_rfl (by omega) (hr.next ht)
      refine ⟨p :: ps, .visit ht hps, ?_, ?_⟩
      · simp only [List.length_cons]
        have : (b + size - advance m p + 15) / 16 + 1 ≤ (b + size - p + 15) / 16 := by
          rw [hadv]; omega
        omega
      · intro a ha'
        rcases List.mem_cons.mp ha' with rfl | ha'
        · exact ⟨hp, hpe⟩
        · have := hin a ha'; omega

/-- The release traversal of a half `[b, b + size)` whose visited headers have lengths that keep
every advance below `2^64`: every step moves the cursor forward by at least one header, and the
traversal from `begin` ends after at most one descriptor per 16 bytes, all inside the half. Only
the headers the traversal reaches are read: payload bytes are never taken for a length. -/
theorem release_traverse_of_no_wrap (m : Mem) (b size : Nat)
    (hlen : ∀ p, Reached false m b (b + size) b p → traverseTxQueue false m p b (b + size) = true →
      b + size + hdrLen m p + 23 ≤ 2 ^ 64) :
    (∀ p, Reached false m b (b + size) b p → traverseTxQueue false m p b (b + size) = true →
      p + sizeofPkthdrTx ≤ advance m p) ∧
    ∃ ps, Traverse false m b (b + size) b ps ∧ ps.length ≤ (size + 15) / 16 ∧
      ∀ a ∈ ps, b ≤ a ∧ a < b + size := by
  refine ⟨fun p hr ht => ?_, ?_⟩
  · have hpe := (traverse_release ht).1
    have hl := hlen p hr ht
    rw [advance_of_no_wrap (by unfold sizeofPkthdrTx; omega)]
    omega
  · simpa using release_traverse_aux m b size hlen size b (by omega) le_rfl .start

/-- A header on which the cursor stands still never lets the traversal end. -/
theorem not_traverse_of_advance_eq {debug : Bool} {m : Mem} {begin end_ p : Nat}
    (ht : traverseTxQueue debug m p begin end_ = true) (hp : advance m p = p) :
    ∀ ps, ¬ Traverse debug m begin end_ p ps := by
  intro ps
  induction ps with
  | nil => intro h; cases h; simp_all
  | cons a ps ih => intro h; exact ih (hp ▸ h.cons_inv.2.2)

/-- A half whose first header has `len = 2^64 - 16`. -/
def wrapMem : Mem := fun a => if a = 8 then 0xF0 else if 8 < a ∧ a < 16 then 0xFF else 0

/-- A half whose headers at 0 and 24 have `len = 1`. -/
def shortMem : Mem := fun a => if a = 8 ∨ a = 32 then 1 else 0

/-- The traversal of `shortMem` from 0 reaches the headers at 0 and 24, and stops at 48. -/
theorem shortMem_reached {p : Nat} (h : Reached false shortMem 0 (0 + 25) 0 p) :
    p = 0 ∨ p = 24 ∨ p = 48 := by
  induction h with
  | start => exact .inl rfl
  | next _ ht ih =>
    rcases ih with rfl | rfl | rfl
    · exact .inr (.inl (by decide))
    · exact .inr (.inr (by decide))
    · exact absurd ht (by decide)

theorem release_traverse_short_half :
    (∀ p, Reached false shortMem 0 (0 + 25) 0 p → traverseTxQueue false shortMem p 0 (0 + 25) = true →
      p + sizeofPkthdrTx ≤ advance shortMem p) ∧
    ∃ ps, Traverse false shortMem 0 (0 + 25) 0 ps ∧ ps.length ≤ (25 + 15) / 16 ∧
      ∀ a ∈ ps, 0 ≤ a ∧ a < 0 + 25 :=
  release_traverse_of_no_wrap shortMem 0 25 fun p hr _ => by
    rcases shortMem_reached hr with rfl | rfl | rfl <;> decide

/-- The release traversal from `begin` with a header of length `2^64 - 16`: the advance wraps to
zero, the cursor stands still and no loop over the half ends. And a 25-byte half is traversed at
two descriptors, more than `25 / 16`. -/
theorem release_traverse_wraps :
    (traverseTxQueue false wrapMem 0 0 4096 = true ∧ advance wrapMem 0 = 0 ∧
      ∀ ps, ¬ Traverse false wrapMem 0 4096 0 ps) ∧
    Traverse false shortMem 0 25 0 [0, 24] ∧ 25 / sizeofPkthdrTx < [0, 24].length := by
  have ht : traverseTxQueue false wrapMem 0 0 4096 = true := by decide
  have ha : advance wrapMem 0 = 0 := by decide
  refine ⟨⟨ht, ha, not_traverse_of_advance_eq ht ha⟩, ?_, by decide⟩
  exact .visit (by decide) (.visit (by decide) (.stop (by decide)))

end Pfq.TxRing
