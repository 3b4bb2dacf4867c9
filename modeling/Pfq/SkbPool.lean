import Mathlib

/-!
# The per-CPU buffer pool (`pf_q-skbuff-pool.h`)

`struct pfq_skb_pool` is a ring of `size` slots with a producer index `p_idx`, advanced by
`pfq_skb_pool_push`, and a consumer index `c_idx`, advanced by `pfq_skb_pool_pop`. One producer
and one consumer share it. Each function is cut into its accesses to shared memory: the loads of
the two indices, the reads and writes of a slot, the read of the buffer's reference count and the
index stores; the pool is a state machine whose steps are those accesses, made in any
interleaving of the two threads (`Act`). Other holders change reference counts at will: the
consumer's read of `skb->users` returns any value.

The history of the run is kept beside the pool: the push calls that returned, with their
results; the handles pop returned; the handles push released through `kfree_skb`, and
`os_free`. The invariant `Inv` relates the ring to that history: the published slots, from
`c_idx` up to `p_idx`, hold exactly the accepted handles not yet returned, in order; every other
slot is empty but the one the producer has written and not yet published; each thread's local
copy of its own index is current, and the producer writes only when there is room, the consumer
reads only a published slot. Every step keeps `Inv`, so it holds in every reachable state.

The memory orderings of the source (release stores, acquire loads) make each thread see the
other's accesses in program order; the interleaving semantics is that guarantee.
-/
namespace Pfq.SkbPool

/-- Where the producer is inside `pfq_skb_pool_push(pool, h)`: about to load `p_idx` (`loadP`),
about to load `c_idx` with `p` loaded (`loadC`), at `BUG_ON(pool->skbs[p] != NULL)` (`check`), at
`pool->skbs[p] = skb` (`write`), about to store `p_idx = next(p)` and return true (`store`), about
to count the buffer in `os_free`, release it with `kfree_skb` and return false (`free`), or stopped
at a `BUG_ON` that fired (`bug`). -/
inductive PushPc (H : Type) where
  | idle
  | loadP (h : H)
  | loadC (h : H) (p : Nat)
  | check (h : H) (p : Nat)
  | write (h : H) (p : Nat)
  | store (h : H) (p : Nat)
  | free (h : H)
  | bug

/-- Where the consumer is inside `pfq_skb_pool_pop(pool)`: about to load `c_idx` (`loadC`), about
to load `p_idx` with `c` loaded (`loadP`), at `skb = pool->skbs[c]` (`read`), at
`atomic_read(&skb->users) < 2` (`users`), at `pool->skbs[c] = NULL` (`clear`), about to store
`c_idx = next(c)` and return the handle (`store`), or stopped after reading the reference count of
a `NULL` slot (`fault`). -/
inductive PopPc (H : Type) where
  | idle
  | loadC
  | loadP (c : Nat)
  | read (c : Nat)
  | users (c : Nat) (skb : Option H)
  | clear (c : Nat) (h : H)
  | store (c : Nat) (h : H)
  | fault

/-- The pool, the two threads' program points, and the history of the run. `enabled` is
`pool->skbs != NULL`; `pushes` lists the push calls that returned, with the handle and the result;
`popped` the handles pop returned; `freed` the handles push released through `kfree_skb`; and
`osFree` counts the increments of `memory_stats.os_free` by push. -/
structure Pool (H : Type) where
  enabled : Bool
  size : Nat
  skbs : Nat → Option H
  pIdx : Nat
  cIdx : Nat
  push : PushPc H
  pop : PopPc H
  pushes : List (H × Bool)
  popped : List H
  freed : List H
  osFree : Nat

/-- `__pool_next`. -/
def __poolNext (size i : Nat) : Nat := if i + 1 = size then 0 else i + 1

/-- A step of a thread: the producer calls push or makes its next access; the consumer calls pop
or makes its next access, `users` being the reference count it reads if that access is the read
of `skb->users`. -/
inductive Act (H : Type) where
  | push (h : H)
  | pushStep
  | pop
  | popStep (users : Nat)

variable {H : Type}

def pushStep (s : Pool H) : Option (Pool H) :=
  match s.push with
  | .loadP h => some { s with push := .loadC h s.pIdx }
  | .loadC h p =>
    some { s with push := if __poolNext s.size p ≠ s.cIdx then .check h p else .free h }
  | .check h p => some { s with push := if (s.skbs p).isSome then .bug else .write h p }
  | .write h p => some { s with skbs := Function.update s.skbs p (some h), push := .store h p }
  | .store h p =>
    some { s with pIdx := __poolNext s.size p, push := .idle, pushes := s.pushes ++ [(h, true)] }
  | .free h =>
    some { s with osFree := s.osFree + 1, freed := s.freed ++ [h], push := .idle,
                  pushes := s.pushes ++ [(h, false)] }
  | .idle | .bug => none

def popStep (s : Pool H) (users : Nat) : Option (Pool H) :=
  match s.pop with
  | .loadC => some { s with pop := .loadP s.cIdx }
  | .loadP c => some { s with pop := if c ≠ s.pIdx then .read c else .idle }
  | .read c => some { s with pop := .users c (s.skbs c) }
  | .users _ none => some { s with pop := .fault }
  | .users c (some h) => some { s with pop := if users < 2 then .clear c h else .idle }
  | .clear c h => some { s with skbs := Function.update s.skbs c none, pop := .store c h }
  | .store c h =>
    some { s with cIdx := __poolNext s.size c, pop := .idle, popped := s.popped ++ [h] }
  | .idle | .fault => none

/-- One step of the two threads; `none` when the thread cannot take it. A pop on a pool without
slots returns `NULL` at once. -/
def step (s : Pool H) : Act H → Option (Pool H)
  | .push h =>
    match s.push with
    | .idle => some { s with push := if s.enabled then .loadP h else .free h }
    | _ => none
  | .pop =>
    match s.pop with
    | .idle => some (if s.enabled then { s with pop := .loadC } else s)
    | _ => none
  | .pushStep => pushStep s
  | .popStep users => popStep s users

/-- A pool of `size` empty slots with both indices at 0. -/
def init (size : Nat) : Pool H :=
  ⟨true, size, fun _ => none, 0, 0, .idle, .idle, [], [], [], 0⟩

def Reachable (size : Nat) (s : Pool H) : Prop :=
  Relation.ReflTransGen (fun s t => ∃ a, step s a = some t) (init size) s

/-- The threads' actions taken in order from `s`. -/
def runActs (s : Pool H) : List (Act H) → Option (Pool H)
  | [] => some s
  | a :: as => (step s a).bind fun t => runActs t as

theorem reachable_of_runActs {size : Nat} {s t : Pool H} (hs : Reachable size s)
    (acts : List (Act H)) (h : runActs s acts = some t) : Reachable size t := by
  induction acts generalizing s with
  | nil => cases h; exact hs
  | cons a as ih =>
    obtain ⟨u, hu, ht⟩ := Option.bind_eq_some.1 h
    exact ih (hs.tail ⟨a, hu⟩) ht

/-! ### Ring arithmetic -/

/-- The number of slots from `c` up to `p`, going round the ring. -/
def count (size p c : Nat) : Nat := if c ≤ p then p - c else p + size - c

/-- The slot `k` places after `c`, for `k < size`. -/
def wrap (size i : Nat) : Nat := if i < size then i else i - size

section
variable {size p c : Nat}

theorem count_lt (hp : p < size) (hc : c < size) : count size p c < size := by
  unfold count; split <;> omega

theorem poolNext_lt (hp : p < size) : __poolNext size p < size := by
  unfold __poolNext; split <;> omega

theorem poolNext_ne_iff (hp : p < size) (hc : c < size) :
    __poolNext size p ≠ c ↔ count size p c + 1 < size := by
  unfold __poolNext count; split <;> split <;> omega

theorem ne_iff_count_pos (hc : c < size) : c ≠ p ↔ 0 < count size p c := by
  unfold count; split <;> omega

theorem count_poolNext_p (hc : c < size) (h : count size p c + 1 < size) :
    count size (__poolNext size p) c = count size p c + 1 := by
  unfold __poolNext count at *; split_ifs at * <;> omega

theorem count_poolNext_c (hp : p < size) (h : 0 < count size p c) :
    count size p (__poolNext size c) = count size p c - 1 := by
  unfold __poolNext count at *; split_ifs at * <;> omega

theorem count_wrap (hc : c < size) {k : Nat} (hk : k < size) :
    count size (wrap size (c + k)) c = k := by
  unfold count wrap; split <;> split <;> omega

theorem wrap_lt (hc : c < size) {k : Nat} (hk : k < size) : wrap size (c + k) < size := by
  unfold wrap; split <;> omega

theorem wrap_count (hp : p < size) (hc : c < size) : wrap size (c + count size p c) = p := by
  unfold count wrap; split <;> split <;> omega

theorem wrap_poolNext {k : Nat} (hk : k + 1 < size) :
    wrap size (__poolNext size c + k) = wrap size (c + (k + 1)) := by
  unfold __poolNext wrap; split <;> split <;> split <;> omega

theorem wrap_zero (hc : c < size) : wrap size (c + 0) = c := by
  unfold wrap; split <;> omega

end

/-! ### The invariant -/

/-- Slot `i` as the consumer will find it: the handle the consumer has cleared and not yet
released through `c_idx` stands in its slot. -/
def Pool.view (s : Pool H) (i : Nat) : Option H :=
  match s.pop with
  | .store c h => if i = c then some h else s.skbs i
  | _ => s.skbs i

/-- The number of published slots, from `c_idx` up to `p_idx`. -/
def Pool.used (s : Pool H) : Nat := count s.size s.pIdx s.cIdx

/-- The published slots, from `c_idx` on. -/
def Pool.queue (s : Pool H) : List (Option H) :=
  (List.range s.used).map fun k => s.view (wrap s.size (s.cIdx + k))

/-- The handles of the push calls that returned `ok`. -/
def results (ok : Bool) (l : List (H × Bool)) : List H :=
  l.filterMap fun x => if x.2 = ok then some x.1 else none

@[simp] theorem results_nil (ok : Bool) : results ok ([] : List (H × Bool)) = [] := rfl

@[simp] theorem results_append_singleton (ok b : Bool) (l : List (H × Bool)) (h : H) :
    results ok (l ++ [(h, b)]) = results ok l ++ if b = ok then [h] else [] := by
  cases b <;> cases ok <;> simp [results]

/-- What the producer's program point says of the shared state: its copy of `p_idx` is current,
and past the comparison with `c_idx` the ring has room for one more. -/
def PushInv (s : Pool H) : Prop :=
  match s.push with
  | .loadC _ p => p = s.pIdx
  | .check _ p | .write _ p => p = s.pIdx ∧ s.used + 1 < s.size
  | .store h p => p = s.pIdx ∧ s.used + 1 < s.size ∧ s.skbs p = some h
  | .bug => False
  | _ => True

/-- What the consumer's program point says of the shared state: its copy of `c_idx` is current,
and past the comparison with `p_idx` its slot is published. -/
def PopInv (s : Pool H) : Prop :=
  match s.pop with
  | .loadP c => c = s.cIdx
  | .read c => c = s.cIdx ∧ 0 < s.used
  | .users c skb => c = s.cIdx ∧ 0 < s.used ∧ skb = s.skbs c
  | .clear c h => c = s.cIdx ∧ 0 < s.used ∧ s.skbs c = some h
  | .store c _ => c = s.cIdx ∧ 0 < s.used ∧ s.skbs c = none
  | .fault => False
  | _ => True

/-- The pool invariant: the accepted handles are those pop returned followed by the published
ones (`queue`); outside the published range a slot is empty, or is the one the producer has
written (`empty`); the threads' program points agree with the ring; and the released handles are
those of the refused calls, each counted in `os_free`. -/
structure Inv (s : Pool H) : Prop where
  enabled : s.enabled = true
  p_lt : s.pIdx < s.size
  c_lt : s.cIdx < s.size
  queue : ∃ q, results true s.pushes = s.popped ++ q ∧ s.queue = q.map some
  empty : ∀ i < s.size, s.used ≤ count s.size i s.cIdx → s.skbs i = none ∨ ∃ h, s.push = .store h i
  push : PushInv s
  pop : PopInv s
  freed : s.freed = results false s.pushes
  osFree : s.osFree = s.freed.length

theorem inv_init {size : Nat} (h : 0 < size) : Inv (init size : Pool H) where
  enabled := rfl
  p_lt := h
  c_lt := h
  queue := ⟨[], by simp [init, Pool.queue, Pool.used, count]⟩
  empty _ _ _ := .inl rfl
  push := trivial
  pop := trivial
  freed := rfl
  osFree := rfl

/-! ### What each step keeps -/

section
variable {s t : Pool H}

theorem view_of_not_store (hs : ∀ c h, s.pop ≠ .store c h) (i : Nat) : s.view i = s.skbs i := by
  unfold Pool.view; split
  · exact absurd ‹_› (hs _ _)
  · rfl

theorem queue_congr (hu : t.used = s.used) (hc : t.cIdx = s.cIdx) (hs : t.size = s.size)
    (hv : ∀ k < s.used, t.view (wrap s.size (s.cIdx + k)) = s.view (wrap s.size (s.cIdx + k))) :
    t.queue = s.queue := by
  unfold Pool.queue; rw [hu, hc, hs]
  exact List.map_congr_left fun k hk => hv k (List.mem_range.1 hk)

/-- The first published slot is the consumer's. -/
theorem queue_eq_cons (hc : s.cIdx < s.size) (hu : 0 < s.used) :
    s.queue = s.view s.cIdx ::
      (List.range (s.used - 1)).map fun k => s.view (wrap s.size (s.cIdx + (k + 1))) := by
  obtain ⟨n, hn⟩ : ∃ n, s.used = n + 1 := ⟨s.used - 1, by omega⟩
  simp only [Pool.queue, hn, List.range_succ_eq_map, List.map_cons, List.map_map, wrap_zero hc]
  rfl

theorem view_congr {i : Nat} (hp : t.pop = s.pop) (hk : t.skbs i = s.skbs i) :
    t.view i = s.view i := by
  unfold Pool.view; rw [hp]; split <;> simp only [hk]

theorem count_self (size c : Nat) : count size c c = 0 := by simp [count]

/-- A step that keeps the consumer's program point and `c_idx`, does not shrink the published
range, and keeps the consumer's slot while it is published, keeps `PopInv`. -/
theorem popInv_of (hp : t.pop = s.pop) (hc : t.cIdx = s.cIdx) (hu : s.used ≤ t.used)
    (hk : 0 < s.used → t.skbs s.cIdx = s.skbs s.cIdx) (h : PopInv s) : PopInv t := by
  unfold PopInv at *; rw [hp]
  cases hq : s.pop <;> simp only [hq] at h ⊢
  case loadP c => exact h.trans hc.symm
  case read c => exact ⟨h.1.trans hc.symm, by omega⟩
  case users c skb =>
    obtain ⟨rfl, h0, h1⟩ := h; exact ⟨hc.symm, by omega, h1.trans (hk h0).symm⟩
  case clear c x =>
    obtain ⟨rfl, h0, h1⟩ := h; exact ⟨hc.symm, by omega, (hk h0).trans h1⟩
  case store c x =>
    obtain ⟨rfl, h0, h1⟩ := h; exact ⟨hc.symm, by omega, (hk h0).trans h1⟩

/-- A step that keeps the producer's program point, `p_idx` and its slot, and does not grow the
published range, keeps `PushInv`. -/
theorem pushInv_of (hp : t.push = s.push) (hpi : t.pIdx = s.pIdx) (hs : t.size = s.size)
    (hu : t.used ≤ s.used) (hk : t.skbs s.pIdx = s.skbs s.pIdx) (h : PushInv s) : PushInv t := by
  unfold PushInv at *; rw [hp]
  cases hq : s.push <;> simp only [hq] at h ⊢
  case loadC x p => exact h.trans hpi.symm
  case check x p => exact ⟨h.1.trans hpi.symm, by omega⟩
  case write x p => exact ⟨h.1.trans hpi.symm, by omega⟩
  case store x p =>
    obtain ⟨rfl, h0, h1⟩ := h; exact ⟨hpi.symm, by omega, hk.trans h1⟩

namespace Inv
variable (hi : Inv s)
include hi

theorem cIdx_ne_pIdx (hu : 0 < s.used) : s.cIdx ≠ s.pIdx :=
  (ne_iff_count_pos hi.c_lt).2 hu

/-- The slot at `p_idx` is seen as it is: the consumer's cleared slot is published. -/
theorem view_pIdx : s.view s.pIdx = s.skbs s.pIdx := by
  have hp := hi.pop
  unfold Pool.view; unfold PopInv at hp; split
  · next c h hq =>
    rw [hq] at hp
    have : s.pIdx ≠ c := by
      rw [hp.1]; exact fun he => by simp [Pool.used, he, count] at hp
    simp [this]
  · rfl

/-- Away from the store of `c_idx`, the consumer's slot holds the first accepted handle not yet
returned. -/
theorem skbs_cIdx (hs : ∀ c h, s.pop ≠ .store c h) (hu : 0 < s.used) :
    ∃ h q, results true s.pushes = s.popped ++ h :: q ∧ s.skbs s.cIdx = some h := by
  obtain ⟨q, hq, hv⟩ := hi.queue
  rw [queue_eq_cons hi.c_lt hu, view_of_not_store hs] at hv
  cases q with
  | nil => cases hv
  | cons h q => exact ⟨h, q, hq, (List.cons.inj hv).1⟩

theorem setPush {x : PushPc H} (hs : ∀ h p, s.push ≠ .store h p)
    (hx' : PushInv { s with push := x }) : Inv { s with push := x } where
  enabled := hi.enabled
  p_lt := hi.p_lt
  c_lt := hi.c_lt
  queue := hi.queue
  empty i hi' hu := (hi.empty i hi' hu).imp_right fun ⟨h, e⟩ => (hs h i e).elim
  push := hx'
  pop := hi.pop
  freed := hi.freed
  osFree := hi.osFree

theorem setPop {x : PopPc H} (hs : ∀ c h, s.pop ≠ .store c h) (hx : ∀ c h, x ≠ .store c h)
    (hx' : PopInv { s with pop := x }) : Inv { s with pop := x } where
  enabled := hi.enabled
  p_lt := hi.p_lt
  c_lt := hi.c_lt
  queue := by
    obtain ⟨q, hq, hv⟩ := hi.queue
    refine ⟨q, hq, (queue_congr (t := { s with pop := x }) (s := s) rfl rfl rfl fun k _ => ?_).trans hv⟩
    rw [view_of_not_store hx, view_of_not_store hs]
  empty := hi.empty
  push := hi.push
  pop := hx'
  freed := hi.freed
  osFree := hi.osFree

/-- `pool->skbs[p] = skb`: the slot was empty, and it stays outside the published range. -/
theorem write {h : H} {p : Nat} (hp : s.push = .write h p) :
    Inv { s with skbs := Function.update s.skbs p (some h), push := .store h p } := by
  have hw := hi.push
  simp only [PushInv, hp] at hw
  obtain ⟨rfl, hroom⟩ := hw
  have hout : ∀ k < s.used, wrap s.size (s.cIdx + k) ≠ s.pIdx := fun k hk he => by
    have := count_wrap hi.c_lt (k := k) (by omega)
    rw [he] at this; unfold Pool.used at hk; omega
  refine ⟨hi.enabled, hi.p_lt, hi.c_lt, ?_, ?_, ⟨rfl, hroom, Function.update_same _ _ _⟩,
    popInv_of (s := s) rfl rfl le_rfl
      (fun h0 => Function.update_noteq (hi.cIdx_ne_pIdx h0) _ _) hi.pop, hi.freed, hi.osFree⟩
  · obtain ⟨q, hq, hv⟩ := hi.queue
    refine ⟨q, hq, ?_⟩
    rw [← hv]
    exact queue_congr rfl rfl rfl fun k hk =>
      view_congr rfl (Function.update_noteq (hout k hk) _ _)
  · intro i hi' hu
    dsimp only at hi' hu ⊢
    by_cases he : i = s.pIdx
    · exact .inr ⟨h, by rw [he]⟩
    · rw [Function.update_noteq he]
      exact (hi.empty i hi' hu).imp_right fun ⟨h', e⟩ => by rw [hp] at e; cases e

/-- Store `p_idx = next(p)`: the written slot joins the published range. -/
theorem publish {h : H} {p : Nat} (hp : s.push = .store h p) :
    Inv { s with pIdx := __poolNext s.size p, push := .idle, pushes := s.pushes ++ [(h, true)] } := by
  have hw := hi.push
  simp only [PushInv, hp] at hw
  obtain ⟨rfl, hroom, hslot⟩ := hw
  have hused : count s.size (__poolNext s.size s.pIdx) s.cIdx = s.used + 1 :=
    count_poolNext_p hi.c_lt hroom
  refine ⟨hi.enabled, poolNext_lt hi.p_lt, hi.c_lt, ?_, ?_, trivial,
    popInv_of (s := s) rfl rfl (by simp only [Pool.used, hused]; omega) (fun _ => rfl) hi.pop,
    by simp [hi.freed], hi.osFree⟩
  · obtain ⟨q, hq, hv⟩ := hi.queue
    refine ⟨q ++ [h], by simp [hq], ?_⟩
    have hlast : s.view (wrap s.size (s.cIdx + s.used)) = some h := by
      rw [Pool.used, wrap_count hi.p_lt hi.c_lt, hi.view_pIdx, hslot]
    simp only [Pool.queue, Pool.used, hused, List.range_succ, List.map_append, List.map_singleton]
    rw [← hlast, ← Pool.used, ← hv]
    rfl
  · intro i hi' hu
    dsimp only [Pool.used] at hi' hu ⊢
    rw [hused] at hu
    refine .inl ((hi.empty i hi' (by omega)).resolve_right fun ⟨h', e⟩ => ?_)
    rw [hp] at e
    cases e
    unfold Pool.used at hu; omega

/-- `SPARSE_INC(&memory_stats.os_free); kfree_skb(skb);`: the handle is released, the ring is
untouched. -/
theorem release {h : H} (hp : s.push = .free h) :
    Inv { s with osFree := s.osFree + 1, freed := s.freed ++ [h], push := .idle,
                 pushes := s.pushes ++ [(h, false)] } := by
  obtain ⟨q, hq, hv⟩ := hi.queue
  exact ⟨hi.enabled, hi.p_lt, hi.c_lt, ⟨q, by simp [hq], hv⟩,
    fun i hi' hu => (hi.empty i hi' hu).imp_right (fun ⟨h', e⟩ => by rw [hp] at e; cases e),
    trivial, hi.pop, by simp [hi.freed], by simp [hi.osFree]⟩

/-- `pool->skbs[c] = NULL`: the consumer holds the handle, which stays first in the range. -/
theorem clear {c : Nat} {h : H} (hq : s.pop = .clear c h) :
    Inv { s with skbs := Function.update s.skbs c none, pop := .store c h } := by
  have hw := hi.pop
  simp only [PopInv, hq] at hw
  obtain ⟨rfl, h0, hslot⟩ := hw
  refine ⟨hi.enabled, hi.p_lt, hi.c_lt, ?_, ?_,
    pushInv_of (s := s) rfl rfl rfl le_rfl
      (Function.update_noteq (hi.cIdx_ne_pIdx h0).symm _ _) hi.push,
    ⟨rfl, h0, Function.update_same _ _ _⟩, hi.freed, hi.osFree⟩
  · obtain ⟨q, hq', hv⟩ := hi.queue
    refine ⟨q, hq', ?_⟩
    rw [← hv]
    refine queue_congr rfl rfl rfl fun k _ => ?_
    simp only [Pool.view, hq]
    split_ifs with he
    · rw [he, hslot]
    · exact Function.update_noteq he _ _
  · intro i hi' hu
    dsimp only [Pool.used] at hi' hu ⊢
    have he : i ≠ s.cIdx := fun he => by
      rw [he, count_self] at hu; unfold Pool.used at h0; omega
    rw [Function.update_noteq he]
    exact hi.empty i hi' hu

/-- Store `c_idx = next(c)` and return the handle: it leaves the range. -/
theorem take {c : Nat} {h : H} (hq : s.pop = .store c h) :
    Inv { s with cIdx := __poolNext s.size c, pop := .idle, popped := s.popped ++ [h] } := by
  have hw := hi.pop
  simp only [PopInv, hq] at hw
  obtain ⟨rfl, h0, hslot⟩ := hw
  have hroom := count_lt hi.p_lt hi.c_lt
  have hused : count s.size s.pIdx (__poolNext s.size s.cIdx) = s.used - 1 :=
    count_poolNext_c hi.p_lt h0
  refine ⟨hi.enabled, hi.p_lt, poolNext_lt hi.c_lt, ?_, ?_,
    pushInv_of (s := s) rfl rfl rfl (by simp only [Pool.used, hused]; omega) rfl hi.push,
    trivial, hi.freed, hi.osFree⟩
  · obtain ⟨q, hq', hv⟩ := hi.queue
    rw [queue_eq_cons hi.c_lt h0] at hv
    obtain ⟨h'', q, rfl⟩ : ∃ h'' q', q = h'' :: q' := by
      cases q with
      | nil => cases hv
      | cons a q => exact ⟨a, q, rfl⟩
    simp only [List.map_cons, List.cons.injEq, Pool.view, hq, ite_true, Option.some.injEq] at hv
    obtain ⟨rfl, hv⟩ := hv
    refine ⟨q, by simp [hq'], ?_⟩
    rw [← hv]
    simp only [Pool.queue, Pool.used, hused]
    refine List.map_congr_left fun k hk => ?_
    rw [List.mem_range] at hk
    rw [wrap_poolNext (by omega)]
    have hne : wrap s.size (s.cIdx + (k + 1)) ≠ s.cIdx := fun he => by
      have := count_wrap hi.c_lt (k := k + 1) (by omega)
      rw [he, count_self] at this; omega
    simp only [if_neg hne]
    rfl
  · intro i hi' hu
    dsimp only [Pool.used] at hi' hu ⊢
    rw [hused] at hu
    by_cases he : i = s.cIdx
    · exact .inl (he ▸ hslot)
    · have hpos := (ne_iff_count_pos (p := i) hi.c_lt).1 (Ne.symm he)
      rw [count_poolNext_c hi' hpos] at hu
      exact hi.empty i hi' (by unfold Pool.used at h0; omega)

/-- The producer's slot is empty: it lies outside the published range. -/
theorem skbs_pIdx (hs : ∀ h p, s.push ≠ .store h p) : s.skbs s.pIdx = none :=
  (hi.empty _ hi.p_lt le_rfl).resolve_right fun ⟨h, e⟩ => hs h _ e

end Inv

theorem pushStep_inv (hi : Inv s) (hs : pushStep s = some t) : Inv t := by
  have hw := hi.push
  unfold pushStep at hs
  cases hp : s.push <;> simp only [PushInv, hp, Option.some.injEq] at hs hw
  case idle => cases hs
  case loadP h => subst hs; exact hi.setPush (by simp [hp]) rfl
  case loadC h p =>
    subst hs hw
    split_ifs with hn
    · exact hi.setPush (by simp [hp]) ⟨rfl, (poolNext_ne_iff hi.p_lt hi.c_lt).1 hn⟩
    · exact hi.setPush (by simp [hp]) trivial
  case check h p =>
    obtain ⟨rfl, hroom⟩ := hw
    subst hs
    rw [hi.skbs_pIdx (by simp [hp])]
    exact hi.setPush (by simp [hp]) ⟨rfl, hroom⟩
  case write h p => subst hs; exact hi.write hp
  case store h p => subst hs; exact hi.publish hp
  case free h => subst hs; exact hi.release hp

theorem popStep_inv {users : Nat} (hi : Inv s) (hs : popStep s users = some t) : Inv t := by
  have hw := hi.pop
  unfold popStep at hs
  cases hq : s.pop <;> simp only [PopInv, hq] at hs hw
  case idle => cases hs
  case loadC => cases hs; exact hi.setPop (by simp [hq]) (by simp) rfl
  case loadP c =>
    cases hs; subst hw
    split_ifs with hn
    · exact hi.setPop (by simp [hq]) (by simp) ⟨rfl, (ne_iff_count_pos hi.c_lt).1 hn⟩
    · exact hi.setPop (by simp [hq]) (by simp) trivial
  case read c =>
    cases hs; obtain ⟨rfl, h0⟩ := hw
    exact hi.setPop (by simp [hq]) (by simp) ⟨rfl, h0, rfl⟩
  case users c skb =>
    obtain ⟨rfl, h0, rfl⟩ := hw
    obtain ⟨h, -, -, hk⟩ := hi.skbs_cIdx (by simp [hq]) h0
    rw [hk] at hs; cases hs
    split_ifs
    · exact hi.setPop (by simp [hq]) (by simp) ⟨rfl, h0, hk⟩
    · exact hi.setPop (by simp [hq]) (by simp) trivial
  case clear c h => cases hs; exact hi.clear hq
  case store c h => cases hs; exact hi.take hq

theorem step_inv {a : Act H} (hi : Inv s) (hs : step s a = some t) : Inv t := by
  cases a with
  | push h =>
    unfold step at hs
    cases hp : s.push <;> simp only [hp] at hs <;> cases hs
    rw [if_pos hi.enabled]
    exact hi.setPush (by simp [hp]) trivial
  | pop =>
    unfold step at hs
    cases hq : s.pop <;> simp only [hq] at hs <;> cases hs
    rw [if_pos hi.enabled]
    exact hi.setPop (by simp [hq]) (by simp) trivial
  | pushStep => exact pushStep_inv hi hs
  | popStep users => exact popStep_inv hi hs

end

theorem inv_of_reachable {size : Nat} (hsize : 0 < size) {s : Pool H} (hs : Reachable size s) :
    Inv s := by
  induction hs with
  | refl => exact inv_init hsize
  | tail _ hst ih => obtain ⟨a, ha⟩ := hst; exact step_inv ih ha

/-- In every state that one producer and one consumer reach, interleaving their accesses from an
empty pool of `size ≥ 1` slots: both indices stay slots of the ring; the producer writes only an
empty slot, so the `BUG_ON` never fires, and the consumer reads only a published slot, which holds
a handle; the handles push accepted are those pop returned, in push order, followed by the at most
`size - 1` published ones; the handles push released are those of the calls that returned false,
each counted once in `os_free`. -/
theorem push_pop_interleaving_safe {size : Nat} (hsize : 0 < size) {s : Pool H}
    (hs : Reachable size s) :
    (s.pIdx < s.size ∧ s.cIdx < s.size ∧
      (∀ h p, s.push = .write h p → s.skbs p = none) ∧ s.push ≠ .bug ∧
      (∀ c, s.pop = .read c → c = s.cIdx ∧ c ≠ s.pIdx ∧ (s.skbs c).isSome) ∧ s.pop ≠ .fault) ∧
    (∃ q, results true s.pushes = s.popped ++ q ∧ s.queue = q.map some ∧ q.length ≤ s.size - 1) ∧
    s.freed = results false s.pushes ∧ s.osFree = s.freed.length := by
  have hi := inv_of_reachable hsize hs
  have hw := hi.push
  have hr := hi.pop
  refine ⟨⟨hi.p_lt, hi.c_lt, fun h p hp => ?_, fun hp => ?_, fun c hc => ?_, fun hc => ?_⟩, ?_,
    hi.freed, hi.osFree⟩
  · simp only [PushInv, hp] at hw
    exact hw.1 ▸ hi.skbs_pIdx (by simp [hp])
  · simp [PushInv, hp] at hw
  · simp only [PopInv, hc] at hr
    obtain ⟨rfl, h0⟩ := hr
    obtain ⟨h, -, -, hk⟩ := hi.skbs_cIdx (by simp [hc]) h0
    exact ⟨rfl, hi.cIdx_ne_pIdx h0, by simp [hk]⟩
  · simp [PopInv, hc] at hr
  · obtain ⟨q, hq, hv⟩ := hi.queue
    refine ⟨q, hq, hv, ?_⟩
    have := congrArg List.length hv
    have := count_lt hi.p_lt hi.c_lt
    simp only [Pool.queue, List.length_map, List.length_range, Pool.used] at *
    omega

/-- On two slots the producer pushes 5, the consumer loads `c_idx`, the producer finds the ring
full for 6 and releases it, and the consumer takes 5. -/
def twoSlotActs : List (Act Nat) :=
  [.push 5, .pushStep, .pushStep, .pushStep, .pushStep, .pushStep, .pop, .popStep 1, .push 6,
    .pushStep, .pushStep, .pushStep, .popStep 1, .popStep 1, .popStep 1, .popStep 1, .popStep 1]

def twoSlotRun : Pool Nat := (runActs (init 2) twoSlotActs).getD (init 2)

example : twoSlotRun.popped = [5] ∧ twoSlotRun.freed = [6] ∧ twoSlotRun.osFree = 1 := by decide

theorem push_pop_interleaving_two_slots :
    (twoSlotRun.pIdx < twoSlotRun.size ∧ twoSlotRun.cIdx < twoSlotRun.size ∧
      (∀ h p, twoSlotRun.push = .write h p → twoSlotRun.skbs p = none) ∧
      twoSlotRun.push ≠ .bug ∧
      (∀ c, twoSlotRun.pop = .read c →
        c = twoSlotRun.cIdx ∧ c ≠ twoSlotRun.pIdx ∧ (twoSlotRun.skbs c).isSome) ∧
      twoSlotRun.pop ≠ .fault) ∧
    (∃ q, results true twoSlotRun.pushes = twoSlotRun.popped ++ q ∧
      twoSlotRun.queue = q.map some ∧ q.length ≤ twoSlotRun.size - 1) ∧
    twoSlotRun.freed = results false twoSlotRun.pushes ∧
    twoSlotRun.osFree = twoSlotRun.freed.length :=
  push_pop_interleaving_safe (by decide)
    (reachable_of_runActs (.refl : Reachable 2 (init 2)) twoSlotActs rfl)

/-! ### The full and empty tests -/

/-- In every reachable state the index tests of the two threads are exact: at its load of `c_idx`
the producer goes on to release its buffer exactly when the ring holds `size - 1` published
handles, all it can hold, and at its load of `p_idx` the consumer returns `NULL` exactly when no
handle is published. A push never refuses a ring with room, and a pop never misses a published
handle at that test. -/
theorem pool_tests_exact {size : Nat} (hsize : 0 < size) {s : Pool H} (hs : Reachable size s) :
    (∀ t h p, s.push = .loadC h p → pushStep s = some t →
      (t.push = .free h ↔ s.used + 1 = s.size)) ∧
      ∀ t c users, s.pop = .loadP c → popStep s users = some t → (t.pop = .idle ↔ s.used = 0) := by
  have hi := inv_of_reachable hsize hs
  have hlt := count_lt hi.p_lt hi.c_lt
  refine ⟨fun t h p hp ht => ?_, fun t c users hc ht => ?_⟩
  · have hw := hi.push
    simp only [PushInv, hp] at hw
    subst hw
    simp only [pushStep, hp, Option.some.injEq] at ht
    subst ht
    have := poolNext_ne_iff hi.p_lt hi.c_lt
    unfold Pool.used at *
    split <;> simp_all <;> omega
  · have hr := hi.pop
    simp only [PopInv, hc] at hr
    subst hr
    simp only [popStep, hc, Option.some.injEq] at ht
    subst ht
    have := ne_iff_count_pos (p := s.pIdx) hi.c_lt
    unfold Pool.used at *
    split <;> simp_all [Nat.pos_iff_ne_zero]

theorem pool_tests_exact_two_slots :
    (∀ t h p, twoSlotRun.push = .loadC h p → pushStep twoSlotRun = some t →
      (t.push = .free h ↔ twoSlotRun.used + 1 = twoSlotRun.size)) ∧
      ∀ t c users, twoSlotRun.pop = .loadP c → popStep twoSlotRun users = some t →
        (t.pop = .idle ↔ twoSlotRun.used = 0) :=
  pool_tests_exact (by decide) (reachable_of_runActs (.refl : Reachable 2 (init 2)) twoSlotActs rfl)

/-! ### A started push returns -/

/-- The producer steps left before `pfq_skb_pool_push` returns, along its longest path. -/
def PushPc.left : PushPc H → Nat
  | .loadP _ => 5
  | .loadC _ _ => 4
  | .check _ _ => 3
  | .write _ _ => 2
  | .store _ _ | .free _ => 1
  | .idle | .bug => 0

/-- The handle of the push call in progress. -/
def PushPc.handle : PushPc H → Option H
  | .loadP h | .loadC h _ | .check h _ | .write h _ | .store h _ | .free h => some h
  | .idle | .bug => none

def Act.isPushCall : Act H → Bool
  | .push _ => true
  | _ => false

def Act.isPushStep : Act H → Bool
  | .pushStep => true
  | _ => false

/-- From `s` to `t` the push call in progress, if any, has kept its handle and the history of
push calls is unchanged, an idle producer staying idle; or the call has returned, recording
itself once. -/
def PushFrame (s t : Pool H) : Prop :=
  (t.push.handle = s.push.handle ∧ t.pushes = s.pushes ∧ (s.push = .idle → t.push = .idle)) ∨
    t.push = .idle ∧ ∃ x b, s.push.handle = some x ∧ t.pushes = s.pushes ++ [(x, b)]

section
variable {s t u : Pool H}

theorem pushFrame_trans (h₁ : PushFrame s t) (h₂ : PushFrame t u) : PushFrame s u := by
  rcases h₁ with ⟨hh, hp, hi⟩ | ⟨hi, x, b, hx, hp⟩ <;> rcases h₂ with ⟨hh', hp', hi'⟩ | ⟨hi', y, c, hy, hp'⟩
  · exact .inl ⟨hh'.trans hh, hp'.trans hp, fun h => hi' (hi h)⟩
  · exact .inr ⟨hi', y, c, hh ▸ hy, by rw [hp', hp]⟩
  · exact .inr ⟨hi' hi, x, b, hx, hp'.trans hp⟩
  · simp [hi, PushPc.handle] at hy

/-- A producer step moves the push call one step on, lowering `left`; a step of the consumer
leaves the producer where it is. The invariant keeps the `BUG_ON` from firing. -/
theorem step_pushFrame (hi : Inv s) (a : Act H) (ha : a.isPushCall = false)
    (h : step s a = some t) :
    t.push.left + (if a.isPushStep then 1 else 0) ≤ s.push.left ∧ PushFrame s t := by
  cases a with
  | push x => cases ha
  | pushStep =>
    have hw := hi.push
    simp only [step, pushStep] at h
    cases hq : s.push <;> simp only [hq, Option.some.injEq, reduceCtorEq] at h <;> subst h
    case check x p =>
      simp only [PushInv, hq] at hw
      rw [hw.1, hi.skbs_pIdx (by simp [hq])]
      simp [PushFrame, PushPc.left, PushPc.handle, Act.isPushStep, hq]
    all_goals (try split) <;> simp [PushFrame, PushPc.left, PushPc.handle, Act.isPushStep, hq]
  | pop =>
    simp only [step] at h
    split at h <;> cases h
    split <;> simp [PushFrame, Act.isPushStep]
  | popStep users =>
    simp only [step, popStep] at h
    split at h <;> cases h <;> simp [PushFrame, Act.isPushStep]

theorem runActs_pushFrame (hi : Inv s) (acts : List (Act H))
    (hacts : ∀ a ∈ acts, a.isPushCall = false) (h : runActs s acts = some t) :
    acts.countP Act.isPushStep + t.push.left ≤ s.push.left ∧ PushFrame s t := by
  induction acts generalizing s with
  | nil =>
    cases h
    exact ⟨by simp, .inl ⟨rfl, rfl, id⟩⟩
  | cons a as ih =>
    obtain ⟨v, hv, ht⟩ := Option.bind_eq_some.1 h
    obtain ⟨h1, f1⟩ := step_pushFrame hi a (hacts a (List.mem_cons_self _ _)) hv
    obtain ⟨h2, f2⟩ := ih (step_inv hi hv) (fun b hb => hacts b (List.mem_cons_of_mem _ hb)) ht
    refine ⟨?_, pushFrame_trans f1 f2⟩
    rw [List.countP_cons]
    by_cases hp : a.isPushStep <;> simp only [hp, if_true, if_false] at h1 ⊢ <;> omega

/-- In a reachable state the producer is idle or can take its next step, and it has returned
when no step is left. -/
theorem push_idle_or_steps {size : Nat} (hsize : 0 < size) (hs : Reachable size s) :
    (s.push = .idle ∨ ∃ t, pushStep s = some t) ∧ (s.push.left = 0 → s.push = .idle) := by
  have hw := (inv_of_reachable hsize hs).push
  cases hq : s.push <;> simp_all [PushInv, pushStep, PushPc.left]

end

/-- A push call in progress in a reachable state returns whatever the consumer does meanwhile:
along any run that starts no other push, the producer takes at most the steps its program point
leaves (five from the call), is never blocked before it returns, has returned once it has taken
them all, and its return records its own call, with its handle, once in the history. -/
theorem started_push_returns {size : Nat} (hsize : 0 < size) {s t : Pool H} (hs : Reachable size s)
    (acts : List (Act H)) (hacts : ∀ a ∈ acts, a.isPushCall = false) (ht : runActs s acts = some t) :
    acts.countP Act.isPushStep + t.push.left ≤ s.push.left ∧
      (t.push = .idle ∨ ∃ u, pushStep t = some u) ∧ (t.push.left = 0 → t.push = .idle) ∧
      ∀ x, s.push.handle = some x → t.push = .idle → ∃ b, t.pushes = s.pushes ++ [(x, b)] := by
  obtain ⟨hn, hf⟩ := runActs_pushFrame (inv_of_reachable hsize hs) acts hacts ht
  obtain ⟨h1, h2⟩ := push_idle_or_steps hsize (reachable_of_runActs hs acts ht)
  refine ⟨hn, h1, h2, fun x hx hi => ?_⟩
  rcases hf with ⟨hh, -, -⟩ | ⟨-, y, b, hy, hp⟩
  · rw [hi, hx] at hh
    cases hh
  · exact ⟨b, by rw [hp, ← Option.some.inj (hy.symm.trans hx)]⟩

/-- The producer has called push with 5 on an empty two-slot pool. -/
def pushStarted : Pool Nat := (runActs (init 2) [.push 5]).getD (init 2)

/-- The producer's five steps, with the consumer's call of pop and its load of `c_idx` between
them. -/
def interleavedActs : List (Act Nat) :=
  [.pushStep, .pop, .pushStep, .popStep 1, .pushStep, .pushStep, .pushStep]

def pushReturned : Pool Nat := (runActs pushStarted interleavedActs).getD (init 2)

theorem started_push_returns_interleaved :
    interleavedActs.countP Act.isPushStep + pushReturned.push.left ≤ pushStarted.push.left ∧
      (pushReturned.push = .idle ∨ ∃ u, pushStep pushReturned = some u) ∧
      (pushReturned.push.left = 0 → pushReturned.push = .idle) ∧
      ∀ x, pushStarted.push.handle = some x → pushReturned.push = .idle →
        ∃ b, pushReturned.pushes = pushStarted.pushes ++ [(x, b)] :=
  started_push_returns (by decide) (reachable_of_runActs (.refl : Reachable 2 (init 2)) [.push 5] rfl)
    interleavedActs (by decide) rfl

example : pushReturned.pushes = [(5, true)] ∧ pushReturned.push.left = 0 := by decide

end Pfq.SkbPool
