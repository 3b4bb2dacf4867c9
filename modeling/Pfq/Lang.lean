import Mathlib

/-!
# Serialization of predicate terms (`pfq-lang.hpp`)

A predicate term is a predicate name, a predicate with one argument, or two predicates joined by
a combinator. `serialize(n, t)` flattens a term into a vector of functional descriptors whose
first entry stands at index `n`, and returns the index after its last entry; a combinator's entry
links its operands by absolute index. The C++ template builds one type per term shape; the
inductive type below holds every term of any depth.

The serializer of a combinator term encodes its left operand twice: both recursive calls are
made on `p.left_`. A decoder that follows the links shows exactly what is encoded: the term in
which every combinator has its left operand on both sides.

Indices are the `int`s of the source taken as integers; a vector of `2^31` descriptors is far
beyond what the user library builds.

The kernel module's header `pf_q-module.h` encodes an optional value in a 64-bit word: `JUST`
sets bit 31, `IS_JUST` tests it, `FROM_JUST` clears it and `NOTHING` is 0. The encoding is exact
for the values whose bit 31 is clear and loses that bit of the others.
-/
namespace Pfq.Lang

/-- `enum pfq_functional_type`. -/
inductive FunctionalType where
  | monadicFun
  | highOrderFun
  | predicateFun
  | combinatorFun
  deriving DecidableEq, Repr

/-- `FunDescr`: the argument pointer is `none` for an empty `shared_ptr`, or the address of the
argument. -/
structure FunDescr where
  type : FunctionalType
  symbol : String
  argPtr : Option Nat
  argSize : Nat
  left : Int
  right : Int
  deriving DecidableEq, Repr

/-- `term::Combinator`. -/
structure Combinator where
  name : String
  deriving DecidableEq, Repr

/-- `term::Pred`, `term::Pred1` (its argument's address and size) and `term::Pred2`. -/
inductive Predicate where
  | pred (name : String)
  | pred1 (name : String) (ptr size : Nat)
  | pred2 (comb : Combinator) (left right : Predicate)
  deriving DecidableEq, Repr

/-- The number of `Pred`, `Pred1` and `Combinator` nodes of a term. -/
def Predicate.size : Predicate → Nat
  | .pred _ | .pred1 _ _ _ => 1
  | .pred2 _ l r => 1 + l.size + r.size

def Predicate.depth : Predicate → Nat
  | .pred _ | .pred1 _ _ _ => 0
  | .pred2 _ l r => max l.depth r.depth + 1

/-- `serialize(int n, Combinator const &)`. -/
def serializeCombinator (n : Int) (c : Combinator) : List FunDescr × Int :=
  ([⟨.combinatorFun, c.name, none, 0, -1, -1⟩], n + 1)

/-- `serialize(int n, ...)` for the three predicate shapes. For `Pred2` the operands are
serialized from `p.left_` both times, and the combinator's entry links them at `n1` and `n2`. -/
def serialize (n : Int) : Predicate → List FunDescr × Int
  | .pred name => ([⟨.predicateFun, name, none, 0, -1, -1⟩], n + 1)
  | .pred1 name ptr size => ([⟨.predicateFun, name, some ptr, size, -1, -1⟩], n + 1)
  | .pred2 c l _ =>
    let (ret, n1) := serializeCombinator n c
    let (left, n2) := serialize n1 l
    let (right, n3) := serialize n2 l
    (ret.map (fun d => { d with left := n1, right := n2 }) ++ left ++ right, n3)

/-- The term the serializer actually encodes: every right operand replaced by its left one. -/
def Predicate.leftTwice : Predicate → Predicate
  | .pred2 c l _ => .pred2 c l.leftTwice l.leftTwice
  | t => t

/-- The entry at absolute index `i` of a vector whose first entry stands at `base`. -/
def entryAt (v : List FunDescr) (base i : Int) : Option FunDescr :=
  if i < base then none else v[(i - base).toNat]?

/-- Follows the links of a serialized term from the entry at index `i`, for at most `fuel`
combinator levels. -/
def decode (look : Int → Option FunDescr) : Nat → Int → Option Predicate
  | 0, i =>
    match look i with
    | some ⟨.predicateFun, name, none, _, _, _⟩ => some (.pred name)
    | some ⟨.predicateFun, name, some p, s, _, _⟩ => some (.pred1 name p s)
    | _ => none
  | fuel + 1, i =>
    match look i with
    | some ⟨.predicateFun, name, none, _, _, _⟩ => some (.pred name)
    | some ⟨.predicateFun, name, some p, s, _, _⟩ => some (.pred1 name p s)
    | some ⟨.combinatorFun, name, _, _, l, r⟩ =>
      match decode look fuel l, decode look fuel r with
      | some a, some b => some (.pred2 ⟨name⟩ a b)
      | _, _ => none
    | _ => none

theorem serialize_snd (n : Int) (t : Predicate) :
    (serialize n t).2 = n + t.leftTwice.size ∧ ((serialize n t).1.length : Int) = t.leftTwice.size := by
  induction t generalizing n with
  | pred name => simp [serialize, Predicate.leftTwice, Predicate.size]
  | pred1 name p s => simp [serialize, Predicate.leftTwice, Predicate.size]
  | pred2 c l r ihl _ =>
    obtain ⟨h1, h2⟩ := ihl (n + 1)
    obtain ⟨h3, h4⟩ := ihl (n + 1 + l.leftTwice.size)
    simp only [serialize, serializeCombinator, Predicate.leftTwice, Predicate.size] at *
    simp only [h1, h3, List.length_append, List.length_map, List.length_singleton]
    push_cast
    omega

theorem entryAt_append_right (a b : List FunDescr) (base i : Int) (hi : base + a.length ≤ i) :
    entryAt (a ++ b) base i = entryAt b (base + a.length) i := by
  unfold entryAt
  rw [if_neg (by omega), if_neg (by omega), List.getElem?_append_right (by omega)]
  congr 1
  omega

theorem entryAt_append_left (a b : List FunDescr) (base i : Int) (hi : i < base + a.length) :
    entryAt (a ++ b) base i = entryAt a base i := by
  unfold entryAt
  split
  · rfl
  · rw [List.getElem?_append_left (by omega)]

theorem decode_pred_like (look : Int → Option FunDescr) (fuel : Nat) (i : Int)
    (d : FunDescr) (hd : look i = some d) (ht : d.type = .predicateFun) :
    decode look fuel i = some (match d.argPtr with
      | none => .pred d.symbol
      | some p => .pred1 d.symbol p d.argSize) := by
  obtain ⟨ty, name, ptr, s, l, r⟩ := d
  simp only at ht
  subst ht
  cases fuel <;> cases ptr <;> simp [decode, hd]

/-- Decoding what `serialize` wrote gives back the term with every left operand doubled, from any
start index and inside any larger vector that agrees on the written entries. -/
theorem decode_serialize (t : Predicate) : ∀ (n : Int) (look : Int → Option FunDescr) (fuel : Nat),
    t.depth ≤ fuel →
    (∀ i, n ≤ i → i < n + t.leftTwice.size → look i = entryAt (serialize n t).1 n i) →
    decode look fuel n = some t.leftTwice := by
  induction t with
  | pred name =>
    intro n look fuel _ hl
    have := hl n (Int.le_refl n) (by simp only [Predicate.leftTwice, Predicate.size]; omega)
    exact decode_pred_like look fuel n _ (by simpa [entryAt, serialize] using this) rfl
  | pred1 name p s =>
    intro n look fuel _ hl
    have := hl n (Int.le_refl n) (by simp only [Predicate.leftTwice, Predicate.size]; omega)
    exact decode_pred_like look fuel n _ (by simpa [entryAt, serialize] using this) rfl
  | pred2 c l r ihl _ =>
    intro n look fuel hf hl
    obtain ⟨fuel, rfl⟩ : ∃ f, fuel = f + 1 := ⟨fuel - 1, by simp [Predicate.depth] at hf; omega⟩
    have hd : l.depth ≤ fuel := by simp [Predicate.depth] at hf; omega
    obtain ⟨hn1, hl1⟩ := serialize_snd (n + 1) l
    obtain ⟨-, hl2⟩ := serialize_snd (n + 1 + l.leftTwice.size) l
    have hsz : (Predicate.pred2 c l r).leftTwice.size = 1 + l.leftTwice.size + l.leftTwice.size := by
      simp [Predicate.leftTwice, Predicate.size]
    have hv : (serialize n (Predicate.pred2 c l r)).1 = [⟨.combinatorFun, c.name, none, 0, n + 1,
        n + 1 + l.leftTwice.size⟩] ++ (serialize (n + 1) l).1 ++
          (serialize (n + 1 + l.leftTwice.size) l).1 := by
      simp [serialize, serializeCombinator, hn1]
    rw [hsz, hv] at hl
    have h0 := hl n (Int.le_refl n) (by omega)
    rw [entryAt_append_left _ _ _ _ (by simp only [List.length_append, List.length_singleton]; omega)] at h0
    have hleft := ihl (n + 1) look fuel hd fun i hi hi' => by
      rw [hl i (by omega) (by omega), entryAt_append_left _ _ _ _ (by simp only [List.length_append, List.length_singleton]; omega),
        entryAt_append_right _ _ _ _ (by simp only [List.length_append, List.length_singleton]; omega)]
      simp
    have hright := ihl (n + 1 + l.leftTwice.size) look fuel hd fun i hi hi' => by
      rw [hl i (by omega) (by omega), entryAt_append_right _ _ _ _ (by simp only [List.length_append, List.length_singleton]; omega)]
      congr 1
      simp only [List.length_append, List.length_singleton, Int.ofNat_add, Int.ofNat_one]
      omega
    simp [decode, h0, entryAt, hleft, hright, Predicate.leftTwice]

/-- `predicate("or", predicate("ip"), predicate("udp"))`, decoded from its serialization at
index 0 with one combinator level. -/
theorem decode_serialize_or :
    decode (entryAt (serialize 0 (.pred2 ⟨"or"⟩ (.pred "ip") (.pred "udp"))).1 0) 1 0 =
      some (Predicate.pred2 ⟨"or"⟩ (.pred "ip") (.pred "udp")).leftTwice :=
  decode_serialize _ 0 _ 1 (by decide) fun _ _ _ => rfl

/-! ### The links of a serialized term -/

theorem Predicate.size_pos (t : Predicate) : 0 < t.size := by
  cases t <;> simp [Predicate.size]

/-- The links of a vector whose first entry stands at index `n`: a combinator's entry links the
entry right after it and a later entry of the vector; a predicate's entry links nothing. -/
def LinksWf (n : Int) (v : List FunDescr) : Prop :=
  ∀ (k : Nat) d, v[k]? = some d →
    (d.type = .combinatorFun ∧ d.left = n + k + 1 ∧ d.left < d.right ∧ d.right < n + v.length) ∨
      (d.type = .predicateFun ∧ d.left = -1 ∧ d.right = -1)

/-- Every vector `serialize` writes, from any start index, links forward within itself, so a
decoder that follows the links from the first entry visits each entry after its parent and never
leaves the vector. -/
theorem serialize_links_forward (t : Predicate) : ∀ n, LinksWf n (serialize n t).1 := by
  induction t with
  | pred _ | pred1 _ _ _ =>
    intro n k d hk
    rcases k with _ | k <;> simp [serialize] at hk
    exact .inr (by simp [← hk])
  | pred2 c l r ihl _ =>
    intro n k d hk
    obtain ⟨hn1, hl1⟩ := serialize_snd (n + 1) l
    obtain ⟨-, hl2⟩ := serialize_snd (n + 1 + l.leftTwice.size) l
    have hpos := l.leftTwice.size_pos
    have hv : (serialize n (.pred2 c l r)).1 =
        ⟨.combinatorFun, c.name, none, 0, n + 1, n + 1 + l.leftTwice.size⟩ ::
          ((serialize (n + 1) l).1 ++ (serialize (n + 1 + l.leftTwice.size) l).1) := by
      simp [serialize, serializeCombinator, hn1]
    have hlen : ((serialize n (.pred2 c l r)).1.length : Int) = 1 + 2 * l.leftTwice.size := by
      rw [hv]; simp only [List.length_cons, List.length_append]; push_cast; omega
    rw [hlen]
    rw [hv] at hk
    rcases k with _ | k
    · -- the combinator's entry
      simp only [List.getElem?_cons_zero, Option.some.injEq] at hk
      subst hk
      exact .inl ⟨rfl, by simp, by simp; omega, by simp; omega⟩
    rw [List.getElem?_cons_succ] at hk
    rcases Nat.lt_or_ge k (serialize (n + 1) l).1.length with h | h
    · -- an entry of the left operand
      rw [List.getElem?_append_left h] at hk
      rcases ihl (n + 1) k d hk with ⟨h1, h2, h3, h4⟩ | h'
      · exact .inl ⟨h1, by push_cast; omega, h3, by omega⟩
      · exact .inr h'
    · -- an entry of the copy of the left operand
      rw [List.getElem?_append_right h] at hk
      rcases ihl _ _ d hk with ⟨h1, h2, h3, h4⟩ | h'
      · exact .inl ⟨h1, by push_cast; omega, h3, by omega⟩
      · exact .inr h'

/-- `predicate("or", predicate("ip"), predicate("udp"))` serialized from index 0: the entry the
combinator links as its right operand is `ip` again, and decoding the vector gives
`ip | ip`. -/
theorem serialize_repeats_left_operand :
    serialize 0 (.pred2 ⟨"or"⟩ (.pred "ip") (.pred "udp")) =
      ([⟨.combinatorFun, "or", none, 0, 1, 2⟩, ⟨.predicateFun, "ip", none, 0, -1, -1⟩,
        ⟨.predicateFun, "ip", none, 0, -1, -1⟩], 3) ∧
    decode (entryAt (serialize 0 (.pred2 ⟨"or"⟩ (.pred "ip") (.pred "udp"))).1 0) 1 0 =
      some (.pred2 ⟨"or"⟩ (.pred "ip") (.pred "ip")) := by
  decide

/-! ### Optional values of the kernel module (`pf_q-module.h`) -/

/-- `JUST(x)`, on the `unsigned long long` value of `x`. -/
def just (x : BitVec 64) : BitVec 64 := 1 <<< 31 ||| x

/-- `IS_JUST(x)`. -/
def isJust (x : BitVec 64) : BitVec 64 := 1 <<< 31 &&& x

/-- `FROM_JUST(x)`. -/
def fromJust (x : BitVec 64) : BitVec 64 := ~~~(1 <<< 31 : BitVec 64) &&& x

/-- `NOTHING`. -/
def nothing : BitVec 64 := 0

theorem getLsbD_bit31 (i : Nat) : (1 <<< 31 : BitVec 64).getLsbD i = decide (i = 31) := by
  rw [show (1 <<< 31 : BitVec 64) = BitVec.twoPow 64 31 from rfl, BitVec.getLsbD_twoPow]
  by_cases h : i = 31 <;> simp [h, eq_comm]

theorem getLsbD_fromJust (x : BitVec 64) (i : Nat) :
    (fromJust x).getLsbD i = (decide (i < 64) && !decide (i = 31) && x.getLsbD i) := by
  rw [fromJust, BitVec.getLsbD_and, BitVec.getLsbD_not, getLsbD_bit31]

theorem getLsbD_just (x : BitVec 64) (i : Nat) :
    (just x).getLsbD i = (decide (i = 31) || x.getLsbD i) := by
  rw [just, BitVec.getLsbD_or, getLsbD_bit31]

theorem fromJust_just (x : BitVec 64) : fromJust (just x) = fromJust x := by
  ext i
  rw [getLsbD_fromJust, getLsbD_fromJust, getLsbD_just]
  by_cases h : (i : Nat) = 31 <;> simp [h]

theorem fromJust_eq_self_iff (x : BitVec 64) : fromJust x = x ↔ x.getLsbD 31 = false := by
  constructor
  · intro h
    simpa [getLsbD_fromJust] using (congrArg (fun y => y.getLsbD 31) h).symm
  · intro h
    ext i
    rw [getLsbD_fromJust]
    by_cases hi : (i : Nat) = 31 <;> simp [hi, h]

/-- `IS_JUST` tells every `JUST` from `NOTHING`, and `FROM_JUST` gives back the value a `JUST`
wraps with bit 31 cleared: the value itself exactly when that bit was clear. -/
theorem just_round_trip (x : BitVec 64) :
    isJust (just x) ≠ 0 ∧ isJust nothing = 0 ∧ fromJust (just x) = fromJust x ∧
      (fromJust (just x) = x ↔ x.getLsbD 31 = false) := by
  refine ⟨fun h => ?_, rfl, fromJust_just x, by rw [fromJust_just, fromJust_eq_self_iff]⟩
  have := congrArg (fun y => y.getLsbD 31) h
  simp only [isJust, BitVec.getLsbD_and, getLsbD_bit31, getLsbD_just] at this
  simp at this

end Pfq.Lang
