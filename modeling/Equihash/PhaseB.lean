import Equihash.Optimised
import Mathlib.Data.Nat.Size

/-! Phase B of `OptimisedSolve`: the slot vector is a binary counter.

After `n` leaves, slot `X[r]` is occupied exactly when bit `r` of `n` is set,
and then holds the rows of subtrees of height `r` over the `2^r` positions from
`n - n % 2^(r+1)`. The carry chain of a leaf merges the slots of its trailing
ones, so `lti` never wraps and `CollideBranches` always gets two non-empty
lists; after the last leaf only `X[K]` is occupied.

What the slots hold is a parameter `Q r lo rows` (rows of a subtree of height
`r` whose leaves start at position `lo`), so that one induction serves both what
Phase B may build (`SlotRows`) and what it must build. One iteration of the
carry loop is `carryStep`, and `carryStep_spec` says where it leaves a carry
state; the states the loop of a run passes through are `CarryReaches`, the entry
of each leaf and whatever `carryStep` goes on to from there. Each is a call of
its leaf's carry chain (`CarryReaches.call`) and a carry state over `SlotRows`
(`CarryReaches.carryState`).

* `phaseB_binary_counter`: for every partial solution and every probe, the
  counter invariant holds after every prefix of the leaves, every merge of the
  run pairs the position ranges `[lti, lti + 2^r)` and `[rti, rti + 2^r)` with
  `lti` not wrapping and two rows at least, and Phase B never meets undefined
  behaviour;
* `rows_invariant`: every row of the basic solver's tables, of Phase B's slots
  and of every list the carry loop carries meets I1 to I3 at its level.
-/

namespace Equihash

/-! ## Counter arithmetic -/

theorem succ_div_of_mod {n m : Nat} (h : n % m + 1 < m) : (n + 1) / m = n / m := by
  have hm : 0 < m := by omega
  conv_lhs => rw [← Nat.div_add_mod n m, Nat.add_assoc, Nat.mul_add_div hm, Nat.div_eq_of_lt h,
    Nat.add_zero]

section Carry

variable {i t : Nat} (h : i % 2 ^ (t + 1) = 2 ^ t - 1)
include h

/-- Adding one to `i`, whose bits below `t` are set and bit `t` clear, clears the
bits below `t`, sets bit `t` and keeps the others. -/
theorem testBit_succ_of_carry (r : Nat) :
    (i + 1).testBit r = if r < t then false else if r = t then true else i.testBit r := by
  have ht := Nat.two_pow_pos t
  have h2 : 2 ^ (t + 1) = 2 * 2 ^ t := by rw [Nat.pow_succ, Nat.mul_comm]
  have hi : i = 2 ^ (t + 1) * (i / 2 ^ (t + 1)) + (2 ^ t - 1) := by
    have := Nat.div_add_mod i (2 ^ (t + 1)); omega
  have hi1 : i + 1 = 2 ^ (t + 1) * (i / 2 ^ (t + 1)) + 2 ^ t := by omega
  rw [hi1, Nat.testBit_mul_pow_two_add _ (by omega)]
  conv_rhs => rw [hi, Nat.testBit_mul_pow_two_add _ (by omega)]
  rw [Nat.testBit_two_pow, Nat.testBit_two_pow_sub_one]
  rcases Nat.lt_trichotomy r t with hr | rfl | hr
  · simp [hr, Nat.ne_of_gt hr, show r < t + 1 by omega]
  · simp
  · simp [Nat.not_lt.2 (Nat.le_of_lt hr), Nat.ne_of_gt hr, show ¬ r < t + 1 by omega]

/-- The stored subtrees above the carry start where they did. -/
theorem sub_mod_succ_of_carry {r : Nat} (hr : t < r) :
    (i + 1) - (i + 1) % 2 ^ (r + 1) = i - i % 2 ^ (r + 1) := by
  have ht := Nat.two_pow_pos t
  have h2 : 2 ^ (t + 1) = 2 * 2 ^ t := by rw [Nat.pow_succ, Nat.mul_comm]
  have hdiv : (i + 1) / 2 ^ (r + 1) = i / 2 ^ (r + 1) := by
    have hsplit : 2 ^ (r + 1) = 2 ^ (t + 1) * 2 ^ (r - t) := by rw [← Nat.pow_add]; congr 1; omega
    rw [hsplit, ← Nat.div_div_eq_div_mul, ← Nat.div_div_eq_div_mul, succ_div_of_mod (by omega)]
  have a := Nat.div_add_mod (i + 1) (2 ^ (r + 1))
  have b := Nat.div_add_mod i (2 ^ (r + 1))
  rw [hdiv] at a
  omega

/-- The subtree the carry stores at level `t` starts `2^t` before `i + 1`. -/
theorem sub_mod_self_of_carry : (i + 1) - (i + 1) % 2 ^ (t + 1) = i + 1 - 2 ^ t := by
  have ht := Nat.two_pow_pos t
  have h2 : 2 ^ (t + 1) = 2 * 2 ^ t := by rw [Nat.pow_succ, Nat.mul_comm]
  have : (i + 1) % 2 ^ (t + 1) = 2 ^ t := by
    rw [Nat.add_mod, h, Nat.mod_eq_of_lt (show 1 < 2 ^ (t + 1) by omega),
      Nat.mod_eq_of_lt (by omega)]
    omega
  rw [this]

/-- A carry stopping at a level below the top leaves the length unchanged. -/
theorem size_succ_of_carry (hs : t < i.size) : (i + 1).size = i.size := by
  refine Nat.le_antisymm (Nat.size_le.2 ?_) (Nat.size_le_size (Nat.le_succ i))
  rcases Nat.lt_or_ge (i + 1) (2 ^ i.size) with hlt | hge
  · exact hlt
  · have he : i + 1 = 2 ^ i.size := Nat.le_antisymm (Nat.lt_size_self i) hge
    have hb := testBit_succ_of_carry h t
    rw [he, Nat.testBit_two_pow, if_neg (Nat.lt_irrefl t), if_pos rfl] at hb
    exact absurd (of_decide_eq_true hb) (Nat.ne_of_gt hs)

end Carry

/-- A carry through every bit of `i` reaches `2^t`. -/
theorem succ_eq_of_carry_top {i t : Nat} (h : i % 2 ^ t = 2 ^ t - 1) (ht : i.size ≤ t) :
    i + 1 = 2 ^ t := by
  have := Nat.size_le.1 ht
  rw [Nat.mod_eq_of_lt this] at h
  have := Nat.two_pow_pos t
  omega

theorem mod_succ_of_testBit {i r : Nat} (h : i % 2 ^ r = 2 ^ r - 1) (b : Bool)
    (hb : i.testBit r = b) : i % 2 ^ (r + 1) = 2 ^ r - 1 + 2 ^ r * b.toNat := by
  have hbit : i / 2 ^ r % 2 = b.toNat := by
    rw [Nat.testBit_to_div_mod] at hb
    have := Nat.mod_lt (i / 2 ^ r) (show 0 < 2 by omega)
    cases b <;> simp at hb <;> simp <;> omega
  rw [Nat.mod_pow_succ, h, hbit]

/-! ## The slot vector -/

theorem getD_set_self {β : Type} {X : List (Option β)} {r : Nat} (h : r < X.length)
    (v : Option β) : (X.set r v).getD r none = v := by
  simp [h]

theorem getD_set_of_ne {β : Type} {X : List (Option β)} {r r' : Nat} (h : r ≠ r')
    (v : Option β) : (X.set r v).getD r' none = X.getD r' none := by
  simp [h]

section Counter

variable (Q : Nat → Nat → List (List UInt8) → Prop)

/-- The slot vector after `n` leaves: `X[r]` is occupied iff bit `r` of `n` is
set, and holds rows meeting `Q` for the subtree of height `r` from position
`n - n % 2^(r+1)`. -/
structure Counter (n : Nat) (X : List (Option (List (List UInt8)))) : Prop where
  length_eq : X.length = n.size
  occupied : ∀ r, (X.getD r none).isSome = n.testBit r
  rows : ∀ r rows, X.getD r none = some rows → Q r (n - n % 2 ^ (r + 1)) rows

/-- The carry of leaf `i` at level `r`: the bits of `i` below `r` are set and
their slots emptied, the slots from `r` on are as after `i` leaves, and `ic`
holds rows meeting `Q` for the subtree of height `r` ending at leaf `i`. -/
structure CarryState (i r : Nat) (X : List (Option (List (List UInt8))))
    (ic : List (List UInt8)) : Prop where
  low : i % 2 ^ r = 2 ^ r - 1
  length_eq : X.length = i.size
  below : ∀ r' < r, X.getD r' none = none
  above : ∀ r', r ≤ r' → (X.getD r' none).isSome = i.testBit r'
  rows : ∀ r' rows, X.getD r' none = some rows → Q r' (i - i % 2 ^ (r' + 1)) rows
  carried : Q r (i + 1 - 2 ^ r) ic

variable {Q}

theorem counter_nil : Counter Q 0 [] :=
  ⟨Nat.size_zero.symm, fun r => by simp, fun r rows h => by simp at h⟩

theorem Counter.carryState {i : Nat} {X : List (Option (List (List UInt8)))}
    {ic : List (List UInt8)} (h : Counter Q i X) (hic : Q 0 i ic) : CarryState Q i 0 X ic :=
  ⟨Nat.mod_one i, h.length_eq, fun _ h => absurd h (Nat.not_lt_zero _),
    fun r _ => h.occupied r, h.rows, by simpa using hic⟩

/-- A merge happens at level `r` exactly when bit `r` of the leaf is set; then
`rti = i + 1 - 2^r` is at least `2^r`, so `lti = rti - 2^r` does not wrap, and
the slot's subtree starts at `lti`. -/
theorem CarryState.merge {i r : Nat} {X : List (Option (List (List UInt8)))}
    {ic Xr : List (List UInt8)} (h : CarryState Q i r X ic) (hX : X.getD r none = some Xr) :
    i.testBit r = true ∧ 2 ^ r ≤ i + 1 - 2 ^ r ∧ i - i % 2 ^ (r + 1) = i + 1 - 2 ^ (r + 1) := by
  have hb : i.testBit r = true := by rw [← h.above r le_rfl, hX]; rfl
  have hm := mod_succ_of_testBit h.low true hb
  have := Nat.mod_le i (2 ^ (r + 1))
  have h2 : 2 ^ (r + 1) = 2 * 2 ^ r := by rw [Nat.pow_succ, Nat.mul_comm]
  have := Nat.two_pow_pos r
  simp only [Bool.toNat_true, Nat.mul_one] at hm
  refine ⟨hb, by omega, by omega⟩

/-- After a merge at level `r`, the carry goes on at level `r + 1` with slot `r`
emptied. -/
theorem CarryState.next {i r : Nat} {X : List (Option (List (List UInt8)))}
    {ic Xr m : List (List UInt8)} (h : CarryState Q i r X ic) (hX : X.getD r none = some Xr)
    (hm : Q (r + 1) (i + 1 - 2 ^ (r + 1)) m) : CarryState Q i (r + 1) (X.set r none) m := by
  have hb := (h.merge hX).1
  have hlow := mod_succ_of_testBit h.low true hb
  have hr : r < X.length := by
    by_contra hge
    rw [List.getD_eq_default _ _ (by omega)] at hX
    cases hX
  have := Nat.two_pow_pos r
  refine ⟨by rw [hlow, Nat.pow_succ]; simp only [Bool.toNat_true]; omega,
    by rw [List.length_set, h.length_eq],
    fun r' hr' => ?_, fun r' hr' => ?_, fun r' rows hs => ?_, hm⟩
  · rcases Nat.lt_or_ge r' r with hlt | hge
    · rw [getD_set_of_ne (Nat.ne_of_gt hlt)]; exact h.below r' hlt
    · rw [show r' = r by omega, getD_set_self hr]
  · rw [getD_set_of_ne (by omega)]; exact h.above r' (by omega)
  · by_cases hrr : r = r'
    · subst hrr; rw [getD_set_self hr] at hs; cases hs
    · rw [getD_set_of_ne hrr] at hs; exact h.rows r' rows hs

/-- When slot `r` is empty the carry stores `ic` there: the counter of `i + 1`
leaves. -/
theorem CarryState.store {i r : Nat} {X : List (Option (List (List UInt8)))}
    {ic : List (List UInt8)} (h : CarryState Q i r X ic) (hr : r < X.length)
    (hX : X.getD r none = none) :
    i % 2 ^ (r + 1) = 2 ^ r - 1 ∧ Counter Q (i + 1) (X.set r (some ic)) := by
  have hb : i.testBit r = false := by rw [← h.above r le_rfl, hX]; rfl
  have hlow : i % 2 ^ (r + 1) = 2 ^ r - 1 := by simpa using mod_succ_of_testBit h.low false hb
  refine ⟨hlow, ⟨?_, fun r' => ?_, fun r' rows hs => ?_⟩⟩
  · rw [List.length_set, h.length_eq, size_succ_of_carry hlow (h.length_eq ▸ hr)]
  · rw [testBit_succ_of_carry hlow]
    rcases Nat.lt_trichotomy r' r with hlt | rfl | hgt
    · rw [getD_set_of_ne (Nat.ne_of_gt hlt), h.below r' hlt, if_pos hlt]; rfl
    · rw [getD_set_self hr]; simp
    · rw [getD_set_of_ne (Nat.ne_of_lt hgt), h.above r' (Nat.le_of_lt hgt),
        if_neg (by omega), if_neg (by omega)]
  · rcases Nat.lt_trichotomy r' r with hlt | rfl | hgt
    · rw [getD_set_of_ne (Nat.ne_of_gt hlt), h.below r' hlt] at hs; cases hs
    · rw [getD_set_self hr] at hs
      cases hs
      rw [sub_mod_self_of_carry hlow]
      exact h.carried
    · rw [getD_set_of_ne (Nat.ne_of_lt hgt)] at hs
      rw [sub_mod_succ_of_carry hlow hgt]
      exact h.rows r' rows hs

/-- When the carry passes the last slot, `i + 1 = 2^r` and `ic` is pushed as the
new top slot. -/
theorem CarryState.push {i r : Nat} {X : List (Option (List (List UInt8)))}
    {ic : List (List UInt8)} (h : CarryState Q i r X ic) (hr : ¬ r < X.length) :
    i + 1 = 2 ^ r ∧ Counter Q (i + 1) (X ++ [some ic]) := by
  have hi := succ_eq_of_carry_top h.low (by rw [← h.length_eq]; omega)
  have hlen : X.length = r := by
    refine Nat.le_antisymm (by omega) ?_
    rw [h.length_eq]
    rcases r with _ | r
    · exact Nat.zero_le _
    · refine Nat.lt_size.2 ?_
      rw [Nat.pow_succ] at hi
      have := Nat.two_pow_pos r
      omega
  refine ⟨hi, ⟨?_, fun r' => ?_, fun r' rows hs => ?_⟩⟩
  · rw [List.length_append, hlen, hi, Nat.size_pow]; rfl
  · rw [hi, Nat.testBit_two_pow]
    rcases Nat.lt_trichotomy r' r with hlt | rfl | hgt
    · rw [List.getD_append _ _ _ _ (by omega), h.below r' hlt]; simp [Nat.ne_of_gt hlt]
    · rw [List.getD_append_right _ _ _ _ (by omega), hlen]; simp
    · rw [List.getD_eq_default _ _ (by simp; omega)]; simp [Nat.ne_of_lt hgt]
  · rcases Nat.lt_trichotomy r' r with hlt | rfl | hgt
    · rw [List.getD_append _ _ _ _ (by omega), h.below r' hlt] at hs; cases hs
    · rw [List.getD_append_right _ _ _ _ (by omega), hlen] at hs
      simp only [Nat.sub_self, List.getD_cons_zero, Option.some.injEq] at hs
      subst hs
      have hc := h.carried
      rw [hi, Nat.sub_self] at hc
      rwa [hi, Nat.mod_eq_of_lt (Nat.pow_lt_pow_right (by omega) (by omega)), Nat.sub_self]
    · rw [List.getD_eq_default _ _ (by simp; omega)] at hs; cases hs

end Counter

/-! ## One leaf -/

/-- After the carry of a leaf: the last level `t` a leaf stored at is the lowest
set bit of the number of leaves, with its `hashLen` and `lenIndices`. -/
def LastLevel (p : Params) (n hashLen lenIndices : Nat) : Prop :=
  ∃ t, n.testBit t = true ∧ (∀ r < t, n.testBit r = false) ∧
    hashLen = p.expandedHashLength - t * p.collisionByteLength ∧ lenIndices = 4 * 2 ^ t

/-- How the leaves `0 .. n-1` end: at `goto invalidsolution` (only when `A`), or
with a slot vector meeting `Counter Q n`. -/
def LeavesDone (p : Params) (Q : Nat → Nat → List (List UInt8) → Prop) (A : Prop) (n : Nat) :
    Carry → Prop
  | .stored X hashLen lenIndices => Counter Q n X ∧ (0 < n → LastLevel p n hashLen lenIndices)
  | .invalid => A
  | .undefined => False

/-- Where an iteration from a carry state of leaf `i` at level `r` leaves the
loop: on at a carry state of level `r + 1`, with that level's `hashLen`,
`lenIndices` and `rti`, or out of it as `LeavesDone` for `i + 1` leaves. -/
def StepDone (p : Params) (Q : Nat → Nat → List (List UInt8) → Prop) (A : Prop) (i r : Nat) :
    CarryStep → Prop
  | .next X ic hashLen lenIndices rti => CarryState Q i (r + 1) X ic ∧
    hashLen = p.expandedHashLength - (r + 1) * p.collisionByteLength ∧
    lenIndices = 4 * 2 ^ (r + 1) ∧ rti = i + 1 - 2 ^ (r + 1)
  | .done c => LeavesDone p Q A (i + 1) c

section Leaves

variable {p : Params} {base : EhHashState} {srt : RowSort} {cancelled : EhSolverCancelCheck → Bool}
  {P : List UInt8} {Q : Nat → Nat → List (List UInt8) → Prop} {A : Prop}
  (hne : ∀ r lo rows, Q r lo rows → rows ≠ [])
  (hmerge : ∀ r lo (ic Xr : List (List UInt8)), r < p.K → 2 ^ (r + 1) ∣ lo →
    lo + 2 ^ (r + 1) ≤ 2 ^ p.K → Q r lo Xr → Q r (lo + 2 ^ r) ic →
    Q (r + 1) lo (collideBranches
      (srt.sort (p.expandedHashLength - r * p.collisionByteLength) (ic ++ Xr))
      (p.expandedHashLength - r * p.collisionByteLength) (4 * 2 ^ r) p.collisionByteLength
      p.indexLength (P.getD lo 0) (P.getD (lo + 2 ^ r) 0)) ∨
    (collideBranches (srt.sort (p.expandedHashLength - r * p.collisionByteLength) (ic ++ Xr))
      (p.expandedHashLength - r * p.collisionByteLength) (4 * 2 ^ r) p.collisionByteLength
      p.indexLength (P.getD lo 0) (P.getD (lo + 2 ^ r) 0) = [] ∧ A))
include hne hmerge

/-- **One iteration.** From a carry state of leaf `i < 2^K` at level `r`, an
iteration goes on from a carry state of level `r + 1`, or ends the chain with a
counter for `i + 1` leaves, or at `goto invalidsolution` when `A` allows it. -/
theorem carryStep_spec {r i : Nat} {X : List (Option (List (List UInt8)))} {ic : List (List UInt8)}
    (hi : i < 2 ^ p.K) (hc : CarryState Q i r X ic) :
    Ensures cancelled (StepDone p Q A i r)
      (carryStep p srt cancelled P r X ic (p.expandedHashLength - r * p.collisionByteLength)
        (4 * 2 ^ r) (i + 1 - 2 ^ r)) := by
  unfold carryStep
  split_ifs with hlen
  · cases hX : X.getD r none with
    | some Xr =>
      obtain ⟨hb, hrti, hstart⟩ := hc.merge hX
      have hK : r < p.K := by
        by_contra hge
        rw [Nat.testBit_lt_two_pow (Nat.lt_of_lt_of_le hi
          (Nat.pow_le_pow_right (by omega) (by omega)))] at hb
        cases hb
      obtain ⟨lo, hlo⟩ : ∃ lo, i + 1 - 2 ^ r = lo + 2 ^ r := ⟨i + 1 - 2 ^ (r + 1), by
        rw [Nat.pow_succ] at hstart ⊢; omega⟩
      have hlo' : lo = i + 1 - 2 ^ (r + 1) := by rw [Nat.pow_succ]; omega
      have hXr : Q r lo Xr := hlo' ▸ hstart ▸ hc.rows r Xr hX
      have hic : Q r (lo + 2 ^ r) ic := hlo ▸ hc.carried
      refine ensures_check _ ?_
      rw [if_neg (fun h' => h'.elim (by omega) fun h0 => hne r _ ic hic (by
        rw [(srt.perm _ _).length_eq, List.length_append] at h0
        exact List.eq_nil_of_length_eq_zero (by omega))), hlo, Nat.add_sub_cancel]
      have hdvd : 2 ^ (r + 1) ∣ lo := hlo' ▸ hstart ▸ Nat.dvd_sub_mod i
      rcases hmerge r lo ic Xr hK hdvd (by omega) hXr hic with hm | ⟨hm, hA⟩
      · rw [if_neg (fun h0 => hne _ _ _ hm (List.eq_nil_of_length_eq_zero h0))]
        refine ensures_check _ (ensures_pure ⟨hc.next hX (hlo' ▸ hm), ?_, by ring, hlo'⟩)
        rw [Nat.sub_sub, ← Nat.add_one_mul]
      · rw [if_pos (by rw [hm]; rfl)]
        exact ensures_pure hA
    | none =>
      obtain ⟨hlow, hcount⟩ := hc.store hlen hX
      refine ensures_pure ⟨hcount, fun _ => ⟨r, ?_, fun r' hr' => ?_, rfl, rfl⟩⟩
      · rw [testBit_succ_of_carry hlow]; simp
      · rw [testBit_succ_of_carry hlow, if_pos hr']
  · obtain ⟨hi1, hcount⟩ := hc.push hlen
    refine ensures_pure ⟨hcount, fun _ => ⟨r, ?_, fun r' hr' => ?_, rfl, rfl⟩⟩
    · rw [hi1, Nat.testBit_two_pow_self]
    · rw [hi1, Nat.testBit_two_pow_of_ne (Nat.ne_of_gt hr')]

/-- **Carry.** From a carry state of leaf `i < 2^K`, the carry chain ends with a
counter for `i + 1` leaves, or at `goto invalidsolution` when `A` allows it. -/
theorem carryUp_spec : ∀ n r X ic i, r + n = p.K + 1 → i < 2 ^ p.K → CarryState Q i r X ic →
    Ensures cancelled (LeavesDone p Q A (i + 1))
      (carryUp p srt cancelled P n r X ic (p.expandedHashLength - r * p.collisionByteLength)
        (4 * 2 ^ r) (i + 1 - 2 ^ r))
  | 0, r, X, ic, i, hr, hi, hc => by
    have hlow := hc.low
    have := Nat.pow_lt_pow_right (show 1 < 2 by omega) (show p.K < r by omega)
    rw [Nat.mod_eq_of_lt (by omega)] at hlow
    omega
  | n + 1, r, X, ic, i, hr, hi, hc => by
    rw [carryUp]
    refine ensures_bind ((carryStep_spec hne hmerge hi hc).mono fun s hs => ?_)
    match s, hs with
    | .next X' ic' _ _ _, ⟨hc', rfl, rfl, rfl⟩ =>
      exact carryUp_spec n (r + 1) X' ic' i (by omega) hi hc'
    | .done _, hd => exact ensures_pure hd

/-- **Leaves.** From a counter of `i` leaves, the leaves `i .. i+m-1` end with a
counter of `i + m` leaves, or at `goto invalidsolution` when `A` allows it. -/
theorem leafLoop_spec
    (hleaf : ∀ i < 2 ^ p.K,
      Q 0 i ((leafCandidates (P.getD i 0) p.indexLength).map (fullStepRow p base))) :
    ∀ m i X hashLen lenIndices, i + m ≤ 2 ^ p.K → Counter Q i X →
      (0 < i → LastLevel p i hashLen lenIndices) →
      Ensures cancelled (LeavesDone p Q A (i + m))
        (leafLoop p base srt cancelled P m i X hashLen lenIndices)
  | 0, i, X, hashLen, lenIndices, _, hX, hl => ensures_pure ⟨hX, hl⟩
  | m + 1, i, X, hashLen, lenIndices, hm, hX, _ => by
    unfold leafLoop
    refine ensures_bind ((ensures_emplaceRows ..).mono fun icv hicv => ensures_bind ?_)
    have hc : Ensures cancelled (LeavesDone p Q A (i + 1))
        (carryUp p srt cancelled P (p.K + 1) 0 X icv
          (p.expandedHashLength - 0 * p.collisionByteLength) (4 * 2 ^ 0) (i + 1 - 2 ^ 0)) :=
      carryUp_spec hne hmerge (p.K + 1) 0 X icv i (Nat.zero_add _) (by omega)
        (hX.carryState (hicv ▸ hleaf i (by omega)))
    simp only [Nat.zero_mul, Nat.sub_zero, pow_zero, Nat.mul_one, Nat.add_sub_cancel] at hc
    refine hc.mono fun c hcd => ?_
    match c, hcd with
    | .stored X' h' l', ⟨hX', hl'⟩ =>
      refine ensures_check _ ?_
      rw [show i + (m + 1) = i + 1 + m by omega]
      exact leafLoop_spec hleaf m (i + 1) X' h' l' (by omega) hX' hl'
    | .invalid, hA => exact ensures_pure hA

/-- **Phase B.** For one partial solution, Phase B ends at `goto invalidsolution`
when `A` allows it, or returns the histories of rows meeting `Q K 0`, read with
the `hashLen` and `lenIndices` of level `K`. -/
theorem cullPartial_spec
    (hleaf : ∀ i < 2 ^ p.K,
      Q 0 i ((leafCandidates (P.getD i 0) p.indexLength).map (fullStepRow p base))) :
    Ensures cancelled (fun c => (c = .invalid ∧ A) ∨ ∃ rows, Q p.K 0 rows ∧
      c = .solutions (rows.map fun row => getIndices row
        (p.expandedHashLength - p.K * p.collisionByteLength) (4 * 2 ^ p.K)))
      (cullPartial p base srt cancelled P) := by
  unfold cullPartial
  refine ensures_bind ((leafLoop_spec hne hmerge hleaf p.solnSize 0 [] _ _ (by
    rw [Nat.zero_add]; rfl) counter_nil
    (fun h => absurd h (Nat.lt_irrefl 0))).mono fun c hc => ?_)
  rw [Nat.zero_add] at hc
  match c, hc with
  | .stored X h' l', ⟨hX, hl⟩ =>
    obtain ⟨t, ht, -, rfl, rfl⟩ := hl (Nat.two_pow_pos _)
    obtain rfl : t = p.K := by
      rw [Params.solnSize, Nat.testBit_two_pow] at ht; exact (of_decide_eq_true ht).symm
    have hlen : X.length = p.K + 1 := by rw [hX.length_eq, Params.solnSize, Nat.size_pow]
    have hocc := hX.occupied p.K
    rw [Params.solnSize, Nat.testBit_two_pow_self] at hocc
    obtain ⟨rows, hrows⟩ := Option.isSome_iff_exists.1 hocc
    have hQ := hX.rows p.K rows hrows
    rw [Params.solnSize, Nat.mod_eq_of_lt (Nat.pow_lt_pow_right (by omega) (by omega)),
      Nat.sub_self] at hQ
    dsimp only
    rw [if_pos hlen, hrows]
    exact ensures_check _ (ensures_pure (.inr ⟨rows, hQ, rfl⟩))
  | .invalid, hA => exact ensures_pure (.inl ⟨rfl, hA⟩)

end Leaves

/-! ## What Phase B builds -/

section Slots

variable (p : Params) (base : EhHashState) (P : List UInt8)

/-- What Phase B may hold for the subtree of height `r` from position `lo`: at
least one row, each the encoding of a good subtree whose every leaf is a
candidate of one of the positions `lo .. lo + 2^r - 1`. -/
def SlotRows (r lo : Nat) (rows : List (List UInt8)) : Prop :=
  rows ≠ [] ∧ ∀ row ∈ rows, ∃ σ, row = encodedRow p base r σ ∧ GoodSubtree p base r σ ∧
    ∀ x ∈ σ, ∃ q, lo ≤ q ∧ q < lo + 2 ^ r ∧ x ∈ leafCandidates (P.getD q 0) p.indexLength

variable {p base P}

theorem leafCandidates_ne_nil (t : UInt8) : leafCandidates t p.indexLength ≠ [] := by
  rw [leafCandidates, Ne, List.map_eq_nil_iff, List.range_eq_nil,
    recreateSize_toNat p.indexLength_ge p.indexLength_le]
  exact (Nat.two_pow_pos _).ne'

theorem slotRows_leaf (i : Nat) :
    SlotRows p base P 0 i ((leafCandidates (P.getD i 0) p.indexLength).map (fullStepRow p base)) := by
  refine ⟨by simpa using leafCandidates_ne_nil _, fun row hrow => ?_⟩
  obtain ⟨x, hx, rfl⟩ := List.mem_map.1 hrow
  have hx' := (mem_leafCandidates p.indexLength_ge p.indexLength_le _ x).1 hx
  refine ⟨[x], fullStepRow_eq_encodedRow x, ⟨rfl, ?_, fun h hh => absurd hh (Nat.not_lt_zero _)⟩,
    fun y hy => ⟨i, le_rfl, by simp, (List.mem_singleton.1 hy) ▸ hx⟩⟩
  simpa [Params.initSize] using hx'.1

theorem branchEmit_encodedRow_self {r : Nat} {σ : List UInt32} (hσ : σ.length = 2 ^ r)
    (ilen : Nat) (lt rt : UInt8) :
    branchEmit (p.expandedHashLength - r * p.collisionByteLength) (4 * 2 ^ r) p.collisionByteLength
      ilen lt rt (encodedRow p base r σ) (encodedRow p base r σ) = none := by
  obtain ⟨x, σ', rfl⟩ := List.exists_cons_of_ne_nil (ne_nil_of_length_two_pow hσ)
  rw [branchEmit, distinctIndices_encodedRow hσ hσ, if_neg]
  simp

/-- No row of two slots merges with itself. -/
theorem branchEmit_self_of_slotRows {r lo lo' : Nat} {ic Xr : List (List UInt8)}
    (hXr : SlotRows p base P r lo Xr) (hic : SlotRows p base P r lo' ic) (lt rt : UInt8) :
    ∀ a ∈ ic ++ Xr, branchEmit (p.expandedHashLength - r * p.collisionByteLength) (4 * 2 ^ r)
      p.collisionByteLength p.indexLength lt rt a a = none := fun a ha => by
  rcases List.mem_append.1 ha with ha | ha
  · obtain ⟨σ, rfl, hσ, -⟩ := hic.2 a ha
    exact branchEmit_encodedRow_self hσ.1 _ _ _
  · obtain ⟨σ, rfl, hσ, -⟩ := hXr.2 a ha
    exact branchEmit_encodedRow_self hσ.1 _ _ _

/-- **Merge.** What `CollideBranches` makes of the rows of two adjacent subtrees
of height `r < K` is empty, or rows of the subtree of height `r + 1` over both
position ranges. -/
theorem slotRows_merge (srt : RowSort) {r lo : Nat} (hr : r < p.K) {ic Xr : List (List UInt8)}
    (hXr : SlotRows p base P r lo Xr) (hic : SlotRows p base P r (lo + 2 ^ r) ic) (lt rt : UInt8) :
    SlotRows p base P (r + 1) lo (collideBranches
      (srt.sort (p.expandedHashLength - r * p.collisionByteLength) (ic ++ Xr))
      (p.expandedHashLength - r * p.collisionByteLength) (4 * 2 ^ r) p.collisionByteLength
      p.indexLength lt rt) ∨
    (collideBranches (srt.sort (p.expandedHashLength - r * p.collisionByteLength) (ic ++ Xr))
      (p.expandedHashLength - r * p.collisionByteLength) (4 * 2 ^ r) p.collisionByteLength
      p.indexLength lt rt = [] ∧ True) := by
  have hboth : ∀ a ∈ ic ++ Xr, ∃ σ, a = encodedRow p base r σ ∧ GoodSubtree p base r σ ∧
      ∀ x ∈ σ, ∃ q, lo ≤ q ∧ q < lo + 2 ^ (r + 1) ∧
        x ∈ leafCandidates (P.getD q 0) p.indexLength := fun a ha => by
    have h2 : 2 ^ (r + 1) = 2 ^ r + 2 ^ r := by rw [Nat.pow_succ]; omega
    rcases List.mem_append.1 ha with ha | ha
    · obtain ⟨σ, rfl, hσ, hq⟩ := hic.2 a ha
      exact ⟨σ, rfl, hσ, fun x hx => by
        obtain ⟨q, h1, h2', hq⟩ := hq x hx; exact ⟨q, by omega, by omega, hq⟩⟩
    · obtain ⟨σ, rfl, hσ, hq⟩ := hXr.2 a ha
      exact ⟨σ, rfl, hσ, fun x hx => by
        obtain ⟨q, h1, h2', hq⟩ := hq x hx; exact ⟨q, h1, by omega, hq⟩⟩
  by_cases hm : collideBranches (srt.sort (p.expandedHashLength - r * p.collisionByteLength)
      (ic ++ Xr)) (p.expandedHashLength - r * p.collisionByteLength) (4 * 2 ^ r)
      p.collisionByteLength p.indexLength lt rt = []
  · exact .inr ⟨hm, trivial⟩
  refine .inl ⟨hm, fun row hrow => ?_⟩
  have hc := collisionByteLength_le (p := p) (Nat.le_of_lt hr)
  rw [mem_collideBranches srt hc (branchEmit_self_of_slotRows hXr hic lt rt)] at hrow
  obtain ⟨a, ha, b, hb, hcol, he⟩ := hrow
  obtain ⟨σ, rfl, hσ, hσq⟩ := hboth a ha
  obtain ⟨τ, rfl, hτ, hτq⟩ := hboth b hb
  obtain ⟨hd, rfl⟩ := branchEmit_eq_some he
  rw [distinctIndices_encodedRow hσ.1 hτ.1] at hd
  rw [hasCollision_encodedRow _ _ hc, decide_eq_true_iff] at hcol
  refine ⟨joinOrdered σ τ, mergeRows_encodedRow hσ.1 hτ.1 r,
    (goodSubtree_succ _).2 ⟨σ, τ, hσ, hτ, hcol, of_decide_eq_true hd, rfl⟩, fun x hx => ?_⟩
  rcases mem_joinOrdered.1 hx with hx | hx
  · exact hσq x hx
  · exact hτq x hx

theorem slotRows_ne_nil {r lo : Nat} {rows : List (List UInt8)}
    (h : SlotRows p base P r lo rows) : rows ≠ [] := h.1

variable (srt : RowSort) (cancelled : EhSolverCancelCheck → Bool)

/-- The leaves of Phase B over `SlotRows`: never undefined behaviour. -/
theorem leafLoop_slotRows {n : Nat} (hn : n ≤ p.solnSize) :
    Ensures cancelled (LeavesDone p (SlotRows p base P) True n)
      (leafLoop p base srt cancelled P n 0 [] p.expandedHashLength 4) := by
  have h : Ensures cancelled (LeavesDone p (SlotRows p base P) True (0 + n))
      (leafLoop p base srt cancelled P n 0 [] p.expandedHashLength 4) :=
    leafLoop_spec (Q := SlotRows p base P) (fun _ _ _ => slotRows_ne_nil) (fun _ _ _ _ hr _ _ hXr hic =>
      slotRows_merge srt hr hXr hic _ _) (fun i _ => slotRows_leaf i) n 0 [] _ _
      (by rw [Nat.zero_add]; exact hn) counter_nil (fun h => absurd h (Nat.lt_irrefl 0))
  rwa [Nat.zero_add] at h

theorem cullPartial_slotRows :
    Ensures cancelled (fun c => c = .invalid ∨ ∃ rows, SlotRows p base P p.K 0 rows ∧
      c = .solutions (rows.map fun row => getIndices row
        (p.expandedHashLength - p.K * p.collisionByteLength) (4 * 2 ^ p.K)))
      (cullPartial p base srt cancelled P) :=
  (cullPartial_spec (Q := SlotRows p base P) (A := True) (fun _ _ _ => slotRows_ne_nil)
    (fun _ _ _ _ hr _ _ hXr hic => slotRows_merge srt hr hXr hic _ _)
    (fun i _ => slotRows_leaf i)).mono fun _ h =>
    h.imp (fun h => h.1) id

end Slots

/-! ## The carry states of a run -/

/-- The states Phase B's carry loop passes through for the partial solution `P`:
leaf `i`, level `r`, slot vector `X`, carried rows `ic`, `hashLen`, `lenIndices`
and `rti`. Leaf `i` enters at level 0 with the slot vector the leaf loop leaves
after leaves `0 .. i-1` and its candidate rows; an iteration of
`for (r = 0; r <= K; r++)` that goes on leads to the next level. -/
inductive CarryReaches (p : Params) (base : EhHashState) (srt : RowSort)
    (cancelled : EhSolverCancelCheck → Bool) (P : List UInt8) :
    Nat → Nat → List (Option (List (List UInt8))) → List (List UInt8) → Nat → Nat → Nat → Prop
  | leaf {i : Nat} {X : List (Option (List (List UInt8)))} {hashLen lenIndices : Nat}
      {icv : List (List UInt8)} : i < p.solnSize →
      leafLoop p base srt cancelled P i 0 [] p.expandedHashLength 4 =
        .ok (.stored X hashLen lenIndices) →
      emplaceRows cancelled .PartialGeneration (fullStepRow p base)
        (leafCandidates (P.getD i 0) p.indexLength) = .ok icv →
      CarryReaches p base srt cancelled P i 0 X icv p.expandedHashLength 4 i
  | next {i r : Nat} {X X' : List (Option (List (List UInt8)))} {ic ic' : List (List UInt8)}
      {hashLen lenIndices rti hashLen' lenIndices' rti' : Nat} :
      CarryReaches p base srt cancelled P i r X ic hashLen lenIndices rti → r ≤ p.K →
      carryStep p srt cancelled P r X ic hashLen lenIndices rti =
        .ok (.next X' ic' hashLen' lenIndices' rti') →
      CarryReaches p base srt cancelled P i (r + 1) X' ic' hashLen' lenIndices' rti'

section Reaches

variable {p : Params} {base : EhHashState} {srt : RowSort} {cancelled : EhSolverCancelCheck → Bool}
  {P : List UInt8} {i r : Nat} {X : List (Option (List (List UInt8)))} {ic : List (List UInt8)}
  {hashLen lenIndices rti : Nat}

/-- The leaf loop over `m + n` leaves is the loop over the first `m`, then, from
the slot vector they leave, the loop over the other `n`: so the slot vector the
first `i` leaves leave is the one the whole run reaches after them. -/
theorem leafLoop_add (n : Nat) : ∀ m i X hashLen lenIndices,
    leafLoop p base srt cancelled P (m + n) i X hashLen lenIndices =
      leafLoop p base srt cancelled P m i X hashLen lenIndices >>= fun c => match c with
        | .stored X' h' l' => leafLoop p base srt cancelled P n (i + m) X' h' l'
        | c => pure c
  | 0, i, X, h, l => by rw [Nat.zero_add, leafLoop]; rfl
  | m + 1, i, X, h, l => by
    rw [Nat.add_right_comm, leafLoop, leafLoop]
    rcases emplaceRows cancelled .PartialGeneration (fullStepRow p base)
      (leafCandidates (P.getD i 0) p.indexLength) with _ | icv
    · rfl
    simp only [bind, Except.bind]
    rcases carryUp p srt cancelled P (p.K + 1) 0 X icv p.expandedHashLength 4 i with
      _ | ⟨X', h', l'⟩ | _ | _
    case ok.stored =>
      simp only [check]
      split
      · rfl
      · rw [leafLoop_add n m (i + 1), show i + (m + 1) = i + 1 + m by omega]
        rfl
    all_goals rfl

/-- Every carry state is a call the carry chain of its leaf makes: the chain
from the slot vector the first `i` leaves leave is the call at the state. -/
theorem CarryReaches.call (h : CarryReaches p base srt cancelled P i r X ic hashLen lenIndices rti) :
    r ≤ p.K + 1 ∧ ∃ X0 h0 l0 icv,
      leafLoop p base srt cancelled P i 0 [] p.expandedHashLength 4 = .ok (.stored X0 h0 l0) ∧
      emplaceRows cancelled .PartialGeneration (fullStepRow p base)
        (leafCandidates (P.getD i 0) p.indexLength) = .ok icv ∧
      carryUp p srt cancelled P (p.K + 1) 0 X0 icv p.expandedHashLength 4 i =
        carryUp p srt cancelled P (p.K + 1 - r) r X ic hashLen lenIndices rti := by
  induction h with
  | leaf _ hl he => exact ⟨Nat.zero_le _, _, _, _, _, hl, he, rfl⟩
  | @next r _ _ _ _ _ _ _ _ _ _ _ hrK hstep ih =>
    obtain ⟨-, X0, h0, l0, icv, hl, he, e⟩ := ih
    refine ⟨by omega, X0, h0, l0, icv, hl, he, ?_⟩
    rw [e, show p.K + 1 - r = p.K - r + 1 by omega, carryUp, hstep,
      show p.K - r = p.K + 1 - (r + 1) by omega]
    rfl

/-- **Carry invariant.** Every carry state is a carry state of its leaf `i < 2^K`
over `SlotRows`, at `rti = i + 1 - 2^r` and the `hashLen` and `lenIndices` of
level `r`. -/
theorem CarryReaches.carryState (h : CarryReaches p base srt cancelled P i r X ic hashLen lenIndices rti) :
    CarryState (SlotRows p base P) i r X ic ∧ i < 2 ^ p.K ∧ rti = i + 1 - 2 ^ r ∧
      hashLen = p.expandedHashLength - r * p.collisionByteLength ∧ lenIndices = 4 * 2 ^ r := by
  induction h with
  | @leaf X _ _ icv hi hl he =>
    have hc : Ensures cancelled (LeavesDone p (SlotRows p base P) True i) (.ok (.stored X _ _)) :=
      hl ▸ leafLoop_slotRows srt cancelled hi.le
    have hicv : Ensures cancelled (· = (leafCandidates (P.getD i 0) p.indexLength).map
        (fullStepRow p base)) (.ok icv) := he ▸ ensures_emplaceRows ..
    exact ⟨hc.1.carryState (hicv ▸ slotRows_leaf i), hi, by simp, by simp, by simp⟩
  | @next r X X' ic ic' _ _ _ _ _ _ _ _ hstep ih =>
    obtain ⟨hc, hi, rfl, rfl, rfl⟩ := ih
    have hs : Ensures cancelled (StepDone p (SlotRows p base P) True i r)
        (.ok (.next X' ic' _ _ _)) := hstep ▸ carryStep_spec (Q := SlotRows p base P) (A := True)
      (fun _ _ _ => slotRows_ne_nil) (fun _ _ _ _ hr _ _ hXr hic => slotRows_merge srt hr hXr hic _ _)
      hi hc
    obtain ⟨hc', rfl, rfl, rfl⟩ := hs
    exact ⟨hc', hi, rfl, rfl, rfl⟩

end Reaches

/-- **Binary counter.** For every partial solution and every probe: after
leaves `0 .. n-1` without `goto invalidsolution`, slot `X[r]` is occupied iff bit
`r` of `n` is set, and its rows are good subtrees whose leaves are candidates of
the positions from `n - n % 2^(r+1)` on; at every merge of the run, at level `r`
of leaf `i`, bit `r` of `i` is set, `rti = i + 1 - 2^r ≥ 2^r` (so
`lti = rti - 2^r` does not wrap), the slot's rows come from the positions
`[lti, lti + 2^r)` and the carried rows from `[rti, rti + 2^r)`, and the list
handed to `CollideBranches` has at least two rows; after the last leaf `X` has
`K + 1` slots of which only `X[K]` is occupied; and Phase B never meets undefined
behaviour, reading `2^K` indices from each row of `X[K]`. -/
theorem phaseB_binary_counter (p : Params) (base : EhHashState) (srt : RowSort)
    (cancelled : EhSolverCancelCheck → Bool) (P : List UInt8) :
    (∀ n ≤ p.solnSize, Ensures cancelled (fun c => c = .invalid ∨ ∃ X hashLen lenIndices,
        c = .stored X hashLen lenIndices ∧ Counter (SlotRows p base P) n X)
      (leafLoop p base srt cancelled P n 0 [] p.expandedHashLength 4)) ∧
    (∀ i r X ic hashLen lenIndices rti Xr,
      CarryReaches p base srt cancelled P i r X ic hashLen lenIndices rti → X.getD r none = some Xr →
      i.testBit r = true ∧ rti = i + 1 - 2 ^ r ∧ 2 ^ r ≤ rti ∧
        SlotRows p base P r (rti - 2 ^ r) Xr ∧ SlotRows p base P r rti ic ∧
        2 ≤ (srt.sort hashLen (ic ++ Xr)).length) ∧
    Ensures cancelled (fun c => c = .invalid ∨ ∃ X hashLen lenIndices,
        c = .stored X hashLen lenIndices ∧ X.length = p.K + 1 ∧
          (∀ r < p.K, X.getD r none = none) ∧ ∃ rows, X.getD p.K none = some rows)
      (leafLoop p base srt cancelled P p.solnSize 0 [] p.expandedHashLength 4) ∧
    Ensures cancelled (fun c => c ≠ .undefined ∧
      ∀ found, c = .solutions found → ∀ s ∈ found, s.length = 2 ^ p.K)
      (cullPartial p base srt cancelled P) := by
  refine ⟨fun n hn => ?_, fun i r X ic h l rti Xr hreach hX => ?_, ?_, ?_⟩
  · refine (leafLoop_slotRows srt cancelled hn).mono fun c hc => ?_
    match c, hc with
    | .stored X h l, ⟨hX, _⟩ => exact .inr ⟨X, h, l, rfl, hX⟩
    | .invalid, _ => exact .inl rfl
  · obtain ⟨hc, -, rfl, -⟩ := hreach.carryState
    obtain ⟨hb, hrti, hstart⟩ := hc.merge hX
    have hXr := hc.rows r Xr hX
    rw [hstart, show i + 1 - 2 ^ (r + 1) = i + 1 - 2 ^ r - 2 ^ r by rw [Nat.pow_succ]; omega] at hXr
    refine ⟨hb, rfl, hrti, hXr, hc.carried, ?_⟩
    rw [(srt.perm _ _).length_eq, List.length_append]
    have := List.length_pos.2 hc.carried.1
    have := List.length_pos.2 hXr.1
    omega
  · refine (leafLoop_slotRows srt cancelled le_rfl).mono fun c hc => ?_
    match c, hc with
    | .stored X h l, ⟨hX, _⟩ =>
      refine .inr ⟨X, h, l, rfl, by rw [hX.length_eq, Params.solnSize, Nat.size_pow],
        fun r hr => ?_, ?_⟩
      · have := hX.occupied r
        rw [Params.solnSize, Nat.testBit_two_pow_of_ne (Nat.ne_of_gt hr)] at this
        exact Option.not_isSome_iff_eq_none.1 (by rw [this]; simp)
      · have := hX.occupied p.K
        rw [Params.solnSize, Nat.testBit_two_pow_self] at this
        exact Option.isSome_iff_exists.1 this
    | .invalid, _ => exact .inl rfl
  · refine (cullPartial_slotRows srt cancelled).mono fun c hc => ?_
    rcases hc with rfl | ⟨rows, ⟨-, hrows⟩, rfl⟩
    · exact ⟨nofun, fun _ h => nomatch h⟩
    · refine ⟨nofun, fun found hf s hs => ?_⟩
      cases hf
      obtain ⟨row, hrow, rfl⟩ := List.mem_map.1 hs
      obtain ⟨σ, rfl, hσ, -⟩ := hrows row hrow
      rw [getIndices_encodedRow p.K hσ.1]
      exact hσ.1

/-! ## What Phase B must build -/

section Rebuild

variable (p : Params) (base : EhHashState)

/-- What Phase B needs at a node whose children have leaves `L` and `R` in position
order, of height `r`: their ordered subtrees collide on block `r + 1` and share
no seed, and each starts with a seed truncating as the first position of its
child, the value `IsValidBranch` compares with. -/
def NodeRebuilds (r : Nat) (L R : List UInt32) : Prop :=
  ZeroPrefix ((hashXor p base (orderedTree r L ++ orderedTree r R)).drop
    (r * p.collisionByteLength)) p.collisionByteLength ∧
  (∀ x ∈ orderedTree r L, x ∉ orderedTree r R) ∧
  truncateIndex ((orderedTree r L).headD 0) p.indexLength =
    truncateIndex (L.headD 0) p.indexLength ∧
  truncateIndex ((orderedTree r R).headD 0) p.indexLength =
    truncateIndex (R.headD 0) p.indexLength

instance (r : Nat) (L R : List UInt32) : Decidable (NodeRebuilds p base r L R) :=
  inferInstanceAs (Decidable (_ ∧ _ ∧ _ ∧ _))

/-- Seeds `ρ`, one per position of a partial solution, that Phase B rebuilds:
`2^K` seeds below `InitialListSize` with every node as `NodeRebuilds` needs. -/
def Rebuilds (ρ : List UInt32) : Prop :=
  ρ.length = 2 ^ p.K ∧ (∀ x ∈ ρ, x.toNat < p.initSize) ∧ AllNodes (NodeRebuilds p base) p.K ρ

instance (ρ : List UInt32) : Decidable (Rebuilds p base ρ) :=
  inferInstanceAs (Decidable (_ ∧ _ ∧ _))

/-- What Phase B must hold for the subtree of height `r` from position `lo` of
`ρ`: rows `SlotRows` allows, among them the encoding of the ordered subtree. -/
def SlotHas (ρ : List UInt32) (r lo : Nat) (rows : List (List UInt8)) : Prop :=
  SlotRows p base (truncateIndices ρ p.indexLength) r lo rows ∧
    encodedRow p base r (orderedTree r ((ρ.drop lo).take (2 ^ r))) ∈ rows

theorem arrayToEhIndex_indexBytes {σ : List UInt32} (hσ : σ ≠ []) :
    arrayToEhIndex (indexBytes σ) = σ.headD 0 := by
  obtain ⟨x, σ', rfl⟩ := List.exists_cons_of_ne_nil hσ
  rw [indexBytes_cons, arrayToEhIndex_append, List.headD_cons]

/-- A row encoding `σ` passes `IsValidBranch` against the truncation of position
`j` of `ρ` when its first seed truncates as the seed there. -/
theorem isValidBranch_encodedRow {p : Params} {base : EhHashState} {ρ σ : List UInt32} {r j : Nat}
    (hσ : σ.length = 2 ^ r) (hj : j < ρ.length)
    (ht : truncateIndex (σ.headD 0) p.indexLength = truncateIndex (ρ.getD j 0) p.indexLength) :
    isValidBranch (encodedRow p base r σ) (p.expandedHashLength - r * p.collisionByteLength)
      p.indexLength ((truncateIndices ρ p.indexLength).getD j 0) = true := by
  rw [isValidBranch, drop_encodedRow, arrayToEhIndex_indexBytes (ne_nil_of_length_two_pow hσ), ht]
  simp [truncateIndices, hj]

variable {p base} {ρ : List UInt32} (hρ : Rebuilds p base ρ)
include hρ

theorem slotHas_leaf {i : Nat} (hi : i < 2 ^ p.K) :
    SlotHas p base ρ 0 i ((leafCandidates ((truncateIndices ρ p.indexLength).getD i 0)
      p.indexLength).map (fullStepRow p base)) := by
  have hi' : i < ρ.length := hρ.1 ▸ hi
  refine ⟨slotRows_leaf i, ?_⟩
  rw [List.drop_eq_getElem_cons hi', pow_zero]
  show encodedRow p base 0 [ρ[i]] ∈ _
  rw [← fullStepRow_eq_encodedRow]
  refine List.mem_map_of_mem _ ((mem_leafCandidates p.indexLength_ge p.indexLength_le _ _).2
    ⟨hρ.2.1 _ (List.getElem_mem _), ?_⟩)
  rw [truncateIndices, List.getD_eq_getElem _ _ (by simpa using hi'), List.getElem_map]

/-- **Rebuilding merge.** At a node of `ρ`, `CollideBranches` on rows holding the
encodings of the two ordered children returns rows holding their ordered
parent's. -/
theorem slotHas_merge (srt : RowSort) {r lo : Nat} (hr : r < p.K) (hdvd : 2 ^ (r + 1) ∣ lo)
    (hlo : lo + 2 ^ (r + 1) ≤ 2 ^ p.K) {ic Xr : List (List UInt8)}
    (hXr : SlotHas p base ρ r lo Xr) (hic : SlotHas p base ρ r (lo + 2 ^ r) ic) :
    SlotHas p base ρ (r + 1) lo (collideBranches
      (srt.sort (p.expandedHashLength - r * p.collisionByteLength) (ic ++ Xr))
      (p.expandedHashLength - r * p.collisionByteLength) (4 * 2 ^ r) p.collisionByteLength
      p.indexLength ((truncateIndices ρ p.indexLength).getD lo 0)
      ((truncateIndices ρ p.indexLength).getD (lo + 2 ^ r) 0)) ∨
    (collideBranches (srt.sort (p.expandedHashLength - r * p.collisionByteLength) (ic ++ Xr))
      (p.expandedHashLength - r * p.collisionByteLength) (4 * 2 ^ r) p.collisionByteLength
      p.indexLength ((truncateIndices ρ p.indexLength).getD lo 0)
      ((truncateIndices ρ p.indexLength).getD (lo + 2 ^ r) 0) = [] ∧ False) := by
  obtain ⟨G, rfl⟩ := hdvd
  rw [Nat.mul_comm (2 ^ (r + 1)) G] at hlo hXr hic ⊢
  have hG : G < 2 ^ (p.K - (r + 1)) := by
    rw [← Nat.pow_sub_mul_pow 2 (show r + 1 ≤ p.K by omega), ← Nat.add_one_mul] at hlo
    exact Nat.le_of_mul_le_mul_right hlo (Nat.two_pow_pos _)
  have hL : (ρ.drop (G * 2 ^ (r + 1))).take (2 ^ r) = subtree ρ r (2 * G) := by
    rw [subtree, show 2 * G * 2 ^ r = G * 2 ^ (r + 1) by ring]
  have hR : (ρ.drop (G * 2 ^ (r + 1) + 2 ^ r)).take (2 ^ r) = subtree ρ r (2 * G + 1) := by
    rw [subtree, show (2 * G + 1) * 2 ^ r = G * 2 ^ (r + 1) + 2 ^ r by ring]
  have hlenL := length_subtree hρ.1 hr.le (show 2 * G < 2 ^ (p.K - r) by
    rw [two_pow_sub_succ hr]; omega)
  have hlenR := length_subtree hρ.1 hr.le (show 2 * G + 1 < 2 ^ (p.K - r) by
    rw [two_pow_sub_succ hr]; omega)
  have hbound : G * 2 ^ (r + 1) + 2 ^ r < ρ.length := by
    rw [hρ.1]; rw [Nat.pow_succ] at hlo ⊢; have := Nat.two_pow_pos r; omega
  obtain ⟨⟨_, hsL⟩, ⟨_, hsR⟩⟩ := children_eq_cons 0 hρ.1 hr hG
  obtain ⟨hz, hd, htL, htR⟩ := hρ.2.2 r hr G hG
  set oL := orderedTree r (subtree ρ r (2 * G))
  set oR := orderedTree r (subtree ρ r (2 * G + 1))
  rw [hsL, List.headD_cons] at htL
  rw [hsR, List.headD_cons] at htR
  have hoL : oL.length = 2 ^ r := (perm_orderedTree _ _).length_eq.trans hlenL
  have hoR : oR.length = 2 ^ r := (perm_orderedTree _ _).length_eq.trans hlenR
  have hc := collisionByteLength_le (p := p) hr.le
  have hmem : encodedRow p base (r + 1) (orderedTree (r + 1) (subtree ρ (r + 1) G)) ∈ collideBranches
      (srt.sort (p.expandedHashLength - r * p.collisionByteLength) (ic ++ Xr))
      (p.expandedHashLength - r * p.collisionByteLength) (4 * 2 ^ r) p.collisionByteLength
      p.indexLength ((truncateIndices ρ p.indexLength).getD (G * 2 ^ (r + 1)) 0)
      ((truncateIndices ρ p.indexLength).getD (G * 2 ^ (r + 1) + 2 ^ r) 0) := by
    rw [mem_collideBranches srt hc (branchEmit_self_of_slotRows hXr.1 hic.1 _ _)]
    refine ⟨_, List.mem_append_right _ (hL ▸ hXr.2), _, List.mem_append_left _ (hR ▸ hic.2),
      by rw [hasCollision_encodedRow _ _ hc]; exact decide_eq_true hz, ?_⟩
    rw [branchEmit_of_valid (by rw [distinctIndices_encodedRow hoL hoR]; exact decide_eq_true hd)
      (isValidBranch_encodedRow hoL ((Nat.le_add_right _ _).trans_lt hbound) htL) (isValidBranch_encodedRow hoR hbound htR),
      mergeRows_encodedRow hoL hoR, subtree_succ, orderedTree_append hlenL]
  rcases slotRows_merge srt hr hXr.1 hic.1 _ _ with hs | ⟨h0, -⟩
  · exact .inl ⟨hs, hmem⟩
  · rw [h0] at hmem; cases hmem

/-- **Phase B rebuilds.** Run on the truncations of seeds it rebuilds, Phase B
returns their ordered tree among its solutions, whatever the sort. -/
theorem cullPartial_rebuilds (srt : RowSort) (cancelled : EhSolverCancelCheck → Bool) :
    Ensures cancelled (fun c => ∃ found, c = .solutions found ∧ orderedTree p.K ρ ∈ found)
      (cullPartial p base srt cancelled (truncateIndices ρ p.indexLength)) := by
  refine (cullPartial_spec (Q := SlotHas p base ρ) (A := False) (fun _ _ _ h => h.1.1)
    (fun _ _ _ _ hr hdvd hlo hXr hic => slotHas_merge hρ srt hr hdvd hlo hXr hic)
    (fun _ hi => slotHas_leaf hρ hi)).mono fun c h => ?_
  obtain ⟨-, ⟨⟩⟩ | ⟨rows, ⟨-, hmem⟩, rfl⟩ := h
  refine ⟨_, rfl, List.mem_map.2 ⟨_, hmem, ?_⟩⟩
  rw [List.drop_zero, List.take_of_length_le (by rw [hρ.1]),
    getIndices_encodedRow p.K ((perm_orderedTree _ _).length_eq.trans hρ.1)]

end Rebuild
/-! ## The rows of both solvers -/

/-- **Row invariant.** For every probe: every row of `BasicSolve`'s table after
`r ≤ K - 1` rounds, every row of a slot `X[r]` of Phase B after any prefix of the
leaves, and every row of the list `ic` at every state of the carry loop, at level
`r` after its `r`-th merge, meets I1 to I3 at its level. -/
theorem rows_invariant (p : Params) (base : EhHashState) (srt : RowSort)
    (cancelled : EhSolverCancelCheck → Bool) (P : List UInt8) :
    (∀ r ≤ p.K - 1, Ensures cancelled (fun st => ∀ row ∈ st.1, RowInvariant p base r row)
      (basicTable p base srt cancelled r)) ∧
    (∀ n ≤ p.solnSize, Ensures cancelled (fun c => ∀ X hashLen lenIndices,
        c = .stored X hashLen lenIndices → ∀ r rows, X.getD r none = some rows →
          ∀ row ∈ rows, RowInvariant p base r row)
      (leafLoop p base srt cancelled P n 0 [] p.expandedHashLength 4)) ∧
    (∀ i r X ic hashLen lenIndices rti,
      CarryReaches p base srt cancelled P i r X ic hashLen lenIndices rti →
        ∀ row ∈ ic, RowInvariant p base r row) := by
  have hslot : ∀ r lo rows, SlotRows p base P r lo rows → ∀ row ∈ rows,
      RowInvariant p base r row := fun r lo rows h row hrow => by
    obtain ⟨σ, rfl, hσ, -⟩ := h.2 row hrow
    exact rowInvariant_encodedRow hσ.1 hσ.2.2
  refine ⟨fun r hr => (ensures_basicTable srt cancelled hr).mono fun st hst row hrow => ?_,
    fun n hn => (leafLoop_slotRows srt cancelled hn).mono fun c hc => ?_,
    fun i r X ic _ _ _ h => hslot r _ ic h.carryState.1.carried⟩
  · obtain ⟨σ, hσ, rfl⟩ := (hst.1 row).1 hrow
    exact rowInvariant_encodedRow hσ.1 hσ.2.2
  · rintro X h l rfl r rows hrows
    exact hslot r _ rows (hc.1.rows r rows hrows)

end Equihash
