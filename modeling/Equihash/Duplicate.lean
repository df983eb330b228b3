import Mathlib.Algebra.Group.Nat.Even
import Mathlib.Data.List.Count
import Mathlib.Data.List.Perm.Basic

/-! `IsProbablyDuplicate`, the filter the optimised solver applies to truncated
merges: pair each unpaired position with the first later unpaired position
holding the same byte, then report whether every position was paired.

* `isProbablyDuplicate_iff`: on every byte sequence the greedy pairing succeeds
  exactly when every byte value occurs an even number of times, that is, when
  the positions can be perfectly paired by equal values.

The source's loops over the `checked_index` array are run against `greedy`,
the same pairing on the flagged suffix from each position (`fold_drop`); the
success of `greedy` is a count argument (`greedy_all`).
-/

namespace Equihash

/-- The inner loop at position `z`: the first `y` in `(z, lenIndices)` whose flag
is clear and whose byte equals the byte at `z`. -/
def pairFor (indices : List UInt8) (checked : List Bool) (lenIndices z : Nat) : Option Nat :=
  (List.range' (z + 1) (lenIndices - (z + 1))).find? fun y =>
    !checked.getD y false && indices.getD z 0 == indices.getD y 0

/-- One pass of the outer loop: an unpaired position and its `pairFor` partner
are both marked. -/
def checkPosition (indices : List UInt8) (lenIndices : Nat) (checked : List Bool) (z : Nat) :
    List Bool :=
  if checked.getD z false then checked
  else match pairFor indices checked lenIndices z with
    | some y => (checked.set y true).set z true
    | none => checked

/-- `IsProbablyDuplicate(indices, lenIndices)`. -/
def isProbablyDuplicate (indices : List UInt8) (lenIndices : Nat) : Bool :=
  let checked := (List.range lenIndices).foldl (checkPosition indices lenIndices)
    (List.replicate lenIndices false)
  (List.range lenIndices).all fun z => checked.getD z false

/-! ## The pairing on flagged suffixes -/

/-- Flag the first unflagged entry holding `v`. -/
def flagFirst (v : UInt8) : List (UInt8 × Bool) → List (UInt8 × Bool)
  | [] => []
  | (w, c) :: rest => if !c && v == w then (w, true) :: rest else (w, c) :: flagFirst v rest

/-- Entries holding `w` that are not yet flagged. -/
def unflagged (w : UInt8) (l : List (UInt8 × Bool)) : Nat :=
  l.countP fun e => !e.2 && w == e.1

@[simp] theorem length_flagFirst (v : UInt8) (l : List (UInt8 × Bool)) :
    (flagFirst v l).length = l.length := by
  induction l with
  | nil => rfl
  | cons e rest ih => unfold flagFirst; split <;> simp [ih]

/-- The greedy pairing from one position on: the flags it leaves. -/
def greedy : List (UInt8 × Bool) → List Bool
  | [] => []
  | (v, c) :: rest =>
    if c then true :: greedy rest
    else if unflagged v rest = 0 then false :: greedy rest
    else true :: greedy (flagFirst v rest)
termination_by l => l.length
decreasing_by all_goals simp_wf

theorem unflagged_cons (w v : UInt8) (c : Bool) (l : List (UInt8 × Bool)) :
    unflagged w ((v, c) :: l) = unflagged w l + if !c && w == v then 1 else 0 := by
  simp [unflagged, List.countP_cons]

theorem unflagged_flagFirst {v : UInt8} {l : List (UInt8 × Bool)} (h : unflagged v l ≠ 0)
    (w : UInt8) : unflagged w l = unflagged w (flagFirst v l) + if w = v then 1 else 0 := by
  induction l with
  | nil => simp [unflagged] at h
  | cons e rest ih =>
    obtain ⟨u, c⟩ := e
    unfold flagFirst
    split
    · rename_i hc
      simp only [Bool.and_eq_true, Bool.not_eq_true', beq_iff_eq] at hc
      obtain ⟨rfl, rfl⟩ := hc
      simp [unflagged_cons]
    · rename_i hc
      rw [unflagged_cons, if_neg hc] at h
      rw [unflagged_cons, unflagged_cons, ih (by simpa using h)]
      by_cases hw : w = v
      · subst hw; rw [if_neg hc, if_pos rfl]
      · simp only [hw, if_false]; omega

/-- The greedy pairing flags everything exactly when every byte value has an even
number of unflagged entries. -/
theorem greedy_all (l : List (UInt8 × Bool)) :
    (greedy l).all id = true ↔ ∀ w, Even (unflagged w l) := by
  induction l using greedy.induct with
  | case1 => simp [greedy, unflagged]
  | case2 v rest ih =>
    rw [greedy, if_pos rfl, List.all_cons, id, Bool.true_and, ih]
    simp [unflagged_cons]
  | case3 v c rest hc h0 ih =>
    rw [greedy, if_neg hc, if_pos h0]
    simp only [List.all_cons, id, Bool.false_and, Bool.false_eq_true, false_iff, not_forall]
    refine ⟨v, ?_⟩
    simp [unflagged_cons, h0, hc]
  | case4 v c rest hc h0 ih =>
    rw [greedy, if_neg hc, if_neg h0, List.all_cons, id, Bool.true_and, ih]
    refine forall_congr' fun w => ?_
    rw [unflagged_cons, unflagged_flagFirst h0 w]
    by_cases hw : w = v <;> simp [hw, hc, Nat.even_add_one]

/-! ## The source's loops run the pairing -/

section Loops

variable (indices : List UInt8)

/-- The outer loop from position `k` on. -/
def foldFrom (k : Nat) (checked : List Bool) : List Bool :=
  (List.range' k (indices.length - k)).foldl (checkPosition indices indices.length) checked

theorem length_checkPosition (checked : List Bool) (z : Nat) :
    (checkPosition indices indices.length checked z).length = checked.length := by
  unfold checkPosition
  split
  · rfl
  · split <;> simp

theorem lt_of_pairFor {checked : List Bool} {z y : Nat}
    (h : pairFor indices checked indices.length z = some y) : z < y := by
  have := List.mem_of_find?_eq_some h
  rw [List.mem_range'_1] at this
  omega

theorem checkPosition_getD_lt (checked : List Bool) {z q : Nat} (hq : q < z) :
    (checkPosition indices indices.length checked z).getD q false = checked.getD q false := by
  unfold checkPosition
  split
  · rfl
  · split
    · rename_i y hy
      have := lt_of_pairFor indices hy
      simp only [List.getD_eq_getElem?_getD, List.getElem?_set]
      rw [if_neg (by omega), if_neg (by omega)]
    · rfl

theorem foldFrom_succ {k : Nat} (hk : k < indices.length) (checked : List Bool) :
    foldFrom indices k checked =
      foldFrom indices (k + 1) (checkPosition indices indices.length checked k) := by
  rw [foldFrom, show indices.length - k = (indices.length - (k + 1)) + 1 by omega,
    List.range'_succ, List.foldl_cons]
  rfl

theorem length_foldFrom (k : Nat) (checked : List Bool) :
    (foldFrom indices k checked).length = checked.length := by
  unfold foldFrom
  induction List.range' k (indices.length - k) generalizing checked with
  | nil => rfl
  | cons z zs ih => rw [List.foldl_cons, ih, length_checkPosition]

theorem foldFrom_getD_lt {k q : Nat} (hq : q < k) (checked : List Bool) :
    (foldFrom indices k checked).getD q false = checked.getD q false := by
  obtain ⟨n, hn⟩ : ∃ n, indices.length - k = n := ⟨_, rfl⟩
  induction n generalizing k checked with
  | zero => rw [foldFrom, hn]; rfl
  | succ n ih =>
    rw [foldFrom_succ indices (by omega), ih (by omega) _ (by omega),
      checkPosition_getD_lt indices _ hq]


/-- The flagged suffix of `indices` from position `j` under the flags `checked`. -/
def flaggedFrom (checked : List Bool) (j : Nat) : List (UInt8 × Bool) :=
  (indices.drop j).zip (checked.drop j)

theorem drop_getD_cons {α : Type} {l : List α} {k : Nat} (d : α) (h : k < l.length) :
    l.drop k = l.getD k d :: l.drop (k + 1) := by
  rw [List.drop_eq_getElem_cons h, List.getD_eq_getElem?_getD, List.getElem?_eq_getElem h]
  rfl

theorem flaggedFrom_succ {checked : List Bool} {j : Nat} (hj : j < indices.length)
    (hc : checked.length = indices.length) :
    flaggedFrom indices checked j =
      (indices.getD j 0, checked.getD j false) :: flaggedFrom indices checked (j + 1) := by
  rw [flaggedFrom, drop_getD_cons 0 hj, drop_getD_cons false (hc ▸ hj)]
  rfl

theorem flaggedFrom_set_lt {checked : List Bool} {j y : Nat} (hy : y < j) (b : Bool) :
    flaggedFrom indices (checked.set y b) j = flaggedFrom indices checked j := by
  rw [flaggedFrom, flaggedFrom, List.drop_set, if_pos hy]

/-- The inner loop's search from position `j` on is `flagFirst` on the flagged suffix. -/
theorem find?_flagFirst {checked : List Bool} (hc : checked.length = indices.length) (v : UInt8)
    (j : Nat) :
    match (List.range' j (indices.length - j)).find?
        (fun y => !checked.getD y false && v == indices.getD y 0) with
    | none => unflagged v (flaggedFrom indices checked j) = 0
    | some y => unflagged v (flaggedFrom indices checked j) ≠ 0 ∧ j ≤ y ∧
        flagFirst v (flaggedFrom indices checked j) = flaggedFrom indices (checked.set y true) j := by
  obtain ⟨n, hn⟩ : ∃ n, indices.length - j = n := ⟨_, rfl⟩
  induction n generalizing j with
  | zero =>
    have : flaggedFrom indices checked j = [] := by
      simp [flaggedFrom, List.drop_eq_nil_of_le (show indices.length ≤ j by omega)]
    rw [hn, this]
    rfl
  | succ n ih =>
    have hj : j < indices.length := by omega
    have hcs : (checked.set j true).length = indices.length := by simp [hc]
    rw [hn, List.range'_succ, List.find?_cons, flaggedFrom_succ indices hj hc]
    cases hp : (!checked.getD j false && v == indices.getD j 0)
    · have ih' := ih (j + 1) (by omega)
      rw [show indices.length - (j + 1) = n by omega] at ih'
      split at ih'
      · rename_i h
        rw [h]
        simp only [unflagged_cons, ih', hp, Bool.false_eq_true, if_false]
      · rename_i y h
        rw [h]
        obtain ⟨h0, hy, hf⟩ := ih'
        refine ⟨by simpa only [unflagged_cons, hp, Bool.false_eq_true, if_false, Nat.add_zero],
          by omega, ?_⟩
        rw [flaggedFrom_succ indices hj (by simp [hc]), flagFirst,
          if_neg (by simp only [hp, Bool.false_eq_true, not_false_eq_true]), hf]
        simp only [List.getD_eq_getElem?_getD, List.getElem?_set, if_neg (show y ≠ j by omega)]
    · refine ⟨by simp only [unflagged_cons, hp, if_true]; omega, le_refl j, ?_⟩
      rw [flaggedFrom_succ indices hj hcs, flagFirst, if_pos hp, flaggedFrom_set_lt indices
        (Nat.lt_succ_self j)]
      simp [List.getD_eq_getElem?_getD, List.getElem?_set, hj, hc]

/-- **Simulation.** From every position on, the source's outer loop leaves the
flags that `greedy` computes on the flagged suffix. -/
theorem foldFrom_drop {checked : List Bool} (hc : checked.length = indices.length) {k : Nat}
    (hk : k ≤ indices.length) :
    (foldFrom indices k checked).drop k = greedy (flaggedFrom indices checked k) := by
  obtain ⟨n, hn⟩ : ∃ n, indices.length - k = n := ⟨_, rfl⟩
  induction n generalizing k checked with
  | zero =>
    have hk' : k = indices.length := by omega
    subst hk'
    simp only [foldFrom, hn, List.range'_zero, List.foldl_nil, flaggedFrom, List.drop_length,
      List.drop_eq_nil_of_le (le_of_eq hc), List.zip_nil_left, greedy]
  | succ n ih =>
    have hk' : k < indices.length := by omega
    have hc' := (length_checkPosition indices checked k).trans hc
    rw [foldFrom_succ indices hk', drop_getD_cons false (by rw [length_foldFrom, hc']; exact hk'),
      ih hc' (by omega) (by omega), foldFrom_getD_lt indices (Nat.lt_succ_self k),
      flaggedFrom_succ indices hk' hc]
    have hf : match pairFor indices checked indices.length k with
        | none => unflagged (indices.getD k 0) (flaggedFrom indices checked (k + 1)) = 0
        | some y => unflagged (indices.getD k 0) (flaggedFrom indices checked (k + 1)) ≠ 0 ∧
            k + 1 ≤ y ∧ flagFirst (indices.getD k 0) (flaggedFrom indices checked (k + 1)) =
              flaggedFrom indices (checked.set y true) (k + 1) :=
      find?_flagFirst indices hc _ (k + 1)
    cases hck : checked.getD k false
    · cases hpf : pairFor indices checked indices.length k with
      | none =>
        rw [hpf] at hf
        simp only [checkPosition, hck, hpf, greedy, hf, Bool.false_eq_true, if_false, if_true]
      | some y =>
        rw [hpf] at hf
        obtain ⟨h0, hy, hff⟩ := hf
        simp only [checkPosition, hck, hpf, greedy, h0, hff, Bool.false_eq_true, if_false]
        rw [flaggedFrom_set_lt indices (Nat.lt_succ_self k)]
        simp [List.getD_eq_getElem?_getD, List.getElem?_set, hk', hc]
    · simp only [checkPosition, hck, greedy, if_true]

theorem all_range_getD {l : List Bool} {n : Nat} (hn : l.length = n) :
    ((List.range n).all fun z => l.getD z false) = l.all id := by
  subst hn
  rw [Bool.eq_iff_iff, List.all_eq_true, List.all_eq_true]
  constructor
  · intro h b hb
    obtain ⟨z, hz, rfl⟩ := List.getElem_of_mem hb
    simpa [List.getD_eq_getElem?_getD, List.getElem?_eq_getElem hz] using h z (List.mem_range.2 hz)
  · intro h z hz
    have hz' := List.mem_range.1 hz
    simpa [List.getD_eq_getElem?_getD, List.getElem?_eq_getElem hz'] using h _ (List.getElem_mem hz')

theorem unflagged_fresh (w : UInt8) (l : List UInt8) :
    unflagged w (l.zip (List.replicate l.length false)) = l.count w := by
  induction l with
  | nil => rfl
  | cons x l ih =>
    rw [List.length_cons, List.replicate_succ, List.zip_cons_cons, unflagged_cons, ih,
      List.count_cons]
    by_cases h : w = x
    · subst h; simp
    · simp [h, Ne.symm h]

end Loops

theorem isProbablyDuplicate_eq_greedy (indices : List UInt8) :
    isProbablyDuplicate indices indices.length =
      (greedy (indices.zip (List.replicate indices.length false))).all id := by
  have hlen : (List.replicate indices.length false).length = indices.length := by simp
  have h := foldFrom_drop indices hlen (Nat.zero_le _)
  rw [List.drop_zero, flaggedFrom, List.drop_zero, List.drop_zero] at h
  have hF : (List.range indices.length).foldl (checkPosition indices indices.length)
      (List.replicate indices.length false) = foldFrom indices 0 (List.replicate indices.length false) := by
    rw [foldFrom, Nat.sub_zero, List.range_eq_range']
  have hl := (length_foldFrom indices 0 (List.replicate indices.length false)).trans hlen
  simp only [isProbablyDuplicate, hF]
  rw [all_range_getD hl, h]

theorem count_flatMap_pairs (w : UInt8) (pairs : List UInt8) :
    (pairs.flatMap fun v => [v, v]).count w = 2 * pairs.count w := by
  induction pairs with
  | nil => rfl
  | cons x pairs ih =>
    rw [List.flatMap_cons, List.count_append, ih, List.count_cons, List.count_cons, List.count_cons,
      List.count_nil]
    split <;> omega

/-- Every byte value occurs an even number of times exactly when the positions can
be perfectly paired by equal values. -/
theorem even_counts_iff_pairing (l : List UInt8) :
    (∀ v : UInt8, Even (l.count v)) ↔ ∃ pairs : List UInt8, l.Perm (pairs.flatMap fun v => [v, v]) := by
  constructor
  · intro h
    obtain ⟨n, hn⟩ : ∃ n, l.length = n := ⟨_, rfl⟩
    induction n using Nat.strong_induction_on generalizing l with
    | _ n ih =>
      cases l with
      | nil => exact ⟨[], List.Perm.nil⟩
      | cons x rest =>
        have hx : x ∈ rest := by
          have := h x
          rw [List.count_cons_self, Nat.even_add_one] at this
          exact List.count_pos_iff.1 (Nat.pos_of_ne_zero fun h0 => this (h0 ▸ even_zero))
        have hrest := List.perm_cons_erase hx
        obtain ⟨pairs, hp⟩ := ih (rest.erase x).length (by simp at hn; rw [List.length_erase_of_mem hx]; omega)
          (rest.erase x) (fun v => by
            have hv := h v
            rw [List.count_cons] at hv
            rw [List.count_erase]
            by_cases hxv : x = v
            · subst hxv
              have : 0 < rest.count x := List.count_pos_iff.2 hx
              simp only [beq_self_eq_true, if_true] at hv ⊢
              rw [show rest.count x = rest.count x - 1 + 1 by omega, Nat.even_add_one] at hv
              rw [Nat.even_add_one] at hv
              simpa using hv
            · simpa [hxv] using hv) rfl
        exact ⟨x :: pairs, (hrest.cons x).trans ((hp.cons x).cons x)⟩
  · rintro ⟨pairs, hp⟩ v
    rw [hp.count_eq, count_flatMap_pairs]
    exact ⟨pairs.count v, by omega⟩

theorem isProbablyDuplicate_iff_even (indices : List UInt8) :
    isProbablyDuplicate indices indices.length = true ↔ ∀ v : UInt8, Even (indices.count v) := by
  rw [isProbablyDuplicate_eq_greedy, greedy_all]
  simp only [unflagged_fresh]

/-- **`IsProbablyDuplicate`.** On every byte sequence, the greedy pairing succeeds
exactly when every byte value occurs an even number of times, which is exactly
when the positions can be perfectly paired by equal values. -/
theorem isProbablyDuplicate_iff (indices : List UInt8) :
    (isProbablyDuplicate indices indices.length = true ↔ ∀ v : UInt8, Even (indices.count v)) ∧
    (isProbablyDuplicate indices indices.length = true ↔
      ∃ pairs : List UInt8, indices.Perm (pairs.flatMap fun v => [v, v])) :=
  ⟨isProbablyDuplicate_iff_even indices,
    (isProbablyDuplicate_iff_even indices).trans (even_counts_iff_pairing indices)⟩

end Equihash
