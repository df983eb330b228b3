import Equihash.Tree

/-! `Equihash<N,K>::IsValidSolution`.

The verifier rebuilds the full rows of the `2^K` seeds and merges them pairwise,
level by level, checking at each pair the collision on the next block, the order
of the two index histories and their distinctness; the last row must be zero.

* `isValidSolution_eq_isSolution`: the verifier answers, for every sequence,
  whether it is a valid solution, and rejects every solution with two sibling
  subtrees swapped;
* `isValidSolution_in_bounds`: on every sequence the loop pairs all rows of each
  level, so it never reads past the end of its table and its final assertion
  holds.
-/

namespace Equihash

/-- How one pass of `for (i = 0; i < X.size(); i += 2)` ends: with the merged
table, in a `return false`, or reading `X[i+1]` past the end of `X`. -/
inductive LevelOutcome
  | next (Xc : List (List UInt8))
  | reject
  | overrun
  deriving DecidableEq, Repr

/-- `Xc.emplace_back(m)` ahead of the rest of a level's merges. -/
def LevelOutcome.cons (m : List UInt8) : LevelOutcome → LevelOutcome
  | .next Xc => .next (m :: Xc)
  | r => r

/-- One level of the verifier on the rows `X`. -/
def pairLevel (hashLen lenIndices clen : Nat) : List (List UInt8) → LevelOutcome
  | [] => .next []
  | [_] => .overrun
  | a :: b :: X =>
    if !hasCollision a b clen then .reject
    else if indicesBefore b a hashLen lenIndices then .reject
    else if !distinctIndices a b hashLen lenIndices then .reject
    else (pairLevel hashLen lenIndices clen X).cons (fullStepRowMerge a b hashLen lenIndices clen)

theorem LevelOutcome.cons_eq_next {m : List UInt8} {o : LevelOutcome} {Xc : List (List UInt8)} :
    o.cons m = .next Xc ↔ ∃ Xc', o = .next Xc' ∧ Xc = m :: Xc' := by
  cases o <;> simp [LevelOutcome.cons, eq_comm]

theorem length_pairLevel {hashLen lenIndices clen : Nat} :
    ∀ {X Xc : List (List UInt8)}, pairLevel hashLen lenIndices clen X = .next Xc →
      X.length = 2 * Xc.length
  | [], _, h => by cases h; rfl
  | [_], _, h => by cases h
  | a :: b :: X, Xc, h => by
    simp only [pairLevel] at h
    split_ifs at h
    obtain ⟨Xc', hX, rfl⟩ := LevelOutcome.cons_eq_next.1 h
    simp [length_pairLevel hX]
    omega

/-- `assert(X.size() == 1); return X[0].IsZero(hashLen)`; `none` when the
assertion fails. -/
def finalCheck (hashLen : Nat) : List (List UInt8) → Option Bool
  | [row] => some (isZero row hashLen)
  | _ => none

/-- `while (X.size() > 1)`, then `assert(X.size() == 1); return X[0].IsZero(hashLen)`,
with `fuel` bounding the number of levels. `none` where the code's behaviour is
undefined: a read past the end of `X`, or a failed assertion. -/
def verifyLevels (clen : Nat) : Nat → Nat → Nat → List (List UInt8) → Option Bool
  | 0, _, _, _ => none
  | fuel + 1, hashLen, lenIndices, X =>
    if 1 < X.length then
      match pairLevel hashLen lenIndices clen X with
      | .next Xc => verifyLevels clen fuel (hashLen - clen) (lenIndices * 2) Xc
      | .reject => some false
      | .overrun => none
    else finalCheck hashLen X

/-- The verifier's loop on the table `X`. Every level halves the table, so
`X.size()` levels are enough; on an empty table the assertion fails, which is
what running out of fuel at once returns. -/
def verifyRows (clen hashLen lenIndices : Nat) (X : List (List UInt8)) : Option Bool :=
  verifyLevels clen X.length hashLen lenIndices X

/-- `Equihash<N,K>::IsValidSolution(base_state, soln)`. -/
def isValidSolution (p : Params) (base : EhHashState) (soln : List UInt32) : Option Bool :=
  if soln.length ≠ p.solnSize then some false
  else verifyRows p.collisionByteLength p.expandedHashLength 4 (soln.map (fullStepRow p base))

/-- The sequence with the two children of node `(h + 1, g)` exchanged. -/
def swapChildren {α : Type} (s : List α) (h g : Nat) : List α :=
  s.take (g * 2 ^ (h + 1)) ++ subtree s h (2 * g + 1) ++ subtree s h (2 * g) ++
    s.drop (g * 2 ^ (h + 1) + 2 ^ (h + 1))

/-! ## The verifier on a tree of seeds -/

section Levels

variable {p : Params} {base : EhHashState}

/-- **One pair.** On two encoded siblings of height `l < K` the verifier's checks
are `SiblingsOk`, and the merge is their parent. -/
theorem pairLevel_encoded {l : Nat} (hl : l < p.K) {σ τ : List UInt32} (hσ : σ.length = 2 ^ l)
    (hτ : τ.length = 2 ^ l) (X : List (List UInt8)) :
    pairLevel (p.expandedHashLength - l * p.collisionByteLength) (4 * 2 ^ l) p.collisionByteLength
      (encodedRow p base l σ :: encodedRow p base l τ :: X) =
    if SiblingsOk p base l σ τ then
      (pairLevel (p.expandedHashLength - l * p.collisionByteLength) (4 * 2 ^ l)
        p.collisionByteLength X).cons (encodedRow p base (l + 1) (σ ++ τ))
    else .reject := by
  rw [pairLevel, hasCollision_encodedRow _ _ (collisionByteLength_le (Nat.le_of_lt hl)),
    indicesBefore_encodedRow hτ hσ, distinctIndices_encodedRow hσ hτ, fullStepRowMerge_eq,
    mergeRows_encodedRow hσ hτ]
  by_cases hsib : SiblingsOk p base l σ τ
  · obtain ⟨hz, hd, hlex⟩ := hsib
    rw [joinOrdered, if_pos (lex_of_not_lex (ne_nil_of_length_two_pow hσ) (ne_nil_of_length_two_pow hτ) hd hlex),
      if_pos (show SiblingsOk p base l σ τ from ⟨hz, hd, hlex⟩)]
    simp only [decide_eq_true hz, decide_eq_true hd, decide_eq_false hlex, Bool.not_true,
      Bool.false_eq_true, if_false]
  · rw [if_neg hsib]
    split_ifs with h1 h2 h3 <;> try rfl
    simp only [Bool.not_eq_true', decide_eq_false_iff_not, not_not, decide_eq_true_eq] at h1 h2 h3
    exact absurd ⟨h1, h3, h2⟩ hsib

variable {s : List UInt32} (hs : s.length = 2 ^ p.K)
include hs

/-- **One level.** On the encoded subtrees `2·g0, …, 2·(g0 + n) - 1` of height
`l`, a level of the verifier merges each pair of siblings into its parent, or
rejects if a pair fails its checks. -/
theorem pairLevel_subtrees {l : Nat} (hl : l < p.K) (g0 n : Nat)
    (hn : g0 + n ≤ 2 ^ (p.K - (l + 1))) :
    pairLevel (p.expandedHashLength - l * p.collisionByteLength) (4 * 2 ^ l) p.collisionByteLength
      ((List.range' (2 * g0) (2 * n)).map fun j => encodedRow p base l (subtree s l j)) =
    if ∀ g ∈ List.range' g0 n, SiblingsOk p base l (subtree s l (2 * g)) (subtree s l (2 * g + 1))
    then .next ((List.range' g0 n).map fun g => encodedRow p base (l + 1) (subtree s (l + 1) g))
    else .reject := by
  induction n generalizing g0 with
  | zero => simp [pairLevel]
  | succ n ih =>
    have hK := two_pow_sub_succ hl
    rw [show 2 * (n + 1) = 2 * n + 1 + 1 by ring, List.range'_succ, List.range'_succ,
      List.map_cons, List.map_cons,
      pairLevel_encoded hl (length_subtree hs (Nat.le_of_lt hl) (by omega))
        (length_subtree hs (Nat.le_of_lt hl) (by omega)),
      show 2 * g0 + 1 + 1 = 2 * (g0 + 1) by ring, ih (g0 + 1) (by omega), List.range'_succ]
    simp only [List.forall_mem_cons, List.map_cons, ← subtree_succ]
    by_cases hsib : SiblingsOk p base l (subtree s l (2 * g0)) (subtree s l (2 * g0 + 1))
    · by_cases hrest : ∀ g ∈ List.range' (g0 + 1) n,
          SiblingsOk p base l (subtree s l (2 * g)) (subtree s l (2 * g + 1))
      · rw [if_pos hsib, if_pos hrest, if_pos ⟨hsib, hrest⟩]; rfl
      · rw [if_pos hsib, if_neg hrest, if_neg fun h => hrest h.2]; rfl
    · rw [if_neg hsib, if_neg fun h => hsib h.1]

/-- **All levels.** From level `l` on, with enough fuel, the verifier accepts the
encoded subtrees of height `l` iff every pair of siblings from height `l` up
passes its checks and the root's last block is zero. -/
theorem verifyLevels_subtrees : ∀ d l fuel, l + d = p.K → 2 ^ (p.K - l) ≤ fuel →
    verifyLevels p.collisionByteLength fuel (p.expandedHashLength - l * p.collisionByteLength)
      (4 * 2 ^ l) ((List.range (2 ^ (p.K - l))).map fun g => encodedRow p base l (subtree s l g)) =
    some (decide ((∀ h, l ≤ h → h < p.K → ∀ g < 2 ^ (p.K - (h + 1)),
        SiblingsOk p base h (subtree s h (2 * g)) (subtree s h (2 * g + 1))) ∧
      ZeroPrefix ((hashXor p base s).drop (p.K * p.collisionByteLength)) p.collisionByteLength))
  | 0, l, fuel, hl, hf => by
    subst hl
    obtain ⟨f, rfl⟩ : ∃ f, fuel = f + 1 := ⟨fuel - 1, by simp at hf; omega⟩
    have hlast : p.expandedHashLength - p.K * p.collisionByteLength = p.collisionByteLength := by
      rw [Params.expandedHashLength, Nat.add_one_mul]; omega
    rw [Nat.sub_self, pow_zero, show List.range 1 = [0] from rfl, List.map_singleton, subtree_root hs,
      verifyLevels, if_neg (by simp), finalCheck, Option.some.injEq, Bool.eq_iff_iff, isZero_iff, decide_eq_true_iff]
    simp only [ZeroPrefix]
    rw [take_encodedRow s le_rfl, hlast]
    exact ⟨fun h => ⟨fun _ h1 h2 => absurd h2 (by omega), h⟩, fun h => h.2⟩
  | d + 1, l, fuel, hl, hf => by
    have hlK : l < p.K := by omega
    have hK := two_pow_sub_succ hlK
    have hpos := Nat.two_pow_pos (p.K - (l + 1))
    obtain ⟨f, rfl⟩ : ∃ f, fuel = f + 1 := ⟨fuel - 1, by omega⟩
    have hrange : List.range (2 ^ (p.K - l)) = List.range' (2 * 0) (2 * 2 ^ (p.K - (l + 1))) := by
      rw [List.range_eq_range', hK, Nat.mul_zero]
    rw [verifyLevels, if_pos (by rw [List.length_map, List.length_range, hK]; omega), hrange,
      pairLevel_subtrees hs hlK 0 _ (by omega)]
    split_ifs with hc
    · dsimp only
      rw [Nat.sub_sub, ← Nat.add_one_mul, show 4 * 2 ^ l * 2 = 4 * 2 ^ (l + 1) by ring,
        ← List.range_eq_range', verifyLevels_subtrees d (l + 1) f (by omega) (by omega)]
      congr 2
      refine propext ⟨fun ⟨h, hz⟩ => ⟨fun h' h1 h2 => ?_, hz⟩, fun ⟨h, hz⟩ =>
        ⟨fun h' h1 h2 => h h' (by omega) h2, hz⟩⟩
      rcases Nat.eq_or_lt_of_le h1 with rfl | h1
      · exact fun g hg => hc g (List.mem_range'_1.2 ⟨Nat.zero_le _, by omega⟩)
      · exact h h' h1 h2
    · rw [decide_eq_false fun ⟨h, _⟩ => hc fun g hg => h l le_rfl hlK g (by
        simpa using (List.mem_range'_1.1 hg).2)]

/-- The verifier's rows at level 0 are the encoded leaves. -/
theorem map_fullStepRow : s.map (fullStepRow p base) =
    (List.range (2 ^ (p.K - 0))).map fun g => encodedRow p base 0 (subtree s 0 g) := by
  refine List.ext_getElem (by simp [hs]) fun g h1 _ => ?_
  have hg : g < s.length := by simpa using h1
  rw [List.getElem_map, List.getElem_map, List.getElem_range, fullStepRow_eq_encodedRow, subtree,
    pow_zero, Nat.mul_one, List.drop_eq_getElem_cons hg]
  rfl

end Levels

/-! ## Swapped siblings -/

section Swap

variable {α : Type} {s : List α} {r h g : Nat} (d : α) (hs : s.length = 2 ^ r) (hh : h < r)
  (hg : g < 2 ^ (r - (h + 1)))
include hs hh hg

theorem length_take_swap : (s.take (g * 2 ^ (h + 1))).length = g * 2 ^ (h + 1) := by
  rw [List.length_take, hs, Nat.min_eq_left
    ((Nat.le_add_right _ _).trans (succ_mul_pow_le (show h + 1 ≤ r by omega) hg))]

/-- After the swap the node starts with the right child's first leaf. -/
theorem getD_swapChildren_left :
    (swapChildren s h g).getD (g * 2 ^ (h + 1)) d = s.getD (g * 2 ^ (h + 1) + 2 ^ h) d := by
  obtain ⟨-, R, hR⟩ := children_eq_cons d hs hh hg
  rw [swapChildren, List.append_assoc, List.append_assoc,
    List.getD_append_right _ _ _ _ (length_take_swap hs hh hg).le, length_take_swap hs hh hg,
    Nat.sub_self, hR]
  rfl

/-- After the swap the left child's first leaf stands `2^h` further on. -/
theorem getD_swapChildren_right :
    (swapChildren s h g).getD (g * 2 ^ (h + 1) + 2 ^ h) d = s.getD (g * 2 ^ (h + 1)) d := by
  obtain ⟨⟨L, hL⟩, -⟩ := children_eq_cons d hs hh hg
  have hR := length_subtree hs (Nat.le_of_lt hh)
    (show 2 * g + 1 < 2 ^ (r - h) by rw [two_pow_sub_succ hh]; omega)
  rw [swapChildren, List.append_assoc, List.append_assoc,
    List.getD_append_right _ _ _ _ (by rw [length_take_swap hs hh hg]; omega),
    length_take_swap hs hh hg, Nat.add_sub_cancel_left,
    List.getD_append_right _ _ _ _ hR.le, hR, Nat.sub_self, List.getD_append _ _ _ _ (by simp [hL]),
    hL]
  rfl

end Swap

theorem not_isSolution_swapChildren {p : Params} {base : EhHashState} {s : List UInt32}
    (hsol : IsSolution p base s) {h g : Nat} (hh : h < p.K) (hg : g < 2 ^ (p.K - (h + 1))) :
    ¬ IsSolution p base (swapChildren s h g) := by
  intro hsw
  have h1 := (hsw.2.2.1 h hh g hg).2
  rw [getD_swapChildren_left 0 hsol.1 hh hg, getD_swapChildren_right 0 hsol.1 hh hg] at h1
  exact UInt32.lt_asymm h1 (hsol.2.2.1 h hh g hg).2

/-- The verifier decides the conjunction of the per-pair checks. -/
theorem isValidSolution_eq_decide (p : Params) (base : EhHashState) (s : List UInt32) :
    isValidSolution p base s = some (decide (s.length = 2 ^ p.K ∧ SiblingsOkBelow p base p.K s ∧
      ZeroPrefix ((hashXor p base s).drop (p.K * p.collisionByteLength)) p.collisionByteLength)) := by
  rw [isValidSolution, Params.solnSize]
  by_cases hs : s.length = 2 ^ p.K
  · have := @verifyLevels_subtrees p base s hs p.K 0 (2 ^ p.K) (Nat.zero_add _) (by simp)
    simp only [Nat.zero_mul, Nat.sub_zero, pow_zero, Nat.mul_one] at this
    rw [if_neg (not_not.2 hs), verifyRows, map_fullStepRow hs, List.length_map, List.length_range,
      Nat.sub_zero, this]
    simp [SiblingsOkBelow, AllNodes, hs]
  · simp [hs]

/-- **The verifier.** For every sequence of seeds `IsValidSolution` answers, with
no undefined behaviour, whether it is a valid solution; and it rejects every valid
solution with the two children of one node swapped. -/
theorem isValidSolution_eq_isSolution (p : Params) (base : EhHashState) (s : List UInt32) :
    isValidSolution p base s = some (decide (IsSolution p base s)) ∧
      (IsSolution p base s → ∀ h < p.K, ∀ g < 2 ^ (p.K - (h + 1)),
        isValidSolution p base (swapChildren s h g) = some false) := by
  have key : ∀ s, isValidSolution p base s = some (decide (IsSolution p base s)) := fun s => by
    rw [isValidSolution_eq_decide]
    exact congrArg some (decide_eq_decide.2 (isSolution_iff_siblingsOk s).symm)
  exact ⟨key s, fun hsol h hh g hg => by
    rw [key, decide_eq_false (not_isSolution_swapChildren hsol hh hg)]⟩

-- With an all-zero hash and `K = 1`, two distinct seeds in increasing order form a
-- solution, and the swapped pair does not.
example : isValidSolution ⟨16, 1, by decide, by decide, by decide, by decide⟩
      ⟨fun _ n => List.replicate n 0, by simp⟩ [0, 1] = some true ∧
    isValidSolution ⟨16, 1, by decide, by decide, by decide, by decide⟩
      ⟨fun _ n => List.replicate n 0, by simp⟩ [1, 0] = some false := by
  decide

/-! ## Reads and the final assertion -/

section Bounds

variable {hashLen lenIndices clen : Nat}

theorem LevelOutcome.cons_ne_overrun {m : List UInt8} {o : LevelOutcome} (h : o ≠ .overrun) :
    o.cons m ≠ .overrun := by
  cases o <;> simp_all [LevelOutcome.cons]

/-- On a table of even size a pass pairs every row: it never reads `X[i+1]` past
the end of `X`. -/
theorem pairLevel_ne_overrun : ∀ {X : List (List UInt8)}, X.length % 2 = 0 →
    pairLevel hashLen lenIndices clen X ≠ .overrun
  | [], _ => nofun
  | [_], h => by simp at h
  | a :: b :: X, h => by
    rw [pairLevel]
    split_ifs <;> first | decide | exact LevelOutcome.cons_ne_overrun (pairLevel_ne_overrun
      (by rw [List.length_cons, List.length_cons] at h; omega))

/-- A pass halves a table of `2^(m+1)` rows, with no read past its end. -/
theorem pairLevel_two_pow {m : Nat} {X : List (List UInt8)} (hX : X.length = 2 ^ (m + 1)) :
    pairLevel hashLen lenIndices clen X ≠ .overrun ∧
      ∀ Xc, pairLevel hashLen lenIndices clen X = .next Xc → Xc.length = 2 ^ m :=
  ⟨pairLevel_ne_overrun (by rw [hX, Nat.pow_succ]; omega), fun _ h => by
    have := length_pairLevel h; rw [hX, Nat.pow_succ] at this; omega⟩

end Bounds

/-- The states of the `while` loop of `IsValidSolution` on `soln` once the length
check has passed: the level `l`, `hashLen`, `lenIndices` and the table `X`. -/
inductive LoopReaches (p : Params) (base : EhHashState) (soln : List UInt32) :
    Nat → Nat → Nat → List (List UInt8) → Prop
  | start : soln.length = p.solnSize →
      LoopReaches p base soln 0 p.expandedHashLength 4 (soln.map (fullStepRow p base))
  | next {l hashLen lenIndices : Nat} {X Xc : List (List UInt8)} :
      LoopReaches p base soln l hashLen lenIndices X → 1 < X.length →
      pairLevel hashLen lenIndices p.collisionByteLength X = .next Xc →
      LoopReaches p base soln (l + 1) (hashLen - p.collisionByteLength) (lenIndices * 2) Xc

section Loop

variable {p : Params} {base : EhHashState} {soln : List UInt32} {l hashLen lenIndices : Nat}
  {X : List (List UInt8)}

theorem lt_of_one_lt_two_pow_sub {K l : Nat} (h : 1 < 2 ^ (K - l)) :
    l < K ∧ 2 ^ (K - l) = 2 ^ (K - (l + 1) + 1) := by
  have := Nat.one_lt_two_pow_iff.1 h
  exact ⟨by omega, by congr 1; omega⟩

/-- **Loop invariant.** At level `l` the table holds `2^(K-l)` rows. -/
theorem LoopReaches.length_eq (h : LoopReaches p base soln l hashLen lenIndices X) :
    l ≤ p.K ∧ X.length = 2 ^ (p.K - l) := by
  induction h with
  | start hs => exact ⟨Nat.zero_le _, by rw [List.length_map, hs]; rfl⟩
  | next _ h1 hp ih =>
    obtain ⟨hlK, hX⟩ := lt_of_one_lt_two_pow_sub (ih.2 ▸ h1)
    exact ⟨hlK, (pairLevel_two_pow (ih.2.trans hX)).2 _ hp⟩

/-- While the loop runs, the table holds `2^(m+1)` rows for the `m = K - (l+1)`
levels left after this one. -/
theorem LoopReaches.length_of_lt (h : LoopReaches p base soln l hashLen lenIndices X)
    (h1 : 1 < X.length) : l < p.K ∧ X.length = 2 ^ (p.K - (l + 1) + 1) := by
  obtain ⟨hlK, hX⟩ := lt_of_one_lt_two_pow_sub (h.length_eq.2 ▸ h1)
  exact ⟨hlK, h.length_eq.2.trans hX⟩

/-- **Run.** From a state the loop reaches, with fuel for the levels left, the
verifier answers. -/
theorem LoopReaches.verifyLevels_isSome {fuel : Nat} (h : LoopReaches p base soln l hashLen lenIndices X)
    (hf : p.K - l < fuel) :
    (verifyLevels p.collisionByteLength fuel hashLen lenIndices X).isSome := by
  induction fuel generalizing l hashLen lenIndices X with
  | zero => exact absurd hf (Nat.not_lt_zero _)
  | succ fuel ih =>
    rw [verifyLevels]
    split_ifs with h1
    · obtain ⟨hlK, hX⟩ := h.length_of_lt h1
      cases hp : pairLevel hashLen lenIndices p.collisionByteLength X with
      | next Xc => exact ih (h.next h1 hp) (by omega)
      | reject => rfl
      | overrun => exact absurd hp (pairLevel_two_pow hX).1
    · have := Nat.one_le_two_pow (n := p.K - l)
      obtain ⟨row, rfl⟩ := List.length_eq_one.1 (by rw [h.length_eq.2] at h1 ⊢; omega)
      rfl

end Loop

/-- **Bounds.** For every sequence and every base state, each table the loop of
`IsValidSolution` reaches at level `l` holds `2^(K-l)` rows, so a pass never reads
`X[i+1]` past the end of `X` and the loop ends with `X.size() == 1`; the verifier
always answers. -/
theorem isValidSolution_in_bounds (p : Params) (base : EhHashState) (soln : List UInt32) :
    (∀ l hashLen lenIndices X, LoopReaches p base soln l hashLen lenIndices X →
      X.length = 2 ^ (p.K - l) ∧
      (1 < X.length → pairLevel hashLen lenIndices p.collisionByteLength X ≠ .overrun) ∧
      (¬ 1 < X.length → X.length = 1)) ∧
    (isValidSolution p base soln).isSome := by
  refine ⟨fun l hashLen lenIndices X h => ⟨h.length_eq.2, fun h1 => ?_, fun h1 => ?_⟩, ?_⟩
  · exact (pairLevel_two_pow (h.length_of_lt h1).2).1
  · have := Nat.one_le_two_pow (n := p.K - l)
    rw [h.length_eq.2] at h1 ⊢; omega
  · rw [isValidSolution]
    split_ifs with hs
    · rfl
    · exact (LoopReaches.start (not_not.1 hs)).verifyLevels_isSome
        (by rw [List.length_map, not_not.1 hs, Params.solnSize, Nat.sub_zero]; exact Nat.lt_two_pow _)

end Equihash
