import Equihash.Verifier
import Equihash.Collide
import Mathlib.Data.Finset.Basic

/-! `Equihash<N,K>::BasicSolve`, and the steps it shares with `OptimisedSolve`.

The basic solver generates the full rows of all `InitialListSize` seeds, runs
`K - 1` rounds of sort and collision pass while the table is not empty, and
in a final round collects the index histories of the colliding pairs on all
the remaining hash bytes.

* `basicSolve_eq_valid`: with a probe that never cancels, the solver returns
  exactly the sequences the verifier accepts over the seeds it generates;
* `basicSolve_every_probe`: under any probe it returns that set or throws.
-/

namespace Equihash

/-! ## Steps shared by the two solvers -/

/-- The seeds `0 ≤ i < init_size`, in order. -/
def initialSeeds (p : Params) : List UInt32 :=
  (List.range p.initSize).map UInt32.ofNat

/-- `emplace_back` of the row `mk i` for each seed `i` in turn, probing `label`
after each: step 1 of both solvers, and of each leaf of Phase B. -/
def emplaceRows (cancelled : EhSolverCancelCheck → Bool) (label : EhSolverCancelCheck)
    (mk : UInt32 → List UInt8) (seeds : List UInt32) :
    Except EhSolverCancelled (List (List UInt8)) :=
  seeds.mapM fun i => do
    let row := mk i
    check cancelled label
    pure row

/-- Step 3 of both solvers: the rounds of steps 2a to 2g, `n` of them left, while
the table is not empty. The state is the table, `hashLen` and `lenIndices`;
`collide hashLen lenIndices` is a round's collision pass. -/
def solverRounds (p : Params) (srt : RowSort) (cancelled : EhSolverCancelCheck → Bool)
    (collide : Nat → Nat → List (List UInt8) → Except EhSolverCancelled (List (List UInt8))) :
    Nat → List (List UInt8) × Nat × Nat →
      Except EhSolverCancelled (List (List UInt8) × Nat × Nat)
  | 0, st => pure st
  | n + 1, (X, hashLen, lenIndices) =>
    if 0 < X.length then do
      let X := srt.sort p.collisionByteLength X
      check cancelled .ListSorting
      let X ← collide hashLen lenIndices X
      check cancelled .RoundEnd
      solverRounds p srt cancelled collide n (X, hashLen - p.collisionByteLength, lenIndices * 2)
    else pure (X, hashLen, lenIndices)

/-- The scan of the final round from row `i`: what `emit` makes of each pair of
each run of rows colliding on `hashLen` bytes, with `tick` (the probe
`FinalColliding`) after each run. -/
def finalRuns {m : Type → Type} [Monad m] {α : Type} (tick : m Unit) (hashLen : Nat)
    (emit : List UInt8 → List UInt8 → Option α) (X : List (List UInt8)) (i : Nat) :
    m (List α) :=
  if i + 1 < X.length then do
    let j := runLength hashLen (X.drop i)
    let found := runMerges emit ((X.drop i).take j)
    tick
    let rest ← finalRuns tick hashLen emit X (i + j)
    pure (found ++ rest)
  else pure []
termination_by X.length - i
decreasing_by have := one_le_runLength hashLen (X.drop i); omega

/-! ## The basic solver -/

/-- Steps 1 to 3 of `BasicSolve`: the table of full rows after `r` rounds, with
its `hashLen` and `lenIndices`. -/
def basicTable (p : Params) (base : EhHashState) (srt : RowSort)
    (cancelled : EhSolverCancelCheck → Bool) (r : Nat) :
    Except EhSolverCancelled (List (List UInt8) × Nat × Nat) := do
  let X ← emplaceRows cancelled .ListGeneration (fullStepRow p base) (initialSeeds p)
  solverRounds p srt cancelled
    (fun hashLen lenIndices => basicCollide cancelled hashLen lenIndices p.collisionByteLength)
    r (X, p.expandedHashLength, 4)

/-- A pair of the final round: the merge over all of `hashLen` (`trim = 0`), read
back with `GetIndices`, when the two histories are distinct. -/
def finalEmit (hashLen lenIndices : Nat) (a b : List UInt8) : Option (List UInt32) :=
  if distinctIndices a b hashLen lenIndices then
    some (getIndices (fullStepRowMerge a b hashLen lenIndices 0) hashLen (2 * lenIndices))
  else none

/-- `Equihash<N,K>::BasicSolve(base_state, cancelled)`, with `std::sort` any
procedure meeting its contract. -/
def basicSolve (p : Params) (base : EhHashState) (srt : RowSort)
    (cancelled : EhSolverCancelCheck → Bool) : Except EhSolverCancelled (Finset (List UInt32)) := do
  let (X, hashLen, lenIndices) ← basicTable p base srt cancelled (p.K - 1)
  if 1 < X.length then
    let X := srt.sort hashLen X
    check cancelled .FinalSorting
    let found ← finalRuns (check cancelled .FinalColliding) hashLen (finalEmit hashLen lenIndices) X 0
    pure found.toFinset
  else pure ∅

/-! ## Runs of the shared steps -/

theorem ensures_emplaceRows (cancelled : EhSolverCancelCheck → Bool) (label : EhSolverCancelCheck)
    (mk : UInt32 → List UInt8) (seeds : List UInt32) :
    Ensures cancelled (· = seeds.map mk) (emplaceRows cancelled label mk seeds) := by
  unfold emplaceRows
  induction seeds with
  | nil => exact ensures_pure rfl
  | cons i seeds ih =>
    rw [List.mapM_cons]
    exact ensures_bind (ensures_check label (ensures_pure (ensures_bind (ih.mono fun _ h =>
      ensures_pure (by rw [h]; rfl)))))

section Rounds

variable {p : Params} {srt : RowSort} {cancelled : EhSolverCancelCheck → Bool}
  {collide : Nat → Nat → List (List UInt8) → Except EhSolverCancelled (List (List UInt8))}

theorem iterate_empty {I : Nat → List (List UInt8) → Prop} (hempty : ∀ r, I r [] → I (r + 1) [])
    {r : Nat} (h : I r []) : ∀ n, I (r + n) []
  | 0 => h
  | n + 1 => hempty _ (iterate_empty hempty h n)

/-- **Rounds.** An invariant of the table at each level that every round's
collision pass carries from level `r` to `r + 1`, and that the empty table keeps,
holds after the rounds; while the table is not empty, `hashLen` and `lenIndices`
are those of its level. -/
theorem ensures_solverRounds (I : Nat → List (List UInt8) → Prop) (l0 : Nat)
    (hstep : ∀ r X, r < p.K - 1 → 0 < X.length → I r X →
      Ensures cancelled (I (r + 1)) (collide (p.expandedHashLength - r * p.collisionByteLength)
        (l0 * 2 ^ r) (srt.sort p.collisionByteLength X)))
    (hempty : ∀ r, I r [] → I (r + 1) []) :
    ∀ n r X, r + n ≤ p.K - 1 → I r X →
      Ensures cancelled (fun st => I (r + n) st.1 ∧ (0 < st.1.length →
          st.2.1 = p.expandedHashLength - (r + n) * p.collisionByteLength ∧
            st.2.2 = l0 * 2 ^ (r + n)))
        (solverRounds p srt cancelled collide n
          (X, p.expandedHashLength - r * p.collisionByteLength, l0 * 2 ^ r))
  | 0, r, X, _, hX => ensures_pure ⟨hX, fun _ => ⟨rfl, rfl⟩⟩
  | n + 1, r, X, hr, hX => by
    rw [solverRounds]
    split_ifs with hX0
    · refine ensures_check _ (ensures_bind ((hstep r X (by omega) hX0 hX).mono fun Y hY =>
        ensures_check _ ?_))
      rw [Nat.sub_sub, ← Nat.add_one_mul, Nat.mul_assoc, ← Nat.pow_succ,
        show r + (n + 1) = r + 1 + n by omega]
      exact ensures_solverRounds I l0 hstep hempty n (r + 1) Y (by omega) hY
    · obtain rfl : X = [] := List.eq_nil_of_length_eq_zero (by omega)
      exact ensures_pure ⟨iterate_empty hempty hX _, fun h => absurd h hX0⟩

end Rounds

/-! ## The table after each round -/

section Table

variable {p : Params} {base : EhHashState}

variable (p base) in
/-- The rows of a table after `r` rounds: exactly the encodings of the good
subtrees of height `r`. -/
def RowsAt (r : Nat) (X : List (List UInt8)) : Prop :=
  ∀ row, row ∈ X ↔ ∃ σ, GoodSubtree p base r σ ∧ row = encodedRow p base r σ

theorem initSize_le : p.initSize ≤ 2 ^ 32 :=
  Nat.pow_le_pow_right (by decide) p.indexLength_le

theorem mem_initialSeeds (x : UInt32) : x ∈ initialSeeds p ↔ x.toNat < p.initSize := by
  simp only [initialSeeds, List.mem_map, List.mem_range]
  constructor
  · rintro ⟨i, hi, rfl⟩
    rw [toNat_ofNat32, Nat.mod_eq_of_lt (by have := @initSize_le p; omega)]
    exact hi
  · intro hx
    exact ⟨x.toNat, hx, UInt32.toNat.inj (by rw [toNat_ofNat32, Nat.mod_eq_of_lt (toNat_lt32 x)])⟩

theorem rowsAt_generate : RowsAt p base 0 ((initialSeeds p).map (fullStepRow p base)) := by
  intro row
  simp only [List.mem_map, fullStepRow_eq_encodedRow]
  constructor
  · rintro ⟨x, hx, rfl⟩
    exact ⟨[x], ⟨rfl, by simpa using (mem_initialSeeds x).1 hx, fun h hh => absurd hh
      (Nat.not_lt_zero _)⟩, rfl⟩
  · rintro ⟨σ, ⟨hlen, hlt, -⟩, rfl⟩
    obtain ⟨x, rfl⟩ := List.length_eq_one.1 hlen
    exact ⟨x, (mem_initialSeeds x).2 (hlt x (List.mem_singleton_self x)), rfl⟩

/-- A table that empties stays empty: no good subtree has no good parent. -/
theorem rowsAt_nil_succ {r : Nat} (h : RowsAt p base r []) : RowsAt p base (r + 1) [] := by
  intro row
  simp only [List.not_mem_nil, false_iff, not_exists, not_and]
  intro ρ hρ _
  obtain ⟨σ, -, hσ, -⟩ := (goodSubtree_succ ρ).1 hρ
  exact absurd ((h _).2 ⟨σ, hσ, rfl⟩) (List.not_mem_nil _)

theorem basicEmit_self {r : Nat} {σ : List UInt32} (hσ : σ.length = 2 ^ r) :
    basicEmit (p.expandedHashLength - r * p.collisionByteLength) (4 * 2 ^ r) p.collisionByteLength
      (encodedRow p base r σ) (encodedRow p base r σ) = none := by
  obtain ⟨x, σ', rfl⟩ := List.exists_cons_of_ne_nil (ne_nil_of_length_two_pow hσ)
  rw [basicEmit, distinctIndices_encodedRow hσ hσ, if_neg]
  simp

/-- **Round.** A round's collision pass maps the rows of good subtrees of height
`r < K` to those of height `r + 1`. -/
theorem rowsAt_collidePass (srt : RowSort) {r : Nat} (hr : r < p.K) {X : List (List UInt8)}
    (hX : RowsAt p base r X) : RowsAt p base (r + 1) (Id.run (collidePass (pure ())
      p.collisionByteLength (basicEmit (p.expandedHashLength - r * p.collisionByteLength)
        (4 * 2 ^ r) p.collisionByteLength) (srt.sort p.collisionByteLength X))) := by
  intro m
  have hc := collisionByteLength_le (Nat.le_of_lt hr)
  rw [((collidePass_perm le_rfl (srt.sorted _ X)).trans
    (collisionMerges_perm (basicEmit_comm _ _ _) (srt.perm _ X))).mem_iff,
    mem_collisionMerges (basicEmit_comm _ _ _) (fun a ha => by
      obtain ⟨σ, ⟨hσ, -⟩, rfl⟩ := (hX a).1 ha
      exact basicEmit_self hσ)]
  constructor
  · rintro ⟨a, ha, b, hb, hcol, he⟩
    obtain ⟨σ, hσ, rfl⟩ := (hX a).1 ha
    obtain ⟨τ, hτ, rfl⟩ := (hX b).1 hb
    rw [basicEmit, distinctIndices_encodedRow hσ.1 hτ.1] at he
    split_ifs at he with hd
    cases he
    rw [hasCollision_encodedRow _ _ hc, decide_eq_true_iff] at hcol
    refine ⟨_, (goodSubtree_succ _).2 ⟨σ, τ, hσ, hτ, hcol, of_decide_eq_true hd, rfl⟩, ?_⟩
    rw [fullStepRowMerge_eq, mergeRows_encodedRow hσ.1 hτ.1]
  · rintro ⟨ρ, hρ, rfl⟩
    obtain ⟨σ, τ, hσ, hτ, hz, hd, rfl⟩ := (goodSubtree_succ ρ).1 hρ
    refine ⟨_, (hX _).2 ⟨σ, hσ, rfl⟩, _, (hX _).2 ⟨τ, hτ, rfl⟩, ?_, ?_⟩
    · rw [hasCollision_encodedRow _ _ hc, decide_eq_true_iff]; exact hz
    · rw [basicEmit, distinctIndices_encodedRow hσ.1 hτ.1, if_pos (decide_eq_true hd),
        fullStepRowMerge_eq, mergeRows_encodedRow hσ.1 hτ.1]

/-- **Table.** For every probe, the table of `BasicSolve` after `r ≤ K - 1`
rounds holds exactly the good subtrees of height `r`, and while it is not empty
`hashLen` and `lenIndices` are those of that level. -/
theorem ensures_basicTable (srt : RowSort) (cancelled : EhSolverCancelCheck → Bool) {r : Nat}
    (hr : r ≤ p.K - 1) : Ensures cancelled (fun st => RowsAt p base r st.1 ∧ (0 < st.1.length →
      st.2.1 = p.expandedHashLength - r * p.collisionByteLength ∧ st.2.2 = 4 * 2 ^ r))
      (basicTable p base srt cancelled r) := by
  refine ensures_bind ((ensures_emplaceRows ..).mono fun X hX => ?_)
  have := @ensures_solverRounds p srt cancelled
    (fun hashLen lenIndices => basicCollide cancelled hashLen lenIndices p.collisionByteLength)
    (RowsAt p base) 4
    (fun r X hr _ hX => (ensures_collidePass ..).mono fun _ h => h ▸ rowsAt_collidePass srt
      (by omega) hX)
    (fun _ => rowsAt_nil_succ) r 0 X (by omega) (hX ▸ rowsAt_generate)
  simp only [Nat.zero_add, Nat.zero_mul, Nat.sub_zero, pow_zero, Nat.mul_one] at this
  exact this

end Table

/-! ## The final round -/

/-- With a tick that does nothing, the final scan of a sorted table returns the
solutions of all its colliding pairs. -/
theorem finalRuns_pure {m : Type → Type} [Monad m] [LawfulMonad m] {α : Type} {hashLen : Nat}
    {emit : List UInt8 → List UInt8 → Option α} {Y : List (List UInt8)}
    (hY : SortedBy hashLen Y) (i : Nat) :
    finalRuns (pure () : m Unit) hashLen emit Y i = pure (collisionMerges hashLen emit (Y.drop i)) := by
  induction i using finalRuns.induct (pure () : m Unit) hashLen emit Y with
  | case1 i hlt j ih =>
    simp only [j] at ih
    rw [finalRuns, if_pos hlt]
    simp only [pure_bind, ih]
    obtain ⟨a, rest, hS⟩ : ∃ a rest, Y.drop i = a :: rest := by
      cases h : Y.drop i with
      | nil => rw [List.drop_eq_nil_iff] at h; omega
      | cons a rest => exact ⟨a, rest, rfl⟩
    have hsorted : SortedBy hashLen (a :: rest) :=
      hS ▸ List.Pairwise.sublist (List.drop_sublist _ _) hY
    set tw := rest.takeWhile (hasCollision a · hashLen)
    set dw := rest.dropWhile (hasCollision a · hashLen)
    have hrest : rest = tw ++ dw := (List.takeWhile_append_dropWhile _ _).symm
    have hj : runLength hashLen (Y.drop i) = tw.length + 1 := by rw [hS]; rfl
    have hrun : (Y.drop i).take (tw.length + 1) = a :: tw := by
      rw [hS, hrest, List.take_succ_cons, List.take_left' rfl]
    have hdrop : Y.drop (i + (tw.length + 1)) = dw := by
      rw [← List.drop_drop, hS, hrest, List.drop_succ_cons, List.drop_left' rfl]
    rw [hj, hrun, hdrop, hS, collisionMerges_cons (sep_of_sorted le_rfl hsorted)]
  | case2 i hge =>
    rw [finalRuns, if_neg hge]
    congr 1
    match h : Y.drop i with
    | [] => rfl
    | [_] => rfl
    | _ :: _ :: _ =>
      have := congrArg List.length h
      simp only [List.length_drop, List.length_cons] at this
      omega

/-- Under the probe `check cancelled label`, the final scan returns what the pure
scan does, unless cancelled. -/
theorem ensures_finalRuns {α : Type} (cancelled : EhSolverCancelCheck → Bool)
    (label : EhSolverCancelCheck) (hashLen : Nat) (emit : List UInt8 → List UInt8 → Option α)
    (Y : List (List UInt8)) (i : Nat) :
    Ensures cancelled (· = Id.run (finalRuns (pure ()) hashLen emit Y i))
      (finalRuns (check cancelled label) hashLen emit Y i) := by
  induction i using finalRuns.induct (check cancelled label) hashLen emit Y with
  | case1 i hlt j ih =>
    rw [finalRuns.eq_1 (check cancelled label), if_pos hlt]
    refine ensures_check label ?_
    refine ensures_bind (ih.mono fun _ h => ensures_pure ?_)
    rw [h]
    conv_rhs => rw [finalRuns, if_pos hlt]
    rfl
  | case2 i hge =>
    rw [finalRuns.eq_1 (check cancelled label), if_neg hge]
    exact ensures_pure (by rw [finalRuns, if_neg hge]; rfl)

/-- The probe is asked the same question at every tick: the final scan is
cancelled at its first tick or runs as the pure scan. -/
theorem finalRuns_check {α : Type} (cancelled : EhSolverCancelCheck → Bool)
    (label : EhSolverCancelCheck) (hashLen : Nat) (emit : List UInt8 → List UInt8 → Option α)
    (Y : List (List UInt8)) (i : Nat) :
    finalRuns (check cancelled label) hashLen emit Y i =
      if cancelled label ∧ i + 1 < Y.length then throw ⟨⟩
      else pure (Id.run (finalRuns (pure ()) hashLen emit Y i)) := by
  induction i using finalRuns.induct (check cancelled label) hashLen emit Y with
  | case1 i hlt j ih =>
    rw [finalRuns.eq_1 (check cancelled label), if_pos hlt]
    by_cases hc : cancelled label
    · rw [if_pos ⟨hc, hlt⟩]
      simp only [check, hc, if_true]
      rfl
    · rw [if_neg (fun h => hc h.1)] at ih ⊢
      simp only [j] at ih
      dsimp only
      rw [ih]
      simp only [check, hc, Bool.false_eq_true, if_false, pure_bind]
      conv_rhs => rw [finalRuns, if_pos hlt]
      rfl
  | case2 i hge =>
    rw [finalRuns.eq_1 (check cancelled label), if_neg hge, if_neg (fun h => hge h.2), finalRuns,
      if_neg hge]
    rfl

theorem finalEmit_comm (hashLen lenIndices : Nat) (a b : List UInt8) :
    finalEmit hashLen lenIndices a b = finalEmit hashLen lenIndices b a := by
  simp only [finalEmit, distinctIndices_comm a b, fullStepRowMerge_eq, mergeRows_comm a b]

section Final

variable {p : Params} {base : EhHashState}

/-- The remaining hash of a row of level `K - 1` is two blocks. -/
theorem finalHashLen : p.expandedHashLength - (p.K - 1) * p.collisionByteLength =
    p.collisionByteLength + p.collisionByteLength := by
  have := p.k_pos
  obtain ⟨k, hk⟩ : ∃ k, p.K = k + 1 := ⟨p.K - 1, by omega⟩
  rw [Params.expandedHashLength, hk, Nat.add_sub_cancel]
  simp only [Nat.add_one_mul]
  omega

/-- **Final round.** On the good subtrees of height `K - 1`, the final round finds
exactly the good subtrees of height `K` whose XOR vanishes on the last block. -/
theorem mem_finalMerges {X : List (List UInt8)} (hX : RowsAt p base (p.K - 1) X)
    (s : List UInt32) :
    s ∈ collisionMerges (p.expandedHashLength - (p.K - 1) * p.collisionByteLength)
      (finalEmit (p.expandedHashLength - (p.K - 1) * p.collisionByteLength) (4 * 2 ^ (p.K - 1))) X ↔
    GoodSubtree p base p.K s ∧
      ZeroPrefix ((hashXor p base s).drop (p.K * p.collisionByteLength)) p.collisionByteLength := by
  have hK : p.K - 1 + 1 = p.K := Nat.sub_add_cancel p.k_pos
  have hlast : (p.K - 1) * p.collisionByteLength + p.collisionByteLength =
      p.K * p.collisionByteLength := by rw [← Nat.add_one_mul, hK]
  have hself : ∀ a ∈ X, finalEmit (p.expandedHashLength - (p.K - 1) * p.collisionByteLength)
      (4 * 2 ^ (p.K - 1)) a a = none := fun a ha => by
    obtain ⟨σ, ⟨hσ, -⟩, rfl⟩ := (hX a).1 ha
    obtain ⟨x, σ', rfl⟩ := List.exists_cons_of_ne_nil (ne_nil_of_length_two_pow hσ)
    rw [finalEmit, distinctIndices_encodedRow hσ hσ, if_neg]
    simp
  rw [mem_collisionMerges (finalEmit_comm _ _) hself]
  constructor
  · rintro ⟨a, ha, b, hb, hcol, he⟩
    obtain ⟨σ, hσ, rfl⟩ := (hX a).1 ha
    obtain ⟨τ, hτ, rfl⟩ := (hX b).1 hb
    rw [finalEmit, distinctIndices_encodedRow hσ.1 hτ.1] at he
    split_ifs at he with hd
    cases he
    rw [hasCollision_encodedRow _ _ le_rfl, decide_eq_true_iff, finalHashLen, zeroPrefix_add,
      List.drop_drop, hlast] at hcol
    rw [fullStepRowMerge_eq, getIndices_mergeRows_final hσ.1 hτ.1, hashXor_joinOrdered]
    exact ⟨hK ▸ (goodSubtree_succ _).2 ⟨σ, τ, hσ, hτ, hcol.1, of_decide_eq_true hd, rfl⟩, hcol.2⟩
  · rintro ⟨hgood, hz⟩
    rw [← hK] at hgood
    obtain ⟨σ, τ, hσ, hτ, hzr, hd, rfl⟩ := (goodSubtree_succ _).1 hgood
    refine ⟨_, (hX _).2 ⟨σ, hσ, rfl⟩, _, (hX _).2 ⟨τ, hτ, rfl⟩, ?_, ?_⟩
    · rw [hasCollision_encodedRow _ _ le_rfl, decide_eq_true_iff, finalHashLen, zeroPrefix_add,
        List.drop_drop, hlast, ← hashXor_joinOrdered σ τ]
      exact ⟨by rwa [hashXor_joinOrdered], hz⟩
    · rw [finalEmit, distinctIndices_encodedRow hσ.1 hτ.1, if_pos (decide_eq_true hd),
        fullStepRowMerge_eq, getIndices_mergeRows_final hσ.1 hτ.1]

/-- The verifier's verdict on the seeds the solver generates, in the terms of the
final round. -/
theorem isValidSolution_and_seeds_iff (s : List UInt32) :
    (isValidSolution p base s = some true ∧ ∀ i ∈ s, i.toNat < p.initSize) ↔
      GoodSubtree p base p.K s ∧
        ZeroPrefix ((hashXor p base s).drop (p.K * p.collisionByteLength)) p.collisionByteLength := by
  rw [isValidSolution_eq_decide, Option.some.injEq, decide_eq_true_iff, GoodSubtree]
  tauto

/-- Two different rows of a table make it longer than one. -/
theorem one_lt_length_of_ne {X : List (List UInt8)} {a b : List UInt8} (ha : a ∈ X) (hb : b ∈ X)
    (hne : a ≠ b) : 1 < X.length := by
  match X, ha, hb with
  | [_], ha, hb => simp only [List.mem_singleton] at ha hb; exact absurd (ha.trans hb.symm) hne
  | _ :: _ :: _, _, _ => simp

/-- A table of level `K - 1` with at most one row has no good subtree of height
`K`: its two children would be two different rows. -/
theorem not_goodSubtree_of_length_le {X : List (List UInt8)} (hX : RowsAt p base (p.K - 1) X)
    (h1 : ¬ 1 < X.length) (s : List UInt32) : ¬ GoodSubtree p base p.K s := by
  intro hgood
  rw [← Nat.sub_add_cancel p.k_pos] at hgood
  obtain ⟨σ, τ, hσ, hτ, -, hd, -⟩ := (goodSubtree_succ _).1 hgood
  have hne : encodedRow p base (p.K - 1) σ ≠ encodedRow p base (p.K - 1) τ := fun e => by
    obtain ⟨x, σ', rfl⟩ := List.exists_cons_of_ne_nil (ne_nil_of_length_two_pow hσ.1)
    have := congrArg (fun row => getIndices row (p.expandedHashLength -
      (p.K - 1) * p.collisionByteLength) (4 * 2 ^ (p.K - 1))) e
    simp only [getIndices_encodedRow _ hσ.1, getIndices_encodedRow _ hτ.1] at this
    exact hd x (List.mem_cons_self _ _) (this ▸ List.mem_cons_self _ _)
  exact h1 (one_lt_length_of_ne ((hX _).2 ⟨σ, hσ, rfl⟩) ((hX _).2 ⟨τ, hτ, rfl⟩) hne)

end Final

/-- For every probe, `BasicSolve` returns exactly the good subtrees of height `K`
whose XOR vanishes on the last block, unless cancelled. -/
theorem ensures_basicSolve (p : Params) (base : EhHashState) (srt : RowSort)
    (cancelled : EhSolverCancelCheck → Bool) :
    Ensures cancelled (fun solns => ∀ s, s ∈ solns ↔ GoodSubtree p base p.K s ∧
        ZeroPrefix ((hashXor p base s).drop (p.K * p.collisionByteLength)) p.collisionByteLength)
      (basicSolve p base srt cancelled) := by
  unfold basicSolve
  refine ensures_bind ((@ensures_basicTable p base srt cancelled (p.K - 1) le_rfl).mono
    fun ⟨X, h', l'⟩ ⟨hX, hlen⟩ => ?_)
  by_cases h1 : 1 < X.length
  · obtain ⟨rfl, rfl⟩ := hlen (Nat.zero_lt_of_lt h1)
    simp only [if_pos h1]
    refine ensures_check _ (ensures_bind ((ensures_finalRuns ..).mono fun found hf =>
      ensures_pure fun s => ?_))
    rw [hf, finalRuns_pure (srt.sorted _ X), List.drop_zero, Id.pure_eq]
    dsimp only [Id.run]
    rw [List.mem_toFinset, ((collisionMerges_perm (finalEmit_comm _ _) (srt.perm _ X))).mem_iff,
      mem_finalMerges hX]
  · simp only [if_neg h1]
    exact ensures_pure fun s =>
      iff_of_false (Finset.not_mem_empty s) fun h => not_goodSubtree_of_length_le hX h1 s h.1

/-- With a probe that never cancels, `BasicSolve` returns exactly the good subtrees
of height `K` whose XOR vanishes on the last block. -/
theorem basicSolve_never (p : Params) (base : EhHashState) (srt : RowSort) :
    ∃ solns, basicSolve p base srt (fun _ => false) = .ok solns ∧
      ∀ s, s ∈ solns ↔ GoodSubtree p base p.K s ∧
        ZeroPrefix ((hashXor p base s).drop (p.K * p.collisionByteLength)) p.collisionByteLength :=
  (ensures_basicSolve p base srt _).never

/-- **The basic solver.** With a probe that never cancels, `BasicSolve` returns
exactly the sequences `IsValidSolution` accepts whose seeds are below
`InitialListSize`, for every `std::sort` meeting its contract. -/
theorem basicSolve_eq_valid (p : Params) (base : EhHashState) (srt : RowSort) :
    ∃ solns, basicSolve p base srt (fun _ => false) = .ok solns ∧
      ∀ s, s ∈ solns ↔ isValidSolution p base s = some true ∧ ∀ i ∈ s, i.toNat < p.initSize := by
  obtain ⟨solns, hrun, hs⟩ := basicSolve_never p base srt
  exact ⟨solns, hrun, fun s => (hs s).trans (isValidSolution_and_seeds_iff s).symm⟩

/-- **Cancelling.** For every probe and every `std::sort` meeting its contract,
`BasicSolve` either throws because the probe answered true to some label, or
returns exactly the sequences `IsValidSolution` accepts whose seeds are below
`InitialListSize`: cancelling never cuts the result short. -/
theorem basicSolve_every_probe (p : Params) (base : EhHashState) (srt : RowSort)
    (cancelled : EhSolverCancelCheck → Bool) :
    Ensures cancelled (fun solns => ∀ s, s ∈ solns ↔
        isValidSolution p base s = some true ∧ ∀ i ∈ s, i.toNat < p.initSize)
      (basicSolve p base srt cancelled) :=
  (ensures_basicSolve p base srt cancelled).mono fun _ h s =>
    (h s).trans (isValidSolution_and_seeds_iff s).symm

end Equihash
