import Equihash.PhaseA
import Equihash.PhaseB

/-! What `OptimisedSolve` may return.

Phase B keeps, for each partial solution, only rows of subtrees passing every
check the verifier makes at a pair of siblings: the collision on the pair's
block, distinct seeds, and the left child first. It checks the last block
nowhere, so that check is all that separates its results from valid solutions.

* `optimisedSolve_sound`: for every probe and every `std::sort` meeting its
  contract, the optimised solver meets no undefined behaviour and returns only
  sequences of `2^K` seeds below `InitialListSize` passing every pair check, on
  which `IsValidSolution` answers whether their hashes XOR to zero on the last
  block;
* `optimisedSolve_mem_basicSolve_iff`: with a probe that never cancels, the
  basic solver returns exactly the results of the optimised one that the
  verifier accepts.
-/

namespace Equihash

section Cull

variable {p : Params} {base : EhHashState} {srt : RowSort} {cancelled : EhSolverCancelCheck → Bool}

/-- Phase A returns unless cancelled. -/
theorem ensures_partialSolutions :
    Ensures cancelled (fun _ => True) (partialSolutions p base srt cancelled) := by
  unfold partialSolutions
  refine ensures_bind ((ensures_truncatedTable srt cancelled le_rfl).mono fun ⟨X, _, _⟩ _ => ?_)
  dsimp only
  split_ifs
  · exact ensures_check _ ((ensures_finalRuns ..).mono fun _ _ => trivial)
  · exact ensures_pure trivial

/-- What Phase B finds for one partial solution: good subtrees of height `K`, with
no undefined behaviour. -/
theorem ensures_cullPartial_good (P : List UInt8) :
    Ensures cancelled (fun c => c ≠ .undefined ∧
        ∀ found, c = .solutions found → ∀ s ∈ found, GoodSubtree p base p.K s)
      (cullPartial p base srt cancelled P) :=
  (cullPartial_slotRows srt cancelled).mono fun c h => by
    rcases h with rfl | ⟨rows, ⟨-, hrows⟩, rfl⟩
    · exact ⟨nofun, fun _ h => nomatch h⟩
    · refine ⟨nofun, fun found hf s hs => ?_⟩
      cases hf
      obtain ⟨row, hrow, rfl⟩ := List.mem_map.1 hs
      obtain ⟨σ, rfl, hσ, -⟩ := hrows row hrow
      rwa [getIndices_encodedRow p.K hσ.1]

/-- **Culling.** Phase B over any list of partial solutions adds only good
subtrees of height `K` to the set, and meets no undefined behaviour. -/
theorem ensures_cullAll_good : ∀ (Ps : List (List UInt8)) (acc : Finset (List UInt32)),
    (∀ s ∈ acc, GoodSubtree p base p.K s) →
    Ensures cancelled (fun r => ∃ S, r = some S ∧ ∀ s ∈ S, GoodSubtree p base p.K s)
      (cullAll p base srt cancelled Ps acc)
  | [], acc, h => ensures_pure ⟨acc, rfl, h⟩
  | P :: Ps, acc, h => by
    rw [cullAll]
    refine ensures_bind ((ensures_cullPartial_good P).mono fun c ⟨hne, hc⟩ => ?_)
    match c, hne, hc with
    | .solutions found, _, hc =>
      exact ensures_cullAll_good Ps _ fun s hs => (Finset.mem_union.1 hs).elim (h s)
        fun hs => hc found rfl s (List.mem_toFinset.1 hs)
    | .invalid, _, _ => exact ensures_cullAll_good Ps acc h

/-- Phase A then Phase B: no undefined behaviour, and only good subtrees of
height `K`. -/
theorem ensures_optimisedSolve_good :
    Ensures cancelled (fun r => ∃ S, r = some S ∧ ∀ s ∈ S, GoodSubtree p base p.K s)
      (optimisedSolve p base srt cancelled) :=
  ensures_bind (ensures_partialSolutions.mono fun Ps _ => ensures_cullAll_good Ps ∅ (by simp))

end Cull

/-- On a good subtree of height `K`, the verifier checks only the last block. -/
theorem isValidSolution_of_goodSubtree {p : Params} {base : EhHashState} {s : List UInt32}
    (h : GoodSubtree p base p.K s) :
    isValidSolution p base s = some (decide (ZeroPrefix
      ((hashXor p base s).drop (p.K * p.collisionByteLength)) p.collisionByteLength)) := by
  rw [isValidSolution_eq_decide, Option.some.injEq, decide_eq_decide]
  exact ⟨fun h => h.2.2, fun hz => ⟨h.1, h.2.2, hz⟩⟩

/-- **The optimised solver is sound up to the last block.** For every probe and
every `std::sort` meeting its contract, `OptimisedSolve` meets no undefined
behaviour and, unless cancelled, returns only sequences of `2^K` seeds below
`InitialListSize` passing every pair check of `IsValidSolution`; the verifier
accepts such a sequence exactly when its hashes XOR to zero on the last block. -/
theorem optimisedSolve_sound (p : Params) (base : EhHashState) (srt : RowSort)
    (cancelled : EhSolverCancelCheck → Bool) :
    Ensures cancelled (fun r => ∃ S, r = some S ∧ ∀ s ∈ S, GoodSubtree p base p.K s ∧
        isValidSolution p base s = some (decide (ZeroPrefix
          ((hashXor p base s).drop (p.K * p.collisionByteLength)) p.collisionByteLength)))
      (optimisedSolve p base srt cancelled) :=
  ensures_optimisedSolve_good.mono fun _ ⟨S, hr, hS⟩ =>
    ⟨S, hr, fun s hs => ⟨hS s hs, isValidSolution_of_goodSubtree (hS s hs)⟩⟩

/-- **The basic solver returns the valid results of the optimised one.** With a
probe that never cancels, a sequence `OptimisedSolve` returns is among those
`BasicSolve` returns exactly when `IsValidSolution` accepts it, whichever sort
procedures the two use. -/
theorem optimisedSolve_mem_basicSolve_iff (p : Params) (base : EhHashState) (srt1 srt2 : RowSort) :
    ∃ S B, optimisedSolve p base srt1 (fun _ => false) = .ok (some S) ∧
      basicSolve p base srt2 (fun _ => false) = .ok B ∧
      ∀ s ∈ S, s ∈ B ↔ isValidSolution p base s = some true := by
  obtain ⟨_, e1, S, rfl, hS⟩ := (ensures_optimisedSolve_good :
    Ensures _ _ (optimisedSolve p base srt1 (fun _ => false))).never
  obtain ⟨B, e2, hB⟩ := (ensures_basicSolve p base srt2 _).never
  refine ⟨S, B, e1, e2, fun s hs => ?_⟩
  rw [hB s, ← isValidSolution_and_seeds_iff]
  exact ⟨And.left, fun h => ⟨h, (hS s hs).2.1⟩⟩

end Equihash
