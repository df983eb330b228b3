import Equihash.Basic

/-! `Equihash<N,K>::OptimisedSolve`.

Phase A runs the rounds of the basic solver on truncated rows, which keep one
byte per index, with the probabilistic-duplicate filter in place of the
distinctness test, and collects the truncated histories of the pairs of its
final round: the partial solutions. Phase B rebuilds each partial solution leaf
by leaf: the candidate full rows of each position are merged by
`CollideBranches` along a binary counter of slots `X[0..K]`.

Phase B's undefined behaviour is an outcome of the model: an unsigned `lti`
wrapping below zero, an empty list handed to `CollideBranches` (whose
`X.size() - 1` wraps), a failing `assert(X.size() == K+1)`, or the dereference
of an empty `X[K]`.
-/

namespace Equihash

/-! ## Phase A -/

/-- A pair of Phase A's final round: the truncated history of the merge over all
of `hashLen` (`trim = 0`). -/
def partialEmit (hashLen lenIndices : Nat) (a b : List UInt8) : Option (List UInt8) :=
  some (getTruncatedIndices (truncatedStepRowMerge a b hashLen lenIndices 0) hashLen
    (2 * lenIndices))

/-- Steps 1 to 3 of Phase A: the table of truncated rows after `r` rounds, with
its `hashLen` and `lenIndices` (`sizeof(eh_trunc) = 1` at the start). -/
def truncatedTable (p : Params) (base : EhHashState) (srt : RowSort)
    (cancelled : EhSolverCancelCheck → Bool) (r : Nat) :
    Except EhSolverCancelled (List (List UInt8) × Nat × Nat) := do
  let Xt ← emplaceRows cancelled .ListGeneration (fun i => truncatedStepRow p base i p.indexLength)
    (initialSeeds p)
  solverRounds p srt cancelled
    (fun hashLen lenIndices => truncatedCollide cancelled hashLen lenIndices p.collisionByteLength)
    r (Xt, p.expandedHashLength, 1)

/-- Phase A: the partial solutions, one for each pair of rows of the final round
colliding on all the remaining bytes, in the order the scan finds them. -/
def partialSolutions (p : Params) (base : EhHashState) (srt : RowSort)
    (cancelled : EhSolverCancelCheck → Bool) : Except EhSolverCancelled (List (List UInt8)) := do
  let (Xt, hashLen, lenIndices) ← truncatedTable p base srt cancelled (p.K - 1)
  if 1 < Xt.length then
    let Xt := srt.sort hashLen Xt
    check cancelled .FinalSorting
    finalRuns (check cancelled .FinalColliding) hashLen (partialEmit hashLen lenIndices) Xt 0
  else pure []

/-! ## Phase B -/

/-- How the carry chain of a leaf, or the loop over the leaves, ends: with the
slot vector and the last `hashLen` and `lenIndices`, at `goto invalidsolution`,
or in undefined behaviour. -/
inductive Carry
  | stored (X : List (Option (List (List UInt8)))) (hashLen lenIndices : Nat)
  | invalid
  | undefined

/-- Where one iteration of the carry loop leaves it: on at the next level, with
the slot vector, rows, `hashLen`, `lenIndices` and `rti` the merge branch sets,
or out of the loop, ending the leaf's carry chain. -/
inductive CarryStep
  | next (X : List (Option (List (List UInt8)))) (ic : List (List UInt8))
    (hashLen lenIndices rti : Nat)
  | done (c : Carry)

/-- Steps 2b to 2d at level `r`: the body of `for (r = 0; r <= K; r++)`,
carrying the rows `ic` of the subtree whose first leaf is at position `rti`. -/
def carryStep (p : Params) (srt : RowSort) (cancelled : EhSolverCancelCheck → Bool)
    (P : List UInt8) (r : Nat) (X : List (Option (List (List UInt8)))) (ic : List (List UInt8))
    (hashLen lenIndices rti : Nat) : Except EhSolverCancelled CarryStep :=
  if r < X.length then
    match X.getD r none with
    | some Xr => do
      let ic := srt.sort hashLen (ic ++ Xr)
      check cancelled .PartialSorting
      if rti < 2 ^ r ∨ ic.length = 0 then pure (.done .undefined)
      else
        let lti := rti - 2 ^ r
        let ic := collideBranches ic hashLen lenIndices p.collisionByteLength p.indexLength
          (P.getD lti 0) (P.getD rti 0)
        if ic.length = 0 then pure (.done .invalid)
        else do
          check cancelled .PartialSubtreeEnd
          pure (.next (X.set r none) ic (hashLen - p.collisionByteLength) (lenIndices * 2) lti)
    | none => pure (.done (.stored (X.set r (some ic)) hashLen lenIndices))
  else pure (.done (.stored (X ++ [some ic]) hashLen lenIndices))

/-- The carry loop of a leaf from level `r`, with `n` iterations left. Leaving
the loop without `break` drops `ic`. -/
def carryUp (p : Params) (srt : RowSort) (cancelled : EhSolverCancelCheck → Bool)
    (P : List UInt8) : Nat → Nat → List (Option (List (List UInt8))) → List (List UInt8) →
      Nat → Nat → Nat → Except EhSolverCancelled Carry
  | 0, _, X, _, hashLen, lenIndices, _ => pure (.stored X hashLen lenIndices)
  | n + 1, r, X, ic, hashLen, lenIndices, rti => do
    match ← carryStep p srt cancelled P r X ic hashLen lenIndices rti with
    | .next X ic hashLen lenIndices rti =>
      carryUp p srt cancelled P n (r + 1) X ic hashLen lenIndices rti
    | .done c => pure c

/-- Steps 1 to 2d for the leaves `i, i + 1, ...` of a partial solution `P`, `n`
of them left: the candidate rows `UntruncateIndex(P[i], j, ilen)` of position
`i`, carried up from slot `0`. -/
def leafLoop (p : Params) (base : EhHashState) (srt : RowSort)
    (cancelled : EhSolverCancelCheck → Bool) (P : List UInt8) :
    Nat → Nat → List (Option (List (List UInt8))) → Nat → Nat → Except EhSolverCancelled Carry
  | 0, _, X, hashLen, lenIndices => pure (.stored X hashLen lenIndices)
  | n + 1, i, X, _, _ => do
    let icv ← emplaceRows cancelled .PartialGeneration (fullStepRow p base)
      (leafCandidates (P.getD i 0) p.indexLength)
    match ← carryUp p srt cancelled P (p.K + 1) 0 X icv p.expandedHashLength 4 i with
    | .stored X hashLen lenIndices => do
      check cancelled .PartialIndexEnd
      leafLoop p base srt cancelled P n (i + 1) X hashLen lenIndices
    | c => pure c

/-- What Phase B makes of one partial solution. -/
inductive Culled
  | solutions (found : List (List UInt32))
  | invalid
  | undefined

/-- Phase B for one partial solution: its `soln_size` leaves, then
`assert(X.size() == K+1)` and the histories of the rows of `X[K]`, read with the
`hashLen` and `lenIndices` the last leaf left (the loop always runs, so their
values before it do not matter). -/
def cullPartial (p : Params) (base : EhHashState) (srt : RowSort)
    (cancelled : EhSolverCancelCheck → Bool) (P : List UInt8) :
    Except EhSolverCancelled Culled := do
  match ← leafLoop p base srt cancelled P p.solnSize 0 [] p.expandedHashLength 4 with
  | .stored X hashLen lenIndices =>
    if X.length = p.K + 1 then
      match X.getD p.K none with
      | some rows => do
        let found := rows.map fun row => getIndices row hashLen lenIndices
        check cancelled .PartialEnd
        pure (.solutions found)
      | none => pure .undefined
    else pure .undefined
  | .invalid => pure .invalid
  | .undefined => pure .undefined

/-- Phase B over the partial solutions in turn, inserting what each yields into
`solns`; `none` once one meets undefined behaviour. -/
def cullAll (p : Params) (base : EhHashState) (srt : RowSort)
    (cancelled : EhSolverCancelCheck → Bool) :
    List (List UInt8) → Finset (List UInt32) →
      Except EhSolverCancelled (Option (Finset (List UInt32)))
  | [], solns => pure (some solns)
  | P :: Ps, solns => do
    match ← cullPartial p base srt cancelled P with
    | .solutions found => cullAll p base srt cancelled Ps (solns ∪ found.toFinset)
    | .invalid => cullAll p base srt cancelled Ps solns
    | .undefined => pure none

/-- `Equihash<N,K>::OptimisedSolve(base_state, cancelled)`, with `std::sort` any
procedure meeting its contract; `none` is undefined behaviour. -/
def optimisedSolve (p : Params) (base : EhHashState) (srt : RowSort)
    (cancelled : EhSolverCancelCheck → Bool) :
    Except EhSolverCancelled (Option (Finset (List UInt32))) := do
  let partialSolns ← partialSolutions p base srt cancelled
  cullAll p base srt cancelled partialSolns ∅

end Equihash
