import Equihash.PhaseA
import Equihash.PhaseB

/-! What `OptimisedSolve` returns, against `BasicSolve`.

Phase A stores a solution's seeds in the order of their truncations
(`truncArrange`); handed those truncations, Phase B rebuilds the ordered tree of
the arranged seeds, and for a solution of the basic solver that tree is the
solution again. So the optimised solver finds every solution of the basic solver
whose merges the probabilistic-duplicate filter does not prune.

The converse fails: Phase B checks the last block of a rebuilt tree nowhere, so
it also returns other seeds sharing a partial solution's truncations, whose XOR
need not vanish on the last block.

* `optimisedSolve_complete`: with a probe that never cancels, both solvers
  return, and every solution of the basic solver that the filter does not prune
  is among the optimised solver's.
* `optimisedSolve_unsound`: at `(N, K) = (48, 5)`, with a hash under which seed 1
  is seed 0 but for the last byte and every table stays below 520 rows, the
  optimised solver returns a sequence the basic solver does not return and the
  verifier rejects.
-/

namespace Equihash

/-! ## The arrangement of a solution -/

section Arrangement

variable {p : Params} {base : EhHashState}

/-- Siblings passing their checks are stored left first, whichever is given first. -/
theorem joinOrdered_of_siblingsOk {r : Nat} {L R : List UInt32} (hL : L ≠ []) (hR : R ≠ [])
    (h : SiblingsOk p base r L R) : joinOrdered L R = L ++ R ∧ joinOrdered R L = L ++ R :=
  ⟨if_pos (lex_of_not_lex hL hR h.2.1 h.2.2), if_neg h.2.2⟩

/-- The ordered tree of the truncated arrangement of a subtree passing its sibling
checks is the subtree itself. -/
theorem orderedTree_truncArrange (ilen : Nat) : ∀ {r : Nat} {σ : List UInt32}, σ.length = 2 ^ r →
    SiblingsOkBelow p base r σ → orderedTree r (truncArrange ilen r σ) = σ
  | 0, _, _, _ => rfl
  | r + 1, σ, hσ, hs => by
    obtain ⟨hL, hR⟩ := length_halves hσ
    rw [← List.take_append_drop (2 ^ r) σ, siblingsOkBelow_append hL hR] at hs
    obtain ⟨HL, HR, hsib⟩ := hs
    have hj := joinOrdered_of_siblingsOk (ne_nil_of_length_two_pow hL) (ne_nil_of_length_two_pow hR) hsib
    have hA := (perm_truncArrange ilen r (σ.take (2 ^ r))).length_eq.trans hL
    have hB := (perm_truncArrange ilen r (σ.drop (2 ^ r))).length_eq.trans hR
    rw [truncArrange]
    rcases truncJoin_eq ilen (truncArrange ilen r (σ.take (2 ^ r)))
      (truncArrange ilen r (σ.drop (2 ^ r))) with h | h <;> rw [h]
    · rw [orderedTree_append hA, orderedTree_truncArrange ilen hL HL,
        orderedTree_truncArrange ilen hR HR, hj.1, List.take_append_drop]
    · rw [orderedTree_append hB, orderedTree_truncArrange ilen hL HL,
        orderedTree_truncArrange ilen hR HR, hj.2, List.take_append_drop]

theorem head_le_of_compareBytes_ne_gt {x y : UInt8} {a b : List UInt8}
    (h : compareBytes (x :: a) (y :: b) ≠ .gt) : x.toNat ≤ y.toNat := by
  rw [compareBytes] at h
  by_contra hxy
  exact h (by rw [(compare_gt_iff_gt (a := x.toNat)).2 (by omega)]; rfl)

/-- The first seed of a truncated arrangement has the least truncation. -/
theorem truncateIndex_head_truncArrange_le (ilen : Nat) : ∀ {r : Nat} {σ : List UInt32},
    σ.length = 2 ^ r → ∀ x ∈ σ,
      (truncateIndex ((truncArrange ilen r σ).headD 0) ilen).toNat ≤ (truncateIndex x ilen).toNat
  | 0, σ, hσ, x, hx => by
    obtain ⟨y, rfl⟩ := List.length_eq_one.1 hσ
    rw [List.mem_singleton.1 hx]
    exact le_rfl
  | r + 1, σ, hσ, x, hx => by
    obtain ⟨hL, hR⟩ := length_halves hσ
    have IA := truncateIndex_head_truncArrange_le ilen hL
    have IB := truncateIndex_head_truncArrange_le ilen hR
    obtain ⟨a, A, hA⟩ := List.exists_cons_of_ne_nil
      (ne_nil_of_length_two_pow ((perm_truncArrange ilen r _).length_eq.trans hL))
    obtain ⟨b, B, hB⟩ := List.exists_cons_of_ne_nil
      (ne_nil_of_length_two_pow ((perm_truncArrange ilen r _).length_eq.trans hR))
    rw [hA, List.headD_cons] at IA
    rw [hB, List.headD_cons] at IB
    rw [← List.take_append_drop (2 ^ r) σ, List.mem_append] at hx
    rw [truncArrange, truncJoin, hA, hB]
    simp only [truncateIndices, List.map_cons]
    split_ifs with hlt
    · have hab := head_le_of_compareBytes_ne_gt (by rw [hlt]; decide)
      rw [List.cons_append, List.headD_cons]
      exact hx.elim (IA x) fun hx => hab.trans (IB x hx)
    · have hba := head_le_of_compareBytes_ne_gt fun h => hlt (by rw [compareBytes_swap, h]; rfl)
      rw [List.cons_append, List.headD_cons]
      exact hx.elim (fun hx => hba.trans (IA x hx)) (IB x)

/-- For a subtree passing its sibling checks, the first seeds of the subtree and
of its truncated arrangement truncate alike. -/
theorem truncateIndex_head_truncArrange {r : Nat} {σ : List UInt32} (hσ : σ.length = 2 ^ r)
    (hs : SiblingsOkBelow p base r σ) (hlt : ∀ x ∈ σ, x.toNat < 2 ^ p.indexLength) :
    truncateIndex ((truncArrange p.indexLength r σ).headD 0) p.indexLength =
      truncateIndex (σ.headD 0) p.indexLength := by
  obtain ⟨a, A, hA⟩ := List.exists_cons_of_ne_nil
    (ne_nil_of_length_two_pow ((perm_truncArrange p.indexLength r σ).length_eq.trans hσ))
  have hmem : a ∈ σ := (perm_truncArrange p.indexLength r σ).subset (hA ▸ List.mem_cons_self _ _)
  obtain ⟨b, B, rfl⟩ := List.exists_cons_of_ne_nil (ne_nil_of_length_two_pow hσ)
  have h1 := truncateIndex_head_truncArrange_le p.indexLength hσ b (List.mem_cons_self _ _)
  have h2 := truncateIndex_mono p.indexLength_ge p.indexLength_le
    (head_le_of_siblingsOkBelow hσ hs a hmem) (hlt a hmem)
  rw [hA, List.headD_cons] at h1 ⊢
  exact UInt8.toNat.inj (Nat.le_antisymm h1 h2)

/-- Every node of the truncated arrangement of a good subtree is as Phase B needs
it to rebuild the subtree. -/
theorem allNodes_truncArrange : ∀ {r : Nat} {σ : List UInt32}, GoodSubtree p base r σ →
    AllNodes (NodeRebuilds p base) r (truncArrange p.indexLength r σ)
  | 0, _, _ => fun _ hh => absurd hh (Nat.not_lt_zero _)
  | r + 1, σ, ⟨hσ, hlt, hs⟩ => by
    obtain ⟨hL, hR⟩ := length_halves hσ
    rw [← List.take_append_drop (2 ^ r) σ, siblingsOkBelow_append hL hR] at hs
    obtain ⟨HL, HR, hz, hd, -⟩ := hs
    have gL : GoodSubtree p base r (σ.take (2 ^ r)) :=
      ⟨hL, fun i hi => hlt i (List.mem_of_mem_take hi), HL⟩
    have gR : GoodSubtree p base r (σ.drop (2 ^ r)) :=
      ⟨hR, fun i hi => hlt i (List.mem_of_mem_drop hi), HR⟩
    have hA := (perm_truncArrange p.indexLength r (σ.take (2 ^ r))).length_eq.trans hL
    have hB := (perm_truncArrange p.indexLength r (σ.drop (2 ^ r))).length_eq.trans hR
    have tA := truncateIndex_head_truncArrange hL HL gL.2.1
    have tB := truncateIndex_head_truncArrange hR HR gR.2.1
    have oA := orderedTree_truncArrange p.indexLength hL HL
    have oB := orderedTree_truncArrange p.indexLength hR HR
    rw [truncArrange]
    rcases truncJoin_eq p.indexLength (truncArrange p.indexLength r (σ.take (2 ^ r)))
      (truncArrange p.indexLength r (σ.drop (2 ^ r))) with h | h <;> rw [h]
    · exact (allNodes_append hA hB).2 ⟨allNodes_truncArrange gL, allNodes_truncArrange gR,
        by rw [NodeRebuilds, oA, oB]; exact ⟨hz, hd, tA.symm, tB.symm⟩⟩
    · exact (allNodes_append hB hA).2 ⟨allNodes_truncArrange gR, allNodes_truncArrange gL,
        by rw [NodeRebuilds, oA, oB, hashXor_comm]; exact ⟨hz, fun x hx hx' => hd x hx' hx, tB.symm, tA.symm⟩⟩

/-- **Arrangement rebuilds.** Phase B rebuilds the truncated arrangement of every
good tree of height `K`. -/
theorem rebuilds_truncArrange {s : List UInt32} (hs : GoodSubtree p base p.K s) :
    Rebuilds p base (truncArrange p.indexLength p.K s) :=
  ⟨(perm_truncArrange _ _ _).length_eq.trans hs.1,
    fun x hx => hs.2.1 x ((perm_truncArrange _ _ _).subset hx), allNodes_truncArrange hs⟩

end Arrangement

/-! ## The optimised solver -/

/-- With a probe that never cancels, Phase B over a list of partial solutions
returns a set holding what each one yields. -/
theorem cullAll_never (p : Params) (base : EhHashState) (srt : RowSort) :
    ∀ (Ps : List (List UInt8)) (acc : Finset (List UInt32)),
      ∃ S, cullAll p base srt (fun _ => false) Ps acc = .ok (some S) ∧ acc ⊆ S ∧
        ∀ P ∈ Ps, ∀ found, cullPartial p base srt (fun _ => false) P = .ok (.solutions found) →
          ∀ s ∈ found, s ∈ S
  | [], acc => ⟨acc, rfl, subset_rfl, fun _ h => absurd h (List.not_mem_nil _)⟩
  | P :: Ps, acc => by
    obtain ⟨c, hc, hq⟩ := (@cullPartial_slotRows p base P srt (fun _ => false)).never
    rw [cullAll]
    simp only [bind, Except.bind, hc]
    rcases hq with rfl | ⟨rows, -, rfl⟩
    · obtain ⟨S, hS, hacc, hP⟩ := cullAll_never p base srt Ps acc
      refine ⟨S, hS, hacc, fun P' hP' found hf => ?_⟩
      rcases List.mem_cons.1 hP' with rfl | hP'
      · rw [hc] at hf; cases hf
      · exact hP P' hP' found hf
    · obtain ⟨S, hS, hacc, hP⟩ := cullAll_never p base srt Ps _
      refine ⟨S, hS, Finset.subset_union_left.trans hacc, fun P' hP' found hf s hs => ?_⟩
      rcases List.mem_cons.1 hP' with rfl | hP'
      · rw [hc] at hf
        cases hf
        exact hacc (Finset.mem_union_right _ (List.mem_toFinset.2 hs))
      · exact hP P' hP' found hf s hs

/-- With a probe that never cancels, `OptimisedSolve` returns, without undefined
behaviour, a set holding the ordered tree of every list of seeds that Phase B
rebuilds and whose truncations are a partial solution of Phase A. -/
theorem optimisedSolve_never (p : Params) (base : EhHashState) (srt : RowSort) :
    ∃ Ps S, partialSolutions p base srt (fun _ => false) = .ok Ps ∧
      optimisedSolve p base srt (fun _ => false) = .ok (some S) ∧
      ∀ ρ, Rebuilds p base ρ → truncateIndices ρ p.indexLength ∈ Ps → orderedTree p.K ρ ∈ S := by
  obtain ⟨Ps, hPs, -⟩ := partialSolutions_never p base srt
  obtain ⟨S, hS, -, hP⟩ := cullAll_never p base srt Ps ∅
  refine ⟨Ps, S, hPs, by simp only [optimisedSolve, bind, Except.bind, hPs, hS], fun ρ hρ hmem => ?_⟩
  obtain ⟨c, hc, found, rfl, hfound⟩ := (cullPartial_rebuilds hρ srt (fun _ => false)).never
  exact hP _ hmem found hc _ hfound

/-- **Completeness up to the filter.** With a probe that never cancels, both
solvers return, and every solution of `BasicSolve` is among `OptimisedSolve`'s
unless the probabilistic-duplicate filter may prune one of its merges; whatever
order Phase A gives two subtrees by their truncations, Phase B's position checks
accept the true subtree. -/
theorem optimisedSolve_complete (p : Params) (base : EhHashState) (srt : RowSort) :
    ∃ solnsB solnsO, basicSolve p base srt (fun _ => false) = .ok solnsB ∧
      optimisedSolve p base srt (fun _ => false) = .ok (some solnsO) ∧
      ∀ s ∈ solnsB, ¬ PrunedByFilter p base s → s ∈ solnsO := by
  obtain ⟨solnsB, hB, hmem⟩ := basicSolve_never p base srt
  obtain ⟨Ps, S, hPs, hO, hP⟩ := optimisedSolve_never p base srt
  obtain ⟨Ps', hPs', hA⟩ := partialSolutions_never p base srt
  obtain rfl : Ps' = Ps := Except.ok.inj (hPs'.symm.trans hPs)
  refine ⟨solnsB, S, hB, hO, fun s hs hk => ?_⟩
  obtain ⟨hgood, hz⟩ := (hmem s).1 hs
  have := hP _ (rebuilds_truncArrange hgood) (hA s hgood hz hk)
  rwa [orderedTree_truncArrange _ hgood.1 hgood.2.2] at this

/-! ## A sequence only the optimised solver returns -/

/-- `(N, K) = (48, 5)`, the smallest supported set: one-byte blocks, 9-bit
indices truncating to their top 8 bits, 512 seeds, 32 seeds to a solution. -/
def smallParams : Params where
  N := 48
  K := 5
  k_pos := by decide
  k_lt_n := by decide
  ilen_ge := by decide
  ilen_lt := by decide

/-- Block `b` of the leaf at position `q` of a tree of 32 leaves: block `b < 5`
carries, on the first leaf of each subtree of height `b`, a value shared by the
two siblings under the node of height `b + 1` and distinct across those nodes;
every other leaf, and the last block, is zero. -/
def treeByte (q b : Nat) : Nat :=
  if b < 5 ∧ q % 2 ^ b = 0 then (if b = 0 then q / 2 else q / 2 ^ (b + 1) + 1) else 0

/-- Byte `b` of the expanded hash of seed `i`. The even seeds below 64 are the
leaves of `treeByte`; seed 1 is seed 0 but for a last byte of 1. Every other
seed shares its first byte with exactly one other (`3, 5`, `7, 9`, ...,
`2k, 2k+1` from 64 on; 63 alone) and their second bytes XOR to a value no
other row of the first round has, so it drops out at the second. -/
def twinByte (i b : Nat) : Nat :=
  if i = 1 then (if b = 5 then 1 else treeByte 0 b)
  else if i % 2 = 0 ∧ i < 64 then treeByte (i / 2) b
  else if b = 0 then (if i < 64 then 16 + (i - 3) / 4 else i / 2)
  else if b = 1 then
    (if i < 64 then (if i % 4 = 3 then 9 + (i - 3) / 4 else 0)
     else if i % 2 = 0 then i / 2 - 8 else 0)
  else 0

/-- The hash of `twinByte`, keyed on the seed that `htole32` fed it. -/
def twinBase : EhHashState where
  digest input outlen := (List.range outlen).map fun b => (twinByte (bytesValue input.reverse) b).toUInt8
  length_digest _ _ := by simp

/-- The seeds `0, 2, ..., 62`: a solution, truncating to `0, 1, ..., 31`. -/
def treeSeeds : List UInt32 := (List.range 32).map fun q => UInt32.ofNat (2 * q)

/-- The seeds `1, 2, 4, ..., 62`: the same truncations, seed 1 in place of 0. -/
def twinSeeds : List UInt32 := 1 :: (List.range 31).map fun q => UInt32.ofNat (2 * (q + 1))

theorem not_even_counts_of_nodup {l : List UInt8} (hl : l ≠ []) (hnd : l.Nodup) :
    ¬ ∀ v : UInt8, Even (l.count v) := fun h => by
  obtain ⟨x, t, rfl⟩ := List.exists_cons_of_ne_nil hl
  have := h x
  rw [List.count_eq_one_of_mem hnd (List.mem_cons_self _ _)] at this
  exact Nat.not_even_one this

/-- **Optimised solver unsound.** At `(48, 5)` with the twin hash, for every sort,
`OptimisedSolve` returns `twinSeeds`, which `BasicSolve` does not return and
`IsValidSolution` rejects: Phase B rebuilds it from the partial solution of
`treeSeeds`, and never checks the last block, where its hashes XOR to 1. -/
theorem optimisedSolve_unsound (srt : RowSort) :
    ∃ solnsB solnsO, basicSolve smallParams twinBase srt (fun _ => false) = .ok solnsB ∧
      optimisedSolve smallParams twinBase srt (fun _ => false) = .ok (some solnsO) ∧
      twinSeeds ∈ solnsO ∧ twinSeeds ∉ solnsB ∧
      isValidSolution smallParams twinBase twinSeeds = some false := by
  obtain ⟨solnsB, hB, hmem⟩ := basicSolve_never smallParams twinBase srt
  obtain ⟨Ps, S, hPs, hO, hP⟩ := optimisedSolve_never smallParams twinBase srt
  obtain ⟨Ps', hPs', hA⟩ := partialSolutions_never smallParams twinBase srt
  obtain rfl : Ps' = Ps := Except.ok.inj (hPs'.symm.trans hPs)
  have hgood : GoodSubtree smallParams twinBase smallParams.K treeSeeds :=
    ⟨by decide, by decide, by decide⟩
  have hnd : (truncateIndices treeSeeds smallParams.indexLength).Nodup := by decide
  have hkeep : ¬ PrunedByFilter smallParams twinBase treeSeeds := by
    rintro ⟨l, -, hl, g, hg, -, hev⟩
    refine not_even_counts_of_nodup (List.ne_nil_of_length_pos ?_)
      (hnd.sublist (((List.take_sublist _ _).trans (List.drop_sublist _ _)).map _)) hev
    show 0 < (truncateIndices (subtree treeSeeds l g) smallParams.indexLength).length
    rw [length_truncateIndices, length_subtree hgood.1 (by omega) hg]
    exact Nat.two_pow_pos l
  have hpart := hA treeSeeds hgood (by decide) hkeep
  rw [show truncateIndices (truncArrange smallParams.indexLength smallParams.K treeSeeds)
    smallParams.indexLength = truncateIndices twinSeeds smallParams.indexLength by decide] at hpart
  have hfound := hP twinSeeds (by decide) hpart
  rw [show orderedTree smallParams.K twinSeeds = twinSeeds by decide] at hfound
  have hlast : ¬ ZeroPrefix ((hashXor smallParams twinBase twinSeeds).drop
      (smallParams.K * smallParams.collisionByteLength)) smallParams.collisionByteLength := by
    decide
  exact ⟨solnsB, S, hB, hO, hfound, fun h => hlast ((hmem _).1 h).2,
    by rw [isValidSolution_eq_decide, decide_eq_false fun h => hlast h.2.2]⟩

end Equihash
