import Equihash.Optimised

/-! Phase A of `OptimisedSolve` on the solutions of the basic solver.

A truncated row stores, past its hash bytes, one truncation byte for each of its
seeds, in the order the truncated merges put them: at every node the child whose
truncated history compares smaller first, the right one on a tie
(`truncArrange`). On a solution every round keeps the rows of all the nodes of
its level, unless the probabilistic-duplicate filter prunes one of them, and the
final round pairs the two halves.

* `partialSolutions_never`: with a probe that never cancels, Phase A returns the
  truncations of the arrangement of every solution of the basic solver whose
  merges the filter does not prune;
* `partialSolutions_sound`: for every probe, each partial solution is the
  truncation list of `2^K` seeds whose every node XORs to zero on its blocks and
  whose whole XOR vanishes.
-/

namespace Equihash

/-! ## Truncated rows -/

section Truncated

variable (p : Params) (base : EhHashState)

/-- The truncated row the code holds for a subtree at level `l` whose seeds, in
stored order, are `σ`: the XOR past the `l` blocks already collided, then one
truncation byte per seed. -/
def truncatedRow (l : Nat) (σ : List UInt32) : List UInt8 :=
  (hashXor p base σ).drop (l * p.collisionByteLength) ++ truncateIndices σ p.indexLength

/-- Two sibling subtrees in the order the truncated merge stores them: the one
whose truncated history compares smaller first, the right one on a tie. -/
def truncJoin (ilen : Nat) (σ τ : List UInt32) : List UInt32 :=
  if compareBytes (truncateIndices σ ilen) (truncateIndices τ ilen) = .lt then σ ++ τ else τ ++ σ

/-- The leaves `σ` of a subtree of height `r`, in position order, rearranged as
the truncated merges store them. -/
def truncArrange (ilen : Nat) : Nat → List UInt32 → List UInt32
  | 0, σ => σ
  | r + 1, σ =>
    truncJoin ilen (truncArrange ilen r (σ.take (2 ^ r))) (truncArrange ilen r (σ.drop (2 ^ r)))

variable {p base}

theorem truncJoin_eq (ilen : Nat) (σ τ : List UInt32) :
    truncJoin ilen σ τ = σ ++ τ ∨ truncJoin ilen σ τ = τ ++ σ := by
  unfold truncJoin; split_ifs <;> simp

theorem perm_truncJoin (ilen : Nat) (σ τ : List UInt32) : (truncJoin ilen σ τ).Perm (σ ++ τ) := by
  rcases truncJoin_eq ilen σ τ with h | h <;> rw [h]
  exact List.perm_append_comm

theorem perm_truncArrange (ilen r : Nat) (σ : List UInt32) : (truncArrange ilen r σ).Perm σ := by
  induction r generalizing σ with
  | zero => exact List.Perm.refl _
  | succ r ih =>
    refine (perm_truncJoin _ _ _).trans ?_
    conv_rhs => rw [← List.take_append_drop (2 ^ r) σ]
    exact (ih _).append (ih _)

theorem truncArrange_append {ilen r : Nat} {σ τ : List UInt32} (hσ : σ.length = 2 ^ r) :
    truncArrange ilen (r + 1) (σ ++ τ) = truncJoin ilen (truncArrange ilen r σ) (truncArrange ilen r τ) := by
  rw [truncArrange, List.take_left' hσ, List.drop_left' hσ]

theorem truncateIndices_truncJoin (ilen : Nat) (σ τ : List UInt32) :
    truncateIndices (truncJoin ilen σ τ) ilen =
      if compareBytes (truncateIndices σ ilen) (truncateIndices τ ilen) = .lt then
        truncateIndices σ ilen ++ truncateIndices τ ilen
      else truncateIndices τ ilen ++ truncateIndices σ ilen := by
  unfold truncJoin; split_ifs <;> simp [truncateIndices]

theorem truncatedStepRow_eq_truncatedRow (i : UInt32) :
    truncatedStepRow p base i p.indexLength = truncatedRow p base 0 [i] := by
  simp [truncatedStepRow, truncatedRow, truncateIndices]

theorem length_truncateIndices (ilen : Nat) (σ : List UInt32) :
    (truncateIndices σ ilen).length = σ.length := List.length_map _ _

section Merge

variable {σ τ : List UInt32} {m : Nat} (hσ : σ.length = m) (hτ : τ.length = m)
include hσ hτ

/-- The index region a merge of two truncated rows at level `l` stores: their
truncations in `IndicesBefore` order, those of their truncated join. -/
theorem mergeIndices_truncatedRow (l : Nat) :
    (if indicesBefore (truncatedRow p base l σ) (truncatedRow p base l τ)
        (p.expandedHashLength - l * p.collisionByteLength) m then
      ((truncatedRow p base l σ).drop (p.expandedHashLength - l * p.collisionByteLength)).take m ++
        ((truncatedRow p base l τ).drop (p.expandedHashLength - l * p.collisionByteLength)).take m
    else ((truncatedRow p base l τ).drop (p.expandedHashLength - l * p.collisionByteLength)).take m ++
        ((truncatedRow p base l σ).drop (p.expandedHashLength - l * p.collisionByteLength)).take m) =
      truncateIndices (truncJoin p.indexLength σ τ) p.indexLength := by
  have hdrop : ∀ ρ : List UInt32,
      (truncatedRow p base l ρ).drop (p.expandedHashLength - l * p.collisionByteLength) =
        truncateIndices ρ p.indexLength := fun ρ =>
    List.drop_left' (length_encodedHash l ρ)
  rw [indicesBefore, hdrop, hdrop, memcmp,
    List.take_of_length_le (by rw [length_truncateIndices, hσ]),
    List.take_of_length_le (by rw [length_truncateIndices, hτ]), truncateIndices_truncJoin]
  simp only [decide_eq_true_eq]

/-- **Truncated merge.** The merge constructor maps two truncated rows at level `l`
to the truncated row of their truncated join at level `l + 1`. -/
theorem mergeRows_truncatedRow (l : Nat) :
    mergeRows (truncatedRow p base l σ) (truncatedRow p base l τ)
      (p.expandedHashLength - l * p.collisionByteLength) m p.collisionByteLength =
      truncatedRow p base (l + 1) (truncJoin p.indexLength σ τ) := by
  rw [mergeRows, mergeIndices_truncatedRow hσ hτ, truncatedRow, truncatedRow, hashPart_trim,
    hashPart_trim, ← drop_bytesXor, ← hashXor_append, truncatedRow,
    hashXor_perm (perm_truncJoin _ σ τ)]

/-- The final merge (`trim = 0`) of two truncated rows stores their truncated
join's truncations, where `GetTruncatedIndices` reads them back. -/
theorem getTruncatedIndices_mergeRows_final (l : Nat) :
    getTruncatedIndices (mergeRows (truncatedRow p base l σ) (truncatedRow p base l τ)
      (p.expandedHashLength - l * p.collisionByteLength) m 0)
      (p.expandedHashLength - l * p.collisionByteLength) (2 * m) =
      truncateIndices (truncJoin p.indexLength σ τ) p.indexLength := by
  rw [getTruncatedIndices, mergeRows, mergeIndices_truncatedRow hσ hτ,
    List.drop_left' (by simp [truncatedRow]),
    List.take_of_length_le (by rw [length_truncateIndices, (perm_truncJoin _ σ τ).length_eq,
      List.length_append, hσ, hτ]; omega)]

/-- **Filter.** `truncatedEmit` keeps the merge of two truncated rows at level `l`
unless its remaining hash is zero and its truncations pair up. -/
theorem truncatedEmit_truncatedRow (l : Nat)
    (hkeep : ¬ (ZeroPrefix ((hashXor p base (σ ++ τ)).drop ((l + 1) * p.collisionByteLength))
        (p.expandedHashLength - (l + 1) * p.collisionByteLength) ∧
      ∀ v : UInt8, Even ((truncateIndices (σ ++ τ) p.indexLength).count v))) :
    truncatedEmit (p.expandedHashLength - l * p.collisionByteLength) m p.collisionByteLength
      (truncatedRow p base l σ) (truncatedRow p base l τ) =
      some (truncatedRow p base (l + 1) (truncJoin p.indexLength σ τ)) := by
  have hlen : p.expandedHashLength - l * p.collisionByteLength - p.collisionByteLength =
      p.expandedHashLength - (l + 1) * p.collisionByteLength := by
    rw [Nat.sub_sub, Nat.add_one_mul]
  have hperm := perm_truncJoin p.indexLength σ τ
  have hz : isZero (truncatedRow p base (l + 1) (truncJoin p.indexLength σ τ))
      (p.expandedHashLength - (l + 1) * p.collisionByteLength) = true ↔
      ZeroPrefix ((hashXor p base (σ ++ τ)).drop ((l + 1) * p.collisionByteLength))
        (p.expandedHashLength - (l + 1) * p.collisionByteLength) := by
    rw [isZero_iff, truncatedRow, zeroPrefix_append_of_le (by rw [length_encodedHash]),
      hashXor_perm hperm]
  have hd : isProbablyDuplicate (getTruncatedIndices
      (truncatedRow p base (l + 1) (truncJoin p.indexLength σ τ))
      (p.expandedHashLength - (l + 1) * p.collisionByteLength) (2 * m)) (2 * m) = true ↔
      ∀ v : UInt8, Even ((truncateIndices (σ ++ τ) p.indexLength).count v) := by
    have hl : (truncateIndices (truncJoin p.indexLength σ τ) p.indexLength).length = 2 * m := by
      rw [length_truncateIndices, hperm.length_eq, List.length_append, hσ, hτ]; omega
    rw [getTruncatedIndices, truncatedRow, List.drop_left' (length_encodedHash _ _),
      List.take_of_length_le hl.le, ← hl, isProbablyDuplicate_iff_even]
    simp only [(hperm.map fun i => truncateIndex i p.indexLength).count_eq, truncateIndices]
  rw [truncatedEmit, truncatedStepRowMerge_eq, mergeRows_truncatedRow hσ hτ, hlen,
    if_pos (by rw [Bool.not_eq_true', ← Bool.not_eq_true, Bool.and_eq_true, hz, hd]; exact hkeep)]

end Merge

end Truncated

/-! ## The rounds on a solution -/

section Rounds

variable (p : Params) (base : EhHashState)

/-- The filter may prune a merge of `s`: some node of height `1 ≤ l ≤ K - 1` has
leaves whose hashes XOR to zero on all `K + 1` blocks and whose truncations hold
every byte value an even number of times. -/
def PrunedByFilter (s : List UInt32) : Prop :=
  ∃ l, 1 ≤ l ∧ l ≤ p.K - 1 ∧ ∃ g < 2 ^ (p.K - l),
    ZeroPrefix (hashXor p base (subtree s l g)) p.expandedHashLength ∧
      ∀ v : UInt8, Even ((truncateIndices (subtree s l g) p.indexLength).count v)

/-- The truncated rows of the nodes of height `r` of `s`, left to right. -/
def levelRows (s : List UInt32) (r : Nat) : List (List UInt8) :=
  (List.range (2 ^ (p.K - r))).map fun g =>
    truncatedRow p base r (truncArrange p.indexLength r (subtree s r g))

variable {p base}

theorem map_range_two_mul {β : Type} (f : Nat → β) (n : Nat) :
    (List.range (2 * n)).map f = (List.range n).flatMap fun g => [f (2 * g), f (2 * g + 1)] := by
  induction n with
  | zero => rfl
  | succ n ih =>
    rw [show 2 * (n + 1) = 2 * n + 1 + 1 by ring, List.range_succ, List.range_succ, List.range_succ,
      List.map_append, List.map_append, ih, List.flatMap_append]
    simp

/-- The rows of level 0 of `s` are those of its seeds, as step 1 generates them. -/
theorem levelRows_zero {s : List UInt32} (hs : s.length = 2 ^ p.K) :
    levelRows p base s 0 = s.map fun i => truncatedStepRow p base i p.indexLength := by
  refine List.ext_getElem (by simp [levelRows, hs]) fun n h₁ h₂ => ?_
  have hn : n < s.length := by simpa using h₂
  simp only [levelRows, List.getElem_map, List.getElem_range, truncatedStepRow_eq_truncatedRow]
  congr 1
  rw [truncArrange, subtree, pow_zero, Nat.mul_one, List.drop_eq_getElem_cons hn]
  rfl

/-- Before the first round: the rows of level 0 of every solution are among the
generated rows. -/
theorem levelRows_generate {s : List UInt32} (hs : GoodSubtree p base p.K s) :
    (levelRows p base s 0).Subperm
      ((initialSeeds p).map fun i => truncatedStepRow p base i p.indexLength) := by
  rw [levelRows_zero hs.1]
  obtain ⟨l, hp, hsub⟩ := List.subperm_of_subset ((canonical_iff_siblingsOkBelow hs.1).2 hs.2.2).1
    fun x hx => (mem_initialSeeds x).2 (hs.2.1 x hx)
  exact ⟨l.map _, hp.map _, hsub.map _⟩

section Node

variable {s : List UInt32} (hs : GoodSubtree p base p.K s) {r g : Nat} (hr : r < p.K)
  (hg : g < 2 ^ (p.K - (r + 1)))
include hs hr hg

/-- The two children of a node of `s` at height `r + 1`, as Phase A stores them,
collide on block `r + 1`. -/
theorem hasCollision_children :
    hasCollision (truncatedRow p base r (truncArrange p.indexLength r (subtree s r (2 * g))))
      (truncatedRow p base r (truncArrange p.indexLength r (subtree s r (2 * g + 1))))
      p.collisionByteLength = true := by
  rw [truncatedRow, truncatedRow, hasCollision_hashPart _ _ _ _ (collisionByteLength_le hr.le),
    hashXor_perm ((perm_truncArrange _ _ _).append (perm_truncArrange _ _ _))]
  exact decide_eq_true (hs.2.2 r hr g hg).1

/-- Unless the filter prunes it, a node of `s` at height `r + 1 ≤ K - 1` is the
truncated merge of its two children. -/
theorem truncatedEmit_children (hr1 : r + 1 ≤ p.K - 1) (hkeep : ¬ PrunedByFilter p base s) :
    truncatedEmit (p.expandedHashLength - r * p.collisionByteLength) (2 ^ r) p.collisionByteLength
      (truncatedRow p base r (truncArrange p.indexLength r (subtree s r (2 * g))))
      (truncatedRow p base r (truncArrange p.indexLength r (subtree s r (2 * g + 1)))) =
      some (truncatedRow p base (r + 1) (truncArrange p.indexLength (r + 1) (subtree s (r + 1) g))) := by
  have h2 := two_pow_sub_succ hr
  have hL := length_subtree hs.1 hr.le (show 2 * g < 2 ^ (p.K - r) by omega)
  have hR := length_subtree hs.1 hr.le (show 2 * g + 1 < 2 ^ (p.K - r) by omega)
  have hperm := (perm_truncArrange p.indexLength r (subtree s r (2 * g))).append
    (perm_truncArrange p.indexLength r (subtree s r (2 * g + 1)))
  rw [subtree_succ, truncArrange_append hL]
  refine truncatedEmit_truncatedRow ((perm_truncArrange _ _ _).length_eq.trans hL)
    ((perm_truncArrange _ _ _).length_eq.trans hR) r fun ⟨hz, hev⟩ => hkeep ?_
  have hnode := (((canonical_iff_siblingsOkBelow hs.1).2 hs.2.2).2 r hr g hg).1
  rw [subtree_succ] at hnode
  refine ⟨r + 1, by omega, hr1, g, hg, ?_, fun v => ?_⟩
  · have hEHL : (r + 1) * p.collisionByteLength ≤ p.expandedHashLength :=
      Nat.le_of_lt (Nat.lt_of_sub_pos (lt_of_lt_of_le p.collisionByteLength_pos
        (collisionByteLength_le (Nat.succ_le_of_lt hr))))
    rw [subtree_succ, ← Nat.add_sub_cancel' hEHL, zeroPrefix_add]
    exact ⟨hnode, by rwa [hashXor_perm hperm] at hz⟩
  · rw [subtree_succ, truncateIndices, ← (hperm.map fun i => truncateIndex i p.indexLength).count_eq]
    exact hev v

end Node

/-- **Round.** One round of Phase A keeps the rows of every node of the next level
of a solution whose merges the filter does not prune. -/
theorem levelRows_collidePass (srt : RowSort) {s : List UInt32} (hs : GoodSubtree p base p.K s)
    (hkeep : ¬ PrunedByFilter p base s) {r : Nat} (hr : r < p.K - 1) {X : List (List UInt8)}
    (hX : (levelRows p base s r).Subperm X) :
    (levelRows p base s (r + 1)).Subperm (Id.run (collidePass (pure ()) p.collisionByteLength
      (truncatedEmit (p.expandedHashLength - r * p.collisionByteLength) (2 ^ r) p.collisionByteLength)
      (srt.sort p.collisionByteLength X))) := by
  have hrK : r < p.K := by omega
  refine List.Subperm.trans ?_ ((collidePass_perm le_rfl (srt.sorted _ X)).trans
    (collisionMerges_perm (truncatedEmit_comm _ _ _) (srt.perm _ X))).symm.subperm
  rw [levelRows, two_pow_sub_succ hrK, map_range_two_mul] at hX
  exact map_subperm_collisionMerges (truncatedEmit_comm _ _ _) _ hX fun g hg =>
    ⟨hasCollision_children hs hrK (List.mem_range.1 hg),
      truncatedEmit_children hs hrK (List.mem_range.1 hg) (by omega) hkeep⟩

/-- **Phase A table.** For every probe, after `r ≤ K - 1` rounds Phase A's table
holds the rows of the nodes of height `r` of every solution the filter does not
prune, and while it is not empty `hashLen` and `lenIndices` are those of level
`r`. -/
theorem ensures_truncatedTable (srt : RowSort) (cancelled : EhSolverCancelCheck → Bool) {r : Nat}
    (hr : r ≤ p.K - 1) : Ensures cancelled (fun st => (∀ s, GoodSubtree p base p.K s →
      ¬ PrunedByFilter p base s → (levelRows p base s r).Subperm st.1) ∧ (0 < st.1.length →
        st.2.1 = p.expandedHashLength - r * p.collisionByteLength ∧ st.2.2 = 2 ^ r))
      (truncatedTable p base srt cancelled r) := by
  refine ensures_bind ((ensures_emplaceRows ..).mono fun X hX => ?_)
  have := @ensures_solverRounds p srt cancelled
    (fun hashLen lenIndices => truncatedCollide cancelled hashLen lenIndices p.collisionByteLength)
    (fun r X => ∀ s, GoodSubtree p base p.K s → ¬ PrunedByFilter p base s →
      (levelRows p base s r).Subperm X) 1
    (fun r X hr _ hX => (ensures_collidePass ..).mono fun _ h s hs hk => h ▸ by
      rw [Nat.one_mul]; exact levelRows_collidePass srt hs hk hr (hX s hs hk))
    (fun r h s hs hk => absurd (h s hs hk).length_le (by simp [levelRows]))
    r 0 X (by omega) (fun s hs _ => hX ▸ levelRows_generate hs)
  simp only [Nat.zero_add, Nat.zero_mul, Nat.sub_zero, pow_zero, Nat.one_mul] at this
  exact this

end Rounds

/-! ## The final round -/

theorem partialEmit_comm (hashLen lenIndices : Nat) (a b : List UInt8) :
    partialEmit hashLen lenIndices a b = partialEmit hashLen lenIndices b a := by
  simp only [partialEmit, truncatedStepRowMerge_eq, mergeRows_comm a b]

section Final

variable {p : Params} {base : EhHashState}

/-- **Final round.** On a table holding the rows of level `K - 1` of a solution of
the basic solver, the final round of Phase A yields the truncations of the
solution's arrangement. -/
theorem mem_partialMerges {s : List UInt32} (hs : GoodSubtree p base p.K s)
    (hz : ZeroPrefix ((hashXor p base s).drop (p.K * p.collisionByteLength)) p.collisionByteLength)
    {X : List (List UInt8)} (hX : (levelRows p base s (p.K - 1)).Subperm X) :
    truncateIndices (truncArrange p.indexLength p.K s) p.indexLength ∈
      collisionMerges (p.expandedHashLength - (p.K - 1) * p.collisionByteLength)
        (partialEmit (p.expandedHashLength - (p.K - 1) * p.collisionByteLength) (2 ^ (p.K - 1))) X := by
  have hK : p.K - 1 + 1 = p.K := Nat.sub_add_cancel p.k_pos
  have hK1 : p.K - 1 < p.K := Nat.sub_lt p.k_pos Nat.one_pos
  have hlast : (p.K - 1) * p.collisionByteLength + p.collisionByteLength =
      p.K * p.collisionByteLength := by rw [← Nat.add_one_mul, hK]
  have hsplit : s = subtree s (p.K - 1) 0 ++ subtree s (p.K - 1) 1 := by
    show s = subtree s (p.K - 1) (2 * 0) ++ subtree s (p.K - 1) (2 * 0 + 1)
    rw [← subtree_succ, hK, subtree_root hs.1]
  have hL := length_subtree (g := 0) hs.1 hK1.le (by simp)
  have hperm := (perm_truncArrange p.indexLength (p.K - 1) (subtree s (p.K - 1) 0)).append
    (perm_truncArrange p.indexLength (p.K - 1) (subtree s (p.K - 1) 1))
  have hrows : levelRows p base s (p.K - 1) =
      [truncatedRow p base (p.K - 1) (truncArrange p.indexLength (p.K - 1) (subtree s (p.K - 1) 0)),
        truncatedRow p base (p.K - 1) (truncArrange p.indexLength (p.K - 1) (subtree s (p.K - 1) 1))] := by
    rw [levelRows, Nat.sub_sub_self p.k_pos]; rfl
  rw [hrows] at hX
  refine mem_collisionMerges_of_pair (partialEmit_comm _ _) hX ?_ ?_
  · rw [truncatedRow, truncatedRow, hasCollision_hashPart _ _ _ _ le_rfl, hashXor_perm hperm,
      ← hsplit, finalHashLen]
    refine decide_eq_true ?_
    rw [zeroPrefix_add, List.drop_drop, hlast]
    refine ⟨?_, hz⟩
    have := (hs.2.2 (p.K - 1) hK1 0 (by simp)).1
    rwa [Nat.mul_zero, Nat.zero_add, ← hsplit] at this
  · rw [partialEmit, truncatedStepRowMerge_eq, Nat.two_mul, ← Nat.two_mul,
      getTruncatedIndices_mergeRows_final ((perm_truncArrange _ _ _).length_eq.trans hL)
        ((perm_truncArrange _ _ _).length_eq.trans (length_subtree hs.1 hK1.le
          (by rw [Nat.sub_sub_self p.k_pos]; decide))),
      ← truncArrange_append hL, hK, ← hsplit]

end Final

/-- **Phase A.** With a probe that never cancels, Phase A returns a list of partial
solutions holding the truncations of the arrangement of every solution of the
basic solver whose merges the filter does not prune. -/
theorem partialSolutions_never (p : Params) (base : EhHashState) (srt : RowSort) :
    ∃ Ps, partialSolutions p base srt (fun _ => false) = .ok Ps ∧
      ∀ s, GoodSubtree p base p.K s →
        ZeroPrefix ((hashXor p base s).drop (p.K * p.collisionByteLength)) p.collisionByteLength →
        ¬ PrunedByFilter p base s → truncateIndices (truncArrange p.indexLength p.K s) p.indexLength ∈ Ps := by
  obtain ⟨⟨X, h', l'⟩, hrun, hX, hlen⟩ :=
    (@ensures_truncatedTable p base srt (fun _ => false) (p.K - 1) le_rfl).never
  unfold partialSolutions
  simp only [bind, Except.bind, hrun]
  by_cases h1 : 1 < X.length
  · obtain ⟨rfl, rfl⟩ := hlen (Nat.zero_lt_of_lt h1)
    rw [if_pos h1, check_never, check_never, finalRuns_pure (srt.sorted _ X), List.drop_zero]
    refine ⟨_, rfl, fun s hs hz hk => ?_⟩
    rw [(collisionMerges_perm (partialEmit_comm _ _) (srt.perm _ X)).mem_iff]
    exact mem_partialMerges hs hz (hX s hs hk)
  · rw [if_neg h1]
    refine ⟨[], rfl, fun s hs _ hk => absurd ?_ h1⟩
    have hle : (levelRows p base s (p.K - 1)).length ≤ X.length := (hX s hs hk).length_le
    rw [levelRows, List.length_map, List.length_range, Nat.sub_sub_self p.k_pos] at hle
    exact hle

/-! ## What Phase A's rows encode -/

section Sound

variable (p : Params) (base : EhHashState)

/-- The two children `L`, `R` of a node of height `h + 1` whose leaves XOR to zero
on the node's first `h + 1` blocks. -/
def ZeroNode (h : Nat) (L R : List UInt32) : Prop :=
  ZeroPrefix (hashXor p base (L ++ R)) ((h + 1) * p.collisionByteLength)

/-- A row Phase A may hold after `r` rounds: the truncated row of `2^r` seeds below
`InitialListSize`, in stored order, every node of which XORs to zero on its
blocks. -/
def TruncSound (r : Nat) (row : List UInt8) : Prop :=
  ∃ σ, row = truncatedRow p base r σ ∧ σ.length = 2 ^ r ∧ (∀ x ∈ σ, x.toNat < p.initSize) ∧
    AllNodes (ZeroNode p base) r σ

variable {p base}

/-- A tree whose nodes XOR to zero on their blocks XORs to zero on its first `r`
blocks. -/
theorem zeroPrefix_of_allNodes {r : Nat} {σ : List UInt32} (hσ : σ.length = 2 ^ r)
    (h : AllNodes (ZeroNode p base) r σ) : ZeroPrefix (hashXor p base σ) (r * p.collisionByteLength) := by
  cases r with
  | zero => simp
  | succ r =>
    have hs := (List.take_append_drop (2 ^ r) σ).symm
    obtain ⟨hL, hR⟩ := length_halves hσ
    rw [hs] at h ⊢
    exact ((allNodes_append hL hR).1 h).2.2

theorem length_truncJoin {r : Nat} {σ τ : List UInt32} (hσ : σ.length = 2 ^ r)
    (hτ : τ.length = 2 ^ r) (ilen : Nat) : (truncJoin ilen σ τ).length = 2 ^ (r + 1) := by
  rw [(perm_truncJoin _ σ τ).length_eq, List.length_append, hσ, hτ, Nat.pow_succ]
  omega

theorem seeds_truncJoin {σ τ : List UInt32} (hσ : ∀ x ∈ σ, x.toNat < p.initSize)
    (hτ : ∀ x ∈ τ, x.toNat < p.initSize) (ilen : Nat) : ∀ x ∈ truncJoin ilen σ τ, x.toNat < p.initSize :=
  fun x hx => (List.mem_append.1 ((perm_truncJoin _ σ τ).mem_iff.1 hx)).elim (hσ x) (hτ x)

theorem allNodes_truncJoin {r : Nat} {σ τ : List UInt32} (hσ : σ.length = 2 ^ r)
    (hτ : τ.length = 2 ^ r) (h1 : AllNodes (ZeroNode p base) r σ) (h2 : AllNodes (ZeroNode p base) r τ)
    (hz : ZeroNode p base r σ τ) (ilen : Nat) :
    AllNodes (ZeroNode p base) (r + 1) (truncJoin ilen σ τ) := by
  rcases truncJoin_eq ilen σ τ with h | h <;> rw [h]
  · exact (allNodes_append hσ hτ).2 ⟨h1, h2, hz⟩
  · exact (allNodes_append hτ hσ).2 ⟨h2, h1, by rwa [ZeroNode, hashXor_comm]⟩

/-- Two colliding rows of level `r < K` make a node that XORs to zero on its first
`r + 1` blocks. -/
theorem zeroNode_of_hasCollision {r : Nat} (hr : r < p.K) {σ τ : List UInt32}
    (hσ : σ.length = 2 ^ r) (hτ : τ.length = 2 ^ r) (h1 : AllNodes (ZeroNode p base) r σ)
    (h2 : AllNodes (ZeroNode p base) r τ)
    (hc : hasCollision (truncatedRow p base r σ) (truncatedRow p base r τ) p.collisionByteLength = true) :
    ZeroNode p base r σ τ := by
  rw [truncatedRow, truncatedRow, hasCollision_hashPart _ _ _ _ (collisionByteLength_le hr.le),
    decide_eq_true_iff] at hc
  rw [ZeroNode, Nat.succ_mul, zeroPrefix_add, hashXor_append]
  refine ⟨zeroPrefix_bytesXor (zeroPrefix_of_allNodes hσ h1) (zeroPrefix_of_allNodes hτ h2), ?_⟩
  rwa [← hashXor_append]

/-- **Sound merge.** A merge of two rows of level `r < K` that Phase A admits is a
row of level `r + 1`. -/
theorem truncSound_merge {r : Nat} (hr : r < p.K) {a b m : List UInt8} (ha : TruncSound p base r a)
    (hb : TruncSound p base r b) (hc : hasCollision a b p.collisionByteLength = true)
    (he : truncatedEmit (p.expandedHashLength - r * p.collisionByteLength) (2 ^ r)
      p.collisionByteLength a b = some m) : TruncSound p base (r + 1) m := by
  obtain ⟨σ, rfl, hσ, hσi, hσn⟩ := ha
  obtain ⟨τ, rfl, hτ, hτi, hτn⟩ := hb
  rw [truncatedEmit, truncatedStepRowMerge_eq, mergeRows_truncatedRow hσ hτ] at he
  split_ifs at he
  cases he
  exact ⟨_, rfl, length_truncJoin hσ hτ _, seeds_truncJoin hσi hτi _,
    allNodes_truncJoin hσ hτ hσn hτn (zeroNode_of_hasCollision hr hσ hτ hσn hτn hc) _⟩

/-- **Sound round.** Every row a round of Phase A makes from rows of level `r < K`
is a row of level `r + 1`. -/
theorem truncSound_collidePass (srt : RowSort) {r : Nat} (hr : r < p.K) {X : List (List UInt8)}
    (hX : ∀ row ∈ X, TruncSound p base r row) :
    ∀ m ∈ Id.run (collidePass (pure ()) p.collisionByteLength
      (truncatedEmit (p.expandedHashLength - r * p.collisionByteLength) (2 ^ r) p.collisionByteLength)
      (srt.sort p.collisionByteLength X)), TruncSound p base (r + 1) m := fun m hm => by
  rw [((collidePass_perm le_rfl (srt.sorted _ X)).trans
    (collisionMerges_perm (truncatedEmit_comm _ _ _) (srt.perm _ X))).mem_iff] at hm
  obtain ⟨a, ha, b, hb, hc, he⟩ := exists_of_mem_collisionMerges hm
  exact truncSound_merge hr (hX a ha) (hX b hb) hc he

/-- **Sound table.** For every probe, every row of Phase A's table after
`r ≤ K - 1` rounds is a row of level `r`. -/
theorem ensures_truncatedTable_sound (srt : RowSort) (cancelled : EhSolverCancelCheck → Bool)
    {r : Nat} (hr : r ≤ p.K - 1) :
    Ensures cancelled (fun st => (∀ row ∈ st.1, TruncSound p base r row) ∧ (0 < st.1.length →
        st.2.1 = p.expandedHashLength - r * p.collisionByteLength ∧ st.2.2 = 2 ^ r))
      (truncatedTable p base srt cancelled r) := by
  refine ensures_bind ((ensures_emplaceRows ..).mono fun X hX => ?_)
  have h0 : ∀ row ∈ X, TruncSound p base 0 row := fun row hrow => by
    obtain ⟨i, hi, rfl⟩ := List.mem_map.1 (hX ▸ hrow)
    refine ⟨[i], truncatedStepRow_eq_truncatedRow i, rfl, fun x hx => ?_,
      fun h hh => absurd hh (Nat.not_lt_zero _)⟩
    rw [List.mem_singleton.1 hx]
    exact (mem_initialSeeds i).1 hi
  have := @ensures_solverRounds p srt cancelled
    (fun hashLen lenIndices => truncatedCollide cancelled hashLen lenIndices p.collisionByteLength)
    (fun r X => ∀ row ∈ X, TruncSound p base r row) 1
    (fun r X hr _ hX => (ensures_collidePass ..).mono fun _ h => h ▸ by
      rw [Nat.one_mul]; exact truncSound_collidePass srt (by omega) hX)
    (fun _ _ row h => absurd h (List.not_mem_nil row)) r 0 X (by omega) h0
  simp only [Nat.zero_add, Nat.zero_mul, Nat.sub_zero, pow_zero, Nat.one_mul] at this
  exact this

/-- **Sound pair.** A pair of the final round of Phase A is the truncation list of
`2^K` seeds below `InitialListSize` whose every node of height `h + 1` XORs to
zero on its first `h + 1` blocks, and the whole on all `K + 1` blocks. -/
theorem partialEmit_sound {a b P : List UInt8} (ha : TruncSound p base (p.K - 1) a)
    (hb : TruncSound p base (p.K - 1) b)
    (hc : hasCollision a b (p.expandedHashLength - (p.K - 1) * p.collisionByteLength) = true)
    (he : partialEmit (p.expandedHashLength - (p.K - 1) * p.collisionByteLength) (2 ^ (p.K - 1)) a b =
      some P) :
    ∃ σ, P = truncateIndices σ p.indexLength ∧ σ.length = 2 ^ p.K ∧
      (∀ x ∈ σ, x.toNat < p.initSize) ∧
      (∀ h < p.K, ∀ g < 2 ^ (p.K - (h + 1)),
        ZeroPrefix (hashXor p base (subtree σ (h + 1) g)) ((h + 1) * p.collisionByteLength)) ∧
      ZeroPrefix (hashXor p base σ) p.expandedHashLength := by
  obtain ⟨σ, rfl, hσ, hσi, hσn⟩ := ha
  obtain ⟨τ, rfl, hτ, hτi, hτn⟩ := hb
  have hK : p.K - 1 + 1 = p.K := Nat.sub_add_cancel p.k_pos
  have hle : (p.K - 1) * p.collisionByteLength ≤ p.expandedHashLength :=
    Nat.mul_le_mul_right _ (by omega)
  rw [partialEmit, Option.some.injEq, truncatedStepRowMerge_eq,
    getTruncatedIndices_mergeRows_final hσ hτ] at he
  subst he
  rw [truncatedRow, truncatedRow, hasCollision_hashPart _ _ _ _ le_rfl, decide_eq_true_iff] at hc
  have hall : ZeroPrefix (hashXor p base (σ ++ τ)) p.expandedHashLength := by
    rw [← Nat.add_sub_cancel' hle, zeroPrefix_add]
    refine ⟨?_, hc⟩
    rw [hashXor_append]
    exact zeroPrefix_bytesXor (zeroPrefix_of_allNodes hσ hσn) (zeroPrefix_of_allNodes hτ hτn)
  have hroot : ZeroNode p base (p.K - 1) σ τ := by
    rw [ZeroNode, hK]
    rw [Params.expandedHashLength, Nat.succ_mul, zeroPrefix_add] at hall
    exact hall.1
  have hnodes := hK ▸ allNodes_truncJoin hσ hτ hσn hτn hroot p.indexLength
  refine ⟨_, rfl, hK ▸ length_truncJoin hσ hτ _, seeds_truncJoin hσi hτi _, fun h hh g hg => ?_, ?_⟩
  · have := hnodes h hh g hg
    rwa [ZeroNode, ← subtree_succ] at this
  · rwa [hashXor_perm (perm_truncJoin _ σ τ)]

end Sound

/-- **Phase A is sound.** For every probe and every `std::sort` meeting its
contract, each partial solution Phase A returns is the list of truncations, in
stored order, of `2^K` seeds below `InitialListSize` whose every node of height
`h + 1` XORs to zero on its first `h + 1` blocks, the whole tree on all `K + 1`
blocks; unless cancelled. -/
theorem partialSolutions_sound (p : Params) (base : EhHashState) (srt : RowSort)
    (cancelled : EhSolverCancelCheck → Bool) :
    Ensures cancelled (fun Ps => ∀ P ∈ Ps, ∃ σ, P = truncateIndices σ p.indexLength ∧
        σ.length = 2 ^ p.K ∧ (∀ x ∈ σ, x.toNat < p.initSize) ∧
        (∀ h < p.K, ∀ g < 2 ^ (p.K - (h + 1)),
          ZeroPrefix (hashXor p base (subtree σ (h + 1) g)) ((h + 1) * p.collisionByteLength)) ∧
        ZeroPrefix (hashXor p base σ) p.expandedHashLength)
      (partialSolutions p base srt cancelled) := by
  unfold partialSolutions
  refine ensures_bind ((@ensures_truncatedTable_sound p base srt cancelled (p.K - 1) le_rfl).mono
    fun ⟨X, h', l'⟩ ⟨hX, hlen⟩ => ?_)
  by_cases h1 : 1 < X.length
  · obtain ⟨rfl, rfl⟩ := hlen (Nat.zero_lt_of_lt h1)
    simp only [if_pos h1]
    refine ensures_check _ ((ensures_finalRuns ..).mono fun Ps hPs P hP => ?_)
    rw [hPs, finalRuns_pure (srt.sorted _ X), List.drop_zero, Id.pure_eq] at hP
    dsimp only [Id.run] at hP
    obtain ⟨a, ha, b, hb, hc, he⟩ := exists_of_mem_collisionMerges hP
    exact partialEmit_sound (hX a ((srt.perm _ X).mem_iff.1 ha)) (hX b ((srt.perm _ X).mem_iff.1 hb))
      hc he
  · simp only [if_neg h1]
    exact ensures_pure fun P hP => absurd hP (List.not_mem_nil P)

end Equihash
