import Equihash.PhaseA
import Equihash.PhaseB

/-! What the solvers' results do not depend on.

`std::sort` is not stable, and the model takes any procedure meeting its contract
(`RowSort`). Two such procedures order a table alike up to rows of equal key, so
every collision pass yields permuted tables; the final rounds, and Phase B of the
optimised solver, then insert the same solutions into the set in another order.
The model's probe answers by the label alone, so two runs ask it the same
questions, and a run under a probe that answers true more often is cancelled or
ends as the other.

* `basicSolve_sort_invariant`, `optimisedSolve_sort_invariant`: for every probe,
  each solver gives the same result with any two sort procedures, down to
  whether it is cancelled;
* `optimisedSolve_cancelled_or_same`: under any probe, `OptimisedSolve` is
  cancelled or returns what it returns under a probe that never cancels.
-/

namespace Equihash

/-! ## Two runs -/

/-- The first run is cancelled, or both return values related by `R`. -/
def CancelRel {α β : Type} (R : α → β → Prop) :
    Except EhSolverCancelled α → Except EhSolverCancelled β → Prop
  | .error _, _ => True
  | .ok a, .ok b => R a b
  | .ok _, .error _ => False

section CancelRel

variable {α β γ δ : Type} {R : α → β → Prop} {S : γ → δ → Prop}
  {cancelled1 cancelled2 : EhSolverCancelCheck → Bool}

theorem CancelRel.pure {a : α} {b : β} (h : R a b) : CancelRel R (pure a) (pure b) := h

theorem CancelRel.bind {e1 : Except EhSolverCancelled α} {e2 : Except EhSolverCancelled β}
    {f : α → Except EhSolverCancelled γ} {g : β → Except EhSolverCancelled δ}
    (h : CancelRel R e1 e2) (hf : ∀ a b, R a b → CancelRel S (f a) (g b)) :
    CancelRel S (e1 >>= f) (e2 >>= g) :=
  match e1, e2, h with
  | .error _, _, _ => trivial
  | .ok a, .ok b, h => hf a b h

/-- Both runs ask the same question, of a first probe that answers true
wherever the second does. -/
theorem CancelRel.check_bind (hc : ∀ l, cancelled2 l = true → cancelled1 l = true)
    (label : EhSolverCancelCheck) {e1 : Except EhSolverCancelled γ}
    {e2 : Except EhSolverCancelled δ} (h : CancelRel S e1 e2) :
    CancelRel S (check cancelled1 label >>= fun _ => e1) (check cancelled2 label >>= fun _ => e2) := by
  by_cases h1 : cancelled1 label
  · simp only [check, h1, if_true]
    trivial
  · simp only [check, h1, Bool.false_eq_true, if_false, mt (hc label) h1, pure_bind]
    exact h

theorem CancelRel.eq {e1 e2 : Except EhSolverCancelled α} (h12 : CancelRel Eq e1 e2)
    (h21 : CancelRel Eq e2 e1) : e1 = e2 :=
  match e1, e2, h12, h21 with
  | .error ⟨⟩, .error ⟨⟩, _, _ => rfl
  | .ok _, .ok _, h, _ => h ▸ rfl

theorem CancelRel.eq_or {e1 e2 : Except EhSolverCancelled α} (h : CancelRel Eq e1 e2) :
    e1 = .error ⟨⟩ ∨ e1 = e2 :=
  match e1, e2, h with
  | .error ⟨⟩, _, _ => .inl rfl
  | .ok _, .ok _, h => .inr (h ▸ rfl)

variable (hc : ∀ l, cancelled2 l = true → cancelled1 l = true) (label : EhSolverCancelCheck)
include hc

theorem emplaceRows_rel (mk : UInt32 → List UInt8) (seeds : List UInt32) :
    CancelRel Eq (emplaceRows cancelled1 label mk seeds) (emplaceRows cancelled2 label mk seeds) := by
  unfold emplaceRows
  induction seeds with
  | nil => rfl
  | cons i seeds ih =>
    rw [List.mapM_cons, List.mapM_cons]
    exact .bind (.check_bind hc label (.pure rfl)) fun _ _ hr => .bind ih fun _ _ hs =>
      .pure (hr ▸ hs ▸ rfl)

/-! ## Passes and rounds -/

variable (srt1 srt2 : RowSort)

/-- A collision pass after two sorts of permuted tables. -/
theorem collidePass_check_rel {clen len : Nat} (hclen : clen ≤ len)
    {emit : List UInt8 → List UInt8 → Option (List UInt8)} (hsym : ∀ a b, emit a b = emit b a)
    {Y1 Y2 : List (List UInt8)} (hY : Y1.Perm Y2) :
    CancelRel List.Perm (collidePass (check cancelled1 label) clen emit (srt1.sort len Y1))
      (collidePass (check cancelled2 label) clen emit (srt2.sort len Y2)) := by
  rw [collidePass_check, collidePass_check, (srt1.perm _ _).length_eq, (srt2.perm _ _).length_eq,
    hY.length_eq]
  split_ifs with h1 h2 h2
  · trivial
  · trivial
  · exact absurd ⟨hc label h2.1, h2.2⟩ h1
  · exact collidePass_sort_perm srt1 srt2 hclen hsym hY

/-- The final scan after two sorts of permuted tables. -/
theorem finalRuns_check_rel {hashLen : Nat} {emit : List UInt8 → List UInt8 → Option γ}
    (hsym : ∀ a b, emit a b = emit b a) {Y1 Y2 : List (List UInt8)} (hY : Y1.Perm Y2) :
    CancelRel List.Perm (finalRuns (check cancelled1 label) hashLen emit (srt1.sort hashLen Y1) 0)
      (finalRuns (check cancelled2 label) hashLen emit (srt2.sort hashLen Y2) 0) := by
  rw [finalRuns_check, finalRuns_check, (srt1.perm _ _).length_eq, (srt2.perm _ _).length_eq,
    hY.length_eq]
  split_ifs with h1 h2 h2
  · trivial
  · trivial
  · exact absurd ⟨hc label h2.1, h2.2⟩ h1
  · rw [finalRuns_pure (srt1.sorted _ _), finalRuns_pure (srt2.sorted _ _)]
    exact collisionMerges_perm hsym ((srt1.perm _ _).trans (hY.trans (srt2.perm _ _).symm))

omit label

/-- The rounds of both solvers in two runs, from permuted tables. -/
theorem solverRounds_rel {p : Params}
    {collide1 collide2 : Nat → Nat → List (List UInt8) → Except EhSolverCancelled (List (List UInt8))}
    (hcol : ∀ hashLen lenIndices Y1 Y2, Y1.Perm Y2 → CancelRel List.Perm
      (collide1 hashLen lenIndices (srt1.sort p.collisionByteLength Y1))
      (collide2 hashLen lenIndices (srt2.sort p.collisionByteLength Y2))) :
    ∀ n X1 X2 hashLen lenIndices, X1.Perm X2 →
      CancelRel (fun a b => a.1.Perm b.1 ∧ a.2 = b.2)
        (solverRounds p srt1 cancelled1 collide1 n (X1, hashLen, lenIndices))
        (solverRounds p srt2 cancelled2 collide2 n (X2, hashLen, lenIndices))
  | 0, _, _, _, _, hX => ⟨hX, rfl⟩
  | n + 1, X1, X2, h, l, hX => by
    rw [solverRounds, solverRounds, hX.length_eq]
    split_ifs
    · exact .check_bind hc _ (.bind (hcol h l X1 X2 hX) fun Z1 Z2 hZ => .check_bind hc _
        (solverRounds_rel hcol n Z1 Z2 _ _ hZ))
    · exact ⟨hX, rfl⟩

end CancelRel

/-! ## The basic solver -/

section Basic

variable (p : Params) (base : EhHashState) (srt1 srt2 : RowSort)
  {cancelled1 cancelled2 : EhSolverCancelCheck → Bool}
  (hc : ∀ l, cancelled2 l = true → cancelled1 l = true)
include hc

theorem basicTable_rel (r : Nat) :
    CancelRel (fun a b => a.1.Perm b.1 ∧ a.2 = b.2)
      (basicTable p base srt1 cancelled1 r) (basicTable p base srt2 cancelled2 r) :=
  .bind (emplaceRows_rel hc _ _ _) fun X _ hX => hX ▸ solverRounds_rel hc srt1 srt2
    (fun _ _ _ _ hY => collidePass_check_rel hc _ srt1 srt2 le_rfl (basicEmit_comm _ _ _) hY)
    r X X _ _ (.refl X)

theorem basicSolve_rel :
    CancelRel Eq (basicSolve p base srt1 cancelled1) (basicSolve p base srt2 cancelled2) := by
  refine .bind (basicTable_rel p base srt1 srt2 hc _) fun ⟨Y1, h, l⟩ ⟨Y2, _, _⟩ hY => ?_
  simp only [Prod.mk.injEq] at hY
  obtain ⟨hY, rfl, rfl⟩ := hY
  dsimp only
  rw [hY.length_eq]
  split_ifs
  · exact .check_bind hc _ (.bind (finalRuns_check_rel hc _ srt1 srt2 (finalEmit_comm _ _) hY)
      fun _ _ hf => List.toFinset_eq_of_perm _ _ hf)
  · rfl

end Basic

/-- **Sorting does not matter to the basic solver.** For every probe, `BasicSolve`
gives the same result with any two procedures meeting the contract of
`std::sort`, down to whether it is cancelled. -/
theorem basicSolve_sort_invariant (p : Params) (base : EhHashState) (srt1 srt2 : RowSort)
    (cancelled : EhSolverCancelCheck → Bool) :
    basicSolve p base srt1 cancelled = basicSolve p base srt2 cancelled :=
  CancelRel.eq (basicSolve_rel p base srt1 srt2 fun _ => id) (basicSolve_rel p base srt2 srt1 fun _ => id)

/-! ## Phase A -/

section PhaseA

variable (p : Params) (base : EhHashState) (srt1 srt2 : RowSort)
  {cancelled1 cancelled2 : EhSolverCancelCheck → Bool}
  (hc : ∀ l, cancelled2 l = true → cancelled1 l = true)
include hc

theorem truncatedTable_rel (r : Nat) :
    CancelRel (fun a b => a.1.Perm b.1 ∧ a.2 = b.2)
      (truncatedTable p base srt1 cancelled1 r) (truncatedTable p base srt2 cancelled2 r) :=
  .bind (emplaceRows_rel hc _ _ _) fun X _ hX => hX ▸ solverRounds_rel hc srt1 srt2
    (fun _ _ _ _ hY => collidePass_check_rel hc _ srt1 srt2 le_rfl (truncatedEmit_comm _ _ _) hY)
    r X X _ _ (.refl X)

theorem partialSolutions_rel :
    CancelRel List.Perm (partialSolutions p base srt1 cancelled1)
      (partialSolutions p base srt2 cancelled2) := by
  refine .bind (truncatedTable_rel p base srt1 srt2 hc _) fun ⟨Y1, h, l⟩ ⟨Y2, _, _⟩ hY => ?_
  simp only [Prod.mk.injEq] at hY
  obtain ⟨hY, rfl, rfl⟩ := hY
  dsimp only
  rw [hY.length_eq]
  split_ifs
  · exact .check_bind hc _ (finalRuns_check_rel hc _ srt1 srt2 (partialEmit_comm _ _) hY)
  · exact .nil

end PhaseA

/-! ## Phase B -/

/-- Two slots holding permutations of one list of rows, or both empty. -/
def OptPerm : Option (List (List UInt8)) → Option (List (List UInt8)) → Prop
  | none, none => True
  | some a, some b => a.Perm b
  | _, _ => False

/-- Two slot vectors of one length whose slots are pairwise `OptPerm`. -/
def SlotsPerm (X1 X2 : List (Option (List (List UInt8)))) : Prop :=
  X1.length = X2.length ∧ ∀ r, OptPerm (X1.getD r none) (X2.getD r none)

/-- The same end of a carry chain or of the leaves, up to `SlotsPerm`. -/
def CarryPerm : Carry → Carry → Prop
  | .stored X1 h1 l1, .stored X2 h2 l2 => SlotsPerm X1 X2 ∧ h1 = h2 ∧ l1 = l2
  | .invalid, .invalid => True
  | .undefined, .undefined => True
  | _, _ => False

/-- The same outcome of Phase B for a partial solution, up to the order of the
solutions found. -/
def CulledPerm : Culled → Culled → Prop
  | .solutions f1, .solutions f2 => f1.Perm f2
  | .invalid, .invalid => True
  | .undefined, .undefined => True
  | _, _ => False

/-- The same iteration of a carry loop in two runs: both go on at `hashLen`, with
related slot vectors, permuted rows and the same `lenIndices` and `rti`, or both
leave the loop alike. -/
def StepPerm (hashLen : Nat) : CarryStep → CarryStep → Prop
  | .next X1 ic1 h1 l1 t1, .next X2 ic2 h2 l2 t2 =>
    SlotsPerm X1 X2 ∧ ic1.Perm ic2 ∧ h1 = hashLen ∧ h2 = hashLen ∧ l1 = l2 ∧ t1 = t2
  | .done c1, .done c2 => CarryPerm c1 c2
  | _, _ => False

theorem SlotsPerm.set {X1 X2 : List (Option (List (List UInt8)))} (h : SlotsPerm X1 X2) {r : Nat}
    (hr : r < X1.length) {o1 o2 : Option (List (List UInt8))} (ho : OptPerm o1 o2) :
    SlotsPerm (X1.set r o1) (X2.set r o2) := by
  refine ⟨by rw [List.length_set, List.length_set, h.1], fun r' => ?_⟩
  by_cases hrr : r = r'
  · subst hrr; rwa [getD_set_self hr, getD_set_self (h.1 ▸ hr)]
  · rw [getD_set_of_ne hrr, getD_set_of_ne hrr]; exact h.2 r'

theorem SlotsPerm.append {X1 X2 : List (Option (List (List UInt8)))} (h : SlotsPerm X1 X2)
    {o1 o2 : Option (List (List UInt8))} (ho : OptPerm o1 o2) :
    SlotsPerm (X1 ++ [o1]) (X2 ++ [o2]) := by
  refine ⟨by simp only [List.length_append, List.length_singleton, h.1], fun r => ?_⟩
  rcases Nat.lt_or_ge r X1.length with hr | hr
  · rw [List.getD_append _ _ _ _ hr, List.getD_append _ _ _ _ (h.1 ▸ hr)]; exact h.2 r
  · rw [List.getD_append_right _ _ _ _ hr, List.getD_append_right _ _ _ _ (h.1 ▸ hr), h.1]
    rcases Nat.lt_or_ge (r - X2.length) 1 with h1 | h1
    · rwa [show r - X2.length = 0 by omega]
    · rw [List.getD_eq_default _ _ (by simpa using h1), List.getD_eq_default _ _ (by simpa using h1)]
      trivial

section Carry

variable {p : Params} (srt1 srt2 : RowSort) {cancelled1 cancelled2 : EhSolverCancelCheck → Bool}
  (hc : ∀ l, cancelled2 l = true → cancelled1 l = true) (P : List UInt8)
include hc

/-- One iteration of the carry loops of a leaf in two runs, from related slot
vectors and permuted rows, with a collision's bytes left. -/
theorem carryStep_rel {r hashLen : Nat} (hh : p.collisionByteLength ≤ hashLen) (lenIndices rti : Nat)
    {X1 X2 : List (Option (List (List UInt8)))} {ic1 ic2 : List (List UInt8)}
    (hX : SlotsPerm X1 X2) (hic : ic1.Perm ic2) :
    CancelRel (StepPerm (hashLen - p.collisionByteLength))
      (carryStep p srt1 cancelled1 P r X1 ic1 hashLen lenIndices rti)
      (carryStep p srt2 cancelled2 P r X2 ic2 hashLen lenIndices rti) := by
  rw [carryStep, carryStep, hX.1]
  by_cases hr : r < X2.length
  · rw [if_pos hr, if_pos hr]
    have ho := hX.2 r
    rcases h1 : X1.getD r none with _ | Xr1 <;> rcases h2 : X2.getD r none with _ | Xr2 <;>
      rw [h1, h2] at ho
    · exact ⟨hX.set (hX.1 ▸ hr) hic, rfl, rfl⟩
    · exact ho.elim
    · exact ho.elim
    · have hs := (srt1.perm hashLen (ic1 ++ Xr1)).trans
        ((hic.append ho).trans (srt2.perm hashLen _).symm)
      have hcb := collidePass_sort_perm srt1 srt2 hh (branchEmit_comm hashLen lenIndices
        p.collisionByteLength p.indexLength (P.getD (rti - 2 ^ r) 0) (P.getD rti 0)) (hic.append ho)
      refine .check_bind hc _ ?_
      simp only [hs.length_eq, collideBranches, hcb.length_eq]
      split_ifs
      · trivial
      · trivial
      · exact .check_bind hc _ ⟨hX.set (hX.1 ▸ hr) trivial, hcb, rfl, rfl, rfl, rfl⟩
  · rw [if_neg hr, if_neg hr]
    exact ⟨hX.append hic, rfl, rfl⟩

/-- The carry chains of a leaf in two runs, from related slot vectors and
permuted rows, with a collision's bytes left for each iteration. -/
theorem carryUp_rel : ∀ n r X1 X2 ic1 ic2 hashLen lenIndices rti,
    n * p.collisionByteLength ≤ hashLen → SlotsPerm X1 X2 → ic1.Perm ic2 → CancelRel CarryPerm
      (carryUp p srt1 cancelled1 P n r X1 ic1 hashLen lenIndices rti)
      (carryUp p srt2 cancelled2 P n r X2 ic2 hashLen lenIndices rti)
  | 0, _, _, _, _, _, _, _, _, _, hX, _ => ⟨hX, rfl, rfl⟩
  | n + 1, r, X1, X2, ic1, ic2, hashLen, lenIndices, rti, hn, hX, hic => by
    rw [Nat.add_one_mul] at hn
    rw [carryUp, carryUp]
    refine .bind (carryStep_rel srt1 srt2 hc P (by omega) lenIndices rti hX hic) fun s1 s2 hs => ?_
    match s1, s2, hs with
    | .next X1' ic1' _ l t, .next X2' ic2' _ _ _, ⟨hX', hic', rfl, rfl, rfl, rfl⟩ =>
      exact carryUp_rel n (r + 1) X1' X2' ic1' ic2' _ l t (by omega) hX' hic'
    | .done _, .done _, hd => exact hd

variable (base : EhHashState)

/-- The leaves of a partial solution in two runs, from related slot vectors. -/
theorem leafLoop_rel : ∀ m i X1 X2 hashLen lenIndices, SlotsPerm X1 X2 → CancelRel CarryPerm
    (leafLoop p base srt1 cancelled1 P m i X1 hashLen lenIndices)
    (leafLoop p base srt2 cancelled2 P m i X2 hashLen lenIndices)
  | 0, _, _, _, _, _, hX => ⟨hX, rfl, rfl⟩
  | m + 1, i, X1, X2, _, _, hX => by
    rw [leafLoop, leafLoop]
    refine .bind (emplaceRows_rel hc _ _ _) ?_
    rintro icv _ rfl
    refine .bind (carryUp_rel srt1 srt2 hc P (p.K + 1) 0 X1 X2 icv icv _ 4 i le_rfl hX (.refl _))
      fun c1 c2 hc12 => ?_
    match c1, c2, hc12 with
    | .stored X1' h l, .stored X2' _ _, ⟨hX', rfl, rfl⟩ =>
      exact .check_bind hc _ (leafLoop_rel m (i + 1) X1' X2' h l hX')
    | .invalid, .invalid, _ => trivial
    | .undefined, .undefined, _ => trivial

/-- Phase B for one partial solution in two runs: the same outcome, up to the
order of the solutions found. -/
theorem cullPartial_rel :
    CancelRel CulledPerm (cullPartial p base srt1 cancelled1 P) (cullPartial p base srt2 cancelled2 P) := by
  refine .bind (leafLoop_rel srt1 srt2 hc P base p.solnSize 0 [] [] _ _ ⟨rfl, fun _ => trivial⟩)
    fun c1 c2 hc12 => ?_
  match c1, c2, hc12 with
  | .stored X1 h l, .stored X2 _ _, ⟨hX, rfl, rfl⟩ =>
    dsimp only
    rw [hX.1]
    split_ifs
    · have ho := hX.2 p.K
      rcases h1 : X1.getD p.K none with _ | rows1 <;> rcases h2 : X2.getD p.K none with _ | rows2 <;>
        rw [h1, h2] at ho
      · trivial
      · exact ho.elim
      · exact ho.elim
      · exact .check_bind hc _ (ho.map _)
    · trivial
  | .invalid, .invalid, _ => trivial
  | .undefined, .undefined, _ => trivial

end Carry

section Cull

variable (p : Params) (base : EhHashState)

/-- Phase B over one list of partial solutions in two runs. -/
theorem cullAll_rel (srt1 srt2 : RowSort) {cancelled1 cancelled2 : EhSolverCancelCheck → Bool}
    (hc : ∀ l, cancelled2 l = true → cancelled1 l = true) : ∀ Ps acc,
    CancelRel Eq (cullAll p base srt1 cancelled1 Ps acc) (cullAll p base srt2 cancelled2 Ps acc)
  | [], _ => rfl
  | P :: Ps, acc => by
    rw [cullAll, cullAll]
    refine .bind (cullPartial_rel (p := p) srt1 srt2 hc P base) fun c1 c2 hc12 => ?_
    match c1, c2, hc12 with
    | .solutions f1, .solutions f2, hf =>
      dsimp only
      rw [List.toFinset_eq_of_perm _ _ hf]
      exact cullAll_rel srt1 srt2 hc Ps _
    | .invalid, .invalid, _ => exact cullAll_rel srt1 srt2 hc Ps acc
    | .undefined, .undefined, _ => rfl

variable (cancelled : EhSolverCancelCheck → Bool) (srt : RowSort)

/-- Phase B for one partial solution is cancelled, or ends at
`goto invalidsolution`, or finds solutions. -/
theorem cullPartial_cases (P : List UInt8) :
    cullPartial p base srt cancelled P = .error ⟨⟩ ∨ cullPartial p base srt cancelled P = .ok .invalid ∨
      ∃ found, cullPartial p base srt cancelled P = .ok (.solutions found) := by
  have h := (cullPartial_slotRows srt cancelled : Ensures cancelled _ (cullPartial p base srt cancelled P))
  rcases e : cullPartial p base srt cancelled P with ⟨⟩ | c
  · exact .inl rfl
  · rw [e] at h
    rcases h with rfl | ⟨_, _, rfl⟩
    · exact .inr (.inl rfl)
    · exact .inr (.inr ⟨_, rfl⟩)

/-- Phase B over permuted lists of partial solutions: it meets no undefined
behaviour, so the order in which it inserts solutions does not matter. -/
theorem cullAll_perm {Ps1 Ps2 : List (List UInt8)} (h : Ps1.Perm Ps2) :
    ∀ acc, cullAll p base srt cancelled Ps1 acc = cullAll p base srt cancelled Ps2 acc := by
  induction h with
  | nil => intro _; rfl
  | cons P _ ih => intro acc; simp only [cullAll, ih]
  | swap P Q Ps =>
    intro acc
    rcases cullPartial_cases p base cancelled srt P with hP | hP | ⟨f, hP⟩ <;>
      rcases cullPartial_cases p base cancelled srt Q with hQ | hQ | ⟨g, hQ⟩ <;>
      simp only [cullAll, hP, hQ, bind, Except.bind, Finset.union_right_comm]
  | trans _ _ ih1 ih2 => intro acc; exact (ih1 acc).trans (ih2 acc)

end Cull

/-- `OptimisedSolve` in two runs, the first under a probe answering true
wherever the second does. -/
theorem optimisedSolve_rel (p : Params) (base : EhHashState) (srt1 srt2 : RowSort)
    {cancelled1 cancelled2 : EhSolverCancelCheck → Bool}
    (hc : ∀ l, cancelled2 l = true → cancelled1 l = true) :
    CancelRel Eq (optimisedSolve p base srt1 cancelled1) (optimisedSolve p base srt2 cancelled2) :=
  .bind (partialSolutions_rel p base srt1 srt2 hc) fun _ Ps2 hP => by
    rw [cullAll_perm p base cancelled1 srt1 hP]
    exact cullAll_rel p base srt1 srt2 hc Ps2 ∅

/-- **Sorting does not matter.** For every probe answering by the label alone,
`OptimisedSolve` gives the same result with any two procedures meeting the
contract of `std::sort`, down to whether it is cancelled. A probe that remembers
earlier calls could tell two sorts apart: Phase B asks it in the order of the
partial solutions, which follows the order the sort leaves equal keys in. -/
theorem optimisedSolve_sort_invariant (p : Params) (base : EhHashState) (srt1 srt2 : RowSort)
    (cancelled : EhSolverCancelCheck → Bool) :
    optimisedSolve p base srt1 cancelled = optimisedSolve p base srt2 cancelled :=
  CancelRel.eq (optimisedSolve_rel p base srt1 srt2 fun _ => id) (optimisedSolve_rel p base srt2 srt1 fun _ => id)

/-- **Cancelling only aborts.** Under any probe, `OptimisedSolve` is cancelled or
returns exactly what it returns under a probe that never cancels. -/
theorem optimisedSolve_cancelled_or_same (p : Params) (base : EhHashState) (srt : RowSort)
    (cancelled : EhSolverCancelCheck → Bool) :
    optimisedSolve p base srt cancelled = .error ⟨⟩ ∨
      optimisedSolve p base srt cancelled = optimisedSolve p base srt (fun _ => false) :=
  (optimisedSolve_rel p base srt srt fun _ h => absurd h Bool.false_ne_true).eq_or

end Equihash
