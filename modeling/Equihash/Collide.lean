import Equihash.Row
import Equihash.Duplicate

/-! The in-place collision pass of `equihash.cpp`, shared by the rounds of
`BasicSolve`, the rounds of `OptimisedSolve`'s truncated phase, and
`CollideBranches`.

On a list sorted by its leading bytes the pass scans the runs of rows that
collide on the first `clen` bytes, emits every admitted merge of two rows of a
run into a spill vector `Xc`, and writes the spill back into slots already read
(the cursor `posFree`), appending or cutting at the end. The three passes differ
only in their admission test (`basicEmit`, `truncatedEmit`, `branchEmit`).

* `collide_passes`: for every list and every sort meeting `std::sort`'s
  contract, each pass returns, as a multiset, exactly one admitted merge for each
  unordered pair of positions whose first `clen` bytes agree.
-/

namespace Equihash

/-! ## Cancellation -/

/-- The labels the cancellation probe is asked with. -/
inductive EhSolverCancelCheck
  | ListGeneration | ListSorting | ListColliding | RoundEnd | FinalSorting | FinalColliding
  | PartialGeneration | PartialSorting | PartialSubtreeEnd | PartialIndexEnd | PartialEnd
  deriving DecidableEq, Repr

/-- `EhSolverCancelledException`, thrown when the probe answers true. -/
structure EhSolverCancelled where
  deriving DecidableEq, Repr

/-- `if (cancelled(label)) throw solver_cancelled;`, with a probe that answers by
the label alone: a `std::function` remembering earlier calls is not modelled. -/
def check (cancelled : EhSolverCancelCheck → Bool) (label : EhSolverCancelCheck) :
    Except EhSolverCancelled Unit :=
  if cancelled label then throw ⟨⟩ else pure ()

@[simp] theorem check_never (label : EhSolverCancelCheck) :
    check (fun _ => false) label = pure () := rfl

/-- `e` returns a value satisfying `Q`, unless the probe answered true to some
label: the solvers throw only from `check`. -/
def Ensures {α : Type} (cancelled : EhSolverCancelCheck → Bool) (Q : α → Prop) :
    Except EhSolverCancelled α → Prop
  | .ok a => Q a
  | .error _ => ∃ label, cancelled label = true

section Ensures

variable {α β : Type} {cancelled : EhSolverCancelCheck → Bool} {Q : β → Prop}

theorem ensures_pure {b : β} (h : Q b) : Ensures cancelled Q (pure b) := h

theorem ensures_bind {e : Except EhSolverCancelled α} {f : α → Except EhSolverCancelled β}
    (h : Ensures cancelled (fun a => Ensures cancelled Q (f a)) e) :
    Ensures cancelled Q (e >>= f) := by
  cases e with
  | error => exact h
  | ok a => exact h

theorem ensures_map {e : Except EhSolverCancelled α} {f : α → β}
    (h : Ensures cancelled (fun a => Q (f a)) e) : Ensures cancelled Q (f <$> e) := by
  cases e with
  | error => exact h
  | ok a => exact h

theorem ensures_check (label : EhSolverCancelCheck) {f : Unit → Except EhSolverCancelled β}
    (h : Ensures cancelled Q (f ())) : Ensures cancelled Q (check cancelled label >>= f) := by
  unfold check
  split
  · exact ⟨label, ‹_›⟩
  · exact h

theorem Ensures.mono {Q' : β → Prop} {e : Except EhSolverCancelled β} (h : Ensures cancelled Q e)
    (hQ : ∀ b, Q b → Q' b) : Ensures cancelled Q' e := by
  cases e with
  | error => exact h
  | ok b => exact hQ b h

/-- With a probe that never cancels, a run that ensures `Q` returns. -/
theorem Ensures.never {e : Except EhSolverCancelled β} (h : Ensures (fun _ => false) Q e) :
    ∃ b, e = .ok b ∧ Q b := by
  cases e with
  | error => obtain ⟨_, h⟩ := h; cases h
  | ok b => exact ⟨b, rfl, h⟩

end Ensures

/-! ## The pass -/

/-- The loop state of a collision pass: the table `X`, the read position `i`, the
write cursor `posFree`, and the merges `Xc` waiting for a slot, back first. The
code's `int` counters are unbounded here, as they are for tables below `2^31`
rows. -/
structure CollideState where
  X : List (List UInt8)
  i : Nat
  posFree : Nat
  Xc : List (List UInt8)

/-- Step 2b on the rows from `X[i]` on: the length `j` of the run of rows that
collide with `X[i]` on the first `clen` bytes. -/
def runLength (clen : Nat) : List (List UInt8) → Nat
  | [] => 1
  | a :: rest => (rest.takeWhile fun y => hasCollision a y clen).length + 1

/-- Step 2c: for each pair `l < m` of a run, in loop order, the merge that `emit`
admits. -/
def runMerges {α : Type} (emit : List UInt8 → List UInt8 → Option α) :
    List (List UInt8) → List α
  | [] => []
  | a :: run => run.filterMap (emit a) ++ runMerges emit run

/-- Steps 2d and 2e: while `posFree < bound` and `Xc` is not empty, store
`Xc.back()` at `X[posFree++]`. -/
def backfill (bound : Nat) :
    List (List UInt8) → Nat → List (List UInt8) → List (List UInt8) × Nat × List (List UInt8)
  | X, posFree, [] => (X, posFree, [])
  | X, posFree, m :: Xc =>
    if posFree < bound then backfill bound (X.set posFree m) (posFree + 1) Xc
    else (X, posFree, m :: Xc)

/-- One run of the scan: steps 2b to 2d, then `i += j`. -/
def runStep (clen : Nat) (emit : List UInt8 → List UInt8 → Option (List UInt8))
    (st : CollideState) : CollideState :=
  let j := runLength clen (st.X.drop st.i)
  let r := backfill (st.i + j) st.X st.posFree
    ((runMerges emit ((st.X.drop st.i).take j)).reverse ++ st.Xc)
  ⟨r.1, st.i + j, r.2.1, r.2.2⟩

theorem length_backfill (bound : Nat) (X : List (List UInt8)) (posFree : Nat)
    (Xc : List (List UInt8)) : (backfill bound X posFree Xc).1.length = X.length := by
  induction Xc generalizing X posFree with
  | nil => rfl
  | cons m Xc ih =>
    unfold backfill
    split
    · rw [ih, List.length_set]
    · rfl

theorem length_runStep (clen : Nat) (emit : List UInt8 → List UInt8 → Option (List UInt8))
    (st : CollideState) : (runStep clen emit st).X.length = st.X.length :=
  length_backfill ..

theorem one_le_runLength (clen : Nat) (S : List (List UInt8)) : 1 ≤ runLength clen S := by
  cases S <;> simp [runLength]

/-- The scan `while (i < X.size() - 1)` on a non-empty table, with `tick` (the
probe `ListColliding`, or nothing) after each run. -/
def collideRuns {m : Type → Type} [Monad m] (tick : m Unit) (clen : Nat)
    (emit : List UInt8 → List UInt8 → Option (List UInt8)) (st : CollideState) :
    m CollideState :=
  if st.i + 1 < st.X.length then do
    let st' := runStep clen emit st
    tick
    collideRuns tick clen emit st'
  else pure st
termination_by st.X.length - st.i
decreasing_by
  have := one_le_runLength clen (st.X.drop st.i)
  simp_wf
  rw [length_runStep]
  show st.X.length - (st.i + runLength clen (st.X.drop st.i)) < st.X.length - st.i
  omega

/-- Steps 2e to 2g after the scan: fill the remaining slots, then append what is
left of `Xc` in vector order, or cut the table at `posFree`. -/
def collideFinish (st : CollideState) : List (List UInt8) :=
  let r := backfill st.X.length st.X st.posFree st.Xc
  if r.2.2 ≠ [] then r.1 ++ r.2.2.reverse
  else if r.2.1 < r.1.length then r.1.take r.2.1 else r.1

/-- A collision pass on the table `X`. -/
def collidePass {m : Type → Type} [Monad m] (tick : m Unit) (clen : Nat)
    (emit : List UInt8 → List UInt8 → Option (List UInt8)) (X : List (List UInt8)) :
    m (List (List UInt8)) :=
  collideFinish <$> collideRuns tick clen emit ⟨X, 0, 0, []⟩

/-! ## The three passes -/

/-- Step 2c of a `BasicSolve` round: merge when `DistinctIndices`. -/
def basicEmit (hashLen lenIndices clen : Nat) (a b : List UInt8) : Option (List UInt8) :=
  if distinctIndices a b hashLen lenIndices then
    some (fullStepRowMerge a b hashLen lenIndices clen)
  else none

/-- Step 2c of a round of `OptimisedSolve`'s truncated phase: keep the merge unless
its remaining hash is zero and its truncated indices pair up. -/
def truncatedEmit (hashLen lenIndices clen : Nat) (a b : List UInt8) : Option (List UInt8) :=
  let xi := truncatedStepRowMerge a b hashLen lenIndices clen
  if !(isZero xi (hashLen - clen) &&
      isProbablyDuplicate (getTruncatedIndices xi (hashLen - clen) (2 * lenIndices))
        (2 * lenIndices)) then some xi
  else none

/-- Step 2c of `CollideBranches`: distinct indices, and first indices truncating to
`lt` and `rt` in one of the two orders; the matching row goes first. -/
def branchEmit (hlen lenIndices clen ilen : Nat) (lt rt : UInt8) (a b : List UInt8) :
    Option (List UInt8) :=
  if distinctIndices a b hlen lenIndices then
    if isValidBranch a hlen ilen lt && isValidBranch b hlen ilen rt then
      some (fullStepRowMerge a b hlen lenIndices clen)
    else if isValidBranch b hlen ilen lt && isValidBranch a hlen ilen rt then
      some (fullStepRowMerge b a hlen lenIndices clen)
    else none
  else none

/-- The collision pass of a `BasicSolve` round (steps 2b to 2g). -/
def basicCollide (cancelled : EhSolverCancelCheck → Bool) (hashLen lenIndices clen : Nat)
    (X : List (List UInt8)) : Except EhSolverCancelled (List (List UInt8)) :=
  collidePass (check cancelled .ListColliding) clen (basicEmit hashLen lenIndices clen) X

/-- The collision pass of a round of `OptimisedSolve`'s truncated phase. -/
def truncatedCollide (cancelled : EhSolverCancelCheck → Bool) (hashLen lenIndices clen : Nat)
    (X : List (List UInt8)) : Except EhSolverCancelled (List (List UInt8)) :=
  collidePass (check cancelled .ListColliding) clen (truncatedEmit hashLen lenIndices clen) X

/-- `CollideBranches(X, hlen, lenIndices, clen, ilen, lt, rt)`. -/
def collideBranches (X : List (List UInt8)) (hlen lenIndices clen ilen : Nat) (lt rt : UInt8) :
    List (List UInt8) :=
  Id.run (collidePass (pure ()) clen (branchEmit hlen lenIndices clen ilen lt rt) X)

/-! ## What a pass computes -/

/-- One admitted merge for each unordered pair of positions `p < q` of `X` whose
first `clen` bytes agree. -/
def collisionMerges {α : Type} (clen : Nat) (emit : List UInt8 → List UInt8 → Option α) :
    List (List UInt8) → List α
  | [] => []
  | a :: rest =>
    (rest.filter fun b => hasCollision a b clen).filterMap (emit a) ++ collisionMerges clen emit rest

section Spec

variable {α : Type} {clen : Nat} {emit : List UInt8 → List UInt8 → Option α}

theorem hasCollision_trans {a b c : List UInt8} (hab : hasCollision a b clen = true)
    (hbc : hasCollision b c clen = true) : hasCollision a c clen = true := by
  simp only [hasCollision, decide_eq_true_eq] at hab hbc ⊢
  exact hab.trans hbc

/-- When the admission test ignores the order of its operands, the pass's result
depends only on the multiset of rows. -/
theorem collisionMerges_perm (hsym : ∀ a b, emit a b = emit b a) {X Y : List (List UInt8)}
    (h : X.Perm Y) : (collisionMerges clen emit X).Perm (collisionMerges clen emit Y) := by
  induction h with
  | nil => exact .nil
  | cons a _ ih => exact ((List.Perm.filter _ ‹_›).filterMap _).append ih
  | swap x y l =>
    have hswap : ∀ A B C : List α, (A ++ (B ++ C)).Perm (B ++ (A ++ C)) := by
      intro A B C
      rw [← List.append_assoc, ← List.append_assoc]
      exact List.perm_append_comm.append_right _
    simp only [collisionMerges, List.filter_cons, hasCollision_comm x y]
    cases hasCollision y x clen
    · exact hswap ..
    · simp only [if_true, List.filterMap_cons, hsym x y]
      cases emit y x with
      | none => exact hswap ..
      | some m => exact (hswap ..).cons m
  | trans _ _ ih₁ ih₂ => exact ih₁.trans ih₂

theorem collisionMerges_append {A B : List (List UInt8)}
    (hAB : ∀ x ∈ A, ∀ y ∈ B, hasCollision x y clen = false) :
    collisionMerges clen emit (A ++ B) = collisionMerges clen emit A ++ collisionMerges clen emit B := by
  induction A with
  | nil => rfl
  | cons x A ih =>
    have hB : B.filter (fun b => hasCollision x b clen) = [] :=
      List.filter_eq_nil_iff.2 fun y hy => by simp [hAB x (by simp) y hy]
    rw [List.cons_append, collisionMerges, List.filter_append, hB, List.append_nil,
      ih fun x' hx' => hAB x' (by simp [hx']), collisionMerges, List.append_assoc]

theorem collisionMerges_run {A : List (List UInt8)}
    (hA : ∀ x ∈ A, ∀ y ∈ A, hasCollision x y clen = true) :
    collisionMerges clen emit A = runMerges emit A := by
  induction A with
  | nil => rfl
  | cons x A ih =>
    rw [collisionMerges, runMerges, List.filter_eq_self.2 fun y hy => by simp [hA x (by simp) y (by simp [hy])],
      ih fun a ha b hb => hA a (by simp [ha]) b (by simp [hb])]

/-- On a run followed by rows that do not collide with its head, the pass's pairs
are the run's pairs followed by the rest's. -/
theorem collisionMerges_cons {a : List UInt8} {rest : List (List UInt8)}
    (hsep : ∀ b ∈ rest.dropWhile (hasCollision a · clen), hasCollision a b clen = false) :
    collisionMerges clen emit (a :: rest) =
      runMerges emit (a :: rest.takeWhile (hasCollision a · clen)) ++
        collisionMerges clen emit (rest.dropWhile (hasCollision a · clen)) := by
  have htw : ∀ x ∈ rest.takeWhile (hasCollision a · clen), hasCollision a x clen = true :=
    fun x hx => by have := List.mem_takeWhile_imp hx; exact this
  conv_lhs => rw [← List.takeWhile_append_dropWhile (hasCollision a · clen) rest]
  rw [collisionMerges, List.filter_append, List.filter_eq_self.2 htw,
    List.filter_eq_nil_iff.2 fun y hy => by simp [hsep y hy], List.append_nil,
    collisionMerges_append fun x hx y hy => ?_, collisionMerges_run fun x hx y hy =>
      hasCollision_trans (by rw [hasCollision_comm]; exact htw x hx) (htw y hy),
    runMerges, List.append_assoc]
  cases h : hasCollision x y clen
  · rfl
  · have := hsep y hy
    rw [hasCollision_trans (htw x hx) h] at this
    exact absurd this (by decide)

/-- Every merge of the pass comes from two colliding rows of the table it admits. -/
theorem exists_of_mem_collisionMerges {X : List (List UInt8)} {m : α}
    (h : m ∈ collisionMerges clen emit X) :
    ∃ a ∈ X, ∃ b ∈ X, hasCollision a b clen = true ∧ emit a b = some m := by
  induction X with
  | nil => cases h
  | cons x X ih =>
    simp only [collisionMerges, List.mem_append, List.mem_filterMap, List.mem_filter] at h
    rcases h with ⟨b, ⟨hb, hc⟩, he⟩ | h
    · exact ⟨x, List.mem_cons_self _ _, b, List.mem_cons_of_mem _ hb, hc, he⟩
    · obtain ⟨a, ha, b, hb, hc, he⟩ := ih h
      exact ⟨a, List.mem_cons_of_mem _ ha, b, List.mem_cons_of_mem _ hb, hc, he⟩

/-- As a set, the pass's result is every admitted merge of two colliding rows,
when the test is symmetric and admits no row with itself. -/
theorem mem_collisionMerges (hsym : ∀ a b, emit a b = emit b a) {X : List (List UInt8)}
    (hirr : ∀ a ∈ X, emit a a = none) (m : α) :
    m ∈ collisionMerges clen emit X ↔
      ∃ a ∈ X, ∃ b ∈ X, hasCollision a b clen = true ∧ emit a b = some m := by
  induction X with
  | nil => simp [collisionMerges]
  | cons x X ih =>
    have hne : ∀ b, emit x b = some m → b ≠ x := fun b h e => by
      rw [e, hirr x (List.mem_cons_self _ _)] at h; cases h
    simp only [collisionMerges, List.mem_append, List.mem_filterMap, List.mem_filter,
      ih fun a ha => hirr a (List.mem_cons_of_mem _ ha), List.mem_cons]
    constructor
    · rintro (⟨b, ⟨hb, hc⟩, he⟩ | ⟨a, ha, b, hb, hc, he⟩)
      · exact ⟨x, .inl rfl, b, .inr hb, hc, he⟩
      · exact ⟨a, .inr ha, b, .inr hb, hc, he⟩
    · rintro ⟨a, rfl | ha, b, rfl | hb, hc, he⟩
      · exact absurd rfl (hne _ he)
      · exact .inl ⟨b, ⟨hb, hc⟩, he⟩
      · exact .inl ⟨a, ⟨ha, by rwa [hasCollision_comm]⟩, by rwa [hsym]⟩
      · exact .inr ⟨a, ha, b, hb, hc, he⟩

/-- Rows `A g` and `B g` for each `g` of `gs`, each at its own position of `X`: the
pass makes, among others, one merge for each of these pairs that collides and
that it admits. -/
theorem map_subperm_collisionMerges (hsym : ∀ a b, emit a b = emit b a) {β : Type}
    {A B : β → List UInt8} {M : β → α} (gs : List β) {X : List (List UInt8)}
    (hX : (gs.flatMap fun g => [A g, B g]).Subperm X)
    (h : ∀ g ∈ gs, hasCollision (A g) (B g) clen = true ∧ emit (A g) (B g) = some (M g)) :
    (gs.map M).Subperm (collisionMerges clen emit X) := by
  have key : ∀ (gs : List β) (rest : List (List UInt8)),
      (∀ g ∈ gs, hasCollision (A g) (B g) clen = true ∧ emit (A g) (B g) = some (M g)) →
      (gs.map M).Subperm (collisionMerges clen emit (gs.flatMap (fun g => [A g, B g]) ++ rest)) := by
    intro gs rest
    induction gs with
    | nil => exact fun _ => List.nil_subperm
    | cons g gs ih =>
      intro h
      obtain ⟨hc, he⟩ := h g (List.mem_cons_self _ _)
      show (M g :: gs.map M).Subperm
        (collisionMerges clen emit (A g :: B g :: (gs.flatMap (fun g => [A g, B g]) ++ rest)))
      rw [collisionMerges, List.filter_cons_of_pos (p := fun b => hasCollision (A g) b clen) hc,
        List.filterMap_cons_some he, List.cons_append,
        collisionMerges]
      exact (List.subperm_cons _).2 ((ih fun g' hg' => h g' (List.mem_cons_of_mem _ hg')).trans
        ((List.sublist_append_right _ _).trans (List.sublist_append_right _ _)).subperm)
  obtain ⟨l, hp, hs⟩ := hX
  obtain ⟨rest, hrest⟩ := hs.exists_perm_append
  exact (key gs rest h).trans (collisionMerges_perm hsym (hrest.trans (hp.append_right rest)).symm).subperm

/-- Two rows at different positions of `X` that collide: the pass makes their
merge if it admits it. -/
theorem mem_collisionMerges_of_pair (hsym : ∀ a b, emit a b = emit b a) {a b : List UInt8} {m : α}
    {X : List (List UInt8)} (hX : [a, b].Subperm X) (hc : hasCollision a b clen = true)
    (he : emit a b = some m) : m ∈ collisionMerges clen emit X :=
  (map_subperm_collisionMerges hsym (A := fun _ : Unit => a) (B := fun _ => b) (M := fun _ => m)
    [()] hX fun _ _ => ⟨hc, he⟩).subset (List.mem_singleton_self _)

end Spec

/-! ## Sorted input -/

/-- A row list as `std::sort` leaves it under `CompareSR(len)`. -/
def SortedBy (len : Nat) (X : List (List UInt8)) : Prop :=
  X.Pairwise fun a b => compareSR len b a = false

theorem key_le_of_sorted {len clen : Nat} (hc : clen ≤ len) {a b : List UInt8}
    (h : compareSR len b a = false) : compareBytes (a.take clen) (b.take clen) ≠ .gt := by
  intro hgt
  have h' : compareBytes (b.take len) (a.take len) ≠ .lt := by
    simpa [compareSR, memcmp] using h
  apply h'
  rw [compareBytes_swap, compareBytes_take_gt (n := clen)]
  · rfl
  · rwa [List.take_take, List.take_take, Nat.min_eq_left hc]

/-- In a sorted list no row past the run of `a` collides with `a`. -/
theorem sep_of_sorted {len clen : Nat} (hc : clen ≤ len) {a : List UInt8}
    {rest : List (List UInt8)} (hs : SortedBy len (a :: rest)) :
    ∀ b ∈ rest.dropWhile (hasCollision a · clen), hasCollision a b clen = false := by
  rw [SortedBy, List.pairwise_cons] at hs
  obtain ⟨ha, hrest⟩ := hs
  cases hd : rest.dropWhile (hasCollision a · clen) with
  | nil => simp
  | cons c dw =>
    have hac : hasCollision a c clen = false := by
      have := List.head_dropWhile_not (hasCollision a · clen) rest (by simp [hd])
      simpa [hd] using this
    have hsub : (c :: dw).Sublist rest := hd ▸ (List.dropWhile_suffix _).sublist
    have hcdw : ∀ b ∈ dw, compareSR len b c = false :=
      (List.pairwise_cons.1 (hrest.sublist hsub)).1
    intro b hb
    rcases List.mem_cons.1 hb with rfl | hb
    · exact hac
    · cases hab : hasCollision a b clen
      · rfl
      · have hkey : a.take clen = b.take clen := by simpa [hasCollision] using hab
        have h1 := key_le_of_sorted hc (ha c (hsub.subset (by simp)))
        have h2 := key_le_of_sorted hc (hcdw b hb)
        rw [← hkey] at h2
        have := eq_of_compareBytes_ne_gt h1 h2
        simp [hasCollision, this] at hac

/-! ## The write-back -/

theorem take_succ_set {X : List (List UInt8)} {p : Nat} (hp : p < X.length) (m : List UInt8) :
    (X.set p m).take (p + 1) = X.take p ++ [m] := by
  rw [List.take_succ, List.getElem?_set_self hp, List.set_take,
    List.set_eq_of_length_le (by simp)]
  rfl

/-- The write-back moves a prefix of `Xc` into `X[posFree..bound)`: it writes
nothing at or past `bound`, and loses or duplicates no row. -/
theorem backfill_spec (bound : Nat) (X : List (List UInt8)) (p : Nat) (Xc : List (List UInt8))
    (hp : p ≤ bound) (hb : bound ≤ X.length) :
    let r := backfill bound X p Xc
    r.1.length = X.length ∧ p ≤ r.2.1 ∧ r.2.1 ≤ bound ∧ (r.2.2 ≠ [] → r.2.1 = bound) ∧
      r.1.drop bound = X.drop bound ∧ r.1.take r.2.1 ++ r.2.2 = X.take p ++ Xc := by
  induction Xc generalizing X p with
  | nil => exact ⟨rfl, le_refl p, hp, fun h => absurd rfl h, rfl, rfl⟩
  | cons m Xc ih =>
    unfold backfill
    split
    · obtain ⟨h1, h2, h3, h4, h5, h6⟩ := ih (X.set p m) (p + 1) (by omega) (by simpa using hb)
      refine ⟨by simpa using h1, by omega, h3, h4, ?_, ?_⟩
      · rw [h5, List.drop_set, if_pos (by omega)]
      · rw [h6, take_succ_set (by omega), List.append_assoc]; rfl
    · exact ⟨rfl, le_refl p, hp, fun _ => show p = bound by omega, rfl, rfl⟩

/-! ## The scan -/

section Scan

variable (clen : Nat) (emit : List UInt8 → List UInt8 → Option (List UInt8)) (Y : List (List UInt8))

/-- The invariant of the scan over the sorted input `Y`: the rows from `i` on are
still unread input, and the merges stored below `posFree`, those waiting in `Xc`
and those of the unread rows together are the pass's result. -/
structure ScanInv (st : CollideState) : Prop where
  length_eq : st.X.length = Y.length
  posFree_le : st.posFree ≤ st.i
  i_le : st.i ≤ Y.length
  unread : st.X.drop st.i = Y.drop st.i
  perm : (st.X.take st.posFree ++ st.Xc ++ collisionMerges clen emit (Y.drop st.i)).Perm
    (collisionMerges clen emit Y)

theorem scanInv_init : ScanInv clen emit Y ⟨Y, 0, 0, []⟩ :=
  ⟨rfl, le_refl 0, Nat.zero_le _, rfl, by simp⟩

variable {clen emit Y}

/-- **Step.** One run keeps the invariant. -/
theorem scanInv_runStep {len : Nat} (hc : clen ≤ len) (hY : SortedBy len Y) {st : CollideState}
    (hinv : ScanInv clen emit Y st) (hlt : st.i + 1 < st.X.length) :
    ScanInv clen emit Y (runStep clen emit st) := by
  obtain ⟨hlen, hp, hi, hun, hperm⟩ := hinv
  obtain ⟨a, rest, hS⟩ : ∃ a rest, Y.drop st.i = a :: rest := by
    cases h : Y.drop st.i with
    | nil => rw [List.drop_eq_nil_iff] at h; omega
    | cons a rest => exact ⟨a, rest, rfl⟩
  have hsorted : SortedBy len (a :: rest) := hS ▸ List.Pairwise.sublist (List.drop_sublist _ _) hY
  set tw := rest.takeWhile (hasCollision a · clen)
  set dw := rest.dropWhile (hasCollision a · clen)
  have hj : runLength clen (st.X.drop st.i) = tw.length + 1 := by rw [hun, hS]; rfl
  have hrest : rest = tw ++ dw := (List.takeWhile_append_dropWhile _ _).symm
  have hYlen : st.i + (tw.length + 1) ≤ Y.length := by
    have := congrArg List.length hS
    rw [List.length_drop, List.length_cons, hrest, List.length_append] at this
    omega
  have hrun : (st.X.drop st.i).take (tw.length + 1) = a :: tw := by
    rw [hun, hS, hrest, List.take_succ_cons, List.take_left' rfl]
  have hdrop : Y.drop (st.i + (tw.length + 1)) = dw := by
    rw [← List.drop_drop, hS, hrest, List.drop_succ_cons, List.drop_left' rfl]
  obtain ⟨h1, h2, h3, -, h5, h6⟩ := backfill_spec (st.i + (tw.length + 1)) st.X st.posFree
    ((runMerges emit (a :: tw)).reverse ++ st.Xc) (by omega) (by omega)
  simp only [runStep, hj, hrun]
  refine ⟨by rw [h1, hlen], h3, hYlen, ?_, ?_⟩
  · dsimp only
    rw [h5, ← List.drop_drop, hun, List.drop_drop]
  · rw [h6, hdrop]
    refine List.Perm.trans ?_ hperm
    rw [hS, collisionMerges_cons (sep_of_sorted hc hsorted), List.append_assoc, List.append_assoc,
      List.append_assoc]
    refine List.Perm.append_left _ ?_
    rw [← List.append_assoc, ← List.append_assoc]
    exact ((List.reverse_perm _).append_right _).trans List.perm_append_comm |>.append_right _

/-- **Run.** The scan ends in a state that keeps the invariant with at most one
unread row. -/
theorem scanInv_collideRuns {len : Nat} (hc : clen ≤ len) (hY : SortedBy len Y) (st : CollideState)
    (hinv : ScanInv clen emit Y st) :
    ScanInv clen emit Y (Id.run (collideRuns (pure ()) clen emit st)) ∧
      (Id.run (collideRuns (pure ()) clen emit st)).X.length ≤
        (Id.run (collideRuns (pure ()) clen emit st)).i + 1 := by
  induction st using collideRuns.induct (pure () : Id Unit) clen emit with
  | case1 st hlt _ ih =>
    rw [collideRuns, if_pos hlt]
    exact ih (scanInv_runStep hc hY hinv hlt)
  | case2 st hge =>
    rw [collideRuns, if_neg hge]
    exact ⟨hinv, show st.X.length ≤ st.i + 1 by omega⟩

/-- **Finish.** Steps 2e to 2g turn a scan that keeps the invariant into the pass's
result: at most one row is left unread, and it has no partner. -/
theorem collideFinish_perm {st : CollideState} (hinv : ScanInv clen emit Y st)
    (hend : st.X.length ≤ st.i + 1) : (collideFinish st).Perm (collisionMerges clen emit Y) := by
  have hcm : collisionMerges clen emit (Y.drop st.i) = [] := by
    match h : Y.drop st.i with
    | [] => rfl
    | [_] => rfl
    | _ :: _ :: _ =>
      have := congrArg List.length h
      simp only [List.length_drop, List.length_cons] at this
      have := hinv.length_eq
      omega
  have hperm := hinv.perm
  rw [hcm, List.append_nil] at hperm
  obtain ⟨h1, -, h3, h4, -, h6⟩ := backfill_spec st.X.length st.X st.posFree st.Xc
    (by have := hinv.posFree_le; have := hinv.i_le; have := hinv.length_eq; omega)
    le_rfl
  rw [← h6] at hperm
  simp only [collideFinish]
  generalize backfill st.X.length st.X st.posFree st.Xc = r at h1 h3 h4 hperm ⊢
  obtain ⟨X', p', Xc'⟩ := r
  dsimp only at h1 h3 h4 hperm ⊢
  split_ifs with hne hlt
  · rw [List.take_of_length_le (by rw [h4 hne, h1])] at hperm
    exact (List.reverse_perm _).append_left _ |>.trans hperm
  · rwa [not_not.1 hne, List.append_nil] at hperm
  · rwa [List.take_of_length_le (by omega), not_not.1 hne, List.append_nil] at hperm

/-- On a list sorted by at least `clen` leading bytes, the pass returns, as a
multiset, exactly the admitted merges of its colliding pairs. -/
theorem collidePass_perm {len : Nat} (hc : clen ≤ len) (hY : SortedBy len Y) :
    (Id.run (collidePass (pure ()) clen emit Y)).Perm (collisionMerges clen emit Y) := by
  obtain ⟨hinv, hend⟩ := scanInv_collideRuns hc hY _ (scanInv_init clen emit Y)
  exact collideFinish_perm hinv hend

end Scan

/-- Two procedures meeting the sort contract, run on permutations of one table,
give collision passes with permuted results. -/
theorem collidePass_sort_perm (srt1 srt2 : RowSort) {clen len : Nat} (hc : clen ≤ len)
    {emit : List UInt8 → List UInt8 → Option (List UInt8)} (hsym : ∀ a b, emit a b = emit b a)
    {X1 X2 : List (List UInt8)} (h : X1.Perm X2) :
    (Id.run (collidePass (pure ()) clen emit (srt1.sort len X1))).Perm
      (Id.run (collidePass (pure ()) clen emit (srt2.sort len X2))) :=
  (collidePass_perm hc (srt1.sorted len X1)).trans ((collisionMerges_perm hsym
    ((srt1.perm len X1).trans (h.trans (srt2.perm len X2).symm))).trans
      (collidePass_perm hc (srt2.sorted len X2)).symm)

/-- With a tick that does nothing, the scan in any lawful monad is the pure one. -/
theorem collideRuns_pure {m : Type → Type} [Monad m] [LawfulMonad m] (clen : Nat)
    (emit : List UInt8 → List UInt8 → Option (List UInt8)) (st : CollideState) :
    collideRuns (pure () : m Unit) clen emit st = pure (Id.run (collideRuns (pure ()) clen emit st)) := by
  induction st using collideRuns.induct (pure () : m Unit) clen emit with
  | case1 st hlt _ ih =>
    rw [collideRuns, if_pos hlt, pure_bind, ih]
    conv_rhs => rw [collideRuns, if_pos hlt]
    rfl
  | case2 st hge =>
    rw [collideRuns, if_neg hge]
    conv_rhs => rw [collideRuns, if_neg hge]
    rfl

/-- Under the probe `check cancelled label`, the scan returns what the pure scan
does, unless cancelled. -/
theorem ensures_collideRuns (cancelled : EhSolverCancelCheck → Bool) (label : EhSolverCancelCheck)
    (clen : Nat) (emit : List UInt8 → List UInt8 → Option (List UInt8)) (st : CollideState) :
    Ensures cancelled (· = Id.run (collideRuns (pure ()) clen emit st))
      (collideRuns (check cancelled label) clen emit st) := by
  induction st using collideRuns.induct (check cancelled label) clen emit with
  | case1 st hlt st' ih =>
    rw [collideRuns.eq_1 (check cancelled label), if_pos hlt]
    refine ensures_check label (ih.mono fun _ h => ?_)
    rw [h]
    conv_rhs => rw [collideRuns, if_pos hlt]
    rfl
  | case2 st hge =>
    rw [collideRuns.eq_1 (check cancelled label), if_neg hge]
    refine ensures_pure ?_
    show st = Id.run (collideRuns (pure ()) clen emit st)
    rw [collideRuns, if_neg hge]
    rfl

theorem ensures_collidePass (cancelled : EhSolverCancelCheck → Bool) (label : EhSolverCancelCheck)
    (clen : Nat) (emit : List UInt8 → List UInt8 → Option (List UInt8)) (X : List (List UInt8)) :
    Ensures cancelled (· = Id.run (collidePass (pure ()) clen emit X))
      (collidePass (check cancelled label) clen emit X) :=
  ensures_map ((ensures_collideRuns cancelled label clen emit _).mono fun _ h => by
    rw [h]; rfl)

/-- The probe is asked the same question at every tick: the scan is cancelled at
its first tick or runs as the pure scan. -/
theorem collideRuns_check (cancelled : EhSolverCancelCheck → Bool) (label : EhSolverCancelCheck)
    (clen : Nat) (emit : List UInt8 → List UInt8 → Option (List UInt8)) (st : CollideState) :
    collideRuns (check cancelled label) clen emit st =
      if cancelled label ∧ st.i + 1 < st.X.length then throw ⟨⟩
      else pure (Id.run (collideRuns (pure ()) clen emit st)) := by
  by_cases hc : cancelled label
  · rw [collideRuns.eq_1 (check cancelled label)]
    by_cases hlt : st.i + 1 < st.X.length
    · rw [if_pos hlt, if_pos ⟨hc, hlt⟩]
      simp only [check, hc, if_true]
      rfl
    · rw [if_neg hlt, if_neg (fun h => hlt h.2), collideRuns, if_neg hlt]
      rfl
  · rw [if_neg (fun h => hc h.1), show check cancelled label = pure () by simp [check, hc],
      collideRuns_pure]

theorem collidePass_check (cancelled : EhSolverCancelCheck → Bool) (label : EhSolverCancelCheck)
    (clen : Nat) (emit : List UInt8 → List UInt8 → Option (List UInt8)) (X : List (List UInt8)) :
    collidePass (check cancelled label) clen emit X =
      if cancelled label ∧ 1 < X.length then throw ⟨⟩
      else pure (Id.run (collidePass (pure ()) clen emit X)) := by
  rw [collidePass, collideRuns_check]
  split_ifs <;> rfl

theorem basicCollide_never (hashLen lenIndices clen : Nat) (X : List (List UInt8)) :
    basicCollide (fun _ => false) hashLen lenIndices clen X =
      .ok (Id.run (collidePass (pure ()) clen (basicEmit hashLen lenIndices clen) X)) := by
  rw [basicCollide, check_never, collidePass, collideRuns_pure]
  rfl

theorem truncatedCollide_never (hashLen lenIndices clen : Nat) (X : List (List UInt8)) :
    truncatedCollide (fun _ => false) hashLen lenIndices clen X =
      .ok (Id.run (collidePass (pure ()) clen (truncatedEmit hashLen lenIndices clen) X)) := by
  rw [truncatedCollide, check_never, collidePass, collideRuns_pure]
  rfl

/-! ## Symmetry of the admission tests -/

theorem basicEmit_comm (hashLen lenIndices clen : Nat) (a b : List UInt8) :
    basicEmit hashLen lenIndices clen a b = basicEmit hashLen lenIndices clen b a := by
  simp only [basicEmit, distinctIndices_comm a b, fullStepRowMerge_eq, mergeRows_comm a b]

theorem truncatedEmit_comm (hashLen lenIndices clen : Nat) (a b : List UInt8) :
    truncatedEmit hashLen lenIndices clen a b = truncatedEmit hashLen lenIndices clen b a := by
  simp only [truncatedEmit, truncatedStepRowMerge_eq, mergeRows_comm a b]

/-- `CollideBranches` tries both orders and the merge is symmetric, so its test is. -/
theorem branchEmit_comm (hlen lenIndices clen ilen : Nat) (lt rt : UInt8) (a b : List UInt8) :
    branchEmit hlen lenIndices clen ilen lt rt a b = branchEmit hlen lenIndices clen ilen lt rt b a := by
  simp only [branchEmit, distinctIndices_comm a b, fullStepRowMerge_eq, mergeRows_comm b a]
  cases isValidBranch a hlen ilen lt <;> cases isValidBranch a hlen ilen rt <;>
    cases isValidBranch b hlen ilen lt <;> cases isValidBranch b hlen ilen rt <;> rfl

theorem branchEmit_eq_some {hlen lenIndices clen ilen : Nat} {lt rt : UInt8} {a b m : List UInt8}
    (h : branchEmit hlen lenIndices clen ilen lt rt a b = some m) :
    distinctIndices a b hlen lenIndices = true ∧ m = mergeRows a b hlen lenIndices clen := by
  unfold branchEmit at h
  split_ifs at h with hd <;> cases h
  · exact ⟨hd, rfl⟩
  · exact ⟨hd, mergeRows_comm b a _ _ _⟩

theorem branchEmit_of_valid {hlen lenIndices clen ilen : Nat} {lt rt : UInt8} {a b : List UInt8}
    (hd : distinctIndices a b hlen lenIndices = true) (ha : isValidBranch a hlen ilen lt = true)
    (hb : isValidBranch b hlen ilen rt = true) :
    branchEmit hlen lenIndices clen ilen lt rt a b = some (mergeRows a b hlen lenIndices clen) := by
  simp [branchEmit, hd, ha, hb]

/-- What `CollideBranches` returns from a list sorted on its remaining hash: the
admitted merges of the pairs of rows colliding on `clen` bytes. -/
theorem mem_collideBranches (srt : RowSort) {X : List (List UInt8)}
    {hlen lenIndices clen ilen : Nat} {lt rt : UInt8} (hc : clen ≤ hlen)
    (hirr : ∀ a ∈ X, branchEmit hlen lenIndices clen ilen lt rt a a = none) (m : List UInt8) :
    m ∈ collideBranches (srt.sort hlen X) hlen lenIndices clen ilen lt rt ↔
      ∃ a ∈ X, ∃ b ∈ X, hasCollision a b clen = true ∧
        branchEmit hlen lenIndices clen ilen lt rt a b = some m :=
  ((collidePass_perm hc (srt.sorted hlen X)).trans (collisionMerges_perm
    (branchEmit_comm hlen lenIndices clen ilen lt rt) (srt.perm hlen X))).mem_iff.trans
    (mem_collisionMerges (branchEmit_comm hlen lenIndices clen ilen lt rt) hirr m)

/-! ## The passes -/

theorem collide_passes (srt : RowSort) (X : List (List UInt8)) (hashLen lenIndices clen ilen : Nat)
    (lt rt : UInt8) (hclen : clen ≤ hashLen) :
    (∃ Y, basicCollide (fun _ => false) hashLen lenIndices clen (srt.sort clen X) = .ok Y ∧
      Y.Perm (collisionMerges clen (basicEmit hashLen lenIndices clen) X)) ∧
    (∃ Y, truncatedCollide (fun _ => false) hashLen lenIndices clen (srt.sort clen X) = .ok Y ∧
      Y.Perm (collisionMerges clen (truncatedEmit hashLen lenIndices clen) X)) ∧
    (collideBranches (srt.sort hashLen X) hashLen lenIndices clen ilen lt rt).Perm
      (collisionMerges clen (branchEmit hashLen lenIndices clen ilen lt rt) X) :=
  ⟨⟨_, basicCollide_never .., (collidePass_perm le_rfl (srt.sorted clen X)).trans
      (collisionMerges_perm (basicEmit_comm hashLen lenIndices clen) (srt.perm clen X))⟩,
    ⟨_, truncatedCollide_never .., (collidePass_perm le_rfl (srt.sorted clen X)).trans
      (collisionMerges_perm (truncatedEmit_comm hashLen lenIndices clen) (srt.perm clen X))⟩,
    (collidePass_perm hclen (srt.sorted hashLen X)).trans
      (collisionMerges_perm (branchEmit_comm hashLen lenIndices clen ilen lt rt) (srt.perm hashLen X))⟩

theorem collide_passes_insertion_sort :
    1 ≤ 2 ∧
    collisionMerges 1 (basicEmit 2 4 1) [[1, 5, 0, 0, 0, 2], [1, 3, 0, 0, 0, 4], [2, 7, 0, 0, 0, 6]] =
      [[6, 0, 0, 0, 2, 0, 0, 0, 4]] ∧
    collisionMerges 1 (branchEmit 2 4 1 9 1 2) [[1, 5, 0, 0, 0, 2], [1, 3, 0, 0, 0, 4],
      [2, 7, 0, 0, 0, 6]] = [[6, 0, 0, 0, 2, 0, 0, 0, 4]] ∧
    (∃ Y, basicCollide (fun _ => false) 2 4 1 (insertionRowSort.sort 1
        [[1, 5, 0, 0, 0, 2], [1, 3, 0, 0, 0, 4], [2, 7, 0, 0, 0, 6]]) = .ok Y ∧
      Y.Perm (collisionMerges 1 (basicEmit 2 4 1)
        [[1, 5, 0, 0, 0, 2], [1, 3, 0, 0, 0, 4], [2, 7, 0, 0, 0, 6]])) ∧
    (∃ Y, truncatedCollide (fun _ => false) 2 4 1 (insertionRowSort.sort 1
        [[1, 5, 0, 0, 0, 2], [1, 3, 0, 0, 0, 4], [2, 7, 0, 0, 0, 6]]) = .ok Y ∧
      Y.Perm (collisionMerges 1 (truncatedEmit 2 4 1)
        [[1, 5, 0, 0, 0, 2], [1, 3, 0, 0, 0, 4], [2, 7, 0, 0, 0, 6]])) ∧
    (collideBranches (insertionRowSort.sort 2
        [[1, 5, 0, 0, 0, 2], [1, 3, 0, 0, 0, 4], [2, 7, 0, 0, 0, 6]]) 2 4 1 9 1 2).Perm
      (collisionMerges 1 (branchEmit 2 4 1 9 1 2)
        [[1, 5, 0, 0, 0, 2], [1, 3, 0, 0, 0, 4], [2, 7, 0, 0, 0, 6]]) :=
  ⟨by decide, by decide, by decide, collide_passes insertionRowSort _ 2 4 1 9 1 2 (by decide)⟩

end Equihash
