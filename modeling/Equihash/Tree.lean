import Equihash.Row
import Mathlib.Data.List.Lex
import Mathlib.Data.List.GetD
import Mathlib.Data.List.Nodup
import Mathlib.Tactic.Ring

/-! Solutions as trees of seeds: the abstract layer under the solvers and the
verifier.

A sequence of `2^h` seeds is read as the leaves of a complete binary tree. The
row the code holds for such a subtree at level `l` is `encodedRow`: the XOR of
the leaves' expanded hashes past the `l` blocks already collided, then the
leaves as stored indices. The merge constructor maps two encoded siblings to
their encoded parent, and the code's three pair checks read the siblings' XOR,
their seeds and their order.

* `IsSolution`: the declarative validity of a sequence of seeds.
* `isSolution_iff_siblingsOk`: it is the conjunction of the checks on every pair
  of siblings, with the root's last block.
-/

namespace Equihash

/-! ## Zero bytes -/

/-- The first `n` bytes of `x` are zero. -/
def ZeroPrefix (x : List UInt8) (n : Nat) : Prop := ∀ b ∈ x.take n, b = 0

instance (x : List UInt8) (n : Nat) : Decidable (ZeroPrefix x n) :=
  inferInstanceAs (Decidable (∀ b ∈ x.take n, b = 0))

theorem isZero_iff {row : List UInt8} {len : Nat} : isZero row len = true ↔ ZeroPrefix row len := by
  simp [isZero, ZeroPrefix]

theorem zeroPrefix_append_of_le {x y : List UInt8} {n : Nat} (h : n ≤ x.length) :
    ZeroPrefix (x ++ y) n ↔ ZeroPrefix x n := by
  rw [ZeroPrefix, ZeroPrefix, List.take_append_of_le_length h]

theorem zeroPrefix_add {x : List UInt8} {m n : Nat} :
    ZeroPrefix x (m + n) ↔ ZeroPrefix x m ∧ ZeroPrefix (x.drop m) n := by
  simp only [ZeroPrefix, List.take_add, List.mem_append, or_imp, forall_and]

@[simp] theorem bytesXor_cons (x y : UInt8) (a b : List UInt8) :
    bytesXor (x :: a) (y :: b) = (x ^^^ y) :: bytesXor a b := rfl

theorem xor8_eq_zero {a b : UInt8} : a ^^^ b = 0 ↔ a = b := by
  refine ⟨fun h => ?_, fun h => h ▸ xor8_self a⟩
  calc a = a ^^^ (a ^^^ b) := by rw [h, xor8_comm, zero_xor8]
    _ = b := by rw [← xor8_assoc, xor8_self, zero_xor8]

/-- Two byte strings of one length are equal iff their XOR is zero. -/
theorem eq_iff_bytesXor_zero {a b : List UInt8} (h : a.length = b.length) :
    a = b ↔ ∀ x ∈ bytesXor a b, x = 0 := by
  induction a generalizing b with
  | nil => cases b <;> simp_all [bytesXor]
  | cons x a ih =>
    cases b with
    | nil => simp at h
    | cons y b =>
      simp only [bytesXor_cons, List.mem_cons, forall_eq_or_imp, List.cons.injEq, xor8_eq_zero,
        ih (Nat.succ.inj h)]

@[simp] theorem zeroPrefix_zero (x : List UInt8) : ZeroPrefix x 0 := by simp [ZeroPrefix]

@[simp] theorem zeroPrefix_nil (n : Nat) : ZeroPrefix [] n := by simp [ZeroPrefix]

@[simp] theorem zeroPrefix_cons_succ {x : UInt8} {a : List UInt8} {n : Nat} :
    ZeroPrefix (x :: a) (n + 1) ↔ x = 0 ∧ ZeroPrefix a n := by
  simp [ZeroPrefix]

theorem zeroPrefix_bytesXor {a b : List UInt8} {n : Nat} (ha : ZeroPrefix a n)
    (hb : ZeroPrefix b n) : ZeroPrefix (bytesXor a b) n := by
  induction n generalizing a b with
  | zero => simp
  | succ n ih =>
    cases a with
    | nil => simp [bytesXor]
    | cons x a =>
      cases b with
      | nil => simp [bytesXor]
      | cons y b =>
        simp only [zeroPrefix_cons_succ, bytesXor_cons] at ha hb ⊢
        exact ⟨by rw [ha.1, hb.1]; rfl, ih ha.2 hb.2⟩

theorem take_eq_iff_zeroPrefix {a b : List UInt8} {n : Nat} (ha : n ≤ a.length)
    (hb : n ≤ b.length) : a.take n = b.take n ↔ ZeroPrefix (bytesXor a b) n := by
  rw [ZeroPrefix, take_bytesXor]
  exact eq_iff_bytesXor_zero (by simp; omega)

/-! ## Encoded subtrees -/

section Hash

variable (p : Params) (base : EhHashState)

/-- The XOR of the expanded hashes of the seeds `σ` (all zero for none). -/
def hashXor (σ : List UInt32) : List UInt8 :=
  σ.foldr (fun i acc => bytesXor (stepRow p base i) acc) (List.replicate p.expandedHashLength 0)

/-- The row the code holds for the subtree with leaves `σ` at level `l`: the XOR
past the `l` blocks already collided, then the leaves as stored indices. -/
def encodedRow (l : Nat) (σ : List UInt32) : List UInt8 :=
  (hashXor p base σ).drop (l * p.collisionByteLength) ++ indexBytes σ

/-- Two sibling subtrees in the order the merge constructors store them: the one
with the lexicographically smaller history first. -/
def joinOrdered (σ τ : List UInt32) : List UInt32 :=
  if List.Lex (· < ·) σ τ then σ ++ τ else τ ++ σ

/-- The leaves `σ` of a subtree of height `r` rearranged as the merges store them:
at every node the child with the lexicographically smaller history first. -/
def orderedTree : Nat → List UInt32 → List UInt32
  | 0, σ => σ
  | r + 1, σ => joinOrdered (orderedTree r (σ.take (2 ^ r))) (orderedTree r (σ.drop (2 ^ r)))

variable {p base}

theorem perm_joinOrdered (σ τ : List UInt32) : (joinOrdered σ τ).Perm (σ ++ τ) := by
  unfold joinOrdered
  split_ifs
  · exact List.Perm.refl _
  · exact List.perm_append_comm

theorem perm_orderedTree (r : Nat) (σ : List UInt32) : (orderedTree r σ).Perm σ := by
  induction r generalizing σ with
  | zero => exact List.Perm.refl _
  | succ r ih =>
    refine (perm_joinOrdered _ _).trans ?_
    conv_rhs => rw [← List.take_append_drop (2 ^ r) σ]
    exact (ih _).append (ih _)

theorem orderedTree_append {r : Nat} {σ τ : List UInt32} (hσ : σ.length = 2 ^ r) :
    orderedTree (r + 1) (σ ++ τ) = joinOrdered (orderedTree r σ) (orderedTree r τ) := by
  rw [orderedTree, List.take_left' hσ, List.drop_left' hσ]

@[simp] theorem length_hashXor (σ : List UInt32) :
    (hashXor p base σ).length = p.expandedHashLength := by
  induction σ with
  | nil => simp [hashXor]
  | cons i σ ih => simp only [hashXor, List.foldr_cons] at ih ⊢; simp [ih, length_stepRow]

theorem hashXor_append (σ τ : List UInt32) :
    hashXor p base (σ ++ τ) = bytesXor (hashXor p base σ) (hashXor p base τ) := by
  induction σ with
  | nil => exact (zeros_bytesXor (length_hashXor τ)).symm
  | cons i σ ih =>
    simp only [List.cons_append, hashXor, List.foldr_cons] at ih ⊢
    rw [ih, bytesXor_assoc]

theorem hashXor_comm (σ τ : List UInt32) : hashXor p base (σ ++ τ) = hashXor p base (τ ++ σ) := by
  rw [hashXor_append, hashXor_append, bytesXor_comm]

theorem hashXor_perm {σ τ : List UInt32} (h : σ.Perm τ) : hashXor p base σ = hashXor p base τ := by
  induction h with
  | nil => rfl
  | cons i _ ih => simp only [hashXor, List.foldr_cons] at ih ⊢; rw [ih]
  | swap i j σ =>
    simp only [hashXor, List.foldr_cons]
    rw [← bytesXor_assoc, bytesXor_comm (stepRow p base j), bytesXor_assoc]
  | trans _ _ ih1 ih2 => exact ih1.trans ih2

theorem hashXor_joinOrdered (σ τ : List UInt32) :
    hashXor p base (joinOrdered σ τ) = hashXor p base (σ ++ τ) := by
  unfold joinOrdered
  split_ifs
  · rfl
  · exact hashXor_comm τ σ

theorem mem_joinOrdered {σ τ : List UInt32} {x : UInt32} :
    x ∈ joinOrdered σ τ ↔ x ∈ σ ∨ x ∈ τ := by
  unfold joinOrdered; split_ifs <;> simp [or_comm]

@[simp] theorem hashXor_singleton (i : UInt32) : hashXor p base [i] = stepRow p base i := by
  rw [hashXor, List.foldr_cons, List.foldr_nil, bytesXor_comm, zeros_bytesXor (length_stepRow p base i)]

theorem fullStepRow_eq_encodedRow (i : UInt32) : fullStepRow p base i = encodedRow p base 0 [i] := by
  simp [fullStepRow, encodedRow]

/-- The hash region of a row at level `l` is `ExpandedHashLength - l·CollisionByteLength` bytes. -/
theorem length_encodedHash (l : Nat) (σ : List UInt32) :
    ((hashXor p base σ).drop (l * p.collisionByteLength)).length =
      p.expandedHashLength - l * p.collisionByteLength := by
  simp

/-- Below level `K` the hash region still holds a whole block. -/
theorem collisionByteLength_le {l : Nat} (hl : l ≤ p.K) :
    p.collisionByteLength ≤ p.expandedHashLength - l * p.collisionByteLength := by
  have := Nat.mul_le_mul_right p.collisionByteLength (show l + 1 ≤ p.K + 1 by omega)
  rw [Nat.add_one_mul, Nat.add_one_mul] at this
  rw [Params.expandedHashLength, Nat.add_one_mul]
  omega

theorem drop_encodedRow (l : Nat) (σ : List UInt32) :
    (encodedRow p base l σ).drop (p.expandedHashLength - l * p.collisionByteLength) = indexBytes σ :=
  List.drop_left' (length_encodedHash l σ)

theorem take_encodedRow {l n : Nat} (σ : List UInt32)
    (hn : n ≤ p.expandedHashLength - l * p.collisionByteLength) :
    (encodedRow p base l σ).take n = ((hashXor p base σ).drop (l * p.collisionByteLength)).take n :=
  List.take_append_of_le_length (by rw [length_encodedHash]; exact hn)

theorem getIndices_encodedRow (l : Nat) {σ : List UInt32} {m : Nat} (hσ : σ.length = m) :
    getIndices (encodedRow p base l σ) (p.expandedHashLength - l * p.collisionByteLength) (4 * m) =
      σ := by
  rw [← length_encodedHash l σ, ← hσ]
  exact getIndices_indexBytes _ σ

theorem getIndices_append_indexBytes {hash : List UInt8} {n : Nat} (h : hash.length = n)
    (ρ : List UInt32) : getIndices (hash ++ indexBytes ρ) n (4 * ρ.length) = ρ := by
  subst h; exact getIndices_indexBytes hash ρ

/-- `HasCollision` on `n` hash bytes of two rows of level `l`, whatever their index
regions: the XOR of their seeds vanishes there. -/
theorem hasCollision_hashPart {l n : Nat} (σ τ : List UInt32) (x y : List UInt8)
    (hn : n ≤ p.expandedHashLength - l * p.collisionByteLength) :
    hasCollision ((hashXor p base σ).drop (l * p.collisionByteLength) ++ x)
      ((hashXor p base τ).drop (l * p.collisionByteLength) ++ y) n =
      decide (ZeroPrefix ((hashXor p base (σ ++ τ)).drop (l * p.collisionByteLength)) n) := by
  have hlen : n ≤ ((hashXor p base σ).drop (l * p.collisionByteLength)).length := by
    rw [length_encodedHash]; exact hn
  rw [hasCollision, List.take_append_of_le_length hlen,
    List.take_append_of_le_length (by rwa [length_encodedHash] at hlen ⊢), hashXor_append,
    drop_bytesXor]
  exact decide_eq_decide.2 (take_eq_iff_zeroPrefix hlen (by rwa [length_encodedHash] at hlen ⊢))

/-- `HasCollision` of two encoded rows on `n` hash bytes: their XOR vanishes there. -/
theorem hasCollision_encodedRow {l n : Nat} (σ τ : List UInt32)
    (hn : n ≤ p.expandedHashLength - l * p.collisionByteLength) :
    hasCollision (encodedRow p base l σ) (encodedRow p base l τ) n =
      decide (ZeroPrefix ((hashXor p base (σ ++ τ)).drop (l * p.collisionByteLength)) n) :=
  hasCollision_hashPart σ τ _ _ hn

/-- The hash bytes a merge at level `l` keeps of a row: those past the block it
collides on. -/
theorem hashPart_trim (l : Nat) (ρ : List UInt32) (x : List UInt8) :
    (((hashXor p base ρ).drop (l * p.collisionByteLength) ++ x).drop p.collisionByteLength).take
      (p.expandedHashLength - l * p.collisionByteLength - p.collisionByteLength) =
      (hashXor p base ρ).drop ((l + 1) * p.collisionByteLength) := by
  rw [← List.drop_take, ← length_encodedHash l ρ, List.take_left, List.drop_drop, Nat.add_one_mul]

variable {σ τ : List UInt32} {m : Nat} (hσ : σ.length = m) (hτ : τ.length = m)
include hσ hτ

/-- `IndicesBefore` of two encoded rows is the lexicographic order of their leaves. -/
theorem indicesBefore_encodedRow (l : Nat) :
    indicesBefore (encodedRow p base l σ) (encodedRow p base l τ)
      (p.expandedHashLength - l * p.collisionByteLength) (4 * m) =
      decide (List.Lex (· < ·) σ τ) := by
  rw [indicesBefore, drop_encodedRow, drop_encodedRow, memcmp,
    List.take_of_length_le (by simp [hσ]), List.take_of_length_le (by simp [hτ])]
  exact decide_eq_decide.2 (compareBytes_indexBytes_lt (hσ.trans hτ.symm))

theorem distinctIndices_encodedRow (l : Nat) :
    distinctIndices (encodedRow p base l σ) (encodedRow p base l τ)
      (p.expandedHashLength - l * p.collisionByteLength) (4 * m) =
      decide (∀ x ∈ σ, x ∉ τ) := by
  rw [distinctIndices, getIndices_encodedRow l hσ, getIndices_encodedRow l hτ]

/-- **Merge.** The merge constructor maps two encoded siblings at level `l` to
their encoded parent at level `l + 1`. -/
theorem mergeRows_encodedRow (l : Nat) :
    mergeRows (encodedRow p base l σ) (encodedRow p base l τ)
      (p.expandedHashLength - l * p.collisionByteLength) (4 * m) p.collisionByteLength =
      encodedRow p base (l + 1) (joinOrdered σ τ) := by
  rw [mergeRows, encodedRow, encodedRow, hashPart_trim, hashPart_trim, ← encodedRow, ← encodedRow,
    ← drop_bytesXor, ← hashXor_append, indicesBefore_encodedRow hσ hτ,
    drop_encodedRow, drop_encodedRow, List.take_of_length_le (by simp [hσ]),
    List.take_of_length_le (by simp [hτ]), encodedRow, hashXor_joinOrdered, joinOrdered]
  simp only [decide_eq_true_eq]
  split_ifs <;> simp

theorem length_joinOrdered : (joinOrdered σ τ).length = 2 * m := by
  unfold joinOrdered; split_ifs <;> rw [List.length_append, hσ, hτ] <;> omega

/-- The final merge (`trim = 0`) stores the two histories in `IndicesBefore` order,
where `GetIndices` reads them back. -/
theorem getIndices_mergeRows_final (l : Nat) :
    getIndices (mergeRows (encodedRow p base l σ) (encodedRow p base l τ)
      (p.expandedHashLength - l * p.collisionByteLength) (4 * m) 0)
      (p.expandedHashLength - l * p.collisionByteLength) (2 * (4 * m)) = joinOrdered σ τ := by
  have hidx : (if indicesBefore (encodedRow p base l σ) (encodedRow p base l τ)
      (p.expandedHashLength - l * p.collisionByteLength) (4 * m) then
      ((encodedRow p base l σ).drop (p.expandedHashLength - l * p.collisionByteLength)).take (4 * m) ++
        ((encodedRow p base l τ).drop (p.expandedHashLength - l * p.collisionByteLength)).take (4 * m)
    else ((encodedRow p base l τ).drop (p.expandedHashLength - l * p.collisionByteLength)).take (4 * m) ++
        ((encodedRow p base l σ).drop (p.expandedHashLength - l * p.collisionByteLength)).take (4 * m)) =
      indexBytes (joinOrdered σ τ) := by
    rw [indicesBefore_encodedRow hσ hτ, drop_encodedRow, drop_encodedRow,
      List.take_of_length_le (by simp [hσ]), List.take_of_length_le (by simp [hτ]), joinOrdered]
    simp only [decide_eq_true_eq]
    split_ifs <;> simp
  rw [mergeRows, hidx, show 2 * (4 * m) = 4 * (joinOrdered σ τ).length by
    rw [length_joinOrdered hσ hτ]; ring]
  exact getIndices_append_indexBytes (by simp [encodedRow]) _

end Hash

/-! ## The tree over a sequence -/

section Subtree

variable {α : Type}

/-- The leaves `s[g·2^h, (g+1)·2^h)` of the node of height `h` at position `g`. -/
def subtree (s : List α) (h g : Nat) : List α := (s.drop (g * 2 ^ h)).take (2 ^ h)

theorem subtree_succ (s : List α) (h g : Nat) :
    subtree s (h + 1) g = subtree s h (2 * g) ++ subtree s h (2 * g + 1) := by
  have e1 : 2 * g * 2 ^ h = g * 2 ^ (h + 1) := by ring
  have e2 : (2 * g + 1) * 2 ^ h = g * 2 ^ (h + 1) + 2 ^ h := by ring
  rw [subtree, subtree, subtree, e1, e2, ← List.drop_drop,
    show 2 ^ (h + 1) = 2 ^ h + 2 ^ h by ring, List.take_add]

/-- The two halves of a sequence of `2^(r+1)` leaves have `2^r` leaves each. -/
theorem length_halves {s : List α} {r : Nat} (hs : s.length = 2 ^ (r + 1)) :
    (s.take (2 ^ r)).length = 2 ^ r ∧ (s.drop (2 ^ r)).length = 2 ^ r := by
  rw [List.length_take, List.length_drop, hs, Nat.pow_succ]
  omega

theorem subtree_root {s : List α} {r : Nat} (hs : s.length = 2 ^ r) : subtree s r 0 = s := by
  simp [subtree, ← hs]

theorem succ_mul_pow_le {r h g : Nat} (hh : h ≤ r) (hg : g < 2 ^ (r - h)) :
    g * 2 ^ h + 2 ^ h ≤ 2 ^ r :=
  calc g * 2 ^ h + 2 ^ h = (g + 1) * 2 ^ h := (Nat.add_one_mul g _).symm
    _ ≤ 2 ^ (r - h) * 2 ^ h := Nat.mul_le_mul_right _ hg
    _ = 2 ^ r := by rw [← Nat.pow_add, Nat.sub_add_cancel hh]

theorem length_subtree {s : List α} {r h g : Nat} (hs : s.length = 2 ^ r) (hh : h ≤ r)
    (hg : g < 2 ^ (r - h)) : (subtree s h g).length = 2 ^ h := by
  have := succ_mul_pow_le hh hg
  simp only [subtree, List.length_take, List.length_drop, hs]
  omega

/-- A node's subtree starts with the leaf at its left end. -/
theorem subtree_eq_cons {s : List α} {h j : Nat} (d : α) (hj : j * 2 ^ h < s.length) :
    ∃ rest, subtree s h j = s.getD (j * 2 ^ h) d :: rest := by
  rw [subtree, List.drop_eq_getElem_cons hj, List.getD_eq_getElem _ _ hj,
    List.take_cons (Nat.two_pow_pos h)]
  exact ⟨_, rfl⟩

theorem two_pow_sub_succ {r h : Nat} (hh : h < r) : 2 ^ (r - h) = 2 * 2 ^ (r - (h + 1)) := by
  rw [← Nat.pow_succ']; congr 1; omega

/-- The two children of node `(h + 1, g)` start at leaves `g·2^(h+1)` and
`g·2^(h+1) + 2^h`. -/
theorem children_eq_cons {s : List α} {r h g : Nat} (d : α) (hs : s.length = 2 ^ r) (hh : h < r)
    (hg : g < 2 ^ (r - (h + 1))) :
    (∃ L, subtree s h (2 * g) = s.getD (g * 2 ^ (h + 1)) d :: L) ∧
      ∃ R, subtree s h (2 * g + 1) = s.getD (g * 2 ^ (h + 1) + 2 ^ h) d :: R := by
  have e1 : 2 * g * 2 ^ h = g * 2 ^ (h + 1) := by ring
  have e2 : (2 * g + 1) * 2 ^ h = g * 2 ^ (h + 1) + 2 ^ h := by ring
  have hb := succ_mul_pow_le (Nat.le_of_lt hh)
    (show 2 * g + 1 < 2 ^ (r - h) by rw [two_pow_sub_succ hh]; omega)
  have := Nat.two_pow_pos h
  constructor
  · rw [← e1]; exact subtree_eq_cons d (by rw [e1, hs]; omega)
  · rw [← e2]; exact subtree_eq_cons d (by rw [e2, hs]; omega)

/-- **Tree induction.** A property of the leaves of every node of height 0 that
passes from two siblings to their parent holds at every node. -/
theorem subtree_induction {s : List α} {r : Nat} (P : Nat → List α → Prop)
    (leaf : ∀ g < 2 ^ r, P 0 (subtree s 0 g))
    (node : ∀ h < r, ∀ g < 2 ^ (r - (h + 1)), P h (subtree s h (2 * g)) →
      P h (subtree s h (2 * g + 1)) → P (h + 1) (subtree s (h + 1) g)) :
    ∀ h ≤ r, ∀ g < 2 ^ (r - h), P h (subtree s h g) := by
  intro h
  induction h with
  | zero => exact fun _ g hg => leaf g hg
  | succ h ih =>
    intro hh g hg
    have h2 := two_pow_sub_succ hh
    exact node h hh g hg (ih (by omega) _ (by omega)) (ih (by omega) _ (by omega))

/-- A subtree inside the left half of `L ++ R` is a subtree of `L`. -/
theorem subtree_append_left {L R : List α} {r h j : Nat} (hL : L.length = 2 ^ r) (hh : h ≤ r)
    (hj : j < 2 ^ (r - h)) : subtree (L ++ R) h j = subtree L h j := by
  have := succ_mul_pow_le hh hj
  rw [subtree, subtree, List.drop_append_of_le_length (hL ▸ (Nat.le_add_right _ _).trans this),
    List.take_append_of_le_length (by simp; omega)]

/-- A subtree inside the right half of `L ++ R` is a subtree of `R`. -/
theorem subtree_append_right {L R : List α} {r h j : Nat} (hL : L.length = 2 ^ r) (hh : h ≤ r) :
    subtree (L ++ R) h (2 ^ (r - h) + j) = subtree R h j := by
  rw [subtree, subtree, Nat.add_mul, ← Nat.pow_add, Nat.sub_add_cancel hh, ← hL, List.drop_append]

/-- The children of node `g` of the left half of `L ++ R` are those of `L`. -/
theorem children_append_left {L R : List α} {r h g : Nat} (hL : L.length = 2 ^ r) (hh : h < r)
    (hg : g < 2 ^ (r - (h + 1))) :
    subtree (L ++ R) h (2 * g) = subtree L h (2 * g) ∧
      subtree (L ++ R) h (2 * g + 1) = subtree L h (2 * g + 1) := by
  have h2 := two_pow_sub_succ hh
  exact ⟨subtree_append_left hL hh.le (by omega), subtree_append_left hL hh.le (by omega)⟩

/-- The children of node `g` of the right half of `L ++ R` are those of `R`. -/
theorem children_append_right {L R : List α} {r h : Nat} (g : Nat) (hL : L.length = 2 ^ r)
    (hh : h < r) :
    subtree (L ++ R) h (2 * (2 ^ (r - (h + 1)) + g)) = subtree R h (2 * g) ∧
      subtree (L ++ R) h (2 * (2 ^ (r - (h + 1)) + g) + 1) = subtree R h (2 * g + 1) := by
  rw [Nat.mul_add, ← two_pow_sub_succ hh, Nat.add_assoc]
  exact ⟨subtree_append_right hL hh.le, subtree_append_right hL hh.le⟩

theorem nodup_iff_siblings_disjoint {s : List α} {r : Nat} (hs : s.length = 2 ^ r) :
    s.Nodup ↔ ∀ h < r, ∀ g < 2 ^ (r - (h + 1)),
      ∀ x ∈ subtree s h (2 * g), x ∉ subtree s h (2 * g + 1) := by
  constructor
  · intro hnd h _ g _ x hx hy
    have hsub : (subtree s (h + 1) g).Sublist s := (List.take_sublist _ _).trans (List.drop_sublist _ _)
    rw [subtree_succ] at hsub
    exact List.disjoint_of_nodup_append (hnd.sublist hsub) hx hy
  · intro hd
    have key := subtree_induction (s := s) (fun _ σ => σ.Nodup)
      (fun g _ => by
        simp only [subtree, pow_zero]
        cases s.drop (g * 1) with
        | nil => exact List.nodup_nil
        | cons a _ => exact List.nodup_singleton a)
      (fun h hh g hg hL hR => by
        rw [subtree_succ]
        exact List.nodup_append.2 ⟨hL, hR, fun x hx hy => hd h hh g hg x hx hy⟩)
      r le_rfl 0 (Nat.two_pow_pos _)
    rwa [subtree_root hs] at key

/-- `Q` holds of the two children of every node of height at most `r` of `s`. -/
def AllNodes (Q : Nat → List α → List α → Prop) (r : Nat) (s : List α) : Prop :=
  ∀ h < r, ∀ g < 2 ^ (r - (h + 1)), Q h (subtree s h (2 * g)) (subtree s h (2 * g + 1))

instance {Q : Nat → List α → List α → Prop} [∀ h L R, Decidable (Q h L R)] (r : Nat)
    (s : List α) : Decidable (AllNodes Q r s) :=
  inferInstanceAs (Decidable (∀ h < r, ∀ g < 2 ^ (r - (h + 1)),
    Q h (subtree s h (2 * g)) (subtree s h (2 * g + 1))))

/-- **Nodes split.** The sibling pairs of `L ++ R` below height `r + 1` are those
of `L`, those of `R`, and the pair `L`, `R`. -/
theorem allNodes_append {Q : Nat → List α → List α → Prop} {L R : List α} {r : Nat}
    (hL : L.length = 2 ^ r) (hR : R.length = 2 ^ r) :
    AllNodes Q (r + 1) (L ++ R) ↔ AllNodes Q r L ∧ AllNodes Q r R ∧ Q r L R := by
  have hroot : ∀ j, j < 2 → subtree (L ++ R) r j = if j = 0 then L else R := fun j hj => by
    rcases (show j = 0 ∨ j = 1 by omega) with rfl | rfl
    · rw [subtree, Nat.zero_mul, List.drop_zero, ← hL, List.take_left]; rfl
    · rw [subtree, Nat.one_mul, ← hL, List.drop_left, List.take_of_length_le (by omega)]; rfl
  constructor
  · intro H
    refine ⟨fun h hh g hg => ?_, fun h hh g hg => ?_, ?_⟩
    · have := H h (by omega) g (by rw [Nat.sub_add_comm (by omega), Nat.pow_succ]; omega)
      obtain ⟨e1, e2⟩ := children_append_left (R := R) hL hh hg
      rwa [e1, e2] at this
    · have := H h (by omega) (2 ^ (r - (h + 1)) + g)
        (by rw [Nat.sub_add_comm (by omega), Nat.pow_succ]; omega)
      obtain ⟨e1, e2⟩ := children_append_right (R := R) g hL hh
      rwa [e1, e2] at this
    · have := H r (by omega) 0 (by simp)
      rwa [hroot 0 (by omega), hroot 1 (by omega)] at this
  · rintro ⟨HL, HR, Hr⟩ h hh g hg
    rcases Nat.lt_or_ge h r with hr | hr
    · rw [Nat.sub_add_comm (by omega), Nat.pow_succ] at hg
      rcases Nat.lt_or_ge g (2 ^ (r - (h + 1))) with hgl | hgr
      · obtain ⟨e1, e2⟩ := children_append_left (R := R) hL hr hgl
        rw [e1, e2]
        exact HL h hr g hgl
      · obtain ⟨g', rfl⟩ : ∃ g', g = 2 ^ (r - (h + 1)) + g' := ⟨g - 2 ^ (r - (h + 1)), by omega⟩
        obtain ⟨e1, e2⟩ := children_append_right (R := R) g' hL hr
        rw [e1, e2]
        exact HR h hr g' (by omega)
    · obtain rfl : h = r := by omega
      obtain rfl : g = 0 := by simpa using hg
      rw [hroot 0 (by omega), hroot 1 (by omega)]
      exact Hr

end Subtree

/-! ## Valid solutions -/

section Solution

variable (p : Params) (base : EhHashState)

/-- The verifier's three checks on sibling subtrees `σ` (left) and `τ` of height
`h`: their XOR vanishes on block `h + 1`, they share no seed, and `τ` is not
lexicographically before `σ`. -/
def SiblingsOk (h : Nat) (σ τ : List UInt32) : Prop :=
  ZeroPrefix ((hashXor p base (σ ++ τ)).drop (h * p.collisionByteLength)) p.collisionByteLength ∧
    (∀ x ∈ σ, x ∉ τ) ∧ ¬ List.Lex (· < ·) τ σ

instance (h : Nat) (σ τ : List UInt32) : Decidable (SiblingsOk p base h σ τ) :=
  inferInstanceAs (Decidable (_ ∧ _ ∧ _))

/-- Every pair of siblings of height below `r` in `s` passes `SiblingsOk`. -/
def SiblingsOkBelow (r : Nat) (s : List UInt32) : Prop :=
  AllNodes (SiblingsOk p base) r s

instance (r : Nat) (s : List UInt32) : Decidable (SiblingsOkBelow p base r s) :=
  inferInstanceAs (Decidable (AllNodes (SiblingsOk p base) r s))

/-- A subtree of height `r` over seeds below `InitialListSize` passing all of its
sibling checks: what a row of `BasicSolve`'s table encodes after `r` rounds. -/
def GoodSubtree (r : Nat) (σ : List UInt32) : Prop :=
  σ.length = 2 ^ r ∧ (∀ i ∈ σ, i.toNat < p.initSize) ∧ SiblingsOkBelow p base r σ

/-- A valid solution: `2^K` pairwise distinct seeds such that at every node of
height `h ≥ 1`, with leaves `s[a, a + 2^h)`, the XOR of the leaves' expanded
hashes is zero on the first `h` blocks and `s[a] < s[a + 2^(h-1)]`; and the XOR
of all the leaves is zero on all `K + 1` blocks. -/
def IsSolution (s : List UInt32) : Prop :=
  s.length = 2 ^ p.K ∧ s.Nodup ∧
    (∀ h < p.K, ∀ g < 2 ^ (p.K - (h + 1)),
      ZeroPrefix (hashXor p base (subtree s (h + 1) g)) ((h + 1) * p.collisionByteLength) ∧
        s.getD (g * 2 ^ (h + 1)) 0 < s.getD (g * 2 ^ (h + 1) + 2 ^ h) 0) ∧
    ZeroPrefix (hashXor p base s) p.expandedHashLength

instance : DecidablePred (IsSolution p base) := fun _ =>
  inferInstanceAs (Decidable (_ ∧ _ ∧ _ ∧ _))

variable {p base}

/-- Block by block: every node's XOR vanishes on its first `h` blocks iff every
pair of siblings' XOR vanishes on the block they collide on. -/
theorem zeroPrefix_nodes_iff {s : List UInt32} {r : Nat} :
    (∀ h < r, ∀ g < 2 ^ (r - (h + 1)),
      ZeroPrefix (hashXor p base (subtree s (h + 1) g)) ((h + 1) * p.collisionByteLength)) ↔
    ∀ h < r, ∀ g < 2 ^ (r - (h + 1)),
      ZeroPrefix ((hashXor p base (subtree s h (2 * g) ++ subtree s h (2 * g + 1))).drop
        (h * p.collisionByteLength)) p.collisionByteLength := by
  constructor
  · intro H h hh g hg
    have := H h hh g hg
    rw [Nat.add_one_mul, zeroPrefix_add, subtree_succ] at this
    exact this.2
  · intro H
    have key := subtree_induction (s := s) (r := r)
      (fun h σ => ZeroPrefix (hashXor p base σ) (h * p.collisionByteLength))
      (fun g _ => by simp)
      (fun h hh g hg hL hR => by
        dsimp only at hL hR ⊢
        rw [Nat.add_one_mul, zeroPrefix_add, subtree_succ, hashXor_append]
        exact ⟨zeroPrefix_bytesXor hL hR, by rw [← hashXor_append]; exact H h hh g hg⟩)
    exact fun h hh g hg => key (h + 1) hh g hg

theorem not_lex_cons_iff {x y : UInt32} {L R : List UInt32} (hne : x ≠ y) :
    ¬ List.Lex (· < ·) (y :: R) (x :: L) ↔ x < y := by
  rw [lex_cons_cons]
  constructor
  · intro h
    have h1 : ¬ y.toNat < x.toNat := fun h' => h (.inl h')
    have h2 : x.toNat ≠ y.toNat := fun e => hne (UInt32.toNat.inj e)
    show x.toNat < y.toNat
    omega
  · rintro hxy (h | ⟨rfl, -⟩)
    · exact UInt32.lt_asymm hxy h
    · exact hne rfl

theorem siblingsOkBelow_append {L R : List UInt32} {r : Nat} (hL : L.length = 2 ^ r)
    (hR : R.length = 2 ^ r) :
    SiblingsOkBelow p base (r + 1) (L ++ R) ↔
      SiblingsOkBelow p base r L ∧ SiblingsOkBelow p base r R ∧ SiblingsOk p base r L R :=
  allNodes_append hL hR

theorem lex_asymm : ∀ {σ τ : List UInt32}, List.Lex (· < ·) σ τ → ¬ List.Lex (· < ·) τ σ
  | _, _, .nil, h => nomatch h
  | _, _, .cons h, h' => (lex_cons_cons.1 h').elim (fun hlt => UInt32.lt_irrefl _ hlt)
      fun ⟨_, h''⟩ => lex_asymm h h''
  | _, _, .rel h, h' => (lex_cons_cons.1 h').elim (fun hlt => UInt32.lt_asymm h hlt)
      fun ⟨e, _⟩ => UInt32.lt_irrefl _ (e ▸ h)

theorem lex_of_not_lex {σ τ : List UInt32} (hσ : σ ≠ []) (hτ : τ ≠ []) (hd : ∀ x ∈ σ, x ∉ τ)
    (h : ¬ List.Lex (· < ·) τ σ) : List.Lex (· < ·) σ τ := by
  obtain ⟨x, σ', rfl⟩ := List.exists_cons_of_ne_nil hσ
  obtain ⟨y, τ', rfl⟩ := List.exists_cons_of_ne_nil hτ
  have hne : x ≠ y := fun e => hd x (List.mem_cons_self _ _) (e ▸ List.mem_cons_self _ _)
  exact .rel ((not_lex_cons_iff hne).1 h)

theorem ne_nil_of_length_two_pow {σ : List UInt32} {r : Nat} (h : σ.length = 2 ^ r) : σ ≠ [] :=
  fun e => (Nat.two_pow_pos r).ne (by rw [← h, e]; rfl)

/-- The first leaf of a subtree passing its sibling checks is its smallest. -/
theorem head_le_of_siblingsOkBelow : ∀ {r : Nat} {σ : List UInt32}, σ.length = 2 ^ r →
    SiblingsOkBelow p base r σ → ∀ x ∈ σ, (σ.headD 0).toNat ≤ x.toNat
  | 0, σ, hσ, _, x, hx => by
    obtain ⟨y, rfl⟩ := List.length_eq_one.1 hσ
    rw [List.mem_singleton.1 hx]
    exact le_rfl
  | r + 1, σ, hσ, hs, x, hx => by
    obtain ⟨hL, hR⟩ := length_halves hσ
    rw [← List.take_append_drop (2 ^ r) σ] at hs hx ⊢
    obtain ⟨HL, HR, -, hd, hlex⟩ := (siblingsOkBelow_append hL hR).1 hs
    obtain ⟨a, L, hLe⟩ := List.exists_cons_of_ne_nil (ne_nil_of_length_two_pow hL)
    obtain ⟨b, R, hRe⟩ := List.exists_cons_of_ne_nil (ne_nil_of_length_two_pow hR)
    have hab : a.toNat < b.toNat := by
      rw [hLe, hRe] at hlex hd
      exact (not_lex_cons_iff fun e => hd a (List.mem_cons_self _ _)
        (by rw [e]; exact List.mem_cons_self _ _)).1 hlex
    have hL' := head_le_of_siblingsOkBelow hL HL
    have hR' := head_le_of_siblingsOkBelow hR HR
    rw [hLe] at hL' ⊢
    rw [hRe] at hR' hx
    rw [hLe] at hx
    rw [List.cons_append, List.headD_cons]
    rcases List.mem_append.1 hx with hx | hx
    · exact hL' x hx
    · have := hR' x hx
      simp only [List.headD_cons] at this
      omega

/-- **Good subtrees grow by merging.** A good subtree of height `r + 1` is two
good subtrees of height `r` whose XOR vanishes on block `r + 1` and which share
no seed, stored in `IndicesBefore` order. -/
theorem goodSubtree_succ {r : Nat} (ρ : List UInt32) :
    GoodSubtree p base (r + 1) ρ ↔ ∃ σ τ, GoodSubtree p base r σ ∧ GoodSubtree p base r τ ∧
      ZeroPrefix ((hashXor p base (σ ++ τ)).drop (r * p.collisionByteLength))
        p.collisionByteLength ∧ (∀ x ∈ σ, x ∉ τ) ∧ ρ = joinOrdered σ τ := by
  constructor
  · rintro ⟨hlen, hlt, hsib⟩
    obtain ⟨hL, hR⟩ := length_halves hlen
    rw [← List.take_append_drop (2 ^ r) ρ, siblingsOkBelow_append hL hR] at hsib
    obtain ⟨HL, HR, hz, hd, hlex⟩ := hsib
    refine ⟨_, _, ⟨hL, fun i hi => hlt i (List.mem_of_mem_take hi), HL⟩,
      ⟨hR, fun i hi => hlt i (List.mem_of_mem_drop hi), HR⟩, hz, hd, ?_⟩
    rw [joinOrdered, if_pos (lex_of_not_lex (ne_nil_of_length_two_pow hL)
      (ne_nil_of_length_two_pow hR) hd hlex), List.take_append_drop]
  · rintro ⟨σ, τ, ⟨hσ, hσi, Hσ⟩, ⟨hτ, hτi, Hτ⟩, hz, hd, rfl⟩
    have hseeds : ∀ i ∈ joinOrdered σ τ, i.toNat < p.initSize := fun i hi => by
      unfold joinOrdered at hi
      split_ifs at hi <;> rcases List.mem_append.1 hi with h | h
      all_goals first | exact hσi i h | exact hτi i h
    refine ⟨length_joinOrdered hσ hτ |>.trans (by rw [Nat.pow_succ]; ring), hseeds, ?_⟩
    unfold joinOrdered
    split_ifs with hlex
    · exact (siblingsOkBelow_append hσ hτ).2 ⟨Hσ, Hτ, hz, hd, lex_asymm hlex⟩
    · exact (siblingsOkBelow_append hτ hσ).2 ⟨Hτ, Hσ, by rwa [hashXor_comm],
        fun x hx hx' => hd x hx' hx, hlex⟩

/-- I1 to I3 at every node of a subtree of height `r` (distinct leaves, the left
child's first leaf below the right's, every node's XOR zero on its first `h`
blocks) are exactly the verifier's sibling checks. -/
theorem canonical_iff_siblingsOkBelow {s : List UInt32} {r : Nat} (hs : s.length = 2 ^ r) :
    (s.Nodup ∧ ∀ h < r, ∀ g < 2 ^ (r - (h + 1)),
      ZeroPrefix (hashXor p base (subtree s (h + 1) g)) ((h + 1) * p.collisionByteLength) ∧
        s.getD (g * 2 ^ (h + 1)) 0 < s.getD (g * 2 ^ (h + 1) + 2 ^ h) 0) ↔
    SiblingsOkBelow p base r s := by
  have horder : ∀ h < r, ∀ g < 2 ^ (r - (h + 1)),
      (∀ x ∈ subtree s h (2 * g), x ∉ subtree s h (2 * g + 1)) →
      (s.getD (g * 2 ^ (h + 1)) 0 < s.getD (g * 2 ^ (h + 1) + 2 ^ h) 0 ↔
        ¬ List.Lex (· < ·) (subtree s h (2 * g + 1)) (subtree s h (2 * g))) := by
    intro h hh g hg hd
    obtain ⟨⟨L, hL⟩, ⟨R, hR⟩⟩ := children_eq_cons 0 hs hh hg
    rw [hL, hR] at hd ⊢
    exact (not_lex_cons_iff fun e => hd _ (List.mem_cons_self _ _)
      (by rw [e]; exact List.mem_cons_self _ _)).symm
  rw [SiblingsOkBelow, AllNodes, nodup_iff_siblings_disjoint hs]
  simp only [SiblingsOk]
  constructor
  · rintro ⟨hd, hnode⟩
    have hz := zeroPrefix_nodes_iff.1 fun h hh g hg => (hnode h hh g hg).1
    exact fun h hh g hg => ⟨hz h hh g hg, hd h hh g hg,
      (horder h hh g hg (hd h hh g hg)).1 (hnode h hh g hg).2⟩
  · intro hsib
    have hz := zeroPrefix_nodes_iff.2 fun h hh g hg => (hsib h hh g hg).1
    exact ⟨fun h hh g hg => (hsib h hh g hg).2.1, fun h hh g hg =>
      ⟨hz h hh g hg, (horder h hh g hg (hsib h hh g hg).2.1).2 (hsib h hh g hg).2.2⟩⟩

variable (p base) in
/-- I1 to I3 of a row of level `l`, in terms of what it stores: the `2^l` indices
`GetIndices` decodes are pairwise distinct, its hash bytes are blocks `l + 1` to
`K + 1` of their XOR, and at every node of height `h ≥ 1` their XOR is zero on
blocks `1..h` and the left child's first index is below the right child's. -/
def RowInvariant (l : Nat) (row : List UInt8) : Prop :=
  let σ := getIndices row (p.expandedHashLength - l * p.collisionByteLength) (4 * 2 ^ l)
  σ.length = 2 ^ l ∧ σ.Nodup ∧
    row.take ((p.K + 1 - l) * p.collisionByteLength) =
      (hashXor p base σ).drop (l * p.collisionByteLength) ∧
    ∀ h < l, ∀ g < 2 ^ (l - (h + 1)),
      ZeroPrefix (hashXor p base (subtree σ (h + 1) g)) ((h + 1) * p.collisionByteLength) ∧
        σ.getD (g * 2 ^ (h + 1)) 0 < σ.getD (g * 2 ^ (h + 1) + 2 ^ h) 0

/-- The encoding of a subtree passing its sibling checks meets I1 to I3. -/
theorem rowInvariant_encodedRow {l : Nat} {σ : List UInt32} (hσ : σ.length = 2 ^ l)
    (hs : SiblingsOkBelow p base l σ) : RowInvariant p base l (encodedRow p base l σ) := by
  have hc := (canonical_iff_siblingsOkBelow hσ).2 hs
  have hlen : (p.K + 1 - l) * p.collisionByteLength =
      p.expandedHashLength - l * p.collisionByteLength := by
    rw [Params.expandedHashLength, Nat.sub_mul]
  simp only [RowInvariant, getIndices_encodedRow l hσ]
  refine ⟨hσ, hc.1, ?_, hc.2⟩
  rw [hlen, take_encodedRow σ le_rfl, List.take_of_length_le (by rw [length_encodedHash])]

/-- **Validity is local.** A sequence is a valid solution iff it has `2^K` seeds,
every pair of siblings passes the verifier's three checks, and the XOR of all the
seeds vanishes on the last block. -/
theorem isSolution_iff_siblingsOk (s : List UInt32) :
    IsSolution p base s ↔ s.length = 2 ^ p.K ∧ SiblingsOkBelow p base p.K s ∧
      ZeroPrefix ((hashXor p base s).drop (p.K * p.collisionByteLength)) p.collisionByteLength := by
  by_cases hs : s.length = 2 ^ p.K
  swap
  · simp [IsSolution, hs]
  rw [IsSolution, Params.expandedHashLength, Nat.add_one_mul, zeroPrefix_add,
    ← canonical_iff_siblingsOkBelow hs]
  simp only [hs, true_and]
  constructor
  · rintro ⟨hd, hnode, -, hlast⟩
    exact ⟨⟨hd, hnode⟩, hlast⟩
  · rintro ⟨⟨hd, hnode⟩, hlast⟩
    refine ⟨hd, hnode, ?_, hlast⟩
    have := (hnode (p.K - 1) (Nat.sub_lt p.k_pos Nat.one_pos) 0 (Nat.two_pow_pos _)).1
    rwa [Nat.sub_add_cancel p.k_pos, subtree_root hs] at this

end Solution

end Equihash
