import Equihash.Bytes
import Mathlib.Data.List.Perm.Basic
import Mathlib.Data.List.Sort

/-! Rows of `equihash.cpp`.

A `StepRow<WIDTH>` is a fixed buffer of `WIDTH` bytes; the model keeps the
bytes the code writes and reads, a hash region of `len` bytes followed by an
index region of `lenIndices` bytes. A full row stores big-endian indices, a
truncated row one truncation byte per index. The merge constructors XOR two
rows' hashes past the collision bytes and concatenate their index histories in
`IndicesBefore` order.

The header declaring `IndicesBefore`, `DistinctIndices`, `IsValidBranch`,
`CompareSR` and the parameter constants is not part of the source; those
definitions follow the spec's words. `std::sort` is any procedure meeting its
contract (`RowSort`).

* `stepRow_blocks`: the seed constructor clears exactly the padding bits of each
  block's first byte, so every block is below `2^CollisionBitLength`.
-/

namespace Equihash

/-! ## Parameters and the hash state -/

/-- The template parameters of `Equihash<N,K>`. Besides the two numbers it
carries what every supported set (200,9), (216,8), (208,12), (144,5), (96,3),
(96,5), (48,5) satisfies and the code relies on: at least one round, `K < N`,
and an index length `CollisionBitLength + 1` between 8 (so that `TruncateIndex`
drops a non-negative number of bits) and 31 (so that every seed fits in
`eh_index`). -/
structure Params where
  N : Nat
  K : Nat
  k_pos : 0 < K
  k_lt_n : K < N
  ilen_ge : 8 ≤ N / (K + 1) + 1
  ilen_lt : N / (K + 1) + 1 < 32

namespace Params

variable (p : Params)

/-- `CollisionBitLength = N/(K+1)`. -/
def collisionBitLength : Nat := p.N / (p.K + 1)

/-- `CollisionByteLength = (CollisionBitLength+7)/8`. -/
def collisionByteLength : Nat := (p.collisionBitLength + 7) / 8

/-- `ExpandedHashLength = (K+1)*CollisionByteLength`. -/
def expandedHashLength : Nat := (p.K + 1) * p.collisionByteLength

/-- The length of a stored index for truncation, `CollisionBitLength + 1`. -/
def indexLength : Nat := p.collisionBitLength + 1

/-- `init_size = 1 << (CollisionBitLength + 1)`: the number of seeds. -/
def initSize : Nat := 2 ^ p.indexLength

/-- `soln_size = 1 << K`. -/
def solnSize : Nat := 2 ^ p.K

theorem collisionByteLength_pos : 0 < p.collisionByteLength := by
  have := p.ilen_ge
  simp only [collisionByteLength, collisionBitLength]
  omega

theorem indexLength_ge : 8 ≤ p.indexLength := p.ilen_ge

theorem indexLength_le : p.indexLength ≤ 32 := Nat.le_of_lt p.ilen_lt

end Params

/-- The base hash state: a personalised BLAKE2b state, as the row constructor
uses it. `digest input outlen` clones the state, feeds it `input` and finalises
it to `outlen` bytes. -/
structure EhHashState where
  digest : List UInt8 → Nat → List UInt8
  length_digest : ∀ input outlen, (digest input outlen).length = outlen

/-! ## Row constructors -/

/-- `htole32(i)`: the four bytes hashed for seed `i`. -/
def le32 (i : UInt32) : List UInt8 := (ehIndexToArray i).reverse

/-- `0xFF >> (8*CollisionByteLength - CollisionBitLength)`, the mask of the first
byte of each block. -/
def blockMask (p : Params) : UInt8 :=
  0xFF >>> (8 * p.collisionByteLength - p.collisionBitLength).toUInt8

/-- `StepRow(n, k, base_state, i)`: hash the seed into a clone of the base
state, squeeze `ExpandedHashLength` bytes, and mask the first byte of each of
the `K + 1` blocks. -/
def stepRow (p : Params) (base : EhHashState) (i : UInt32) : List UInt8 :=
  (List.range (p.K + 1)).foldl
    (fun hash b => hash.modify (· &&& blockMask p) (b * p.collisionByteLength))
    (base.digest (le32 i) p.expandedHashLength)

/-- `FullStepRow(n, k, base_state, i)`: the expanded hash, then `EhIndexToArray(i)`. -/
def fullStepRow (p : Params) (base : EhHashState) (i : UInt32) : List UInt8 :=
  stepRow p base i ++ ehIndexToArray i

/-- `TruncatedStepRow(n, k, base_state, i, ilen)`: the expanded hash, then
`TruncateIndex(i, ilen)`. -/
def truncatedStepRow (p : Params) (base : EhHashState) (i : UInt32) (ilen : Nat) :
    List UInt8 :=
  stepRow p base i ++ [truncateIndex i ilen]

/-- Modelled from the spec: `a.IndicesBefore(b, len, lenIndices)` is declared in
the absent header; I3 keeps "the lexicographically smaller of the two
orderings", compared as the big-endian bytes indices are stored in "for
lexicographic-equals-integer ordering", i.e. `memcmp` of the two index regions. -/
def indicesBefore (a b : List UInt8) (len lenIndices : Nat) : Bool :=
  decide (memcmp (a.drop len) (b.drop len) lenIndices = .lt)

/-- Modelled from the spec: `DistinctIndices(a, b, len, lenIndices)` is declared
in the absent header; two rows are admissible "iff the multisets of their index
histories are disjoint". -/
def distinctIndices (a b : List UInt8) (len lenIndices : Nat) : Bool :=
  decide (∀ x ∈ getIndices a len lenIndices, x ∉ getIndices b len lenIndices)

/-- Modelled from the spec: `IsValidBranch(a, len, ilen, t)` is declared in the
absent header; it checks "the first 8-bit byte of each row's full index history
truncated appropriately" against `t`. -/
def isValidBranch (a : List UInt8) (len ilen : Nat) (t : UInt8) : Bool :=
  truncateIndex (arrayToEhIndex (a.drop len)) ilen == t

/-- Modelled from the spec: `CompareSR(len)` is declared in the absent header;
"lexicographic unsigned comparison over the first t bytes". -/
def compareSR (len : Nat) (a b : List UInt8) : Bool :=
  decide (memcmp a b len = .lt)

/-- The merge constructor, the same body in `FullStepRow` and `TruncatedStepRow`:
bytes `[trim, len)` of the two hashes XORed, then the two index histories,
the one `IndicesBefore` puts first leading. -/
def mergeRows (a b : List UInt8) (len lenIndices trim : Nat) : List UInt8 :=
  bytesXor ((a.drop trim).take (len - trim)) ((b.drop trim).take (len - trim)) ++
    if indicesBefore a b len lenIndices then
      (a.drop len).take lenIndices ++ (b.drop len).take lenIndices
    else (b.drop len).take lenIndices ++ (a.drop len).take lenIndices

/-- `FullStepRow(a, b, len, lenIndices, trim)`. -/
def fullStepRowMerge (a b : List UInt8) (len lenIndices trim : Nat) : List UInt8 :=
  mergeRows a b len lenIndices trim

/-- `TruncatedStepRow(a, b, len, lenIndices, trim)`. -/
def truncatedStepRowMerge (a b : List UInt8) (len lenIndices trim : Nat) : List UInt8 :=
  mergeRows a b len lenIndices trim

/-- `StepRow::IsZero(len)`. -/
def isZero (row : List UInt8) (len : Nat) : Bool :=
  (row.take len).all (· == 0)

/-- `HasCollision(a, b, l)`: the first `l` bytes agree. -/
def hasCollision (a b : List UInt8) (l : Nat) : Bool :=
  decide (a.take l = b.take l)

/-- `TruncatedStepRow::GetTruncatedIndices(len, lenIndices)`. -/
def getTruncatedIndices (row : List UInt8) (len lenIndices : Nat) : List UInt8 :=
  (row.drop len).take lenIndices

/-- `std::sort(.., CompareSR(len))`: any procedure returning a permutation of its
input in which no row compares below an earlier one. -/
structure RowSort where
  sort : Nat → List (List UInt8) → List (List UInt8)
  perm : ∀ len X, (sort len X).Perm X
  sorted : ∀ len X, (sort len X).Pairwise fun a b => compareSR len b a = false

/-- Insertion sort under `CompareSR(len)` meets the contract, so statements over
every `RowSort` are not vacuous. -/
def insertionRowSort : RowSort where
  sort len X := X.insertionSort fun a b => compareSR len b a = false
  perm len X := List.perm_insertionSort _ X
  sorted len X := by
    have hne : ∀ a b, compareSR len a b = false ↔ compareBytes (a.take len) (b.take len) ≠ .lt := by
      simp [compareSR, memcmp]
    haveI : IsTotal _ fun a b : List UInt8 => compareSR len b a = false := ⟨fun a b => by
      simp only [hne, compareBytes_swap (a.take len)]
      cases compareBytes (a.take len) (b.take len) <;> simp [Ordering.swap]⟩
    haveI : IsTrans _ fun a b : List UInt8 => compareSR len b a = false :=
      ⟨fun a b c hab hbc => by simp only [hne] at *; exact compareBytes_ne_lt_trans hab hbc⟩
    exact List.sorted_insertionSort _ X

/-! ## Basic facts -/

@[simp] theorem fullStepRowMerge_eq (a b : List UInt8) (len lenIndices trim : Nat) :
    fullStepRowMerge a b len lenIndices trim = mergeRows a b len lenIndices trim := rfl

@[simp] theorem truncatedStepRowMerge_eq (a b : List UInt8) (len lenIndices trim : Nat) :
    truncatedStepRowMerge a b len lenIndices trim = mergeRows a b len lenIndices trim := rfl

theorem length_foldl_modify {α β : Type} (f : α → α) (pos : β → Nat) :
    ∀ (bs : List β) (l : List α), (bs.foldl (fun l b => l.modify f (pos b)) l).length = l.length
  | [], _ => rfl
  | b :: bs, l => by rw [List.foldl_cons, length_foldl_modify f pos bs, List.length_modify]

theorem length_stepRow (p : Params) (base : EhHashState) (i : UInt32) :
    (stepRow p base i).length = p.expandedHashLength := by
  rw [stepRow, length_foldl_modify, base.length_digest]

theorem hasCollision_comm (a b : List UInt8) (l : Nat) : hasCollision a b l = hasCollision b a l := by
  simp only [hasCollision, eq_comm]

theorem distinctIndices_comm (a b : List UInt8) (len lenIndices : Nat) :
    distinctIndices a b len lenIndices = distinctIndices b a len lenIndices := by
  simp only [distinctIndices, decide_eq_decide]
  exact ⟨fun h x hx hA => h x hA hx, fun h x hx hA => h x hA hx⟩

/-- The merge constructors are symmetric in their two operands. -/
theorem mergeRows_comm (a b : List UInt8) (len lenIndices trim : Nat) :
    mergeRows a b len lenIndices trim = mergeRows b a len lenIndices trim := by
  have hswap := compareBytes_swap ((a.drop len).take lenIndices) ((b.drop len).take lenIndices)
  simp only [mergeRows, indicesBefore, memcmp, bytesXor_comm ((a.drop trim).take _), hswap]
  congr 1
  split_ifs with h1 h2 h2
  · cases h : compareBytes ((a.drop len).take lenIndices) ((b.drop len).take lenIndices) <;>
      simp_all [Ordering.swap]
  · rfl
  · rfl
  · cases h : compareBytes ((a.drop len).take lenIndices) ((b.drop len).take lenIndices) <;>
      simp_all [Ordering.swap, compareBytes_eq_eq]

/-! ## The blocks of a seed row -/

theorem getD_modify_of_lt {α : Type} (f : α → α) (n : Nat) {l : List α} {m : Nat}
    (hm : m < l.length) (d : α) :
    (l.modify f n).getD m d = if n = m then f (l.getD m d) else l.getD m d := by
  simp [hm, List.getElem_modify]

/-- The loop `for (i = 0; i < n; i++) hash[i*c] = f(hash[i*c])` changes exactly
the positions that are multiples of `c` below `n*c`. -/
theorem getD_foldl_modify {α : Type} (f : α → α) {c : Nat} (hc : 0 < c) {l : List α} {j : Nat}
    (hj : j < l.length) (d : α) :
    ∀ n, ((List.range n).foldl (fun l b => l.modify f (b * c)) l).getD j d =
      if j % c = 0 ∧ j / c < n then f (l.getD j d) else l.getD j d
  | 0 => by simp
  | n + 1 => by
    have key : j % c = 0 ∧ j / c = n ↔ n * c = j :=
      ⟨fun ⟨h1, h2⟩ => by rw [← h2, Nat.div_mul_cancel (Nat.dvd_of_mod_eq_zero h1)],
        fun h => by subst h; exact ⟨Nat.mul_mod_left n c, Nat.mul_div_cancel n hc⟩⟩
    rw [List.range_succ, List.foldl_append, List.foldl_cons, List.foldl_nil,
      getD_modify_of_lt _ _ (by rw [length_foldl_modify]; exact hj), getD_foldl_modify f hc hj d n]
    by_cases hn : n * c = j
    · rw [if_pos hn, if_neg (by omega), if_pos (by omega)]
    · rw [if_neg hn]
      split_ifs <;> first | rfl | omega

section Blocks

variable (p : Params)

/-- `StepRow` clears `8*CollisionByteLength - CollisionBitLength` high bits of a
block's first byte: fewer than 8. -/
theorem clearedBits_lt : 8 * p.collisionByteLength - p.collisionBitLength < 8 := by
  simp only [Params.collisionByteLength]; omega

/-- Masking with `blockMask` keeps the bits below the cleared ones. -/
theorem toNat_and_blockMask (x : UInt8) : (x &&& blockMask p).toNat =
    x.toNat % 2 ^ (8 - (8 * p.collisionByteLength - p.collisionBitLength)) := by
  have hs := clearedBits_lt p
  have hmask : ∀ s < 8, (255 : Nat) >>> s = 2 ^ (8 - s) - 1 := by decide
  rw [toNat_and8, blockMask, toNat_shiftRight8, Nat.toUInt8, toNat_ofNat8,
    Nat.mod_eq_of_lt (by omega : 8 * p.collisionByteLength - p.collisionBitLength < 256),
    Nat.mod_eq_of_lt hs, show (0xFF : UInt8).toNat = 255 from rfl, hmask _ hs,
    Nat.and_pow_two_sub_one_eq_mod]

/-- Byte `j` of a seed row: the hash's, masked at the first byte of each block. -/
theorem getD_stepRow (base : EhHashState) (i : UInt32) {j : Nat} (hj : j < p.expandedHashLength) :
    (stepRow p base i).getD j 0 = if j % p.collisionByteLength = 0 then
      (base.digest (le32 i) p.expandedHashLength).getD j 0 &&& blockMask p
    else (base.digest (le32 i) p.expandedHashLength).getD j 0 := by
  have hb : j / p.collisionByteLength < p.K + 1 :=
    Nat.div_lt_of_lt_mul (by rw [Nat.mul_comm]; exact hj)
  rw [stepRow, getD_foldl_modify _ p.collisionByteLength_pos (by rw [base.length_digest]; exact hj)]
  simp only [hb, and_true]

/-- **Seed rows.** For every hash the base state produces, the `StepRow` seed
constructor leaves `ExpandedHashLength` bytes whose `K + 1` blocks, read
big-endian, are below `2^CollisionBitLength`: it clears exactly the top
`8*CollisionByteLength - CollisionBitLength` bits of each block's first byte and
keeps every other bit of the hash. -/
theorem stepRow_blocks (base : EhHashState) (i : UInt32) :
    (stepRow p base i).length = p.expandedHashLength ∧
    (∀ b < p.K + 1, bytesValue (((stepRow p base i).drop (b * p.collisionByteLength)).take
      p.collisionByteLength) < 2 ^ p.collisionBitLength) ∧
    ∀ j < p.expandedHashLength, ∀ t,
      ((stepRow p base i).getD j 0).toNat.testBit t =
        (((base.digest (le32 i) p.expandedHashLength).getD j 0).toNat.testBit t &&
          !decide (j % p.collisionByteLength = 0 ∧
            8 - (8 * p.collisionByteLength - p.collisionBitLength) ≤ t)) := by
  have hs := clearedBits_lt p
  have hc := p.collisionByteLength_pos
  refine ⟨length_stepRow p base i, fun b hb => ?_, fun j hj t => ?_⟩
  · have hlt : b * p.collisionByteLength < p.expandedHashLength :=
      Nat.lt_of_lt_of_le (Nat.mul_lt_mul_of_pos_right (Nat.lt_succ_self b) hc)
        (Nat.mul_le_mul_right _ hb)
    have hx := getD_stepRow p base i hlt
    rw [if_pos (Nat.mul_mod_left _ _), List.getD_eq_getElem _ _ (by rwa [length_stepRow])] at hx
    rw [List.drop_eq_getElem_cons (by rwa [length_stepRow])]
    refine (bytesValue_take_cons_lt (m := 8 - (8 * p.collisionByteLength - p.collisionBitLength))
      (by rw [hx, toNat_and_blockMask]; exact Nat.mod_lt _ (Nat.two_pow_pos _)) _ hc).trans_le
      (Nat.pow_le_pow_right (by decide) ?_)
    simp only [Params.collisionByteLength] at hc ⊢; omega
  · rw [getD_stepRow p base i hj]
    split_ifs with h0
    · rw [toNat_and_blockMask, Nat.testBit_mod_two_pow, Bool.and_comm, ← decide_not]
      congr 1
      exact decide_eq_decide.2 (by simp only [h0, true_and, Nat.not_le])
    · simp [h0]

end Blocks

end Equihash
