import Mathlib.Data.List.Lex
import Mathlib.Data.List.Nodup
import Mathlib.Data.Nat.Bitwise

/-! Bytes and indices of `equihash.cpp`.

A row of the solver is a byte string. Full rows store their index history as
32-bit big-endian words (`EhIndexToArray`, read back by `ArrayToEhIndex` and
`GetIndices`); truncated rows store one byte per index (`TruncateIndex`,
undone by `UntruncateIndex` up to the dropped low bits). Rows are sorted and
ordered with `memcmp`, an unsigned lexicographic comparison.

Proved here:

* `ehIndex_encoding`: the two conversions are inverse, `memcmp` on four stored
  bytes is integer order, `memcmp` on a stored history is the lexicographic
  order of the index sequences, and `GetIndices` reads the history back;
* `truncation_inverse`: for every width `8 ≤ ilen ≤ 32`, truncation undoes
  untruncation, untruncating with the dropped bits restores the index,
  truncation is monotone, and the candidates the optimised solver enumerates
  for a truncation are exactly the seeds below `2^ilen` with it, each once.
-/

namespace Equihash

/-! ## Machine words -/

private theorem toNat_shiftRight32 (i j : UInt32) :
    (i >>> j).toNat = i.toNat >>> (j.toNat % 32) := by
  show (i.toBitVec >>> (j.toBitVec % 32)).toNat = _
  simp [UInt32.toNat]

private theorem toNat_shiftLeft32 (a b : UInt32) :
    (a <<< b).toNat = (a.toNat <<< (b.toNat % 32)) % 2 ^ 32 := by
  show (a.toBitVec <<< (b.toBitVec % 32)).toNat = _
  simp [UInt32.toNat]

private theorem toNat_or32 (a b : UInt32) : (a ||| b).toNat = a.toNat ||| b.toNat := by
  show (a.toBitVec ||| b.toBitVec).toNat = _
  simp [UInt32.toNat]

theorem toNat_and8 (a b : UInt8) : (a &&& b).toNat = a.toNat &&& b.toNat := by
  show (a.toBitVec &&& b.toBitVec).toNat = _
  simp [UInt8.toNat]

theorem toNat_shiftRight8 (a b : UInt8) : (a >>> b).toNat = a.toNat >>> (b.toNat % 8) := by
  show (a.toBitVec >>> (b.toBitVec % 8)).toNat = _
  simp [UInt8.toNat]

@[simp] theorem toNat_ofNat32 (n : Nat) : (UInt32.ofNat n).toNat = n % 2 ^ 32 := by
  simp [UInt32.ofNat, UInt32.toNat]

@[simp] theorem toNat_ofNat8 (n : Nat) : (UInt8.ofNat n).toNat = n % 256 := by
  simp [UInt8.ofNat, UInt8.toNat]

@[simp] theorem toNat_toUInt32 (a : UInt8) : a.toUInt32.toNat = a.toNat := by
  simp [UInt8.toUInt32, UInt32.toNat]

@[simp] theorem toNat_toUInt8 (a : UInt32) : a.toUInt8.toNat = a.toNat % 256 := by
  simp [UInt32.toUInt8, Nat.toUInt8]

theorem toNat_lt32 (a : UInt32) : a.toNat < 2 ^ 32 := a.toNat_lt_size

theorem toNat_lt8 (a : UInt8) : a.toNat < 256 := a.toNat_lt_size

/-! ## Byte strings and `memcmp` -/

/-- Unsigned lexicographic comparison of two byte strings, a proper prefix first. -/
def compareBytes : List UInt8 → List UInt8 → Ordering
  | [], [] => .eq
  | [], _ :: _ => .lt
  | _ :: _, [] => .gt
  | x :: a, y :: b => (compare x.toNat y.toNat).then (compareBytes a b)

/-- `memcmp(a, b, n)`: compare the first `n` bytes. -/
def memcmp (a b : List UInt8) (n : Nat) : Ordering :=
  compareBytes (a.take n) (b.take n)

/-- A byte string read as a big-endian number. -/
def bytesValue : List UInt8 → Nat
  | [] => 0
  | b :: bs => b.toNat * 256 ^ bs.length + bytesValue bs

theorem then_eq_lt {o o' : Ordering} : o.then o' = .lt ↔ o = .lt ∨ (o = .eq ∧ o' = .lt) := by
  cases o <;> simp [Ordering.then]

theorem compareBytes_append {a b : List UInt8} (c d : List UInt8) (h : a.length = b.length) :
    compareBytes (a ++ c) (b ++ d) = (compareBytes a b).then (compareBytes c d) := by
  induction a generalizing b with
  | nil => cases b <;> simp_all [compareBytes, Ordering.then]
  | cons x a ih =>
    cases b with
    | nil => simp at h
    | cons y b =>
      rw [List.cons_append, List.cons_append, compareBytes, compareBytes, ih (by simpa using h)]
      cases compare x.toNat y.toNat <;> rfl

theorem bytesValue_lt (bs : List UInt8) : bytesValue bs < 256 ^ bs.length := by
  induction bs with
  | nil => simp [bytesValue]
  | cons b bs ih =>
    have hb := toNat_lt8 b
    have : (b.toNat + 1) * 256 ^ bs.length ≤ 256 * 256 ^ bs.length :=
      Nat.mul_le_mul_right _ hb
    simp only [bytesValue, List.length_cons, Nat.pow_succ]
    rw [Nat.add_mul, Nat.one_mul] at this
    omega

/-- A string whose first byte is below `2^m` is below `2^m` times the weight of
that byte. -/
theorem bytesValue_cons_lt {x : UInt8} {m : Nat} (hx : x.toNat < 2 ^ m) (xs : List UInt8) :
    bytesValue (x :: xs) < 2 ^ (m + 8 * xs.length) := by
  have := bytesValue_lt xs
  rw [bytesValue, Nat.pow_add, Nat.pow_mul]
  calc x.toNat * 256 ^ xs.length + bytesValue xs < (x.toNat + 1) * 256 ^ xs.length := by
        rw [Nat.add_one_mul]; omega
    _ ≤ 2 ^ m * (2 ^ 8) ^ xs.length := Nat.mul_le_mul_right _ hx

theorem bytesValue_take_cons_lt {x : UInt8} {m : Nat} (hx : x.toNat < 2 ^ m) (xs : List UInt8)
    {n : Nat} (hn : 0 < n) : bytesValue ((x :: xs).take n) < 2 ^ (m + 8 * (n - 1)) := by
  obtain ⟨c, rfl⟩ : ∃ c, n = c + 1 := ⟨n - 1, by omega⟩
  rw [List.take_succ_cons, Nat.add_sub_cancel]
  exact (bytesValue_cons_lt hx _).trans_le
    (Nat.pow_le_pow_right (by decide) (by have := List.length_take_le c xs; omega))

/-- A lower leading digit gives a lower number, whatever the digits after it. -/
theorem mul_add_lt_of_digit_lt {x y u v W : Nat} (hxy : x < y) (hu : u < W) :
    x * W + u < y * W + v := by
  have := Nat.mul_le_mul_right W hxy
  rw [Nat.add_one_mul] at this
  omega

/-- On strings of one length, `memcmp` order is the order of the big-endian values. -/
theorem compareBytes_eq_compare {a b : List UInt8} (h : a.length = b.length) :
    compareBytes a b = compare (bytesValue a) (bytesValue b) := by
  induction a generalizing b with
  | nil =>
    cases b with
    | nil => rfl
    | cons => simp at h
  | cons x a ih =>
    cases b with
    | nil => simp at h
    | cons y b =>
      have hl : a.length = b.length := by simpa using h
      have ha := bytesValue_lt a
      have hb := bytesValue_lt b
      rw [← hl] at hb
      simp only [compareBytes, bytesValue, ih hl, ← hl]
      rcases Nat.lt_trichotomy x.toNat y.toNat with hxy | hxy | hxy
      · rw [Nat.compare_eq_lt.2 hxy, Nat.compare_eq_lt.2 (mul_add_lt_of_digit_lt hxy ha)]
        rfl
      · rw [hxy, Nat.compare_eq_eq.2 rfl]
        rcases Nat.lt_trichotomy (bytesValue a) (bytesValue b) with h' | h' | h'
        · rw [Nat.compare_eq_lt.2 h', Nat.compare_eq_lt.2 (Nat.add_lt_add_left h' _)]; rfl
        · rw [h', Nat.compare_eq_eq.2 rfl, Nat.compare_eq_eq.2 rfl]; rfl
        · rw [Nat.compare_eq_gt.2 h', Nat.compare_eq_gt.2 (Nat.add_lt_add_left h' _)]; rfl
      · rw [Nat.compare_eq_gt.2 hxy, Nat.compare_eq_gt.2 (mul_add_lt_of_digit_lt hxy hb)]
        rfl

theorem compareBytes_swap (a b : List UInt8) : compareBytes b a = (compareBytes a b).swap := by
  induction a generalizing b with
  | nil => cases b <;> rfl
  | cons x a ih =>
    cases b with
    | nil => rfl
    | cons y b => rw [compareBytes, compareBytes, Ordering.swap_then, Nat.compare_swap, ih]

theorem compareBytes_eq_eq {a b : List UInt8} : compareBytes a b = .eq ↔ a = b := by
  induction a generalizing b with
  | nil => cases b <;> simp [compareBytes]
  | cons x a ih =>
    cases b with
    | nil => simp [compareBytes]
    | cons y b =>
      rw [compareBytes, Ordering.then_eq_eq, Nat.compare_eq_eq, ih, List.cons.injEq,
        show x.toNat = y.toNat ↔ x = y from ⟨UInt8.toNat.inj, congrArg _⟩]

theorem compareBytes_lt_trans {a b c : List UInt8} (hab : compareBytes a b = .lt)
    (hbc : compareBytes b c = .lt) : compareBytes a c = .lt := by
  induction a generalizing b c with
  | nil => cases b <;> cases c <;> simp_all [compareBytes]
  | cons x a ih =>
    cases b with
    | nil => simp [compareBytes] at hab
    | cons y b =>
      cases c with
      | nil => simp [compareBytes] at hbc
      | cons z c =>
        rw [compareBytes, then_eq_lt, Nat.compare_eq_lt, Nat.compare_eq_eq] at hab hbc ⊢
        rcases hab with hab | ⟨hab, hab'⟩ <;> rcases hbc with hbc | ⟨hbc, hbc'⟩
        · exact .inl (by omega)
        · exact .inl (by omega)
        · exact .inl (by omega)
        · exact .inr ⟨by omega, ih hab' hbc'⟩

/-- "Not below" is transitive: the order `compareBytes` decides is total. -/
theorem compareBytes_ne_lt_trans {a b c : List UInt8} (hba : compareBytes b a ≠ .lt)
    (hcb : compareBytes c b ≠ .lt) : compareBytes c a ≠ .lt := by
  intro hca
  cases h : compareBytes b a with
  | lt => exact hba h
  | eq => rw [compareBytes_eq_eq.1 h] at hcb; exact hcb hca
  | gt => exact hcb (compareBytes_lt_trans hca (by rw [compareBytes_swap, h]; rfl))

/-- If the first `n` bytes already compare greater, so do the whole strings. -/
theorem compareBytes_take_gt {n : Nat} {a b : List UInt8}
    (h : compareBytes (a.take n) (b.take n) = .gt) : compareBytes a b = .gt := by
  induction n generalizing a b with
  | zero => simp [compareBytes] at h
  | succ n ih =>
    cases a with
    | nil => cases b <;> simp [compareBytes] at h
    | cons x a =>
      cases b with
      | nil => rfl
      | cons y b =>
        rw [List.take_succ_cons, List.take_succ_cons, compareBytes] at h
        rw [compareBytes]
        cases hxy : compare x.toNat y.toNat <;> rw [hxy] at h
        · exact absurd h (by simp [Ordering.then])
        · exact ih h
        · rfl

theorem eq_of_compareBytes_ne_gt {a b : List UInt8} (hab : compareBytes a b ≠ .gt)
    (hba : compareBytes b a ≠ .gt) : a = b := by
  rw [compareBytes_swap] at hba
  cases h : compareBytes a b
  · simp [h, Ordering.swap] at hba
  · exact compareBytes_eq_eq.1 h
  · exact absurd h hab

/-! ## Bytewise exclusive or -/

/-- Bytewise exclusive or, as long as the shorter string. -/
def bytesXor (a b : List UInt8) : List UInt8 := List.zipWith (· ^^^ ·) a b

theorem xor8_comm (a b : UInt8) : a ^^^ b = b ^^^ a :=
  UInt8.eq_of_toBitVec_eq (BitVec.xor_comm _ _)

theorem xor8_assoc (a b c : UInt8) : a ^^^ b ^^^ c = a ^^^ (b ^^^ c) :=
  UInt8.eq_of_toBitVec_eq (BitVec.xor_assoc _ _ _)

@[simp] theorem xor8_self (a : UInt8) : a ^^^ a = 0 :=
  UInt8.eq_of_toBitVec_eq BitVec.xor_self

@[simp] theorem zero_xor8 (a : UInt8) : 0 ^^^ a = a :=
  UInt8.eq_of_toBitVec_eq BitVec.zero_xor

@[simp] theorem length_bytesXor (a b : List UInt8) :
    (bytesXor a b).length = min a.length b.length := List.length_zipWith ..

theorem bytesXor_comm (a b : List UInt8) : bytesXor a b = bytesXor b a := by
  rw [bytesXor, List.zipWith_comm]
  simp only [xor8_comm]
  rfl

theorem bytesXor_assoc (a b c : List UInt8) :
    bytesXor (bytesXor a b) c = bytesXor a (bytesXor b c) := by
  induction a generalizing b c with
  | nil => rfl
  | cons x a ih =>
    cases b with
    | nil => rfl
    | cons y b =>
      cases c with
      | nil => rfl
      | cons z c => simp only [bytesXor, List.zipWith_cons_cons, xor8_assoc] at ih ⊢; rw [ih]

theorem drop_bytesXor (a b : List UInt8) (n : Nat) :
    (bytesXor a b).drop n = bytesXor (a.drop n) (b.drop n) := List.drop_zipWith

theorem take_bytesXor (a b : List UInt8) (n : Nat) :
    (bytesXor a b).take n = bytesXor (a.take n) (b.take n) := List.take_zipWith

theorem bytesXor_append {a b : List UInt8} (c d : List UInt8) (h : a.length = b.length) :
    bytesXor (a ++ c) (b ++ d) = bytesXor a b ++ bytesXor c d := List.zipWith_append _ _ _ _ _ h

theorem zeros_bytesXor {a : List UInt8} {n : Nat} (h : a.length = n) :
    bytesXor (List.replicate n 0) a = a := by
  subst h
  induction a with
  | nil => rfl
  | cons x a ih => simp only [List.length_cons, List.replicate_succ, bytesXor,
      List.zipWith_cons_cons, zero_xor8] at ih ⊢; rw [ih]

theorem bytesXor_self (a : List UInt8) : bytesXor a a = List.replicate a.length 0 := by
  induction a with
  | nil => rfl
  | cons x a ih => simp only [bytesXor, List.zipWith_cons_cons, xor8_self, List.length_cons,
      List.replicate_succ] at ih ⊢; rw [ih]

/-! ## Stored indices -/

/-- `EhIndexToArray`: the index as four big-endian bytes, "so that lexicographic
array comparison is equivalent to integer comparison". -/
def ehIndexToArray (i : UInt32) : List UInt8 :=
  [(i >>> 24).toUInt8, (i >>> 16).toUInt8, (i >>> 8).toUInt8, i.toUInt8]

/-- `ArrayToEhIndex`: the big-endian value of the first four bytes. -/
def arrayToEhIndex (a : List UInt8) : UInt32 :=
  UInt32.ofNat (bytesValue (a.take 4))

/-- The stored form of an index history: its `EhIndexToArray` words in order. -/
def indexBytes (σ : List UInt32) : List UInt8 :=
  σ.flatMap ehIndexToArray

/-- Read `n` consecutive stored indices. -/
def readIndices (bytes : List UInt8) : Nat → List UInt32
  | 0 => []
  | n + 1 => arrayToEhIndex bytes :: readIndices (bytes.drop 4) n

/-- `FullStepRow::GetIndices`: the indices stored in `[len, len + lenIndices)`,
read four bytes at a time. -/
def getIndices (row : List UInt8) (len lenIndices : Nat) : List UInt32 :=
  readIndices (row.drop len) ((lenIndices + 3) / 4)

@[simp] theorem length_ehIndexToArray (i : UInt32) : (ehIndexToArray i).length = 4 := rfl

@[simp] theorem indexBytes_nil : indexBytes [] = [] := rfl

@[simp] theorem indexBytes_cons (i : UInt32) (σ : List UInt32) :
    indexBytes (i :: σ) = ehIndexToArray i ++ indexBytes σ := List.flatMap_cons ..

@[simp] theorem indexBytes_append (σ τ : List UInt32) :
    indexBytes (σ ++ τ) = indexBytes σ ++ indexBytes τ := List.flatMap_append ..

@[simp] theorem length_indexBytes (σ : List UInt32) : (indexBytes σ).length = 4 * σ.length := by
  induction σ with
  | nil => rfl
  | cons i σ ih => simp [ih]; omega

theorem bytesValue_ehIndexToArray (i : UInt32) : bytesValue (ehIndexToArray i) = i.toNat := by
  have := toNat_lt32 i
  have h24 : (24 : UInt32).toNat % 32 = 24 := rfl
  have h16 : (16 : UInt32).toNat % 32 = 16 := rfl
  have h8 : (8 : UInt32).toNat % 32 = 8 := rfl
  simp only [ehIndexToArray, bytesValue, List.length_cons, List.length_nil, toNat_toUInt8,
    toNat_shiftRight32, Nat.shiftRight_eq_div_pow, h24, h16, h8]
  omega

theorem arrayToEhIndex_append (i : UInt32) (rest : List UInt8) :
    arrayToEhIndex (ehIndexToArray i ++ rest) = i := by
  apply UInt32.toNat.inj
  rw [arrayToEhIndex, List.take_left' (length_ehIndexToArray i), toNat_ofNat32,
    bytesValue_ehIndexToArray, Nat.mod_eq_of_lt (toNat_lt32 i)]

theorem compareBytes_ehIndexToArray (i j : UInt32) :
    compareBytes (ehIndexToArray i) (ehIndexToArray j) = compare i.toNat j.toNat := by
  rw [compareBytes_eq_compare ((length_ehIndexToArray i).trans (length_ehIndexToArray j).symm),
    bytesValue_ehIndexToArray, bytesValue_ehIndexToArray]

theorem lex_cons_cons {r : UInt32 → UInt32 → Prop} {a b : UInt32} {l m : List UInt32} :
    List.Lex r (a :: l) (b :: m) ↔ r a b ∨ (a = b ∧ List.Lex r l m) := by
  constructor
  · rintro (_ | h | h)
    · exact .inr ⟨rfl, ‹_›⟩
    · exact .inl h
  · rintro (h | ⟨rfl, h⟩)
    · exact .rel h
    · exact .cons h

theorem compareBytes_indexBytes_lt {σ τ : List UInt32} (h : σ.length = τ.length) :
    compareBytes (indexBytes σ) (indexBytes τ) = .lt ↔ List.Lex (· < ·) σ τ := by
  induction σ generalizing τ with
  | nil => cases τ <;> simp_all [compareBytes]
  | cons i σ ih =>
    cases τ with
    | nil => simp at h
    | cons j τ =>
      rw [indexBytes_cons, indexBytes_cons,
        compareBytes_append _ _ ((length_ehIndexToArray i).trans (length_ehIndexToArray j).symm),
        then_eq_lt,
        compareBytes_ehIndexToArray, Nat.compare_eq_lt, ih (by simpa using h), lex_cons_cons,
        Nat.compare_eq_eq, show i.toNat = j.toNat ↔ i = j from ⟨UInt32.toNat.inj, congrArg _⟩]
      rfl

theorem readIndices_indexBytes (σ : List UInt32) : readIndices (indexBytes σ) σ.length = σ := by
  induction σ with
  | nil => rfl
  | cons i σ ih =>
    rw [indexBytes_cons, List.length_cons, readIndices, arrayToEhIndex_append,
      List.drop_left' (length_ehIndexToArray i), ih]

theorem getIndices_indexBytes (hash : List UInt8) (σ : List UInt32) :
    getIndices (hash ++ indexBytes σ) hash.length (4 * σ.length) = σ := by
  rw [getIndices, List.drop_left, show (4 * σ.length + 3) / 4 = σ.length by omega,
    readIndices_indexBytes]

/-- **Index storage.** `ArrayToEhIndex` inverts `EhIndexToArray`; `memcmp` on
the four stored bytes is integer order; on the stored histories of two rows it
is the lexicographic order of the index sequences; `GetIndices` reads back the
stored sequence. -/
theorem ehIndex_encoding :
    (∀ i, arrayToEhIndex (ehIndexToArray i) = i) ∧
    (∀ i j, memcmp (ehIndexToArray i) (ehIndexToArray j) 4 = .lt ↔ i < j) ∧
    (∀ (h₁ h₂ : List UInt8) (σ τ : List UInt32), h₁.length = h₂.length →
      σ.length = τ.length →
      (memcmp ((h₁ ++ indexBytes σ).drop h₁.length) ((h₂ ++ indexBytes τ).drop h₁.length)
        (4 * σ.length) = .lt ↔ List.Lex (· < ·) σ τ)) ∧
    (∀ (hash : List UInt8) (σ : List UInt32),
      getIndices (hash ++ indexBytes σ) hash.length (4 * σ.length) = σ) := by
  refine ⟨fun i => by simpa using arrayToEhIndex_append i [], fun i j => ?_,
    fun h₁ h₂ σ τ hh hl => ?_, getIndices_indexBytes⟩
  · rw [memcmp, List.take_of_length_le (by simp), List.take_of_length_le (by simp),
      compareBytes_ehIndexToArray, Nat.compare_eq_lt]
    rfl
  · rw [List.drop_left, hh, List.drop_left, memcmp, List.take_of_length_le (by simp),
      List.take_of_length_le (by simp [hl]), compareBytes_indexBytes_lt hl]

/-! ## Truncated indices -/

/-- `TruncateIndex`: the eight bits of an `ilen`-bit index below its top. -/
def truncateIndex (i : UInt32) (ilen : Nat) : UInt8 :=
  ((i >>> (ilen - 8).toUInt32) &&& 0xff).toUInt8

/-- `UntruncateIndex`: the index with truncation `t` and low bits `r`. -/
def untruncateIndex (t : UInt8) (r : UInt32) (ilen : Nat) : UInt32 :=
  (t.toUInt32 <<< (ilen - 8).toUInt32) ||| r

/-- The truncations of the seeds `σ`, one byte each: the index region of a
truncated row. -/
def truncateIndices (σ : List UInt32) (ilen : Nat) : List UInt8 :=
  σ.map fun i => truncateIndex i ilen

/-- The candidates Phase B of the optimised solver generates for truncation `t`:
`UntruncateIndex(t, j, ilen)` for `j < recreate_size = UntruncateIndex(1, 0, ilen)`. -/
def leafCandidates (t : UInt8) (ilen : Nat) : List UInt32 :=
  (List.range (untruncateIndex 1 0 ilen).toNat).map fun j =>
    untruncateIndex t (UInt32.ofNat j) ilen

section Truncation

variable {ilen : Nat} (h8 : 8 ≤ ilen) (h32 : ilen ≤ 32)

include h32 in
theorem truncateIndex_toNat (i : UInt32) :
    (truncateIndex i ilen).toNat = i.toNat / 2 ^ (ilen - 8) % 256 := by
  have hs : (ilen - 8) % 2 ^ 32 % 32 = ilen - 8 := by omega
  simp only [truncateIndex, toNat_toUInt8, UInt32.and_toNat, toNat_shiftRight32,
    Nat.toUInt32, toNat_ofNat32, hs, Nat.shiftRight_eq_div_pow]
  rw [show (0xff : UInt32).toNat = 2 ^ 8 - 1 from rfl, Nat.and_pow_two_sub_one_eq_mod]
  omega

include h8 h32 in
theorem untruncateIndex_toNat (t : UInt8) {r : UInt32} (hr : r.toNat < 2 ^ (ilen - 8)) :
    (untruncateIndex t r ilen).toNat = t.toNat * 2 ^ (ilen - 8) + r.toNat := by
  have hs : (ilen - 8) % 2 ^ 32 % 32 = ilen - 8 := by omega
  have hfit : t.toNat * 2 ^ (ilen - 8) < 2 ^ 32 :=
    calc t.toNat * 2 ^ (ilen - 8) < 2 ^ 8 * 2 ^ (ilen - 8) :=
          Nat.mul_lt_mul_of_pos_right (toNat_lt8 t) (Nat.two_pow_pos _)
      _ = 2 ^ ilen := by rw [← Nat.pow_add]; congr 1; omega
      _ ≤ 2 ^ 32 := Nat.pow_le_pow_right (by omega) h32
  simp only [untruncateIndex, toNat_or32, toNat_shiftLeft32, toNat_toUInt32, Nat.toUInt32,
    toNat_ofNat32, hs, Nat.shiftLeft_eq, Nat.mod_eq_of_lt hfit]
  rw [Nat.mul_comm, ← Nat.mul_add_lt_is_or hr]

include h8 h32 in
theorem truncateIndex_untruncateIndex (t : UInt8) {j : UInt32} (hj : j.toNat < 2 ^ (ilen - 8)) :
    truncateIndex (untruncateIndex t j ilen) ilen = t := by
  apply UInt8.toNat.inj
  rw [truncateIndex_toNat h32, untruncateIndex_toNat h8 h32 t hj,
    Nat.add_comm, Nat.add_mul_div_right _ _ (Nat.two_pow_pos _), Nat.div_eq_of_lt hj,
    Nat.zero_add, Nat.mod_eq_of_lt (toNat_lt8 t)]

include h8 h32 in
theorem truncateIndex_lt {x : UInt32} (hx : x.toNat < 2 ^ ilen) :
    x.toNat / 2 ^ (ilen - 8) < 256 := by
  apply Nat.div_lt_of_lt_mul
  rw [show 2 ^ (ilen - 8) * 256 = 2 ^ ilen by
    rw [show (256 : Nat) = 2 ^ 8 from rfl, ← Nat.pow_add]; congr 1; omega]
  exact hx

include h8 h32 in
theorem untruncateIndex_truncateIndex {x : UInt32} (hx : x.toNat < 2 ^ ilen) :
    untruncateIndex (truncateIndex x ilen) (UInt32.ofNat (x.toNat % 2 ^ (ilen - 8))) ilen = x := by
  have hr : x.toNat % 2 ^ (ilen - 8) < 2 ^ (ilen - 8) := Nat.mod_lt _ (Nat.two_pow_pos _)
  have hr32 : x.toNat % 2 ^ (ilen - 8) < 2 ^ 32 :=
    lt_of_lt_of_le hr (Nat.pow_le_pow_right (by omega) (by omega))
  apply UInt32.toNat.inj
  rw [untruncateIndex_toNat h8 h32 _ (by rwa [toNat_ofNat32, Nat.mod_eq_of_lt hr32]),
    truncateIndex_toNat h32, toNat_ofNat32, Nat.mod_eq_of_lt hr32,
    Nat.mod_eq_of_lt (truncateIndex_lt h8 h32 hx), Nat.mul_comm, Nat.div_add_mod]

include h8 h32 in
theorem truncateIndex_mono {x y : UInt32} (hxy : x ≤ y) (hy : y.toNat < 2 ^ ilen) :
    truncateIndex x ilen ≤ truncateIndex y ilen := by
  have hxy' : x.toNat ≤ y.toNat := hxy
  show (truncateIndex x ilen).toNat ≤ (truncateIndex y ilen).toNat
  rw [truncateIndex_toNat h32, truncateIndex_toNat h32,
    Nat.mod_eq_of_lt (truncateIndex_lt h8 h32 (lt_of_le_of_lt hxy' hy)),
    Nat.mod_eq_of_lt (truncateIndex_lt h8 h32 hy)]
  exact Nat.div_le_div_right hxy'

include h8 h32 in
theorem recreateSize_toNat : (untruncateIndex 1 0 ilen).toNat = 2 ^ (ilen - 8) := by
  rw [untruncateIndex_toNat h8 h32 1 (by simp [Nat.two_pow_pos])]
  simp

include h8 h32 in
theorem mem_leafCandidates (t : UInt8) (x : UInt32) :
    x ∈ leafCandidates t ilen ↔ x.toNat < 2 ^ ilen ∧ truncateIndex x ilen = t := by
  have hs : 2 ^ (ilen - 8) ≤ 2 ^ 32 := Nat.pow_le_pow_right (by omega) (by omega)
  simp only [leafCandidates, recreateSize_toNat h8 h32, List.mem_map, List.mem_range]
  constructor
  · rintro ⟨j, hj, rfl⟩
    have hj' : (UInt32.ofNat j).toNat < 2 ^ (ilen - 8) := by
      rw [toNat_ofNat32, Nat.mod_eq_of_lt (by omega)]; exact hj
    refine ⟨?_, truncateIndex_untruncateIndex h8 h32 t hj'⟩
    rw [untruncateIndex_toNat h8 h32 t hj']
    calc t.toNat * 2 ^ (ilen - 8) + (UInt32.ofNat j).toNat
        < (t.toNat + 1) * 2 ^ (ilen - 8) := by rw [Nat.add_mul, Nat.one_mul]; omega
      _ ≤ 2 ^ 8 * 2 ^ (ilen - 8) := Nat.mul_le_mul_right _ (toNat_lt8 t)
      _ = 2 ^ ilen := by rw [← Nat.pow_add]; congr 1; omega
  · rintro ⟨hx, rfl⟩
    exact ⟨x.toNat % 2 ^ (ilen - 8), Nat.mod_lt _ (Nat.two_pow_pos _),
      untruncateIndex_truncateIndex h8 h32 hx⟩

include h8 h32 in
theorem nodup_leafCandidates (t : UInt8) : (leafCandidates t ilen).Nodup := by
  have hs : 2 ^ (ilen - 8) ≤ 2 ^ 32 := Nat.pow_le_pow_right (by omega) (by omega)
  rw [leafCandidates, recreateSize_toNat h8 h32]
  refine (List.nodup_range _).map_on fun j hj k hk hjk => ?_
  rw [List.mem_range] at hj hk
  have hj' : (UInt32.ofNat j).toNat = j := by rw [toNat_ofNat32, Nat.mod_eq_of_lt (by omega)]
  have hk' : (UInt32.ofNat k).toNat = k := by rw [toNat_ofNat32, Nat.mod_eq_of_lt (by omega)]
  have := congrArg UInt32.toNat hjk
  rw [untruncateIndex_toNat h8 h32 t (by rw [hj']; exact hj),
    untruncateIndex_toNat h8 h32 t (by rw [hk']; exact hk), hj', hk'] at this
  omega

end Truncation

/-- **Truncation.** For every width `8 ≤ ilen ≤ 32`: `TruncateIndex` undoes
`UntruncateIndex`; `UntruncateIndex` with the dropped bits undoes `TruncateIndex`;
`TruncateIndex` is monotone below `2^ilen`; and the leaf candidates of a
truncation are each seed below `2^ilen` with that truncation, once. -/
theorem truncation_inverse (ilen : Nat) (h8 : 8 ≤ ilen) (h32 : ilen ≤ 32) :
    (∀ (t : UInt8) (j : UInt32), j.toNat < 2 ^ (ilen - 8) →
      truncateIndex (untruncateIndex t j ilen) ilen = t) ∧
    (∀ x : UInt32, x.toNat < 2 ^ ilen →
      untruncateIndex (truncateIndex x ilen) (UInt32.ofNat (x.toNat % 2 ^ (ilen - 8))) ilen = x) ∧
    (∀ x y : UInt32, x ≤ y → y.toNat < 2 ^ ilen →
      truncateIndex x ilen ≤ truncateIndex y ilen) ∧
    (∀ t : UInt8, (leafCandidates t ilen).Nodup ∧
      ∀ x, x ∈ leafCandidates t ilen ↔ x.toNat < 2 ^ ilen ∧ truncateIndex x ilen = t) :=
  ⟨fun t _ hj => truncateIndex_untruncateIndex h8 h32 t hj,
    fun _ hx => untruncateIndex_truncateIndex h8 h32 hx,
    fun _ _ hxy hy => truncateIndex_mono h8 h32 hxy hy,
    fun t => ⟨nodup_leafCandidates h8 h32 t, mem_leafCandidates h8 h32 t⟩⟩

theorem truncation_inverse_at_nine :
    (8 ≤ 9 ∧ 9 ≤ 32) ∧ truncateIndex (untruncateIndex 3 1 9) 9 = 3 :=
  ⟨by decide, (truncation_inverse 9 (by decide) (by decide)).1 3 1 (by decide)⟩

end Equihash
