import Mathlib.Tactic

/-! # Keyed hashes and keys from a password

A hash function may be given its text in pieces. Over it stand the keyed hash of a text, which
hashes twice with the key in front, and the key of any length that is derived from a password and a
salt. -/

namespace KeyDerivation

/-- A text. -/
abbrev Bytes : Type := List UInt8

variable {Ctx : Type}

/-! ## Hashing in pieces -/

/-- A hash function that is given its text in pieces. -/
structure Streaming (Ctx : Type) where
  init : Ctx
  update : Ctx → Bytes → Ctx
  final : Ctx → Bytes

/-- It hashes the pieces as one text, to `n` bytes. -/
structure Streaming.Hashes (sha : Streaming Ctx) (H : Bytes → Bytes) (n : ℕ) : Prop where
  final_foldl : ∀ pieces : List Bytes, sha.final (pieces.foldl sha.update sha.init) = H pieces.flatten
  length : ∀ m, (H m).length = n

/-- A context that was given a text in some pieces. -/
def Streaming.Fed (sha : Streaming Ctx) (ctx : Ctx) (text : Bytes) : Prop :=
  ∃ pieces : List Bytes, ctx = pieces.foldl sha.update sha.init ∧ pieces.flatten = text

section Fed

variable {sha : Streaming Ctx} {ctx : Ctx} {text : Bytes} {H : Bytes → Bytes} {n : ℕ}

theorem Streaming.fed_init (sha : Streaming Ctx) : sha.Fed sha.init [] := ⟨[], rfl, rfl⟩

theorem Streaming.Fed.update (h : sha.Fed ctx text) (piece : Bytes) :
    sha.Fed (sha.update ctx piece) (text ++ piece) := by
  obtain ⟨pieces, rfl, rfl⟩ := h
  refine ⟨pieces ++ [piece], ?_, ?_⟩
  · rw [List.foldl_append]
    rfl
  · simp

theorem Streaming.Fed.final (h : sha.Fed ctx text) (hsha : sha.Hashes H n) :
    sha.final ctx = H text := by
  obtain ⟨pieces, rfl, rfl⟩ := h
  exact hsha.final_foldl pieces

end Fed

/-! ## A keyed hash -/

/-- Two texts byte by byte. -/
def xorBytes (a b : Bytes) : Bytes := List.zipWith (· ^^^ ·) a b

@[simp] theorem length_xorBytes (a b : Bytes) : (xorBytes a b).length = min a.length b.length :=
  List.length_zipWith

/-- A key of the length of a block: one that is longer is hashed, and zeros fill it up. -/
def blockKey (H : Bytes → Bytes) (B : ℕ) (key : Bytes) : Bytes :=
  let k := if key.length ≤ B then key else H key
  k ++ List.replicate (B - k.length) 0

/-- **HMAC**, for a hash function with blocks of `B` bytes. -/
def hmac (H : Bytes → Bytes) (B : ℕ) (key text : Bytes) : Bytes :=
  H (xorBytes (List.replicate B 0x5c) (blockKey H B key) ++
    H (xorBytes (List.replicate B 0x36) (blockKey H B key) ++ text))

/-! ## A key from a password -/

/-- A number in four bytes, the highest first. -/
def int (i : ℕ) : Bytes :=
  [UInt8.ofNat (i / 2 ^ 24), UInt8.ofNat (i / 2 ^ 16), UInt8.ofNat (i / 2 ^ 8), UInt8.ofNat i]

/-- `U_1`, and every further one from the last. -/
def chain (prf : Bytes → Bytes) (salt : Bytes) : ℕ → Bytes
  | 0 => prf salt
  | j + 1 => prf (chain prf salt j)

/-- `U_1` to `U_(j+1)`, byte by byte. -/
def chainSum (prf : Bytes → Bytes) (salt : Bytes) : ℕ → Bytes
  | 0 => chain prf salt 0
  | j + 1 => xorBytes (chainSum prf salt j) (chain prf salt (j + 1))

/-- The first `l` blocks of a key, with `c` iterations each. -/
def keyBlocks (prf : Bytes → Bytes) (salt : Bytes) (c l : ℕ) : Bytes :=
  (List.range l).flatMap fun i => chainSum prf (salt ++ int (i + 1)) (c - 1)

/-- **PBKDF2**, with a keyed hash of `hLen` bytes. -/
def pbkdf2 (prf : Bytes → Bytes → Bytes) (hLen : ℕ) (password salt : Bytes) (c dkLen : ℕ) : Bytes :=
  (keyBlocks (prf password) salt c ((dkLen + hLen - 1) / hLen)).take dkLen

section Blocks

variable {prf : Bytes → Bytes} {salt : Bytes} {hLen c : ℕ}

theorem length_chain (h : ∀ m, (prf m).length = hLen) (j : ℕ) : (chain prf salt j).length = hLen := by
  cases j <;> exact h _

theorem length_chainSum (h : ∀ m, (prf m).length = hLen) (j : ℕ) :
    (chainSum prf salt j).length = hLen := by
  induction j with
  | zero => exact length_chain h 0
  | succ j ih => rw [chainSum, length_xorBytes, ih, length_chain h, min_self]

theorem keyBlocks_succ (l : ℕ) : keyBlocks prf salt c (l + 1) =
    keyBlocks prf salt c l ++ chainSum prf (salt ++ int (l + 1)) (c - 1) := by
  rw [keyBlocks, List.range_succ, List.flatMap_append, List.flatMap_singleton]
  rfl

theorem length_keyBlocks (h : ∀ m, (prf m).length = hLen) (l : ℕ) :
    (keyBlocks prf salt c l).length = l * hLen := by
  induction l with
  | zero => simp [keyBlocks]
  | succ l ih => rw [keyBlocks_succ, List.length_append, ih, length_chainSum h, Nat.succ_mul]

/-- A part of the key ends inside a block. -/
theorem take_keyBlocks (h : ∀ m, (prf m).length = hLen) {l n : ℕ} (hl : l * hLen ≤ n) :
    (keyBlocks prf salt c (l + 1)).take n =
      keyBlocks prf salt c l ++ (chainSum prf (salt ++ int (l + 1)) (c - 1)).take (n - l * hLen) := by
  rw [keyBlocks_succ, List.take_append, length_keyBlocks h,
    List.take_of_length_le ((length_keyBlocks h l).trans_le hl)]

theorem length_hmac {H : Bytes → Bytes} {n : ℕ} (h : ∀ m, (H m).length = n) (B : ℕ)
    (key text : Bytes) : (hmac H B key text).length = n := h _

theorem length_pbkdf2 {prf : Bytes → Bytes → Bytes} (h : ∀ key m, (prf key m).length = hLen)
    (hpos : 0 < hLen) (password salt : Bytes) (c dkLen : ℕ) :
    (pbkdf2 prf hLen password salt c dkLen).length = dkLen := by
  rw [pbkdf2, List.length_take, length_keyBlocks (h password), min_eq_left]
  have hdiv := Nat.lt_div_mul_add hpos (a := dkLen + hLen - 1)
  omega

end Blocks

end KeyDerivation
