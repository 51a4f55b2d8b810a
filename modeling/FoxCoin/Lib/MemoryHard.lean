import FoxCoin.Lib.KeyDerivation
import FoxCoin.Lib.Words
import Mathlib

/-! # A key that takes memory

The Salsa20 core works on a square of sixteen words: quarter rounds of its columns, and of its rows.
A mixing function chains it over blocks, and a key is made from a password with a table of
everything that the mixing function goes through, in which it looks up places that depend on what it
computes. -/

namespace MemoryHard

open KeyDerivation

/-! ## The Salsa20 core -/

/-- Sixteen words in a square, row by row. -/
abbrev Block : Type := Matrix (Fin 4) (Fin 4) UInt32

local instance neZero_four : NeZero 4 := ⟨Nat.succ_ne_zero 3⟩

namespace Block

/-- The block of sixteen words. -/
def ofWords (l : List UInt32) : Block := fun i j => l.getD (4 * i + j) 0

/-- The words of a block. -/
def words (M : Block) : List UInt32 := List.ofFn fun k : Fin 16 => M ⟨k / 4, by omega⟩ ⟨k % 4, by omega⟩

/-- Two blocks word by word. -/
def xor (M N : Block) : Block := fun i j => M i j ^^^ N i j

end Block

/-- A rotation to the left. -/
def rotl (x b : UInt32) : UInt32 := (x <<< b) ||| (x >>> (32 - b))

/-- A quarter round. -/
def quarterRound (y : Fin 4 → UInt32) : Fin 4 → UInt32 :=
  let z1 := y 1 ^^^ rotl (y 0 + y 3) 7
  let z2 := y 2 ^^^ rotl (z1 + y 0) 9
  let z3 := y 3 ^^^ rotl (z2 + z1) 13
  let z0 := y 0 ^^^ rotl (z3 + z2) 18
  ![z0, z1, z2, z3]

/-- A quarter round of every column, from its diagonal word on downwards. -/
def columnRound (M : Block) : Block := fun i j => quarterRound (fun k => M (k + j) j) (i - j)

/-- A quarter round of every row. -/
def rowRound (M : Block) : Block := (columnRound M.transpose).transpose

/-- A double round. -/
def doubleRound (M : Block) : Block := rowRound (columnRound M)

/-- **The Salsa20 core** with `n` double rounds. -/
def salsa (n : ℕ) (M : Block) : Block := M + doubleRound^[n] M

/-! ## Mixing -/

/-- The blocks of a text of words. -/
def blocksOf (l : List UInt32) : List Block :=
  (List.range (l.length / 16)).map fun i => .ofWords (l.drop (16 * i))

/-- A chain of hashes over blocks. -/
def mixChain (f : Block → Block) : Block → List Block → List Block
  | _, [] => []
  | x, b :: l => f (x.xor b) :: mixChain f (f (x.xor b)) l

/-- Every other block, from the first one on. -/
def evens : List Block → List Block
  | a :: _ :: l => a :: evens l
  | l => l

/-- **The mixing function** over an even number of blocks, with the last of them in front. -/
def blockMix (f : Block → Block) (l : List Block) : List Block :=
  evens (mixChain f (l.getLastD 0) l) ++ evens (mixChain f (l.getLastD 0) l).tail

/-- The number in the last block. -/
def integerify (l : List Block) : ℕ := Words.value (l.getLastD 0).words

/-- **The table of `N` states of a mixing function**, in which every further state looks up one. -/
def roMix (mix : List Block → List Block) (N : ℕ) (l : List Block) : List Block :=
  (fun x => mix (List.zipWith .xor x (mix^[integerify x % N] l)))^[N] (mix^[N] l)

/-! ## Words and bytes -/

/-- The words that bytes stand for, four for each, the lowest first. -/
def wordsOf : Bytes → List UInt32
  | a :: b :: c :: d :: rest =>
    (a.toUInt32 + (b.toUInt32 <<< 8) + (c.toUInt32 <<< 16) + (d.toUInt32 <<< 24)) :: wordsOf rest
  | _ => []

/-- The bytes of words. -/
def bytesOf (l : List UInt32) : Bytes :=
  l.flatMap fun x : UInt32 => [x.toUInt8, (x >>> 8).toUInt8, (x >>> 16).toUInt8, (x >>> 24).toUInt8]

/-- The table over the blocks of a text. -/
def roMixBytes (N : ℕ) (B : Bytes) : Bytes :=
  bytesOf ((roMix (blockMix (salsa 4)) N (blocksOf (wordsOf B))).flatMap Block.words)

/-- **scrypt**: a key from a password and a salt, with `p` tables of `N` states of `2 * r` blocks. -/
def scrypt (prf : Bytes → Bytes → Bytes) (hLen : ℕ) (password salt : Bytes) (N r p dkLen : ℕ) : Bytes :=
  let B := pbkdf2 prf hLen password salt 1 (p * 128 * r)
  pbkdf2 prf hLen password
    ((List.range p).flatMap fun i => roMixBytes N ((B.drop (128 * r * i)).take (128 * r))) 1 dkLen

/-! ## Lemmas -/

section Words

theorem length_wordsOf {n : ℕ} {B : Bytes} (h : B.length = 4 * n) : (wordsOf B).length = n := by
  induction n generalizing B with
  | zero =>
    rw [List.length_eq_zero_iff.mp h]
    rfl
  | succ n ih =>
    match B, h with
    | a :: b :: c :: d :: rest, h =>
      simp only [List.length_cons] at h
      rw [wordsOf, List.length_cons, ih (by omega)]

/-- A word is that of its four bytes. -/
theorem getElem?_wordsOf {n k : ℕ} {B : Bytes} (h : B.length = 4 * n) (hk : k < n) :
    ∃ a b c d rest, B.drop (4 * k) = a :: b :: c :: d :: rest ∧ (wordsOf B)[k]? =
      some (a.toUInt32 + (b.toUInt32 <<< 8) + (c.toUInt32 <<< 16) + (d.toUInt32 <<< 24)) := by
  induction n generalizing B k with
  | zero => omega
  | succ n ih =>
    match B, h with
    | a :: b :: c :: d :: rest, h =>
      simp only [List.length_cons] at h
      cases k with
      | zero => exact ⟨a, b, c, d, rest, rfl, rfl⟩
      | succ k =>
        obtain ⟨a', b', c', d', rest', hdrop, hget⟩ := ih (B := rest) (k := k) (by omega) (by omega)
        refine ⟨a', b', c', d', rest', ?_, ?_⟩
        · rw [show 4 * (k + 1) = 4 * k + 4 by omega]
          exact hdrop
        · rw [wordsOf, List.getElem?_cons_succ, hget]

@[simp] theorem length_bytesOf (l : List UInt32) : (bytesOf l).length = 4 * l.length := by
  induction l with
  | nil => rfl
  | cons x l ih =>
    rw [bytesOf, List.flatMap_cons, List.length_append, List.length_cons]
    change _ + (bytesOf l).length = _
    rw [ih]
    simp only [List.length_cons, List.length_nil]
    omega

end Words

end MemoryHard
