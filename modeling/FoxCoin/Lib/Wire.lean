import Mathlib.Tactic

/-! # Encodings that can be told from what follows them

A stream of encoded values can be read back when every encoding is prefix-free: it is not the start
of the encoding of another value. This file has the rules by which prefix-free encodings compose,
for the values of a domain that the fields can represent. -/

namespace Wire

variable {A B : Type}

/-- Encodings of valid values, each with more bytes after it, are equal only for equal values with
the same bytes after them. -/
def PrefixFree (valid : A → Prop) (encode : A → List UInt8) : Prop :=
  ∀ ⦃a b r s⦄, valid a → valid b → encode a ++ r = encode b ++ s → a = b ∧ r = s

/-- A prefix-free encoding is injective on its domain. -/
theorem PrefixFree.injOn {valid : A → Prop} {encode : A → List UInt8}
    (h : PrefixFree valid encode) {a b : A} (ha : valid a) (hb : valid b)
    (heq : encode a = encode b) : a = b := by
  have := h (r := []) (s := []) ha hb (by rw [heq])
  exact this.1

/-! ## Rules -/

/-- An injective encoding of fixed length is prefix-free. -/
theorem prefixFree_of_length {valid : A → Prop} {encode : A → List UInt8} (n : ℕ)
    (hlen : ∀ a, (encode a).length = n)
    (hinj : ∀ a b, valid a → valid b → encode a = encode b → a = b) :
    PrefixFree valid encode := by
  intro a b r s ha hb heq
  obtain ⟨hhead, htail⟩ := List.append_inj heq (by rw [hlen, hlen])
  exact ⟨hinj a b ha hb hhead, htail⟩

/-- Two encodings one after the other. -/
theorem PrefixFree.append {valid : A → Prop} {valid' : B → Prop} {encode : A → List UInt8}
    {encode' : B → List UInt8} (h : PrefixFree valid encode) (h' : PrefixFree valid' encode')
    {a a' : A} {b b' : B} {r s : List UInt8} (ha : valid a) (ha' : valid a') (hb : valid' b)
    (hb' : valid' b') (heq : encode a ++ (encode' b ++ r) = encode a' ++ (encode' b' ++ s)) :
    a = a' ∧ b = b' ∧ r = s := by
  obtain ⟨hfirst, hrest⟩ := h ha ha' heq
  exact ⟨hfirst, h' hb hb' hrest⟩

/-- The encodings of as many values one after the other. -/
theorem PrefixFree.flatMap {valid : A → Prop} {encode : A → List UInt8}
    (h : PrefixFree valid encode) {l l' : List A} {r s : List UInt8} (hlen : l.length = l'.length)
    (hl : ∀ a ∈ l, valid a) (hl' : ∀ a ∈ l', valid a)
    (heq : l.flatMap encode ++ r = l'.flatMap encode ++ s) : l = l' ∧ r = s := by
  induction l generalizing l' with
  | nil =>
    cases l' with
    | nil => exact ⟨rfl, heq⟩
    | cons b l' => cases hlen
  | cons a l ih =>
    cases l' with
    | nil => cases hlen
    | cons b l' =>
      rw [List.flatMap_cons, List.flatMap_cons, List.append_assoc, List.append_assoc] at heq
      obtain ⟨hhead, hrest⟩ := h (hl a List.mem_cons_self) (hl' b List.mem_cons_self) heq
      obtain ⟨htail, hend⟩ := ih (Nat.succ.inj hlen) (fun c hc => hl c (List.mem_cons_of_mem a hc))
        (fun c hc => hl' c (List.mem_cons_of_mem b hc)) hrest
      exact ⟨by rw [hhead, htail], hend⟩

/-- A list behind the encoding of its length. -/
theorem PrefixFree.counted {valid : A → Prop} {validSize : ℕ → Prop} {encode : A → List UInt8}
    {size : ℕ → List UInt8} (hsize : PrefixFree validSize size) (h : PrefixFree valid encode) :
    PrefixFree (fun l : List A => validSize l.length ∧ ∀ a ∈ l, valid a)
      fun l => size l.length ++ l.flatMap encode := by
  intro l l' r s hl hl' heq
  simp only [List.append_assoc] at heq
  obtain ⟨hlen, hrest⟩ := hsize hl.1 hl'.1 heq
  exact h.flatMap hlen hl.2 hl'.2 hrest

/-! ## Little-endian numbers -/

/-- The low `k` bytes of a number, the lowest first. -/
def leBytes : ℕ → ℕ → List UInt8
  | 0, _ => []
  | k + 1, n => UInt8.ofNat n :: leBytes k (n / 256)

@[simp] theorem leBytes_length (k n : ℕ) : (leBytes k n).length = k := by
  induction k generalizing n with
  | zero => rfl
  | succ k ih => rw [leBytes, List.length_cons, ih]

/-- The bytes of a number determine it up to a multiple of `256 ^ k`. -/
theorem leBytes_injective {k a b : ℕ} (h : leBytes k a = leBytes k b) :
    a % 256 ^ k = b % 256 ^ k := by
  induction k generalizing a b with
  | zero => simp [Nat.mod_one]
  | succ k ih =>
    rw [leBytes, leBytes, List.cons.injEq] at h
    have hlow : a % 256 = b % 256 := by simpa using congrArg UInt8.toNat h.1
    have hhigh := ih h.2
    rw [pow_succ', Nat.mod_mul, Nat.mod_mul, hlow, hhigh]

/-- Numbers that fit are encoded prefix-free. -/
theorem prefixFree_leBytes (k : ℕ) : PrefixFree (fun n => n < 256 ^ k) (leBytes k) :=
  prefixFree_of_length k (leBytes_length k) fun a b ha hb h => by
    rw [← Nat.mod_eq_of_lt ha, ← Nat.mod_eq_of_lt hb, leBytes_injective h]

/-- Bytes are encoded as themselves. -/
theorem prefixFree_byte : PrefixFree (fun _ : UInt8 => True) fun b => [b] :=
  prefixFree_of_length 1 (fun _ => rfl) fun _ _ _ _ h => List.singleton_injective h

end Wire
