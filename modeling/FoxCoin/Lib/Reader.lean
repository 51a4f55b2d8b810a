import FoxCoin.Lib.Wire

/-! # Reading values from a stream of bytes

A reader takes bytes from the front of a stream and fails when there are not enough. That it reads a
value from some bytes means that it takes just these, whatever follows them, and this composes: what
is written piece by piece is read piece by piece. -/

namespace Wire

variable {A B S : Type}

/-- A reader of values. -/
abbrev Reader (A : Type) : Type := StateT (List UInt8) Option A

/-- A reader takes exactly these bytes for this value. -/
def Reads (read : Reader A) (bytes : List UInt8) (a : A) : Prop :=
  ∀ r, read (bytes ++ r) = some (a, r)

/-! ## Rules -/

/-- Reading without a rest. -/
theorem Reads.run {read : Reader A} {bytes : List UInt8} {a : A} (h : Reads read bytes a) :
    read bytes = some (a, []) := by
  have hrun := h []
  rwa [List.append_nil] at hrun

theorem Reads.pure (a : A) : Reads (Pure.pure a) [] a := fun _ => rfl

/-- One value after the other. -/
theorem Reads.bind {read : Reader A} {next : A → Reader B} {bytes bytes' : List UInt8} {a : A} {b : B}
    (h : Reads read bytes a) (h' : Reads (next a) bytes' b) :
    Reads (read >>= next) (bytes ++ bytes') b := by
  intro r
  rw [List.append_assoc]
  show (read (bytes ++ (bytes' ++ r))).bind (fun p => next p.1 p.2) = _
  rw [h, Option.bind_some]
  exact h' r

/-- A value after which nothing more is read. -/
theorem Reads.bind_end {read : Reader A} {next : A → Reader B} {bytes : List UInt8} {a : A} {b : B}
    (h : Reads read bytes a) (h' : Reads (next a) [] b) : Reads (read >>= next) bytes b := by
  have hbind := h.bind h'
  rwa [List.append_nil] at hbind

/-- A last value, from which the result is computed. -/
theorem Reads.map {read : Reader A} {bytes : List UInt8} {a : A} (h : Reads read bytes a) (f : A → B) :
    Reads (f <$> read) bytes (f a) := by
  intro r
  show (read (bytes ++ r)).bind (fun p => some (f p.1, p.2)) = _
  rw [h, Option.bind_some]

/-- A reader fails on bytes, whatever follows. -/
def Fails (read : Reader A) (bytes : List UInt8) : Prop := ∀ r, read (bytes ++ r) = none

/-- Nothing is read after a failure. -/
theorem Fails.bind {read : Reader A} {bytes : List UInt8} (h : Fails read bytes)
    (next : A → Reader B) (bytes' : List UInt8) : Fails (read >>= next) (bytes ++ bytes') := by
  intro r
  show (read ((bytes ++ bytes') ++ r)).bind (fun p => next p.1 p.2) = none
  rw [List.append_assoc, h, Option.bind_none]

theorem Fails.map {read : Reader A} {bytes : List UInt8} (h : Fails read bytes) (f : A → B) :
    Fails (f <$> read) bytes := by
  intro r
  show (read (bytes ++ r)).bind (fun p => some (f p.1, p.2)) = none
  rw [h, Option.bind_none]

/-- A failure after a value that was read. -/
theorem Reads.bind_fails {read : Reader A} {next : A → Reader B} {bytes bytes' : List UInt8} {a : A}
    (h : Reads read bytes a) (h' : Fails (next a) bytes') :
    Fails (read >>= next) (bytes ++ bytes') := by
  intro r
  show (read ((bytes ++ bytes') ++ r)).bind (fun p => next p.1 p.2) = none
  rw [List.append_assoc, h, Option.bind_some]
  exact h' r

/-- A value for which the rest fails. -/
theorem Reads.bind_end_fails {read : Reader A} {next : A → Reader B} {bytes : List UInt8} {a : A}
    (h : Reads read bytes a) (h' : Fails (next a) []) : Fails (read >>= next) bytes := by
  have hbind := h.bind_fails h'
  rwa [List.append_nil] at hbind

/-- A loop whose rounds read one value each. -/
theorem Reads.foldlM {step : S → A → Reader S} {next : S → A → S} {bytes : A → List UInt8} {l : List A}
    (h : ∀ a ∈ l, ∀ s, Reads (step s a) (bytes a) (next s a)) (s : S) :
    Reads (l.foldlM step s) (l.flatMap bytes) (l.foldl next s) := by
  induction l generalizing s with
  | nil => exact .pure s
  | cons a l ih =>
    rw [List.foldlM_cons, List.flatMap_cons, List.foldl_cons]
    exact (h a List.mem_cons_self s).bind (ih (fun b hb => h b (List.mem_cons_of_mem a hb)) _)

/-- A loop that counts its rounds and reads a value in each. -/
theorem Reads.foldlM_zipIdx {step : S → ℕ → Reader S} {next : S → A → ℕ → S} {bytes : A → List UInt8}
    {l : List A} (h : ∀ a ∈ l, ∀ n s, Reads (step s n) (bytes a) (next s a n)) (s : S) :
    Reads ((List.range l.length).foldlM step s) (l.flatMap bytes)
      (l.zipIdx.foldl (fun s p => next s p.1 p.2) s) := by
  have hbytes : l.flatMap bytes = l.zipIdx.flatMap fun p => bytes p.1 := by
    rw [← List.flatMap_map Prod.fst bytes, List.zipIdx_map_fst]
  rw [hbytes, List.range_eq_range', ← List.zipIdx_map_snd 0 l, List.foldlM_map]
  exact .foldlM (fun p hp s => h p.1 (List.fst_mem_of_mem_zipIdx hp) p.2 s) s

/-- A loop that does not look at the count of its rounds. -/
theorem Reads.foldlM_range {step : S → Reader S} {next : S → A → S} {bytes : A → List UInt8}
    {l : List A} (h : ∀ a ∈ l, ∀ s, Reads (step s) (bytes a) (next s a)) (s : S) :
    Reads ((List.range l.length).foldlM (fun s _ => step s) s) (l.flatMap bytes) (l.foldl next s) := by
  have hnext : l.foldl next s = l.zipIdx.foldl (fun s p => next s p.1) s := by
    rw [← List.foldl_map (f := Prod.fst) (g := next), List.zipIdx_map_fst]
  rw [hnext]
  exact .foldlM_zipIdx (fun a ha _ s => h a ha s) s

/-! ## Bytes and numbers -/

/-- A number of bytes. -/
def readBytes (n : ℕ) : Reader (List UInt8) := fun s =>
  if n ≤ s.length then some (s.take n, s.drop n) else none

theorem reads_readBytes (bytes : List UInt8) : Reads (readBytes bytes.length) bytes bytes := by
  intro r
  rw [readBytes, if_pos (by simp)]
  simp

/-- An array of bytes. -/
def readArray (n : ℕ) : Reader (Vector UInt8 n) := fun s =>
  if h : n ≤ s.length then some (⟨(s.take n).toArray, by simp [h]⟩, s.drop n) else none

theorem reads_readArray {n : ℕ} (v : Vector UInt8 n) : Reads (readArray n) v.toList v := by
  intro r
  have htake : (v.toList ++ r).take n = v.toList := by simp
  have hdrop : (v.toList ++ r).drop n = r := by simp
  rw [readArray, dif_pos (by simp)]
  simp only [htake, hdrop]
  rfl

/-- The number that bytes stand for, the lowest first. -/
def ofLeBytes : List UInt8 → ℕ
  | [] => 0
  | b :: bytes => b.toNat + 256 * ofLeBytes bytes

theorem ofLeBytes_leBytes (k n : ℕ) : ofLeBytes (leBytes k n) = n % 256 ^ k := by
  induction k generalizing n with
  | zero => simp [leBytes, ofLeBytes, Nat.mod_one]
  | succ k ih =>
    rw [leBytes, ofLeBytes, ih, pow_succ', Nat.mod_mul]
    simp

theorem ofLeBytes_lt (bytes : List UInt8) : ofLeBytes bytes < 256 ^ bytes.length := by
  induction bytes with
  | nil => exact Nat.one_pos
  | cons b bytes ih =>
    have hb : b.toNat < 256 := b.toNat_lt
    rw [ofLeBytes, List.length_cons, pow_succ]
    omega

/-- Bytes are those of the number that they stand for. -/
theorem leBytes_ofLeBytes (bytes : List UInt8) : leBytes bytes.length (ofLeBytes bytes) = bytes := by
  induction bytes with
  | nil => rfl
  | cons b bytes ih =>
    have hb : b.toNat < 256 := b.toNat_lt
    have hlow : UInt8.ofNat (b.toNat + 256 * ofLeBytes bytes) = b := by
      apply UInt8.toNat_inj.mp
      rw [UInt8.toNat_ofNat', Nat.add_mul_mod_self_left, Nat.mod_eq_of_lt hb]
    have hhigh : (b.toNat + 256 * ofLeBytes bytes) / 256 = ofLeBytes bytes := by omega
    rw [ofLeBytes, List.length_cons, leBytes, hlow, hhigh, ih]

/-- A number of `k` bytes. -/
def readLe (k : ℕ) : Reader ℕ := ofLeBytes <$> readBytes k

theorem reads_readLe {k n : ℕ} (h : n < 256 ^ k) : Reads (readLe k) (leBytes k n) n := by
  have hread := (reads_readBytes (leBytes k n)).map ofLeBytes
  rwa [leBytes_length, ofLeBytes_leBytes, Nat.mod_eq_of_lt h] at hread

end Wire
