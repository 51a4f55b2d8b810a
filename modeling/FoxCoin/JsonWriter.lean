import FoxCoin.JsonReader

/-! # Writing JSON

The generator writes a value as a text, plain or with line breaks and indentation. What it writes is
read back: strings with every byte, objects with the order of their members, and whole numbers as the
kind of number that the reader makes of them. -/

namespace FoxCoin.Json

open Phrase

variable {D : Type}

/-! ## The generator -/

/-- `to_hex_char`. -/
def toHexChar (c : ℕ) : UInt8 := if c < 10 then UInt8.ofNat (48 + c) else UInt8.ofNat (65 - 10 + c)

/-- `non_printable_to_string`. -/
def nonPrintableToString (c : ℕ) : StdString :=
  [92, 117, toHexChar (c / 2 ^ 12 % 16), toHexChar (c / 2 ^ 8 % 16), toHexChar (c / 2 ^ 4 % 16),
    toHexChar (c % 16)]

/-- `add_esc_char`: what it adds, if anything. -/
def addEscChar (c : UInt8) : Option StdString :=
  if c = 34 then some [92, 34]
  else if c = 92 then some [92, 92]
  else if c = 8 then some [92, 98]
  else if c = 12 then some [92, 102]
  else if c = 10 then some [92, 110]
  else if c = 13 then some [92, 114]
  else if c = 9 then some [92, 116]
  else none

/-- What `add_esc_chars` adds for a character. -/
def escaped (prims : Prims D) (c : UInt8) : StdString :=
  match addEscChar c with
  | some s => s
  | none => if prims.iswprint c.toNat then [c] else nonPrintableToString c.toNat

/-- `add_esc_chars`. -/
def addEscChars (prims : Prims D) : StdString → StdString
  | [] => []
  | c :: s => escaped prims c ++ addEscChars prims s

/-- `indent`, at a level. -/
def indent (pretty : Bool) : ℕ → StdString
  | 0 => []
  | k + 1 => if pretty then [32, 32, 32, 32] ++ indent pretty k else []

/-- `space`. -/
def space (pretty : Bool) : StdString := if pretty then [32] else []

/-- `new_line`. -/
def newLine (pretty : Bool) : StdString := if pretty then [10] else []

/-- The loop of `output_array_or_obj` over the outputs of the parts, at the level of the parts. -/
def outputParts (pretty : Bool) (k : ℕ) : List StdString → StdString
  | [] => []
  | t :: ts =>
    indent pretty k ++ t ++ (if ts = [] then [] else [44]) ++ newLine pretty ++ outputParts pretty k ts

/-- `output_array_or_obj`. -/
def outputArrayOrObj (pretty : Bool) (k : ℕ) (startChar endChar : UInt8) (parts : List StdString) :
    StdString :=
  [startChar] ++ newLine pretty ++ outputParts pretty (k + 1) parts ++ indent pretty k ++ [endChar]

/-- `output`, of a string. -/
def outputStr (prims : Prims D) (s : StdString) : StdString := [34] ++ addEscChars prims s ++ [34]

/-- The output of an `int64_t`. -/
def outputInt : ℤ → StdString
  | .ofNat n => decimal n
  | .negSucc n => 45 :: decimal (n + 1)

mutual

/-- `output`, at a level. -/
def output (prims : Prims D) (pretty : Bool) : ℕ → Value D → StdString
  | k, .obj members => outputArrayOrObj pretty k 123 125 (outputMembers prims pretty (k + 1) members)
  | k, .array elements =>
    outputArrayOrObj pretty k 91 93 (outputElements prims pretty (k + 1) elements)
  | _, .str s => outputStr prims s
  | _, .bool b => literal (if b then "true" else "false")
  | _, .int64 n => outputInt n
  | _, .uint64 n => decimal n
  | _, .real d => prims.showReal d
  | _, .null => literal "null"

/-- The outputs of the members. -/
def outputMembers (prims : Prims D) (pretty : Bool) : ℕ → List (StdString × Value D) → List StdString
  | _, [] => []
  | k, m :: ms => outputMember prims pretty k m :: outputMembers prims pretty k ms

/-- `output`, of a member. -/
def outputMember (prims : Prims D) (pretty : Bool) : ℕ → StdString × Value D → StdString
  | k, (name, v) =>
    outputStr prims name ++ space pretty ++ [58] ++ space pretty ++ output prims pretty k v

/-- The outputs of the elements. -/
def outputElements (prims : Prims D) (pretty : Bool) : ℕ → List (Value D) → List StdString
  | _, [] => []
  | k, v :: vs => output prims pretty k v :: outputElements prims pretty k vs

end

/-- `write_string`. -/
def writeString (prims : Prims D) (value : Value D) (pretty : Bool) : StdString :=
  output prims pretty 0 value

/-! ## What is read back -/

mutual

/-- What the reader makes of a value: a number below the bound of an `int64_t` is one, and a `double` is
what it reads from eight places. -/
def Value.reread (f : D → D) : Value D → Value D
  | .obj members => .obj (rereadMembers f members)
  | .array elements => .array (rereadElements f elements)
  | .uint64 n => if n < 2 ^ 63 then .int64 n else .uint64 n
  | .real d => .real (f d)
  | .str s => .str s
  | .bool b => .bool b
  | .int64 n => .int64 n
  | .null => .null

/-- What it makes of members. -/
def Value.rereadMembers (f : D → D) : List (StdString × Value D) → List (StdString × Value D)
  | [] => []
  | (name, v) :: ms => (name, v.reread f) :: rereadMembers f ms

/-- What it makes of elements. -/
def Value.rereadElements (f : D → D) : List (Value D) → List (Value D)
  | [] => []
  | v :: vs => v.reread f :: rereadElements f vs

end

mutual

/-- The whole numbers are in the range of their type, and the `double`s are finite. -/
def Value.Fits (finite : D → Prop) : Value D → Prop
  | .obj members => membersFit finite members
  | .array elements => elementsFit finite elements
  | .int64 n => -2 ^ 63 ≤ n ∧ n < 2 ^ 63
  | .uint64 n => n < 2 ^ 64
  | .real d => finite d
  | _ => True

/-- The values of members fit. -/
def Value.membersFit (finite : D → Prop) : List (StdString × Value D) → Prop
  | [] => True
  | (_, v) :: ms => v.Fits finite ∧ membersFit finite ms

/-- Elements fit. -/
def Value.elementsFit (finite : D → Prop) : List (Value D) → Prop
  | [] => True
  | v :: vs => v.Fits finite ∧ elementsFit finite vs

end

/-- A text that does not go on with a number. -/
def Ends (r : StdString) : Prop := ∀ c, r.head? = some c → isdigit c = false ∧ c ≠ 46 ∧ c ≠ 69 ∧ c ≠ 101

/-- What the other libraries are documented to do: `strict_real_p` takes a number only if it has a point
or an exponent, and what is written for a finite `double` is one; `lex_escape_ch_p` takes a character, or
a backslash with a character that does not begin a number. -/
structure Prims.Documented (prims : Prims D) (finite : D → Prop) (f : D → D) : Prop
    extends prims.Consuming where
  real_int : ∀ sign ds r, sign = [] ∨ sign = [45] → ds ≠ [] → (∀ c ∈ ds, isdigit c = true) → Ends r →
    prims.strictReal (sign ++ ds ++ r) = none
  real_other : ∀ c i, isdigit c = false → c ≠ 43 → c ≠ 45 → c ≠ 46 → prims.strictReal (c :: i) = none
  real_show : ∀ d, finite d → ∀ r, Ends r → prims.strictReal (prims.showReal d ++ r) = some (f d, r)
  head_show : ∀ d, finite d → ∃ c, (prims.showReal d).head? = some c ∧ (isdigit c = true ∨ c = 45)
  lex_char : ∀ c rest, c ≠ 92 → prims.lexEscapeCh (c :: rest) = some rest
  lex_escape : ∀ c rest, ¬(48 ≤ c ∧ c ≤ 55) → c ≠ 88 → c ≠ 120 →
    prims.lexEscapeCh (92 :: c :: rest) = some rest

/-! ## Strings -/

section Strings

variable {prims : Prims D} {finite : D → Prop} {f : D → D}

theorem hexToNum_toHexChar : ∀ d < 16, hexToNum (toHexChar d) = d ∧ toHexChar d ≠ 34 ∧
    toHexChar d ≠ 92 := by
  decide

/-- **What a character is escaped as**: itself, a backslash with a letter for it, or its number. -/
theorem escaped_cases (prims : Prims D) (c : UInt8) :
    (escaped prims c = [c] ∧ c ≠ 34 ∧ c ≠ 92) ∨
      (∃ e, escaped prims c = [92, e] ∧ escLetter e = some c ∧ ¬(48 ≤ e ∧ e ≤ 55) ∧ e ≠ 88 ∧ e ≠ 120) ∨
      escaped prims c = nonPrintableToString c.toNat := by
  have hletter : ∀ e, addEscChar c = some [92, e] →
      (escLetter e = some c ∧ ¬(48 ≤ e ∧ e ≤ 55) ∧ e ≠ 88 ∧ e ≠ 120) → ∃ e, escaped prims c = [92, e] ∧
        escLetter e = some c ∧ ¬(48 ≤ e ∧ e ≤ 55) ∧ e ≠ 88 ∧ e ≠ 120 := by
    intro e he hletter
    exact ⟨e, by rw [escaped, he], hletter⟩
  by_cases h34 : c = 34
  · exact .inr (.inl (hletter 34 (by subst h34; rfl) (by subst h34; decide)))
  by_cases h92 : c = 92
  · exact .inr (.inl (hletter 92 (by subst h92; rfl) (by subst h92; decide)))
  by_cases h8 : c = 8
  · exact .inr (.inl (hletter 98 (by subst h8; rfl) (by subst h8; decide)))
  by_cases h12 : c = 12
  · exact .inr (.inl (hletter 102 (by subst h12; rfl) (by subst h12; decide)))
  by_cases h10 : c = 10
  · exact .inr (.inl (hletter 110 (by subst h10; rfl) (by subst h10; decide)))
  by_cases h13 : c = 13
  · exact .inr (.inl (hletter 114 (by subst h13; rfl) (by subst h13; decide)))
  by_cases h9 : c = 9
  · exact .inr (.inl (hletter 116 (by subst h9; rfl) (by subst h9; decide)))
  have hnone : addEscChar c = none := by
    simp only [addEscChar, h34, h92, h8, h12, h10, h13, h9, if_false]
  rw [escaped, hnone]
  by_cases hprint : prims.iswprint c.toNat = true
  · exact .inl ⟨by simp only [hprint, if_true], h34, h92⟩
  · exact .inr (.inr (by simp only [hprint]; rfl))

/-- The digits of the number of a character are read back. -/
theorem appendEscChar_number (c : UInt8) (rest : StdString) :
    appendEscChar 117 (toHexChar (c.toNat / 2 ^ 12 % 16) :: toHexChar (c.toNat / 2 ^ 8 % 16) ::
      toHexChar (c.toNat / 2 ^ 4 % 16) :: toHexChar (c.toNat % 16) :: rest) = ([c], rest) := by
  have hlt : c.toNat < 256 := c.toNat_lt
  have hnum (x : ℕ) : hexToNum (toHexChar (x % 16)) = x % 16 :=
    (hexToNum_toHexChar (x % 16) (Nat.mod_lt _ (by decide))).1
  have hvalue : (((c.toNat / 2 ^ 12 % 16 * 2 ^ 4 + c.toNat / 2 ^ 8 % 16) * 2 ^ 4 +
      c.toNat / 2 ^ 4 % 16) * 2 ^ 4 + c.toNat % 16) = c.toNat := by
    omega
  rw [appendEscChar]
  simp only [show escLetter 117 = none from rfl, show ¬(117 : UInt8) = 120 from by decide, false_and,
    if_false, true_and, List.length_cons, show 4 ≤ rest.length + 1 + 1 + 1 + 1 from by omega, if_true,
    List.take_succ_cons, List.take_zero, List.map_cons, List.map_nil, List.foldl_cons, List.foldl_nil,
    hnum, Nat.zero_mul, Nat.zero_add, List.drop_succ_cons, List.drop_zero]
  rw [hvalue, UInt8.ofNat_toNat]

/-- A text inside quotation marks is read up to the closing one. -/
def Body (prims : Prims D) (r i : StdString) : Prop :=
  ∀ n, i.length ≤ n → strBody prims n i = 34 :: r

variable {r i s : StdString}

theorem Body.step {i' : StdString} (h : Body prims r i) (hlt : i.length < i'.length)
    (hch : bodyCh prims i' = some i) : Body prims r i' := by
  intro n hn
  obtain ⟨m, rfl⟩ := Nat.exists_eq_add_of_lt ((Nat.zero_le _).trans_lt (hlt.trans_le hn))
  rw [Nat.zero_add, strBody, hch]
  exact h m (by omega)

theorem Body.char (hd : prims.Documented finite f) (h : Body prims r i) {c : UInt8} (h34 : c ≠ 34)
    (h92 : c ≠ 92) : Body prims r (c :: i) := by
  refine h.step (Nat.lt_succ_self _) ?_
  rw [bodyCh, hd.lex_char c i h92]
  simp [h34]

theorem Body.escape (hd : prims.Documented finite f) (h : Body prims r i) {e : UInt8}
    (h8 : ¬(48 ≤ e ∧ e ≤ 55)) (h88 : e ≠ 88) (h120 : e ≠ 120) : Body prims r (92 :: e :: i) := by
  refine h.step (by simp) ?_
  rw [bodyCh, hd.lex_escape e i h8 h88 h120]
  simp

/-- **The body of a written string** ends at its quotation mark. -/
theorem body_addEscChars (hd : prims.Documented finite f) (s r : StdString) :
    Body prims r (addEscChars prims s ++ 34 :: r) := by
  induction s with
  | nil =>
    intro n hn
    have hnone : bodyCh prims (34 :: r) = none := by
      rw [bodyCh, hd.lex_char 34 r (by decide)]
      simp
    cases n with
    | zero => rfl
    | succ n =>
      show strBody prims (n + 1) (34 :: r) = _
      rw [strBody, hnone]
  | cons c s ih =>
    rw [addEscChars, List.append_assoc]
    obtain ⟨heq, h34, h92⟩ | ⟨e, heq, -, h8, h88, h120⟩ | heq := escaped_cases prims c
    · rw [heq]
      exact ih.char hd h34 h92
    · rw [heq]
      exact ih.escape hd h8 h88 h120
    · rw [heq]
      have hhex (x : ℕ) := (hexToNum_toHexChar (x % 16) (Nat.mod_lt _ (by decide))).2
      refine Body.escape hd ?_ (by decide) (by decide) (by decide)
      exact ((((ih.char hd (hhex _).1 (hhex _).2).char hd (hhex _).1 (hhex _).2).char hd
        (hhex _).1 (hhex _).2).char hd (hhex _).1 (hhex _).2)

/-- **A written string gives its characters back.** -/
theorem substituteLoop_addEscChars (prims : Prims D) (s : StdString) :
    ∀ n, (addEscChars prims s).length ≤ n → substituteLoop n (addEscChars prims s) = s := by
  induction s with
  | nil =>
    intro n _
    cases n <;> rfl
  | cons c s ih =>
    intro n hn
    rw [addEscChars] at hn ⊢
    obtain ⟨heq, h34, h92⟩ | ⟨e, heq, hletter, -⟩ | heq := escaped_cases prims c
    · rw [heq] at hn ⊢
      rw [List.singleton_append, List.length_cons] at hn
      obtain ⟨m, rfl⟩ := Nat.exists_eq_add_of_lt ((Nat.zero_le _).trans_lt hn)
      rw [Nat.zero_add, List.singleton_append]
      have htail := ih m (by omega)
      cases hrest : addEscChars prims s with
      | nil =>
        rw [hrest] at htail
        rw [← htail]
        cases m <;> rfl
      | cons c2 rest =>
        rw [substituteLoop, if_neg h92, ← hrest, htail]
    · rw [heq] at hn ⊢
      rw [List.cons_append, List.length_cons] at hn
      obtain ⟨m, rfl⟩ := Nat.exists_eq_add_of_lt ((Nat.zero_le _).trans_lt hn)
      rw [Nat.zero_add, List.cons_append, List.singleton_append, substituteLoop, if_pos rfl,
        appendEscChar, hletter]
      simp only
      rw [ih m (by rw [List.singleton_append, List.length_cons] at hn; omega), List.singleton_append]
    · rw [heq, nonPrintableToString] at hn ⊢
      simp only [List.cons_append, List.nil_append, List.length_cons] at hn ⊢
      obtain ⟨m, rfl⟩ := Nat.exists_eq_add_of_lt ((Nat.zero_le _).trans_lt hn)
      rw [Nat.zero_add, substituteLoop, if_pos rfl, appendEscChar_number]
      simp only
      rw [ih m (by omega), List.singleton_append]

/-- **A written string is read back**, up to its closing quotation mark. -/
theorem stringP_outputStr (hd : prims.Documented finite f) (s r : StdString) :
    ∃ text, stringP prims (outputStr prims s ++ r) = some (text, r) ∧ getStr text = s := by
  have hskip : skip (outputStr prims s ++ r) = 34 :: (addEscChars prims s ++ 34 :: r) := by
    rw [outputStr, skip]
    simp [isspace]
  have hbody := body_addEscChars hd s r _ le_rfl
  refine ⟨34 :: (addEscChars prims s ++ [34]), ?_, ?_⟩
  · rw [stringP, hskip]
    simp only [hbody]
    congr 2
    have hsplit : 34 :: (addEscChars prims s ++ 34 :: r) = (34 :: (addEscChars prims s ++ [34])) ++ r := by
      simp
    rw [hsplit, List.length_append, Nat.add_sub_cancel, List.take_left]
  · rw [getStr, List.tail_cons, List.dropLast_concat, substituteEscChars]
    exact substituteLoop_addEscChars prims s _ le_rfl

end Strings

/-! ## White space before a value -/

/-- White space. -/
def Blank (ws : StdString) : Prop := ∀ c ∈ ws, isspace c = true

theorem blank_indent (pretty : Bool) (k : ℕ) : Blank (indent pretty k) := by
  induction k with
  | zero =>
    intro c hc
    cases hc
  | succ k ih =>
    intro c hc
    cases pretty with
    | false => cases hc
    | true =>
      obtain hc | hc := List.mem_append.mp (show c ∈ [32, 32, 32, 32] ++ indent true k from hc)
      · exact List.all_eq_true.mp (rfl : ([32, 32, 32, 32] : StdString).all isspace = true) c hc
      · exact ih c hc

theorem blank_newLine (pretty : Bool) : Blank (newLine pretty) := by
  cases pretty <;> intro c hc
  · cases hc
  · rw [List.mem_singleton.mp hc]
    rfl

theorem blank_space (pretty : Bool) : Blank (space pretty) := by
  cases pretty <;> intro c hc
  · cases hc
  · rw [List.mem_singleton.mp hc]
    rfl

theorem Blank.append {ws ws' : StdString} (h : Blank ws) (h' : Blank ws') : Blank (ws ++ ws') :=
  fun c hc => (List.mem_append.mp hc).elim (h c) (h' c)

/-- A reading that takes no notice of white space before it. -/
def SkipsBlank {V : Type} (q : Reading V UInt8 Error) : Prop := ∀ ws i, Blank ws → q (ws ++ i) = q i

section Skips

variable {V V' : Type} {q q' : Reading V UInt8 Error} {prims : Prims D}

theorem skip_append {ws : StdString} (h : Blank ws) (i : StdString) : skip (ws ++ i) = skip i :=
  List.dropWhile_append_of_pos h

theorem SkipsBlank.orElse (h : SkipsBlank q) (h' : SkipsBlank q') : SkipsBlank (q.orElse q') := by
  intro ws i hws
  rw [Reading.orElse, Reading.orElse, h ws i hws, h' ws i hws]

theorem SkipsBlank.bind (h : SkipsBlank q) (k : V → Reading V' UInt8 Error) :
    SkipsBlank (q.bind k) := by
  intro ws i hws
  rw [Reading.bind, Reading.bind, h ws i hws]

theorem skipsBlank_token {B : Type} {read : StdString → Option (B × StdString)}
    (h : ∀ i j, skip i = skip j → read i = read j) (f : B → V) :
    SkipsBlank (Reading.token read f : Reading V UInt8 Error) := by
  intro ws i hws
  rw [Reading.token, Reading.token, h _ _ (skip_append hws i)]

theorem skipsBlank_chP (c : UInt8) (f : UInt8 → V) :
    SkipsBlank (Reading.token (chP c) f : Reading V UInt8 Error) :=
  skipsBlank_token (fun i j h => by rw [chP, chP, h]) f

theorem skipsBlank_stringP (prims : Prims D) (f : StdString → V) :
    SkipsBlank (Reading.token (stringP prims) f : Reading V UInt8 Error) :=
  skipsBlank_token (fun i j h => by rw [stringP, stringP, h]) f

theorem skipsBlank_pair (prims : Prims D) (q : Reading (Value D) UInt8 Error) :
    SkipsBlank (readPair prims q) :=
  (skipsBlank_stringP prims getStr).bind _

theorem skipsBlank_number (prims : Prims D) : SkipsBlank (readNumber prims) :=
  (skipsBlank_token (fun i j h => by rw [strictRealP, strictRealP, h]) _).orElse
    ((skipsBlank_token (fun i j h => by rw [int64P, int64P, h]) _).orElse
      (skipsBlank_token (fun i j h => by rw [uint64P, uint64P, h]) _))

theorem skipsBlank_value (prims : Prims D) (n : ℕ) : SkipsBlank (readValue prims n) := by
  cases n with
  | zero => exact fun ws i hws => rfl
  | succ n =>
    have hword (t : StdString) (v : Value D) :
        SkipsBlank (Reading.token (strP t) fun _ => v : Reading (Value D) UInt8 Error) :=
      skipsBlank_token (fun i j h => by rw [strP, strP, h]) _
    exact (skipsBlank_stringP prims _).orElse ((skipsBlank_number prims).orElse
      (((skipsBlank_chP 123 _).bind _).orElse (((skipsBlank_chP 91 _).bind _).orElse
        ((hword _ _).orElse ((hword _ _).orElse (hword _ _))))))

end Skips

/-! ## The first character decides -/

section Heads

variable {prims : Prims D} {finite : D → Prop} {f : D → D} {a : UInt8} {i r : StdString}

theorem skip_cons (ha : isspace a = false) (i : StdString) : skip (a :: i) = a :: i := by
  rw [skip, List.dropWhile_cons_of_neg (by rw [ha]; decide)]

theorem chP_self (ha : isspace a = false) (i : StdString) : chP a (a :: i) = some (a, i) := by
  rw [chP, skip_cons ha]
  exact if_pos rfl

theorem chP_ne {c : UInt8} (ha : isspace a = false) (hne : a ≠ c) (i : StdString) :
    chP c (a :: i) = none := by
  rw [chP, skip_cons ha]
  exact if_neg hne

theorem stringP_ne (ha : isspace a = false) (hne : a ≠ 34) (i : StdString) :
    stringP prims (a :: i) = none := by
  rw [stringP, skip_cons ha]
  split
  · rename_i heq
    exact absurd (List.cons.inj heq).1 hne
  · rfl

theorem strP_ne {b : UInt8} {w : StdString} (ha : isspace a = false) (hne : b ≠ a) (i : StdString) :
    strP (b :: w) (a :: i) = none := by
  rw [strP, skip_cons ha, if_neg]
  intro hprefix
  exact hne (List.cons_prefix_cons.mp hprefix).1

theorem extractDigits_ne (ha : isdigit a = false) (i : StdString) : extractDigits (a :: i) = none := by
  rw [extractDigits, if_pos]
  rw [List.takeWhile_cons_of_neg (by rw [ha]; decide)]

/-- A text that begins with something else is not a number. -/
theorem readNumber_ne (hd : prims.Documented finite f) (ha : isspace a = false)
    (hdigit : isdigit a = false) (h43 : a ≠ 43) (h45 : a ≠ 45) (h46 : a ≠ 46) (i : StdString) :
    readNumber prims (a :: i) = .miss () := by
  have hsign : extractSign (a :: i) = (false, a :: i) := by
    rw [extractSign.eq_def]
    split
    · rename_i heq
      exact absurd (List.cons.inj heq).1 h43
    · rename_i heq
      exact absurd (List.cons.inj heq).1 h45
    · rfl
  rw [readNumber, Reading.orElse, Reading.token, strictRealP, skip_cons ha,
    hd.real_other a i hdigit h43 h45 h46]
  simp only
  rw [Reading.orElse, Reading.token, int64P, skip_cons ha, hsign]
  simp only [extractDigits_ne hdigit, Option.bind_none]
  rw [Reading.token, uint64P, skip_cons ha, extractDigits_ne hdigit]
  rfl

theorem readCompound_ne {X : Type} {q : Reading X UInt8 Error} {mk : List X → Value D}
    {start stop : UInt8} {reason : String} (ha : isspace a = false) (hne : a ≠ start)
    (i : StdString) : readCompound mk start stop reason q (a :: i) = .miss () := by
  rw [readCompound, Reading.bind, Reading.token, chP_ne ha hne]

end Heads

/-! ## Numbers -/

section Numbers

variable {prims : Prims D} {finite : D → Prop} {f : D → D} {r : StdString}

theorem ends_cons {c : UInt8} (hdigit : isdigit c = false) (h46 : c ≠ 46) (h69 : c ≠ 69)
    (h101 : c ≠ 101) (r : StdString) : Ends (c :: r) := by
  intro c' hc'
  obtain rfl := Option.some.inj hc'
  exact ⟨hdigit, h46, h69, h101⟩

theorem extractDigits_decimal (n : ℕ) (hr : Ends r) : extractDigits (decimal n ++ r) = some (n, r) := by
  have hnext : r.takeWhile isdigit = [] ∧ r.dropWhile isdigit = r := by
    cases r with
    | nil => exact ⟨rfl, rfl⟩
    | cons c r =>
      have hc := (hr c rfl).1
      exact ⟨List.takeWhile_cons_of_neg (by rw [hc]; decide),
        List.dropWhile_cons_of_neg (by rw [hc]; decide)⟩
  rw [extractDigits, List.takeWhile_append_of_pos (isdigit_decimal n), hnext.1, List.append_nil,
    if_neg (decimal_ne_nil n), readDecimal_decimal,
    List.dropWhile_append_of_pos (isdigit_decimal n), hnext.2]

/-- The first digit is neither white space nor a sign. -/
theorem exists_decimal (n : ℕ) : ∃ c ds, decimal n = c :: ds ∧ isdigit c = true ∧ isspace c = false ∧
    c ≠ 43 ∧ c ≠ 45 := by
  cases hn : decimal n with
  | nil => exact absurd hn (decimal_ne_nil n)
  | cons c ds =>
    have hc := isdigit_decimal n c (by rw [hn]; exact List.mem_cons_self)
    refine ⟨c, ds, rfl, hc, isspace_of_isdigit hc, ?_, ?_⟩
    · rintro rfl
      revert hc
      decide
    · rintro rfl
      revert hc
      decide

theorem extractSign_decimal (n : ℕ) (r : StdString) :
    extractSign (decimal n ++ r) = (false, decimal n ++ r) := by
  obtain ⟨c, ds, hn, -, -, h43, h45⟩ := exists_decimal n
  rw [hn, List.cons_append, extractSign.eq_def]
  split
  · rename_i heq
    exact absurd (List.cons.inj heq).1 h43
  · rename_i heq
    exact absurd (List.cons.inj heq).1 h45
  · rfl

theorem skip_decimal (n : ℕ) (r : StdString) : skip (decimal n ++ r) = decimal n ++ r := by
  obtain ⟨c, ds, hn, -, hspace, -, -⟩ := exists_decimal n
  rw [hn, List.cons_append, skip_cons hspace]

theorem int64P_decimal (n : ℕ) (hr : Ends r) :
    int64P (decimal n ++ r) = if n < 2 ^ 63 then some ((n : ℤ), r) else none := by
  rw [int64P, skip_decimal, extractSign_decimal, extractDigits_decimal n hr, Option.bind_some]
  rfl

theorem uint64P_decimal {n : ℕ} (hn : n < 2 ^ 64) (hr : Ends r) :
    uint64P (decimal n ++ r) = some (n, r) := by
  rw [uint64P, skip_decimal, extractDigits_decimal n hr, Option.filter_some, if_pos]
  exact decide_eq_true hn

/-- **A whole number is read back**, as an `int64_t` as long as it is one. -/
theorem readNumber_decimal (hd : prims.Documented finite f) {n : ℕ} (hn : n < 2 ^ 64) (hr : Ends r) :
    readNumber prims (decimal n ++ r) =
      .hit (if n < 2 ^ 63 then .int64 n else .uint64 n) r := by
  rw [readNumber, Reading.orElse, Reading.token, strictRealP, skip_decimal]
  have hreal := hd.real_int [] (decimal n) r (.inl rfl) (decimal_ne_nil n) (isdigit_decimal n) hr
  rw [List.nil_append] at hreal
  rw [hreal]
  simp only
  rw [Reading.orElse, Reading.token, int64P_decimal n hr]
  by_cases hlt : n < 2 ^ 63
  · rw [if_pos hlt, if_pos hlt]
  · rw [if_neg hlt, if_neg hlt]
    simp only
    rw [Reading.token, uint64P_decimal hn hr]

/-- A negative number is read back. -/
theorem readNumber_negSucc (hd : prims.Documented finite f) {n : ℕ} (hn : n + 1 ≤ 2 ^ 63) (hr : Ends r) :
    readNumber prims (45 :: decimal (n + 1) ++ r) = .hit (.int64 (.negSucc n)) r := by
  rw [readNumber, Reading.orElse, Reading.token, strictRealP, List.cons_append,
    skip_cons (by decide)]
  have hreal := hd.real_int [45] (decimal (n + 1)) r (.inr rfl) (decimal_ne_nil _)
    (isdigit_decimal _) hr
  rw [List.singleton_append, List.cons_append] at hreal
  rw [hreal]
  simp only
  rw [Reading.orElse, Reading.token, int64P, skip_cons (by decide), extractSign]
  simp only [extractDigits_decimal (n + 1) hr, Option.bind_some, if_true, hn]
  rfl

theorem readNumber_outputInt (hd : prims.Documented finite f) {n : ℤ} (hlow : -2 ^ 63 ≤ n)
    (hhigh : n < 2 ^ 63) (hr : Ends r) : readNumber prims (outputInt n ++ r) = .hit (.int64 n) r := by
  cases n with
  | ofNat n =>
    have hlt : n < 2 ^ 63 := by
      have : (n : ℤ) < 2 ^ 63 := hhigh
      exact_mod_cast this
    rw [outputInt, readNumber_decimal hd (by omega) hr, if_pos hlt]
    rfl
  | negSucc n => exact readNumber_negSucc hd (by rw [Int.negSucc_eq] at hlow; omega) hr

theorem readNumber_showReal (hd : prims.Documented finite f) {d : D} (hfinite : finite d)
    (hr : Ends r) : readNumber prims (prims.showReal d ++ r) = .hit (.real (f d)) r := by
  obtain ⟨c, hc, hhead⟩ := hd.head_show d hfinite
  have hspace : isspace c = false := hhead.elim isspace_of_isdigit fun h => by rw [h]; rfl
  have hskip : skip (prims.showReal d ++ r) = prims.showReal d ++ r := by
    cases hs : prims.showReal d with
    | nil =>
      rw [hs] at hc
      cases hc
    | cons c' s =>
      rw [hs] at hc
      obtain rfl := Option.some.inj hc
      rw [List.cons_append, skip_cons hspace]
  rw [readNumber, Reading.orElse, Reading.token, strictRealP, hskip, hd.real_show d hfinite r hr]

end Numbers

/-! ## Arrays and objects -/

section Parts

variable {X : Type} {q : Reading X UInt8 Error} {pretty : Bool} {k : ℕ} {stop : UInt8} {r : StdString}

/-- What comes after a part: the parts that are left, and the bracket. -/
def afterPart (pretty : Bool) (k : ℕ) (stop : UInt8) (r : StdString) (ts : List StdString) : StdString :=
  (if ts = [] then [] else [44]) ++ newLine pretty ++ outputParts pretty (k + 1) ts ++
    (indent pretty k ++ stop :: r)

/-- What comes before the bracket. -/
def beforeStop (pretty : Bool) (k : ℕ) (stop : UInt8) (r : StdString) : StdString :=
  newLine pretty ++ (indent pretty k ++ stop :: r)

theorem afterPart_nil : afterPart pretty k stop r [] = beforeStop pretty k stop r := by
  simp [afterPart, beforeStop, outputParts]

theorem afterPart_cons (t : StdString) (ts : List StdString) :
    afterPart pretty k stop r (t :: ts) =
      44 :: (newLine pretty ++ indent pretty (k + 1) ++ (t ++ afterPart pretty k stop r ts)) := by
  simp [afterPart, outputParts]

theorem indent_false (k : ℕ) : indent false k = [] := by
  cases k <;> rfl

/-- A part is followed by a comma, a line break or the bracket. -/
theorem ends_afterPart (pretty : Bool) (k : ℕ) (r : StdString) (hstop : ∀ r, Ends (stop :: r)) (ts : List StdString) :
    Ends (afterPart pretty k stop r ts) := by
  cases ts with
  | nil =>
    rw [afterPart_nil, beforeStop]
    cases pretty with
    | false =>
      rw [indent_false]
      exact hstop r
    | true => exact ends_cons rfl (by decide) (by decide) (by decide) _
  | cons t ts =>
    rw [afterPart_cons]
    exact ends_cons rfl (by decide) (by decide) (by decide) _

/-- **The parts after the first one are read**, each after its comma. -/
theorem hits_afterPart {items : List (StdString × X)} (pretty : Bool) (k : ℕ) (r : StdString)
    (hblank : SkipsBlank q) (hstop : ∀ r, Ends (stop :: r))
    (hspace : isspace stop = false) (hcomma : stop ≠ 44)
    (hhit : ∀ p ∈ items, ∀ r, Ends r → q (p.1 ++ r) = .hit p.2 r) :
    Reading.Hits (.bind (.token (chP 44) id) fun _ => q)
      (afterPart pretty k stop r (items.map Prod.fst)) (items.map Prod.snd)
      (beforeStop pretty k stop r) := by
  induction items with
  | nil =>
    rw [List.map_nil, List.map_nil, afterPart_nil]
    refine .nil ?_
    have hmiss := (skipsBlank_chP 44 id).bind (fun _ => q) _ (stop :: r)
      ((blank_newLine pretty).append (blank_indent pretty k))
    rw [List.append_assoc] at hmiss
    rw [beforeStop, hmiss, Reading.bind, Reading.token, chP_ne hspace hcomma]
  | cons p items ih =>
    rw [List.map_cons, List.map_cons, afterPart_cons]
    have hnext := hhit p List.mem_cons_self _
      (ends_afterPart pretty k r hstop (items.map Prod.fst))
    refine .cons ?_ ?_ (ih fun p' hp' => hhit p' (List.mem_cons_of_mem _ hp'))
    · rw [Reading.bind, Reading.token, chP_self rfl]
      show q _ = _
      rw [hblank _ _ ((blank_newLine pretty).append (blank_indent pretty (k + 1))), hnext]
    · simp only [List.length_cons, List.length_append]
      omega

/-- **An array or an object is read back**, when its parts are. -/
theorem readCompound_output (pretty : Bool) (start stop : UInt8) (reason : String) (mk : List X → Value D)
    (items : List (StdString × X)) (k : ℕ) (r : StdString) (hblank : SkipsBlank q) (hstart : isspace start = false) (hstop : ∀ r, Ends (stop :: r))
    (hspace : isspace stop = false) (hcomma : stop ≠ 44)
    (hmiss : ∀ r, q (stop :: r) = .miss ())
    (hhit : ∀ p ∈ items, ∀ r, Ends r → q (p.1 ++ r) = .hit p.2 r) :
    readCompound mk start stop reason q
        (outputArrayOrObj pretty k start stop (items.map Prod.fst) ++ r) =
      .hit (mk (items.map Prod.snd)) r := by
  have hbefore : Blank (newLine pretty ++ indent pretty k) :=
    (blank_newLine pretty).append (blank_indent pretty k)
  -- the closing bracket, with the white space before it
  have hclose : Reading.orElse (.token (chP stop) fun _ => ()) (.give (Error.thrown reason))
      (beforeStop pretty k stop r) = .hit () r := by
    have hskip := skipsBlank_chP stop (fun _ => ()) _ (stop :: r) hbefore
    rw [List.append_assoc] at hskip
    rw [Reading.orElse, beforeStop, hskip, Reading.token, chP_self hspace]
  -- what is between the brackets
  have hinside : Reading.opt (readItems q) (newLine pretty ++
      outputParts pretty (k + 1) (items.map Prod.fst) ++ (indent pretty k ++ stop :: r)) =
      .hit (if items = [] then none else some (items.map Prod.snd)) (beforeStop pretty k stop r) := by
    cases items with
    | nil =>
      have hskip := hblank _ (stop :: r) hbefore
      rw [List.append_assoc] at hskip
      show Reading.opt (readItems q) (newLine pretty ++ [] ++ (indent pretty k ++ stop :: r)) = _
      rw [List.append_nil, Reading.opt, readItems, Reading.bind, hskip, hmiss]
      rfl
    | cons p items =>
      have hhits := hits_afterPart pretty k r hblank hstop hspace hcomma
        fun p' hp' => hhit p' (List.mem_cons_of_mem _ hp')
      have hfirst := hhit p List.mem_cons_self _
        (ends_afterPart pretty k r hstop (items.map Prod.fst))
      have htext : newLine pretty ++ outputParts pretty (k + 1) ((p :: items).map Prod.fst) ++
          (indent pretty k ++ stop :: r) = newLine pretty ++ indent pretty (k + 1) ++
            (p.1 ++ afterPart pretty k stop r (items.map Prod.fst)) := by
        simp [outputParts, afterPart]
      rw [htext, Reading.opt, readItems, Reading.bind,
        hblank _ _ ((blank_newLine pretty).append (blank_indent pretty (k + 1))), hfirst]
      simp only
      rw [Reading.bind, hhits.star]
      rfl
  have htext : outputArrayOrObj pretty k start stop (items.map Prod.fst) ++ r =
      start :: (newLine pretty ++ outputParts pretty (k + 1) (items.map Prod.fst) ++
        (indent pretty k ++ stop :: r)) := by
    simp [outputArrayOrObj]
  rw [htext, readCompound, Reading.bind, Reading.token, chP_self hstart]
  simp only
  rw [Reading.bind, hinside]
  simp only
  rw [Reading.bind, hclose]
  show Phrase.Outcome.hit _ r = _
  cases items with
  | nil => rfl
  | cons p items => rfl

end Parts

/-! ## Values -/

section Values

variable {prims : Prims D} {finite : D → Prop} {f : D → D} {r : StdString}

theorem outputMembers_eq (pretty : Bool) (k : ℕ) (ms : List (StdString × Value D)) :
    outputMembers prims pretty k ms = ms.map (outputMember prims pretty k) := by
  induction ms with
  | nil => rw [outputMembers, List.map_nil]
  | cons m ms ih => rw [outputMembers, ih, List.map_cons]

theorem outputElements_eq (pretty : Bool) (k : ℕ) (vs : List (Value D)) :
    outputElements prims pretty k vs = vs.map (output prims pretty k) := by
  induction vs with
  | nil => rw [outputElements, List.map_nil]
  | cons v vs ih => rw [outputElements, ih, List.map_cons]

theorem Value.rereadMembers_eq (ms : List (StdString × Value D)) :
    rereadMembers f ms = ms.map fun m => (m.1, m.2.reread f) := by
  induction ms with
  | nil => rw [rereadMembers, List.map_nil]
  | cons m ms ih => rw [rereadMembers, ih, List.map_cons]

theorem Value.rereadElements_eq (vs : List (Value D)) :
    rereadElements f vs = vs.map (Value.reread f) := by
  induction vs with
  | nil => rw [rereadElements, List.map_nil]
  | cons v vs ih => rw [rereadElements, ih, List.map_cons]

theorem Value.membersFit_iff (ms : List (StdString × Value D)) :
    membersFit finite ms ↔ ∀ m ∈ ms, m.2.Fits finite := by
  induction ms with
  | nil => simp [membersFit]
  | cons m ms ih => rw [membersFit, ih, List.forall_mem_cons]

theorem Value.elementsFit_iff (vs : List (Value D)) :
    elementsFit finite vs ↔ ∀ v ∈ vs, v.Fits finite := by
  induction vs with
  | nil => simp [elementsFit]
  | cons v vs ih => rw [elementsFit, ih, List.forall_mem_cons]

/-- **A pair is read back**, when its value is. -/
theorem readPair_outputMember (hd : prims.Documented finite f) {q : Reading (Value D) UInt8 Error}
    {pretty : Bool} {k : ℕ} {m : StdString × Value D} (hblank : SkipsBlank q)
    (hvalue : q (output prims pretty k m.2 ++ r) = .hit (m.2.reread f) r) :
    readPair prims q (outputMember prims pretty k m ++ r) = .hit (m.1, m.2.reread f) r := by
  obtain ⟨text, htext, hname⟩ := stringP_outputStr hd m.1
    (space pretty ++ 58 :: (space pretty ++ (output prims pretty k m.2 ++ r)))
  have hsplit : outputMember prims pretty k m ++ r = outputStr prims m.1 ++
      (space pretty ++ 58 :: (space pretty ++ (output prims pretty k m.2 ++ r))) := by
    rw [outputMember]
    simp
  rw [hsplit, readPair, Reading.bind, Reading.token, htext]
  simp only
  rw [Reading.bind, Reading.orElse, skipsBlank_chP 58 _ _ _ (blank_space pretty), Reading.token,
    chP_self rfl]
  simp only
  rw [Reading.bind, Reading.orElse, hblank _ _ (blank_space pretty), hvalue, hname]
  rfl

/-- A text that does not begin with a quotation mark, and is a number. -/
theorem readValue_number (n : ℕ) {a : UInt8} {i : StdString} (hspace : isspace a = false)
    (hne : a ≠ 34) {v : Value D} (hnumber : readNumber prims (a :: i) = .hit v r) :
    readValue prims (n + 1) (a :: i) = .hit v r := by
  rw [readValue, Reading.orElse, Reading.token, stringP_ne hspace hne]
  simp only
  rw [Reading.orElse, hnumber]

/-- A text that begins with none of the other signs is a word. -/
theorem readValue_word (hd : prims.Documented finite f) (n : ℕ) {a : UInt8} (i : StdString)
    (hspace : isspace a = false) (hdigit : isdigit a = false)
    (hne : a ≠ 34 ∧ a ≠ 43 ∧ a ≠ 45 ∧ a ≠ 46 ∧ a ≠ 123 ∧ a ≠ 91) :
    readValue prims (n + 1) (a :: i) =
      Reading.orElse (.token (strP (literal "true")) fun _ => .bool true)
        (.orElse (.token (strP (literal "false")) fun _ => .bool false)
          (.token (strP (literal "null")) fun _ => .null)) (a :: i) := by
  obtain ⟨h34, h43, h45, h46, h123, h91⟩ := hne
  rw [readValue, Reading.orElse, Reading.token, stringP_ne hspace h34]
  simp only
  rw [Reading.orElse, readNumber_ne hd hspace hdigit h43 h45 h46]
  simp only
  rw [Reading.orElse, readObject, readCompound_ne hspace h123]
  simp only
  rw [Reading.orElse, readArray, readCompound_ne hspace h91]

/-- A bracket that closes is no value. -/
theorem readValue_stop (hd : prims.Documented finite f) (n : ℕ) (i : StdString) :
    readValue prims n (93 :: i) = .miss () := by
  cases n with
  | zero => rfl
  | succ n =>
    have hmiss (b : UInt8) (w : StdString) (hb : b ≠ 93) : strP (b :: w) (93 :: i) = none :=
      strP_ne rfl hb i
    rw [readValue_word hd n i rfl rfl (by decide), Reading.orElse, Reading.token,
      show literal "true" = 116 :: literal "rue" from rfl, hmiss _ _ (by decide)]
    simp only
    rw [Reading.orElse, Reading.token, show literal "false" = 102 :: literal "alse" from rfl,
      hmiss _ _ (by decide)]
    simp only
    rw [Reading.token, show literal "null" = 110 :: literal "ull" from rfl, hmiss _ _ (by decide)]

theorem readPair_stop (n : ℕ) (i : StdString) :
    readPair prims (readValue prims n) (125 :: i) = .miss () := by
  rw [readPair, Reading.bind, Reading.token, stringP_ne rfl (by decide)]

/-- A number begins with a digit or a minus sign. -/
theorem exists_outputInt (n : ℤ) : ∃ c s, outputInt n = c :: s ∧ isspace c = false ∧ c ≠ 34 := by
  cases n with
  | ofNat n =>
    obtain ⟨c, ds, hn, hdigit, hspace, -, -⟩ := exists_decimal n
    refine ⟨c, ds, hn, hspace, ?_⟩
    rintro rfl
    revert hdigit
    decide
  | negSucc n => exact ⟨45, _, rfl, rfl, by decide⟩

section Brackets

variable {n : ℕ}

theorem readObject_output (pretty : Bool) (hd : prims.Documented finite f) (members : List (StdString × Value D))
    (hvalue : ∀ m ∈ members, ∀ k r, Ends r →
      readValue prims n (output prims pretty k m.2 ++ r) = .hit (m.2.reread f) r)
    (k : ℕ) (r : StdString) :
    readObject prims (readValue prims n) (output prims pretty k (.obj members) ++ r) =
      .hit ((Value.obj members).reread f) r := by
  have hblank := skipsBlank_value prims n
  have hread := readCompound_output pretty 123 125 "not an object" Value.obj
    (members.map fun m => (outputMember prims pretty (k + 1) m, (m.1, m.2.reread f))) k r
    (skipsBlank_pair prims (readValue prims n)) rfl
    (ends_cons rfl (by decide) (by decide) (by decide)) rfl (by decide) (readPair_stop n) ?_
  · rw [List.map_map, List.map_map] at hread
    rw [output, outputMembers_eq, Value.reread, Value.rereadMembers_eq]
    exact hread
  · intro p hp r hr
    obtain ⟨m, hm, rfl⟩ := List.mem_map.mp hp
    exact readPair_outputMember hd hblank (hvalue m hm (k + 1) r hr)

theorem readArray_output (pretty : Bool) (hd : prims.Documented finite f) (elements : List (Value D))
    (hvalue : ∀ v ∈ elements, ∀ k r, Ends r →
      readValue prims n (output prims pretty k v ++ r) = .hit (v.reread f) r)
    (k : ℕ) (r : StdString) :
    readArray (readValue prims n) (output prims pretty k (.array elements) ++ r) =
      .hit ((Value.array elements).reread f) r := by
  have hread := readCompound_output pretty 91 93 "not an array" Value.array
    (elements.map fun v => (output prims pretty (k + 1) v, v.reread f)) k r
    (skipsBlank_value prims n) rfl (ends_cons rfl (by decide) (by decide) (by decide)) rfl (by decide)
    (readValue_stop hd n) ?_
  · rw [List.map_map, List.map_map] at hread
    rw [output, outputElements_eq, Value.reread, Value.rereadElements_eq]
    exact hread
  · intro p hp r hr
    obtain ⟨v, hv, rfl⟩ := List.mem_map.mp hp
    exact hvalue v hv (k + 1) r hr

end Brackets

theorem sizeOf_member {members : List (StdString × Value D)} {m : StdString × Value D}
    (hm : m ∈ members) : sizeOf m.2 < sizeOf (Value.obj members) := by
  have hlist := List.sizeOf_lt_of_mem hm
  obtain ⟨name, v⟩ := m
  simp only [Prod.mk.sizeOf_spec, Value.obj.sizeOf_spec] at hlist ⊢
  omega

theorem sizeOf_element {elements : List (Value D)} {v : Value D} (hv : v ∈ elements) :
    sizeOf v < sizeOf (Value.array elements) := by
  have hlist := List.sizeOf_lt_of_mem hv
  simp only [Value.array.sizeOf_spec]
  omega

/-- **A written value is read back**, at every level and in front of everything that is no part of a
number. -/
theorem readValue_output (hd : prims.Documented finite f) (pretty : Bool) (n : ℕ) :
    ∀ v : Value D, sizeOf v < n → v.Fits finite → ∀ k r, Ends r →
      readValue prims n (output prims pretty k v ++ r) = .hit (v.reread f) r := by
  induction n with
  | zero => exact fun v hv => absurd hv (Nat.not_lt_zero _)
  | succ n ih =>
    intro v hv hfits k r hr
    cases v with
    | obj members =>
      rw [Value.Fits, Value.membersFit_iff] at hfits
      have hread := readObject_output pretty hd members
        (fun m hm => ih m.2 (by have := sizeOf_member hm; omega) (hfits m hm)) k r
      obtain ⟨i, hi⟩ : ∃ i, output prims pretty k (.obj members) ++ r = 123 :: i := by
        rw [output]
        exact ⟨_, rfl⟩
      rw [hi] at hread ⊢
      rw [readValue, Reading.orElse, Reading.token, stringP_ne rfl (by decide)]
      simp only
      rw [Reading.orElse, readNumber_ne hd rfl rfl (by decide) (by decide) (by decide)]
      simp only
      rw [Reading.orElse, hread]
    | array elements =>
      rw [Value.Fits, Value.elementsFit_iff] at hfits
      have hread := readArray_output pretty hd elements
        (fun v' hv' => ih v' (by have := sizeOf_element hv'; omega) (hfits v' hv')) k r
      obtain ⟨i, hi⟩ : ∃ i, output prims pretty k (.array elements) ++ r = 91 :: i := by
        rw [output]
        exact ⟨_, rfl⟩
      rw [hi] at hread ⊢
      rw [readValue, Reading.orElse, Reading.token, stringP_ne rfl (by decide)]
      simp only
      rw [Reading.orElse, readNumber_ne hd rfl rfl (by decide) (by decide) (by decide)]
      simp only
      rw [Reading.orElse, readObject, readCompound_ne rfl (by decide)]
      simp only
      rw [Reading.orElse, hread]
    | str s =>
      obtain ⟨text, htext, hs⟩ := stringP_outputStr hd s r
      rw [output, readValue, Reading.orElse, Reading.token, htext, Value.reread]
      simp only [hs]
    | bool b =>
      cases b with
      | true =>
        rw [output, Value.reread]
        refine (readValue_word hd n (literal "rue" ++ r) rfl rfl (by decide)).trans ?_
        rw [Reading.orElse, Reading.token]
        rfl
      | false =>
        rw [output, Value.reread]
        refine (readValue_word hd n (literal "alse" ++ r) rfl rfl (by decide)).trans ?_
        rw [Reading.orElse, Reading.token, show literal "true" = 116 :: literal "rue" from rfl,
          strP_ne rfl (by decide)]
        rfl
    | int64 m =>
      obtain ⟨c, s, hm, hspace, h34⟩ := exists_outputInt m
      have hnumber := readNumber_outputInt hd hfits.1 hfits.2 hr
      rw [output, Value.reread]
      rw [hm] at hnumber ⊢
      exact readValue_number n hspace h34 hnumber
    | uint64 m =>
      obtain ⟨c, s, hm, hspace, h34⟩ := exists_outputInt m
      have hnumber := readNumber_decimal hd hfits hr
      rw [output, Value.reread]
      change decimal m = _ at hm
      rw [hm] at hnumber ⊢
      exact readValue_number n hspace h34 hnumber
    | real d =>
      obtain ⟨c, hc, hhead⟩ := hd.head_show d hfits
      have hnumber := readNumber_showReal hd hfits hr
      have hspace : isspace c = false := hhead.elim isspace_of_isdigit fun h => by rw [h]; rfl
      have h34 : c ≠ 34 := by
        rintro rfl
        exact absurd hhead (by decide)
      obtain ⟨s, hs⟩ := List.head?_eq_some_iff.mp hc
      rw [output, Value.reread]
      rw [hs] at hnumber ⊢
      exact readValue_number n hspace h34 hnumber
    | null =>
      rw [output, Value.reread]
      refine (readValue_word hd n (literal "ull" ++ r) rfl rfl (by decide)).trans ?_
      rw [Reading.orElse, Reading.token, show literal "true" = 116 :: literal "rue" from rfl,
        strP_ne rfl (by decide)]
      simp only
      rw [Reading.orElse, Reading.token, show literal "false" = 102 :: literal "alse" from rfl,
        strP_ne rfl (by decide)]
      rfl

end Values

/-- What is written for a finite number: a sign, digits, a point and digits. -/
def PointText (d : StdString) : Prop :=
  ∃ sign ds es, d = sign ++ ds ++ 46 :: es ∧ (sign = [] ∨ sign = [45]) ∧ ds ≠ [] ∧
    (∀ c ∈ ds, isdigit c = true) ∧ ∀ c ∈ es, isdigit c = true

theorem extractSign_digits {sign ds : StdString} (hsign : sign = [] ∨ sign = [45]) (hne : ds ≠ [])
    (hds : ∀ c ∈ ds, isdigit c = true) (r : StdString) :
    (extractSign (sign ++ ds ++ r)).2 = ds ++ r := by
  obtain rfl | rfl := hsign
  · cases ds with
    | nil => exact absurd rfl hne
    | cons c ds =>
      have hdigit := hds c List.mem_cons_self
      rw [List.nil_append, List.cons_append, extractSign.eq_def]
      split
      · rename_i heq
        obtain ⟨rfl, -⟩ := List.cons.inj heq
        cases hdigit
      · rename_i heq
        obtain ⟨rfl, -⟩ := List.cons.inj heq
        cases hdigit
      · rfl
  · rfl

/-- A text that ends a number does not go on with digits. -/
theorem Ends.dropWhile_eq {r : StdString} (hr : Ends r) : r.dropWhile isdigit = r := by
  cases r with
  | nil => rfl
  | cons c r => exact List.dropWhile_cons_of_neg (by rw [(hr c rfl).1]; decide)

theorem documented_textPrims : textPrims.Documented PointText id where
  toConsuming := consuming_textPrims
  real_int := by
    intro sign ds r hsign hne hds hr
    show strictRealText _ = none
    rw [strictRealText, extractSign_digits hsign hne hds, List.dropWhile_append_of_pos hds,
      hr.dropWhile_eq]
    split
    · exact absurd rfl (hr 46 rfl).2.1
    · rfl
  real_other := by
    intro c i hdigit h43 h45 h46
    show strictRealText _ = none
    have hsign : (extractSign (c :: i)).2 = c :: i := by
      rw [extractSign.eq_def]
      split
      · rename_i heq
        exact absurd (List.cons.inj heq).1 h43
      · rename_i heq
        exact absurd (List.cons.inj heq).1 h45
      · rfl
    rw [strictRealText, hsign, List.dropWhile_cons_of_neg (by rw [hdigit]; decide)]
    split
    · rename_i heq
      exact absurd (List.cons.inj heq).1 h46
    · rfl
  real_show := by
    rintro d ⟨sign, ds, es, rfl, hsign, hne, hds, hes⟩ r hr
    show strictRealText (sign ++ ds ++ 46 :: es ++ r) = some (sign ++ ds ++ 46 :: es, r)
    have hrest : (es ++ r).dropWhile isdigit = r := by
      rw [List.dropWhile_append_of_pos hes, hr.dropWhile_eq]
    have hpoint : (46 :: (es ++ r)).dropWhile isdigit = 46 :: (es ++ r) :=
      List.dropWhile_cons_of_neg (by decide)
    have htake : (ds ++ 46 :: (es ++ r)).takeWhile isdigit = ds := by
      rw [List.takeWhile_append_of_pos hds, List.takeWhile_cons_of_neg (by decide), List.append_nil]
    rw [List.append_assoc, strictRealText, List.cons_append, extractSign_digits hsign hne hds,
      List.dropWhile_append_of_pos hds, hpoint, htake]
    simp only [hne, false_and, if_false, hrest]
    have hlength : (sign ++ ds ++ 46 :: (es ++ r)).length - r.length =
        (sign ++ ds ++ 46 :: es).length := by
      simp only [List.length_append, List.length_cons]
      omega
    have hsplit : sign ++ ds ++ 46 :: (es ++ r) = (sign ++ ds ++ 46 :: es) ++ r := by simp
    rw [hlength, hsplit, List.take_left]
  head_show := by
    rintro d ⟨sign, ds, es, rfl, hsign, hne, hds, -⟩
    obtain rfl | rfl := hsign
    · cases ds with
      | nil => exact absurd rfl hne
      | cons c ds => exact ⟨c, rfl, .inl (hds c List.mem_cons_self)⟩
    · exact ⟨45, rfl, .inr rfl⟩
  lex_char := by
    intro c rest hc
    show lexEscapeText (c :: rest) = some rest
    rw [lexEscapeText.eq_def]
    split
    · rename_i heq
      cases heq
    · rename_i heq
      exact absurd (List.cons.inj heq).1 hc
    · rename_i heq
      exact absurd (List.cons.inj heq).1 hc
    · rename_i heq
      rw [(List.cons.inj heq).2]
  lex_escape := by
    intro c rest hoctal h88 h120
    show lexEscapeText (92 :: c :: rest) = some rest
    have hnone : ((c :: rest).take 3).takeWhile (fun c => decide (48 ≤ c ∧ c ≤ 55)) = [] := by
      rw [List.take_succ_cons, List.takeWhile_cons_of_neg (by simpa using hoctal)]
    rw [lexEscapeText, if_neg (by simp [h88, h120]), hnone]
    simp

end FoxCoin.Json
