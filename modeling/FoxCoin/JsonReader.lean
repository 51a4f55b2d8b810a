import FoxCoin.Decimal
import FoxCoin.Lib.Phrase

/-! # Reading JSON

The reader runs a grammar over a text and builds the value in place: the actions of the grammar
append to the array or the object under a pointer, and they keep the pointers to the arrays and
objects around it on a stack. -/

namespace FoxCoin.Json

open Phrase

/-! ## Values -/

/-- `Value_impl`, for numbers `D` in place of `double`. An object keeps its members in the order in
which they come, with names that may occur more than once. -/
inductive Value (D : Type)
  | obj (members : List (StdString × Value D))
  | array (elements : List (Value D))
  | str (s : StdString)
  | bool (b : Bool)
  | int64 (n : ℤ)
  | uint64 (n : ℕ)
  | real (d : D)
  | null

/-- The parts of the text that other libraries read and write: `strict_real_p` and `lex_escape_ch_p`
of the parser library, the output of a `double` with eight places, and `iswprint`. -/
structure Prims (D : Type) where
  strictReal : StdString → Option (D × StdString)
  lexEscapeCh : StdString → Option StdString
  showReal : D → StdString
  iswprint : ℕ → Bool

variable {D : Type}

/-! ## Tokens -/

/-- What is left after the white space that the scanner skips before a token. -/
def skip (i : StdString) : StdString := i.dropWhile isspace

/-- `ch_p`. -/
def chP (c : UInt8) (i : StdString) : Option (UInt8 × StdString) :=
  match skip i with
  | [] => none
  | a :: rest => if a = c then some (a, rest) else none

/-- `str_p`. -/
def strP (s : StdString) (i : StdString) : Option (StdString × StdString) :=
  if s <+: skip i then some (s, (skip i).drop s.length) else none

/-- The sign that `int_p` reads. -/
def extractSign : StdString → Bool × StdString
  | 43 :: rest => (false, rest)
  | 45 :: rest => (true, rest)
  | rest => (false, rest)

/-- The digits that a number starts with, and its value; at least one. -/
def extractDigits (i : StdString) : Option (ℕ × StdString) :=
  if i.takeWhile isdigit = [] then none
  else some (readDecimal (i.takeWhile isdigit), i.dropWhile isdigit)

/-- `int64_p`, which misses when the number does not fit. -/
def int64P (i : StdString) : Option (ℤ × StdString) :=
  (extractDigits (extractSign (skip i)).2).bind fun r =>
    if (extractSign (skip i)).1 then if r.1 ≤ 2 ^ 63 then some (-r.1, r.2) else none
    else if r.1 < 2 ^ 63 then some (r.1, r.2) else none

/-- `uint64_p`. -/
def uint64P (i : StdString) : Option (ℕ × StdString) :=
  (extractDigits (skip i)).filter fun r => decide (r.1 < 2 ^ 64)

/-- `strict_real_p`. -/
def strictRealP (prims : Prims D) (i : StdString) : Option (D × StdString) :=
  prims.strictReal (skip i)

/-- `lex_escape_ch_p - '"'`: a character or an escape, but not a quotation mark. -/
def bodyCh (prims : Prims D) (i : StdString) : Option StdString :=
  (prims.lexEscapeCh i).filter fun rest =>
    decide (i.head? ≠ some 34) || decide (1 < i.length - rest.length)

/-- `*(lex_escape_ch_p - '"')` for at most `n` rounds: what is left after it. -/
def strBody (prims : Prims D) : ℕ → StdString → StdString
  | 0, i => i
  | n + 1, i =>
    match bodyCh prims i with
    | none => i
    | some rest => strBody prims n rest

/-- `string_`: the text from a quotation mark to the next one that is not escaped, in which white space
is kept. -/
def stringP (prims : Prims D) (i : StdString) : Option (StdString × StdString) :=
  match skip i with
  | 34 :: body =>
    match strBody prims body.length body with
    | 34 :: rest => some ((skip i).take ((skip i).length - rest.length), rest)
    | _ => none
  | _ => none

/-! ## Strings -/

/-- `hex_to_num`. -/
def hexToNum (c : UInt8) : ℕ :=
  if 48 ≤ c ∧ c ≤ 57 then c.toNat - 48
  else if 97 ≤ c ∧ c ≤ 102 then c.toNat - 97 + 10
  else if 65 ≤ c ∧ c ≤ 70 then c.toNat - 65 + 10
  else 0

/-- The characters that an escape of one letter stands for. -/
def escLetter (c2 : UInt8) : Option UInt8 :=
  if c2 = 116 then some 9
  else if c2 = 98 then some 8
  else if c2 = 102 then some 12
  else if c2 = 110 then some 10
  else if c2 = 114 then some 13
  else if c2 = 92 then some 92
  else if c2 = 47 then some 47
  else if c2 = 34 then some 34
  else none

/-- `append_esc_char_and_incr_iter`, for the character after a backslash: what it appends, and what is
left. Escapes that are not known are dropped. -/
def appendEscChar (c2 : UInt8) (rest : StdString) : StdString × StdString :=
  match escLetter c2 with
  | some d => ([d], rest)
  | none =>
    if c2 = 120 ∧ 2 ≤ rest.length then
      -- expecting "xHH..."
      ([UInt8.ofNat (((rest.take 2).map hexToNum).foldl (fun n d => n * 2 ^ 4 + d) 0)], rest.drop 2)
    else if c2 = 117 ∧ 4 ≤ rest.length then
      -- expecting "uHHHH..."
      ([UInt8.ofNat (((rest.take 4).map hexToNum).foldl (fun n d => n * 2 ^ 4 + d) 0)], rest.drop 4)
    else ([], rest)

/-- The loop of `substitute_esc_chars` for at most `n` rounds. The last character is never the start of
an escape. -/
def substituteLoop : ℕ → StdString → StdString
  | n + 1, c :: c2 :: rest =>
    if c = 92 then (appendEscChar c2 rest).1 ++ substituteLoop n (appendEscChar c2 rest).2
    else c :: substituteLoop n (c2 :: rest)
  | _, s => s

/-- `substitute_esc_chars`. -/
def substituteEscChars (s : StdString) : StdString := substituteLoop s.length s

/-- `get_str`, of a text with its quotation marks. -/
def getStr (s : StdString) : StdString := substituteEscChars s.tail.dropLast

/-! ## Building a value -/

/-- What the reader throws, and an assertion that does not hold. -/
inductive Error
  | thrown (reason : String)
  | assertion

/-- What the reader throws. -/
def Error.Thrown (e : Error) : Prop := ∃ reason, e = .thrown reason

/-- `Array::push_back` and `Config_type::add` on an array or an object; other values have neither. -/
def Value.push (w : Value D) (name : StdString) (v : Value D) : Value D :=
  match w with
  | .array elements => .array (elements ++ [v])
  | .obj members => .obj (members ++ [(name, v)])
  | w => w

/-- An array or an object. -/
def Value.isCompound : Value D → Bool
  | .array _ => true
  | .obj _ => true
  | _ => false

/-- The number of elements or members. -/
def Value.size : Value D → ℕ
  | .array elements => elements.length
  | .obj members => members.length
  | _ => 0

/-- The element or member at a place. -/
def Value.child : Value D → ℕ → Option (Value D)
  | .array elements, k => elements[k]?
  | .obj members, k => members[k]?.map Prod.snd
  | _, _ => none

/-- A change of the element or member at a place. -/
def Value.setChild (w : Value D) (k : ℕ) (v : Value D) : Value D :=
  match w with
  | .array elements => .array (elements.set k v)
  | .obj members => .obj (members.modify k fun member => (member.1, v))
  | w => w

/-- What a pointer into a value points to: a pointer is the places on the way to it. -/
def Value.deref : Value D → List ℕ → Option (Value D)
  | w, [] => some w
  | w, k :: path => (w.child k).bind fun v => v.deref path

/-- A change of what a pointer points to. -/
def Value.modifyAt (f : Value D → Value D) : List ℕ → Value D → Value D
  | [], w => f w
  | k :: path, w =>
    match w.child k with
    | none => w
    | some v => w.setChild k (modifyAt f path v)

/-- `Semantic_actions`. -/
structure SemanticActions (D : Type) where
  value_ : Value D
  current_p_ : Option (List ℕ)
  stack_ : List (List ℕ)
  name_ : StdString

/-- `Semantic_actions::Semantic_actions`. -/
def SemanticActions.new (value : Value D) : SemanticActions D := ⟨value, none, [], []⟩

/-- `Semantic_actions::add_to_current`, with the pointer that it returns. -/
def SemanticActions.addToCurrent (v : Value D) (s : SemanticActions D) :
    Except Error (List ℕ × SemanticActions D) :=
  match s.current_p_ with
  | none => .ok ([], { s with value_ := v, current_p_ := some [] })
  | some path =>
    match s.value_.deref path with
    | none => .error .assertion
    | some w =>
      if w.isCompound then
        .ok (path ++ [w.size], { s with value_ := s.value_.modifyAt (·.push s.name_ v) path })
      else .error .assertion

/-- `add_to_current`, for a value without parts. -/
def SemanticActions.add (v : Value D) (s : SemanticActions D) : Except Error (SemanticActions D) :=
  (s.addToCurrent v).map Prod.snd

/-- `Semantic_actions::begin_compound`. -/
def SemanticActions.beginCompound (v : Value D) (s : SemanticActions D) :
    Except Error (SemanticActions D) :=
  match s.current_p_ with
  | none => .ok { s with value_ := v, current_p_ := some [] }
  | some path => do
    let (path', s) ← SemanticActions.addToCurrent v { s with stack_ := s.stack_ ++ [path] }
    .ok { s with current_p_ := some path' }

/-- `Semantic_actions::end_compound`. -/
def SemanticActions.endCompound (s : SemanticActions D) : Except Error (SemanticActions D) :=
  if s.current_p_ ≠ some [] then
    match s.stack_.getLast? with
    | none => .error .assertion
    | some path => .ok { s with current_p_ := some path, stack_ := s.stack_.dropLast }
  else .ok s

/-- `Semantic_actions::new_name`. -/
def SemanticActions.newName (s : SemanticActions D) (text : StdString) :
    Except Error (SemanticActions D) :=
  match s.current_p_.bind s.value_.deref with
  | some (.obj _) => .ok { s with name_ := getStr text }
  | _ => .error .assertion

/-! ## The grammar -/

section Grammar

variable (prims : Prims D) (value_ : Parser (SemanticActions D) UInt8 Error)

/-- `number_`. -/
def number_ : Parser (SemanticActions D) UInt8 Error :=
  .alt (.token (strictRealP prims) fun d => SemanticActions.add (.real d))
    (.alt (.token int64P fun n => SemanticActions.add (.int64 n)) 
      (.token uint64P fun n => SemanticActions.add (.uint64 n)))

/-- `pair_`. -/
def pair_ : Parser (SemanticActions D) UInt8 Error :=
  .seq (.token (stringP prims) fun text s => s.newName text)
    (.seq (.alt (.token (chP 58) fun _ s => .ok s) (.give (.thrown "no colon in pair")))
      (.alt value_ (.give (.thrown "not a value"))))

/-- Parts with commas in between, at least one. -/
def items_ (part : Parser (SemanticActions D) UInt8 Error) : Parser (SemanticActions D) UInt8 Error :=
  .seq part (.star (.seq (.token (chP 44) fun _ s => .ok s) part))

/-- `members_`. -/
def members_ : Parser (SemanticActions D) UInt8 Error := items_ (pair_ prims value_)

/-- `elements_`. -/
def elements_ : Parser (SemanticActions D) UInt8 Error := items_ value_

/-- An array or an object, which begins as `v`, between two brackets. -/
def compound_ (v : Value D) (start stop : UInt8) (reason : String)
    (parts : Parser (SemanticActions D) UInt8 Error) : Parser (SemanticActions D) UInt8 Error :=
  .seq (.token (chP start) fun _ => SemanticActions.beginCompound v)
    (.seq (.opt parts)
      (.alt (.token (chP stop) fun _ => SemanticActions.endCompound) (.give (.thrown reason))))

/-- `object_`. -/
def object_ : Parser (SemanticActions D) UInt8 Error :=
  compound_ (.obj []) 123 125 "not an object" (members_ prims value_)

/-- `array_`. -/
def array_ : Parser (SemanticActions D) UInt8 Error :=
  compound_ (.array []) 91 93 "not an array" (elements_ value_)

end Grammar

/-- `value_`, for values that are nested at most `n` deep. -/
def value_ (prims : Prims D) : ℕ → Parser (SemanticActions D) UInt8 Error
  | 0 => fun s _ => .miss s
  | n + 1 =>
    .alt (.token (stringP prims) fun text => SemanticActions.add (.str (getStr text)))
      (.alt (number_ prims)
        (.alt (object_ prims (value_ prims n))
          (.alt (array_ (value_ prims n))
            (.alt (.token (strP (literal "true")) fun _ => SemanticActions.add (.bool true))
              (.alt (.token (strP (literal "false")) fun _ => SemanticActions.add (.bool false))
                (.token (strP (literal "null")) fun _ => SemanticActions.add .null))))))

/-- `json_`. -/
def json_ (prims : Prims D) (n : ℕ) : Parser (SemanticActions D) UInt8 Error :=
  .alt (value_ prims n) (.give (.thrown "not a value"))

/-- `read_range_or_throw`, for values that are nested at most `n` deep: the value and what is left. -/
def readRangeOrThrow (prims : Prims D) (n : ℕ) (s : StdString) :
    Except Error (Value D × StdString) :=
  match json_ prims n (.new .null) s with
  | .hit actions rest => .ok (actions.value_, rest)
  | .miss _ => .error .assertion
  | .stop e => .error e

/-- `read_string`. A text is nested at most as deep as it is long. -/
def readString (prims : Prims D) (s : StdString) : Option (Value D) :=
  match readRangeOrThrow prims (s.length + 1) s with
  | .ok (v, _) => some v
  | .error _ => none

/-! ## What a text says -/

section Readings

variable (prims : Prims D) (readValue : Reading (Value D) UInt8 Error)

/-- A number. -/
def readNumber : Reading (Value D) UInt8 Error :=
  .orElse (.token (strictRealP prims) .real) (.orElse (.token int64P .int64) (.token uint64P .uint64))

/-- A name with a value. -/
def readPair : Reading (StdString × Value D) UInt8 Error :=
  .bind (.token (stringP prims) getStr) fun name =>
    .bind (.orElse (.token (chP 58) fun _ => ()) (.give (.thrown "no colon in pair"))) fun _ =>
      .bind (.orElse readValue (.give (.thrown "not a value"))) fun v => .pure (name, v)

/-- What stands between commas, at least one. -/
def readItems {X : Type} (readPart : Reading X UInt8 Error) : Reading (List X) UInt8 Error :=
  .bind readPart fun x =>
    .bind (.star (.bind (.token (chP 44) id) fun _ => readPart)) fun xs => .pure (x :: xs)

/-- What stands between two brackets. -/
def readCompound {X : Type} (mk : List X → Value D) (start stop : UInt8) (reason : String)
    (readPart : Reading X UInt8 Error) : Reading (Value D) UInt8 Error :=
  .bind (.token (chP start) fun _ => ()) fun _ =>
    .bind (.opt (readItems readPart)) fun o =>
      .bind (.orElse (.token (chP stop) fun _ => ()) (.give (.thrown reason))) fun _ =>
        .pure (mk (o.getD []))

/-- An object. -/
def readObject : Reading (Value D) UInt8 Error :=
  readCompound .obj 123 125 "not an object" (readPair prims readValue)

/-- An array. -/
def readArray : Reading (Value D) UInt8 Error :=
  readCompound .array 91 93 "not an array" readValue

end Readings

/-- A value that is nested at most `n` deep. -/
def readValue (prims : Prims D) : ℕ → Reading (Value D) UInt8 Error
  | 0 => fun _ => .miss ()
  | n + 1 =>
    .orElse (.token (stringP prims) fun text => .str (getStr text))
      (.orElse (readNumber prims)
        (.orElse (readObject prims (readValue prims n))
          (.orElse (readArray (readValue prims n))
            (.orElse (.token (strP (literal "true")) fun _ => .bool true)
              (.orElse (.token (strP (literal "false")) fun _ => .bool false)
                (.token (strP (literal "null")) fun _ => .null))))))

/-- A value, or else an error. -/
def readJson (prims : Prims D) (n : ℕ) : Reading (Value D) UInt8 Error :=
  .orElse (readValue prims n) (.give (.thrown "not a value"))

/-! ## Pointers into a value -/

/-- The arrays and objects around the current one, the innermost first, with the names under which
their last members come. -/
abbrev Frames (D : Type) : Type := List (Value D × StdString)

namespace Frames

/-- The whole value around the current one, which is the last part of all of them. -/
def fill : Frames D → Value D → Value D
  | [], w => w
  | (parent, name) :: outer, w => fill outer (parent.push name w)

/-- The pointer to the current one. -/
def path : Frames D → List ℕ
  | [] => []
  | (parent, _) :: outer => path outer ++ [parent.size]

/-- The pointers to those around it, the outermost first. -/
def stack : Frames D → List (List ℕ)
  | [] => []
  | _ :: outer => stack outer ++ [path outer]

end Frames

variable {w v : Value D} {name : StdString} {ctx : Frames D} {s : SemanticActions D}

@[simp] theorem Value.isCompound_push : (w.push name v).isCompound = w.isCompound := by
  cases w <;> rfl

@[simp] theorem Value.child_push (hw : w.isCompound = true) :
    (w.push name v).child w.size = some v := by
  cases w with
  | array elements => exact List.getElem?_concat_length
  | obj members =>
    show ((members ++ [(name, v)])[members.length]?).map Prod.snd = some v
    rw [List.getElem?_concat_length, Option.map_some]
  | _ => cases hw

@[simp] theorem Value.setChild_push (hw : w.isCompound = true) (v' : Value D) :
    (w.push name v).setChild w.size v' = w.push name v' := by
  cases w with
  | array elements =>
    show Value.array ((elements ++ [v]).set elements.length v') = _
    simp [Value.push]
  | obj members =>
    show Value.obj ((members ++ [(name, v)]).modify members.length fun member => (member.1, v')) = _
    have hmodify : (members ++ [(name, v)]).modify members.length (fun member => (member.1, v')) =
        members ++ [(name, v')] := by
      induction members with
      | nil => rfl
      | cons m members ih => rw [List.length_cons, List.cons_append, List.modify_succ_cons, ih hw]; rfl
    rw [hmodify]
    rfl
  | _ => cases hw

theorem Value.deref_append (w : Value D) (a b : List ℕ) :
    w.deref (a ++ b) = (w.deref a).bind fun v => v.deref b := by
  induction a generalizing w with
  | nil => rfl
  | cons k a ih =>
    rw [List.cons_append, deref, deref, Option.bind_assoc]
    congr
    funext v
    exact ih v

theorem Value.modifyAt_append (f : Value D → Value D) (a b : List ℕ) (w : Value D) :
    w.modifyAt f (a ++ b) = w.modifyAt (Value.modifyAt f b) a := by
  induction a generalizing w with
  | nil => rfl
  | cons k a ih =>
    rw [List.cons_append, modifyAt, modifyAt]
    cases w.child k with
    | none => rfl
    | some v => simp only [ih]

/-- The pointer points to the current one. -/
theorem Frames.deref_fill (hctx : ∀ f ∈ ctx, f.1.isCompound = true) (w : Value D) :
    (ctx.fill w).deref ctx.path = some w := by
  induction ctx generalizing w with
  | nil => rfl
  | cons f outer ih =>
    obtain ⟨hparent, houter⟩ := List.forall_mem_cons.mp hctx
    rw [fill, path, Value.deref_append, ih houter, Option.bind_some, Value.deref,
      Value.child_push hparent]
    rfl

/-- A change of what the pointer points to. -/
theorem Frames.modifyAt_fill (hctx : ∀ f ∈ ctx, f.1.isCompound = true) (f : Value D → Value D)
    (w : Value D) : (ctx.fill w).modifyAt f ctx.path = ctx.fill (f w) := by
  induction ctx generalizing w f with
  | nil => rfl
  | cons frame outer ih =>
    obtain ⟨hparent, houter⟩ := List.forall_mem_cons.mp hctx
    rw [fill, path, Value.modifyAt_append, ih houter, fill, Value.modifyAt,
      Value.child_push hparent]
    show Frames.fill outer (Value.setChild _ _ (f w)) = _
    rw [Value.setChild_push hparent]

/-- The state in the middle of an array or an object: the value around it is built so far, and the
pointers are those into it. -/
structure Focus (ctx : Frames D) (w : Value D) (s : SemanticActions D) : Prop where
  value_eq : s.value_ = ctx.fill w
  current_eq : s.current_p_ = some ctx.path
  stack_eq : s.stack_ = ctx.stack
  compound : w.isCompound = true
  frames : ∀ f ∈ ctx, f.1.isCompound = true

/-- **A value is added** to the current array or object, and the pointer is to it. -/
theorem Focus.addToCurrent (h : Focus ctx w s) (v : Value D) :
    ∃ s', s.addToCurrent v = .ok (ctx.path ++ [w.size], s') ∧ Focus ctx (w.push s.name_ v) s' ∧
      s'.name_ = s.name_ := by
  rw [SemanticActions.addToCurrent, h.current_eq]
  simp only
  rw [h.value_eq, Frames.deref_fill h.frames]
  simp only [h.compound, if_true]
  refine ⟨_, rfl, ⟨?_, rfl, h.stack_eq, ?_, h.frames⟩, rfl⟩
  · exact Frames.modifyAt_fill h.frames _ w
  · rw [Value.isCompound_push]
    exact h.compound

theorem Focus.add (h : Focus ctx w s) (v : Value D) :
    ∃ s', s.add v = .ok s' ∧ Focus ctx (w.push s.name_ v) s' := by
  obtain ⟨s', hs', hfocus, -⟩ := h.addToCurrent v
  exact ⟨s', by rw [SemanticActions.add, hs']; rfl, hfocus⟩

/-- **A new array or object** becomes the current one. -/
theorem Focus.beginCompound (h : Focus ctx w s) (hv : v.isCompound = true) :
    ∃ s', s.beginCompound v = .ok s' ∧ Focus ((w, s.name_) :: ctx) v s' := by
  have hmid : SemanticActions.addToCurrent v { s with stack_ := s.stack_ ++ [ctx.path] } =
      .ok (ctx.path ++ [w.size],
        { s with
          value_ := ctx.fill (w.push s.name_ v), stack_ := s.stack_ ++ [ctx.path] }) := by
    rw [SemanticActions.addToCurrent]
    simp only [h.current_eq]
    rw [h.value_eq, Frames.deref_fill h.frames]
    simp only [h.compound, if_true]
    rw [Frames.modifyAt_fill h.frames]
  rw [h.current_eq] at hmid
  rw [SemanticActions.beginCompound, h.current_eq]
  simp only
  rw [hmid]
  refine ⟨_, rfl, ⟨rfl, rfl, ?_, hv, List.forall_mem_cons.mpr ⟨h.compound, h.frames⟩⟩⟩
  show s.stack_ ++ [ctx.path] = _
  rw [h.stack_eq]
  rfl

/-- **The end of an array or object** leads back to the one around it. -/
theorem Focus.endCompound {c : Value D} (h : Focus ((w, name) :: ctx) c s) :
    ∃ s', s.endCompound = .ok s' ∧ Focus ctx (w.push name c) s' := by
  have hlast : s.stack_.getLast? = some ctx.path := by
    rw [h.stack_eq, Frames.stack, List.getLast?_concat]
  have hne : s.current_p_ ≠ some [] := by
    rw [h.current_eq, Frames.path]
    simp
  obtain ⟨hw, hctx⟩ := List.forall_mem_cons.mp h.frames
  rw [SemanticActions.endCompound, if_pos hne, hlast]
  refine ⟨_, rfl, ⟨h.value_eq, rfl, ?_, ?_, hctx⟩⟩
  · show s.stack_.dropLast = _
    rw [h.stack_eq, Frames.stack, List.dropLast_concat]
  · rw [Value.isCompound_push]
    exact hw

/-- At the outside there is no way back. -/
theorem Focus.endCompound_nil {c : Value D} (h : Focus [] c s) : s.endCompound = .ok s := by
  rw [SemanticActions.endCompound, if_neg]
  rw [h.current_eq]
  simp [Frames.path]

/-! ## The actions build what the text says -/

/-- Where a value goes: it is the whole one, or a part of an array or an object, under a name. -/
inductive Place (D : Type)
  | top
  | inside (ctx : Frames D) (w : Value D) (name : StdString)

namespace Place

/-- What is around the parts of a value that goes to a place. -/
def inner : Place D → Frames D
  | top => []
  | inside ctx w name => (w, name) :: ctx

/-- The state before the value. -/
def Before : Place D → SemanticActions D → Prop
  | top, s => s.current_p_ = none ∧ s.stack_ = []
  | inside ctx w name, s => Focus ctx w s ∧ s.name_ = name

/-- The state after it. -/
def After : Place D → Value D → SemanticActions D → Prop
  | top, v, s => s.value_ = v
  | inside ctx w name, v, s => Focus ctx (w.push name v) s

variable {pl : Place D}

theorem Before.add (h : pl.Before s) (v : Value D) : ∃ s', s.add v = .ok s' ∧ pl.After v s' := by
  cases pl with
  | top =>
    rw [SemanticActions.add, SemanticActions.addToCurrent, h.1]
    exact ⟨_, rfl, rfl⟩
  | inside ctx w name =>
    obtain ⟨hfocus, rfl⟩ := h
    exact hfocus.add v

theorem Before.beginCompound (h : pl.Before s) (hv : v.isCompound = true) :
    ∃ s', s.beginCompound v = .ok s' ∧ Focus pl.inner v s' := by
  cases pl with
  | top =>
    rw [SemanticActions.beginCompound, h.1]
    exact ⟨_, rfl, rfl, rfl, h.2, hv, fun f hf => by cases hf⟩
  | inside ctx w name =>
    obtain ⟨hfocus, rfl⟩ := h
    exact hfocus.beginCompound hv

theorem endCompound (pl : Place D) (h : Focus pl.inner v s) :
    ∃ s', s.endCompound = .ok s' ∧ pl.After v s' := by
  cases pl with
  | top => exact ⟨s, h.endCompound_nil, h.value_eq⟩
  | inside ctx w name => exact Focus.endCompound h

end Place

section Grammar

variable {prims : Prims D} {p : Parser (SemanticActions D) UInt8 Error}
  {q : Reading (Value D) UInt8 Error}

/-- A token that stands for a value without parts. -/
theorem realizes_add {B : Type} (read : StdString → Option (B × StdString)) (f : B → Value D) :
    Realizes Place.Before Place.After (.token read fun b => SemanticActions.add (f b))
      (.token read f) :=
  .token fun _ _ b hs => hs.add (f b)

theorem realizes_number (prims : Prims D) :
    Realizes Place.Before Place.After (number_ prims) (readNumber prims) :=
  .alt (realizes_add _ _) (.alt (realizes_add _ _) (realizes_add _ _))

/-- A token without an action, or else an error. -/
theorem realizes_expect {T : Type} {Pre : T → SemanticActions D → Prop} (c : UInt8) (e : Error) :
    Realizes Pre (fun t (_ : Unit) s => Pre t s) (.alt (.token (chP c) fun _ s => .ok s) (.give e))
      (.orElse (.token (chP c) fun _ => ()) (.give e)) :=
  .alt (.token fun _ s _ hs => ⟨s, rfl, hs⟩) (.give e)

/-- **A pair** becomes a member of the current object. -/
theorem realizes_pair (hp : Realizes Place.Before Place.After p q) :
    Realizes (fun (t : Frames D × List (StdString × Value D)) s => Focus t.1 (.obj t.2) s)
      (fun t m s => Focus t.1 (.obj (t.2 ++ [m])) s) (pair_ prims p) (readPair prims q) := by
  have hname : Realizes (fun (t : Frames D × List (StdString × Value D)) s => Focus t.1 (.obj t.2) s)
      (fun t name s => Focus t.1 (.obj t.2) s ∧ s.name_ = name)
      (.token (stringP prims) fun text s => s.newName text) (.token (stringP prims) getStr) := by
    refine .token fun t s text hs => ?_
    -- the current value is an object
    rw [SemanticActions.newName, hs.current_eq, Option.bind_some, hs.value_eq,
      Frames.deref_fill hs.frames]
    exact ⟨_, rfl, ⟨rfl, rfl, hs.stack_eq, rfl, hs.frames⟩, rfl⟩
  refine hname.seq
    (fun _ => (Reading.closed_give _).orElse.bind fun _ =>
      (Reading.closed_give _).orElse.bind fun _ => Reading.closed_pure _) fun name => ?_
  · refine .seq (realizes_expect 58 _) (fun _ => (Reading.closed_give _).orElse.bind fun _ =>
      Reading.closed_pure _) fun _ => ?_
    refine .bind_pure (.alt (hp.reindex fun t s hs => ?_) (.give _)) fun _ _ _ hs => hs
    exact ⟨.inside t.1 (.obj t.2) name, hs, fun v s' hs' => hs'⟩

/-- **Parts with commas in between** go to the current array or object, which has none before. -/
theorem realizes_items {X : Type} (mk : List X → Value D)
    {part : Parser (SemanticActions D) UInt8 Error} {readPart : Reading X UInt8 Error}
    (hpart : Realizes (fun (t : Frames D × List X) s => Focus t.1 (mk t.2) s)
      (fun t x s => Focus t.1 (mk (t.2 ++ [x])) s) part readPart) :
    Realizes (fun (ctx : Frames D) s => Focus ctx (mk []) s) (fun ctx xs s => Focus ctx (mk xs) s)
      (items_ part) (readItems readPart) := by
  refine .seq (hpart.reindex fun ctx s hs => ⟨(ctx, []), hs, fun x s' hs' => hs'⟩)
    (fun x => Reading.Closed.bind (fun i => Reading.closed_upTo _ i.length i) fun _ =>
      Reading.closed_pure _) fun x => ?_
  have hnext : Realizes (fun (t : Frames D × List X) s => Focus t.1 (mk t.2) s)
      (fun t x s => Focus t.1 (mk (t.2 ++ [x])) s)
      (.seq (.token (chP 44) fun _ s => .ok s) part) (.bind (.token (chP 44) id) fun _ => readPart) :=
    hpart.after
  have hstar := hnext.star (fun t x => (t.1, t.2 ++ [x])) fun _ _ _ hs => hs
  refine .bind_pure (hstar.reindex fun ctx s hs => ⟨(ctx, [x]), hs, fun xs s' hs' => hs'⟩)
    fun ctx xs s hs => ?_
  -- round after round, the parts come one after the other
  have hfold : ∀ l : List X, xs.foldl (fun (t : Frames D × List X) x => (t.1, t.2 ++ [x])) (ctx, l) =
      (ctx, l ++ xs) := by
    clear hs hstar
    induction xs with
    | nil => simp
    | cons x xs ih => simp [ih]
  rw [hfold] at hs
  exact hs

/-- **An array or an object** goes to its place when it is closed. -/
theorem realizes_compound {X : Type} (mk : List X → Value D) (hmk : (mk []).isCompound = true)
    {part : Parser (SemanticActions D) UInt8 Error} {readPart : Reading X UInt8 Error}
    (hpart : Realizes (fun (t : Frames D × List X) s => Focus t.1 (mk t.2) s)
      (fun t x s => Focus t.1 (mk (t.2 ++ [x])) s) part readPart) (start stop : UInt8)
    (reason : String) :
    Realizes Place.Before Place.After (compound_ (mk []) start stop reason (items_ part))
      (readCompound mk start stop reason readPart) := by
  have hopen : Realizes Place.Before (fun (pl : Place D) (_ : Unit) s => Focus pl.inner (mk []) s)
      (.token (chP start) fun _ => SemanticActions.beginCompound (mk []))
      (.token (chP start) fun _ => ()) :=
    .token fun pl s _ hs => hs.beginCompound hmk
  have hinside : Realizes (fun (pl : Place D) s => Focus pl.inner (mk []) s)
      (fun pl o s => Focus pl.inner (mk (o.getD [])) s) (items_ part).opt (readItems readPart).opt := by
    refine (realizes_items mk hpart).opt.reindex fun pl s hs => ⟨pl.inner, hs, fun o s' hs' => ?_⟩
    cases o with
    | none => exact hs'
    | some l => exact hs'
  have hclose (l : List X) : Realizes (fun (pl : Place D) s => Focus pl.inner (mk l) s)
      (fun pl (_ : Unit) s => pl.After (mk l) s)
      (.alt (.token (chP stop) fun _ => SemanticActions.endCompound) (.give (.thrown reason)))
      (.orElse (.token (chP stop) fun _ => ()) (.give (.thrown reason))) :=
    .alt (.token fun pl s _ hs => pl.endCompound hs) (.give _)
  refine hopen.seq (fun _ => (Reading.closed_opt _).bind fun _ =>
    (Reading.closed_give _).orElse.bind fun _ => Reading.closed_pure _) fun _ => ?_
  refine hinside.seq (fun _ => (Reading.closed_give _).orElse.bind fun _ => Reading.closed_pure _)
    fun o => ?_
  exact (hclose (o.getD [])).bind_pure fun _ _ _ hs => hs

/-- **A value** goes to its place. -/
theorem realizes_value (prims : Prims D) (n : ℕ) :
    Realizes Place.Before Place.After (value_ prims n) (readValue prims n) := by
  induction n with
  | zero => exact fun _ _ _ _ => rfl
  | succ n ih =>
    have hobject : Realizes Place.Before Place.After (object_ prims (value_ prims n))
        (readObject prims (readValue prims n)) :=
      realizes_compound .obj rfl (realizes_pair ih) 123 125 _
    have harray : Realizes Place.Before Place.After (array_ (value_ prims n))
        (readArray (readValue prims n)) := by
      refine realizes_compound .array rfl (ih.reindex fun t s hs => ?_) 91 93 _
      exact ⟨.inside t.1 (.array t.2) s.name_, ⟨hs, rfl⟩, fun v s' hs' => hs'⟩
    exact .alt (realizes_add _ _) (.alt (realizes_number prims) (.alt hobject (.alt harray
      (.alt (realizes_add _ _) (.alt (realizes_add _ _) (realizes_add _ _))))))

end Grammar

/-! ## A text is read up to its end -/

/-- The parts that other libraries read are not empty. -/
structure Prims.Consuming (prims : Prims D) : Prop where
  strictReal : ∀ i d rest, prims.strictReal i = some (d, rest) → rest.length < i.length
  lexEscapeCh : ∀ i rest, prims.lexEscapeCh i = some rest → rest.length < i.length

section Lengths

variable {prims : Prims D} {i rest : StdString}

theorem length_skip (i : StdString) : (skip i).length ≤ i.length :=
  (List.dropWhile_suffix isspace).length_le

theorem length_chP {c b : UInt8} (h : chP c i = some (b, rest)) : rest.length < i.length := by
  have hskip := length_skip i
  rw [chP] at h
  split at h
  · cases h
  · rename_i a rest' hi
    rw [hi, List.length_cons] at hskip
    split at h
    · cases h
      omega
    · cases h

theorem length_strP {t b : StdString} (ht : t ≠ []) (h : strP t i = some (b, rest)) :
    rest.length < i.length := by
  have hskip := length_skip i
  have ht' := List.length_pos_iff.mpr ht
  rw [strP] at h
  split at h
  · rename_i hprefix
    have hle := hprefix.length_le
    cases h
    rw [List.length_drop]
    omega
  · cases h

theorem length_extractSign (i : StdString) : (extractSign i).2.length ≤ i.length := by
  rw [extractSign.eq_def]
  split <;> simp

theorem length_extractDigits {n : ℕ} (h : extractDigits i = some (n, rest)) :
    rest.length < i.length := by
  rw [extractDigits] at h
  split at h
  · cases h
  · rename_i hdigits
    cases h
    have hsplit := congrArg List.length (List.takeWhile_append_dropWhile (p := isdigit) (l := i))
    rw [List.length_append] at hsplit
    have hpos := List.length_pos_iff.mpr hdigits
    omega

theorem length_int64P {n : ℤ} (h : int64P i = some (n, rest)) : rest.length < i.length := by
  obtain ⟨r, hr, hn⟩ := Option.bind_eq_some_iff.mp h
  have hlt : r.2.length < (extractSign (skip i)).2.length := length_extractDigits hr
  have hsign := length_extractSign (skip i)
  have hskip := length_skip i
  have hrest : r.2 = rest := by
    split at hn
    · split at hn
      · exact congrArg Prod.snd (Option.some.inj hn)
      · cases hn
    · split at hn
      · exact congrArg Prod.snd (Option.some.inj hn)
      · cases hn
  rw [← hrest]
  omega

theorem length_uint64P {n : ℕ} (h : uint64P i = some (n, rest)) : rest.length < i.length :=
  (length_extractDigits (Option.filter_eq_some_iff.mp h).1).trans_le (length_skip i)

theorem length_strictRealP (hprims : prims.Consuming) {d : D}
    (h : strictRealP prims i = some (d, rest)) : rest.length < i.length :=
  (hprims.strictReal _ _ _ h).trans_le (length_skip i)

theorem length_strBody (hprims : prims.Consuming) (n : ℕ) (i : StdString) :
    (strBody prims n i).length ≤ i.length := by
  induction n generalizing i with
  | zero => exact le_rfl
  | succ n ih =>
    rw [strBody]
    split
    · exact le_rfl
    · rename_i rest hrest
      have hlt := hprims.lexEscapeCh _ _ (Option.filter_eq_some_iff.mp hrest).1
      exact (ih rest).trans hlt.le

theorem length_stringP (hprims : prims.Consuming) {text : StdString}
    (h : stringP prims i = some (text, rest)) : rest.length < i.length := by
  have hskip := length_skip i
  rw [stringP] at h
  split at h
  · rename_i body hbody
    rw [hbody, List.length_cons] at hskip
    have hle := length_strBody hprims body.length body
    split at h
    · rename_i rest' hrest
      cases h
      rw [hrest, List.length_cons] at hle
      omega
    · cases h
  · cases h

end Lengths

section Depth

variable {prims : Prims D} {q q' : Reading (Value D) UInt8 Error} {n : ℕ}

theorem shrinks_chP {V : Type} (c : UInt8) (f : UInt8 → V) :
    (Reading.token (chP c) f : Reading V UInt8 Error).Shrinks :=
  Reading.shrinks_token f fun _ _ _ h => length_chP h

theorem shrinks_number (hprims : prims.Consuming) : (readNumber prims).Shrinks :=
  (Reading.shrinks_token _ fun _ _ _ h => length_strictRealP hprims h).orElse
    ((Reading.shrinks_token _ fun _ _ _ h => length_int64P h).orElse
      (Reading.shrinks_token _ fun _ _ _ h => length_uint64P h))

theorem shrinks_pair (hprims : prims.Consuming) (hq : q.Shrinks) : (readPair prims q).Shrinks :=
  (Reading.shrinks_token _ fun _ _ _ h => length_stringP hprims h).bind fun _ =>
    ((shrinks_chP 58 _).orElse (Reading.shrinks_give _)).bind fun _ =>
      (hq.orElse (Reading.shrinks_give _)).bind fun _ => Reading.shrinks_pure _

theorem shrinks_items {X : Type} {r : Reading X UInt8 Error} (hr : r.Shrinks) :
    (readItems r).Shrinks :=
  hr.bind fun _ => ((shrinks_chP 44 _).bind fun _ => hr).star.bind fun _ => Reading.shrinks_pure _

theorem shrinks_compound {X : Type} {r : Reading X UInt8 Error} (hr : r.Shrinks)
    (mk : List X → Value D) (start stop : UInt8) (reason : String) :
    (readCompound mk start stop reason r).Shrinks :=
  (shrinks_chP start _).bind fun _ => (shrinks_items hr).opt.bind fun _ =>
    ((shrinks_chP stop _).orElse (Reading.shrinks_give _)).bind fun _ => Reading.shrinks_pure _

/-- A value leaves no more than it was read from. -/
theorem shrinks_value (hprims : prims.Consuming) (n : ℕ) : (readValue prims n).Shrinks := by
  have hword {t : StdString} (ht : t ≠ []) (v : Value D) :
      (Reading.token (strP t) fun _ => v : Reading (Value D) UInt8 Error).Shrinks :=
    Reading.shrinks_token _ fun _ _ _ h => length_strP ht h
  induction n with
  | zero =>
    intro i v rest h
    cases h
  | succ n ih =>
    exact (Reading.shrinks_token _ fun _ _ _ h => length_stringP hprims h).orElse
      ((shrinks_number hprims).orElse ((shrinks_compound (shrinks_pair hprims ih) _ _ _ _).orElse
        ((shrinks_compound ih _ _ _ _).orElse ((hword (by decide) _).orElse
          ((hword (by decide) _).orElse (hword (by decide) _))))))

theorem agree_pair (hprims : prims.Consuming) (hq : q.Shrinks) (h : Reading.AgreeBelow n q q') :
    Reading.AgreeBelow n (readPair prims q) (readPair prims q') := by
  refine (Reading.AgreeBelow.refl _).bind
    (Reading.shrinks_token _ fun _ _ _ h => length_stringP hprims h) fun name => ?_
  refine (Reading.AgreeBelow.refl _).bind
    ((shrinks_chP 58 _).orElse (Reading.shrinks_give _)) fun _ => ?_
  exact (h.orElse (.refl _)).bind (hq.orElse (Reading.shrinks_give _)) fun _ => .refl _

theorem agree_items {X : Type} {r r' : Reading X UInt8 Error} (hr : r.Shrinks)
    (h : Reading.AgreeBelow n r r') : Reading.AgreeBelow n (readItems r) (readItems r') := by
  have hnext := (shrinks_chP 44 id).bind fun _ => hr
  refine h.bind hr fun v => ?_
  exact (((Reading.AgreeBelow.refl _).bind (shrinks_chP 44 _) fun _ => h).star hnext).bind
    hnext.star fun _ => .refl _

/-- An array or an object takes a bracket. -/
theorem agree_compound {X : Type} {r r' : Reading X UInt8 Error} (hr : r.Shrinks)
    (h : Reading.AgreeBelow n r r') (mk : List X → Value D) (start stop : UInt8) (reason : String) :
    Reading.AgreeBelow (n + 1) (readCompound mk start stop reason r)
      (readCompound mk start stop reason r') :=
  .after (fun _ _ _ h => length_chP h) fun _ =>
    (agree_items hr h).opt.bind (shrinks_items hr).opt fun _ => .refl _

/-- **The depth does not matter** when it is as large as the length of the text. -/
theorem agree_value (hprims : prims.Consuming) {m m' : ℕ} (hm : n ≤ m) (hm' : n ≤ m') :
    Reading.AgreeBelow n (readValue prims m) (readValue prims m') := by
  induction n generalizing m m' with
  | zero =>
    intro i hi
    omega
  | succ n ih =>
    obtain ⟨k, rfl⟩ := Nat.exists_eq_add_of_lt hm
    obtain ⟨k', rfl⟩ := Nat.exists_eq_add_of_lt hm'
    have hvalue := ih (Nat.le_add_right n k) (Nat.le_add_right n k')
    have hshrinks := shrinks_value hprims (n + k)
    have hpair := agree_pair hprims hshrinks hvalue
    exact (Reading.AgreeBelow.refl _).orElse ((Reading.AgreeBelow.refl _).orElse
      ((agree_compound (shrinks_pair hprims hshrinks) hpair _ _ _ _).orElse
        ((agree_compound hshrinks hvalue _ _ _ _).orElse (.refl _))))

theorem gives_compound {X : Type} {r : Reading X UInt8 Error} (hr : r.Gives Error.Thrown)
    (mk : List X → Value D) (start stop : UInt8) (reason : String) :
    (readCompound mk start stop reason r).Gives Error.Thrown := by
  have hitems : (readItems r).Gives Error.Thrown :=
    hr.bind fun _ => ((Reading.gives_token _ _).bind fun _ => hr).star.bind fun _ =>
      Reading.gives_pure _
  exact (Reading.gives_token _ _).bind fun _ => hitems.opt.bind fun _ =>
    ((Reading.gives_token _ _).orElse (Reading.gives_give ⟨reason, rfl⟩)).bind fun _ =>
      Reading.gives_pure _

/-- A reading only throws. -/
theorem gives_value (prims : Prims D) (n : ℕ) : (readValue prims n).Gives Error.Thrown := by
  induction n with
  | zero =>
    intro i e h
    cases h
  | succ n ih =>
    have hpair : (readPair prims (readValue prims n)).Gives Error.Thrown :=
      (Reading.gives_token _ _).bind fun _ =>
        ((Reading.gives_token _ _).orElse (Reading.gives_give ⟨_, rfl⟩)).bind fun _ =>
          (ih.orElse (Reading.gives_give ⟨_, rfl⟩)).bind fun _ => Reading.gives_pure _
    have hnumber : (readNumber prims).Gives Error.Thrown :=
      (Reading.gives_token _ _).orElse ((Reading.gives_token _ _).orElse (Reading.gives_token _ _))
    exact (Reading.gives_token _ _).orElse (hnumber.orElse ((gives_compound hpair _ _ _ _).orElse
      ((gives_compound ih _ _ _ _).orElse ((Reading.gives_token _ _).orElse
        ((Reading.gives_token _ _).orElse (Reading.gives_token _ _))))))

end Depth

/-! ## The reader reads what the text says -/

/-- What the reader gives for a text. -/
def result : Phrase.Outcome (Value D) Unit UInt8 Error → Except Error (Value D × StdString)
  | .hit v rest => .ok (v, rest)
  | .miss _ => .error .assertion
  | .stop e => .error e

/-- `strict_real_p` for numbers without an exponent, which are kept as texts. -/
def strictRealText (i : StdString) : Option (StdString × StdString) :=
  match (extractSign i).2.dropWhile isdigit with
  | 46 :: u =>
    if (extractSign i).2.takeWhile isdigit = [] ∧ u.takeWhile isdigit = [] then none
    else some (i.take (i.length - (u.dropWhile isdigit).length), u.dropWhile isdigit)
  | _ => none

/-- `lex_escape_ch_p`: after a backslash up to three octal digits, or an `x` with up to two hexadecimal
digits, are one character, if it is below 128. -/
def lexEscapeText : StdString → Option StdString
  | [] => none
  | 92 :: [] => none
  | 92 :: e :: rest =>
    let octal := ((e :: rest).take 3).takeWhile fun c => decide (48 ≤ c ∧ c ≤ 55)
    let hex := (rest.take 2).takeWhile fun c => isdigit c || decide (hexToNum c ≠ 0)
    if e = 120 ∨ e = 88 then
      if hex = [] ∨ 128 ≤ (hex.map hexToNum).foldl (fun n d => n * 16 + d) 0 then none
      else some (rest.drop hex.length)
    else if octal = [] ∨ 128 ≤ (octal.map hexToNum).foldl (fun n d => n * 8 + d) 0 then some rest
    else some (rest.drop (octal.length - 1))
  | _ :: rest => some rest

/-- The parser library for numbers that are kept as texts, and a locale with the printable characters
below 127. -/
def textPrims : Prims StdString where
  strictReal := strictRealText
  lexEscapeCh := lexEscapeText
  showReal := id
  iswprint n := decide (32 ≤ n ∧ n < 127)

theorem consuming_textPrims : textPrims.Consuming where
  strictReal := by
    intro i d rest h
    have hsign := length_extractSign i
    have hsuffix := (List.dropWhile_suffix (l := (extractSign i).2) isdigit).length_le
    change strictRealText i = _ at h
    rw [strictRealText] at h
    split at h
    · rename_i u hu
      split at h
      · cases h
      · cases h
        have hdigits := (List.dropWhile_suffix (l := u) isdigit).length_le
        rw [hu, List.length_cons] at hsuffix
        omega
    · cases h
  lexEscapeCh := by
    intro i rest h
    change lexEscapeText i = _ at h
    rw [lexEscapeText.eq_def] at h
    split at h
    · cases h
    · cases h
    · simp only at h
      split at h
      · split at h
        · cases h
        · cases h
          simp only [List.length_drop, List.length_cons]
          omega
      · split at h
        · cases h
          simp
        · cases h
          simp only [List.length_drop, List.length_cons]
          omega
    · cases h
      simp

end FoxCoin.Json
