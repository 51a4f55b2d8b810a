import FoxCoin.NetMessage

/-! # Messages in order, however the stream is cut

What `ProcessMessages` does depends on the unread bytes only, and it is a stable way of parsing
them, so that the chunks a stream arrives in do not matter. What `BeginMessage` and `EndMessage`
write is parsed as the messages, in order. -/

namespace FoxCoin

open Wire Incremental

variable {N : NetParams}

/-! ## Streams as their unread bytes -/

namespace CDataStream

variable {s : CDataStream} {n : ℕ} {bytes : List UInt8}

/-- The read position is in the buffer. -/
def Sound (s : CDataStream) : Prop := s.nReadPos ≤ s.vch.length

theorem size_eq (s : CDataStream) : s.size = s.content.length := by rw [size, content, List.length_drop]

theorem content_append (h : s.Sound) (bytes : List UInt8) :
    (s.append bytes).content = s.content ++ bytes ∧ (s.append bytes).Sound := by
  refine ⟨List.drop_append_of_le_length h, ?_⟩
  rw [Sound, append, List.length_append]
  exact h.trans (Nat.le_add_right _ _)

/-- What is left after the front is gone. -/
theorem content_eraseFront (h : s.Sound) (hn : n ≤ s.content.length) :
    (s.eraseFront n).content = s.content.drop n ∧ (s.eraseFront n).Sound := by
  rw [← size_eq, size] at hn
  rw [Sound] at h
  unfold eraseFront
  split_ifs with hend
  · refine ⟨?_, Nat.zero_le _⟩
    rw [content, content, List.drop_drop, hend, List.drop_length]
    rfl
  · exact ⟨by rw [content, content, List.drop_drop], show s.nReadPos + n ≤ s.vch.length by omega⟩

/-- Ignoring bytes that are there. -/
theorem exists_ignore (h : s.Sound) (hn : n ≤ s.content.length) :
    ∃ s', s.ignore n = some s' ∧ s'.content = s.content.drop n ∧ s'.Sound := by
  rw [← size_eq, size] at hn
  rw [Sound] at h
  unfold ignore
  dsimp only
  split_ifs with hend hover
  · omega
  · refine ⟨_, rfl, ?_, Nat.zero_le _⟩
    rw [content, content, List.drop_drop, List.drop_eq_nil_of_le hend]
    rfl
  · exact ⟨_, rfl, by rw [content, content, List.drop_drop],
      show s.nReadPos + n ≤ s.vch.length by omega⟩

/-- Reading bytes that are there. -/
theorem exists_read (h : s.Sound) (hn : n ≤ s.content.length) :
    ∃ s', read n s = some (s.content.take n, s') ∧ s'.content = s.content.drop n ∧ s'.Sound := by
  obtain ⟨s', hignore, hcontent, hsound⟩ := exists_ignore h hn
  exact ⟨s', by rw [read, hignore, Option.map_some], hcontent, hsound⟩

/-- Bytes that are put back. -/
theorem content_insertFront (h : s.Sound) (bytes : List UInt8) :
    (s.insertFront bytes).content = bytes ++ s.content ∧ (s.insertFront bytes).Sound := by
  rw [Sound] at h
  unfold insertFront
  split_ifs with hroom
  · have hlen : (s.vch.take (s.nReadPos - bytes.length)).length = s.nReadPos - bytes.length := by
      rw [List.length_take]
      omega
    refine ⟨?_, ?_⟩
    · rw [content, List.append_assoc]
      exact List.drop_left' hlen
    · rw [Sound, List.append_assoc, List.length_append, hlen]
      exact Nat.le_add_right _ _
  · have hlen : (s.vch.take s.nReadPos).length = s.nReadPos := by
      rw [List.length_take]
      omega
    refine ⟨?_, ?_⟩
    · rw [content, List.append_assoc]
      exact List.drop_left' hlen
    · rw [Sound, List.append_assoc, List.length_append, hlen]
      exact Nat.le_add_right _ _

end CDataStream

/-! ## A round on the unread bytes -/

/-- The header at the front of a buffer. -/
def headerOf (buf : List UInt8) : CMessageHeader :=
  ⟨buf.take 4, (buf.drop 4).take 12, ofLeBytes ((buf.drop 16).take 4), ofLeBytes ((buf.drop 20).take 4)⟩

/-- What is done with a buffer that has a header at the front. -/
def parseMessage (N : NetParams) (buf : List UInt8) : Step UInt8 NetMessage :=
  let hdr := headerOf buf
  let rest := buf.drop 24
  if !hdr.isValid N then .skip rest
  else if maxSize < hdr.nMessageSize then .skip rest
  else if rest.length < hdr.nMessageSize then .wait buf
  else if checksum N (rest.take hdr.nMessageSize) ≠ hdr.nChecksum then .skip rest
  else .emit ⟨hdr.getCommand, rest.take hdr.nMessageSize⟩ (rest.drop hdr.nMessageSize)

/-- What a round of `ProcessMessages` does with the unread bytes. -/
def parseStep (N : NetParams) (buf : List UInt8) : Step UInt8 NetMessage :=
  let pstart := search N.pchMessageStart.toList buf
  if buf.length - pstart < 24 then .wait (buf.drop (buf.length - 24))
  else parseMessage N (buf.drop pstart)

/-- A round comes to a step on the unread bytes. -/
def Round.Is : Round → Step UInt8 NetMessage → Prop
  | .done vRecv, .wait rest => vRecv.content = rest ∧ vRecv.Sound
  | .next vRecv, .skip rest => vRecv.content = rest ∧ vRecv.Sound
  | .dispatch msg vRecv, .emit m rest => msg = m ∧ vRecv.content = rest ∧ vRecv.Sound
  | _, _ => False

/-- Reading a header that is there. -/
theorem exists_readHeader {s : CDataStream} (h : s.Sound) (hn : 24 ≤ s.content.length) :
    ∃ s', CMessageHeader.read s = some (headerOf s.content, s') ∧ s'.content = s.content.drop 24 ∧
      s'.Sound := by
  obtain ⟨s₁, hread₁, hcontent₁, hsound₁⟩ := CDataStream.exists_read (n := 4) h (by omega)
  obtain ⟨s₂, hread₂, hcontent₂, hsound₂⟩ :=
    CDataStream.exists_read (n := 12) hsound₁ (by rw [hcontent₁, List.length_drop]; omega)
  rw [hcontent₁] at hread₂ hcontent₂
  rw [List.drop_drop] at hcontent₂
  obtain ⟨s₃, hread₃, hcontent₃, hsound₃⟩ :=
    CDataStream.exists_read (n := 4) hsound₂ (by rw [hcontent₂, List.length_drop]; omega)
  rw [hcontent₂] at hread₃ hcontent₃
  rw [List.drop_drop] at hcontent₃
  obtain ⟨s₄, hread₄, hcontent₄, hsound₄⟩ :=
    CDataStream.exists_read (n := 4) hsound₃ (by rw [hcontent₃, List.length_drop]; omega)
  rw [hcontent₃] at hread₄ hcontent₄
  rw [List.drop_drop] at hcontent₄
  refine ⟨s₄, ?_, hcontent₄, hsound₄⟩
  simp only [CMessageHeader.read, bind, StateT.bind, hread₁, hread₂, hread₃, hread₄, Option.bind_some]
  rfl

theorem search_le (pattern l : List UInt8) : search pattern l ≤ l.length := by
  induction l with
  | nil => exact le_rfl
  | cons c l ih =>
    rw [search]
    split_ifs
    · exact Nat.zero_le _
    · exact Nat.succ_le_succ ih

/-- **A round depends on the unread bytes only**, and does not throw. -/
theorem receiveRound_is (N : NetParams) {s : CDataStream} (h : s.Sound) :
    ∃ round, receiveRound N s = some round ∧ round.Is (parseStep N s.content) := by
  unfold receiveRound parseStep
  dsimp only
  rw [s.size_eq]
  have hle := search_le N.pchMessageStart.toList s.content
  generalize search N.pchMessageStart.toList s.content = pstart at hle
  split_ifs with hshort hlong
  · obtain ⟨hcontent, hsound⟩ := CDataStream.content_eraseFront h (Nat.sub_le s.content.length 24)
    exact ⟨_, rfl, hcontent, hsound⟩
  · refine ⟨_, rfl, ?_, h⟩
    rw [Nat.sub_eq_zero_of_le (not_lt.mp hlong), List.drop_zero]
  · obtain ⟨hcontent₁, hsound₁⟩ := CDataStream.content_eraseFront h hle
    generalize s.eraseFront pstart = s₁ at hcontent₁ hsound₁
    rw [← hcontent₁]
    have hlen : 24 ≤ s₁.content.length := by
      rw [hcontent₁, List.length_drop]
      omega
    obtain ⟨s₂, hread, hcontent₂, hsound₂⟩ := exists_readHeader hsound₁ hlen
    rw [hread, Option.bind_some]
    unfold parseMessage
    dsimp only
    rw [← hcontent₂, s₂.size_eq]
    split_ifs with hvalid hmax hwait hsum
    · exact ⟨_, rfl, rfl, hsound₂⟩
    · exact ⟨_, rfl, rfl, hsound₂⟩
    · obtain ⟨hcontent₃, hsound₃⟩ := CDataStream.content_insertFront hsound₂ (s₁.content.take 24)
      refine ⟨_, rfl, ?_, hsound₃⟩
      rw [hcontent₃, hcontent₂, List.take_append_drop]
    · exact ⟨_, rfl, rfl, hsound₂⟩
    · obtain ⟨s₃, hignore, hcontent₃, hsound₃⟩ := CDataStream.exists_ignore hsound₂ (not_lt.mp hwait)
      rw [hignore, Option.map_some]
      exact ⟨_, rfl, rfl, hcontent₃, hsound₃⟩

/-! ## The step is stable -/

/-- A pattern that is found is found in the same place when there is more. -/
theorem search_append {pattern l : List UInt8} (h : search pattern l + pattern.length ≤ l.length)
    (more : List UInt8) : search pattern (l ++ more) = search pattern l := by
  induction l with
  | nil =>
    obtain rfl : pattern = [] := List.length_eq_zero_iff.mp (by simpa [search] using h)
    cases more <;> rfl
  | cons c l ih =>
    have hbegins : pattern.length ≤ (c :: l).length →
        pattern.isPrefixOf (c :: l ++ more) = pattern.isPrefixOf (c :: l) := by
      intro hlen
      rw [Bool.eq_iff_iff, List.isPrefixOf_iff_prefix, List.isPrefixOf_iff_prefix]
      exact ⟨fun hp => List.prefix_of_prefix_length_le hp (List.prefix_append _ _) hlen,
        fun hp => hp.trans (List.prefix_append _ _)⟩
    rw [List.cons_append, search, search]
    rw [search] at h
    rw [List.cons_append] at hbegins
    split_ifs at h with hfound
    · rw [hbegins (by omega), if_pos hfound, if_pos hfound]
    · rw [List.length_cons] at h
      rw [hbegins (by rw [List.length_cons]; omega), if_neg hfound, if_neg hfound, ih (by omega)]

/-- A part of the buffer in which the pattern does not begin can be left out. -/
theorem search_drop {pattern l : List UInt8} {k : ℕ} (hk : k ≤ search pattern l)
    (hlen : k = 0 ∨ k + pattern.length ≤ l.length + 1) (more : List UInt8) :
    search pattern (l ++ more) = k + search pattern (l.drop k ++ more) := by
  induction k generalizing l with
  | zero => rw [List.drop_zero, Nat.zero_add]
  | succ k ih =>
    cases l with
    | nil => simp [search] at hk
    | cons c l =>
      rw [search] at hk
      split_ifs at hk with hfound
      · omega
      · rw [List.length_cons] at hlen
        have hnot : ¬pattern.isPrefixOf (c :: (l ++ more)) = true := by
          intro hp
          rw [List.isPrefixOf_iff_prefix, ← List.cons_append] at hp
          exact hfound (List.isPrefixOf_iff_prefix.mpr (List.prefix_of_prefix_length_le hp
            (List.prefix_append _ _) (by rw [List.length_cons]; omega)))
        rw [List.cons_append, search, if_neg hnot, List.drop_succ_cons,
          ih (by omega) (by omega)]
        omega

/-- A pattern is at the front of where it is found. -/
theorem search_at {pattern l : List UInt8} (h : search pattern l < l.length) :
    pattern <+: l.drop (search pattern l) := by
  induction l with
  | nil => simp [search] at h
  | cons c l ih =>
    rw [search] at h ⊢
    split_ifs at h ⊢ with hfound
    · exact List.isPrefixOf_iff_prefix.mp hfound
    · rw [List.length_cons] at h
      rw [List.drop_succ_cons]
      exact ih (by omega)

/-- A pattern at the front is found there. -/
theorem search_of_prefix {pattern l : List UInt8} (h : pattern <+: l) : search pattern l = 0 := by
  cases l with
  | nil => rfl
  | cons c l =>
    rw [search, if_pos (List.isPrefixOf_iff_prefix.mpr h)]

theorem headerOf_append {buf : List UInt8} (h : 24 ≤ buf.length) (more : List UInt8) :
    headerOf (buf ++ more) = headerOf buf := by
  have htake : ∀ k n, k + n ≤ 24 → ((buf ++ more).drop k).take n = (buf.drop k).take n := by
    intro k n hk
    rw [List.drop_append_of_le_length (by omega), List.take_append_of_le_length
      (by rw [List.length_drop]; omega)]
  have htake₀ := htake 0 4 (by norm_num)
  rw [List.drop_zero, List.drop_zero] at htake₀
  rw [headerOf, headerOf, htake₀, htake 4 12 (by norm_num), htake 16 4 (by norm_num),
    htake 20 4 (by norm_num)]

/-- What is done with a message does not depend on what follows it. -/
theorem parseMessage_append (N : NetParams) {buf : List UInt8} (h : 24 ≤ buf.length)
    (more : List UInt8) :
    (parseMessage N buf = .wait buf) ∨
      (∃ rest, parseMessage N buf = .skip rest ∧
        parseMessage N (buf ++ more) = .skip (rest ++ more)) ∨
      ∃ m rest, parseMessage N buf = .emit m rest ∧
        parseMessage N (buf ++ more) = .emit m (rest ++ more) := by
  unfold parseMessage
  dsimp only
  rw [headerOf_append h, List.drop_append_of_le_length h]
  generalize headerOf buf = hdr
  generalize buf.drop 24 = rest
  by_cases hvalid : (!hdr.isValid N) = true
  · rw [if_pos hvalid, if_pos hvalid]
    exact .inr (.inl ⟨rest, rfl, rfl⟩)
  by_cases hmax : maxSize < hdr.nMessageSize
  · rw [if_neg hvalid, if_neg hvalid, if_pos hmax, if_pos hmax]
    exact .inr (.inl ⟨rest, rfl, rfl⟩)
  by_cases hwait : rest.length < hdr.nMessageSize
  · rw [if_neg hvalid, if_neg hmax, if_pos hwait]
    exact .inl rfl
  have hwait' : ¬(rest ++ more).length < hdr.nMessageSize := by
    rw [List.length_append]
    omega
  rw [if_neg hvalid, if_neg hvalid, if_neg hmax, if_neg hmax, if_neg hwait, if_neg hwait',
    List.take_append_of_le_length (not_lt.mp hwait), List.drop_append_of_le_length (not_lt.mp hwait)]
  split_ifs
  · exact .inr (.inl ⟨rest, rfl, rfl⟩)
  · exact .inr (.inr ⟨_, _, rfl, rfl⟩)

/-- A step on a buffer with a start string that has a header after it. -/
theorem parseStep_append_of_found (N : NetParams) {buf : List UInt8}
    (h : search N.pchMessageStart.toList buf + 24 ≤ buf.length) (more : List UInt8) :
    parseStep N (buf ++ more) =
      parseMessage N (buf.drop (search N.pchMessageStart.toList buf) ++ more) := by
  have hsearch : search N.pchMessageStart.toList (buf ++ more) =
      search N.pchMessageStart.toList buf :=
    search_append (by simp; omega) more
  unfold parseStep
  dsimp only
  rw [hsearch, if_neg (by rw [List.length_append]; omega),
    List.drop_append_of_le_length (by omega)]

/-- A buffer in which no start string has a header after it keeps its last bytes, and these are all
that is needed of it. -/
theorem parseStep_append_of_short (N : NetParams) {buf : List UInt8}
    (hshort : buf.length - search N.pchMessageStart.toList buf < 24) (more : List UInt8) :
    parseStep N (buf ++ more) = parseStep N (buf.drop (buf.length - 24) ++ more) := by
  obtain ⟨rest, hrest⟩ : ∃ rest, buf.drop (buf.length - 24) = rest := ⟨_, rfl⟩
  rw [hrest]
  have hle := search_le N.pchMessageStart.toList buf
  have hk : buf.length - 24 ≤ search N.pchMessageStart.toList buf := by omega
  have hsearch := search_drop hk (by simp; omega) more
  rw [hrest] at hsearch
  have hsplit : buf ++ more = buf.take (buf.length - 24) ++ (rest ++ more) := by
    rw [← hrest, ← List.append_assoc, List.take_append_drop]
  have hlen : (buf.take (buf.length - 24)).length = buf.length - 24 := by
    rw [List.length_take]
    omega
  have hdrop : ∀ n, (buf ++ more).drop (buf.length - 24 + n) = (rest ++ more).drop n := by
    intro n
    rw [hsplit, ← List.drop_drop, List.drop_left' hlen]
  have htotal : (buf ++ more).length = buf.length - 24 + (rest ++ more).length := by
    rw [hsplit, List.length_append, hlen]
  have hrestLen : buf.length - 24 = 0 ∨ 24 ≤ (rest ++ more).length := by
    rw [← hrest, List.length_append, List.length_drop]
    omega
  unfold parseStep
  dsimp only
  rw [hsearch, htotal, Nat.add_sub_add_left, hdrop]
  split_ifs
  · -- still too short: the same last bytes are kept
    rcases hrestLen with hzero | hge
    · rw [hzero, Nat.zero_add] at htotal ⊢
      have hbuf := hdrop 0
      rw [hzero, Nat.zero_add, List.drop_zero, List.drop_zero] at hbuf
      rw [hbuf]
    · rw [Nat.add_sub_assoc hge, hdrop]
  · rfl

/-- What a step does with a buffer, and what it does when there is more behind it. -/
theorem parseStep_append_cases (N : NetParams) (buf more : List UInt8) :
    (∃ rest, parseStep N buf = .wait rest ∧
      parseStep N (buf ++ more) = parseStep N (rest ++ more)) ∨
    (∃ rest, parseStep N buf = .skip rest ∧ parseStep N (buf ++ more) = .skip (rest ++ more)) ∨
    ∃ m rest, parseStep N buf = .emit m rest ∧
      parseStep N (buf ++ more) = .emit m (rest ++ more) := by
  by_cases hshort : buf.length - search N.pchMessageStart.toList buf < 24
  · refine .inl ⟨_, ?_, parseStep_append_of_short N hshort more⟩
    unfold parseStep
    exact if_pos hshort
  · obtain ⟨start, hstart⟩ : ∃ start, buf.drop (search N.pchMessageStart.toList buf) = start :=
      ⟨_, rfl⟩
    have hlen : 24 ≤ start.length := by
      rw [← hstart, List.length_drop]
      omega
    have hstep : parseStep N buf = parseMessage N start := by
      rw [← hstart]
      unfold parseStep
      exact if_neg hshort
    rw [hstep, parseStep_append_of_found N (by omega) more, hstart]
    rcases parseMessage_append N hlen more with hwait | hskip | hemit
    · -- the payload is not complete, and the start string is at the front of what is kept
      have hsearch : search N.pchMessageStart.toList start = 0 := by
        rw [← hstart]
        exact search_of_prefix (search_at (by omega))
      refine .inl ⟨start, hwait, ?_⟩
      rw [parseStep_append_of_found N (by omega) more, hsearch, List.drop_zero]
    · exact .inr (.inl hskip)
    · exact .inr (.inr hemit)

/-- **The step of `ProcessMessages` is stable**, so that a stream can be cut anywhere. -/
theorem stable_parseStep (N : NetParams) : Stable (parseStep N) where
  wait {buf rest} hstep more := by
    rcases parseStep_append_cases N buf more with
      ⟨rest', hwait, hmore⟩ | ⟨_, hskip, -⟩ | ⟨_, _, hemit, -⟩
    · obtain rfl : rest = rest' := Step.wait.inj (hstep.symm.trans hwait)
      exact hmore
    · cases hstep.symm.trans hskip
    · cases hstep.symm.trans hemit
  skip {buf rest} hstep more := by
    rcases parseStep_append_cases N buf more with
      ⟨_, hwait, -⟩ | ⟨rest', hskip, hmore⟩ | ⟨_, _, hemit, -⟩
    · cases hstep.symm.trans hwait
    · obtain rfl : rest = rest' := Step.skip.inj (hstep.symm.trans hskip)
      exact hmore
    · cases hstep.symm.trans hemit
  emit {buf rest m} hstep more := by
    rcases parseStep_append_cases N buf more with
      ⟨_, hwait, -⟩ | ⟨_, hskip, -⟩ | ⟨m', rest', hemit, hmore⟩
    · cases hstep.symm.trans hwait
    · cases hstep.symm.trans hskip
    · obtain ⟨rfl, rfl⟩ := Step.emit.inj (hstep.symm.trans hemit)
      exact hmore

/-! ## The loop parses the stream -/

/-- What is done with a message takes at least its header. -/
theorem parseMessage_shorter {buf rest : List UInt8} (h : 24 ≤ buf.length) :
    (parseMessage N buf = .skip rest → rest.length < buf.length) ∧
      ∀ m, parseMessage N buf = .emit m rest → rest.length < buf.length := by
  unfold parseMessage
  dsimp only
  have hdrop : (buf.drop 24).length < buf.length := by
    rw [List.length_drop]
    omega
  refine ⟨fun hstep => ?_, fun m hstep => ?_⟩
  · split_ifs at hstep
    all_goals
      rw [Step.skip.injEq] at hstep
      rwa [← hstep]
  · split_ifs at hstep
    rw [Step.emit.injEq] at hstep
    rw [← hstep.2, List.length_drop]
    omega

/-- A step that does not wait takes bytes from the buffer. -/
theorem parseStep_shorter {buf rest : List UInt8} :
    (parseStep N buf = .skip rest → rest.length < buf.length) ∧
      ∀ m, parseStep N buf = .emit m rest → rest.length < buf.length := by
  unfold parseStep
  dsimp only
  split_ifs with hshort
  · constructor
    · intro h
      cases h
    · intro m h
      cases h
  · have hlen : 24 ≤ (buf.drop (search N.pchMessageStart.toList buf)).length := by
      rw [List.length_drop]
      omega
    have hle : (buf.drop (search N.pchMessageStart.toList buf)).length ≤ buf.length := by
      rw [List.length_drop]
      omega
    obtain ⟨hskip, hemit⟩ := @parseMessage_shorter N _ rest hlen
    exact ⟨fun h => (hskip h).trans_le hle, fun m h => (hemit m h).trans_le hle⟩

/-- The loop parses the unread bytes. -/
theorem receiveLoop_parses (N : NetParams) {fuel : ℕ} {s : CDataStream} (h : s.Sound)
    (hfuel : s.content.length < fuel) : ∃ ms s', receiveLoop N fuel s = some (ms, s') ∧ s'.Sound ∧
      Parses (parseStep N) s.content ms s'.content := by
  induction fuel generalizing s with
  | zero => omega
  | succ fuel ih =>
    obtain ⟨round, hround, his⟩ := receiveRound_is N h
    rw [receiveLoop, hround]
    cases hstep : parseStep N s.content with
    | wait rest =>
      rw [hstep] at his
      cases round with
      | done s' => exact ⟨[], s', rfl, his.2, .wait (his.1 ▸ hstep)⟩
      | next s' => exact his.elim
      | dispatch m s' => exact his.elim
    | skip rest =>
      rw [hstep] at his
      cases round with
      | done s' => exact his.elim
      | next s' =>
        obtain ⟨hcontent, hsound⟩ := his
        have hlt := parseStep_shorter.1 hstep
        obtain ⟨ms, s'', hloop, hsound'', hparses⟩ := ih hsound (by rw [hcontent]; omega)
        rw [hcontent] at hparses
        exact ⟨ms, s'', hloop, hsound'', .skip hstep hparses⟩
      | dispatch m s' => exact his.elim
    | emit m rest =>
      rw [hstep] at his
      cases round with
      | done s' => exact his.elim
      | next s' => exact his.elim
      | dispatch m' s' =>
        obtain ⟨rfl, hcontent, hsound⟩ := his
        have hlt := parseStep_shorter.2 m' hstep
        obtain ⟨ms, s'', hloop, hsound'', hparses⟩ := ih hsound (by rw [hcontent]; omega)
        rw [hcontent] at hparses
        refine ⟨m' :: ms, s'', ?_, hsound'', .emit hstep hparses⟩
        show (receiveLoop N fuel s').map _ = _
        rw [hloop]
        rfl

/-- **`ProcessMessages` parses the unread bytes.** -/
theorem processMessages_parses (N : NetParams) {s : CDataStream} (h : s.Sound) :
    ∃ ms s', processMessages N s = some (ms, s') ∧ s'.Sound ∧
      Parses (parseStep N) s.content ms s'.content := by
  unfold processMessages
  split_ifs with hempty
  · refine ⟨[], s, rfl, h, .wait ?_⟩
    rw [s.size_eq] at hempty
    rw [List.length_eq_zero_iff.mp hempty]
    rfl
  · obtain ⟨ms, s', hloop, hsound, hparses⟩ := receiveLoop_parses N h
      (show s.content.length < s.size + 1 by rw [s.size_eq]; omega)
    refine ⟨ms, s'.compact, by rw [hloop]; rfl, Nat.zero_le _, ?_⟩
    exact hparses

/-- A stream that arrives in chunks is parsed chunk by chunk. -/
theorem receive_receives (N : NetParams) (chunks : List (List UInt8)) {s : CDataStream}
    (h : s.Sound) : ∃ ms s', receive N chunks s = some (ms, s') ∧
      Receives (parseStep N) s.content chunks ms s'.content := by
  induction chunks generalizing s with
  | nil => exact ⟨[], s, rfl, .nil⟩
  | cons chunk chunks ih =>
    obtain ⟨hcontent, hsound⟩ := CDataStream.content_append h chunk
    obtain ⟨ms, s', hprocess, hsound', hparses⟩ := processMessages_parses N hsound
    obtain ⟨ms', s'', hreceive, hreceives⟩ := ih hsound'
    rw [hcontent] at hparses
    refine ⟨ms ++ ms', s'', ?_, .cons hparses hreceives⟩
    rw [receive, hprocess, Option.bind_some, hreceive, Option.map_some]

/-- **The messages of a stream are those that parsing it at once gives.** -/
theorem exists_dispatched (N : NetParams) (chunks : List (List UInt8)) :
    ∃ ms rest, dispatched N chunks = some ms ∧ Parses (parseStep N) chunks.flatten ms rest := by
  obtain ⟨ms, s', hreceive, hreceives⟩ := receive_receives N chunks (s := ⟨[], 0⟩) (Nat.zero_le _)
  refine ⟨ms, s'.content, by rw [dispatched, hreceive]; rfl, ?_⟩
  exact hreceives.parses (stable_parseStep N) (.wait rfl)

/-! ## Messages that are sent -/

/-- A message with a command that fits the header and is printable, and a payload that is not too
large. -/
structure NetMessage.Sendable (m : NetMessage) : Prop where
  command_length : m.strCommand.length ≤ 12
  command : ∀ c ∈ m.strCommand, 32 ≤ c ∧ c ≤ 126
  size : m.vMsg.length ≤ maxSize

/-- The bytes of a message. -/
def NetMessage.encode (N : NetParams) (m : NetMessage) : List UInt8 :=
  { CMessageHeader.new N m.strCommand m.vMsg.length with nChecksum := checksum N m.vMsg }.serialize ++
    m.vMsg

theorem NetMessage.Sendable.ne_zero {m : NetMessage} (h : m.Sendable) : ∀ c ∈ m.strCommand, c ≠ 0 := by
  rintro c hc rfl
  have := (h.command 0 hc).1
  exact absurd this (by decide)

/-- The zeros after a command end it. -/
theorem takeWhile_padded {cmd : List UInt8} (hne : ∀ c ∈ cmd, c ≠ 0) (n : ℕ) :
    (cmd ++ List.replicate n 0).takeWhile (· ≠ 0) = cmd := by
  rw [List.takeWhile_append_of_pos fun c hc => decide_eq_true (hne c hc), List.takeWhile_replicate]
  simp

/-- A command that fits the header is padded with zeros. -/
theorem copyCommand_eq {cmd : List UInt8} (hlen : cmd.length ≤ 12) (hne : ∀ c ∈ cmd, c ≠ 0) :
    copyCommand cmd = cmd ++ List.replicate (12 - cmd.length) 0 := by
  have htake := takeWhile_padded hne 0
  rw [List.replicate_zero, List.append_nil] at htake
  rw [copyCommand, htake, List.take_append, List.take_of_length_le hlen, List.take_replicate,
    min_eq_left (by omega)]

theorem length_copyCommand (cmd : List UInt8) : (copyCommand cmd).length = 12 := by
  rw [copyCommand, List.length_take, List.length_append, List.length_replicate]
  omega

/-- A padded command is valid. -/
theorem isValidCommand_padded {cmd : List UInt8} (h : ∀ c ∈ cmd, 32 ≤ c ∧ c ≤ 126) (n : ℕ) :
    CMessageHeader.isValidCommand (cmd ++ List.replicate n 0) = true := by
  induction cmd with
  | nil =>
    cases n with
    | zero => rfl
    | succ n =>
      rw [List.nil_append, List.replicate_succ, CMessageHeader.isValidCommand, if_pos rfl,
        List.all_eq_true]
      exact fun c hc => decide_eq_true (List.eq_of_mem_replicate hc)
  | cons c cmd ih =>
    obtain ⟨⟨hlow, hhigh⟩, hrest⟩ := List.forall_mem_cons.mp h
    have hzero : c ≠ 0 := by
      rintro rfl
      exact absurd hlow (by decide)
    rw [List.cons_append, CMessageHeader.isValidCommand, if_neg hzero,
      if_neg (not_or.mpr ⟨UInt8.not_lt.mpr hlow, UInt8.not_lt.mpr hhigh⟩)]
    exact ih hrest

/-- The command is got back from its padded form. -/
theorem getCommand_padded {hdr : CMessageHeader} {cmd : List UInt8} (hne : ∀ c ∈ cmd, c ≠ 0)
    (hcmd : hdr.pchCommand = cmd ++ List.replicate (12 - cmd.length) 0) :
    hdr.getCommand = cmd := by
  rw [CMessageHeader.getCommand, hcmd]
  split_ifs with hlast
  · exact takeWhile_padded hne _
  · -- only a command of twelve bytes does not end in a zero
    cases hn : 12 - cmd.length with
    | zero => simp
    | succ n =>
      rw [hn] at hlast
      exact absurd (by simp [List.replicate_succ']) hlast

theorem length_header (N : NetParams) (m : NetMessage) (n k : ℕ) :
    ({ CMessageHeader.new N m.strCommand n with nChecksum := k } : CMessageHeader).serialize.length =
      24 := by
  simp [CMessageHeader.serialize, CMessageHeader.new, length_copyCommand]

/-- **A message is parsed as it was sent.** -/
theorem parseStep_encode {m : NetMessage} (h : m.Sendable) (more : List UInt8) :
    parseStep N (m.encode N ++ more) = .emit m more := by
  have hsize : m.vMsg.length < 256 ^ 4 := h.size.trans_lt (by decide)
  have hsum : checksum N m.vMsg < 256 ^ 4 := Nat.mod_lt _ (by norm_num)
  have hheader : headerOf (m.encode N ++ more) =
      { CMessageHeader.new N m.strCommand m.vMsg.length with nChecksum := checksum N m.vMsg } := by
    have hbytes : m.encode N ++ more = N.pchMessageStart.toList ++ (copyCommand m.strCommand ++
        (leBytes 4 m.vMsg.length ++ (leBytes 4 (checksum N m.vMsg) ++ (m.vMsg ++ more)))) := by
      simp [NetMessage.encode, CMessageHeader.serialize, CMessageHeader.new]
    have hstart : N.pchMessageStart.toList.length = 4 := by simp
    have hcmd := length_copyCommand m.strCommand
    have hlen₁ := leBytes_length 4 m.vMsg.length
    have hlen₂ := leBytes_length 4 (checksum N m.vMsg)
    rw [headerOf, hbytes, List.take_left' hstart, List.drop_left' hstart, List.take_left' hcmd,
      show 16 = 4 + 12 by rfl, ← List.drop_drop, List.drop_left' hstart, List.drop_left' hcmd,
      List.take_left' hlen₁, show 20 = 4 + 12 + 4 by rfl, ← List.drop_drop, ← List.drop_drop,
      List.drop_left' hstart, List.drop_left' hcmd, List.drop_left' hlen₁, List.take_left' hlen₂,
      ofLeBytes_leBytes, ofLeBytes_leBytes, Nat.mod_eq_of_lt hsize, Nat.mod_eq_of_lt hsum]
    rfl
  have hrest : (m.encode N ++ more).drop 24 = m.vMsg ++ more := by
    rw [NetMessage.encode, List.append_assoc]
    exact List.drop_left' (length_header N m _ _)
  have hsearch : search N.pchMessageStart.toList (m.encode N ++ more) = 0 := by
    refine search_of_prefix ?_
    simp [NetMessage.encode, CMessageHeader.serialize, CMessageHeader.new]
  have hlen : ¬(m.encode N ++ more).length - 0 < 24 := by
    rw [NetMessage.encode, List.length_append, List.length_append, length_header]
    omega
  have hcmd := copyCommand_eq h.command_length h.ne_zero
  have hvalid : ({ CMessageHeader.new N m.strCommand m.vMsg.length with
      nChecksum := checksum N m.vMsg } : CMessageHeader).isValid N = true := by
    have hcommand := isValidCommand_padded h.command (12 - m.strCommand.length)
    rw [← hcmd] at hcommand
    simp [CMessageHeader.isValid, CMessageHeader.new, hcommand, h.size]
  have hget : ({ CMessageHeader.new N m.strCommand m.vMsg.length with
      nChecksum := checksum N m.vMsg } : CMessageHeader).getCommand = m.strCommand :=
    getCommand_padded h.ne_zero hcmd
  unfold parseStep
  dsimp only
  rw [hsearch, if_neg hlen, List.drop_zero]
  unfold parseMessage
  dsimp only
  rw [hheader, hrest, hvalid, hget]
  simp [CMessageHeader.new, h.size.not_gt]

/-! ## What the calls build -/

/-- What a call means: the messages that are complete, and the one that is being built. -/
def builtBy : List NetMessage × Option NetMessage → SendCall → List NetMessage × Option NetMessage
  | (done, _), .beginMessage pszCommand => (done, some ⟨pszCommand, []⟩)
  | (done, cur), .write bytes => (done, cur.map fun m => { m with vMsg := m.vMsg ++ bytes })
  | (done, cur), .endMessage fDrop => (if fDrop then done else done ++ cur.toList, none)
  | (done, _), .abortMessage => (done, none)

/-- The messages that a sequence of calls sends: those that are ended and not dropped. -/
def messagesOf (calls : List SendCall) : List NetMessage := (calls.foldl builtBy ([], none)).1

/-- Objects are written between `BeginMessage` and `EndMessage` or `AbortMessage` only. -/
def Framed : Bool → List SendCall → Prop
  | _, [] => True
  | _, .beginMessage _ :: calls => Framed true calls
  | fOpen, .write _ :: calls => fOpen = true ∧ Framed fOpen calls
  | _, .endMessage _ :: calls => Framed false calls
  | _, .abortMessage :: calls => Framed false calls

/-- The send buffer has the messages that are complete, and then the one that is being built. -/
def CNodeSend.Holds (N : NetParams) (node : CNodeSend) (built : List NetMessage × Option NetMessage) :
    Prop :=
  let sent := built.1.flatMap (NetMessage.encode N)
  match built.2 with
  | none => node = ⟨sent, none, none⟩
  | some m => node = ⟨sent ++ ((CMessageHeader.new N m.strCommand 0).serialize ++ m.vMsg),
      some sent.length, some (sent.length + 24)⟩

theorem CNodeSend.overwrite_append {a x b y : List UInt8} {n : ℕ} (hn : a.length = n)
    (hlen : x.length = y.length) : overwrite (a ++ (x ++ b)) n y = a ++ (y ++ b) := by
  rw [overwrite, List.take_left' hn, ← List.drop_drop, List.drop_left' hn, ← hlen, List.drop_left,
    List.append_assoc]

/-- Aborting leaves the messages that are complete. -/
theorem CNodeSend.Holds.abortMessage {node : CNodeSend} {built : List NetMessage × Option NetMessage}
    (h : node.Holds N built) : node.abortMessage.Holds N (built.1, none) := by
  obtain ⟨done, cur⟩ := built
  cases cur with
  | none =>
    obtain rfl : node = _ := h
    rfl
  | some m =>
    obtain rfl : node = _ := h
    simp [CNodeSend.abortMessage, CNodeSend.Holds]

/-- Ending completes the message. -/
theorem CNodeSend.Holds.endMessage {node : CNodeSend} {done : List NetMessage} {m : NetMessage}
    (h : node.Holds N (done, some m)) : (node.endMessage N false).Holds N (done ++ [m], none) := by
  obtain rfl : node = _ := h
  have hsize : ∀ sent : List UInt8,
      (sent ++ ((CMessageHeader.new N m.strCommand 0).serialize ++ m.vMsg)).length -
        (sent.length + 24) = m.vMsg.length := by
    intro sent
    have hheader := length_header N m 0 0
    rw [List.length_append, List.length_append]
    change _ + ((CMessageHeader.new N m.strCommand 0).serialize.length + _) - _ = _
    rw [show (CMessageHeader.new N m.strCommand 0).serialize.length = 24 from hheader]
    omega
  have hencode : (done ++ [m]).flatMap (NetMessage.encode N) =
      done.flatMap (NetMessage.encode N) ++ m.encode N := by
    rw [List.flatMap_append, List.flatMap_singleton]
  dsimp only [CNodeSend.endMessage, CNodeSend.Holds]
  rw [if_neg (by simp), hsize, hencode]
  generalize done.flatMap (NetMessage.encode N) = sent
  -- the size and the checksum are written over the zeros of the header
  have hlen : (sent ++ (N.pchMessageStart.toList ++ copyCommand m.strCommand)).length =
      sent.length + 16 := by
    simp [length_copyCommand]
  have hbytes : ∀ n k : ℕ, sent ++
      (({ CMessageHeader.new N m.strCommand n with nChecksum := k } : CMessageHeader).serialize ++
        m.vMsg) = sent ++ (N.pchMessageStart.toList ++ copyCommand m.strCommand) ++
          (leBytes 4 n ++ (leBytes 4 k ++ m.vMsg)) := by
    intro n k
    simp [CMessageHeader.serialize, CMessageHeader.new]
  have hfirst : overwrite (sent ++ ((CMessageHeader.new N m.strCommand 0).serialize ++ m.vMsg))
      (sent.length + 16) (leBytes 4 m.vMsg.length) =
        sent ++ (N.pchMessageStart.toList ++ copyCommand m.strCommand) ++
          (leBytes 4 m.vMsg.length ++ (leBytes 4 0 ++ m.vMsg)) :=
    (congrArg (overwrite · _ _) (hbytes 0 0)).trans (overwrite_append hlen (by simp))
  have hpayload : (sent ++ (N.pchMessageStart.toList ++ copyCommand m.strCommand) ++
      (leBytes 4 m.vMsg.length ++ (leBytes 4 0 ++ m.vMsg))).drop (sent.length + 24) = m.vMsg := by
    rw [show sent.length + 24 = sent.length + 16 + (4 + 4) by rfl, ← List.drop_drop,
      List.drop_left' hlen, ← List.drop_drop, List.drop_left' (leBytes_length 4 _),
      List.drop_left' (leBytes_length 4 _)]
  rw [hfirst, hpayload, ← List.append_assoc _ (leBytes 4 m.vMsg.length),
    overwrite_append (by rw [List.length_append, hlen, leBytes_length]) (by simp), List.append_assoc,
    ← hbytes]
  rfl

/-- Every call does what it means. -/
theorem CNodeSend.Holds.call {node : CNodeSend} {built : List NetMessage × Option NetMessage}
    (h : node.Holds N built) {c : SendCall} (hframed : ∀ bytes, c = .write bytes → built.2.isSome) :
    (node.call N c).Holds N (builtBy built c) := by
  obtain ⟨done, cur⟩ := built
  cases c with
  | beginMessage pszCommand =>
    obtain hnode : node.abortMessage = _ := h.abortMessage
    simp [CNodeSend.call, CNodeSend.beginMessage, hnode, builtBy, Holds,
      show (CMessageHeader.new N pszCommand 0).serialize.length = 24 from
        length_header N ⟨pszCommand, []⟩ 0 0]
  | write bytes =>
    cases cur with
    | none => exact absurd (hframed bytes rfl) (by simp)
    | some m =>
      obtain rfl : node = _ := h
      simp [CNodeSend.call, CNodeSend.write, builtBy, Holds]
  | endMessage fDrop =>
    cases fDrop with
    | true => exact h.abortMessage
    | false =>
      cases cur with
      | none =>
        obtain rfl : node = _ := h
        simp [CNodeSend.call, CNodeSend.endMessage, builtBy, Holds]
      | some m => exact h.endMessage
  | abortMessage => exact h.abortMessage

/-- **The send buffer has the messages that are sent**, and what may go to the socket is their
bytes. -/
theorem complete_sendAll (N : NetParams) {calls : List SendCall} (h : Framed false calls) :
    (sendAll N calls).complete = (messagesOf calls).flatMap (NetMessage.encode N) := by
  have hrun : ∀ (calls : List SendCall) (node : CNodeSend)
      (built : List NetMessage × Option NetMessage), Framed built.2.isSome calls →
        node.Holds N built → (calls.foldl (CNodeSend.call N) node).Holds N (calls.foldl builtBy built) := by
    intro calls
    induction calls with
    | nil => exact fun _ _ _ hholds => hholds
    | cons c calls ih =>
      intro node built hframed hholds
      obtain ⟨done, cur⟩ := built
      rw [List.foldl_cons, List.foldl_cons]
      cases c with
      | beginMessage pszCommand =>
        exact ih _ _ hframed (hholds.call fun bytes heq => by cases heq)
      | write bytes =>
        refine ih _ _ ?_ (hholds.call fun _ _ => hframed.1)
        show Framed (Option.map _ cur).isSome calls
        rw [Option.isSome_map]
        exact hframed.2
      | endMessage fDrop => exact ih _ _ hframed (hholds.call fun bytes heq => by cases heq)
      | abortMessage => exact ih _ _ hframed (hholds.call fun bytes heq => by cases heq)
  have hholds : (sendAll N calls).Holds N (calls.foldl builtBy ([], none)) :=
    hrun calls _ ([], none) h rfl
  rw [messagesOf]
  generalize sendAll N calls = node at hholds
  generalize calls.foldl builtBy ([], none) = built at hholds
  obtain ⟨done, cur⟩ := built
  cases cur with
  | none =>
    obtain rfl : node = _ := hholds
    simp [CNodeSend.complete]
  | some m =>
    obtain rfl : node = _ := hholds
    simp [CNodeSend.complete]

/-! ## From one node to the other -/

/-- The bytes of messages are parsed as the messages. -/
theorem parses_encode (N : NetParams) {ms : List NetMessage} (h : ∀ m ∈ ms, m.Sendable) :
    Parses (parseStep N) (ms.flatMap (NetMessage.encode N)) ms [] := by
  induction ms with
  | nil => exact .wait rfl
  | cons m ms ih =>
    obtain ⟨hm, hms⟩ := List.forall_mem_cons.mp h
    rw [List.flatMap_cons]
    exact .emit (parseStep_encode hm _) (ih hms)

/-- **The chunks of a stream do not matter, and messages arrive in order.** -/
theorem dispatched_of_flatten (N : NetParams) {chunks chunks' : List (List UInt8)}
    (h : chunks.flatten = chunks'.flatten) :
    (dispatched N chunks).isSome ∧ dispatched N chunks = dispatched N chunks' ∧
      ∀ calls, Framed false calls → (∀ m ∈ messagesOf calls, m.Sendable) →
        chunks.flatten = (sendAll N calls).complete → dispatched N chunks = some (messagesOf calls) := by
  obtain ⟨ms, rest, hms, hparses⟩ := exists_dispatched N chunks
  obtain ⟨ms', rest', hms', hparses'⟩ := exists_dispatched N chunks'
  rw [← h] at hparses'
  refine ⟨by rw [hms]; rfl, by rw [hms, hms', (hparses.unique hparses').1],
    fun calls hframed hsendable hbytes => ?_⟩
  rw [hbytes, complete_sendAll N hframed] at hparses
  rw [hms, (hparses.unique (parses_encode N hsendable)).1]

/-- A network whose hash is the number of bytes. -/
def exampleNet : NetParams := ⟨⟨#[0xfc, 0xd9, 0xb7, 0xdd], rfl⟩, List.length⟩

/-- A `ping` with two bytes, cut in the header. -/
theorem dispatched_examplePing :
    let calls : List SendCall :=
      [.beginMessage [0x70, 0x69, 0x6e, 0x67], .write [1, 2], .endMessage false]
    let bytes := (sendAll exampleNet calls).complete
    (dispatched exampleNet [bytes]).isSome ∧
      dispatched exampleNet [bytes] = dispatched exampleNet [bytes.take 9, bytes.drop 9] ∧
      dispatched exampleNet [bytes] = some [⟨[0x70, 0x69, 0x6e, 0x67], [1, 2]⟩] := by
  intro calls bytes
  have hflatten : [bytes].flatten = [bytes.take 9, bytes.drop 9].flatten := by simp
  obtain ⟨hsome, hcut, hsent⟩ := dispatched_of_flatten exampleNet hflatten
  refine ⟨hsome, hcut, hsent calls ⟨rfl, trivial⟩ ?_ (by simp [bytes])⟩
  intro m hm
  obtain rfl : m = ⟨[0x70, 0x69, 0x6e, 0x67], [1, 2]⟩ := by simpa [calls, messagesOf, builtBy] using hm
  exact ⟨by decide, by simp, by decide⟩

/-- A command of thirteen letters arrives without the last one. -/
theorem not_forall_dispatched_sendAll : ¬ ∀ (N : NetParams) (calls : List SendCall),
    Framed false calls → dispatched N [(sendAll N calls).complete] = some (messagesOf calls) := by
  intro h
  have hsent := h exampleNet [.beginMessage (List.replicate 13 0x61), .endMessage false] trivial
  revert hsent
  decide +kernel

end FoxCoin
