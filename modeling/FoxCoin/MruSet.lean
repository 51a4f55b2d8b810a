import FoxCoin.Lib.Recent

/-! # Sets of the most recent elements

`mruset` is a set with a limit: a queue holds its elements in the order in which they came, and the
oldest make room for new ones. It is what a log of the new elements says, of which the last entries
are kept. -/

namespace FoxCoin

open Recent

variable {T : Type} [DecidableEq T]

/-! ## The code -/

/-- `mruset<T>`: `set`, `queue` from its front, and `nMaxSize`, which is zero without a limit. -/
structure MruSet (T : Type) [DecidableEq T] where
  set : Finset T
  queue : List T
  nMaxSize : ℕ

namespace MruSet

/-- The constructor. -/
def new (nMaxSizeIn : ℕ) : MruSet T := ⟨∅, [], nMaxSizeIn⟩

/-- `set.erase(queue.front())` and `queue.pop_front()`, for a queue that is not empty. -/
def popFront (m : MruSet T) : MruSet T :=
  match m.queue with
  | [] => m
  | x :: queue => { m with set := m.set.erase x, queue }

/-- `insert`, with whether the element is new. -/
def insert (m : MruSet T) (x : T) : MruSet T × Bool :=
  if x ∈ m.set then (m, false)
  else
    let m := { m with set := Insert.insert x m.set }
    let m := if m.nMaxSize ≠ 0 ∧ m.queue.length = m.nMaxSize then m.popFront else m
    ({ m with queue := m.queue ++ [x] }, true)

/-- The loop of `max_size`, for at most as many rounds as the queue has elements. -/
def shrink (s : ℕ) : ℕ → MruSet T → MruSet T
  | 0, m => m
  | nFuel + 1, m => if s < m.queue.length then shrink s nFuel m.popFront else m

/-- `max_size(s)`. -/
def maxSize (m : MruSet T) (s : ℕ) : MruSet T :=
  let m := if s ≠ 0 then m.shrink s m.queue.length else m
  { m with nMaxSize := s }

end MruSet

/-- A call that changes the set. -/
inductive MruCall (T : Type) where
  | insert (x : T)
  | maxSize (s : ℕ)

/-- The set after a call. -/
def MruSet.call (m : MruSet T) : MruCall T → MruSet T
  | .insert x => (m.insert x).1
  | .maxSize s => m.maxSize s

/-- The set after some calls. -/
def MruSet.run (m : MruSet T) (calls : List (MruCall T)) : MruSet T := calls.foldl MruSet.call m

/-- The elements that `insert` reported as new, in the order of the calls. -/
def MruSet.newlyInserted (m : MruSet T) : List (MruCall T) → List T
  | [] => []
  | .insert x :: calls =>
    if (m.insert x).2 then x :: (m.insert x).1.newlyInserted calls
    else (m.insert x).1.newlyInserted calls
  | .maxSize s :: calls => (m.maxSize s).newlyInserted calls

/-! ## What it is for -/

/-- A log of new elements, of which the last `kept` are remembered, and a limit for their number. -/
structure RecentLog (T : Type) where
  log : List T
  kept : ℕ
  limit : ℕ

namespace RecentLog

/-- What is remembered. -/
def recent (r : RecentLog T) : List T := r.log.rtake r.kept

/-- An element that is not remembered is logged, and remembered with as many of those before it as
the limit allows. -/
def insert (r : RecentLog T) (x : T) : RecentLog T :=
  if x ∈ r.recent then r
  else
    { r with
      log := r.log ++ [x]
      kept := if r.limit = 0 then r.kept + 1 else min (r.kept + 1) r.limit }

theorem insert_log (r : RecentLog T) (x : T) :
    (r.insert x).log = if x ∈ r.recent then r.log else r.log ++ [x] := by
  rw [insert]
  split_ifs <;> rfl

/-- A new limit, which is none if it is zero. -/
def setLimit (r : RecentLog T) (s : ℕ) : RecentLog T :=
  { r with kept := if s = 0 then r.kept else min r.kept s, limit := s }

/-- The log after a call. -/
def call (r : RecentLog T) : MruCall T → RecentLog T
  | .insert x => r.insert x
  | .maxSize s => r.setLimit s

end RecentLog

/-- A set is what a log says. -/
structure MruSet.Refines (m : MruSet T) (r : RecentLog T) : Prop where
  set : m.set = m.queue.toFinset
  nodup : m.queue.Nodup
  queue : m.queue = r.recent
  limit : m.nMaxSize = r.limit
  kept_le : r.kept ≤ r.log.length
  limited : r.limit ≠ 0 → r.kept ≤ r.limit

variable {m : MruSet T} {r : RecentLog T} {x : T}

theorem MruSet.Refines.length_queue (h : m.Refines r) : m.queue.length = r.kept := by
  rw [h.queue, RecentLog.recent, length_rtake, min_eq_left h.kept_le]

theorem MruSet.Refines.mem_set (h : m.Refines r) : x ∈ m.set ↔ x ∈ r.recent := by
  rw [h.set, List.mem_toFinset, h.queue]

theorem MruSet.refines_new (nMaxSizeIn : ℕ) :
    (MruSet.new nMaxSizeIn : MruSet T).Refines ⟨[], 0, nMaxSizeIn⟩ where
  set := rfl
  nodup := List.nodup_nil
  queue := rfl
  limit := rfl
  kept_le := le_rfl
  limited := fun _ => Nat.zero_le _

theorem MruSet.popFront_queue (m : MruSet T) : m.popFront.queue = m.queue.tail := by
  rw [MruSet.popFront]
  split
  next hqueue => rw [hqueue, List.tail_nil]
  next hqueue => rw [hqueue, List.tail_cons]

/-- The oldest element is forgotten. -/
theorem MruSet.Refines.popFront {k : ℕ} (h : m.Refines r) (hk : r.kept = k + 1) :
    m.popFront.Refines { r with kept := k } := by
  have hlen := h.length_queue
  have hle := h.kept_le
  have hqueue := h.queue
  have hset := h.set
  have hnodup := h.nodup
  rw [hk] at hlen hle
  cases hcons : m.queue with
  | nil =>
    rw [hcons] at hlen
    cases hlen
  | cons y queue =>
    rw [hcons] at hset hnodup hqueue
    -- the front of the queue is in the set once, and it is the oldest of the kept entries
    obtain ⟨hnot, hnodup⟩ := List.nodup_cons.mp hnodup
    have hpop : m.popFront = { m with set := m.set.erase y, queue } := by rw [MruSet.popFront, hcons]
    rw [hpop]
    refine ⟨?_, hnodup, ?_, h.limit, Nat.le_of_succ_le hle, fun hlimit => ?_⟩
    · show m.set.erase y = queue.toFinset
      rw [hset, List.toFinset_cons, Finset.erase_insert (by simpa using hnot)]
    · show queue = r.log.rtake k
      rw [← tail_rtake hle, ← hk]
      exact congrArg List.tail hqueue
    · have := h.limited hlimit
      show k ≤ r.limit
      omega

/-- A new element comes to a set that has room for it. -/
theorem MruSet.Refines.pushBack {n : ℕ} (h : m.Refines r) (hnew : x ∉ m.queue)
    (hroom : r.limit ≠ 0 → r.kept < r.limit) (hn : n = r.kept + 1) :
    MruSet.Refines { m with set := Insert.insert x m.set, queue := m.queue ++ [x] }
      { r with log := r.log ++ [x], kept := n } := by
  subst hn
  refine ⟨?_, ?_, ?_, h.limit, ?_, hroom⟩
  · show Insert.insert x m.set = (m.queue ++ [x]).toFinset
    rw [h.set]
    ext y
    simp
  · exact List.nodup_append_comm.mp (List.nodup_cons.mpr ⟨hnew, h.nodup⟩)
  · show m.queue ++ [x] = (r.log ++ [x]).rtake (r.kept + 1)
    rw [List.rtake_concat_succ, h.queue, RecentLog.recent]
  · show r.kept + 1 ≤ (r.log ++ [x]).length
    have := h.kept_le
    rw [List.length_append, List.length_singleton]
    omega

/-- The oldest element may be erased before or after the new one is inserted. -/
theorem MruSet.popFront_insert (hnew : x ∉ m.queue) :
    MruSet.popFront { m with set := Insert.insert x m.set } =
      { m.popFront with set := Insert.insert x m.popFront.set } := by
  obtain ⟨set, queue, nMaxSize⟩ := m
  cases queue with
  | nil => rfl
  | cons y queue =>
    have hne : x ≠ y := List.ne_of_not_mem_cons hnew
    simp only [MruSet.popFront, Finset.erase_insert_of_ne hne]

/-- **An insertion** logs the element, and reports whether it did. -/
theorem MruSet.Refines.insert (h : m.Refines r) (x : T) :
    (m.insert x).1.Refines (r.insert x) ∧ ((m.insert x).2 = true ↔ x ∉ r.recent) := by
  rw [MruSet.insert, RecentLog.insert]
  by_cases hmem : x ∈ r.recent
  · rw [if_pos (h.mem_set.mpr hmem), if_pos hmem]
    exact ⟨h, by simp [hmem]⟩
  rw [if_neg (mt h.mem_set.mp hmem), if_neg hmem]
  refine ⟨?_, by simp [hmem]⟩
  have hnew : x ∉ m.queue := by
    rw [h.queue]
    exact hmem
  have hlen := h.length_queue
  dsimp only
  split_ifs with hfull hlimit hlimit
  · exact absurd (h.limit.trans hlimit) hfull.1
  · -- the queue is full, and the oldest element makes room
    rw [h.limit, hlen] at hfull
    obtain ⟨k, hk⟩ := Nat.exists_eq_succ_of_ne_zero (hfull.2 ▸ hlimit)
    have hnew' : x ∉ m.popFront.queue := by
      rw [MruSet.popFront_queue]
      exact fun hmem => hnew (List.mem_of_mem_tail hmem)
    rw [MruSet.popFront_insert hnew]
    exact (h.popFront hk).pushBack hnew' (fun _ => by show k < r.limit; omega)
      (by show min (r.kept + 1) r.limit = k + 1; omega)
  · exact h.pushBack hnew (fun hne => absurd hlimit hne) rfl
  · have hle := h.limited hlimit
    have hroom : r.kept < r.limit := by
      refine lt_of_le_of_ne hle fun heq => hfull ⟨?_, ?_⟩
      · rwa [h.limit]
      · rw [hlen, h.limit, heq]
    exact h.pushBack hnew (fun _ => hroom) (min_eq_left hroom)

/-- The loop forgets the oldest elements until the limit is kept. -/
theorem MruSet.Refines.shrink {s nFuel : ℕ} (h : m.Refines r) (hfuel : r.kept ≤ nFuel) :
    (m.shrink s nFuel).Refines { r with kept := min r.kept s } := by
  induction nFuel generalizing m r with
  | zero =>
    rw [show min r.kept s = r.kept by omega]
    exact h
  | succ nFuel ih =>
    rw [MruSet.shrink, h.length_queue]
    split_ifs with hlong
    · obtain ⟨k, hk⟩ := Nat.exists_eq_succ_of_ne_zero (Nat.ne_zero_of_lt hlong)
      rw [show min r.kept s = min k s by omega]
      exact ih (h.popFront hk) (by show k ≤ nFuel; omega)
    · rw [min_eq_left (not_lt.mp hlong)]
      exact h

/-- **A new limit** is kept at once. -/
theorem MruSet.Refines.maxSize (h : m.Refines r) (s : ℕ) :
    (m.maxSize s).Refines (r.setLimit s) := by
  rw [MruSet.maxSize, RecentLog.setLimit]
  by_cases hs : s = 0
  · subst hs
    exact ⟨h.set, h.nodup, h.queue, rfl, h.kept_le, fun hne => absurd rfl hne⟩
  · have hshrink := h.shrink (s := s) h.length_queue.ge
    rw [if_pos hs, if_neg hs]
    exact ⟨hshrink.set, hshrink.nodup, hshrink.queue, rfl, hshrink.kept_le,
      fun _ => min_le_right _ _⟩

theorem MruSet.Refines.call (h : m.Refines r) (c : MruCall T) : (m.call c).Refines (r.call c) := by
  cases c with
  | insert x => exact (h.insert x).1
  | maxSize s => exact h.maxSize s

/-- **A set refines its log** after any calls, and the log has the elements that were reported as
new. -/
theorem MruSet.Refines.run (h : m.Refines r) (calls : List (MruCall T)) :
    (m.run calls).Refines (calls.foldl RecentLog.call r) ∧
      (calls.foldl RecentLog.call r).log = r.log ++ m.newlyInserted calls := by
  induction calls generalizing m r with
  | nil => exact ⟨h, (List.append_nil _).symm⟩
  | cons c calls ih =>
    obtain ⟨hrun, hlog⟩ := ih (h.call c)
    refine ⟨hrun, hlog.trans ?_⟩
    cases c with
    | insert x =>
      have hnew := (h.insert x).2
      rw [MruSet.newlyInserted]
      show (r.insert x).log ++ (m.insert x).1.newlyInserted calls = _
      rw [RecentLog.insert_log]
      by_cases hmem : x ∈ r.recent
      · rw [if_pos hmem, if_neg fun hreported => hnew.mp hreported hmem]
      · rw [if_neg hmem, if_pos (hnew.mpr hmem), List.append_assoc, List.singleton_append]
    | maxSize s => rfl

/-- **`mruset` keeps the most recent new elements**: after any calls the set and the queue hold the
same elements, each once, no more than a limit that is not zero, and they are the last of those
that were newly inserted, as many as the limits so far leave. -/
theorem MruSet.run_keeps_recent (nMaxSizeIn : ℕ) (calls : List (MruCall T)) :
    let m : MruSet T := (MruSet.new nMaxSizeIn).run calls
    let r := calls.foldl RecentLog.call (⟨[], 0, nMaxSizeIn⟩ : RecentLog T)
    m.set = m.queue.toFinset ∧ m.queue.Nodup ∧ (m.nMaxSize ≠ 0 → m.set.card ≤ m.nMaxSize) ∧
      m.queue = ((MruSet.new nMaxSizeIn).newlyInserted calls).rtake r.kept ∧
        m.queue.length = r.kept ∧ m.nMaxSize = r.limit := by
  obtain ⟨h, hlog⟩ := (MruSet.refines_new (T := T) nMaxSizeIn).run calls
  rw [List.nil_append] at hlog
  refine ⟨h.set, h.nodup, fun hlimit => ?_, ?_, h.length_queue, h.limit⟩
  · rw [h.set, List.toFinset_card_of_nodup h.nodup, h.length_queue, h.limit]
    exact h.limited (h.limit ▸ hlimit)
  · rw [← hlog]
    exact h.queue

end FoxCoin
