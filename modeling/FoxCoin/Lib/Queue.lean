import Mathlib.Tactic

/-! # Queues

A queue of elements is written at its end and read from its front; elements may be inserted and
erased anywhere, and a queue may be rewound. A queue is often kept as a buffer with a position, the
elements before which are gone. -/

namespace Queue

variable {α : Type}

/-! ## Operations -/

/-- The operations. Places are counted from the front. -/
inductive Op (α : Type)
  | write (l : List α)
  | read (n : ℕ)
  | ignore (n : ℕ)
  | insertOne (p : ℕ) (x : α)
  | insertFill (p n : ℕ) (x : α)
  | insertRange (p : ℕ) (l : List α)
  | erase (p : ℕ)
  | eraseRange (p q : ℕ)
  | compact
  | rewind (n : ℕ)

/-- What an operation returns: nothing, the elements read, a place, or whether it succeeded. Or it
throws; or it has no defined meaning, as when it goes beyond the memory. -/
inductive Result (α : Type)
  | done
  | elements (l : List α)
  | place (p : ℕ)
  | flag (b : Bool)
  | thrown
  | undefined

/-- **What an operation does** to a queue: what it returns, and the queue after it. Reading past the
end throws and changes nothing. Rewinding either fails and changes nothing, or puts back as many
elements as it is asked for. -/
def Step : Op α → List α → Result α → List α → Prop
  | .write l, queue, r, queue' => r = .done ∧ queue' = queue ++ l
  | .read n, queue, r, queue' =>
    if n ≤ queue.length then r = .elements (queue.take n) ∧ queue' = queue.drop n
    else r = .thrown ∧ queue' = queue
  | .ignore n, queue, r, queue' =>
    if n ≤ queue.length then r = .done ∧ queue' = queue.drop n else r = .thrown ∧ queue' = queue
  | .insertOne p x, queue, r, queue' => r = .place p ∧ queue' = queue.take p ++ x :: queue.drop p
  | .insertFill p n x, queue, r, queue' =>
    r = .done ∧ queue' = queue.take p ++ List.replicate n x ++ queue.drop p
  | .insertRange p l, queue, r, queue' => r = .done ∧ queue' = queue.take p ++ l ++ queue.drop p
  | .erase p, queue, r, queue' => r = .place p ∧ queue' = queue.take p ++ queue.drop (p + 1)
  | .eraseRange p q, queue, r, queue' => r = .place p ∧ queue' = queue.take p ++ queue.drop q
  | .compact, queue, r, queue' => r = .done ∧ queue' = queue
  | .rewind n, queue, r, queue' =>
    (r = .flag false ∧ queue' = queue) ∨
      (r = .flag true ∧ ∃ l, l.length = n ∧ queue' = l ++ queue)

/-- What operations with their results make of a queue, one after the other. -/
inductive Run : List α → List (Op α × Result α) → List α → Prop
  | nil (queue : List α) : Run queue [] queue
  | cons {queue queue' queue'' : List α} {op : Op α} {r : Result α} {trace : List (Op α × Result α)}
      (hstep : Step op queue r queue') (hrun : Run queue' trace queue'') :
      Run queue ((op, r) :: trace) queue''

/-! ## Buffers with a position -/

variable {buf l : List α} {pos n : ℕ}

/-- What follows a place of the queue is replaced. -/
theorem drop_take_append (h : pos ≤ buf.length) (p : ℕ) (l : List α) :
    (buf.take (pos + p) ++ l).drop pos = (buf.drop pos).take p ++ l := by
  have hlen : pos ≤ (buf.take (pos + p)).length := by
    rw [List.length_take]
    omega
  rw [List.drop_append_of_le_length hlen, List.drop_take, Nat.add_sub_cancel_left]

/-- Elements that are gone make room for ones that are put in front. -/
theorem drop_overwrite (hroom : l.length ≤ pos) (h : pos ≤ buf.length) :
    (buf.take (pos - l.length) ++ l ++ buf.drop pos).drop (pos - l.length) = l ++ buf.drop pos := by
  have hlen : (buf.take (pos - l.length)).length = pos - l.length := by
    rw [List.length_take]
    omega
  rw [List.append_assoc]
  exact List.drop_left' hlen

/-- Going back puts elements in front that were gone. -/
theorem exists_drop_sub (hroom : n ≤ pos) (h : pos ≤ buf.length) :
    ∃ l, l.length = n ∧ buf.drop (pos - n) = l ++ buf.drop pos := by
  refine ⟨(buf.drop (pos - n)).take n, ?_, ?_⟩
  · rw [List.length_take, List.length_drop]
    omega
  · have hpos : buf.drop pos = (buf.drop (pos - n)).drop n := by
      rw [List.drop_drop, Nat.sub_add_cancel hroom]
    rw [hpos, List.take_append_drop]

end Queue
