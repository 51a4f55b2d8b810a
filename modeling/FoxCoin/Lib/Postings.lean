import FoxCoin.Lib.Overlay

/-! # Postings to accounts

A book of accounts is a map from accounts to balances. A posting adds an amount to the balance of an
account, which is `0` where the account is not in the book. -/

namespace Postings

open Overlay

variable {K : Type} [DecidableEq K]

/-- A book of accounts. -/
abbrev Book (K : Type) := Finmap fun _ : K => ℤ

/-- The balance of an account. -/
def balance (book : Book K) (a : K) : ℤ := (book.lookup a).getD 0

/-- The sum of all balances. -/
def sum (book : Book K) : ℤ := total (fun _ n => n) book

/-- The book after a posting. -/
def post (book : Book K) (e : K × ℤ) : Book K := book.insert e.1 (balance book e.1 + e.2)

/-- The book after a list of postings. -/
def postAll (book : Book K) (es : List (K × ℤ)) : Book K := es.foldl post book

/-- What a list of postings adds to an account. -/
def amountAt (a : K) (es : List (K × ℤ)) : ℤ := (es.map fun e => if e.1 = a then e.2 else 0).sum

/-- What a list of postings adds to all accounts. -/
def amount (es : List (K × ℤ)) : ℤ := (es.map Prod.snd).sum

variable {a : K} {book : Book K} {es es' : List (K × ℤ)}

theorem balance_insert (book : Book K) (k a : K) (n : ℤ) :
    balance (book.insert k n) a = if a = k then n else balance book a := by
  rw [balance, lookup_insert_eq_ite]
  split
  · rfl
  · rfl

theorem balance_post (book : Book K) (e : K × ℤ) (a : K) :
    balance (post book e) a = balance book a + if e.1 = a then e.2 else 0 := by
  rw [post, balance_insert]
  by_cases h : a = e.1
  · rw [if_pos h, if_pos h.symm, h]
  · rw [if_neg h, if_neg (Ne.symm h), add_zero]

/-- **A balance after postings.** -/
theorem balance_postAll (book : Book K) (es : List (K × ℤ)) (a : K) :
    balance (postAll book es) a = balance book a + amountAt a es := by
  induction es generalizing book with
  | nil => simp [postAll, amountAt]
  | cons e es ih =>
    have hstep := ih (post book e)
    rw [postAll] at hstep
    rw [postAll, List.foldl_cons, hstep, balance_post, amountAt, amountAt, List.map_cons, List.sum_cons,
      add_assoc]

theorem sum_post (book : Book K) (e : K × ℤ) : sum (post book e) = sum book + e.2 := by
  have hweight : weightAt (fun _ n => n) book e.1 = balance book e.1 := by
    rw [weightAt, balance]
    cases book.lookup e.1 with
    | none => rfl
    | some n => rfl
  rw [sum, post, total_insert, hweight, sum]
  ring

/-- **The sum of all balances after postings.** -/
theorem sum_postAll (book : Book K) (es : List (K × ℤ)) :
    sum (postAll book es) = sum book + amount es := by
  induction es generalizing book with
  | nil => simp [postAll, amount]
  | cons e es ih =>
    have hstep := ih (post book e)
    rw [postAll] at hstep
    rw [postAll, List.foldl_cons, hstep, sum_post, amount, amount, List.map_cons, List.sum_cons,
      add_assoc]

/-- A book without a balance other than `0`. -/
theorem sum_eq_zero (h : ∀ a, balance book a = 0) : sum book = 0 := by
  rw [sum, ← total_empty (fun _ n => n)]
  refine total_congr fun k => ?_
  have hbalance := h k
  rw [balance] at hbalance
  rw [weightAt, weightAt, Finmap.lookup_empty]
  cases hk : book.lookup k with
  | none => rfl
  | some n =>
    rw [hk] at hbalance
    exact hbalance

theorem postAll_append (book : Book K) (es es' : List (K × ℤ)) :
    postAll book (es ++ es') = postAll (postAll book es) es' := List.foldl_append

theorem foldl_postAll {T : Type} (f : T → List (K × ℤ)) (ts : List T) (book : Book K) :
    ts.foldl (fun book t => postAll book (f t)) book = postAll book (ts.flatMap f) := by
  induction ts generalizing book with
  | nil => rfl
  | cons t ts ih => rw [List.foldl_cons, ih, List.flatMap_cons, postAll_append]

theorem amountAt_eq_filter (a : K) (es : List (K × ℤ)) :
    amountAt a es = ((es.filter fun e => e.1 == a).map Prod.snd).sum := by
  induction es with
  | nil => rfl
  | cons e es ih =>
    rw [amountAt, List.map_cons, List.sum_cons, List.filter_cons]
    rw [amountAt] at ih
    by_cases h : e.1 = a
    · rw [if_pos h, if_pos (by simpa using h), List.map_cons, List.sum_cons, ih]
    · rw [if_neg h, if_neg (by simpa using h), zero_add, ih]

@[simp] theorem amountAt_nil (a : K) : amountAt a [] = 0 := rfl

@[simp] theorem amountAt_cons (a : K) (e : K × ℤ) (es : List (K × ℤ)) :
    amountAt a (e :: es) = (if e.1 = a then e.2 else 0) + amountAt a es := by
  rw [amountAt, List.map_cons, List.sum_cons, amountAt]

@[simp] theorem amountAt_append (a : K) (es es' : List (K × ℤ)) :
    amountAt a (es ++ es') = amountAt a es + amountAt a es' := by
  rw [amountAt, List.map_append, List.sum_append, amountAt, amountAt]

/-- Postings to one account. -/
theorem amountAt_map_const {T : Type} (a k : K) (f : T → ℤ) (ts : List T) :
    amountAt a (ts.map fun t => (k, f t)) = if k = a then (ts.map f).sum else 0 := by
  induction ts with
  | nil => simp
  | cons t ts ih =>
    rw [List.map_cons, amountAt_cons, ih, List.map_cons, List.sum_cons]
    split
    · rfl
    · rfl

@[simp] theorem amount_nil : amount ([] : List (K × ℤ)) = 0 := rfl

@[simp] theorem amount_cons (e : K × ℤ) (es : List (K × ℤ)) : amount (e :: es) = e.2 + amount es := by
  rw [amount, List.map_cons, List.sum_cons, amount]

@[simp] theorem amount_append (es es' : List (K × ℤ)) :
    amount (es ++ es') = amount es + amount es' := by
  rw [amount, List.map_append, List.sum_append, amount, amount]

theorem amount_map {T : Type} (g : T → K) (f : T → ℤ) (ts : List T) :
    amount (ts.map fun t => (g t, f t)) = (ts.map f).sum := by
  rw [amount, List.map_map]
  rfl

end Postings
