import Mathlib.Tactic

/-! # Ledgers of unspent coins

A transfer consumes coins and creates coins under a key of its own. A ledger tells which coins are
unspent. The theorems say where the coins of a ledger come from and that, as long as keys are not
reused, a valid history spends every coin at most once and only after its creation. -/

namespace Ledger

variable {K C : Type} [DecidableEq K]

/-- A transfer: the coins it spends, and the coins it creates under its key. -/
structure Transfer (K C : Type) where
  key : K
  spends : List (K × ℕ)
  creates : List C

/-- The unspent coins, by key and position. -/
abbrev Coins (K C : Type) := K × ℕ → Option C

/-- The ledger without coins. -/
def empty : Coins K C := fun _ => none

/-- The ledger after a list of coins is spent. -/
def spend (L : Coins K C) (os : List (K × ℕ)) : Coins K C := fun o => if o ∈ os then none else L o

/-- The ledger after coins are created under a key, in place of those that were there. -/
def create (L : Coins K C) (k : K) (cs : List C) : Coins K C :=
  fun o => if o.1 = k then cs[o.2]? else L o

/-- The ledger after a transfer. -/
def post (L : Coins K C) (t : Transfer K C) : Coins K C := create (spend L t.spends) t.key t.creates

/-- The ledger after a list of transfers. -/
def postAll (L : Coins K C) (ts : List (Transfer K C)) : Coins K C := ts.foldl post L

@[simp] theorem postAll_nil (L : Coins K C) : postAll L [] = L := rfl

@[simp] theorem postAll_cons (L : Coins K C) (t : Transfer K C) (ts : List (Transfer K C)) :
    postAll L (t :: ts) = postAll (post L t) ts := rfl

theorem postAll_append (L : Coins K C) (ts us : List (Transfer K C)) :
    postAll L (ts ++ us) = postAll (postAll L ts) us := List.foldl_append

/-- A transfer is funded when every coin it spends is there. -/
def Funded (L : Coins K C) (t : Transfer K C) : Prop := ∀ o ∈ t.spends, ∃ c, L o = some c

/-- A history is valid when every transfer is funded by the transfers before it. -/
def Valid : Coins K C → List (Transfer K C) → Prop
  | _, [] => True
  | L, t :: ts => Funded L t ∧ Valid (post L t) ts

/-- A history is valid exactly when its first part is, and its second part is from there. -/
theorem valid_append {L : Coins K C} {ts us : List (Transfer K C)} :
    Valid L (ts ++ us) ↔ Valid L ts ∧ Valid (postAll L ts) us := by
  induction ts generalizing L with
  | nil => simp [Valid]
  | cons t ts ih => simp only [List.cons_append, Valid, ih, postAll_cons, and_assoc]

/-! ## Where coins come from -/

/-- An unspent coin after a transfer was created by it, or it was there and is not spent. -/
theorem post_eq_some {L : Coins K C} {t : Transfer K C} {o : K × ℕ} {c : C}
    (h : post L t o = some c) :
    (o.1 = t.key ∧ t.creates[o.2]? = some c) ∨ (o.1 ≠ t.key ∧ o ∉ t.spends ∧ L o = some c) := by
  unfold post create spend at h
  by_cases hk : o.1 = t.key
  · rw [if_pos hk] at h
    exact .inl ⟨hk, h⟩
  · rw [if_neg hk, Option.ite_none_left_eq_some] at h
    exact .inr ⟨hk, h⟩

/-- An unspent coin of a history that starts without coins was created by one of its transfers. -/
theorem exists_creates_of_postAll {ts : List (Transfer K C)} {o : K × ℕ} {c : C}
    (h : postAll empty ts o = some c) : ∃ t ∈ ts, t.key = o.1 ∧ t.creates[o.2]? = some c := by
  induction ts using List.reverseRecOn with
  | nil => simp [empty] at h
  | append_singleton ts t ih =>
    rw [postAll_append] at h
    rcases post_eq_some h with ⟨hk, hc⟩ | ⟨-, -, hold⟩
    · exact ⟨t, by simp, hk.symm, hc⟩
    · obtain ⟨u, hu, hrest⟩ := ih hold
      exact ⟨u, List.mem_append_left _ hu, hrest⟩

/-- A coin spent in a valid history has the key of a transfer of the history. -/
theorem exists_key_of_spends {ts : List (Transfer K C)} (hvalid : Valid (empty : Coins K C) ts)
    {t : Transfer K C} (ht : t ∈ ts) {o : K × ℕ} (ho : o ∈ t.spends) :
    o.1 ∈ ts.map Transfer.key := by
  obtain ⟨before, after, rfl⟩ := List.append_of_mem ht
  obtain ⟨-, hfunded, -⟩ := valid_append.mp hvalid
  obtain ⟨c, hc⟩ := hfunded o ho
  obtain ⟨u, hu, hkey, -⟩ := exists_creates_of_postAll hc
  rw [← hkey]
  exact List.mem_map_of_mem (List.mem_append_left _ hu)

/-- **A coin that is unspent was not spent before**, when no key is reused. -/
theorem notMem_spends_of_postAll {ts : List (Transfer K C)}
    (hvalid : Valid (empty : Coins K C) ts) (hkeys : (ts.map Transfer.key).Nodup) {o : K × ℕ} {c : C}
    (h : postAll empty ts o = some c) : ∀ t ∈ ts, o ∉ t.spends := by
  induction ts using List.reverseRecOn with
  | nil => simp
  | append_singleton ts t ih =>
    obtain ⟨hts, hfunded, -⟩ := valid_append.mp hvalid
    rw [List.map_append, List.nodup_append'] at hkeys
    obtain ⟨hnodup, -, hdisjoint⟩ := hkeys
    have hnew : t.key ∉ ts.map Transfer.key := fun hmem => hdisjoint hmem (by simp)
    rw [postAll_append] at h
    intro u hu ho
    rcases post_eq_some h with ⟨hk, -⟩ | ⟨-, hnotin, hold⟩
    · -- a coin of the last transfer cannot have been spent: its key is new
      rcases List.mem_append.mp hu with hu | hu
      · exact hnew (hk ▸ exists_key_of_spends hts hu ho)
      · obtain rfl := List.mem_singleton.mp hu
        obtain ⟨c', hc'⟩ := hfunded o ho
        obtain ⟨u', hu', hkey, -⟩ := exists_creates_of_postAll hc'
        exact hnew (hk ▸ hkey ▸ List.mem_map_of_mem hu')
    · rcases List.mem_append.mp hu with hu | hu
      · exact ih hts hnodup hold u hu ho
      · obtain rfl := List.mem_singleton.mp hu
        exact hnotin ho

/-- **Every coin a valid history spends** was created by an earlier transfer and is spent by no
earlier one, when no key is reused. -/
theorem spends_of_valid {before after : List (Transfer K C)} {t : Transfer K C}
    (hvalid : Valid (empty : Coins K C) (before ++ t :: after))
    (hkeys : ((before ++ t :: after).map Transfer.key).Nodup) {o : K × ℕ} (ho : o ∈ t.spends) :
    ∃ c, postAll empty before o = some c ∧
      (∃ u ∈ before, u.key = o.1 ∧ u.creates[o.2]? = some c) ∧ ∀ u ∈ before, o ∉ u.spends := by
  obtain ⟨hbefore, hfunded, -⟩ := valid_append.mp hvalid
  obtain ⟨c, hc⟩ := hfunded o ho
  rw [List.map_append] at hkeys
  exact ⟨c, hc, exists_creates_of_postAll hc,
    notMem_spends_of_postAll hbefore hkeys.of_append_left hc⟩

end Ledger
