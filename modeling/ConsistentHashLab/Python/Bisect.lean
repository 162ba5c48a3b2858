import Mathlib.Data.List.Sort
import Mathlib.Data.List.InsertIdx

/-! # `bisect.bisect_right` and `bisect.insort`

The ring keeps `(int, Node)` tuples and searches them with the `bisect` module. Python
compares tuples slot by slot: the first slots decide unless they are equal, then the second
slots are tested with `==`, and unequal second slots are compared with `<`. Neither `Node`
nor `None` defines `<`, so that last comparison raises `TypeError`: a search that meets a
tie it cannot settle raises instead of returning.

`bisectRight` is CPython's loop, comparison failures included. On a list sorted by first
slot, a search that returns splits the list at its result (`bisectRight_split`); a search
that meets a tie only returns if some tied item equals the probe (`bisectRight_tie`); and a
search whose ties all equal the probe returns (`bisectRight_ok`).
-/

namespace ConsistentHashLab

section Compare

variable {γ δ ε : Type}

/-- Python's `x < y` on pairs whose first slots are ints and whose second slots cannot be
ordered: `eq` is the second slots' `==`, and `unorderable` is the `TypeError` raised when
a tie must be broken by `<`. -/
def pairLt (eq : γ → δ → Bool) (unorderable : ε) (x : Nat × γ) (y : Nat × δ) :
    Except ε Bool :=
  if x.1 = y.1 then (if eq x.2 y.2 then .ok false else .error unorderable)
  else .ok (decide (x.1 < y.1))

variable {eq : γ → δ → Bool} {unorderable : ε} {x : Nat × γ} {y : Nat × δ}

theorem pairLt_eq_true (h : pairLt eq unorderable x y = .ok true) : x.1 < y.1 := by
  unfold pairLt at h
  split at h
  · split at h <;> cases h
  · simpa using h

theorem pairLt_eq_false (h : pairLt eq unorderable x y = .ok false) : y.1 ≤ x.1 := by
  unfold pairLt at h
  split at h
  · omega
  · simp only [Except.ok.injEq, decide_eq_false_iff_not, not_lt] at h
    exact h

theorem pairLt_tie (h : pairLt eq unorderable x y = .ok false) (hxy : x.1 = y.1) :
    eq x.2 y.2 = true := by
  simp only [pairLt, hxy, if_true] at h
  split at h
  · assumption
  · cases h

theorem pairLt_ok (h : x.1 = y.1 → eq x.2 y.2 = true) :
    ∃ b, pairLt eq unorderable x y = .ok b := by
  unfold pairLt
  split
  · exact ⟨false, by simp [h ‹_›]⟩
  · exact ⟨_, rfl⟩

end Compare

section Search

variable {α β ε : Type} (lt : β → α → Except ε Bool)

/-- `bisect_right(a, x)`: `while lo < hi: mid = (lo + hi) // 2`, then `hi = mid` if
`x < a[mid]` and `lo = mid + 1` otherwise; a comparison that raises ends the search. Each
round narrows `hi - lo`, so `fuel ≥ hi - lo` rounds run the loop to its end. -/
def bisectRight.loop (a : List α) (x : β) : (fuel lo hi : Nat) → hi ≤ a.length → Except ε Nat
  | 0, lo, _, _ => .ok lo
  | fuel + 1, lo, hi, hhi =>
      if h : lo < hi then
        match lt x (a.get ⟨(lo + hi) / 2, by omega⟩) with
        | .ok true => bisectRight.loop a x fuel lo ((lo + hi) / 2) (by omega)
        | .ok false => bisectRight.loop a x fuel ((lo + hi) / 2 + 1) hi hhi
        | .error e => .error e
      else .ok lo

/-- `bisect.bisect_right(a, x)` over the whole list. -/
def bisectRight (a : List α) (x : β) : Except ε Nat :=
  bisectRight.loop lt a x a.length 0 a.length le_rfl

/-- `bisect.insort(a, x)`, i.e. `a.insert(bisect_right(a, x), x)`. -/
def insort (lt : α → α → Except ε Bool) (a : List α) (x : α) : Except ε (List α) :=
  (bisectRight lt a x).map (a.insertIdx · x)

end Search

theorem insertIdx_eq_take_drop {α : Type} (x : α) :
    ∀ (l : List α) (i : Nat), i ≤ l.length → l.insertIdx i x = l.take i ++ x :: l.drop i
  | _, 0, _ => by simp [List.insertIdx_zero]
  | [], _ + 1, h => by simp at h
  | y :: l, i + 1, h => by
      simp [List.insertIdx_succ_cons, insertIdx_eq_take_drop x l i (by simpa using h)]

section Sorted

variable {γ δ ε : Type} {eq : γ → δ → Bool} {unorderable : ε}
variable {a : List (Nat × δ)} {x : Nat × γ}

/-- The midpoint splits a nonempty window into two smaller ones, each within the fuel
left. -/
theorem mid_bounds {fuel lo hi : Nat} (hlt : lo < hi) (hf : hi - lo ≤ fuel + 1) :
    lo ≤ (lo + hi) / 2 ∧ (lo + hi) / 2 + 1 ≤ hi ∧ (lo + hi) / 2 - lo ≤ fuel ∧
      hi - ((lo + hi) / 2 + 1) ≤ fuel := by
  omega

/-- What a running search knows: `lo ≤ hi`, items before `lo` have first slot at most
`k`, items from `hi` on have first slot above `k`. -/
def Window (a : List (Nat × δ)) (k lo hi : Nat) : Prop :=
  lo ≤ hi ∧ (∀ j (hj : j < a.length), j < lo → a[j].1 ≤ k) ∧
    (∀ j (hj : j < a.length), hi ≤ j → k < a[j].1)

theorem loop_window (hs : a.Sorted (fun e f => e.1 ≤ f.1)) {fuel lo hi : Nat}
    {hhi : hi ≤ a.length} {i : Nat} (hf : hi - lo ≤ fuel) (hw : Window a x.1 lo hi)
    (h : bisectRight.loop (pairLt eq unorderable) a x fuel lo hi hhi = .ok i) :
    Window a x.1 i i ∧ i ≤ a.length := by
  have mono := List.pairwise_iff_getElem.1 hs
  induction fuel, lo, hi, hhi using bisectRight.loop.induct (pairLt eq unorderable) a x with
  | case1 lo hi hhi =>
      rw [bisectRight.loop] at h
      cases h
      obtain rfl : hi = i := by have := hw.1; omega
      exact ⟨hw, hhi⟩
  | case2 fuel lo hi hhi hlt hmid _ ih =>
      rw [bisectRight.loop, dif_pos hlt, hmid] at h
      have hm := mid_bounds hlt hf
      refine ih hm.2.2.1 ⟨hm.1, hw.2.1, fun j hj hj' => ?_⟩ h
      have := pairLt_eq_true hmid
      rcases Nat.lt_or_eq_of_le hj' with hj' | rfl
      · exact lt_of_lt_of_le this (mono _ _ _ hj hj')
      · exact this
  | case3 fuel lo hi hhi hlt hmid _ ih =>
      rw [bisectRight.loop, dif_pos hlt, hmid] at h
      have hm := mid_bounds hlt hf
      refine ih hm.2.2.2 ⟨hm.2.1, fun j hj hj' => ?_, hw.2.2⟩ h
      have := pairLt_eq_false hmid
      rcases Nat.lt_or_eq_of_le (Nat.le_of_lt_succ hj') with hj' | rfl
      · exact le_trans (mono _ _ hj _ hj') this
      · exact this
  | case4 fuel lo hi hhi hlt e hmid =>
      rw [bisectRight.loop, dif_pos hlt, hmid] at h
      cases h
  | case5 fuel lo hi hhi hlt =>
      rw [bisectRight.loop, dif_neg hlt] at h
      cases h
      exact ⟨⟨le_rfl, hw.2.1, fun j hj hj' => hw.2.2 j hj (by omega)⟩, by have := hw.1; omega⟩

/-- A search that returns splits a sorted list at its result: first slots up to the
probe's before it, larger ones from it on. -/
theorem bisectRight_split (hs : a.Sorted (fun e f => e.1 ≤ f.1)) {i : Nat}
    (h : bisectRight (pairLt eq unorderable) a x = .ok i) :
    i ≤ a.length ∧ (∀ e ∈ a.take i, e.1 ≤ x.1) ∧ ∀ e ∈ a.drop i, x.1 < e.1 := by
  obtain ⟨⟨-, below, above⟩, hle⟩ :=
    loop_window hs (Nat.sub_le _ _) ⟨Nat.zero_le _, by simp, fun j hj hj' => by omega⟩ h
  refine ⟨hle, fun e he => ?_, fun e he => ?_⟩
  · obtain ⟨j, hj, rfl⟩ := List.mem_take_iff_getElem.1 he
    exact below j _ (by omega)
  · obtain ⟨j, hj, rfl⟩ := List.mem_drop_iff_getElem.1 he
    exact above _ _ (by omega)

theorem loop_tie (hs : a.Sorted (fun e f => e.1 ≤ f.1)) {fuel lo hi : Nat}
    {hhi : hi ≤ a.length} {i : Nat} (hf : hi - lo ≤ fuel)
    (h : bisectRight.loop (pairLt eq unorderable) a x fuel lo hi hhi = .ok i)
    (htie : ∃ j, ∃ hj : j < a.length, lo ≤ j ∧ j < hi ∧ a[j].1 = x.1) :
    ∃ j, ∃ hj : j < a.length, a[j].1 = x.1 ∧ eq x.2 a[j].2 = true := by
  have mono := List.pairwise_iff_getElem.1 hs
  induction fuel, lo, hi, hhi using bisectRight.loop.induct (pairLt eq unorderable) a x with
  | case1 lo hi hhi =>
      obtain ⟨j, -, hlo, hhi', -⟩ := htie
      omega
  | case2 fuel lo hi hhi hlt hmid _ ih =>
      rw [bisectRight.loop, dif_pos hlt, hmid] at h
      obtain ⟨j, hj, hlo, hhi', hjx⟩ := htie
      have hgt := pairLt_eq_true hmid
      refine ih (mid_bounds hlt hf).2.2.1 h ⟨j, hj, hlo, lt_of_not_le fun hge => ?_, hjx⟩
      rcases Nat.lt_or_eq_of_le hge with hj' | rfl
      · exact (lt_of_lt_of_le hgt (mono _ _ _ hj hj')).ne' hjx
      · exact hgt.ne' hjx
  | case3 fuel lo hi hhi hlt hmid _ ih =>
      rw [bisectRight.loop, dif_pos hlt, hmid] at h
      have hle := pairLt_eq_false hmid
      by_cases hm : (a.get ⟨(lo + hi) / 2, by omega⟩).1 = x.1
      · exact ⟨_, _, hm, pairLt_tie hmid hm.symm⟩
      obtain ⟨j, hj, hlo, hhi', hjx⟩ := htie
      refine ih (mid_bounds hlt hf).2.2.2 h
        ⟨j, hj, Nat.succ_le_of_lt (lt_of_not_le fun hle' => ?_), hhi', hjx⟩
      rcases Nat.lt_or_eq_of_le hle' with hj' | rfl
      · exact hm (le_antisymm hle (hjx.symm.trans_le (mono _ _ hj _ hj')))
      · exact hm hjx
  | case4 fuel lo hi hhi hlt e hmid =>
      rw [bisectRight.loop, dif_pos hlt, hmid] at h
      cases h
  | case5 fuel lo hi hhi hlt =>
      obtain ⟨j, -, hlo, hhi', -⟩ := htie
      omega

/-- A search that returns past a tie has met a tied item equal to the probe. -/
theorem bisectRight_tie (hs : a.Sorted (fun e f => e.1 ≤ f.1)) {i : Nat}
    (h : bisectRight (pairLt eq unorderable) a x = .ok i) {e : Nat × δ} (he : e ∈ a)
    (hex : e.1 = x.1) : ∃ f ∈ a, f.1 = x.1 ∧ eq x.2 f.2 = true := by
  obtain ⟨j, hj, rfl⟩ := List.mem_iff_getElem.1 he
  obtain ⟨k, hk, hkx, hke⟩ := loop_tie hs (Nat.sub_le _ _) h ⟨j, hj, Nat.zero_le _, hj, hex⟩
  exact ⟨_, List.getElem_mem hk, hkx, hke⟩

theorem loop_ok {fuel lo hi : Nat} {hhi : hi ≤ a.length}
    (hties : ∀ e ∈ a, e.1 = x.1 → eq x.2 e.2 = true) :
    ∃ i, bisectRight.loop (pairLt eq unorderable) a x fuel lo hi hhi = .ok i := by
  induction fuel, lo, hi, hhi using bisectRight.loop.induct (pairLt eq unorderable) a x with
  | case1 lo => exact ⟨lo, by rw [bisectRight.loop]⟩
  | case2 fuel lo hi hhi hlt hmid _ ih => rw [bisectRight.loop, dif_pos hlt, hmid]; exact ih
  | case3 fuel lo hi hhi hlt hmid _ ih => rw [bisectRight.loop, dif_pos hlt, hmid]; exact ih
  | case4 fuel lo hi hhi hlt e hmid =>
      obtain ⟨b, hb⟩ : ∃ b, pairLt eq unorderable x (a.get ⟨(lo + hi) / 2, by omega⟩) = .ok b :=
        pairLt_ok fun h => hties _ (List.get_mem _ _ _) h.symm
      rw [hmid] at hb
      cases hb
  | case5 fuel lo hi hhi hlt => exact ⟨lo, by rw [bisectRight.loop, dif_neg hlt]⟩

/-- A search returns when every item tied with the probe equals it; in particular when
no item is tied. -/
theorem bisectRight_ok (hties : ∀ e ∈ a, e.1 = x.1 → eq x.2 e.2 = true) :
    ∃ i, bisectRight (pairLt eq unorderable) a x = .ok i :=
  loop_ok hties

/-- Inserting between a prefix all related to `x` and a suffix `x` is related to keeps a
list sorted. -/
theorem sorted_take_cons_drop {α : Type} {r : α → α → Prop} {l : List α} {x : α} {i : Nat}
    (hs : l.Sorted r) (below : ∀ e ∈ l.take i, r e x) (above : ∀ e ∈ l.drop i, r x e) :
    (l.take i ++ x :: l.drop i).Sorted r := by
  rw [← List.take_append_drop i l, List.Sorted, List.pairwise_append] at hs
  refine List.pairwise_append.2 ⟨hs.1, List.pairwise_cons.2 ⟨above, hs.2.1⟩, fun a ha b hb => ?_⟩
  rcases List.mem_cons.1 hb with rfl | hb
  · exact below a ha
  · exact hs.2.2 a ha b hb

/-- An insertion that returns puts the item where the search split the list. -/
theorem insort_split (hs : a.Sorted (fun e f => e.1 ≤ f.1)) {x : Nat × δ} {a' : List (Nat × δ)}
    {eq' : δ → δ → Bool} (h : insort (pairLt eq' unorderable) a x = .ok a') :
    ∃ i, a' = a.take i ++ x :: a.drop i ∧ (∀ e ∈ a.take i, e.1 ≤ x.1) ∧
      ∀ e ∈ a.drop i, x.1 < e.1 := by
  unfold insort at h
  cases hb : bisectRight (pairLt eq' unorderable) a x with
  | error err => rw [hb] at h; cases h
  | ok i =>
      rw [hb] at h
      cases h
      obtain ⟨hle, below, above⟩ := bisectRight_split hs hb
      exact ⟨i, insertIdx_eq_take_drop x a i hle, below, above⟩

theorem insort_ok {x : Nat × δ} {eq' : δ → δ → Bool}
    (hties : ∀ e ∈ a, e.1 = x.1 → eq' x.2 e.2 = true) :
    ∃ a', insort (pairLt eq' unorderable) a x = .ok a' := by
  obtain ⟨i, hi⟩ : ∃ i, bisectRight (pairLt eq' unorderable) a x = .ok i := bisectRight_ok hties
  exact ⟨_, by rw [insort, hi]; rfl⟩

/-- An insertion that returns past a tie has met a tied item equal to the new one. -/
theorem insort_tie (hs : a.Sorted (fun e f => e.1 ≤ f.1)) {x : Nat × δ} {a' : List (Nat × δ)}
    {eq' : δ → δ → Bool} (h : insort (pairLt eq' unorderable) a x = .ok a') {e : Nat × δ}
    (he : e ∈ a) (hex : e.1 = x.1) : ∃ f ∈ a, f.1 = x.1 ∧ eq' x.2 f.2 = true := by
  unfold insort at h
  cases hb : bisectRight (pairLt eq' unorderable) a x with
  | error err => rw [hb] at h; cases h
  | ok i => exact bisectRight_tie hs hb he hex

end Sorted

end ConsistentHashLab
