import ConsistentHashLab.Ring

/-! # Clockwise lookup

What `get_node_for_key` computes on a sorted ring. `clockwise ring h` lists the ring's
tuples in the order a walk from `h` meets them: those strictly past `h`, then, wrapping
around, the others. The lookup returns the owner of the first of them
(`getNodeForKey_eq`), unless the key's hash ties with a position, where the `None`
sentinel cannot be compared and the lookup raises (`getNodeForKey_tie`).
-/

namespace ConsistentHashLab

/-- The ring's tuples as a clockwise walk from `h` meets them. -/
def clockwise (ring : List (Nat × Node)) (h : Nat) : List (Nat × Node) :=
  ring.filter (fun e => h < e.1) ++ ring.filter (fun e => ¬h < e.1)

/-- A walk meets every tuple of the ring and nothing else. -/
@[simp] theorem mem_clockwise {ring : List (Nat × Node)} {h : Nat} {e : Nat × Node} :
    e ∈ clockwise ring h ↔ e ∈ ring := by
  by_cases he : h < e.1
  · simp [clockwise, he]
  · simp [clockwise, he, le_of_not_lt he]

/-- Leaving tuples out of the ring leaves them out of every walk. -/
theorem clockwise_filter (p : Nat × Node → Bool) (ring : List (Nat × Node)) (h : Nat) :
    clockwise (ring.filter p) h = (clockwise ring h).filter p := by
  simp only [clockwise, List.filter_append, List.filter_filter, Bool.and_comm]

/-- On a ring split at `i` around `h`, the walk from `h` is the rotation by `i`. -/
theorem clockwise_split {ring : List (Nat × Node)} {h i : Nat}
    (below : ∀ e ∈ ring.take i, e.1 ≤ h) (above : ∀ e ∈ ring.drop i, h < e.1) :
    clockwise ring h = ring.drop i ++ ring.take i := by
  conv_lhs => rw [← List.take_append_drop i ring]
  have h₁ : (ring.take i).filter (fun e => h < e.1) = [] :=
    List.filter_eq_nil_iff.2 fun e he => by simpa using below e he
  have h₂ : (ring.drop i).filter (fun e => h < e.1) = ring.drop i :=
    List.filter_eq_self.2 fun e he => by simpa using above e he
  have h₃ : (ring.take i).filter (fun e => ¬h < e.1) = ring.take i :=
    List.filter_eq_self.2 fun e he => by simpa using below e he
  have h₄ : (ring.drop i).filter (fun e => ¬h < e.1) = [] :=
    List.filter_eq_nil_iff.2 fun e he => by simpa using above e he
  simp only [clockwise, List.filter_append, h₁, h₂, h₃, h₄, List.nil_append, List.append_nil]

/-- A walk round a nonempty ring meets a first tuple. -/
theorem exists_head?_clockwise {ring : List (Nat × Node)} (hne : ring ≠ []) (h : Nat) :
    ∃ e, (clockwise ring h).head? = some e := by
  obtain ⟨e, he⟩ := List.exists_mem_of_ne_nil _ hne
  exact Option.ne_none_iff_exists'.1 fun hw =>
    List.not_mem_nil e (List.head?_eq_none_iff.1 hw ▸ mem_clockwise.2 he)

/-- The first tuple of the walk: the first tuple past `h`, or the ring's first tuple. -/
theorem head?_clockwise (ring : List (Nat × Node)) (h : Nat) :
    (clockwise ring h).head? = match ring.find? (fun e => h < e.1) with
      | some e => some e
      | none => ring.head? := by
  rw [clockwise, List.head?_append, List.filter_head?]
  cases hf : ring.find? (fun e => h < e.1) with
  | some e => rfl
  | none =>
      rw [List.filter_eq_self.2 fun e he => by simpa using List.find?_eq_none.1 hf e he]
      rfl

/-- Two rings strictly sorted by hash with the same tuples are the same list. -/
theorem ring_eq_of_perm {l₁ l₂ : List (Nat × Node)} (hp : l₁.Perm l₂)
    (hs₁ : l₁.Sorted (fun e f => e.1 < f.1)) (hs₂ : l₂.Sorted (fun e f => e.1 < f.1)) :
    l₁ = l₂ :=
  haveI : IsAntisymm (Nat × Node) (fun e f => e.1 < f.1) :=
    ⟨fun _ _ h₁ h₂ => absurd (h₁.trans h₂) (lt_irrefl _)⟩
  List.eq_of_perm_of_sorted hp hs₁ hs₂

/-- A ring sorted by hash whose hashes are distinct is strictly sorted. -/
theorem sorted_lt_of_nodup {l : List (Nat × Node)} (hs : l.Sorted (fun e f => e.1 ≤ f.1))
    (hn : (l.map (·.1)).Nodup) : l.Sorted (fun e f => e.1 < f.1) :=
  (hs.and (List.pairwise_map.1 hn)).imp fun h => lt_of_le_of_ne h.1 h.2

section Bisect

variable {γ δ ε : Type} {eq : γ → δ → Bool} {unorderable : ε}

theorem loop_error {a : List (Nat × δ)} {x : Nat × γ} {e : ε} {fuel lo hi : Nat}
    {hhi : hi ≤ a.length}
    (h : bisectRight.loop (pairLt eq unorderable) a x fuel lo hi hhi = .error e) :
    e = unorderable := by
  induction fuel, lo, hi, hhi using bisectRight.loop.induct (pairLt eq unorderable) a x with
  | case1 => rw [bisectRight.loop] at h; cases h
  | case2 fuel lo hi hhi hlt hmid _ ih => rw [bisectRight.loop, dif_pos hlt, hmid] at h; exact ih h
  | case3 fuel lo hi hhi hlt hmid _ ih => rw [bisectRight.loop, dif_pos hlt, hmid] at h; exact ih h
  | case4 fuel lo hi hhi hlt e' hmid =>
      rw [bisectRight.loop, dif_pos hlt, hmid] at h
      cases h
      unfold pairLt at hmid
      split at hmid
      · split at hmid <;> cases hmid; rfl
      · cases hmid
  | case5 fuel lo hi hhi hlt => rw [bisectRight.loop, dif_neg hlt] at h; cases h

/-- The only exception a search raises is the one for an unorderable tie. -/
theorem bisectRight_error {a : List (Nat × δ)} {x : Nat × γ} {e : ε}
    (h : bisectRight (pairLt eq unorderable) a x = .error e) : e = unorderable :=
  loop_error h

end Bisect

namespace ConsistentHashRing

variable {sha256 : List UInt8 → Nat} {s : ConsistentHashRing} {key : String} {h : Nat}

theorem getNodeForKey_nil (hr : s.ring = []) : s.getNodeForKey sha256 key = .ok none := by
  simp [getNodeForKey, hr]

/-- On a sorted ring, a key whose hash ties with no position is owned by the first tuple
of the clockwise walk from its hash. -/
theorem getNodeForKey_eq (hs : s.ring.Sorted (fun e f => e.1 ≤ f.1))
    (hk : s.hashKey sha256 key = .ok h) (hne : ∀ e ∈ s.ring, e.1 ≠ h) :
    s.getNodeForKey sha256 key = .ok ((clockwise s.ring h).head?.map (·.2)) := by
  by_cases hr : s.ring = []
  · rw [getNodeForKey_nil hr, hr]; rfl
  obtain ⟨i, hi⟩ : ∃ i, bisectRight (pairLt (fun (_ : Unit) (_ : Node) => false) noneTieError)
      s.ring (h, ()) = .ok i := bisectRight_ok fun e he hex => (hne e he hex).elim
  obtain ⟨hle, below, above⟩ := bisectRight_split hs hi
  rw [clockwise_split below above]
  simp only [getNodeForKey, hr, if_false, hk, sentinelLt]
  change (bisectRight _ s.ring (h, ()) >>= _) = _
  rw [hi]
  by_cases hlen : i < s.ring.length
  · have : ¬i ≥ s.ring.length := by omega
    simp [this, List.getElem?_eq_getElem hlen, List.head?_drop, bind, Except.bind, pure,
      Except.pure]
  · have hi' : i = s.ring.length := by omega
    subst hi'
    cases hc : s.ring with
    | nil => exact absurd hc hr
    | cons e es => simp [bind, Except.bind, pure, Except.pure]

/-- On a sorted ring, a key whose hash ties with a position raises `TypeError`. -/
theorem getNodeForKey_tie (hs : s.ring.Sorted (fun e f => e.1 ≤ f.1))
    (hk : s.hashKey sha256 key = .ok h) {e : Nat × Node} (he : e ∈ s.ring) (heh : e.1 = h) :
    s.getNodeForKey sha256 key = .error noneTieError := by
  have hr : s.ring ≠ [] := List.ne_nil_of_mem he
  simp only [getNodeForKey, hr, if_false, hk, sentinelLt]
  change (bisectRight _ s.ring (h, ()) >>= _) = _
  cases hb :
      bisectRight (pairLt (fun (_ : Unit) (_ : Node) => false) noneTieError) s.ring (h, ()) with
  | error err => rw [bisectRight_error hb]; rfl
  | ok i =>
      obtain ⟨f, -, -, hf⟩ := bisectRight_tie hs hb he heh
      cases hf

theorem getNodeForKey_hashKey_error (hr : s.ring ≠ []) {err : PyError}
    (hk : s.hashKey sha256 key = .error err) : s.getNodeForKey sha256 key = .error err := by
  simp only [getNodeForKey, hr, if_false, hk]
  rfl

/-- What a lookup that returns tells on a sorted ring: the ring is empty, or the key's
hash ties with no position and the first tuple of the walk from it owns the key. -/
theorem getNodeForKey_eq_ok (hs : s.ring.Sorted (fun e f => e.1 ≤ f.1)) {r : Option Node} :
    s.getNodeForKey sha256 key = .ok r ↔ (s.ring = [] ∧ r = none) ∨
      ∃ h, s.hashKey sha256 key = .ok h ∧ (∀ e ∈ s.ring, e.1 ≠ h) ∧
        r = (clockwise s.ring h).head?.map (·.2) := by
  constructor
  · intro hok
    by_cases hr : s.ring = []
    · rw [getNodeForKey_nil hr] at hok
      cases hok
      exact .inl ⟨hr, rfl⟩
    cases hk : s.hashKey sha256 key with
    | error err => rw [getNodeForKey_hashKey_error hr hk] at hok; cases hok
    | ok h =>
        by_cases htie : ∃ e ∈ s.ring, e.1 = h
        · obtain ⟨e, he, heh⟩ := htie
          rw [getNodeForKey_tie hs hk he heh] at hok
          cases hok
        · push_neg at htie
          rw [getNodeForKey_eq hs hk htie] at hok
          cases hok
          exact .inr ⟨h, rfl, htie, rfl⟩
  · rintro (⟨hr, rfl⟩ | ⟨h, hk, hne, rfl⟩)
    · exact getNodeForKey_nil hr
    · exact getNodeForKey_eq hs hk hne

/-- A lookup returns `None` exactly on the empty ring, whatever the ring holds. -/
theorem getNodeForKey_eq_none_iff : s.getNodeForKey sha256 key = .ok none ↔ s.ring = [] := by
  refine ⟨fun h => ?_, getNodeForKey_nil⟩
  by_contra hr
  simp only [getNodeForKey, hr, if_false] at h
  cases hk : s.hashKey sha256 key with
  | error err => rw [hk] at h; cases h
  | ok kh =>
      rw [hk] at h
      change (bisectRight sentinelLt s.ring (kh, ()) >>= _) = _ at h
      cases hb : bisectRight sentinelLt s.ring (kh, ()) with
      | error err => rw [hb] at h; cases h
      | ok i =>
          rw [hb] at h
          revert h
          dsimp only [bind, Except.bind]
          split <;> intro h <;> cases h

/-- On a sorted ring a lookup that returns agrees with a linear clockwise scan: the owner
of the first tuple whose hash exceeds the key's, or of the ring's first tuple when none
does. It returns `None` exactly when the ring is empty. -/
theorem getNodeForKey_clockwise_successor (sha256 : List UInt8 → Nat) :
    (∀ (s : ConsistentHashRing) (key : String) (r : Option Node),
      s.ring.Sorted (fun e f => e.1 ≤ f.1) → (hne : s.ring ≠ []) →
      s.getNodeForKey sha256 key = .ok r →
      ∃ h, s.hashKey sha256 key = .ok h ∧
        r = some ((s.ring.find? (fun e => h < e.1)).getD (s.ring.head hne)).2) ∧
    ∀ (s : ConsistentHashRing) (key : String),
      s.getNodeForKey sha256 key = .ok none ↔ s.ring = [] := by
  refine ⟨fun s key r hs hne hr => ?_, fun s key => getNodeForKey_eq_none_iff⟩
  rcases (getNodeForKey_eq_ok hs).1 hr with ⟨hnil, -⟩ | ⟨h, hk, -, rfl⟩
  · exact absurd hnil hne
  refine ⟨h, hk, ?_⟩
  rw [head?_clockwise]
  cases s.ring.find? (fun e => h < e.1) with
  | some e => rfl
  | none => simp [List.head?_eq_head hne]

/-- A key hashed past every position wraps around to the first one. -/
theorem getNodeForKey_clockwise_successor_wraps :
    let s : ConsistentHashRing := ⟨"fnv1a", [(1, ⟨"a", 1⟩), (2, ⟨"b", 1⟩)], .empty, .empty⟩
    s.ring.Sorted (fun e f => e.1 ≤ f.1) ∧
      s.getNodeForKey (fun _ => 0) "foo" = .ok (some ⟨"a", 1⟩) ∧
      ∃ h, s.hashKey (fun _ => 0) "foo" = .ok h ∧
        some ⟨"a", 1⟩ = some ((s.ring.find? (fun e => h < e.1)).getD
          (s.ring.head (List.cons_ne_nil _ _))).2 := by
  intro s
  have hs : s.ring.Sorted (fun e f => e.1 ≤ f.1) := by decide
  have hk : s.hashKey (fun _ => 0) "foo" = .ok (fnv1a (encode "foo")) := rfl
  have hget : s.getNodeForKey (fun _ => 0) "foo" = .ok (some ⟨"a", 1⟩) := by
    rw [getNodeForKey_eq hs hk (by decide)]
    exact congrArg Except.ok (by decide)
  exact ⟨hs, hget, (getNodeForKey_clockwise_successor _).1 s "foo" _ hs (List.cons_ne_nil _ _) hget⟩

end ConsistentHashRing

end ConsistentHashLab
