import ConsistentHashLab.Frame
import ConsistentHashLab.Analysis

/-! # What moves when the ring changes

The lab's measurements put the pieces together. What `get_key_distribution(keys)` returns
is an `IsDistribution`: it lists each asked-for key under its owner's id and nowhere
else, so `get_moved_keys` of two distributions of the same keys is exactly the keys whose
owner changed, and across an `add_node` those are the keys the new node took.
-/

namespace ConsistentHashLab

namespace ConsistentHashRing

variable {sha256 : List UInt8 → Nat} {s : ConsistentHashRing} {key : String} {r : Option Node}

theorem ownerId_of_ok (h : s.getNodeForKey sha256 key = .ok r) :
    s.ownerId sha256 key = r.map (·.nodeId) := by
  cases r <;> simp [ownerId, h]

/-- What `get_key_distribution(keys)` returns on `s`: an entry for each id owning one of
the keys, holding that id's keys in input order. -/
structure IsDistribution (sha256 : List UInt8 → Nat) (s : ConsistentHashRing)
    (keys : List String) (D : PyDict String (List String)) : Prop where
  mem_keys : ∀ id, id ∈ D.keys ↔ ∃ key ∈ keys, s.ownerId sha256 key = some id
  get?_eq : ∀ id ks, D.get? id = some ks →
    ks = keys.filter (fun key => s.ownerId sha256 key = some id)

theorem getKeyDistribution_isDistribution {keys : List String}
    (hk : ∀ key ∈ keys, ∃ r, s.getNodeForKey sha256 key = .ok r) :
    ∃ D, s.getKeyDistribution sha256 keys = .ok D ∧ IsDistribution sha256 s keys D :=
  let ⟨D, hD, hkeys, hget, _⟩ := getKeyDistribution_spec hk
  ⟨D, hD, hkeys, hget⟩

namespace IsDistribution

variable {keys : List String} {D : PyDict String (List String)}

theorem mem_entry (hD : IsDistribution sha256 s keys D) {e : String × List String}
    (he : e ∈ D.entries) : key ∈ e.2 ↔ key ∈ keys ∧ s.ownerId sha256 key = some e.1 := by
  rw [hD.get?_eq e.1 e.2 (PyDict.get?_eq_some.2 he)]
  simp

theorem wellListed (hD : IsDistribution sha256 s keys D) : WellListed D :=
  fun _ he _ hf _ hke hkf =>
    Option.some.inj (((hD.mem_entry he).1 hke).2.symm.trans ((hD.mem_entry hf).1 hkf).2)

/-- A distribution lists a key under its owner's id when the key was asked for, and
nowhere otherwise. -/
theorem listedUnder_eq (hD : IsDistribution sha256 s keys D) (key : String) :
    listedUnder D key = if key ∈ keys then s.ownerId sha256 key else none := by
  cases hf : D.entries.find? (fun e => key ∈ e.2) with
  | some e =>
      have := (hD.mem_entry (List.mem_of_find?_eq_some hf)).1 (by simpa using List.find?_some hf)
      simp [listedUnder, hf, this.1, this.2]
  | none =>
      have hno : ∀ e ∈ D.entries, key ∉ e.2 := fun e he => by
        simpa using List.find?_eq_none.1 hf e he
      simp only [listedUnder, hf, Option.map_none']
      split_ifs with hk
      · cases ho : s.ownerId sha256 key with
        | none => rfl
        | some id =>
            obtain ⟨ks, hks⟩ := PyDict.mem_keys.1 ((hD.mem_keys id).2 ⟨key, hk, ho⟩)
            exact absurd ((hD.mem_entry hks).2 ⟨hk, ho⟩) (hno _ hks)
      · rfl

/-- Between two distributions of the same keys, a key moved exactly when it was asked for
and its owner changed. -/
theorem mem_getMovedKeys {s₁ s₂ : ConsistentHashRing} {D₁ D₂ : PyDict String (List String)}
    (h₁ : IsDistribution sha256 s₁ keys D₁) (h₂ : IsDistribution sha256 s₂ keys D₂)
    (key : String) :
    key ∈ getMovedKeys D₁ D₂ ↔ key ∈ keys ∧ s₁.ownerId sha256 key ≠ s₂.ownerId sha256 key := by
  have hlisted : ∀ D : PyDict String (List String),
      (∃ ks ∈ D.values, key ∈ ks) ↔ listedUnder D key ≠ none := fun D => by
    rw [Ne, listedUnder_eq_none, not_not]
  rw [ConsistentHashRing.mem_getMovedKeys h₁.wellListed h₂.wellListed, hlisted, hlisted,
    h₁.listedUnder_eq, h₂.listedUnder_eq]
  by_cases hk : key ∈ keys
  · simp only [hk, if_true, true_and]
    exact ⟨And.right, fun h => ⟨not_and_or.1 fun hn => h (hn.1.trans hn.2.symm), h⟩⟩
  · simp [hk]

end IsDistribution

/-- Distributing the same keys over two rings and passing both to `get_moved_keys` gives
exactly the keys whose owner differs between the rings. -/
theorem getMovedKeys_owner_changed (sha256 : List UInt8 → Nat) (s₁ s₂ : ConsistentHashRing)
    (keys : List String) (hk₁ : ∀ key ∈ keys, ∃ r, s₁.getNodeForKey sha256 key = .ok r)
    (hk₂ : ∀ key ∈ keys, ∃ r, s₂.getNodeForKey sha256 key = .ok r) :
    ∃ D₁ D₂, s₁.getKeyDistribution sha256 keys = .ok D₁ ∧
      s₂.getKeyDistribution sha256 keys = .ok D₂ ∧
      ∀ key, key ∈ getMovedKeys D₁ D₂ ↔
        key ∈ keys ∧ s₁.ownerId sha256 key ≠ s₂.ownerId sha256 key :=
  let ⟨D₁, hD₁, h₁⟩ := getKeyDistribution_isDistribution hk₁
  let ⟨D₂, hD₂, h₂⟩ := getKeyDistribution_isDistribution hk₂
  ⟨D₁, D₂, hD₁, hD₂, h₁.mem_getMovedKeys h₂⟩

/-- From the empty ring to a one-node ring every key moves. -/
theorem getMovedKeys_owner_changed_first_node :
    (∀ key ∈ ["foo"], ∃ r, (init "fnv1a").getNodeForKey (fun _ => 0) key = .ok r) ∧
      (∀ key ∈ ["foo"], ∃ r,
        (run (fun _ => 0) [.addNode ⟨"a", 1⟩] (init "fnv1a")).getNodeForKey (fun _ => 0) key =
          .ok r) ∧
      ∃ D₁ D₂, (init "fnv1a").getKeyDistribution (fun _ => 0) ["foo"] = .ok D₁ ∧
        (run (fun _ => 0) [.addNode ⟨"a", 1⟩] (init "fnv1a")).getKeyDistribution (fun _ => 0)
          ["foo"] = .ok D₂ ∧
        ("foo" ∈ getMovedKeys D₁ D₂ ↔ "foo" ∈ ["foo"] ∧ (init "fnv1a").ownerId (fun _ => 0) "foo" ≠
          (run (fun _ => 0) [.addNode ⟨"a", 1⟩] (init "fnv1a")).ownerId (fun _ => 0) "foo") := by
  have hk₁ : ∀ key ∈ ["foo"], ∃ r, (init "fnv1a").getNodeForKey (fun _ => 0) key = .ok r :=
    fun key _ => ⟨none, getNodeForKey_nil rfl⟩
  have hk₂ : ∀ key ∈ ["foo"], ∃ r,
      (run (fun _ => 0) [.addNode ⟨"a", 1⟩] (init "fnv1a")).getNodeForKey (fun _ => 0) key =
        .ok r := by
    intro key hkey
    rw [List.mem_singleton.1 hkey]
    exact ⟨_, rfl⟩
  obtain ⟨D₁, D₂, hD₁, hD₂, hmoved⟩ := getMovedKeys_owner_changed _ _ _ _ hk₁ hk₂
  exact ⟨hk₁, hk₂, D₁, D₂, hD₁, hD₂, hmoved "foo"⟩

/-- Across an `add_node` of a fresh id on a reachable ring, the moved keys are exactly the
asked-for keys the new node owns afterwards. -/
theorem addNode_moved_keys_are_its_keys (sha256 : List UInt8 → Nat) (hashFunction : String)
    (hf : Supported hashFunction) (s : ConsistentHashRing) (hs : Reachable sha256 hashFunction s)
    (node : Node) (hid : node.nodeId ∉ s.nodes.keys) (s' : ConsistentHashRing)
    (hadd : s.addNode sha256 node = .ok () s') (keys : List String)
    (hk : ∀ key ∈ keys, ∃ r, s.getNodeForKey sha256 key = .ok r)
    (hk' : ∀ key ∈ keys, ∃ r, s'.getNodeForKey sha256 key = .ok r) :
    ∃ D₁ D₂, s.getKeyDistribution sha256 keys = .ok D₁ ∧
      s'.getKeyDistribution sha256 keys = .ok D₂ ∧
      ∀ key, key ∈ getMovedKeys D₁ D₂ ↔ key ∈ keys ∧ s'.ownerId sha256 key = some node.nodeId := by
  obtain ⟨P, hi, -⟩ := hs.inv hf
  obtain ⟨D₁, hD₁, h₁⟩ := getKeyDistribution_isDistribution hk
  obtain ⟨D₂, hD₂, h₂⟩ := getKeyDistribution_isDistribution hk'
  refine ⟨D₁, D₂, hD₁, hD₂, fun key => (h₁.mem_getMovedKeys h₂ key).trans
    (and_congr_right fun hkey => ?_)⟩
  obtain ⟨r, hr⟩ := hk key hkey
  obtain ⟨r', hr'⟩ := hk' key hkey
  obtain ⟨-, hmoved⟩ := hi.getNodeForKey_addNode hid hadd hr hr'
  rw [ownerId_of_ok hr, ownerId_of_ok hr']
  constructor
  · intro hne
    rw [hmoved.1 fun h => hne (h ▸ rfl)]
    rfl
  · -- an old owner with the new id would have been registered under it
    intro hsome heq
    obtain ⟨m, rfl, hm⟩ := Option.map_eq_some'.1 (heq.trans hsome)
    exact hid (hm ▸ hi.nodeId_mem_keys (hi.getNodeForKey_registered hr))

/-- Adding "b" next to "a" under FNV-1a: "foo" moves, and it is "b"'s. -/
theorem addNode_moved_keys_are_its_keys_second_node :
    Reachable (fun _ => 0) "fnv1a" (run (fun _ => 0) [.addNode ⟨"a", 1⟩] (init "fnv1a")) ∧
      "b" ∉ (run (fun _ => 0) [.addNode ⟨"a", 1⟩] (init "fnv1a")).nodes.keys ∧
      ∃ s', (run (fun _ => 0) [.addNode ⟨"a", 1⟩] (init "fnv1a")).addNode (fun _ => 0)
          ⟨"b", 1⟩ = .ok () s' ∧
        (∀ key ∈ ["foo"], ∃ r, s'.getNodeForKey (fun _ => 0) key = .ok r) ∧
        ∃ D₁ D₂,
          (run (fun _ => 0) [.addNode ⟨"a", 1⟩] (init "fnv1a")).getKeyDistribution (fun _ => 0)
            ["foo"] = .ok D₁ ∧
          s'.getKeyDistribution (fun _ => 0) ["foo"] = .ok D₂ ∧
          ("foo" ∈ getMovedKeys D₁ D₂ ↔
            "foo" ∈ ["foo"] ∧ s'.ownerId (fun _ => 0) "foo" = some "b") := by
  have hs : Reachable (fun _ => 0) "fnv1a" (run (fun _ => 0) [.addNode ⟨"a", 1⟩] (init "fnv1a")) :=
    ⟨_, by decide, rfl⟩
  have hid : "b" ∉ (run (fun _ => 0) [.addNode ⟨"a", 1⟩] (init "fnv1a")).nodes.keys := by decide
  have hk : ∀ key ∈ ["foo"], ∃ r,
      (run (fun _ => 0) [.addNode ⟨"a", 1⟩] (init "fnv1a")).getNodeForKey (fun _ => 0) key =
        .ok r := by
    intro key hkey
    rw [List.mem_singleton.1 hkey]
    exact ⟨_, rfl⟩
  obtain ⟨s', hadd⟩ : ∃ s', (run (fun _ => 0) [.addNode ⟨"a", 1⟩] (init "fnv1a")).addNode
      (fun _ => 0) ⟨"b", 1⟩ = .ok () s' := ⟨_, rfl⟩
  have hk' : ∀ key ∈ ["foo"], ∃ r, s'.getNodeForKey (fun _ => 0) key = .ok r := by
    have hs' : stateAfter _ = s' := congrArg stateAfter hadd
    intro key hkey
    rw [List.mem_singleton.1 hkey, ← hs']
    exact ⟨_, rfl⟩
  obtain ⟨D₁, D₂, hD₁, hD₂, hmoved⟩ :=
    addNode_moved_keys_are_its_keys _ _ (by decide) _ hs _ hid s' hadd _ hk hk'
  exact ⟨hs, hid, s', hadd, hk', D₁, D₂, hD₁, hD₂, hmoved "foo"⟩

/-- The loop of `get_key_distribution` returns exactly when every key's lookup does. -/
theorem getKeyDistribution_loop_ok_iff :
    ∀ (keys : List String) (D₀ : PyDict String (List String)),
      (∃ D, getKeyDistribution.loop sha256 s keys D₀ = .ok D) ↔
        ∀ key ∈ keys, ∃ r, s.getNodeForKey sha256 key = .ok r
  | [], D₀ => by simp [getKeyDistribution.loop]
  | key :: rest, D₀ => by
      rw [List.forall_mem_cons]
      cases hr : s.getNodeForKey sha256 key with
      | error e => simp [getKeyDistribution.loop, hr]
      | ok r => cases r <;> simp [getKeyDistribution.loop, hr, getKeyDistribution_loop_ok_iff rest]

/-- When the loop of `get_key_distribution` raises, it raises what one key's lookup raised. -/
theorem getKeyDistribution_loop_error :
    ∀ (keys : List String) (D₀ : PyDict String (List String)) {err : PyError},
      getKeyDistribution.loop sha256 s keys D₀ = .error err →
        ∃ key ∈ keys, s.getNodeForKey sha256 key = .error err
  | [], _, _, h => by cases h
  | key :: rest, D₀, err, h => by
      cases hr : s.getNodeForKey sha256 key with
      | error e =>
          simp only [getKeyDistribution.loop, hr, Except.error.injEq] at h
          exact ⟨key, List.mem_cons_self _ _, h ▸ hr⟩
      | ok r =>
          obtain ⟨k, hk, hke⟩ : ∃ k ∈ rest, s.getNodeForKey sha256 k = .error err := by
            cases r <;> simp only [getKeyDistribution.loop, hr] at h <;>
              exact getKeyDistribution_loop_error rest _ h
          exact ⟨k, List.mem_cons_of_mem _ hk, hke⟩

end ConsistentHashRing

namespace RingInv

variable {hashFunction : String} {P : List (String × Nat)}

/-- On an invariant ring a lookup returns unless the key hashes onto a registered node's
position, and then raises the `TypeError` of comparing `None` with a node. -/
theorem getNodeForKey_ok_or_tie (hi : RingInv sha256 hashFunction P s) (key : String) :
    ((∃ r, s.getNodeForKey sha256 key = .ok r) ∧
      ∀ n ∈ s.nodes.values, digest sha256 hashFunction key ∉ n.positions sha256 hashFunction) ∨
    (s.getNodeForKey sha256 key = .error noneTieError ∧
      ∃ n ∈ s.nodes.values, digest sha256 hashFunction key ∈ n.positions sha256 hashFunction) := by
  have hsorted := hi.sorted.imp le_of_lt
  by_cases htie : ∃ n ∈ s.nodes.values, digest sha256 hashFunction key ∈ n.positions sha256 hashFunction
  · obtain ⟨n, hn, hpos⟩ := htie
    exact .inr ⟨ConsistentHashRing.getNodeForKey_tie hsorted (hi.hashKey_eq key)
      ((hi.mem_ring _ n).2 ⟨hn, hpos⟩) rfl, n, hn, hpos⟩
  · push_neg at htie
    exact .inl ⟨⟨_, ConsistentHashRing.getNodeForKey_eq hsorted (hi.hashKey_eq key)
      fun e he heq => htie e.2 (hi.owner_registered he) (heq ▸ ((hi.mem_ring e.1 e.2).1 he).2)⟩,
      htie⟩

end RingInv

namespace ConsistentHashRing

/-- On a reachable ring `get_key_distribution(keys)` returns exactly when no key hashes
onto a registered node's position, and otherwise raises the `TypeError` of comparing
`None` with a node, never another exception. The keys are `String`s: a `str` with a lone
surrogate would make `_hash_key` raise `UnicodeEncodeError` (`pyEncode`). -/
theorem getKeyDistribution_raises_iff_tie (sha256 : List UInt8 → Nat) (hashFunction : String)
    (hf : Supported hashFunction) (s : ConsistentHashRing) (hs : Reachable sha256 hashFunction s)
    (keys : List String) :
    ((∃ D, s.getKeyDistribution sha256 keys = .ok D) ↔
      ∀ key ∈ keys, ∀ n ∈ s.nodes.values,
        digest sha256 hashFunction key ∉ n.positions sha256 hashFunction) ∧
    ∀ err, s.getKeyDistribution sha256 keys = .error err → err = noneTieError := by
  obtain ⟨P, hi, -⟩ := hs.inv hf
  refine ⟨(getKeyDistribution_loop_ok_iff keys _).trans (forall₂_congr fun key _ => ?_),
    fun err h => ?_⟩
  · rcases hi.getNodeForKey_ok_or_tie key with ⟨hok, hno⟩ | ⟨htie, n, hn, hpos⟩
    · exact iff_of_true hok hno
    · exact iff_of_false (fun ⟨r, hr⟩ => by rw [htie] at hr; cases hr) fun hno => hno n hn hpos
  · obtain ⟨key, -, hkey⟩ := getKeyDistribution_loop_error keys _ h
    rcases hi.getNodeForKey_ok_or_tie key with ⟨⟨r, hr⟩, -⟩ | ⟨htie, -⟩
    · rw [hr] at hkey
      cases hkey
    · rw [htie] at hkey
      exact (Except.error.inj hkey).symm

/-- On the ring holding "a", asking for "foo" and "a-0" raises: "a-0" is where "a" sits. -/
theorem getKeyDistribution_raises_iff_tie_replica_key :
    ¬∃ D, (run (fun _ => 0) [.addNode ⟨"a", 1⟩] (init "fnv1a")).getKeyDistribution (fun _ => 0)
      ["foo", "a-0"] = .ok D := fun h =>
  absurd ((getKeyDistribution_raises_iff_tie _ _ (by decide) _ ⟨_, by decide, rfl⟩ _).1.1 h)
    (by decide)

end ConsistentHashRing

end ConsistentHashLab
