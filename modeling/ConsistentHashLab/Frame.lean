import ConsistentHashLab.Invariant
import ConsistentHashLab.Lookup

/-! # Which keys move when a node comes or goes

Both laws rest on one fact about lookups (`getNodeForKey_filter`): when a ring is another
one filtered by `p`, a key is owned in the smaller ring by the first tuple of the larger
ring's clockwise walk that satisfies `p`. Removing a node filters its tuples out
(`removeNode_eq`); adding a node leaves the old ring as the new one without the node's
tuples (`addNode_loop_ok` and `ring_eq_of_perm`).
-/

namespace ConsistentHashLab

namespace ConsistentHashRing

variable {sha256 : List UInt8 → Nat} {key : String}

theorem hashKey_congr {s t : ConsistentHashRing} (h : s.hashFunction = t.hashFunction) :
    s.hashKey sha256 key = t.hashKey sha256 key := by
  simp [hashKey, h]

/-- A lookup that returns on a nonempty sorted ring `big`, and the same lookup on a ring
`small` that is `big` filtered by `p`: the key's owner in `big` heads the clockwise walk
from its hash, and in `small` it is the first tuple of that walk satisfying `p`. -/
theorem getNodeForKey_filter {big small : ConsistentHashRing} {p : Nat × Node → Bool}
    {r : Option Node} (hs : big.ring.Sorted (fun e f => e.1 ≤ f.1))
    (hsmall : small.ring = big.ring.filter p) (hf : small.hashFunction = big.hashFunction)
    (hne : big.ring ≠ []) (hr : big.getNodeForKey sha256 key = .ok r) :
    ∃ h, big.hashKey sha256 key = .ok h ∧ r = (clockwise big.ring h).head?.map (·.2) ∧
      small.getNodeForKey sha256 key = .ok (((clockwise big.ring h).find? p).map (·.2)) := by
  rcases (getNodeForKey_eq_ok hs).1 hr with ⟨hnil, -⟩ | ⟨h, hk, hnt, rfl⟩
  · exact absurd hnil hne
  refine ⟨h, hk, rfl, ?_⟩
  rw [getNodeForKey_eq (hsmall ▸ hs.filter p) ((hashKey_congr hf).trans hk)
    fun e he => hnt e (List.mem_of_mem_filter (hsmall ▸ he)), hsmall, clockwise_filter,
    List.filter_head?]

/-- The first tuple of a walk whose head satisfies `p` is its head. -/
theorem find?_of_head? {l : List (Nat × Node)} {e : Nat × Node} {p : Nat × Node → Bool}
    (he : l.head? = some e) (hp : p e = true) : l.find? p = some e := by
  obtain ⟨t, rfl⟩ := List.head?_eq_some_iff.1 he
  exact List.find?_cons_of_pos _ hp

end ConsistentHashRing

namespace RingInv

variable {sha256 : List UInt8 → Nat} {hashFunction : String} {P : List (String × Nat)}
variable {s s' : ConsistentHashRing} {node : Node}

/-- An `add_node` of a fresh id that returns: `ring` stays sorted and gains the node's
tuples, so the old ring is the new one without them. Nothing is asked of the new
positions: a tie with an old tuple would have made the search compare two nodes and
raise. -/
theorem addNode_returns (hi : RingInv sha256 hashFunction P s)
    (hid : node.nodeId ∉ s.nodes.keys) (hadd : s.addNode sha256 node = .ok () s') :
    s'.hashFunction = s.hashFunction ∧ s'.ring.Sorted (fun e f => e.1 ≤ f.1) ∧
      s'.ring.Perm (s.ring ++ (node.positions sha256 hashFunction).map (·, node)) ∧
      s.ring = s'.ring.filter (fun e => e.2.nodeId ≠ node.nodeId) := by
  have hfun : s'.hashFunction = s.hashFunction :=
    (congrArg (fun r => (stateAfter r).hashFunction) hadd).symm.trans
      (ConsistentHashRing.addNode_hashFunction node)
  have hv : node.getHashValues sha256 s.hashFunction =
      .ok (node.positions sha256 hashFunction) := by
    rw [hi.hashFunction_eq]
    exact Node.getHashValues_supported hi.supported node
  rw [ConsistentHashRing.addNode_fresh hid, hv] at hadd
  have hbase : ∀ e ∈ s.ring, e.2.nodeId ≠ node.nodeId := fun e => hi.nodeId_ne hid
  obtain ⟨hsorted, hperm, -⟩ := ConsistentHashRing.addNode_loop_ok hbase _ []
    { s with nodes := s.nodes.insert node.nodeId node } s' (hi.sorted.imp le_of_lt) (by simp)
    (by simp) hadd
  have hold : (s'.ring.filter fun e => e.2.nodeId ≠ node.nodeId).Perm s.ring := by
    simpa only [List.nil_append, ConsistentHashRing.filter_append_positions hbase] using
      hperm.filter (fun e => decide (e.2.nodeId ≠ node.nodeId))
  exact ⟨hfun, hsorted, by simpa using hperm, ring_eq_of_perm hold.symm hi.sorted
    (sorted_lt_of_nodup (hsorted.filter _) ((hold.map _).nodup_iff.2 hi.ring_nodup))⟩

/-- A lookup that returns gives a registered node. -/
theorem getNodeForKey_registered (hi : RingInv sha256 hashFunction P s) {key : String}
    {n : Node} (h : s.getNodeForKey sha256 key = .ok (some n)) : n ∈ s.nodes.values := by
  rcases (ConsistentHashRing.getNodeForKey_eq_ok (hi.sorted.imp le_of_lt)).1 h with
    ⟨-, h⟩ | ⟨_, -, -, h⟩
  · cases h
  · obtain ⟨e, he, rfl⟩ := Option.map_eq_some'.1 h.symm
    exact hi.owner_registered (mem_clockwise.1 (List.mem_of_mem_head? he))

/-- Across an `add_node` of a fresh id that returns, a lookup that returns on both sides
gives the node it gave or the new one, and changes exactly when it gives the new one. -/
theorem getNodeForKey_addNode (hi : RingInv sha256 hashFunction P s)
    (hid : node.nodeId ∉ s.nodes.keys) (hadd : s.addNode sha256 node = .ok () s') {key : String}
    {r r' : Option Node} (hr : s.getNodeForKey sha256 key = .ok r)
    (hr' : s'.getNodeForKey sha256 key = .ok r') :
    (r' = r ∨ r' = some node) ∧ (r' ≠ r ↔ r' = some node) := by
  obtain ⟨hfun, hsorted, hperm, hsmall⟩ := hi.addNode_returns hid hadd
  have hnot : r ≠ some node := fun h =>
    hid (hi.nodeId_mem_keys (hi.getNodeForKey_registered (h ▸ hr)))
  by_cases hne : s'.ring = []
  · rw [ConsistentHashRing.getNodeForKey_nil hne] at hr'
    rw [ConsistentHashRing.getNodeForKey_nil (by rw [hsmall, hne]; rfl)] at hr
    cases hr; cases hr'
    simp
  obtain ⟨h, -, rfl, hs⟩ := ConsistentHashRing.getNodeForKey_filter hsorted hsmall hfun.symm hne hr'
  obtain rfl := Except.ok.inj (hr.symm.trans hs)
  -- the walk's first tuple is the old owner's, or one of the new node's
  have hstay : (clockwise s'.ring h).head?.map (·.2) =
      ((clockwise s'.ring h).find? fun e => e.2.nodeId ≠ node.nodeId).map (·.2) ∨
      (clockwise s'.ring h).head?.map (·.2) = some node := by
    obtain ⟨e, hw⟩ := exists_head?_clockwise hne h
    rw [hw]
    by_cases hpe : e.2.nodeId = node.nodeId
    · rcases List.mem_append.1 (hperm.subset (mem_clockwise.1 (List.mem_of_mem_head? hw)))
        with he | he
      · exact absurd hpe (hi.nodeId_ne hid he)
      · obtain ⟨_, -, rfl⟩ := List.mem_map.1 he
        exact .inr rfl
    · exact .inl (by rw [ConsistentHashRing.find?_of_head? hw (by simpa using hpe)])
  exact ⟨hstay, hstay.resolve_left, fun heq hrr => hnot (hrr ▸ heq)⟩

end RingInv

namespace ConsistentHashRing

/-- Removing a registered node moves only the keys it owned: every other key keeps its
node, and a key of the removed node goes to the first tuple clockwise from its hash that
another node owns, or to nobody when no other node was registered. -/
theorem removeNode_moves_only_its_keys (sha256 : List UInt8 → Nat) (hashFunction : String)
    (hf : Supported hashFunction) (s : ConsistentHashRing) (hs : Reachable sha256 hashFunction s)
    (nodeId : String) (hN : nodeId ∈ s.nodes.keys) (key : String) (r : Option Node)
    (hr : s.getNodeForKey sha256 key = .ok r) :
    (∀ n, r = some n → n.nodeId ≠ nodeId →
      (stateAfter (s.removeNode sha256 nodeId)).getNodeForKey sha256 key = .ok (some n)) ∧
    (∀ n, r = some n → n.nodeId = nodeId → ∃ h, s.hashKey sha256 key = .ok h ∧
      (stateAfter (s.removeNode sha256 nodeId)).getNodeForKey sha256 key =
        .ok (((clockwise s.ring h).find? (fun e => e.2.nodeId ≠ nodeId)).map (·.2)) ∧
      (s.nodes.keys = [nodeId] →
        (stateAfter (s.removeNode sha256 nodeId)).getNodeForKey sha256 key = .ok none)) := by
  obtain ⟨P, hi, hc⟩ := hs.inv hf
  obtain ⟨n, hn⟩ := Option.ne_none_iff_exists'.1 (mt PyDict.get?_eq_none.1 (not_not.2 hN))
  obtain ⟨s', hrem, hfun, -, hring, -⟩ := hi.removeNode_eq hc hn
  rw [hrem]
  by_cases hne : s.ring = []
  · rw [getNodeForKey_nil hne] at hr
    cases hr
    exact ⟨fun _ h => (nomatch h), fun _ h => (nomatch h)⟩
  obtain ⟨h, hk, rfl, hs'⟩ := getNodeForKey_filter (hi.sorted.imp le_of_lt) hring hfun hne hr
  refine ⟨fun m hm hid => ?_, fun m _ _ => ⟨h, hk, hs', fun honly => ?_⟩⟩
  · obtain ⟨e, he, rfl⟩ := Option.map_eq_some'.1 hm
    rw [stateAfter, hs', find?_of_head? he (by simpa using hid)]
    rfl
  · rw [stateAfter, hs', List.find?_eq_none.2 fun e he => ?_]
    · rfl
    simpa [honly] using hi.nodeId_mem_keys (hi.owner_registered (mem_clockwise.1 he))

/-- Two one-replica nodes under FNV-1a: "foo" belongs to "b", and removing "b" hands it
to the next tuple clockwise that "a" owns. -/
theorem removeNode_moves_only_its_keys_two_nodes :
    let s := run (fun _ => 0) [.addNode ⟨"a", 1⟩, .addNode ⟨"b", 1⟩] (init "fnv1a")
    Reachable (fun _ => 0) "fnv1a" s ∧ "b" ∈ s.nodes.keys ∧
      s.getNodeForKey (fun _ => 0) "foo" = .ok (some ⟨"b", 1⟩) ∧
      ∃ h, s.hashKey (fun _ => 0) "foo" = .ok h ∧
        (stateAfter (s.removeNode (fun _ => 0) "b")).getNodeForKey (fun _ => 0) "foo" =
          .ok (((clockwise s.ring h).find? (fun e => e.2.nodeId ≠ "b")).map (·.2)) := by
  intro s
  have hs : Reachable (fun _ => 0) "fnv1a" s := ⟨_, by decide, rfl⟩
  have hN : "b" ∈ s.nodes.keys := by decide
  have hr : s.getNodeForKey (fun _ => 0) "foo" = .ok (some ⟨"b", 1⟩) := by dsimp only [s]; rfl
  obtain ⟨h, hk, hmove, -⟩ :=
    (removeNode_moves_only_its_keys _ _ (by decide) s hs "b" hN "foo" _ hr).2 _ rfl rfl
  exact ⟨hs, hN, hr, h, hk, hmove⟩

/-- Adding a node with a fresh id moves keys only onto it: after the call a key has the
node it had or the new one, and its node changed exactly when it is the new one. -/
theorem addNode_moves_keys_only_to_it (sha256 : List UInt8 → Nat) (hashFunction : String)
    (hf : Supported hashFunction) (s : ConsistentHashRing) (hs : Reachable sha256 hashFunction s)
    (node : Node) (hid : node.nodeId ∉ s.nodes.keys) (s' : ConsistentHashRing)
    (hadd : s.addNode sha256 node = .ok () s') (key : String) (r r' : Option Node)
    (hr : s.getNodeForKey sha256 key = .ok r) (hr' : s'.getNodeForKey sha256 key = .ok r') :
    (r' = r ∨ r' = some node) ∧ (r' ≠ r ↔ r' = some node) := by
  obtain ⟨P, hi, -⟩ := hs.inv hf
  exact hi.getNodeForKey_addNode hid hadd hr hr'

/-- Adding "b" next to "a" under FNV-1a moves "foo" from "a" to "b". -/
theorem addNode_moves_keys_only_to_it_second_node :
    let s := run (fun _ => 0) [.addNode ⟨"a", 1⟩] (init "fnv1a")
    Reachable (fun _ => 0) "fnv1a" s ∧ "b" ∉ s.nodes.keys ∧
      s.getNodeForKey (fun _ => 0) "foo" = .ok (some ⟨"a", 1⟩) ∧
      ∃ s', s.addNode (fun _ => 0) ⟨"b", 1⟩ = .ok () s' ∧
        s'.getNodeForKey (fun _ => 0) "foo" = .ok (some ⟨"b", 1⟩) ∧
        (some ⟨"b", 1⟩ ≠ some (⟨"a", 1⟩ : Node) ↔ some (⟨"b", 1⟩ : Node) = some ⟨"b", 1⟩) := by
  intro s
  have hs : Reachable (fun _ => 0) "fnv1a" s := ⟨_, by decide, rfl⟩
  have hid : "b" ∉ s.nodes.keys := by decide
  have hr : s.getNodeForKey (fun _ => 0) "foo" = .ok (some ⟨"a", 1⟩) := by dsimp only [s]; rfl
  obtain ⟨s', hadd⟩ : ∃ s', s.addNode (fun _ => 0) ⟨"b", 1⟩ = .ok () s' :=
    ⟨_, by dsimp only [s]; rfl⟩
  have hr' : s'.getNodeForKey (fun _ => 0) "foo" = .ok (some ⟨"b", 1⟩) := by
    rw [← show stateAfter (s.addNode (fun _ => 0) ⟨"b", 1⟩) = s' from congrArg stateAfter hadd]
    dsimp only [s]; rfl
  exact ⟨hs, hid, hr, s', hadd, hr',
    (addNode_moves_keys_only_to_it _ _ (by decide) s hs _ hid s' hadd "foo" _ _ hr hr').2⟩

end ConsistentHashRing

end ConsistentHashLab
