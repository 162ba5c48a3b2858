import ConsistentHashLab.Canonical

/-! # Calls that raise half-way

Three places where the ring raises after it has started to change or where its
docstrings promise a result. `add_node` registers the node before it hashes the node's
replicas, so an unsupported hash function leaves the node registered; over a whole run
such a ring never gets a position, and `remove_node` raises for each node with a replica.
`bisect.insort` compares two nodes when two of their positions collide; `Node` has `==` but
no `<`, so the comparison raises `TypeError` with the node registered and `hash_to_node`
overwritten, and the removals that follow leave the old tuple behind. The lookup's
`(key_hash, None)` probe ties with a position when a key hashes onto it, and `None < node`
raises; on a reachable ring that is the only way a lookup raises.
-/

namespace ConsistentHashLab

namespace ConsistentHashRing

variable {sha256 : List UInt8 → Nat}

/-- Under an unsupported hash function, `add_node` of a fresh node with a replica raises
`ValueError` with the node registered. -/
theorem addNode_unsupported {s : ConsistentHashRing} {node : Node}
    (hf : ¬Supported s.hashFunction) (hid : node.nodeId ∉ s.nodes.keys) (hr : 0 < node.replicas) :
    s.addNode sha256 node =
      .error (.valueError ("Unsupported hash function: " ++ s.hashFunction))
        { s with nodes := s.nodes.insert node.nodeId node } := by
  rw [addNode_fresh hid, Node.getHashValues_unsupported hf hr]

/-- `ConsistentHashRing("unsupported").add_node(Node("test"))` raises and leaves "test"
registered. -/
theorem addNode_unsupported_registers (sha256 : List UInt8 → Nat) :
    (init "unsupported").addNode sha256 ⟨"test", 1⟩ =
        .error (.valueError "Unsupported hash function: unsupported")
          ⟨"unsupported", [], PyDict.empty.insert "test" ⟨"test", 1⟩, .empty⟩ ∧
      (stateAfter ((init "unsupported").addNode sha256 ⟨"test", 1⟩)).nodes.keys = ["test"] := by
  rw [addNode_unsupported (by decide) (by decide) (by decide)]
  exact ⟨rfl, rfl⟩

/-- Under an unsupported hash function `get_hash_values` hashes no replica: it returns `[]`
for a node without replicas and raises for every other. -/
theorem hashValues_unsupported {hashFunction : String} (hf : ¬Supported hashFunction)
    (node : Node) :
    node.getHashValues sha256 hashFunction = .ok [] ∨
      node.getHashValues sha256 hashFunction =
        .error (.valueError ("Unsupported hash function: " ++ hashFunction)) := by
  by_cases hr : 0 < node.replicas
  · exact .inr (Node.getHashValues_unsupported hf hr)
  · left
    rw [Node.getHashValues, show node.replicas.toNat = 0 by omega]
    rfl

/-- `get_hash_values` raises only for an unsupported hash function. -/
theorem getHashValues_error {hashFunction : String} {node : Node} {e : PyError}
    (h : node.getHashValues sha256 hashFunction = .error e) :
    e = .valueError ("Unsupported hash function: " ++ hashFunction) := by
  by_cases hf : Supported hashFunction
  · rw [Node.getHashValues_supported hf node] at h
    cases h
  · rcases hashValues_unsupported hf node with h' | h' <;> rw [h'] at h
    · cases h
    · exact (Except.error.inj h).symm

/-- Under an unsupported hash function no call touches `ring` or `hash_to_node`: both
methods raise before their loop or loop over no positions. -/
theorem apply_unsupported {s : ConsistentHashRing} (hf : ¬Supported s.hashFunction) :
    ∀ call : Call, (call.apply sha256 s).ring = s.ring ∧
      (call.apply sha256 s).hashToNode = s.hashToNode
  | .addNode node => by
      show (stateAfter (s.addNode sha256 node)).ring = _ ∧
        (stateAfter (s.addNode sha256 node)).hashToNode = _
      by_cases hid : node.nodeId ∈ s.nodes.keys
      · rw [addNode_registered hid]
        exact ⟨rfl, rfl⟩
      · rw [addNode_fresh hid]
        rcases hashValues_unsupported hf node with h | h <;> rw [h] <;> exact ⟨rfl, rfl⟩
  | .removeNode nodeId => by
      show (stateAfter (s.removeNode sha256 nodeId)).ring = _ ∧
        (stateAfter (s.removeNode sha256 nodeId)).hashToNode = _
      unfold removeNode
      split
      · exact ⟨rfl, rfl⟩
      · rename_i node _
        rcases hashValues_unsupported hf node with h | h <;> rw [h] <;> exact ⟨rfl, rfl⟩

/-- The run lemma for an unsupported hash function. -/
theorem run_unsupported (sha256 : List UInt8 → Nat) :
    ∀ (calls : List Call) (s : ConsistentHashRing), ¬Supported s.hashFunction →
      (run sha256 calls s).ring = s.ring ∧ (run sha256 calls s).hashToNode = s.hashToNode
  | [], _, _ => ⟨rfl, rfl⟩
  | call :: calls, s, hf => by
      obtain ⟨hr, hh⟩ := apply_unsupported hf call
      obtain ⟨hr', hh'⟩ := run_unsupported sha256 calls (call.apply sha256 s)
        (by rwa [Call.apply_hashFunction])
      exact ⟨hr'.trans hr, hh'.trans hh⟩

/-- A ring created with an unsupported hash function never gets a position: over every run
`ring` and `hash_to_node` stay empty, so every lookup returns `None` before it would hash
the key, while `add_node` still registers its nodes. And `remove_node` of a registered node
with a replica raises `ValueError` and keeps it, so such a node is never unregistered. -/
theorem run_unsupported_hash_function (sha256 : List UInt8 → Nat) (hashFunction : String)
    (hf : ¬Supported hashFunction) (calls : List Call) :
    (run sha256 calls (init hashFunction)).ring = [] ∧
      (run sha256 calls (init hashFunction)).hashToNode.entries = [] ∧
      (∀ key, (run sha256 calls (init hashFunction)).getNodeForKey sha256 key = .ok none) ∧
      ∀ nodeId n, (run sha256 calls (init hashFunction)).nodes.get? nodeId = some n →
        0 < n.replicas → (run sha256 calls (init hashFunction)).removeNode sha256 nodeId =
          .error (.valueError ("Unsupported hash function: " ++ hashFunction))
            (run sha256 calls (init hashFunction)) := by
  obtain ⟨hr, hh⟩ := run_unsupported sha256 calls (init hashFunction) hf
  have hfun : (run sha256 calls (init hashFunction)).hashFunction = hashFunction :=
    run_hashFunction sha256 calls _
  refine ⟨hr, by rw [hh]; rfl, fun _ => getNodeForKey_nil hr, fun nodeId n hn hrep => ?_⟩
  rw [removeNode, hn]
  simp only [hfun, Node.getHashValues_unsupported hf hrep]

/-- In `ConsistentHashRing("md5")`, "a" is added and removed and stays registered. -/
theorem run_unsupported_hash_function_md5 :
    (run (fun _ => 0) [.addNode ⟨"a", 1⟩, .removeNode "a"] (init "md5")).nodes.keys = ["a"] ∧
      (run (fun _ => 0) [.addNode ⟨"a", 1⟩, .removeNode "a"] (init "md5")).removeNode
          (fun _ => 0) "a" = .error (.valueError ("Unsupported hash function: " ++ "md5"))
        (run (fun _ => 0) [.addNode ⟨"a", 1⟩, .removeNode "a"] (init "md5")) :=
  ⟨rfl, (run_unsupported_hash_function _ _ (by decide) _).2.2.2 "a" ⟨"a", 1⟩ rfl (by decide)⟩

/-- In a reachable state a key spelled like a registered node's replica id hashes onto
that replica's position, and the lookup raises. -/
theorem getNodeForKey_replicaId {hashFunction : String} {P : List (String × Nat)}
    {s : ConsistentHashRing} (hi : RingInv sha256 hashFunction P s) {n : Node}
    (hn : n ∈ s.nodes.values) {r : Nat} (hr : r < n.replicas.toNat) :
    s.getNodeForKey sha256 (n.replicaId r) = .error noneTieError := by
  exact getNodeForKey_tie (hi.sorted.imp le_of_lt) (hi.hashKey_eq _)
    ((hi.mem_ring _ n).2 ⟨hn, mem_positions.2 ⟨r, hr, rfl⟩⟩) rfl

/-- `ConsistentHashRing()` holding `Node("node1")`: `get_node_for_key("node1-0")` raises
`TypeError` whatever the SHA-256 digest is. -/
theorem getNodeForKey_replica_key_raises (sha256 : List UInt8 → Nat) :
    (run sha256 [.addNode ⟨"node1", 1⟩] (init "sha256")).ring ≠ [] ∧
      (run sha256 [.addNode ⟨"node1", 1⟩] (init "sha256")).getNodeForKey sha256 "node1-0" =
        .error noneTieError := by
  have hc : CollisionFree sha256 "sha256" ([Call.addNode ⟨"node1", 1⟩].flatMap Call.pairs) :=
    fun p hp q hq _ => by simp [Call.pairs] at hp hq; rw [← hp, ← hq]
  have hi := RingInv.reachable (Or.inl rfl) hc
  have hn : (⟨"node1", 1⟩ : Node) ∈
      (run sha256 [.addNode ⟨"node1", 1⟩] (init "sha256")).nodes.values := by
    rw [show (run sha256 [.addNode ⟨"node1", 1⟩] (init "sha256")).nodes.values = [⟨"node1", 1⟩]
      from rfl]
    exact List.mem_singleton_self _
  exact ⟨List.ne_nil_of_mem ((hi.mem_ring _ _).2 ⟨hn, mem_positions.2 ⟨0, by decide, rfl⟩⟩),
    getNodeForKey_replicaId hi hn (r := 0) (by decide)⟩

/-- Under FNV-1a "costarring-0" and "liquid-0" both hash to 915602272. Adding
`Node("liquid")` after `Node("costarring")` raises `TypeError` although "liquid" is fresh,
with "liquid" registered; removing both nodes then leaves costarring's tuple in `ring`,
and lookups keep returning the removed node. -/
theorem colliding_positions_leave_an_orphan (sha256 : List UInt8 → Nat) :
    "liquid" ∉ (run sha256 [.addNode ⟨"costarring", 1⟩] (init "fnv1a")).nodes.keys ∧
      (∃ s₂, (run sha256 [.addNode ⟨"costarring", 1⟩] (init "fnv1a")).addNode sha256
          ⟨"liquid", 1⟩ = .error nodeTieError s₂ ∧ s₂.nodes.keys = ["costarring", "liquid"]) ∧
      ∃ s₄, run sha256 [.addNode ⟨"costarring", 1⟩, .addNode ⟨"liquid", 1⟩,
          .removeNode "liquid", .removeNode "costarring"] (init "fnv1a") = s₄ ∧
        s₄.nodes.keys = [] ∧ s₄.ring = [(915602272, ⟨"costarring", 1⟩)] ∧
        s₄.getNodeForKey sha256 "foo" = .ok (some ⟨"costarring", 1⟩) := by
  have hrun : ∀ calls, run sha256 calls (init "fnv1a") = run (fun _ => 0) calls (init "fnv1a") :=
    fun calls => run_fnv1a sha256 (fun _ => 0) calls (init "fnv1a") rfl
  simp only [hrun]
  rw [addNode_fnv1a sha256 (fun _ => 0) (run_hashFunction _ _ _)]
  refine ⟨by decide, ⟨_, by rfl, by decide⟩, _, rfl, by decide, by decide, ?_⟩
  rw [getNodeForKey_fnv1a sha256 (fun _ => 0) (run_hashFunction _ _ _)]
  rfl

end ConsistentHashRing

end ConsistentHashLab
