import ConsistentHashLab.Frame

/-! # The ring depends only on the registered nodes

Along collision-free runs `ring` is the strictly sorted list of the registered nodes'
tuples (`RingInv`), and a strictly sorted list is fixed by its members
(`ring_eq_of_perm`). So the order of the calls that led to a state does not matter, only
which nodes it ended with: `hash_to_node` holds the tuples of `ring`, and a lookup reads
`ring` and the hash function alone.
-/

namespace ConsistentHashLab

namespace ConsistentHashRing

variable {sha256 : List UInt8 → Nat}

theorem getNodeForKey_congr {s t : ConsistentHashRing} (hr : s.ring = t.ring)
    (hf : s.hashFunction = t.hashFunction) (key : String) :
    s.getNodeForKey sha256 key = t.getNodeForKey sha256 key := by
  simp only [getNodeForKey, hashKey, hr, hf]

/-- The nodes registered after `add_node`, however it ends. -/
theorem mem_values_addNode (s : ConsistentHashRing) (node n : Node) :
    n ∈ (stateAfter (s.addNode sha256 node)).nodes.values ↔
      n ∈ s.nodes.values ∨ (node.nodeId ∉ s.nodes.keys ∧ n = node) := by
  rw [addNode_nodes]
  split_ifs with hid
  · simp [hid]
  · simp only [PyDict.values, PyDict.insert_of_not_mem _ hid, List.map_append, List.mem_append,
      List.map_cons, List.map_nil, List.mem_singleton, hid, not_false_eq_true, true_and]

theorem mem_keys_addNode (s : ConsistentHashRing) (node : Node) (k : String) :
    k ∈ (stateAfter (s.addNode sha256 node)).nodes.keys ↔ k ∈ s.nodes.keys ∨ k = node.nodeId := by
  rw [addNode_nodes]
  split_ifs with hid
  · exact ⟨.inl, fun h => h.elim id (· ▸ hid)⟩
  · rw [PyDict.mem_keys_insert]
    exact or_comm

end ConsistentHashRing

theorem CollisionFree.of_subset {sha256 : List UInt8 → Nat} {hashFunction : String}
    {P Q : List (String × Nat)} (hc : CollisionFree sha256 hashFunction P)
    (h : ∀ p ∈ Q, p ∈ P) : CollisionFree sha256 hashFunction Q :=
  fun p hp q hq => hc p (h p hp) q (h q hq)

namespace RingInv

variable {sha256 : List UInt8 → Nat} {hashFunction : String} {P Q : List (String × Nat)}
variable {s t : ConsistentHashRing}

/-- Two invariant states with the same registered nodes have the same ring. -/
theorem ring_eq_of_values (hs : RingInv sha256 hashFunction P s)
    (ht : RingInv sha256 hashFunction Q t) (hv : ∀ n, n ∈ s.nodes.values ↔ n ∈ t.nodes.values) :
    s.ring = t.ring := by
  refine ring_eq_of_perm ((List.perm_ext_iff_of_nodup (hs.ring_nodup.of_map _)
    (ht.ring_nodup.of_map _)).2 fun ⟨h, n⟩ => ?_) hs.sorted ht.sorted
  rw [hs.mem_ring, ht.mem_ring, hv]

/-- `hash_to_node` is read off `ring`. -/
theorem hashToNode_get?_eq (hs : RingInv sha256 hashFunction P s)
    (ht : RingInv sha256 hashFunction Q t) (hr : s.ring = t.ring) (h : Nat) :
    s.hashToNode.get? h = t.hashToNode.get? h :=
  Option.ext fun n => by
    rw [Option.mem_def, Option.mem_def, PyDict.get?_eq_some, PyDict.get?_eq_some, hs.mem_index,
      ht.mem_index, hr]

/-- Adding a fresh node and removing it again gives back the state: the add appends the
node to `nodes` and its tuples, and the removal returns the node and filters exactly them
out. -/
theorem addNode_removeNode (hi : RingInv sha256 hashFunction P s)
    (hc : CollisionFree sha256 hashFunction P) {d : Node} (hp : PairsIn P d)
    (hd : d.nodeId ∉ s.nodes.keys) :
    ∃ s', s.addNode sha256 d = .ok () s' ∧ s'.removeNode sha256 d.nodeId = .ok (some d) s := by
  obtain ⟨s', hadd, hf', hnodes, -, hperm, hidx⟩ := hi.addNode_eq hc hp hd
  have hi' : RingInv sha256 hashFunction P s' := by
    have := hi.addNode hc hp
    rwa [hadd] at this
  have hget : s'.nodes.get? d.nodeId = some d :=
    PyDict.get?_eq_some.2
      (by rw [hnodes]; exact List.mem_append_right _ (List.mem_singleton_self _))
  obtain ⟨s'', hrem, hf'', hnodes', hring, hidx'⟩ := hi'.removeNode_eq hc hget
  have hbase : ∀ e ∈ s.ring, e.2.nodeId ≠ d.nodeId := fun _ => hi.nodeId_ne hd
  have hkeep : ∀ e ∈ s.nodes.entries, e.1 ≠ d.nodeId := fun e he hk =>
    hd (hk ▸ List.mem_map_of_mem Prod.fst he)
  refine ⟨s', hadd, hrem.trans (congrArg _ (ConsistentHashRing.ext (hf''.trans hf') ?_ ?_ ?_))⟩
  · refine ring_eq_of_perm ?_ (hring ▸ hi'.sorted.filter _) hi.sorted
    rw [hring]
    simpa only [ConsistentHashRing.filter_append_positions hbase] using
      hperm.filter (fun e => decide (e.2.nodeId ≠ d.nodeId))
  · refine hnodes'.trans (PyDict.ext ?_)
    show (s'.nodes.entries.filter fun e => e.1 ≠ d.nodeId) = _
    rw [hnodes, List.filter_append, List.filter_eq_self.2 fun e he => decide_eq_true (hkeep e he)]
    simp
  · refine PyDict.ext ?_
    rw [hidx', hidx]
    exact ConsistentHashRing.filter_append_positions
      (fun e he => hbase e ((hi.mem_index e.1 e.2).1 he)) _

/-- Before the last `add_node` of a collision-free run the invariant holds with all the
run's pairs, the added node's among them. -/
theorem before_addNode (hf : Supported hashFunction) {calls : List Call} {d : Node}
    (hc : CollisionFree sha256 hashFunction ((calls ++ [Call.addNode d]).flatMap Call.pairs)) :
    RingInv sha256 hashFunction ((calls ++ [Call.addNode d]).flatMap Call.pairs)
        (ConsistentHashLab.run sha256 calls (ConsistentHashRing.init hashFunction)) ∧
      PairsIn ((calls ++ [Call.addNode d]).flatMap Call.pairs) d :=
  ⟨RingInv.run hc calls _ (RingInv.init hf)
      fun c hc' _ hp => List.mem_flatMap.2 ⟨c, List.mem_append_left _ hc', hp⟩,
    fun r hr => List.mem_flatMap.2
      ⟨.addNode d, by simp, List.mem_map.2 ⟨r, List.mem_range.2 hr, rfl⟩⟩⟩

end RingInv

open ConsistentHashRing in
/-- Collision-free runs that end with the same registered nodes end with the same
`get_ring_state()`, the same `hash_to_node` and the same lookups; so two adds commute
when ids identify nodes, and adding a fresh node and removing it again restores `ring` and
`hash_to_node` exactly. -/
theorem ring_depends_only_on_nodes (sha256 : List UInt8 → Nat) (hashFunction : String)
    (hf : Supported hashFunction) :
    (∀ s₁ s₂ : ConsistentHashRing, Reachable sha256 hashFunction s₁ →
      Reachable sha256 hashFunction s₂ → (∀ n, n ∈ s₁.nodes.values ↔ n ∈ s₂.nodes.values) →
      s₁.getRingState = s₂.getRingState ∧
      (∀ h, (s₁.hashToNode.get? h).map (·.nodeId) = (s₂.hashToNode.get? h).map (·.nodeId)) ∧
      ∀ key, s₁.getNodeForKey sha256 key = s₂.getNodeForKey sha256 key) ∧
    (∀ (calls : List Call) (a b : Node), (a.nodeId = b.nodeId → a = b) →
      CollisionFree sha256 hashFunction ((calls ++ [Call.addNode a, .addNode b]).flatMap Call.pairs) →
      (run sha256 (calls ++ [Call.addNode a, .addNode b]) (init hashFunction)).ring =
        (run sha256 (calls ++ [Call.addNode b, .addNode a]) (init hashFunction)).ring) ∧
    (∀ (calls : List Call) (d : Node),
      CollisionFree sha256 hashFunction ((calls ++ [Call.addNode d]).flatMap Call.pairs) →
      d.nodeId ∉ (run sha256 calls (init hashFunction)).nodes.keys →
      (run sha256 (calls ++ [Call.addNode d, .removeNode d.nodeId]) (init hashFunction)).ring =
          (run sha256 calls (init hashFunction)).ring ∧
        (run sha256 (calls ++ [Call.addNode d, .removeNode d.nodeId]) (init hashFunction)).hashToNode =
          (run sha256 calls (init hashFunction)).hashToNode) := by
  refine ⟨fun s₁ s₂ h₁ h₂ hv => ?_, fun calls a b hab hc => ?_, fun calls d hc hd => ?_⟩
  · obtain ⟨_, hi₁, -⟩ := h₁.inv hf
    obtain ⟨_, hi₂, -⟩ := h₂.inv hf
    have hr := hi₁.ring_eq_of_values hi₂ hv
    exact ⟨by rw [getRingState, getRingState, hr],
      fun h => by rw [hi₁.hashToNode_get?_eq hi₂ hr h],
      getNodeForKey_congr hr (hi₁.hashFunction_eq.trans hi₂.hashFunction_eq.symm)⟩
  · by_cases hid : a.nodeId = b.nodeId
    · rw [hab hid]
    have hc' : CollisionFree sha256 hashFunction
        ((calls ++ [Call.addNode b, .addNode a]).flatMap Call.pairs) :=
      hc.of_subset fun p hp => by
        obtain ⟨c, hc, hp⟩ := List.mem_flatMap.1 hp
        exact List.mem_flatMap.2 ⟨c, ((List.Perm.swap _ _ []).append_left calls).subset hc, hp⟩
    refine (RingInv.reachable hf hc).ring_eq_of_values (RingInv.reachable hf hc') fun n => ?_
    rw [run_append, run_append]
    generalize run sha256 calls (init hashFunction) = s
    simp only [run, List.foldl, Call.apply, mem_values_addNode, mem_keys_addNode, hid,
      Ne.symm hid, or_false]
    exact or_right_comm
  · obtain ⟨hi, hp⟩ := RingInv.before_addNode hf hc
    obtain ⟨s', hadd, hrem⟩ := hi.addNode_removeNode hc hp hd
    have hrun : run sha256 (calls ++ [Call.addNode d, .removeNode d.nodeId]) (init hashFunction) =
        run sha256 calls (init hashFunction) := by
      rw [run_append]
      generalize run sha256 calls (init hashFunction) = s at hadd hrem
      simp only [run, List.foldl, Call.apply, hadd, stateAfter, hrem]
    exact ⟨by rw [hrun], by rw [hrun]⟩

open ConsistentHashRing in
/-- Under FNV-1a, "a" and "b" added in either order give one ring state, and adding "c"
after "a" and removing it again gives back the `hash_to_node` of "a" alone. -/
theorem ring_depends_only_on_nodes_small_runs :
    let s₁ := run (fun _ => 0) [.addNode ⟨"a", 1⟩, .addNode ⟨"b", 2⟩] (init "fnv1a")
    let s₂ := run (fun _ => 0) [.addNode ⟨"b", 2⟩, .addNode ⟨"a", 1⟩] (init "fnv1a")
    s₁.getRingState = s₂.getRingState ∧
      (run (fun _ => 0) ([] ++ [Call.addNode ⟨"a", 1⟩, .addNode ⟨"b", 2⟩]) (init "fnv1a")).ring =
        (run (fun _ => 0) ([] ++ [Call.addNode ⟨"b", 2⟩, .addNode ⟨"a", 1⟩]) (init "fnv1a")).ring ∧
      (run (fun _ => 0) ([.addNode ⟨"a", 1⟩] ++ [Call.addNode ⟨"c", 1⟩, .removeNode "c"])
        (init "fnv1a")).hashToNode = (run (fun _ => 0) [.addNode ⟨"a", 1⟩] (init "fnv1a")).hashToNode := by
  intro s₁ s₂
  have h := ring_depends_only_on_nodes (fun _ => 0) "fnv1a" (by decide)
  have hv₁ : s₁.nodes.values = [⟨"a", 1⟩, ⟨"b", 2⟩] := by decide
  have hv₂ : s₂.nodes.values = [⟨"b", 2⟩, ⟨"a", 1⟩] := by decide
  exact ⟨(h.1 s₁ s₂ ⟨_, by decide, rfl⟩ ⟨_, by decide, rfl⟩ fun n => by
      rw [hv₁, hv₂]; simp only [List.mem_cons, List.mem_singleton, List.not_mem_nil, or_false]
      exact or_comm).1,
    h.2.1 [] _ _ (by decide) (by decide), (h.2.2 [.addNode ⟨"a", 1⟩] ⟨"c", 1⟩ (by decide) (by decide)).2⟩

open ConsistentHashRing in
/-- On a collision-free run, `add_node` of a fresh id returns `None` and a `remove_node` of
that id right after returns the node and leaves exactly the state before the add. -/
theorem addNode_then_removeNode_restores (sha256 : List UInt8 → Nat) (hashFunction : String)
    (hf : Supported hashFunction) (calls : List Call) (d : Node)
    (hc : CollisionFree sha256 hashFunction ((calls ++ [Call.addNode d]).flatMap Call.pairs))
    (hd : d.nodeId ∉ (run sha256 calls (init hashFunction)).nodes.keys) :
    ∃ s', (run sha256 calls (init hashFunction)).addNode sha256 d = .ok () s' ∧
      s'.removeNode sha256 d.nodeId = .ok (some d) (run sha256 calls (init hashFunction)) := by
  obtain ⟨hi, hp⟩ := RingInv.before_addNode hf hc
  exact hi.addNode_removeNode hc hp hd

open ConsistentHashRing in
/-- Adding "b" next to "a" under FNV-1a and removing it again. -/
theorem addNode_then_removeNode_restores_second_node :
    CollisionFree (fun _ => 0) "fnv1a"
        (([Call.addNode ⟨"a", 1⟩] ++ [Call.addNode ⟨"b", 1⟩]).flatMap Call.pairs) ∧
      "b" ∉ (run (fun _ => 0) [.addNode ⟨"a", 1⟩] (init "fnv1a")).nodes.keys ∧
      ∃ s', (run (fun _ => 0) [.addNode ⟨"a", 1⟩] (init "fnv1a")).addNode (fun _ => 0)
          ⟨"b", 1⟩ = .ok () s' ∧
        s'.removeNode (fun _ => 0) "b" =
          .ok (some ⟨"b", 1⟩) (run (fun _ => 0) [.addNode ⟨"a", 1⟩] (init "fnv1a")) :=
  ⟨by decide, by decide,
    addNode_then_removeNode_restores _ _ (by decide) [.addNode ⟨"a", 1⟩] ⟨"b", 1⟩ (by decide)
      (by decide)⟩

end ConsistentHashLab
