import ConsistentHashLab.Calls

/-! # The ring invariant over collision-free runs

A run is collision-free when no two distinct `(node_id, replica index)` pairs handed to
`add_node` hash to the same position. Along such a run `RingInv` holds: `ring` is strictly
sorted, a tuple is in `ring` exactly when its node is registered and its hash is one of
that node's positions, and `hash_to_node` holds exactly the tuples of `ring`.
`RingInv.addNode` and `RingInv.removeNode` are the step lemmas, `RingInv.run` the run
lemma.
-/

namespace ConsistentHashLab

/-- The `(node_id, replica index)` pairs a call hands to `add_node`. -/
def Call.pairs : Call → List (String × Nat)
  | .addNode node => (List.range node.replicas.toNat).map (node.nodeId, ·)
  | .removeNode _ => []

section Collision

variable (sha256 : List UInt8 → Nat) (hashFunction : String)

/-- No two distinct pairs of `P` get the same position `hash(f"{node_id}-{i}")`. -/
def CollisionFree (P : List (String × Nat)) : Prop :=
  ∀ p ∈ P, ∀ q ∈ P,
    digest sha256 hashFunction (p.1 ++ "-" ++ toString p.2) =
      digest sha256 hashFunction (q.1 ++ "-" ++ toString q.2) → p = q

instance (P : List (String × Nat)) : Decidable (CollisionFree sha256 hashFunction P) :=
  inferInstanceAs (Decidable (∀ p ∈ P, ∀ q ∈ P, _ → p = q))

/-- Every replica pair of `node` is in `P`. -/
def PairsIn (P : List (String × Nat)) (node : Node) : Prop :=
  ∀ r < node.replicas.toNat, (node.nodeId, r) ∈ P

variable {sha256 hashFunction} {P : List (String × Nat)} {n m : Node} {h : Nat}

theorem mem_positions :
    h ∈ n.positions sha256 hashFunction ↔
      ∃ r < n.replicas.toNat, digest sha256 hashFunction (n.replicaId r) = h := by
  simp [Node.positions]

/-- Under a collision-free `P`, a position belongs to one node id only. -/
theorem nodeId_eq_of_positions (hc : CollisionFree sha256 hashFunction P) (hn : PairsIn P n)
    (hm : PairsIn P m) (hhn : h ∈ n.positions sha256 hashFunction)
    (hhm : h ∈ m.positions sha256 hashFunction) : n.nodeId = m.nodeId := by
  obtain ⟨r, hr, rfl⟩ := mem_positions.1 hhn
  obtain ⟨r', hr', he⟩ := mem_positions.1 hhm
  exact (Prod.mk.inj (hc _ (hn r hr) _ (hm r' hr') he.symm)).1

theorem positions_nodup (hc : CollisionFree sha256 hashFunction P) (hn : PairsIn P n) :
    (n.positions sha256 hashFunction).Nodup := by
  refine (List.nodup_range _).map_on fun r hr r' hr' he => ?_
  exact (Prod.mk.inj (hc _ (hn r (List.mem_range.1 hr)) _ (hn r' (List.mem_range.1 hr')) he)).2

end Collision

/-- The invariant of a collision-free run on hash function `hashFunction`, `P` holding
every pair added so far. -/
structure RingInv (sha256 : List UInt8 → Nat) (hashFunction : String)
    (P : List (String × Nat)) (s : ConsistentHashRing) : Prop where
  hashFunction_eq : s.hashFunction = hashFunction
  supported : Supported hashFunction
  keyed : ∀ k n, (k, n) ∈ s.nodes.entries → n.nodeId = k
  added : ∀ n ∈ s.nodes.values, PairsIn P n
  sorted : s.ring.Sorted (fun e f => e.1 < f.1)
  mem_ring : ∀ h n, (h, n) ∈ s.ring ↔ n ∈ s.nodes.values ∧ h ∈ n.positions sha256 hashFunction
  mem_index : ∀ h n, (h, n) ∈ s.hashToNode.entries ↔ (h, n) ∈ s.ring

namespace RingInv

variable {sha256 : List UInt8 → Nat} {hashFunction : String} {P : List (String × Nat)}
variable {s : ConsistentHashRing}

theorem init (h : Supported hashFunction) :
    RingInv sha256 hashFunction P (ConsistentHashRing.init hashFunction) where
  hashFunction_eq := rfl
  supported := h
  keyed := by simp [ConsistentHashRing.init]
  added := by simp [ConsistentHashRing.init, PyDict.values]
  sorted := List.sorted_nil
  mem_ring := by simp [ConsistentHashRing.init, PyDict.values]
  mem_index := by simp [ConsistentHashRing.init]

theorem mem_values_iff (hi : RingInv sha256 hashFunction P s) {n : Node} :
    n ∈ s.nodes.values ↔ (n.nodeId, n) ∈ s.nodes.entries := by
  refine ⟨fun hn => ?_, fun hn => PyDict.mem_values.2 ⟨_, hn⟩⟩
  obtain ⟨k, hk⟩ := PyDict.mem_values.1 hn
  rwa [← hi.keyed k n hk] at hk

theorem nodeId_mem_keys (hi : RingInv sha256 hashFunction P s) {n : Node}
    (hn : n ∈ s.nodes.values) : n.nodeId ∈ s.nodes.keys :=
  List.mem_map_of_mem _ (hi.mem_values_iff.1 hn)

/-- A registered node is the only registered node with its id. -/
theorem eq_of_nodeId (hi : RingInv sha256 hashFunction P s) {n m : Node}
    (hn : n ∈ s.nodes.values) (hm : m ∈ s.nodes.values) (h : n.nodeId = m.nodeId) : n = m :=
  PyDict.eq_of_mem (hi.mem_values_iff.1 hn) (h ▸ hi.mem_values_iff.1 hm)

theorem ring_nodup (hi : RingInv sha256 hashFunction P s) : (s.ring.map (·.1)).Nodup :=
  (List.pairwise_map.2 (hi.sorted.imp fun h => Nat.ne_of_lt h))

/-- Keys hash under the run's hash function, which is supported. -/
theorem hashKey_eq (hi : RingInv sha256 hashFunction P s) (key : String) :
    s.hashKey sha256 key = .ok (digest sha256 hashFunction key) := by
  rw [ConsistentHashRing.hashKey, hi.hashFunction_eq, hashWith_supported hi.supported]

/-- Every tuple of `ring` is owned by a registered node. -/
theorem owner_registered (hi : RingInv sha256 hashFunction P s) {e : Nat × Node}
    (he : e ∈ s.ring) : e.2 ∈ s.nodes.values :=
  ((hi.mem_ring e.1 e.2).1 he).1

/-- No tuple of `ring` is owned by an unregistered id. -/
theorem nodeId_ne (hi : RingInv sha256 hashFunction P s) {k : String} (hk : k ∉ s.nodes.keys)
    {e : Nat × Node} (he : e ∈ s.ring) : e.2.nodeId ≠ k := fun h =>
  hk (h ▸ hi.nodeId_mem_keys (hi.owner_registered he))

/-- A position of a node with an unregistered id ties with no tuple of `ring`. -/
theorem fresh_position (hi : RingInv sha256 hashFunction P s)
    (hc : CollisionFree sha256 hashFunction P) {node : Node} (hp : PairsIn P node)
    (hid : node.nodeId ∉ s.nodes.keys) {h : Nat} (hh : h ∈ node.positions sha256 hashFunction)
    {e : Nat × Node} (he : e ∈ s.ring) : e.1 ≠ h := by
  rintro rfl
  obtain ⟨hm, hpos⟩ := (hi.mem_ring e.1 e.2).1 he
  rw [nodeId_eq_of_positions hc hp (hi.added _ hm) hh hpos] at hid
  exact hid (hi.nodeId_mem_keys hm)

/-- `add_node` of an unregistered id returns, appending the node to `nodes` and its
tuples to `hash_to_node`, and inserting them into a still strictly sorted `ring`. -/
theorem addNode_eq (hi : RingInv sha256 hashFunction P s)
    (hc : CollisionFree sha256 hashFunction P) {node : Node} (hp : PairsIn P node)
    (hid : node.nodeId ∉ s.nodes.keys) :
    ∃ s', s.addNode sha256 node = .ok () s' ∧ s'.hashFunction = s.hashFunction ∧
      s'.nodes.entries = s.nodes.entries ++ [(node.nodeId, node)] ∧
      s'.ring.Sorted (fun e f => e.1 < f.1) ∧
      s'.ring.Perm (s.ring ++ (node.positions sha256 hashFunction).map (·, node)) ∧
      s'.hashToNode.entries =
        s.hashToNode.entries ++ (node.positions sha256 hashFunction).map (·, node) := by
  have hv : node.getHashValues sha256 s.hashFunction =
      .ok (node.positions sha256 hashFunction) := by
    rw [hi.hashFunction_eq]
    exact Node.getHashValues_supported hi.supported node
  rw [ConsistentHashRing.addNode_fresh hid, hv]
  obtain ⟨s', hloop, hf, hn, hs, hp', he⟩ := ConsistentHashRing.addNode_loop_fresh
    (node.positions sha256 hashFunction) { s with nodes := s.nodes.insert node.nodeId node }
    (positions_nodup hc hp) hi.sorted (fun h hh e he => hi.fresh_position hc hp hid hh he)
    (fun h hh hk => by
      obtain ⟨n, hn⟩ := PyDict.mem_keys.1 hk
      exact hi.fresh_position hc hp hid hh ((hi.mem_index h n).1 hn) rfl)
  exact ⟨s', hloop, hf, hn ▸ PyDict.insert_of_not_mem node hid, hs, hp', he⟩

/-- The step lemma for `add_node`. -/
theorem addNode (hi : RingInv sha256 hashFunction P s)
    (hc : CollisionFree sha256 hashFunction P) {node : Node} (hp : PairsIn P node) :
    RingInv sha256 hashFunction P (stateAfter (s.addNode sha256 node)) := by
  by_cases hid : node.nodeId ∈ s.nodes.keys
  · rw [ConsistentHashRing.addNode_registered hid]
    exact hi
  obtain ⟨s', hs', hf, hn, hsort, hperm, he⟩ := hi.addNode_eq hc hp hid
  have hvals : ∀ m, m ∈ s'.nodes.values ↔ m ∈ s.nodes.values ∨ m = node := fun m => by
    simp only [PyDict.values, hn, List.map_append, List.mem_append, List.map_cons, List.map_nil,
      List.mem_singleton]
  rw [hs']
  show RingInv sha256 hashFunction P s'
  refine ⟨hf.trans hi.hashFunction_eq, hi.supported, fun k m hkm => ?_, fun m hm => ?_, hsort,
    fun h m => ?_, fun h m => ?_⟩
  · rw [hn, List.mem_append, List.mem_singleton] at hkm
    rcases hkm with hkm | hkm
    · exact hi.keyed k m hkm
    · cases hkm; rfl
  · rcases (hvals m).1 hm with hm | rfl
    · exact hi.added m hm
    · exact hp
  · rw [hperm.mem_iff, List.mem_append, hi.mem_ring, hvals]
    simp only [List.mem_map, Prod.mk.injEq]
    constructor
    · rintro (⟨hm, hh⟩ | ⟨h', hh', rfl, rfl⟩)
      · exact ⟨.inl hm, hh⟩
      · exact ⟨.inr rfl, hh'⟩
    · rintro ⟨hm | rfl, hh⟩
      · exact .inl ⟨hm, hh⟩
      · exact .inr ⟨h, hh, rfl, rfl⟩
  · rw [he, List.mem_append, hi.mem_index, hperm.mem_iff, List.mem_append]

/-- Under collision-freedom a tuple's hash is a position of a registered node exactly
when the tuple is that node's. -/
theorem mem_positions_iff (hi : RingInv sha256 hashFunction P s)
    (hc : CollisionFree sha256 hashFunction P) {n : Node} (hn : n ∈ s.nodes.values)
    {e : Nat × Node} (he : e ∈ s.ring) :
    e.1 ∈ n.positions sha256 hashFunction ↔ e.2.nodeId = n.nodeId := by
  obtain ⟨hm, hpos⟩ := (hi.mem_ring e.1 e.2).1 he
  exact ⟨nodeId_eq_of_positions hc (hi.added _ hm) (hi.added _ hn) hpos,
    fun h => hi.eq_of_nodeId hm hn h ▸ hpos⟩

/-- `remove_node` of a registered id returns its node and filters the node's tuples out
of `ring` and `hash_to_node`. -/
theorem removeNode_eq (hi : RingInv sha256 hashFunction P s)
    (hc : CollisionFree sha256 hashFunction P) {nodeId : String} {n : Node}
    (hn : s.nodes.get? nodeId = some n) :
    ∃ s', s.removeNode sha256 nodeId = .ok (some n) s' ∧ s'.hashFunction = s.hashFunction ∧
      s'.nodes = s.nodes.erase nodeId ∧
      s'.ring = s.ring.filter (fun e => e.2.nodeId ≠ nodeId) ∧
      s'.hashToNode.entries = s.hashToNode.entries.filter (fun e => e.2.nodeId ≠ nodeId) := by
  have hkn := PyDict.get?_eq_some.1 hn
  have hid : n.nodeId = nodeId := hi.keyed _ _ hkn
  have hnv : n ∈ s.nodes.values := PyDict.mem_values.2 ⟨_, hkn⟩
  have hv : n.getHashValues sha256 s.hashFunction = .ok (n.positions sha256 hashFunction) := by
    rw [hi.hashFunction_eq]
    exact Node.getHashValues_supported hi.supported n
  have hpos : ∀ e ∈ s.ring, e.1 ∉ n.positions sha256 hashFunction ↔ e.2.nodeId ≠ nodeId :=
    fun e he => by rw [hi.mem_positions_iff hc hnv he, hid]
  let s' := ConsistentHashRing.removeNode.loop n (n.positions sha256 hashFunction) s
  refine ⟨{ s' with nodes := s'.nodes.erase nodeId },
    by simp only [ConsistentHashRing.removeNode, hn, hv, s'], by simp [s'], by simp [s'], ?_, ?_⟩
  · rw [ConsistentHashRing.removeNode_loop_ring _ _ (positions_nodup hc (hi.added _ hnv))
      hi.ring_nodup (fun h hh => (hi.mem_ring h n).2 ⟨hnv, hh⟩)
      (fun h hh => PyDict.mem_keys.2 ⟨n, (hi.mem_index h n).2 ((hi.mem_ring h n).2 ⟨hnv, hh⟩)⟩)]
    exact List.filter_congr fun e he => by simp only [hpos e he]
  · rw [ConsistentHashRing.removeNode_loop_hashToNode]
    exact List.filter_congr fun e he => by
      simp only [hpos e ((hi.mem_index e.1 e.2).1 he)]

theorem mem_values_erase (hi : RingInv sha256 hashFunction P s) {k : String} {m : Node} :
    m ∈ (s.nodes.erase k).values ↔ m ∈ s.nodes.values ∧ m.nodeId ≠ k := by
  simp only [PyDict.mem_values, PyDict.mem_erase]
  constructor
  · rintro ⟨k', hk', hkm⟩
    exact ⟨⟨k', hkm⟩, hi.keyed _ _ hkm ▸ hk'⟩
  · rintro ⟨⟨k', hkm⟩, hne⟩
    exact ⟨k', hi.keyed _ _ hkm ▸ hne, hkm⟩

/-- The step lemma for `remove_node`. -/
theorem removeNode (hi : RingInv sha256 hashFunction P s)
    (hc : CollisionFree sha256 hashFunction P) (nodeId : String) :
    RingInv sha256 hashFunction P (stateAfter (s.removeNode sha256 nodeId)) := by
  cases hn : s.nodes.get? nodeId with
  | none => rw [ConsistentHashRing.removeNode_unregistered hn]; exact hi
  | some n =>
      obtain ⟨s', hs', hf, hnodes, hring, hindex⟩ := hi.removeNode_eq hc hn
      rw [hs']
      show RingInv sha256 hashFunction P s'
      refine ⟨hf.trans hi.hashFunction_eq, hi.supported, fun k m hkm => ?_, fun m hm => ?_,
        hring ▸ hi.sorted.filter _, fun h m => ?_, fun h m => ?_⟩
      · rw [hnodes, PyDict.mem_erase] at hkm
        exact hi.keyed k m hkm.2
      · rw [hnodes, hi.mem_values_erase] at hm
        exact hi.added m hm.1
      · rw [hring, hnodes, hi.mem_values_erase, List.mem_filter, hi.mem_ring]
        simp only [decide_eq_true_eq]
        exact and_right_comm
      · rw [hring, hindex, List.mem_filter, List.mem_filter, hi.mem_index]

/-- The step lemma for any call whose added pairs are in `P`. -/
theorem apply (hi : RingInv sha256 hashFunction P s) (hc : CollisionFree sha256 hashFunction P)
    {call : Call} (hp : ∀ p ∈ call.pairs, p ∈ P) :
    RingInv sha256 hashFunction P (call.apply sha256 s) := by
  cases call with
  | addNode node =>
      exact hi.addNode hc fun r hr => hp _ (List.mem_map.2 ⟨r, List.mem_range.2 hr, rfl⟩)
  | removeNode nodeId => exact hi.removeNode hc nodeId

/-- The run lemma: the invariant holds after every sequence of calls whose added pairs are
in `P`. -/
theorem run (hc : CollisionFree sha256 hashFunction P) :
    ∀ (calls : List Call) (s : ConsistentHashRing), RingInv sha256 hashFunction P s →
      (∀ c ∈ calls, ∀ p ∈ c.pairs, p ∈ P) →
      RingInv sha256 hashFunction P (ConsistentHashLab.run sha256 calls s)
  | [], _, hi, _ => hi
  | c :: cs, _, hi, hp =>
      run hc cs _ (hi.apply hc (hp c (List.mem_cons_self _ _)))
        fun c' hc' => hp c' (List.mem_cons_of_mem _ hc')

end RingInv

/-- Every state reachable by a collision-free run from the empty ring satisfies the
invariant, with `P` the pairs of the whole run. -/
theorem RingInv.reachable {sha256 : List UInt8 → Nat} {hashFunction : String}
    (hf : Supported hashFunction) {calls : List Call}
    (hc : CollisionFree sha256 hashFunction (calls.flatMap Call.pairs)) :
    RingInv sha256 hashFunction (calls.flatMap Call.pairs)
      (ConsistentHashLab.run sha256 calls (ConsistentHashRing.init hashFunction)) :=
  RingInv.run hc calls _ (RingInv.init hf) fun c hc' _ hp => List.mem_flatMap.2 ⟨c, hc', hp⟩

/-- `s` is reached from `ConsistentHashRing(hash_function)` by a run no two of whose added
pairs collide. -/
def Reachable (sha256 : List UInt8 → Nat) (hashFunction : String) (s : ConsistentHashRing) :
    Prop :=
  ∃ calls : List Call, CollisionFree sha256 hashFunction (calls.flatMap Call.pairs) ∧
    run sha256 calls (ConsistentHashRing.init hashFunction) = s

theorem Reachable.inv {sha256 : List UInt8 → Nat} {hashFunction : String}
    {s : ConsistentHashRing} (hf : Supported hashFunction) (h : Reachable sha256 hashFunction s) :
    ∃ P, RingInv sha256 hashFunction P s ∧ CollisionFree sha256 hashFunction P := by
  obtain ⟨calls, hc, rfl⟩ := h
  exact ⟨_, RingInv.reachable hf hc, hc⟩

/-- What the ring's tables say of each other: `ring` is strictly ascending; as a multiset,
`get_ring_state()` is the `(hash, node_id)` pairs of the registered nodes'
`get_hash_values`; `hash_to_node` has exactly the hashes of `ring` as keys and maps each to
that tuple's node. -/
structure TablesAgree (sha256 : List UInt8 → Nat) (hashFunction : String)
    (s : ConsistentHashRing) : Prop where
  ascending : s.ring.Sorted (fun e f => e.1 < f.1)
  hashValues : ∀ n ∈ s.nodes.values,
    n.getHashValues sha256 hashFunction = .ok (n.positions sha256 hashFunction)
  ringState : s.getRingState.Perm
    (s.nodes.values.flatMap fun n => (n.positions sha256 hashFunction).map (·, n.nodeId))
  indexKeys : s.hashToNode.keys.Perm (s.ring.map (·.1))
  indexNodes : ∀ h n, s.hashToNode.get? h = some n ↔ (h, n) ∈ s.ring

namespace RingInv

variable {sha256 : List UInt8 → Nat} {hashFunction : String} {P : List (String × Nat)}
variable {s : ConsistentHashRing}

theorem values_nodup (hi : RingInv sha256 hashFunction P s) : s.nodes.values.Nodup :=
  (List.Nodup.of_map Prod.fst s.nodes.nodup).map_on fun x hx y hy h =>
    Prod.ext ((hi.keyed x.1 x.2 hx).symm.trans (h ▸ hi.keyed y.1 y.2 hy)) h

theorem tablesAgree (hi : RingInv sha256 hashFunction P s)
    (hc : CollisionFree sha256 hashFunction P) : TablesAgree sha256 hashFunction s where
  ascending := hi.sorted
  hashValues n _ := Node.getHashValues_supported hi.supported n
  ringState := by
    refine (List.perm_ext_iff_of_nodup ?_ ?_).2 fun x => ?_
    · refine List.Nodup.of_map Prod.fst ?_
      rw [ConsistentHashRing.getRingState, List.map_map]
      exact hi.ring_nodup
    · refine List.nodup_flatMap.2 ⟨fun n hn => (positions_nodup hc (hi.added n hn)).map
        fun _ _ h => (Prod.ext_iff.1 h).1, hi.values_nodup.imp_of_mem fun hn hm hne => ?_⟩
      refine List.disjoint_left.2 fun x hx hx' => hne ?_
      simp only [List.mem_map] at hx hx'
      obtain ⟨h, hh, rfl⟩ := hx
      obtain ⟨h', hh', he⟩ := hx'
      obtain ⟨rfl, -⟩ := Prod.mk.inj he
      exact hi.eq_of_nodeId hn hm (nodeId_eq_of_positions hc (hi.added _ hn) (hi.added _ hm) hh hh')
    · simp only [ConsistentHashRing.getRingState, List.mem_map, List.mem_flatMap]
      constructor
      · rintro ⟨⟨h, n⟩, he, rfl⟩
        obtain ⟨hn, hh⟩ := (hi.mem_ring h n).1 he
        exact ⟨n, hn, h, hh, rfl⟩
      · rintro ⟨n, hn, h, hh, rfl⟩
        exact ⟨(h, n), (hi.mem_ring h n).2 ⟨hn, hh⟩, rfl⟩
  indexKeys := by
    refine (List.perm_ext_iff_of_nodup s.hashToNode.nodup hi.ring_nodup).2 fun h => ?_
    simp only [PyDict.keys, List.mem_map]
    exact ⟨fun ⟨e, he, hh⟩ => ⟨e, (hi.mem_index e.1 e.2).1 he, hh⟩,
      fun ⟨e, he, hh⟩ => ⟨e, (hi.mem_index e.1 e.2).2 he, hh⟩⟩
  indexNodes h n := PyDict.get?_eq_some.trans (hi.mem_index h n)

end RingInv

/-- Every state a collision-free run reaches from the empty ring, rejected adds and
removals of unregistered ids included, keeps its tables in agreement. -/
theorem reachable_tablesAgree (sha256 : List UInt8 → Nat) (hashFunction : String)
    (hf : Supported hashFunction) (calls : List Call)
    (hc : CollisionFree sha256 hashFunction (calls.flatMap Call.pairs)) :
    TablesAgree sha256 hashFunction
      (run sha256 calls (ConsistentHashRing.init hashFunction)) :=
  (RingInv.reachable hf hc).tablesAgree hc

/-- A run with a rejected duplicate, a removal of an unregistered id and a real removal. -/
theorem reachable_tablesAgree_mixed_run :
    let calls := [Call.addNode ⟨"a", 2⟩, .addNode ⟨"b", 1⟩, .addNode ⟨"a", 3⟩,
      .removeNode "c", .removeNode "a"]
    Supported "fnv1a" ∧ CollisionFree (fun _ => 0) "fnv1a" (calls.flatMap Call.pairs) ∧
      TablesAgree (fun _ => 0) "fnv1a" (run (fun _ => 0) calls (ConsistentHashRing.init "fnv1a")) :=
  have hc : CollisionFree (fun _ => 0) "fnv1a" _ := by decide
  ⟨by decide, hc, reachable_tablesAgree _ _ (by decide) _ hc⟩

end ConsistentHashLab

