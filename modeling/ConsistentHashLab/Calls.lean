import ConsistentHashLab.Ring

/-! # What `add_node` and `remove_node` do

One lemma for each way a call can end. `add_node` rejects a registered id untouched, and
otherwise registers the node before anything can fail. Its loop, when the new positions
are fresh, returns with them inserted in order (`addNode_loop_fresh`); whenever it
returns, the ring is still sorted and holds the new tuples, and no old tuple owned by
another node ties with a new one (`addNode_loop_ok`). `remove_node` can only raise
before it mutates (`removeNode_error`); on a ring whose hashes are distinct and hold the
node's positions, its loop filters them out of `ring` and `hash_to_node`
(`removeNode_loop_ring`, `removeNode_loop_hashToNode`).
-/

namespace ConsistentHashLab

/-- On a list with distinct hashes, `list.remove` of a present tuple drops that hash. -/
theorem eraseP_entryEq {ring : List (Nat × Node)} {x : Nat × Node}
    (hn : (ring.map (·.1)).Nodup) (hx : x ∈ ring) :
    ring.eraseP (entryEq · x) = ring.filter (fun e => e.1 ≠ x.1) := by
  induction ring with
  | nil => simp at hx
  | cons e es ih =>
      simp only [List.map_cons, List.nodup_cons, List.mem_map] at hn
      rcases List.mem_cons.1 hx with rfl | hx
      · have : ∀ f ∈ es, f.1 ≠ x.1 := fun f hf hfe => hn.1 ⟨f, hf, hfe⟩
        rw [List.eraseP_cons_of_pos (by simp [entryEq]), List.filter_cons_of_neg (by simp),
          List.filter_eq_self.2 fun f hf => decide_eq_true (this f hf)]
      · have hne : e.1 ≠ x.1 := fun h => hn.1 ⟨x, hx, h.symm⟩
        rw [List.eraseP_cons_of_neg (by simp [entryEq, hne]),
          List.filter_cons_of_pos (by simpa using hne), ih hn.2 hx]

namespace ConsistentHashRing

variable {sha256 : List UInt8 → Nat} {s : ConsistentHashRing} {node : Node}

theorem addNode_registered (h : node.nodeId ∈ s.nodes.keys) :
    s.addNode sha256 node =
      .error (.valueError ("Node " ++ node.nodeId ++ " already exists in the ring")) s := by
  simp [addNode, h]

/-- Past the duplicate check the node is registered before its positions are hashed. -/
theorem addNode_fresh (h : node.nodeId ∉ s.nodes.keys) :
    s.addNode sha256 node =
      match node.getHashValues sha256 s.hashFunction with
      | .ok hashValues =>
          addNode.loop node hashValues { s with nodes := s.nodes.insert node.nodeId node }
      | .error e => .error e { s with nodes := s.nodes.insert node.nodeId node } := by
  exact if_neg h

/-- When the new positions are distinct and meet no hash of `ring` or `hash_to_node`, the
loop returns, having appended them to `hash_to_node` and inserted them into a strictly
sorted `ring`. -/
theorem addNode_loop_fresh :
    ∀ (hs : List Nat) (t : ConsistentHashRing), hs.Nodup →
      t.ring.Sorted (fun e f => e.1 < f.1) → (∀ h ∈ hs, ∀ e ∈ t.ring, e.1 ≠ h) →
      (∀ h ∈ hs, h ∉ t.hashToNode.keys) →
      ∃ s', addNode.loop node hs t = .ok () s' ∧ s'.hashFunction = t.hashFunction ∧
        s'.nodes = t.nodes ∧ s'.ring.Sorted (fun e f => e.1 < f.1) ∧
        s'.ring.Perm (t.ring ++ hs.map (·, node)) ∧
        s'.hashToNode.entries = t.hashToNode.entries ++ hs.map (·, node)
  | [], t, _, hs, _, _ => ⟨t, rfl, rfl, rfl, hs, by simp, by simp⟩
  | h :: rest, t, hnd, hs, hring, hkeys => by
      rw [List.nodup_cons] at hnd
      have hfresh : ∀ e ∈ t.ring, e.1 ≠ h := fun e he => hring h (List.mem_cons_self _ _) e he
      obtain ⟨ring₁, hins⟩ : ∃ ring₁, insort entryLt t.ring (h, node) = .ok ring₁ :=
        insort_ok fun e he heh => (hfresh e he heh).elim
      obtain ⟨j, rfl, below, above⟩ := insort_split (hs.imp fun h => Nat.le_of_lt h) hins
      have hsorted : (t.ring.take j ++ (h, node) :: t.ring.drop j).Sorted (fun e f => e.1 < f.1) :=
        sorted_take_cons_drop hs
          (fun e he => lt_of_le_of_ne (below e he) (hfresh e (List.mem_of_mem_take he))) above
      have hperm : (t.ring.take j ++ (h, node) :: t.ring.drop j).Perm ((h, node) :: t.ring) :=
        List.perm_middle.trans (by rw [List.take_append_drop])
      have hentries : (t.hashToNode.insert h node).entries = t.hashToNode.entries ++ [(h, node)] :=
        PyDict.insert_of_not_mem node (hkeys h (List.mem_cons_self _ _))
      obtain ⟨s', hloop, hf, hn, hs', hp, he⟩ := addNode_loop_fresh rest
        { t with hashToNode := t.hashToNode.insert h node,
                 ring := t.ring.take j ++ (h, node) :: t.ring.drop j } hnd.2 hsorted
        (fun h' hh' e he' => by
          rcases List.mem_cons.1 (hperm.subset he') with rfl | he'
          · exact fun heq => hnd.1 (by rw [show h = h' from heq]; exact hh')
          · exact hring h' (List.mem_cons_of_mem _ hh') e he')
        (fun h' hh' hk => by
          rw [PyDict.keys, hentries, List.map_append, List.mem_append] at hk
          rcases hk with hk | hk
          · exact hkeys h' (List.mem_cons_of_mem _ hh') hk
          · simp only [List.map_cons, List.map_nil, List.mem_singleton] at hk
            exact hnd.1 (hk ▸ hh'))
      refine ⟨s', ?_, hf, hn, hs', ?_, ?_⟩
      · simp only [addNode.loop, hins]
        exact hloop
      · refine hp.trans ?_
        simpa using (hperm.append_right _).trans (List.perm_middle.symm)
      · rw [he, hentries]
        simp

/-- Whenever the loop returns onto a sorted ring, the ring stays sorted and gains exactly
the new tuples, and an old tuple `base` owned by another node never ties with a new
one: the search would have had to compare the two and raise. -/
theorem addNode_loop_ok {base : List (Nat × Node)}
    (hbase : ∀ e ∈ base, e.2.nodeId ≠ node.nodeId) :
    ∀ (hs done : List Nat) (t s' : ConsistentHashRing),
      t.ring.Sorted (fun e f => e.1 ≤ f.1) → t.ring.Perm (base ++ done.map (·, node)) →
      (∀ e ∈ base, e.1 ∉ done) → addNode.loop node hs t = .ok () s' →
      s'.ring.Sorted (fun e f => e.1 ≤ f.1) ∧ s'.ring.Perm (base ++ (done ++ hs).map (·, node)) ∧
        ∀ e ∈ base, e.1 ∉ done ++ hs
  | [], done, t, s', hs, hp, hd, hloop => by
      cases hloop
      simp only [List.append_nil]
      exact ⟨hs, hp, hd⟩
  | h :: rest, done, t, s', hs, hp, hd, hloop => by
      simp only [addNode.loop] at hloop
      split at hloop
      · rename_i ring₁ hins
        obtain ⟨j, rfl, below, above⟩ := insort_split hs hins
        have hnew : ∀ e ∈ base, e.1 ≠ h := by
          intro e he heh
          obtain ⟨f, hf, hfh, hfn⟩ :=
            insort_tie hs hins (hp.symm.subset (List.mem_append_left _ he)) heh
          rcases List.mem_append.1 (hp.subset hf) with hf | hf
          · exact hbase f hf ((Node.eq_iff.1 hfn).symm)
          · obtain ⟨h', hh', rfl⟩ := List.mem_map.1 hf
            have : h' = h := hfh
            exact hd e he (by rw [heh, ← this]; exact hh')
        have := addNode_loop_ok hbase rest (done ++ [h])
          { t with hashToNode := t.hashToNode.insert h node,
                   ring := t.ring.take j ++ (h, node) :: t.ring.drop j } s'
          (sorted_take_cons_drop hs below fun e he => Nat.le_of_lt (above e he))
          (List.perm_middle.trans (by
            rw [List.take_append_drop]
            simpa [← List.append_assoc] using
              ((List.perm_cons _).2 hp).trans (List.perm_append_singleton _ _).symm))
          (fun e he hmem => by
            rcases List.mem_append.1 hmem with hmem | hmem
            · exact hd e he hmem
            · exact hnew e he (List.mem_singleton.1 hmem))
          hloop
        simpa only [List.append_assoc, List.singleton_append] using this
      · cases hloop

/-- The loop of `add_node` leaves the hash function and `nodes` alone. -/
theorem addNode_loop_frame :
    ∀ (hs : List Nat) (t : ConsistentHashRing),
      (stateAfter (addNode.loop node hs t)).hashFunction = t.hashFunction ∧
        (stateAfter (addNode.loop node hs t)).nodes = t.nodes
  | [], _ => ⟨rfl, rfl⟩
  | h :: rest, t => by
      simp only [addNode.loop]
      split
      · exact addNode_loop_frame rest _
      · exact ⟨rfl, rfl⟩

/-- Whether it returns or raises, `add_node` leaves `nodes` with the node registered
unless its id already was. -/
theorem addNode_nodes (node : Node) :
    (stateAfter (s.addNode sha256 node)).nodes =
      if node.nodeId ∈ s.nodes.keys then s.nodes else s.nodes.insert node.nodeId node := by
  by_cases hid : node.nodeId ∈ s.nodes.keys
  · rw [addNode_registered hid, if_pos hid]
    rfl
  · rw [addNode_fresh hid, if_neg hid]
    cases node.getHashValues sha256 s.hashFunction with
    | ok hs => exact (addNode_loop_frame hs _).2
    | error e => rfl

/-- Filtering a node's tuples out of a list they were appended to gives the list back. -/
theorem filter_append_positions {base : List (Nat × Node)}
    (hbase : ∀ e ∈ base, e.2.nodeId ≠ node.nodeId) (hs : List Nat) :
    (base ++ hs.map (·, node)).filter (fun e => e.2.nodeId ≠ node.nodeId) = base := by
  rw [List.filter_append, List.filter_eq_self.2 fun e he => by simpa using hbase e he,
    List.filter_eq_nil_iff.2 (by simp), List.append_nil]

theorem removeNode_unregistered {nodeId : String} (h : s.nodes.get? nodeId = none) :
    s.removeNode sha256 nodeId = .ok none s := by
  simp [removeNode, h]

/-- `remove_node` raises only from `get_hash_values`, before it mutates anything. -/
theorem removeNode_error {nodeId : String} {e : PyError} {s' : ConsistentHashRing}
    (h : s.removeNode sha256 nodeId = .error e s') : s' = s := by
  unfold removeNode at h
  split at h
  · cases h
  · split at h
    · cases h; rfl
    · cases h

@[simp] theorem removeNode_loop_nodes :
    ∀ (hs : List Nat) (t : ConsistentHashRing), (removeNode.loop node hs t).nodes = t.nodes
  | [], _ => rfl
  | h :: rest, t => by
      unfold removeNode.loop
      split <;> exact removeNode_loop_nodes rest _

@[simp] theorem removeNode_loop_hashFunction :
    ∀ (hs : List Nat) (t : ConsistentHashRing),
      (removeNode.loop node hs t).hashFunction = t.hashFunction
  | [], _ => rfl
  | h :: rest, t => by
      unfold removeNode.loop
      split <;> exact removeNode_loop_hashFunction rest _

/-- The loop leaves in `hash_to_node` exactly the hashes it was not given. -/
theorem removeNode_loop_hashToNode :
    ∀ (hs : List Nat) (t : ConsistentHashRing),
      (removeNode.loop node hs t).hashToNode.entries =
        t.hashToNode.entries.filter (fun e => e.1 ∉ hs)
  | [], t => by simp [removeNode.loop]
  | h :: rest, t => by
      unfold removeNode.loop
      split
      · rw [removeNode_loop_hashToNode rest]
        simp [PyDict.erase, List.filter_filter, Bool.and_comm]
      · rename_i hk
        rw [removeNode_loop_hashToNode rest]
        refine List.filter_congr fun e he => ?_
        have : e.1 ≠ h := fun heq => hk (heq ▸ List.mem_map_of_mem _ he)
        simp [this]

theorem listRemove_of_mem {l : List (Nat × Node)} {x : Nat × Node} (hx : x ∈ l) :
    listRemove l x = .ok (l.eraseP (entryEq · x)) := by
  have : l.any (entryEq · x) = true := List.any_eq_true.2 ⟨x, hx, by simp [entryEq]⟩
  simp [listRemove, this]

/-- On a ring with distinct hashes holding `(h, node)` for each given hash, all of them
still in `hash_to_node`, the loop filters those hashes out of `ring`. -/
theorem removeNode_loop_ring :
    ∀ (hs : List Nat) (t : ConsistentHashRing), hs.Nodup → (t.ring.map (·.1)).Nodup →
      (∀ h ∈ hs, (h, node) ∈ t.ring) → (∀ h ∈ hs, h ∈ t.hashToNode.keys) →
      (removeNode.loop node hs t).ring = t.ring.filter (fun e => e.1 ∉ hs)
  | [], t, _, _, _, _ => by simp [removeNode.loop]
  | h :: rest, t, hnd, hn, hmem, hkeys => by
      rw [List.nodup_cons] at hnd
      have hh := hmem h (List.mem_cons_self _ _)
      rw [removeNode.loop, if_pos (hkeys h (List.mem_cons_self _ _))]
      simp only [listRemove_of_mem hh, eraseP_entryEq hn hh]
      rw [removeNode_loop_ring rest _ hnd.2 (hn.sublist ((List.filter_sublist _).map _))
        (fun h' hh' => List.mem_filter.2 ⟨hmem h' (List.mem_cons_of_mem _ hh'),
          by simpa using fun heq : h' = h => hnd.1 (heq ▸ hh')⟩)
        (fun h' hh' => by
          obtain ⟨v, hv⟩ := PyDict.mem_keys.1 (hkeys h' (List.mem_cons_of_mem _ hh'))
          exact PyDict.mem_keys.2
            ⟨v, PyDict.mem_erase.2 ⟨fun heq : h' = h => hnd.1 (heq ▸ hh'), hv⟩⟩)]
      simp [List.filter_filter, Bool.and_comm]

@[simp] theorem addNode_hashFunction (node : Node) :
    (stateAfter (s.addNode sha256 node)).hashFunction = s.hashFunction := by
  by_cases hid : node.nodeId ∈ s.nodes.keys
  · rw [addNode_registered hid]
    rfl
  · rw [addNode_fresh hid]
    cases node.getHashValues sha256 s.hashFunction with
    | ok hs => exact (addNode_loop_frame hs _).1
    | error e => rfl

@[simp] theorem removeNode_hashFunction (nodeId : String) :
    (stateAfter (s.removeNode sha256 nodeId)).hashFunction = s.hashFunction := by
  unfold removeNode
  split
  · rfl
  · split
    · rfl
    · simp [stateAfter]

section Fnv1a

/-! Under FNV-1a the ring never calls `hashlib.sha256`, so nothing it does depends on
the digest. -/

variable (sha256 sha256' : List UInt8 → Nat)

theorem getHashValues_fnv1a (node : Node) :
    node.getHashValues sha256 "fnv1a" = node.getHashValues sha256' "fnv1a" := by
  rw [Node.getHashValues_supported (.inr rfl), Node.getHashValues_supported (.inr rfl)]
  simp [Node.positions]

theorem addNode_fnv1a (h : s.hashFunction = "fnv1a") (node : Node) :
    s.addNode sha256 node = s.addNode sha256' node := by
  simp only [addNode, h, getHashValues_fnv1a sha256 sha256']

theorem removeNode_fnv1a (h : s.hashFunction = "fnv1a") (nodeId : String) :
    s.removeNode sha256 nodeId = s.removeNode sha256' nodeId := by
  simp only [removeNode, h, getHashValues_fnv1a sha256 sha256']

theorem getNodeForKey_fnv1a (h : s.hashFunction = "fnv1a") (key : String) :
    s.getNodeForKey sha256 key = s.getNodeForKey sha256' key := by
  simp only [getNodeForKey, hashKey, h, hashWith_supported (Or.inr rfl : Supported "fnv1a"),
    digest_fnv1a]

end Fnv1a

end ConsistentHashRing

namespace Call

theorem apply_hashFunction (sha256 : List UInt8 → Nat) (call : Call) (s : ConsistentHashRing) :
    (call.apply sha256 s).hashFunction = s.hashFunction := by
  cases call <;> simp [apply]

end Call

theorem run_hashFunction (sha256 : List UInt8 → Nat) :
    ∀ (calls : List Call) (s : ConsistentHashRing),
      (run sha256 calls s).hashFunction = s.hashFunction
  | [], _ => rfl
  | c :: cs, s => (run_hashFunction sha256 cs _).trans (Call.apply_hashFunction sha256 c s)

/-- A run on an FNV-1a ring is the same whatever `hashlib.sha256` computes. -/
theorem run_fnv1a (sha256 sha256' : List UInt8 → Nat) :
    ∀ (calls : List Call) (s : ConsistentHashRing), s.hashFunction = "fnv1a" →
      run sha256 calls s = run sha256' calls s
  | [], _, _ => rfl
  | c :: cs, s, h => by
      have hc : c.apply sha256 s = c.apply sha256' s := by
        cases c with
        | addNode node => exact congrArg stateAfter (ConsistentHashRing.addNode_fnv1a _ _ h node)
        | removeNode nodeId =>
            exact congrArg stateAfter (ConsistentHashRing.removeNode_fnv1a _ _ h nodeId)
      show run sha256 cs (c.apply sha256 s) = run sha256' cs (c.apply sha256' s)
      rw [hc]
      exact run_fnv1a sha256 sha256' cs _ ((Call.apply_hashFunction _ c s).trans h)

end ConsistentHashLab
