import ConsistentHashLab.Replicas

/-! # What every run keeps

`RingInv` needs runs whose positions never collide; a collision makes a call raise half-way
and can leave `ring`, `hash_to_node` and `nodes` out of step. Two facts survive every run
from a new ring, whatever the hash function and whichever calls raise: `ring` stays sorted
by hash, since `insort` either inserts in order or raises before inserting and
`list.remove` only deletes; and `nodes` maps each id to a node with that id. So on every
such state a lookup is still the clockwise walk from the key's hash. And on any object at
all `get_node_for_key` raises only for an unsupported hash function or a tie with `None`:
the wrap-around keeps `ring[index]` inside the list.
-/

namespace ConsistentHashLab

/-- What every state reached from a new ring keeps. -/
structure WellFormed (s : ConsistentHashRing) : Prop where
  sorted : s.ring.Sorted (fun e f => e.1 ≤ f.1)
  keyed : ∀ k n, (k, n) ∈ s.nodes.entries → n.nodeId = k

namespace ConsistentHashRing

variable {node : Node}

/-- Whether it returns or raises, the loop of `add_node` keeps `ring` sorted: an `insort`
that returns inserts in order, and one that raises leaves `ring` as it was. -/
theorem addNode_loop_sorted :
    ∀ (hs : List Nat) (t : ConsistentHashRing), t.ring.Sorted (fun e f => e.1 ≤ f.1) →
      (stateAfter (addNode.loop node hs t)).ring.Sorted (fun e f => e.1 ≤ f.1)
  | [], _, hs => hs
  | h :: rest, t, hs => by
      simp only [addNode.loop]
      split
      · rename_i ring₁ hins
        obtain ⟨j, rfl, below, above⟩ := insort_split hs hins
        exact addNode_loop_sorted rest _
          (sorted_take_cons_drop hs below fun e he => Nat.le_of_lt (above e he))
      · exact hs

/-- The loop of `remove_node` only deletes tuples from `ring`. -/
theorem removeNode_loop_sublist :
    ∀ (hs : List Nat) (t : ConsistentHashRing), (removeNode.loop node hs t).ring.Sublist t.ring
  | [], _ => List.Sublist.refl _
  | h :: rest, t => by
      by_cases hk : h ∈ t.hashToNode.keys
      · rw [removeNode_loop_cons_mem hk]
        exact (removeNode_loop_sublist rest _).trans (List.eraseP_sublist _)
      · rw [removeNode.loop, if_neg hk]
        exact removeNode_loop_sublist rest t

end ConsistentHashRing

namespace WellFormed

variable {sha256 : List UInt8 → Nat} {s : ConsistentHashRing}

theorem init (hashFunction : String) : WellFormed (ConsistentHashRing.init hashFunction) :=
  ⟨List.sorted_nil, by simp [ConsistentHashRing.init]⟩

/-- The step lemma for `add_node`, whether it returns or raises. -/
theorem addNode (hw : WellFormed s) (node : Node) :
    WellFormed (stateAfter (s.addNode sha256 node)) := by
  refine ⟨?_, fun k n hkn => ?_⟩
  · by_cases hid : node.nodeId ∈ s.nodes.keys
    · rw [ConsistentHashRing.addNode_registered hid]
      exact hw.sorted
    · rw [ConsistentHashRing.addNode_fresh hid]
      cases node.getHashValues sha256 s.hashFunction with
      | ok hs => exact ConsistentHashRing.addNode_loop_sorted hs _ hw.sorted
      | error e => exact hw.sorted
  · rw [ConsistentHashRing.addNode_nodes] at hkn
    split_ifs at hkn
    · exact hw.keyed k n hkn
    · rcases PyDict.mem_insert.1 hkn with heq | ⟨-, hkn⟩
      · rw [Prod.mk.injEq] at heq
        rw [heq.1, heq.2]
      · exact hw.keyed k n hkn

/-- The step lemma for `remove_node`, whether it returns or raises. -/
theorem removeNode (hw : WellFormed s) (nodeId : String) :
    WellFormed (stateAfter (s.removeNode sha256 nodeId)) := by
  unfold ConsistentHashRing.removeNode
  split
  · exact hw
  · split
    · exact hw
    · rename_i node _ hs _
      refine ⟨hw.sorted.sublist (ConsistentHashRing.removeNode_loop_sublist hs s), fun k n hkn => ?_⟩
      simp only [stateAfter, ConsistentHashRing.removeNode_loop_nodes, PyDict.mem_erase] at hkn
      exact hw.keyed k n hkn.2

theorem apply (hw : WellFormed s) : ∀ call : Call, WellFormed (call.apply sha256 s)
  | .addNode node => hw.addNode node
  | .removeNode nodeId => hw.removeNode nodeId

/-- The run lemma: every sequence of calls keeps the invariant. -/
theorem run (sha256 : List UInt8 → Nat) :
    ∀ (calls : List Call) (s : ConsistentHashRing), WellFormed s →
      WellFormed (ConsistentHashLab.run sha256 calls s)
  | [], _, hw => hw
  | call :: calls, _, hw => run sha256 calls _ (hw.apply call)

/-- The ids of `nodes` are its nodes' ids. -/
theorem keys_eq (hw : WellFormed s) : s.nodes.keys = s.nodes.values.map (·.nodeId) := by
  simp only [PyDict.keys, PyDict.values, List.map_map]
  exact List.map_congr_left fun e he => (hw.keyed e.1 e.2 he).symm

theorem values_erase (hw : WellFormed s) (k : String) :
    (s.nodes.erase k).values = s.nodes.values.filter (·.nodeId ≠ k) := by
  simp only [PyDict.values, PyDict.erase, List.filter_map]
  congr 1
  exact List.filter_congr fun e he => by rw [Function.comp_apply, hw.keyed e.1 e.2 he]

end WellFormed

namespace ConsistentHashRing

/-- Over any run from a new ring, whatever the hash function and however many calls collide
or raise half-way, `ring` stays sorted by hash and `nodes` maps each id to a node with that
id. So a lookup that returns is still the clockwise walk: `None` on the empty ring, and
otherwise the node of the first tuple after the key's hash, wrapping around. -/
theorem run_keeps_ring_sorted (sha256 : List UInt8 → Nat) (hashFunction : String)
    (calls : List Call) (s : ConsistentHashRing) (hrun : run sha256 calls (init hashFunction) = s) :
    s.ring.Sorted (fun e f => e.1 ≤ f.1) ∧ (∀ k n, (k, n) ∈ s.nodes.entries → n.nodeId = k) ∧
      ∀ key r, s.getNodeForKey sha256 key = .ok r → (s.ring = [] ∧ r = none) ∨
        ∃ h, s.hashKey sha256 key = .ok h ∧ (∀ e ∈ s.ring, e.1 ≠ h) ∧
          r = (clockwise s.ring h).head?.map (·.2) := by
  have hw : WellFormed s := hrun ▸ WellFormed.run sha256 calls _ (WellFormed.init hashFunction)
  exact ⟨hw.sorted, hw.keyed, fun key r => (getNodeForKey_eq_ok hw.sorted).1⟩

/-- The run in which "liquid-0" collides with "costarring-0", after which removing both
nodes leaves a tuple of "costarring" behind: the ring is still sorted, and "foo" still
goes to the first tuple clockwise from its hash. -/
theorem run_keeps_ring_sorted_orphan :
    (run (fun _ => 0) [.addNode ⟨"costarring", 1⟩, .addNode ⟨"liquid", 1⟩, .removeNode "liquid",
        .removeNode "costarring"] (init "fnv1a")).getNodeForKey (fun _ => 0) "foo" =
      .ok (some ⟨"costarring", 1⟩) ∧
      ∃ h, (run (fun _ => 0) [.addNode ⟨"costarring", 1⟩, .addNode ⟨"liquid", 1⟩,
          .removeNode "liquid", .removeNode "costarring"] (init "fnv1a")).hashKey (fun _ => 0)
          "foo" = .ok h ∧
        some ⟨"costarring", 1⟩ = ((clockwise (run (fun _ => 0) [.addNode ⟨"costarring", 1⟩,
          .addNode ⟨"liquid", 1⟩, .removeNode "liquid", .removeNode "costarring"]
          (init "fnv1a")).ring h).head?.map (·.2)) := by
  have hget : (run (fun _ => 0) [.addNode ⟨"costarring", 1⟩, .addNode ⟨"liquid", 1⟩,
      .removeNode "liquid", .removeNode "costarring"] (init "fnv1a")).getNodeForKey (fun _ => 0)
      "foo" = .ok (some ⟨"costarring", 1⟩) := rfl
  obtain ⟨-, -, hlook⟩ := run_keeps_ring_sorted _ _ _ _ rfl
  rcases hlook "foo" _ hget with ⟨hnil, -⟩ | ⟨h, hk, -, hr⟩
  · exact absurd hnil (by decide)
  · exact ⟨hget, h, hk, hr⟩

/-- What `get_node_for_key` can raise on any object. -/
theorem getNodeForKey_error_cases {sha256 : List UInt8 → Nat} {s : ConsistentHashRing}
    {key : String} {err : PyError} (h : s.getNodeForKey sha256 key = .error err) :
    err = .valueError ("Unsupported hash function: " ++ s.hashFunction) ∨ err = noneTieError := by
  by_cases hr : s.ring = []
  · rw [getNodeForKey_nil hr] at h
    cases h
  cases hk : s.hashKey sha256 key with
  | error e =>
      rw [getNodeForKey_hashKey_error hr hk, Except.error.injEq] at h
      subst h
      by_cases hsup : Supported s.hashFunction
      · rw [hashKey, hashWith_supported hsup] at hk
        cases hk
      · rw [hashKey, hashWith_unsupported hsup, Except.error.injEq] at hk
        exact .inl hk.symm
  | ok kh =>
      simp only [getNodeForKey, hr, if_false, hk] at h
      change (bisectRight sentinelLt s.ring (kh, ()) >>= _) = _ at h
      cases hb : bisectRight sentinelLt s.ring (kh, ()) with
      | error e =>
          rw [hb] at h
          cases h
          exact .inr (bisectRight_error hb)
      | ok i =>
          have hlt : (if i ≥ s.ring.length then 0 else i) < s.ring.length := by
            split_ifs <;> simp_all [List.length_pos]
          simp [hb, bind, Except.bind, List.getElem?_eq_getElem hlt, pure, Except.pure] at h

/-- On any object at all, `get_node_for_key` raises only the `ValueError` of an unsupported
hash function or the `TypeError` of comparing `None` with a node: past the end the index
wraps to 0 of a nonempty ring, so `ring[index]` never raises `IndexError`. The key is a
`String`: on a `str` with a lone surrogate `_hash_key` raises `UnicodeEncodeError` first
(`pyEncode`). -/
theorem getNodeForKey_never_indexError (sha256 : List UInt8 → Nat) (s : ConsistentHashRing)
    (key : String) (err : PyError) (h : s.getNodeForKey sha256 key = .error err) :
    err = .valueError ("Unsupported hash function: " ++ s.hashFunction) ∨ err = noneTieError :=
  getNodeForKey_error_cases h

/-- A ring named "md5" holding one tuple raises `ValueError` on every lookup. -/
theorem getNodeForKey_never_indexError_md5 :
    (⟨"md5", [(1, ⟨"a", 1⟩)], .empty, .empty⟩ : ConsistentHashRing).getNodeForKey (fun _ => 0)
        "foo" = .error (.valueError "Unsupported hash function: md5") ∧
      ((PyError.valueError "Unsupported hash function: md5") =
          .valueError ("Unsupported hash function: " ++ "md5") ∨
        PyError.valueError "Unsupported hash function: md5" = noneTieError) := by
  have h : (⟨"md5", [(1, ⟨"a", 1⟩)], .empty, .empty⟩ : ConsistentHashRing).getNodeForKey
      (fun _ => 0) "foo" = .error (.valueError "Unsupported hash function: md5") := rfl
  exact ⟨h, getNodeForKey_never_indexError _ _ _ _ h⟩

end ConsistentHashRing

end ConsistentHashLab
