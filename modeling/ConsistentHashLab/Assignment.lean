import ConsistentHashLab.AnyRun

/-! # Consistent hashing's assignment

What the ring is for, stated without it: each registered node puts its positions on a
circle of hashes, and a hash belongs to the node of the first point a clockwise walk
from it meets: the least point above the hash, or, when no point lies above it, the least
point of all (`Owner`). The state this is about is the set of registered nodes, which a
call changes as `Call.nodesAfter` says. The ring's list, its bisection and its wrap-around
are how the code finds the first point. Over every run the code's `nodes` follow
`runNodes`, and on a collision-free run `get_node_for_key` returns exactly the owner of the
key's hash, and raises when the hash is itself a point. Two consequences: the ring is the
points sorted all at once, and a key never moves between two nodes that both stay.
-/

namespace ConsistentHashLab

section Spec

variable (sha256 : List UInt8 → Nat) (hashFunction : String)

/-- The points of the registered nodes on the circle: each position with its node. -/
def points (nodes : List Node) : List (Nat × Node) :=
  nodes.flatMap fun n => (n.positions sha256 hashFunction).map (·, n)

/-- `e` is the first point of `pts` a clockwise walk from `h` meets. -/
def FirstClockwise (pts : List (Nat × Node)) (h : Nat) (e : Nat × Node) : Prop :=
  e ∈ pts ∧ ((h < e.1 ∧ ∀ f ∈ pts, h < f.1 → e.1 ≤ f.1) ∨
    ((∀ f ∈ pts, f.1 ≤ h) ∧ ∀ f ∈ pts, e.1 ≤ f.1))

instance (pts : List (Nat × Node)) (h : Nat) (e : Nat × Node) :
    Decidable (FirstClockwise pts h e) :=
  inferInstanceAs (Decidable (_ ∧ _))

/-- Hash `h` belongs to node `n`: `n`'s point is the first clockwise from `h`. -/
def Owner (nodes : List Node) (h : Nat) (n : Node) : Prop :=
  ∃ e ∈ points sha256 hashFunction nodes, e.2 = n ∧
    FirstClockwise (points sha256 hashFunction nodes) h e

instance (nodes : List Node) (h : Nat) (n : Node) :
    Decidable (Owner sha256 hashFunction nodes h n) :=
  inferInstanceAs (Decidable (∃ e ∈ _, _ ∧ _))

example : Owner (fun _ => 0) "fnv1a" [⟨"a", 1⟩, ⟨"b", 1⟩] 3000000000 ⟨"a", 1⟩ := by decide

end Spec

/-- What a call does to the set of registered nodes, the state consistent hashing is
about: `add_node` registers a node whose id is new, `remove_node` unregisters an id. -/
def Call.nodesAfter : Call → List Node → List Node
  | .addNode node, nodes =>
      if node.nodeId ∈ nodes.map (·.nodeId) then nodes else nodes ++ [node]
  | .removeNode nodeId, nodes => nodes.filter (·.nodeId ≠ nodeId)

/-- The registered nodes after a sequence of calls. -/
def runNodes (calls : List Call) (nodes : List Node) : List Node :=
  calls.foldl (fun nodes call => call.nodesAfter nodes) nodes

variable {l : List (Nat × Node)} {h : Nat} {e e' : Nat × Node}

theorem firstClockwise_congr {l' : List (Nat × Node)} (hl : ∀ f, f ∈ l ↔ f ∈ l') :
    FirstClockwise l h e ↔ FirstClockwise l' h e := by
  simp only [FirstClockwise, hl]

/-- The head of a list sorted by hash has the least hash. -/
theorem le_of_head? (hs : l.Sorted (fun e f => e.1 ≤ f.1)) (he : l.head? = some e) :
    ∀ f ∈ l, e.1 ≤ f.1 := by
  obtain ⟨t, rfl⟩ := List.head?_eq_some_iff.1 he
  intro f hf
  rcases List.mem_cons.1 hf with rfl | hf
  · exact le_rfl
  · exact List.rel_of_sorted_cons hs f hf

/-- On a sorted ring the walk from `h` starts at the first point clockwise from `h`. -/
theorem firstClockwise_head? (hs : l.Sorted (fun e f => e.1 ≤ f.1))
    (he : (clockwise l h).head? = some e) : FirstClockwise l h e := by
  rw [head?_clockwise] at he
  cases hf : l.find? (fun e => h < e.1) with
  | some f =>
      rw [hf, Option.some.injEq] at he
      subst he
      have habove : (l.filter fun e => h < e.1).head? = some f := by rw [List.filter_head?, hf]
      refine ⟨List.mem_of_find?_eq_some hf, .inl ⟨by simpa using List.find?_some hf,
        fun g hg hhg => le_of_head? (hs.filter _) habove g
          (List.mem_filter.2 ⟨hg, by simpa using hhg⟩)⟩⟩
  | none =>
      rw [hf] at he
      exact ⟨List.mem_of_mem_head? he,
        .inr ⟨fun g hg => by simpa using List.find?_eq_none.1 hf g hg, le_of_head? hs he⟩⟩

/-- Points that stay do not trade hashes: if `e` is first clockwise from `h` among `l`
and `e'` among `l'`, each lying in the other's list, then they are one point, given
distinct hashes in `l'`. -/
theorem FirstClockwise.eq_of_mem {l' : List (Nat × Node)} (hn : (l'.map (·.1)).Nodup)
    (h₁ : FirstClockwise l h e) (h₂ : FirstClockwise l' h e') (he : e ∈ l') (he' : e' ∈ l) :
    e = e' := by
  have heq : e.1 = e'.1 := by
    rcases h₁.2 with ⟨hp, hmin⟩ | ⟨hall, hmin⟩ <;> rcases h₂.2 with ⟨hp', hmin'⟩ | ⟨hall', hmin'⟩
    · exact le_antisymm (hmin _ he' hp') (hmin' _ he hp)
    · exact absurd (hall' e he) (not_le.2 hp)
    · exact absurd (hall e' he') (not_le.2 hp')
    · exact le_antisymm (hmin _ he') (hmin' _ he)
  exact List.inj_on_of_nodup_map hn he h₂.1 heq

/-- With distinct hashes the first point clockwise is unique. -/
theorem FirstClockwise.unique (hn : (l.map (·.1)).Nodup) (h₁ : FirstClockwise l h e)
    (h₂ : FirstClockwise l h e') : e = e' :=
  h₁.eq_of_mem hn h₂ h₁.1 h₂.1

namespace RingInv

variable {sha256 : List UInt8 → Nat} {hashFunction : String} {P : List (String × Nat)}
variable {s : ConsistentHashRing}

/-- The ring holds exactly the registered nodes' points. -/
theorem mem_ring_iff_points (hi : RingInv sha256 hashFunction P s) (f : Nat × Node) :
    f ∈ s.ring ↔ f ∈ points sha256 hashFunction s.nodes.values := by
  rw [hi.mem_ring, points, List.mem_flatMap]
  constructor
  · rintro ⟨hn, hp⟩
    exact ⟨f.2, hn, List.mem_map.2 ⟨f.1, hp, rfl⟩⟩
  · rintro ⟨n, hn, hf⟩
    obtain ⟨p, hp, rfl⟩ := List.mem_map.1 hf
    exact ⟨hn, hp⟩

/-- Under collision-freedom the registered nodes' points are distinct. -/
theorem points_nodup (hi : RingInv sha256 hashFunction P s)
    (hc : CollisionFree sha256 hashFunction P) : (points sha256 hashFunction s.nodes.values).Nodup :=
  List.nodup_flatMap.2 ⟨fun n hn => (positions_nodup hc (hi.added n hn)).map
      fun _ _ h => (Prod.mk.inj h).1,
    hi.values_nodup.imp fun {a b} hne => List.disjoint_left.2 fun _ hx hx' => by
      obtain ⟨p, -, rfl⟩ := List.mem_map.1 hx
      obtain ⟨q, -, hq⟩ := List.mem_map.1 hx'
      exact hne (Prod.mk.inj hq).2.symm⟩

/-- A lookup that returns a node met no point on the key's hash, and the node is that of
the first point clockwise from it. -/
theorem firstClockwise_of_getNodeForKey (hi : RingInv sha256 hashFunction P s) {key : String}
    {n : Node} (hr : s.getNodeForKey sha256 key = .ok (some n)) :
    (∀ f ∈ s.ring, f.1 ≠ digest sha256 hashFunction key) ∧
      ∃ e, FirstClockwise s.ring (digest sha256 hashFunction key) e ∧ e.2 = n := by
  have hsorted := hi.sorted.imp le_of_lt
  rcases (ConsistentHashRing.getNodeForKey_eq_ok hsorted).1 hr with ⟨-, h⟩ | ⟨h, hk, hne, hrn⟩
  · cases h
  obtain rfl := Except.ok.inj ((hi.hashKey_eq key).symm.trans hk)
  obtain ⟨e, he, rfl⟩ := Option.map_eq_some'.1 hrn.symm
  exact ⟨hne, e, firstClockwise_head? hsorted he, rfl⟩

/-- On an invariant ring the lookup returns `n` exactly when no point sits on the key's
hash and `n` owns that hash. -/
theorem getNodeForKey_some_iff (hi : RingInv sha256 hashFunction P s) (key : String) (n : Node) :
    s.getNodeForKey sha256 key = .ok (some n) ↔
      (∀ e ∈ points sha256 hashFunction s.nodes.values, e.1 ≠ digest sha256 hashFunction key) ∧
        Owner sha256 hashFunction s.nodes.values (digest sha256 hashFunction key) n := by
  have hsorted := hi.sorted.imp le_of_lt
  have hmem := hi.mem_ring_iff_points
  constructor
  · intro hr
    obtain ⟨hne, e, hfirst, rfl⟩ := hi.firstClockwise_of_getNodeForKey hr
    exact ⟨fun f hf => hne f ((hmem f).2 hf), e, (hmem e).1 hfirst.1, rfl,
      (firstClockwise_congr hmem).1 hfirst⟩
  · rintro ⟨hne, e, he, rfl, hfirst⟩
    have hne' : ∀ f ∈ s.ring, f.1 ≠ digest sha256 hashFunction key :=
      fun f hf => hne f ((hmem f).1 hf)
    obtain ⟨e₀, hw⟩ := exists_head?_clockwise (List.ne_nil_of_mem ((hmem e).2 he))
      (digest sha256 hashFunction key)
    have := (firstClockwise_head? hsorted hw).unique hi.ring_nodup
      ((firstClockwise_congr hmem).2 hfirst)
    rw [ConsistentHashRing.getNodeForKey_eq hsorted (hi.hashKey_eq key) hne', hw, this]
    rfl

/-- A registered id is the id of a registered node. -/
theorem exists_of_mem_keys (hi : RingInv sha256 hashFunction P s) {k : String}
    (hk : k ∈ s.nodes.keys) : ∃ n ∈ s.nodes.values, n.nodeId = k := by
  obtain ⟨n, hn⟩ := PyDict.mem_keys.1 hk
  exact ⟨n, PyDict.mem_values.2 ⟨k, hn⟩, hi.keyed k n hn⟩

end RingInv

namespace ConsistentHashRing

/-- On a reachable ring the lookup refines consistent hashing's assignment: it returns
`n` exactly when no point sits on the key's hash and `n` owns that hash. -/
theorem getNodeForKey_eq_owner (sha256 : List UInt8 → Nat) (hashFunction : String)
    (hf : Supported hashFunction) (s : ConsistentHashRing) (hs : Reachable sha256 hashFunction s)
    (key : String) (n : Node) :
    s.getNodeForKey sha256 key = .ok (some n) ↔
      (∀ e ∈ points sha256 hashFunction s.nodes.values, e.1 ≠ digest sha256 hashFunction key) ∧
        Owner sha256 hashFunction s.nodes.values (digest sha256 hashFunction key) n := by
  obtain ⟨P, hi, -⟩ := hs.inv hf
  exact hi.getNodeForKey_some_iff key n

/-- Under FNV-1a with "a" and "b" registered, "foo" belongs to "b", and the lookup says
so. -/
theorem getNodeForKey_eq_owner_two_nodes :
    Reachable (fun _ => 0) "fnv1a"
        (run (fun _ => 0) [.addNode ⟨"a", 1⟩, .addNode ⟨"b", 1⟩] (init "fnv1a")) ∧
      (run (fun _ => 0) [.addNode ⟨"a", 1⟩, .addNode ⟨"b", 1⟩] (init "fnv1a")).getNodeForKey
        (fun _ => 0) "foo" = .ok (some ⟨"b", 1⟩) ∧
      Owner (fun _ => 0) "fnv1a"
        (run (fun _ => 0) [.addNode ⟨"a", 1⟩, .addNode ⟨"b", 1⟩] (init "fnv1a")).nodes.values
        (digest (fun _ => 0) "fnv1a" "foo") ⟨"b", 1⟩ := by
  have hs : Reachable (fun _ => 0) "fnv1a"
      (run (fun _ => 0) [.addNode ⟨"a", 1⟩, .addNode ⟨"b", 1⟩] (init "fnv1a")) :=
    ⟨_, by decide, rfl⟩
  have hr : (run (fun _ => 0) [.addNode ⟨"a", 1⟩, .addNode ⟨"b", 1⟩] (init "fnv1a")).getNodeForKey
      (fun _ => 0) "foo" = .ok (some ⟨"b", 1⟩) := rfl
  exact ⟨hs, hr, ((getNodeForKey_eq_owner _ _ (by decide) _ hs _ _).1 hr).2⟩

/-- The point of consistent hashing: between any two reachable rings that register every
id they share with the same replica count, a key whose node stays registered keeps it. A
key changes node only to one whose id the first ring did not have, whatever calls lead
from one ring to the other. -/
theorem getNodeForKey_keeps_staying_nodes (sha256 : List UInt8 → Nat) (hashFunction : String)
    (hf : Supported hashFunction) (s s' : ConsistentHashRing) (hs : Reachable sha256 hashFunction s)
    (hs' : Reachable sha256 hashFunction s')
    (hsame : ∀ n ∈ s.nodes.values, ∀ n' ∈ s'.nodes.values, n.nodeId = n'.nodeId →
      n.replicas = n'.replicas)
    (key : String) (a b : Node) (ha : s.getNodeForKey sha256 key = .ok (some a))
    (hb : s'.getNodeForKey sha256 key = .ok (some b)) (hstay : a.nodeId ∈ s'.nodes.keys) :
    b.nodeId = a.nodeId ∨ b.nodeId ∉ s.nodes.keys := by
  obtain ⟨P, hi, -⟩ := hs.inv hf
  obtain ⟨P', hi', -⟩ := hs'.inv hf
  have heq : ∀ {n n' : Node}, n ∈ s.nodes.values → n' ∈ s'.nodes.values →
      n.nodeId = n'.nodeId → n = n' := fun {n n'} hn hn' h => by
    cases n; cases n'
    exact Node.mk.injEq .. ▸ ⟨h, hsame _ hn _ hn' h⟩
  obtain ⟨-, e, he, rfl⟩ := hi.firstClockwise_of_getNodeForKey ha
  obtain ⟨-, e', he', rfl⟩ := hi'.firstClockwise_of_getNodeForKey hb
  obtain ⟨a', ha', hid⟩ := hi'.exists_of_mem_keys hstay
  have hstay' : e.2 ∈ s'.nodes.values := heq (hi.owner_registered he.1) ha' hid.symm ▸ ha'
  refine or_iff_not_imp_right.2 fun hb' => ?_
  obtain ⟨b', hb'', hid'⟩ := hi.exists_of_mem_keys (not_not.1 hb')
  have hback : e'.2 ∈ s.nodes.values := heq hb'' (hi'.owner_registered he'.1) hid' ▸ hb''
  exact congrArg (·.2.nodeId) (he.eq_of_mem hi'.ring_nodup he'
    ((hi'.mem_ring e.1 e.2).2 ⟨hstay', ((hi.mem_ring e.1 e.2).1 he.1).2⟩)
    ((hi.mem_ring e'.1 e'.2).2 ⟨hback, ((hi'.mem_ring e'.1 e'.2).1 he'.1).2⟩)).symm

/-- Adding "b" next to "a" under FNV-1a moves "foo" from "a" to the new node. -/
theorem getNodeForKey_keeps_staying_nodes_foo :
    (run (fun _ => 0) [.addNode ⟨"a", 1⟩] (init "fnv1a")).getNodeForKey (fun _ => 0) "foo" =
        .ok (some ⟨"a", 1⟩) ∧
      (run (fun _ => 0) [.addNode ⟨"a", 1⟩, .addNode ⟨"b", 1⟩] (init "fnv1a")).getNodeForKey
        (fun _ => 0) "foo" = .ok (some ⟨"b", 1⟩) ∧
      ("b" = "a" ∨ "b" ∉ (run (fun _ => 0) [.addNode ⟨"a", 1⟩] (init "fnv1a")).nodes.keys) :=
  ⟨rfl, rfl, getNodeForKey_keeps_staying_nodes _ _ (by decide) _
    (run (fun _ => 0) [.addNode ⟨"a", 1⟩, .addNode ⟨"b", 1⟩] (init "fnv1a")) ⟨_, by decide, rfl⟩
    ⟨_, by decide, rfl⟩ (by decide) "foo" ⟨"a", 1⟩ ⟨"b", 1⟩ rfl rfl (by decide)⟩

/-- The ring that `add_node` and `remove_node` keep up one `insort` and one `list.remove` at
a time is the registered nodes' points sorted by hash all at once. -/
theorem ring_eq_mergeSort_points (sha256 : List UInt8 → Nat) (hashFunction : String)
    (hf : Supported hashFunction) (s : ConsistentHashRing) (hs : Reachable sha256 hashFunction s) :
    s.ring = (points sha256 hashFunction s.nodes.values).mergeSort fun e f => e.1 ≤ f.1 := by
  obtain ⟨P, hi, hc⟩ := hs.inv hf
  have hperm : s.ring.Perm ((points sha256 hashFunction s.nodes.values).mergeSort
      fun e f => e.1 ≤ f.1) :=
    ((List.perm_ext_iff_of_nodup (hi.ring_nodup.of_map _) (hi.points_nodup hc)).2
      hi.mem_ring_iff_points).trans (List.mergeSort_perm _ _).symm
  refine ring_eq_of_perm hperm hi.sorted
    (sorted_lt_of_nodup ?_ ((hperm.map _).nodup_iff.1 hi.ring_nodup))
  simpa using @List.sorted_mergeSort _ (fun e f : Nat × Node => decide (e.1 ≤ f.1))
    (fun _ _ _ h₁ h₂ => by simpa using le_trans (by simpa using h₁) (by simpa using h₂))
    (fun a b => by simpa using le_total a.1 b.1) (points sha256 hashFunction s.nodes.values)

/-- The two-node FNV-1a ring is its points sorted by hash. -/
theorem ring_eq_mergeSort_points_two_nodes :
    (run (fun _ => 0) [.addNode ⟨"a", 1⟩, .addNode ⟨"b", 1⟩] (init "fnv1a")).ring =
      (points (fun _ => 0) "fnv1a"
        (run (fun _ => 0) [.addNode ⟨"a", 1⟩, .addNode ⟨"b", 1⟩] (init "fnv1a")).nodes.values).mergeSort
        fun e f => e.1 ≤ f.1 :=
  ring_eq_mergeSort_points _ _ (by decide) _ ⟨_, by decide, rfl⟩

end ConsistentHashRing

namespace WellFormed

variable {sha256 : List UInt8 → Nat} {s : ConsistentHashRing}

/-- With a supported hash function a call changes the registered nodes as `nodesAfter`
says, whether it returns or raises: `add_node` registers before anything can fail, and
`remove_node` cannot fail once it has found the id. -/
theorem values_apply (hw : WellFormed s) (hf : Supported s.hashFunction) :
    ∀ call : Call, (call.apply sha256 s).nodes.values = call.nodesAfter s.nodes.values
  | .addNode node => by
      show (stateAfter (s.addNode sha256 node)).nodes.values = _
      rw [ConsistentHashRing.addNode_nodes, Call.nodesAfter, ← hw.keys_eq]
      split_ifs with hid
      · rfl
      · simp [PyDict.values, PyDict.insert_of_not_mem _ hid]
  | .removeNode nodeId => by
      show (stateAfter (s.removeNode sha256 nodeId)).nodes.values = _
      rw [Call.nodesAfter, ← hw.values_erase]
      unfold ConsistentHashRing.removeNode
      split
      · rename_i hnone
        rw [PyDict.erase_of_not_mem (PyDict.get?_eq_none.1 hnone)]
        rfl
      · rw [Node.getHashValues_supported hf]
        simp [stateAfter]

/-- The run lemma for the registered nodes. -/
theorem values_run {hashFunction : String} (hf : Supported hashFunction) :
    ∀ (calls : List Call) (s : ConsistentHashRing), WellFormed s → s.hashFunction = hashFunction →
      (ConsistentHashLab.run sha256 calls s).nodes.values = runNodes calls s.nodes.values
  | [], _, _, _ => rfl
  | call :: calls, s, hw, hs => by
      have := values_run hf calls (call.apply sha256 s) (hw.apply call)
        ((Call.apply_hashFunction sha256 call s).trans hs)
      rwa [hw.values_apply (hs ▸ hf) call] at this

end WellFormed

namespace ConsistentHashRing

/-- The code refines a set-of-nodes model of consistent hashing. With a supported hash
function, after any run, colliding and raising calls included, the registered nodes are
those of `runNodes`: `add_node` registers a node whose id is new even when it then raises,
and `remove_node` unregisters an id. The ids are `String`s: with a lone surrogate in an id
`get_hash_values` would raise `UnicodeEncodeError` (`pyEncode`). -/
theorem run_nodes_follow_model (sha256 : List UInt8 → Nat) (hashFunction : String)
    (hf : Supported hashFunction) (calls : List Call) :
    (run sha256 calls (init hashFunction)).nodes.values = runNodes calls [] :=
  WellFormed.values_run hf calls _ (WellFormed.init hashFunction) rfl

/-- Adding "a" and "b" and removing "a" leaves "b" registered; the `TypeError` of adding
"liquid" next to "costarring" still registers "liquid". -/
theorem run_nodes_follow_model_two_runs :
    (run (fun _ => 0) [.addNode ⟨"a", 1⟩, .addNode ⟨"b", 1⟩, .removeNode "a"]
        (init "fnv1a")).nodes.values = [⟨"b", 1⟩] ∧
      (run (fun _ => 0) [.addNode ⟨"costarring", 1⟩, .addNode ⟨"liquid", 1⟩]
        (init "fnv1a")).nodes.values = [⟨"costarring", 1⟩, ⟨"liquid", 1⟩] :=
  ⟨(run_nodes_follow_model _ _ (by decide) _).trans (by decide),
    (run_nodes_follow_model _ _ (by decide) _).trans (by decide)⟩

end ConsistentHashRing

end ConsistentHashLab
