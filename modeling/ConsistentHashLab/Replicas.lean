import Mathlib.Data.Multiset.Dedup
import ConsistentHashLab.Invariant
import ConsistentHashLab.Lookup

/-! # Replicas that share a position

Nothing in `get_hash_values` keeps one node's replica hashes apart: under FNV-1a the
replicas 5 and 10 of node "ve8dzb" both hash to 3376061642. `add_node` then inserts the
position into `ring` twice and into `hash_to_node` once, and `remove_node` deletes the key
the first time it meets the hash and skips the hash the second time, so one tuple of the
removed node stays in `ring`. The two loop lemmas follow the loops through repeated
hashes (`addNode_loop_repeats`, `removeNode_loop_copies`). On a reachable ring `add_node`
of a fresh id returns exactly when its positions miss the ring's hashes, repeats or not;
the round trip of such a node gives back `nodes` and `hash_to_node`, and leaves one tuple
in `ring` for each surplus replica. When it raises instead, it has already pointed
`hash_to_node` at the new node where `ring` keeps another node's tuple, and removing the
two nodes then leaves that tuple behind.
-/

namespace ConsistentHashLab

/-- A list is free of repeats exactly when removing one copy of each element empties it. -/
theorem diff_dedup_eq_nil {l : List Nat} : l.diff l.dedup = [] ↔ l.Nodup := by
  rw [← Multiset.coe_eq_zero, ← Multiset.coe_sub, ← Multiset.coe_dedup, ← Multiset.le_zero,
    Multiset.sub_le_iff_le_add, zero_add, Multiset.le_dedup]
  simp

theorem eraseP_congr_mem {α : Type} {p q : α → Bool} :
    ∀ {l : List α}, (∀ x ∈ l, p x = q x) → l.eraseP p = l.eraseP q
  | [], _ => rfl
  | x :: xs, h => by
      rw [List.eraseP_cons, List.eraseP_cons, h x (List.mem_cons_self _ _),
        eraseP_congr_mem fun y hy => h y (List.mem_cons_of_mem _ hy)]

/-- `insort` raises only for an unorderable tie, one it met with an item the new one does
not equal. -/
theorem insort_error {δ ε : Type} {eq' : δ → δ → Bool} {unorderable : ε} {a : List (Nat × δ)}
    {x : Nat × δ} {e : ε} (h : insort (pairLt eq' unorderable) a x = .error e) :
    e = unorderable ∧ ∃ f ∈ a, f.1 = x.1 ∧ eq' x.2 f.2 = false := by
  refine ⟨?_, ?_⟩
  · cases hb : bisectRight (pairLt eq' unorderable) a x with
    | ok i => rw [insort, hb] at h; cases h
    | error e' =>
        rw [insort, hb] at h
        cases h
        exact bisectRight_error hb
  · by_contra hno
    obtain ⟨a', ha'⟩ : ∃ a', insort (pairLt eq' unorderable) a x = .ok a' :=
      insort_ok fun f hf hfx => by
        cases hb : eq' x.2 f.2
        · exact absurd ⟨f, hf, hfx, hb⟩ hno
        · rfl
    cases ha'.symm.trans h

namespace ConsistentHashRing

variable {node : Node}

/-- `list.remove((h, node))` on a ring made of tuples of other nodes and of `node`'s tuples
at the hashes `C` removes one copy of `h` from `C`. -/
theorem eraseP_copies {base ring : List (Nat × Node)}
    (hbase : ∀ e ∈ base, e.2.nodeId ≠ node.nodeId) {C : List Nat}
    (hp : ring.Perm (base ++ C.map (·, node))) (h : Nat) :
    (ring.eraseP (entryEq · (h, node))).Perm (base ++ (C.erase h).map (·, node)) := by
  have hagree : ∀ e ∈ ring, entryEq e (h, node) = decide ((h, node) = e) := by
    intro e he
    rcases List.mem_append.1 (hp.subset he) with he | he
    · have hid : e.2.eq node = false := Bool.eq_false_iff.2 fun h' => hbase e he (Node.eq_iff.1 h')
      have hne : (h, node) ≠ e := fun h' => hbase e he (h' ▸ rfl)
      simp [entryEq, hid, hne]
    · obtain ⟨c, -, rfl⟩ := List.mem_map.1 he
      simp only [entryEq, Node.eq, beq_self_eq_true, Bool.and_true]
      exact Bool.eq_iff_iff.2 (by simp only [beq_iff_eq, decide_eq_true_eq, Prod.mk.injEq, and_true]; exact eq_comm)
  rw [(eraseP_congr_mem hagree).trans
    (@List.erase_eq_eraseP _ instBEqOfDecidableEq instLawfulBEq (h, node) ring).symm]
  refine (hp.erase _).trans ?_
  rw [@List.erase_append_right _ instBEqOfDecidableEq instLawfulBEq _ _ _ fun hm => hbase _ hm rfl,
    ← List.map_erase (Prod.mk.inj_right node)]

/-- The loop of `remove_node` at a hash still in `hash_to_node`. -/
theorem removeNode_loop_cons_mem {h : Nat} {rest : List Nat} {t : ConsistentHashRing}
    (hk : h ∈ t.hashToNode.keys) :
    removeNode.loop node (h :: rest) t = removeNode.loop node rest
      { t with hashToNode := t.hashToNode.erase h, ring := t.ring.eraseP (entryEq · (h, node)) } := by
  by_cases ha : t.ring.any (entryEq · (h, node)) = true
  · simp [removeNode.loop, hk, listRemove, ha]
  · rw [List.eraseP_of_forall_not fun e he hp => ha (List.any_eq_true.2 ⟨e, he, hp⟩)]
    simp [removeNode.loop, hk, listRemove, ha]

/-- `remove_node` of a registered id whose hash values compute: the loop over them, then
`del self.nodes[node_id]`. -/
theorem removeNode_found {sha256 : List UInt8 → Nat} {s : ConsistentHashRing} {nodeId : String}
    {hs : List Nat} (hn : s.nodes.get? nodeId = some node)
    (hv : node.getHashValues sha256 s.hashFunction = .ok hs) :
    s.removeNode sha256 nodeId =
      .ok (some node) { removeNode.loop node hs s with nodes := s.nodes.erase nodeId } := by
  simp only [removeNode, hn, hv, removeNode_loop_nodes]

/-- The loop of `remove_node` keeps every tuple of another node, and every tuple at a hash
that is not a key of `hash_to_node`: `list.remove` compares ids, and the loop removes only
at hashes it finds in `hash_to_node`, whose keys it only deletes. -/
theorem removeNode_loop_keeps {q : Nat} {n : Node} :
    ∀ (hs : List Nat) (t : ConsistentHashRing), (q, n) ∈ t.ring →
      (n.nodeId ≠ node.nodeId ∨ q ∉ t.hashToNode.keys) → (q, n) ∈ (removeNode.loop node hs t).ring
  | [], _, hq, _ => hq
  | h :: rest, t, hq, hkeep => by
      by_cases hk : h ∈ t.hashToNode.keys
      · rw [removeNode_loop_cons_mem hk]
        refine removeNode_loop_keeps rest _ ((List.mem_eraseP_of_neg ?_).2 hq)
          (hkeep.imp id fun hq' hm => hq' (PyDict.mem_keys_erase.1 hm).2)
        rcases hkeep with hid | hq'
        · simp [entryEq, hid]
        · have : q ≠ h := fun e => hq' (e ▸ hk)
          simp [entryEq, this]
      · rw [removeNode.loop, if_neg hk]
        exact removeNode_loop_keeps rest t hq hkeep

/-- The loop of `remove_node` removes one tuple for each distinct hash it is given that is
a key of `hash_to_node` when the loop starts, whatever the repeats: the first copy of a
hash deletes the key, and later copies find it gone. -/
theorem removeNode_loop_copies {base : List (Nat × Node)}
    (hbase : ∀ e ∈ base, e.2.nodeId ≠ node.nodeId) :
    ∀ (hs C : List Nat) (t : ConsistentHashRing), t.ring.Perm (base ++ C.map (·, node)) →
      ∃ L : List Nat, L.Nodup ∧ (∀ x, x ∈ L ↔ x ∈ hs ∧ x ∈ t.hashToNode.keys) ∧
        (removeNode.loop node hs t).ring.Perm (base ++ (C.diff L).map (·, node))
  | [], C, t, hp => ⟨[], List.nodup_nil, by simp, by simpa [removeNode.loop] using hp⟩
  | h :: rest, C, t, hp => by
      by_cases hk : h ∈ t.hashToNode.keys
      · obtain ⟨L, hnd, hmem, hring⟩ :=
          removeNode_loop_copies hbase rest (C.erase h)
            { t with hashToNode := t.hashToNode.erase h,
                     ring := t.ring.eraseP (entryEq · (h, node)) } (eraseP_copies hbase hp h)
        simp only [PyDict.mem_keys_erase] at hmem
        refine ⟨h :: L, List.nodup_cons.2 ⟨fun hh => (hmem h).1 hh |>.2.1 rfl, hnd⟩,
          fun x => ?_, ?_⟩
        · rw [List.mem_cons, hmem, List.mem_cons]
          by_cases hx : x = h <;> simp [hx, hk]
        · rw [removeNode_loop_cons_mem hk, List.diff_cons]
          exact hring
      · obtain ⟨L, hnd, hmem, hring⟩ := removeNode_loop_copies hbase rest C t hp
        refine ⟨L, hnd, fun x => ?_, ?_⟩
        · rw [hmem, List.mem_cons]
          by_cases hx : x = h <;> simp [hx, hk]
        · rw [removeNode.loop, if_neg hk]
          exact hring

/-- The loop of `add_node` returns whatever repeats its hashes have, as long as they avoid
the hashes of the tuples `base` of other nodes: a tie with an earlier copy of the node's
own tuple compares the node with itself. The ring stays sorted and gains one tuple per
hash; `hash_to_node` keeps its old entries `B` in front and gains the hashes as keys. -/
theorem addNode_loop_repeats {base B : List (Nat × Node)} {P : List Nat}
    (hbase : ∀ e ∈ base, e.1 ∉ P) (hB : ∀ e ∈ B, e.1 ∉ P) :
    ∀ (hs done : List Nat) (t : ConsistentHashRing) (M : List (Nat × Node)), (∀ h ∈ hs, h ∈ P) →
      t.ring.Sorted (fun e f => e.1 ≤ f.1) → t.ring.Perm (base ++ done.map (·, node)) →
      t.hashToNode.entries = B ++ M → (∀ e ∈ M, e.1 ∈ P) →
      ∃ s', addNode.loop node hs t = .ok () s' ∧ s'.ring.Sorted (fun e f => e.1 ≤ f.1) ∧
        s'.ring.Perm (base ++ (done ++ hs).map (·, node)) ∧
        (∃ M', s'.hashToNode.entries = B ++ M' ∧ ∀ e ∈ M', e.1 ∈ P) ∧
        ∀ k, k ∈ t.hashToNode.keys ∨ k ∈ hs → k ∈ s'.hashToNode.keys
  | [], done, t, M, _, hs, hp, hM, hMP =>
      ⟨t, rfl, hs, by simpa using hp, ⟨M, hM, hMP⟩, fun k hk => hk.resolve_right (by simp)⟩
  | h :: rest, done, t, M, hP, hs, hp, hM, hMP => by
      have hhP := hP h (List.mem_cons_self _ _)
      obtain ⟨ring₁, hins⟩ : ∃ ring₁, insort entryLt t.ring (h, node) = .ok ring₁ :=
        insort_ok fun e he heh => by
          rcases List.mem_append.1 (hp.subset he) with he | he
          · exact absurd (heh ▸ hhP) (hbase e he)
          · obtain ⟨_, -, rfl⟩ := List.mem_map.1 he
            exact Node.eq_iff.2 rfl
      obtain ⟨j, rfl, below, above⟩ := insort_split hs hins
      obtain ⟨M₁, hM₁, hM₁P⟩ : ∃ M₁, (t.hashToNode.insert h node).entries = B ++ M₁ ∧
          ∀ e ∈ M₁, e.1 ∈ P := by
        by_cases hk : h ∈ t.hashToNode.keys
        · refine ⟨M.map fun e => if e.1 = h then (h, node) else e, ?_, ?_⟩
          · have hB' : B.map (fun e => if e.1 = h then (h, node) else e) = B :=
              (List.map_congr_left fun e he => if_neg fun heq : e.1 = h =>
                hB e he (heq ▸ hhP)).trans (List.map_id B)
            rw [PyDict.insert_of_mem _ hk, hM, List.map_append, hB']
          · simp only [List.mem_map]
            rintro _ ⟨e, he, rfl⟩
            split
            · exact hhP
            · exact hMP e he
        · exact ⟨M ++ [(h, node)], by rw [PyDict.insert_of_not_mem _ hk, hM, List.append_assoc],
            fun e he => (List.mem_append.1 he).elim (hMP e) fun he => by
              rw [List.mem_singleton.1 he]
              exact hhP⟩
      obtain ⟨s', hloop, hs', hp', hidx, hkeys⟩ := addNode_loop_repeats hbase hB rest (done ++ [h])
        { t with hashToNode := t.hashToNode.insert h node,
                 ring := t.ring.take j ++ (h, node) :: t.ring.drop j } M₁
        (fun h' hh' => hP h' (List.mem_cons_of_mem _ hh'))
        (sorted_take_cons_drop hs below fun e he => Nat.le_of_lt (above e he))
        (List.perm_middle.trans (by
          rw [List.take_append_drop]
          simpa [← List.append_assoc] using
            ((List.perm_cons _).2 hp).trans (List.perm_append_singleton _ _).symm))
        hM₁ hM₁P
      refine ⟨s', by simp only [addNode.loop, hins]; exact hloop, hs',
        by simpa only [List.append_assoc, List.singleton_append] using hp', hidx,
        fun k hk => hkeys k ?_⟩
      rcases hk with hk | hk
      · exact .inl (PyDict.mem_keys_insert.2 (.inr hk))
      · rcases List.mem_cons.1 hk with rfl | hk
        · exact .inl (PyDict.mem_keys_insert.2 (.inl rfl))
        · exact .inr hk

/-- A loop of `add_node` that raises returned over the hashes before the one it raised at,
and raised in the `insort` of that one, after recording it in `hash_to_node`. -/
theorem addNode_loop_error_split :
    ∀ (hs : List Nat) (t : ConsistentHashRing) {err : PyError} {s' : ConsistentHashRing},
      addNode.loop node hs t = .error err s' →
      ∃ pre p post t', hs = pre ++ p :: post ∧ addNode.loop node pre t = .ok () t' ∧
        insort entryLt t'.ring (p, node) = .error err ∧
        s' = { t' with hashToNode := t'.hashToNode.insert p node }
  | [], _, _, _, h => by cases h
  | h :: rest, t, err, s', hl => by
      simp only [addNode.loop] at hl
      split at hl
      · rename_i ring₁ hins
        obtain ⟨pre, p, post, t', rfl, hpre, hp, rfl⟩ := addNode_loop_error_split rest _ hl
        exact ⟨h :: pre, p, post, t', rfl, by simp only [addNode.loop, hins]; exact hpre, hp, rfl⟩
      · rename_i hins
        cases hl
        exact ⟨[], h, rest, t, rfl, rfl, hins, rfl⟩

/-- The loop of `add_node` raises only the `TypeError` of comparing two nodes. -/
theorem addNode_loop_error {hs : List Nat} {t : ConsistentHashRing} {err : PyError}
    {s' : ConsistentHashRing} (h : addNode.loop node hs t = .error err s') : err = nodeTieError :=
  let ⟨_, _, _, _, _, _, hins, _⟩ := addNode_loop_error_split hs t h
  (insort_error hins).1

end ConsistentHashRing

namespace RingInv

variable {sha256 : List UInt8 → Nat} {hashFunction : String} {P : List (String × Nat)}
variable {s : ConsistentHashRing}

theorem getHashValues_eq (hi : RingInv sha256 hashFunction P s) (d : Node) :
    d.getHashValues sha256 s.hashFunction = .ok (d.positions sha256 hashFunction) := by
  rw [hi.hashFunction_eq]
  exact Node.getHashValues_supported hi.supported d

/-- `add_node` of an unregistered id registers the node and runs its loop over the node's
positions. -/
theorem addNode_eq_loop (hi : RingInv sha256 hashFunction P s) {d : Node}
    (hd : d.nodeId ∉ s.nodes.keys) :
    s.addNode sha256 d = ConsistentHashRing.addNode.loop d (d.positions sha256 hashFunction)
      { s with nodes := s.nodes.insert d.nodeId d } := by
  rw [ConsistentHashRing.addNode_fresh hd, hi.getHashValues_eq d]

/-- `add_node` of an unregistered node whose positions miss every hash of `ring` returns,
however its positions repeat: `ring` gains one tuple per position, and `hash_to_node` keeps
its entries in front and gains exactly the positions as keys. -/
theorem addNode_repeats (hi : RingInv sha256 hashFunction P s) {d : Node}
    (hd : d.nodeId ∉ s.nodes.keys)
    (hfresh : ∀ h ∈ d.positions sha256 hashFunction, ∀ e ∈ s.ring, e.1 ≠ h) :
    ∃ s', s.addNode sha256 d = .ok () s' ∧ s'.hashFunction = s.hashFunction ∧
      s'.nodes = s.nodes.insert d.nodeId d ∧
      s'.ring.Perm (s.ring ++ (d.positions sha256 hashFunction).map (·, d)) ∧
      (∃ M, s'.hashToNode.entries = s.hashToNode.entries ++ M ∧
        ∀ e ∈ M, e.1 ∈ d.positions sha256 hashFunction) ∧
      ∀ h ∈ d.positions sha256 hashFunction, h ∈ s'.hashToNode.keys := by
  have hbase : ∀ e ∈ s.ring, e.1 ∉ d.positions sha256 hashFunction :=
    fun e he hm => hfresh _ hm e he rfl
  obtain ⟨s', hloop, -, hp, hidx, hkeys⟩ :=
    ConsistentHashRing.addNode_loop_repeats hbase (fun e he => hbase e ((hi.mem_index e.1 e.2).1 he))
      (d.positions sha256 hashFunction) [] { s with nodes := s.nodes.insert d.nodeId d } []
      (fun _ hh => hh) (hi.sorted.imp Nat.le_of_lt) (by simp) (by simp) (by simp)
  have hframe := @ConsistentHashRing.addNode_loop_frame d
    (d.positions sha256 hashFunction) { s with nodes := s.nodes.insert d.nodeId d }
  rw [hloop] at hframe
  exact ⟨s', (hi.addNode_eq_loop hd).trans hloop, hframe.1, hframe.2, by simpa using hp, hidx,
    fun h hh => hkeys h (.inr hh)⟩

/-- What an `add_node` of an unregistered id that raises leaves: the node registered, and
at one of its positions `hash_to_node` naming it while `ring` holds another registered
node's tuple and none of its own. -/
theorem addNode_error_state (hi : RingInv sha256 hashFunction P s) {d : Node}
    (hd : d.nodeId ∉ s.nodes.keys) {err : PyError} {s' : ConsistentHashRing}
    (herr : s.addNode sha256 d = .error err s') :
    s'.hashFunction = s.hashFunction ∧ s'.nodes = s.nodes.insert d.nodeId d ∧
      ∃ p ∈ d.positions sha256 hashFunction, s'.hashToNode.get? p = some d ∧ (p, d) ∉ s'.ring ∧
        ∃ m ∈ s.nodes.values, m.nodeId ≠ d.nodeId ∧ (p, m) ∈ s'.ring := by
  have hbase : ∀ e ∈ s.ring, e.2.nodeId ≠ d.nodeId := fun _ => hi.nodeId_ne hd
  obtain ⟨pre, p, post, t', hsplit, hpre, hins, rfl⟩ :=
    ConsistentHashRing.addNode_loop_error_split _ _ ((hi.addNode_eq_loop hd).symm.trans herr)
  have hframe := @ConsistentHashRing.addNode_loop_frame d pre
    { s with nodes := s.nodes.insert d.nodeId d }
  rw [hpre] at hframe
  obtain ⟨-, hperm, hfresh⟩ := ConsistentHashRing.addNode_loop_ok hbase pre []
    { s with nodes := s.nodes.insert d.nodeId d } t' (hi.sorted.imp Nat.le_of_lt) (by simp)
    (by simp) hpre
  obtain ⟨-, ⟨q, m⟩, hqm, hq, hne⟩ := insort_error hins
  obtain rfl : q = p := hq
  -- the tie is with another node's tuple: the node's own tuples compare equal
  have hold : (q, m) ∈ s.ring := (List.mem_append.1 (hperm.subset hqm)).resolve_right fun hm => by
    obtain ⟨_, -, heq⟩ := List.mem_map.1 hm
    rw [← (Prod.mk.inj heq).2, Node.eq_iff.2 rfl] at hne
    cases hne
  refine ⟨hframe.1, hframe.2, q, by rw [hsplit]; simp, by simp [PyDict.get?_insert], fun hm => ?_,
    m, hi.owner_registered hold, hbase _ hold, hqm⟩
  rcases List.mem_append.1 (hperm.subset hm) with hm | hm
  · exact hbase _ hm rfl
  · exact hfresh _ hold (by simpa using hm)

end RingInv

namespace ConsistentHashRing

/-- Adding a fresh node whose positions miss the ring's hashes and removing it again
returns the node and gives back `nodes` and `hash_to_node`, but `ring` keeps one tuple of
the removed node for each replica whose hash an earlier replica already took: the round
trip restores the ring exactly when the node's replica hashes are distinct. -/
theorem addNode_removeNode_leaves_repeated_positions (sha256 : List UInt8 → Nat)
    (hashFunction : String) (hf : Supported hashFunction) (s : ConsistentHashRing)
    (hs : Reachable sha256 hashFunction s) (d : Node) (hd : d.nodeId ∉ s.nodes.keys)
    (hfresh : ∀ h ∈ d.positions sha256 hashFunction, ∀ e ∈ s.ring, e.1 ≠ h) :
    ∃ s', s.addNode sha256 d = .ok () s' ∧
      ∃ s'', s'.removeNode sha256 d.nodeId = .ok (some d) s'' ∧
        s''.hashFunction = s.hashFunction ∧ s''.nodes = s.nodes ∧
        s''.hashToNode = s.hashToNode ∧
        s''.ring.Perm (s.ring ++ ((d.positions sha256 hashFunction).diff
          (d.positions sha256 hashFunction).dedup).map (·, d)) ∧
        ((∃ e ∈ s''.ring, e.2 = d) ↔ ¬(d.positions sha256 hashFunction).Nodup) := by
  obtain ⟨P, hi, -⟩ := hs.inv hf
  obtain ⟨s', hadd, hf', hnodes, hperm, ⟨M, hM, hMP⟩, hkeys⟩ := hi.addNode_repeats hd hfresh
  have hget : s'.nodes.get? d.nodeId = some d := by rw [hnodes, PyDict.get?_insert, if_pos rfl]
  have hv : d.getHashValues sha256 s'.hashFunction = .ok (d.positions sha256 hashFunction) :=
    hf' ▸ hi.getHashValues_eq d
  have hbase : ∀ e ∈ s.ring, e.2.nodeId ≠ d.nodeId := fun _ => hi.nodeId_ne hd
  obtain ⟨L, hnd, hmem, hring⟩ := removeNode_loop_copies hbase (d.positions sha256 hashFunction) _ s' hperm
  have hL : L.Perm (d.positions sha256 hashFunction).dedup :=
    (List.perm_ext_iff_of_nodup hnd (List.nodup_dedup _)).2 fun x => by
      rw [hmem, List.mem_dedup]
      exact and_iff_left_of_imp (hkeys x)
  rw [List.Perm.diff_left _ hL] at hring
  refine ⟨s', hadd, _, removeNode_found hget hv, by simp [hf'], ?_, ?_, hring, ?_⟩
  · rw [hnodes]
    exact PyDict.erase_insert_of_not_mem d hd
  · refine PyDict.ext ?_
    show (removeNode.loop d _ s').hashToNode.entries = _
    rw [removeNode_loop_hashToNode, hM, List.filter_append, List.filter_eq_self.2,
      List.filter_eq_nil_iff.2, List.append_nil]
    · exact fun e he => by simpa using hMP e he
    · exact fun e he => by simpa using fun hm => hfresh _ hm _ ((hi.mem_index e.1 e.2).1 he) rfl
  · rw [← diff_dedup_eq_nil]
    constructor
    · rintro ⟨e, he, rfl⟩ hnil
      rcases List.mem_append.1 (hring.subset he) with he' | he'
      · exact hbase _ he' rfl
      · rw [hnil] at he'
        exact List.not_mem_nil _ he'
    · intro hne
      obtain ⟨c, hc⟩ := List.exists_mem_of_ne_nil _ hne
      exact ⟨(c, d), hring.symm.subset (List.mem_append_right _ (List.mem_map_of_mem _ hc)), rfl⟩

/-- Under FNV-1a the replicas 5 and 10 of node "ve8dzb" share a hash, so removing it after
adding it to an empty ring leaves one of its tuples in `ring`. -/
theorem addNode_removeNode_leaves_ve8dzb :
    ∃ s', (init "fnv1a").addNode (fun _ => 0) ⟨"ve8dzb", 11⟩ = .ok () s' ∧
      ∃ s'', s'.removeNode (fun _ => 0) "ve8dzb" = .ok (some ⟨"ve8dzb", 11⟩) s'' ∧
        s''.nodes = (init "fnv1a").nodes ∧ ∃ e ∈ s''.ring, e.2 = ⟨"ve8dzb", 11⟩ := by
  obtain ⟨s', hadd, s'', hrem, -, hnodes, -, -, horphan⟩ :=
    addNode_removeNode_leaves_repeated_positions (fun _ => 0) "fnv1a" (by decide) _
      ⟨[], by decide, rfl⟩ ⟨"ve8dzb", 11⟩ (by decide) fun _ _ e he => absurd he (List.not_mem_nil e)
  exact ⟨s', hadd, s'', hrem, hnodes, horphan.2 (by decide)⟩

/-- On a reachable ring `add_node` of a fresh id returns exactly when none of the node's
positions is already a hash of `ring`, however the positions repeat among themselves.
Otherwise it raises the `TypeError` of comparing two nodes, and the node stays registered
in `nodes`. The id is a `String`: one with a lone surrogate would make `get_hash_values`
raise `UnicodeEncodeError` (`pyEncode`). -/
theorem addNode_returns_iff_positions_fresh (sha256 : List UInt8 → Nat) (hashFunction : String)
    (hf : Supported hashFunction) (s : ConsistentHashRing) (hs : Reachable sha256 hashFunction s)
    (d : Node) (hd : d.nodeId ∉ s.nodes.keys) :
    ((∃ s', s.addNode sha256 d = .ok () s') ↔
      ∀ h ∈ d.positions sha256 hashFunction, ∀ e ∈ s.ring, e.1 ≠ h) ∧
    ∀ err s', s.addNode sha256 d = .error err s' →
      err = nodeTieError ∧ s'.nodes = s.nodes.insert d.nodeId d := by
  obtain ⟨P, hi, -⟩ := hs.inv hf
  have hadd := hi.addNode_eq_loop hd
  refine ⟨⟨fun ⟨s', hs'⟩ => ?_, fun hfresh => ?_⟩,
    fun err s' herr => ⟨addNode_loop_error (hadd.symm.trans herr), ?_⟩⟩
  · obtain ⟨-, -, hnot⟩ := addNode_loop_ok (fun e he => hi.nodeId_ne hd he) _ []
      { s with nodes := s.nodes.insert d.nodeId d } s' (hi.sorted.imp Nat.le_of_lt) (by simp)
      (by simp) (hadd.symm.trans hs')
    exact fun h hh e he heq => hnot e he (by simpa [heq] using hh)
  · obtain ⟨s', hs', -⟩ := hi.addNode_repeats hd hfresh
    exact ⟨s', hs'⟩
  · have := (@addNode_loop_frame d (d.positions sha256 hashFunction)
      { s with nodes := s.nodes.insert d.nodeId d }).2
    rwa [← hadd, herr] at this

/-- Under FNV-1a "liquid-0" lands where "costarring-0" is, so "liquid" cannot join a ring
holding "costarring". -/
theorem addNode_returns_iff_positions_fresh_liquid :
    ¬∃ s', (run (fun _ => 0) [.addNode ⟨"costarring", 1⟩] (init "fnv1a")).addNode (fun _ => 0)
      ⟨"liquid", 1⟩ = .ok () s' := fun h =>
  absurd ((addNode_returns_iff_positions_fresh _ _ (by decide) _ ⟨_, by decide, rfl⟩ _
    (by decide)).1.1 h) (by decide)

/-- On a reachable ring an `add_node` of a fresh id that raises leaves `hash_to_node` naming
the new node at one of its positions where `ring` holds a tuple of another registered node
and none of the new node's: from then on the two tables disagree. Ids are `String`s, so
the `UnicodeEncodeError` of an id with a lone surrogate is not among the exceptions. -/
theorem addNode_error_splits_tables (sha256 : List UInt8 → Nat) (hashFunction : String)
    (hf : Supported hashFunction) (s : ConsistentHashRing) (hs : Reachable sha256 hashFunction s)
    (d : Node) (hd : d.nodeId ∉ s.nodes.keys) (err : PyError) (s' : ConsistentHashRing)
    (herr : s.addNode sha256 d = .error err s') :
    ∃ p ∈ d.positions sha256 hashFunction, s'.hashToNode.get? p = some d ∧ (p, d) ∉ s'.ring ∧
      ∃ m ∈ s.nodes.values, m.nodeId ≠ d.nodeId ∧ (p, m) ∈ s'.ring := by
  obtain ⟨P, hi, -⟩ := hs.inv hf
  exact (hi.addNode_error_state hd herr).2.2

/-- Adding "liquid" next to "costarring" under FNV-1a raises, and leaves "liquid" in
`hash_to_node` at a hash where `ring` has no tuple of it. -/
theorem addNode_error_splits_tables_liquid :
    ∃ s', (run (fun _ => 0) [.addNode ⟨"costarring", 1⟩] (init "fnv1a")).addNode (fun _ => 0)
        ⟨"liquid", 1⟩ = .error nodeTieError s' ∧
      ∃ p, s'.hashToNode.get? p = some ⟨"liquid", 1⟩ ∧ (p, ⟨"liquid", 1⟩) ∉ s'.ring := by
  obtain ⟨s', hs'⟩ : ∃ s', (run (fun _ => 0) [.addNode ⟨"costarring", 1⟩] (init "fnv1a")).addNode
      (fun _ => 0) ⟨"liquid", 1⟩ = .error nodeTieError s' := ⟨_, rfl⟩
  obtain ⟨p, -, hget, hnot, -⟩ := addNode_error_splits_tables _ _ (by decide) _
    ⟨_, by decide, rfl⟩ _ (by decide) _ _ hs'
  exact ⟨s', hs', p, hget, hnot⟩

/-- An `add_node` that raises on a reachable ring corrupts the object for good: removing the
new node and then the node it collided with returns each of them and unregisters both, yet
a tuple of the second stays in `ring`. Ids are `String`s, so the `UnicodeEncodeError` of
an id with a lone surrogate is not among the exceptions. -/
theorem addNode_error_then_removals_leave_orphan (sha256 : List UInt8 → Nat)
    (hashFunction : String) (hf : Supported hashFunction) (s : ConsistentHashRing)
    (hs : Reachable sha256 hashFunction s) (d : Node) (hd : d.nodeId ∉ s.nodes.keys)
    (err : PyError) (s' : ConsistentHashRing) (herr : s.addNode sha256 d = .error err s') :
    ∃ m ∈ s.nodes.values, m.nodeId ≠ d.nodeId ∧
      ∃ s₃, s'.removeNode sha256 d.nodeId = .ok (some d) s₃ ∧
        ∃ s₄, s₃.removeNode sha256 m.nodeId = .ok (some m) s₄ ∧
          d.nodeId ∉ s₄.nodes.keys ∧ m.nodeId ∉ s₄.nodes.keys ∧ ∃ p, (p, m) ∈ s₄.ring := by
  obtain ⟨P, hi, -⟩ := hs.inv hf
  obtain ⟨hfun, hnodes, p, hp, -, -, m, hm, hmd, hpm⟩ := hi.addNode_error_state hd herr
  have hgetd : s'.nodes.get? d.nodeId = some d := by rw [hnodes, PyDict.get?_insert, if_pos rfl]
  have hgetm : ({ removeNode.loop d (d.positions sha256 hashFunction) s' with
      nodes := s'.nodes.erase d.nodeId } : ConsistentHashRing).nodes.get? m.nodeId = some m := by
    show (s'.nodes.erase d.nodeId).get? m.nodeId = some m
    rw [PyDict.get?_erase, if_neg hmd, hnodes, PyDict.get?_insert, if_neg hmd]
    exact PyDict.get?_eq_some.2 (hi.mem_values_iff.1 hm)
  refine ⟨m, hm, hmd, _, removeNode_found hgetd (hfun ▸ hi.getHashValues_eq d), _,
    removeNode_found hgetm (by simpa [hfun] using hi.getHashValues_eq m),
    by simp [PyDict.mem_keys_erase], by simp [PyDict.mem_keys_erase], p,
    removeNode_loop_keeps _ _ (removeNode_loop_keeps _ _ hpm (.inl hmd)) (.inr fun hk => ?_)⟩
  simp [PyDict.mem_keys, removeNode_loop_hashToNode, hp] at hk

/-- After "liquid" fails to join next to "costarring", removing "liquid" and then the node
it collided with leaves a tuple of that node in `ring`. -/
theorem addNode_error_then_removals_leave_orphan_liquid :
    ∃ s', (run (fun _ => 0) [.addNode ⟨"costarring", 1⟩] (init "fnv1a")).addNode (fun _ => 0)
        ⟨"liquid", 1⟩ = .error nodeTieError s' ∧
      ∃ m ∈ (run (fun _ => 0) [.addNode ⟨"costarring", 1⟩] (init "fnv1a")).nodes.values,
        ∃ s₃, s'.removeNode (fun _ => 0) "liquid" = .ok (some ⟨"liquid", 1⟩) s₃ ∧
          ∃ s₄, s₃.removeNode (fun _ => 0) m.nodeId = .ok (some m) s₄ ∧ ∃ p, (p, m) ∈ s₄.ring := by
  obtain ⟨s', hs'⟩ : ∃ s', (run (fun _ => 0) [.addNode ⟨"costarring", 1⟩] (init "fnv1a")).addNode
      (fun _ => 0) ⟨"liquid", 1⟩ = .error nodeTieError s' := ⟨_, rfl⟩
  obtain ⟨m, hm, -, s₃, h₃, s₄, h₄, -, -, p, hp⟩ := addNode_error_then_removals_leave_orphan _ _
    (by decide) _ ⟨_, by decide, rfl⟩ _ (by decide) _ _ hs'
  exact ⟨s', hs', m, hm, s₃, h₃, s₄, h₄, p, hp⟩

end ConsistentHashRing

end ConsistentHashLab
