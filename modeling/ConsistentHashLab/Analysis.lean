import ConsistentHashLab.Lookup

/-! # Key distributions and moved keys

`get_key_distribution` groups keys by the id of the node their lookup returns, each
group in input order with repeats kept (`getKeyDistribution_loop` is its loop invariant).
`get_moved_keys` inverts two groupings with `keyToNode`, which reads a key's id off the
last list holding it; when no key is listed under two ids that is the id of any list
holding it (`get?_keyToNode`).
-/

namespace ConsistentHashLab

namespace ConsistentHashRing

variable (sha256 : List UInt8 → Nat)

/-- The id of the node `get_node_for_key(key)` returns; `none` when it returns `None`
or raises. -/
def ownerId (self : ConsistentHashRing) (key : String) : Option String :=
  match self.getNodeForKey sha256 key with
  | .ok (some node) => some node.nodeId
  | _ => none

variable {sha256} {s : ConsistentHashRing}

/-- The loop invariant of `get_key_distribution`: over keys whose lookups return, the
loop appends each key to its owner's list, creating the list at the owner's first key. -/
theorem getKeyDistribution_loop :
    ∀ (keys : List String) (D₀ : PyDict String (List String)),
      (∀ key ∈ keys, ∃ r, s.getNodeForKey sha256 key = .ok r) →
      ∃ D, getKeyDistribution.loop sha256 s keys D₀ = .ok D ∧
        (∀ id, id ∈ D.keys ↔ id ∈ D₀.keys ∨ ∃ key ∈ keys, s.ownerId sha256 key = some id) ∧
        (∀ id, (D.get? id).getD [] =
          (D₀.get? id).getD [] ++ keys.filter (fun key => s.ownerId sha256 key = some id)) ∧
        D.values.flatten.Perm
          (D₀.values.flatten ++ keys.filter fun key => (s.ownerId sha256 key).isSome)
  | [], D₀, _ => ⟨D₀, rfl, by simp, by simp, by simp⟩
  | key :: rest, D₀, hk => by
      obtain ⟨r, hr⟩ := hk key (List.mem_cons_self _ _)
      have hrest := fun k hk' => hk k (List.mem_cons_of_mem _ hk')
      cases r with
      | none =>
          have ho : s.ownerId sha256 key = none := by simp [ownerId, hr]
          obtain ⟨D, hD, hkeys, hget, hsum⟩ := getKeyDistribution_loop rest D₀ hrest
          refine ⟨D, by simp [getKeyDistribution.loop, hr, hD], fun id => ?_, fun id => ?_, ?_⟩
          · simp [hkeys, ho]
          · simp [hget, ho, List.filter_cons]
          · simpa [ho, List.filter_cons] using hsum
      | some n =>
          have ho : s.ownerId sha256 key = some n.nodeId := by simp [ownerId, hr]
          obtain ⟨D, hD, hkeys, hget, hsum⟩ := getKeyDistribution_loop rest
            (D₀.insert n.nodeId ((D₀.get? n.nodeId).getD [] ++ [key])) hrest
          refine ⟨D, by simp [getKeyDistribution.loop, hr, hD], fun id => ?_, fun id => ?_, ?_⟩
          · rw [hkeys, PyDict.mem_keys_insert]
            simp only [List.mem_cons, exists_eq_or_imp, ho, Option.some.injEq,
              @eq_comm _ n.nodeId id]
            exact or_assoc.trans or_left_comm
          · rw [hget, PyDict.get?_insert, List.filter_cons, ho]
            by_cases hid : id = n.nodeId
            · subst hid; simp
            · simp [hid, Ne.symm hid]
          · have hins := PyDict.flatten_values_insert D₀ n.nodeId
              ((D₀.get? n.nodeId).getD [] ++ [key])
            have hD₁ : (D₀.insert n.nodeId ((D₀.get? n.nodeId).getD [] ++ [key])).values.flatten
                |>.Perm (D₀.values.flatten ++ [key]) :=
              (List.perm_append_right_iff _).1 (hins.trans (by
                rw [List.append_assoc]
                exact List.perm_append_comm.append_left _))
            rw [List.filter_cons_of_pos (by simp [ho])]
            simpa using hsum.trans (hD₁.append_right _)

/-- What `get_key_distribution(keys)` returns when every lookup returns: an entry for
each id owning a key, holding that id's keys in input order, and all the lists together
are the keys that have an owner. -/
theorem getKeyDistribution_spec {keys : List String}
    (hk : ∀ key ∈ keys, ∃ r, s.getNodeForKey sha256 key = .ok r) :
    ∃ D, s.getKeyDistribution sha256 keys = .ok D ∧
      (∀ id, id ∈ D.keys ↔ ∃ key ∈ keys, s.ownerId sha256 key = some id) ∧
      (∀ id ks, D.get? id = some ks →
        ks = keys.filter (fun key => s.ownerId sha256 key = some id)) ∧
      D.values.flatten.Perm (keys.filter fun key => (s.ownerId sha256 key).isSome) := by
  obtain ⟨D, hD, hkeys, hget, hperm⟩ := getKeyDistribution_loop keys .empty hk
  refine ⟨D, hD, fun id => (hkeys id).trans (or_iff_right (List.not_mem_nil id)), fun id ks h => ?_,
    by simpa [PyDict.values] using hperm⟩
  have := hget id
  rw [h] at this
  simpa using this

/-- `get_key_distribution(keys)`, when every lookup returns: one entry per id owning a
key, holding that id's keys in input order with repeats; the lists partition `keys` on a
nonempty ring, and the result is empty on the empty ring. -/
theorem getKeyDistribution_groups_keys (sha256 : List UInt8 → Nat) (s : ConsistentHashRing)
    (keys : List String) (hk : ∀ key ∈ keys, ∃ r, s.getNodeForKey sha256 key = .ok r) :
    ∃ D, s.getKeyDistribution sha256 keys = .ok D ∧
      (∀ id, id ∈ D.keys ↔ ∃ key ∈ keys, s.ownerId sha256 key = some id) ∧
      (∀ id ks, D.get? id = some ks →
        ks = keys.filter (fun key => s.ownerId sha256 key = some id)) ∧
      (s.ring ≠ [] → D.values.flatten.Perm keys) ∧
      (s.ring = [] → D.entries = []) := by
  obtain ⟨D, hD, hkeys, hget, hperm⟩ := getKeyDistribution_spec hk
  refine ⟨D, hD, hkeys, hget, fun hne => ?_, fun hnil => ?_⟩
  · rw [List.filter_eq_self.2 fun key hkey => ?_] at hperm
    · exact hperm
    obtain ⟨r, hr⟩ := hk key hkey
    cases r with
    | none => exact absurd (getNodeForKey_eq_none_iff.1 hr) hne
    | some n => simp [ownerId, hr]
  · have hnone : ∀ key, s.ownerId sha256 key = none := fun key => by
      simp [ownerId, getNodeForKey_nil hnil]
    have : D.keys = [] := List.eq_nil_iff_forall_not_mem.2 fun id hid => by
      simpa [hnone] using (hkeys id).1 hid
    exact List.map_eq_nil_iff.1 this

/-- Two nodes' positions split three keys, the last one wrapping round to the first
position. -/
theorem getKeyDistribution_groups_keys_split :
    let s : ConsistentHashRing :=
      ⟨"fnv1a", [(2000000000, ⟨"a", 1⟩), (3000000000, ⟨"b", 1⟩)], .empty, .empty⟩
    (∀ key ∈ ["foo", "bar", "foo", "qux"], ∃ r, s.getNodeForKey (fun _ => 0) key = .ok r) ∧
      ∃ D, s.getKeyDistribution (fun _ => 0) ["foo", "bar", "foo", "qux"] = .ok D ∧
        D.values.flatten.Perm ["foo", "bar", "foo", "qux"] := by
  intro s
  have hk : ∀ key ∈ ["foo", "bar", "foo", "qux"], ∃ r,
      s.getNodeForKey (fun _ => 0) key = .ok r := by
    intro key hkey
    simp only [List.mem_cons, List.not_mem_nil, or_false] at hkey
    rcases hkey with rfl | rfl | rfl | rfl <;> exact ⟨_, by dsimp only [s]; rfl⟩
  obtain ⟨D, hD, -, -, hsum, -⟩ := getKeyDistribution_groups_keys _ s _ hk
  exact ⟨hk, D, hD, hsum (List.cons_ne_nil _ _)⟩

/-- The id a distribution lists `key` under: that of the first list holding it. -/
def listedUnder (distribution : PyDict String (List String)) (key : String) : Option String :=
  (distribution.entries.find? fun e => key ∈ e.2).map (·.1)

/-- No key is listed under two different ids, as in what `get_key_distribution`
returns. -/
def WellListed (distribution : PyDict String (List String)) : Prop :=
  ∀ e ∈ distribution.entries, ∀ f ∈ distribution.entries, ∀ key ∈ e.2, key ∈ f.2 → e.1 = f.1

instance : DecidablePred WellListed := fun _ =>
  inferInstanceAs (Decidable (∀ e ∈ _, ∀ f ∈ _, ∀ key ∈ _, _ → _))

/-- The inner loop of the reverse mapping: every key of the list now maps to `id`. -/
theorem get?_foldl_insert (id key : String) :
    ∀ (ks : List String) (m : PyDict String String),
      (ks.foldl (fun m k => m.insert k id) m).get? key = if key ∈ ks then some id else m.get? key
  | [], m => by simp
  | k :: ks, m => by
      rw [List.foldl_cons, get?_foldl_insert id key ks, PyDict.get?_insert]
      by_cases hk : key ∈ ks <;> by_cases he : key = k <;> simp [hk, he]

/-- The outer loop: a key takes the id of a list holding it, any one of them when they
all carry the same id. -/
theorem get?_foldl_entries (key : String) :
    ∀ (L : List (String × List String)) (m : PyDict String String),
      (∀ e ∈ L, ∀ f ∈ L, key ∈ e.2 → key ∈ f.2 → e.1 = f.1) →
      (L.foldl (fun m e => e.2.foldl (fun m k => m.insert k e.1) m) m).get? key =
        ((L.find? fun e => key ∈ e.2).map (·.1)).or (m.get? key)
  | [], m, _ => rfl
  | e :: L, m, hL => by
      rw [List.foldl_cons, get?_foldl_entries key L _ fun f hf g hg =>
        hL f (List.mem_cons_of_mem _ hf) g (List.mem_cons_of_mem _ hg), get?_foldl_insert]
      by_cases hk : key ∈ e.2
      · rw [List.find?_cons_of_pos _ (by simpa using hk), if_pos hk]
        cases hf : L.find? (fun e => key ∈ e.2) with
        | none => rfl
        | some f =>
            have := hL e (List.mem_cons_self _ _) f
              (List.mem_cons_of_mem _ (List.mem_of_find?_eq_some hf)) hk
              (by simpa using List.find?_some hf)
            simp [this]
      · rw [List.find?_cons_of_neg _ (by simpa using hk), if_neg hk]

theorem get?_keyToNode {distribution : PyDict String (List String)} (h : WellListed distribution)
    (key : String) : (keyToNode distribution).get? key = listedUnder distribution key := by
  rw [keyToNode, get?_foldl_entries key _ _ fun e he f hf => h e he f hf key]
  exact Option.or_none

theorem listedUnder_eq_none {distribution : PyDict String (List String)} {key : String} :
    listedUnder distribution key = none ↔ ¬∃ ks ∈ distribution.values, key ∈ ks := by
  simp only [listedUnder, Option.map_eq_none', List.find?_eq_none, decide_eq_true_eq, not_exists,
    not_and, PyDict.values, List.forall_mem_map]

theorem mem_getMovedKeys {D₁ D₂ : PyDict String (List String)} (h₁ : WellListed D₁)
    (h₂ : WellListed D₂) (key : String) :
    key ∈ getMovedKeys D₁ D₂ ↔
      ((∃ ks ∈ D₁.values, key ∈ ks) ∨ ∃ ks ∈ D₂.values, key ∈ ks) ∧
        listedUnder D₁ key ≠ listedUnder D₂ key := by
  have hlisted : ∀ {D}, WellListed D → (key ∈ (keyToNode D).keys ↔ ∃ ks ∈ D.values, key ∈ ks) :=
    fun h => by rw [← not_iff_not, ← PyDict.get?_eq_none, get?_keyToNode h, listedUnder_eq_none]
  simp only [getMovedKeys, List.mem_filter, List.mem_dedup, List.mem_append, hlisted h₁,
    hlisted h₂, get?_keyToNode h₁, get?_keyToNode h₂, decide_eq_true_eq]

/-- `get_moved_keys` on two distributions with no key listed under two ids: each moved key
once, and exactly the keys listed in either whose id differs, a key missing from one
counting as a different id. Between a distribution and itself nothing moves. -/
theorem getMovedKeys_exact :
    (∀ D₁ D₂ : PyDict String (List String), WellListed D₁ → WellListed D₂ →
      (getMovedKeys D₁ D₂).Nodup ∧
      ∀ key, key ∈ getMovedKeys D₁ D₂ ↔
        ((∃ ks ∈ D₁.values, key ∈ ks) ∨ ∃ ks ∈ D₂.values, key ∈ ks) ∧
          listedUnder D₁ key ≠ listedUnder D₂ key) ∧
    ∀ D : PyDict String (List String), getMovedKeys D D = [] :=
  ⟨fun _ _ h₁ h₂ => ⟨(List.nodup_dedup _).filter _, mem_getMovedKeys h₁ h₂⟩, fun D => by
    simp [getMovedKeys]⟩

/-- Between two snapshots "k2" changes id, "k4" appears, and "k1" and "k3" stay. -/
theorem getMovedKeys_exact_two_snapshots :
    let D₁ : PyDict String (List String) := ⟨[("a", ["k1", "k2"]), ("b", ["k3"])], by decide⟩
    let D₂ : PyDict String (List String) :=
      ⟨[("a", ["k1"]), ("b", ["k2", "k3", "k4"])], by decide⟩
    WellListed D₁ ∧ WellListed D₂ ∧ (getMovedKeys D₁ D₂).Nodup ∧
      ("k4" ∈ getMovedKeys D₁ D₂ ↔
        ((∃ ks ∈ D₁.values, "k4" ∈ ks) ∨ ∃ ks ∈ D₂.values, "k4" ∈ ks) ∧
          listedUnder D₁ "k4" ≠ listedUnder D₂ "k4") := by
  intro D₁ D₂
  have h₁ : WellListed D₁ := by decide
  have h₂ : WellListed D₂ := by decide
  obtain ⟨hnd, hmem⟩ := getMovedKeys_exact.1 D₁ D₂ h₁ h₂
  exact ⟨h₁, h₂, hnd, hmem "k4"⟩

end ConsistentHashRing

end ConsistentHashLab
