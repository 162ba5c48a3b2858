import Mathlib.Data.List.Nodup
import Mathlib.Data.List.Perm.Basic

/-! # Python dictionaries

The ring keeps two `dict`s (`nodes` and `hash_to_node`), and the analysis methods build
more (`get_key_distribution`'s `defaultdict`, `get_moved_keys`' reverse maps). A dict is
modelled by its items in insertion order; the structure carries the fact that no key
occurs twice, so every operation has to keep it.
-/

namespace ConsistentHashLab

/-- A Python `dict`: its items in insertion order, each key at most once. -/
structure PyDict (κ ν : Type) where
  entries : List (κ × ν)
  nodup : (entries.map Prod.fst).Nodup

namespace PyDict

variable {κ ν : Type}

/-- `{}`. -/
def empty : PyDict κ ν := ⟨[], List.nodup_nil⟩

/-- The keys in insertion order; `k in d` is `k ∈ d.keys`. -/
def keys (d : PyDict κ ν) : List κ := d.entries.map Prod.fst

/-- `d.values()`. -/
def values (d : PyDict κ ν) : List ν := d.entries.map Prod.snd

theorem ext {d₁ d₂ : PyDict κ ν} (h : d₁.entries = d₂.entries) : d₁ = d₂ := by
  cases d₁; cases d₂; cases h; rfl

@[simp] theorem empty_entries : (empty : PyDict κ ν).entries = [] := rfl

theorem mem_keys {d : PyDict κ ν} {k : κ} : k ∈ d.keys ↔ ∃ v, (k, v) ∈ d.entries := by
  simp [keys]

theorem mem_values {d : PyDict κ ν} {v : ν} : v ∈ d.values ↔ ∃ k, (k, v) ∈ d.entries := by
  simp [values]

/-- Two items of one dict with the same key are the same item. -/
theorem eq_of_mem {d : PyDict κ ν} {k : κ} {v w : ν} (hv : (k, v) ∈ d.entries)
    (hw : (k, w) ∈ d.entries) : v = w :=
  (Prod.mk.inj (List.inj_on_of_nodup_map d.nodup hv hw rfl)).2

variable [DecidableEq κ]

/-- `d.get(k)`, which is also what `d[k]` reads once `k in d` holds. -/
def get? (d : PyDict κ ν) (k : κ) : Option ν := d.entries.lookup k

/-- `d[k] = v`: a key already present keeps its place and takes the new value, a new
key goes last. -/
def insert (d : PyDict κ ν) (k : κ) (v : ν) : PyDict κ ν :=
  if hk : k ∈ d.keys then
    ⟨d.entries.map (fun e => if e.1 = k then (k, v) else e), by
      rw [List.map_map]
      convert d.nodup using 2
      funext e
      by_cases h : e.1 = k <;> simp [h]⟩
  else
    ⟨d.entries ++ [(k, v)], by
      rw [List.map_append, List.nodup_append]
      exact ⟨d.nodup, List.nodup_singleton _, List.disjoint_singleton.2 hk⟩⟩

/-- `del d[k]`; each call site in the ring checks `k in d` first. -/
def erase (d : PyDict κ ν) (k : κ) : PyDict κ ν :=
  ⟨d.entries.filter (fun e => e.1 ≠ k), d.nodup.sublist ((List.filter_sublist _).map _)⟩

theorem get?_eq_some {d : PyDict κ ν} {k : κ} {v : ν} :
    d.get? k = some v ↔ (k, v) ∈ d.entries := by
  constructor
  · intro h
    obtain ⟨l₁, l₂, he, -⟩ := List.lookup_eq_some_iff.1 h
    simp [he]
  · intro h
    obtain ⟨w, hw⟩ : ∃ w, d.entries.lookup k = some w :=
      Option.isSome_iff_exists.1 (List.lookup_isSome_iff.2 ⟨_, h, by simp⟩)
    obtain ⟨l₁, l₂, he, -⟩ := List.lookup_eq_some_iff.1 hw
    have hw' : (k, w) ∈ d.entries := by simp [he]
    rw [get?, hw, eq_of_mem h hw']

theorem get?_eq_none {d : PyDict κ ν} {k : κ} : d.get? k = none ↔ k ∉ d.keys := by
  rw [← not_iff_not, ← ne_eq, Option.ne_none_iff_exists', not_not, mem_keys]
  exact exists_congr fun _ => get?_eq_some

theorem mem_insert {d : PyDict κ ν} {k : κ} {v : ν} {e : κ × ν} :
    e ∈ (d.insert k v).entries ↔ e = (k, v) ∨ (e.1 ≠ k ∧ e ∈ d.entries) := by
  unfold insert
  split
  · rename_i hk
    obtain ⟨w, hw⟩ := mem_keys.1 hk
    simp only [List.mem_map]
    constructor
    · rintro ⟨e', he', rfl⟩
      by_cases h : e'.1 = k <;> simp [h, he']
    · rintro (rfl | ⟨hne, he⟩)
      · exact ⟨_, hw, by simp⟩
      · exact ⟨e, he, by simp [hne]⟩
  · rename_i hk
    simp only [List.mem_append, List.mem_singleton]
    constructor
    · rintro (he | rfl)
      · exact .inr ⟨fun h => hk (mem_keys.2 ⟨e.2, h ▸ he⟩), he⟩
      · exact .inl rfl
    · rintro (rfl | ⟨-, he⟩) <;> simp [*]

theorem insert_of_not_mem {d : PyDict κ ν} {k : κ} (v : ν) (hk : k ∉ d.keys) :
    (d.insert k v).entries = d.entries ++ [(k, v)] := by
  simp [insert, hk]

@[simp] theorem mem_erase {d : PyDict κ ν} {k : κ} {e : κ × ν} :
    e ∈ (d.erase k).entries ↔ e.1 ≠ k ∧ e ∈ d.entries := by
  simp [erase, and_comm]

theorem get?_insert (d : PyDict κ ν) (k k' : κ) (v : ν) :
    (d.insert k v).get? k' = if k' = k then some v else d.get? k' := by
  cases h : (d.insert k v).get? k' with
  | none =>
      rw [get?_eq_none, mem_keys] at h
      split
      · exact absurd ⟨v, mem_insert.2 (.inl (by simp [*]))⟩ h
      · rw [eq_comm, get?_eq_none, mem_keys]
        exact fun ⟨w, hw⟩ => h ⟨w, mem_insert.2 (.inr ⟨‹_›, hw⟩)⟩
  | some w =>
      rcases mem_insert.1 (get?_eq_some.1 h) with he | ⟨hne, he⟩
      · simp_all
      · simp only [hne, if_false]
        exact (get?_eq_some.2 he).symm

theorem get?_erase (d : PyDict κ ν) (k k' : κ) :
    (d.erase k).get? k' = if k' = k then none else d.get? k' := by
  split
  · subst k'
    simp [get?_eq_none, mem_keys]
  · cases h : d.get? k' with
    | none =>
        rw [get?_eq_none, mem_keys] at h ⊢
        exact fun ⟨w, hw⟩ => h ⟨w, (mem_erase.1 hw).2⟩
    | some w => exact get?_eq_some.2 (mem_erase.2 ⟨‹_›, get?_eq_some.1 h⟩)

theorem mem_keys_insert {d : PyDict κ ν} {k k' : κ} {v : ν} :
    k' ∈ (d.insert k v).keys ↔ k' = k ∨ k' ∈ d.keys := by
  simp only [mem_keys, mem_insert, Prod.ext_iff]
  constructor
  · rintro ⟨w, ⟨h, -⟩ | ⟨-, hw⟩⟩
    · exact .inl h
    · exact .inr ⟨w, hw⟩
  · rintro (rfl | ⟨w, hw⟩)
    · exact ⟨v, .inl ⟨rfl, rfl⟩⟩
    · by_cases h : k' = k
      · exact ⟨v, .inl ⟨h, rfl⟩⟩
      · exact ⟨w, .inr ⟨h, hw⟩⟩

theorem insert_of_mem {d : PyDict κ ν} {k : κ} (v : ν) (hk : k ∈ d.keys) :
    (d.insert k v).entries = d.entries.map (fun e => if e.1 = k then (k, v) else e) := by
  simp [insert, hk]

theorem mem_keys_erase {d : PyDict κ ν} {k k' : κ} :
    k' ∈ (d.erase k).keys ↔ k' ≠ k ∧ k' ∈ d.keys := by
  simp only [mem_keys, mem_erase, exists_and_left]

theorem erase_of_not_mem {d : PyDict κ ν} {k : κ} (hk : k ∉ d.keys) : d.erase k = d :=
  ext (List.filter_eq_self.2 fun e he => by
    simpa using fun h : e.1 = k => hk (h ▸ List.mem_map_of_mem _ he))

/-- Deleting a key that was just added gives the dict back. -/
theorem erase_insert_of_not_mem {d : PyDict κ ν} {k : κ} (v : ν) (hk : k ∉ d.keys) :
    (d.insert k v).erase k = d := by
  refine ext ?_
  show (d.insert k v).entries.filter _ = _
  rw [insert_of_not_mem v hk, List.filter_append, List.filter_eq_self.2 fun e he => by
    simpa using fun h : e.1 = k => hk (h ▸ List.mem_map_of_mem _ he)]
  simp

theorem flatten_map_update {α : Type} {l : List (κ × List α)} {k : κ} (v : List α)
    (hl : (l.map Prod.fst).Nodup) (hk : k ∈ l.map Prod.fst) :
    (((l.map fun e => if e.1 = k then (k, v) else e).map Prod.snd).flatten ++
      (l.lookup k).getD []).Perm ((l.map Prod.snd).flatten ++ v) := by
  induction l with
  | nil => simp at hk
  | cons e l ih =>
      obtain ⟨a, b⟩ := e
      simp only [List.map_cons, List.nodup_cons, List.mem_cons] at hl hk
      by_cases he : a = k
      · subst he
        have hrest : l.map (fun e => if e.1 = a then (a, v) else e) = l :=
          (List.map_congr_left fun f hf => if_neg fun h =>
            hl.1 (List.mem_map.2 ⟨f, hf, h⟩)).trans (List.map_id _)
        simp only [List.map_cons, ite_true, hrest, List.flatten_cons, List.lookup_cons_self,
          Option.getD_some]
        simpa only [List.append_assoc] using
          List.perm_append_comm.trans (List.perm_append_comm.append_left b)
      · have hka : (k == a) = false := beq_false_of_ne (Ne.symm he)
        simp only [List.map_cons, if_neg he, List.flatten_cons, List.lookup_cons, hka,
          List.append_assoc]
        exact (ih hl.2 (hk.resolve_left (Ne.symm he))).append_left b

/-- Setting a key swaps the old value's items for the new one's among all the values'
items. -/
theorem flatten_values_insert {α : Type} (d : PyDict κ (List α)) (k : κ) (v : List α) :
    ((d.insert k v).values.flatten ++ (d.get? k).getD []).Perm (d.values.flatten ++ v) := by
  by_cases hk : k ∈ d.keys
  · simpa only [values, get?, insert_of_mem v hk, List.map_map] using
      flatten_map_update v d.nodup hk
  · rw [get?_eq_none.2 hk, values, insert_of_not_mem v hk, values]
    simp

end PyDict

end ConsistentHashLab
