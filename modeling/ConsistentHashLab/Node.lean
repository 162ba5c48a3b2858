import Mathlib.Data.List.Range
import Mathlib.Logic.Basic

/-! # Nodes and their ring positions

`node.py`: a node is an id and a replica count, and `get_hash_values` hashes
`f"{node_id}-{replica}"` for every replica index with the hash function the ring names.
The two hash functions are the same code in `Node._hash_string` and
`ConsistentHashRing._hash_key`; here both are `hashWith`. FNV-1a is computed as the source
does it; `hashlib.sha256` is a parameter, the digest read back as an integer, so every
result below holds whatever that digest is.
-/

namespace ConsistentHashLab

/-- The exceptions the ring's code raises. -/
inductive PyError where
  | valueError (message : String)
  | typeError (message : String)
  | indexError (message : String)
  deriving DecidableEq, Repr

/-- `str.encode()`: the UTF-8 bytes of a string. A `String` holds Unicode scalar values
only, while a Python `str` may also hold a lone surrogate, on which `.encode()` raises
`UnicodeEncodeError` (`pyEncode`). Keys and node ids are `String`s, so every result of the
project is about `str`s without a lone surrogate. -/
def encode (s : String) : List UInt8 := s.toUTF8.data.toList

/-- A UTF-16 surrogate code point, U+D800 to U+DFFF. -/
def isSurrogate (n : Nat) : Bool := 0xD800 ≤ n && n ≤ 0xDFFF

/-- `str.encode()` on a `str` given by its code points: `none` for the `UnicodeEncodeError`
("surrogates not allowed") of a lone surrogate, the UTF-8 bytes otherwise. -/
def pyEncode (codePoints : List Nat) : Option (List UInt8) :=
  if codePoints.any isSurrogate then none else some (encode ⟨codePoints.map Char.ofNat⟩)

/-- `encode` is `str.encode()` on the code points of every `String`. -/
theorem pyEncode_data (s : String) : pyEncode (s.data.map Char.toNat) = some (encode s) := by
  have hs : (s.data.map Char.toNat).any isSurrogate = false := by
    simp only [List.any_eq_false, List.mem_map]
    rintro _ ⟨c, -, rfl⟩
    have hc : c.toNat < 0xD800 ∨ 0xDFFF < c.toNat ∧ c.toNat < 0x110000 := c.valid
    simp only [isSurrogate, Bool.and_eq_true, decide_eq_true_eq, not_and, not_le]
    omega
  rw [pyEncode, if_neg (by rw [hs]; decide), List.map_map]
  simp only [Function.comp_def, Char.ofNat_toNat, List.map_id']

/-- Every `str` without a lone surrogate is the code points of a `String`, so `String`
keys and ids leave out exactly the `str`s on which `.encode()` raises. -/
theorem exists_data_of_not_surrogate (codePoints : List Nat)
    (hr : ∀ n ∈ codePoints, n < 0x110000) (hs : codePoints.any isSurrogate = false) :
    ∃ s : String, s.data.map Char.toNat = codePoints := by
  refine ⟨⟨codePoints.map Char.ofNat⟩, ?_⟩
  show (codePoints.map Char.ofNat).map Char.toNat = codePoints
  rw [List.map_map]
  refine (List.map_congr_left fun n hn => ?_).trans (List.map_id' codePoints)
  have hv : n.isValidChar := by
    have hn' := List.any_eq_false.1 hs n hn
    simp only [isSurrogate, Bool.and_eq_true, decide_eq_true_eq, not_and, not_le] at hn'
    have := hr n hn
    unfold Nat.isValidChar
    omega
  show (Char.ofNat n).toNat = n
  rw [Char.ofNat, dif_pos hv]
  rfl

/-- The FNV-1a loop: xor the byte in, multiply by the FNV prime, keep 32 bits. -/
def fnv1a (bytes : List UInt8) : Nat :=
  bytes.foldl (fun hashValue byte => ((hashValue ^^^ byte.toNat) * 16777619) &&& 0xFFFFFFFF)
    2166136261

/-- The hash function names the code accepts. -/
def Supported (hashFunction : String) : Prop :=
  hashFunction = "sha256" ∨ hashFunction = "fnv1a"

instance : DecidablePred Supported := fun _ => inferInstanceAs (Decidable (_ ∨ _))

section Hashing

variable (sha256 : List UInt8 → Nat)

/-- The body of `Node._hash_string(value, hash_function)` and of `_hash_key`, where
`sha256 b` is `int(hashlib.sha256(b).hexdigest(), 16)`. -/
def hashWith (hashFunction value : String) : Except PyError Nat :=
  if hashFunction = "sha256" then .ok (sha256 (encode value))
  else if hashFunction = "fnv1a" then .ok (fnv1a (encode value))
  else .error (.valueError ("Unsupported hash function: " ++ hashFunction))

/-- What a supported hash function computes. -/
def digest (hashFunction value : String) : Nat :=
  if hashFunction = "sha256" then sha256 (encode value) else fnv1a (encode value)

variable {sha256} {hashFunction : String}

theorem hashWith_supported (h : Supported hashFunction) (value : String) :
    hashWith sha256 hashFunction value = .ok (digest sha256 hashFunction value) := by
  rcases h with rfl | rfl <;> simp [hashWith, digest]

/-- FNV-1a never reads the `sha256` digest. -/
@[simp] theorem digest_fnv1a (value : String) :
    digest sha256 "fnv1a" value = fnv1a (encode value) := by
  simp [digest]

theorem hashWith_unsupported (h : ¬Supported hashFunction) (value : String) :
    hashWith sha256 hashFunction value =
      .error (.valueError ("Unsupported hash function: " ++ hashFunction)) := by
  simp only [Supported, not_or] at h
  simp [hashWith, h.1, h.2]

end Hashing

/-- `Node(node_id, replicas)`. The `weight` field is never read by the ring and is left
out. -/
structure Node where
  nodeId : String
  replicas : Int
  deriving DecidableEq, Repr

namespace Node

variable (sha256 : List UInt8 → Nat)

/-- `Node.__eq__`: two nodes are equal when their ids are. -/
def eq (a b : Node) : Bool := a.nodeId == b.nodeId

/-- `f"{self.node_id}-{replica}"`. -/
def replicaId (node : Node) (replica : Nat) : String :=
  node.nodeId ++ "-" ++ toString replica

/-- `Node._hash_string(value, hash_function)`. -/
def hashString (value hashFunction : String) : Except PyError Nat :=
  hashWith sha256 hashFunction value

/-- `Node.get_hash_values(hash_function)`: the hash of each replica id over
`range(self.replicas)`, the first failure raised. -/
def getHashValues (node : Node) (hashFunction : String) : Except PyError (List Nat) :=
  (List.range node.replicas.toNat).mapM fun replica =>
    hashString sha256 (node.replicaId replica) hashFunction

/-- The positions a node takes under a supported hash function. -/
def positions (hashFunction : String) (node : Node) : List Nat :=
  (List.range node.replicas.toNat).map fun replica =>
    digest sha256 hashFunction (node.replicaId replica)

variable {sha256}

@[simp] theorem eq_iff {a b : Node} : a.eq b = true ↔ a.nodeId = b.nodeId := by
  simp [eq]

theorem getHashValues_supported {hashFunction : String} (h : Supported hashFunction)
    (node : Node) :
    node.getHashValues sha256 hashFunction = .ok (node.positions sha256 hashFunction) := by
  unfold getHashValues positions
  induction List.range node.replicas.toNat with
  | nil => rfl
  | cons r rs ih =>
      rw [List.mapM_cons, ih]
      simp only [hashString, hashWith_supported h]
      rfl

theorem getHashValues_unsupported {hashFunction : String} (h : ¬Supported hashFunction)
    {node : Node} (hr : 0 < node.replicas) :
    node.getHashValues sha256 hashFunction =
      .error (.valueError ("Unsupported hash function: " ++ hashFunction)) := by
  obtain ⟨n, hn⟩ : ∃ n, node.replicas.toNat = n + 1 := ⟨node.replicas.toNat - 1, by omega⟩
  rw [getHashValues, hn, List.range_succ_eq_map, List.mapM_cons]
  simp only [hashString, hashWith_unsupported h]
  rfl

end Node

end ConsistentHashLab
