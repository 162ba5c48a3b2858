import ConsistentHashLab.Python.Dict
import ConsistentHashLab.Python.Bisect
import ConsistentHashLab.Node
import Mathlib.Data.List.Dedup

/-! # The hash ring

`ring.py`: the `ConsistentHashRing` object and its methods. A mutating method takes the
object and ends in an `EStateM.Result`: its return value or the exception it raised, with
the object as the call left it, since Python keeps the mutations made before an
exception. The other methods are functions of the object.

The `(hash, node)` tuples are compared with Python's tuple `<` (`pairLt`): `Node` has no
`<` and `None` neither, so a tie that `==` does not settle raises `TypeError`.
-/

namespace ConsistentHashLab

/-- `ConsistentHashRing`: the hash function's name, the `ring` list of `(hash, node)`
tuples, and the dicts `nodes` (id to node) and `hash_to_node`. -/
@[ext]
structure ConsistentHashRing where
  hashFunction : String
  ring : List (Nat × Node)
  nodes : PyDict String Node
  hashToNode : PyDict Nat Node

/-- The `TypeError` of `node < node`. -/
def nodeTieError : PyError :=
  .typeError "'<' not supported between instances of 'Node' and 'Node'"

/-- The `TypeError` of `None < node`. -/
def noneTieError : PyError :=
  .typeError "'<' not supported between instances of 'NoneType' and 'Node'"

/-- Python's `<` between two ring tuples: a tie on the hash is settled by
`Node.__eq__` or raises. -/
def entryLt : Nat × Node → Nat × Node → Except PyError Bool :=
  pairLt Node.eq nodeTieError

/-- Python's `<` between the search tuple `(key_hash, None)` and a ring tuple: `None` is
never `==` a node, so a tie raises. -/
def sentinelLt : Nat × Unit → Nat × Node → Except PyError Bool :=
  pairLt (fun _ _ => false) noneTieError

/-- Python's `==` between two ring tuples. -/
def entryEq (e f : Nat × Node) : Bool := e.1 == f.1 && e.2.eq f.2

/-- `list.remove(x)`: drop the first item equal to `x`, `ValueError` when there is none. -/
def listRemove (l : List (Nat × Node)) (x : Nat × Node) : Except PyError (List (Nat × Node)) :=
  if l.any (entryEq · x) then .ok (l.eraseP (entryEq · x))
  else .error (.valueError "list.remove(x): x not in list")

/-- The object a call leaves behind, whether it returned or raised. -/
def stateAfter {α : Type} : EStateM.Result PyError ConsistentHashRing α → ConsistentHashRing
  | .ok _ self => self
  | .error _ self => self

namespace ConsistentHashRing

/-- `ConsistentHashRing(hash_function)`: the empty ring. -/
def init (hashFunction : String) : ConsistentHashRing := ⟨hashFunction, [], .empty, .empty⟩

variable (sha256 : List UInt8 → Nat)

/-- `_hash_key(key)`. -/
def hashKey (self : ConsistentHashRing) (key : String) : Except PyError Nat :=
  hashWith sha256 self.hashFunction key

/-- The loop of `add_node` over the node's hash values: record the hash in
`hash_to_node`, then `bisect.insort` the tuple into `ring`. -/
def addNode.loop (node : Node) :
    List Nat → ConsistentHashRing → EStateM.Result PyError ConsistentHashRing Unit
  | [], self => .ok () self
  | hashValue :: rest, self =>
      let self := { self with hashToNode := self.hashToNode.insert hashValue node }
      match insort entryLt self.ring (hashValue, node) with
      | .ok ring => addNode.loop node rest { self with ring := ring }
      | .error e => .error e self

/-- `add_node(node)`: reject a registered id, register the node, hash its replicas, then
insert each position. -/
def addNode (self : ConsistentHashRing) (node : Node) :
    EStateM.Result PyError ConsistentHashRing Unit :=
  if node.nodeId ∈ self.nodes.keys then
    .error (.valueError ("Node " ++ node.nodeId ++ " already exists in the ring")) self
  else
    let self := { self with nodes := self.nodes.insert node.nodeId node }
    match node.getHashValues sha256 self.hashFunction with
    | .ok hashValues => addNode.loop node hashValues self
    | .error e => .error e self

/-- The loop of `remove_node`: a hash still in `hash_to_node` is deleted there and its
tuple removed from `ring` (a missing tuple is ignored, `except ValueError: pass`); a hash
already gone from `hash_to_node` is skipped. -/
def removeNode.loop (node : Node) : List Nat → ConsistentHashRing → ConsistentHashRing
  | [], self => self
  | hashValue :: rest, self =>
      if hashValue ∈ self.hashToNode.keys then
        let self := { self with hashToNode := self.hashToNode.erase hashValue }
        let ring := match listRemove self.ring (hashValue, node) with
          | .ok ring => ring
          | .error _ => self.ring
        removeNode.loop node rest { self with ring := ring }
      else removeNode.loop node rest self

/-- `remove_node(node_id)`: the removed node, or `None` for an unregistered id. -/
def removeNode (self : ConsistentHashRing) (nodeId : String) :
    EStateM.Result PyError ConsistentHashRing (Option Node) :=
  match self.nodes.get? nodeId with
  | none => .ok none self
  | some node =>
      match node.getHashValues sha256 self.hashFunction with
      | .error e => .error e self
      | .ok hashValues =>
          let self := removeNode.loop node hashValues self
          .ok (some node) { self with nodes := self.nodes.erase nodeId }

/-- `get_node_for_key(key)`: `None` on an empty ring, otherwise the node at
`bisect_right(ring, (key_hash, None))`, wrapping to index 0 past the end. -/
def getNodeForKey (self : ConsistentHashRing) (key : String) : Except PyError (Option Node) :=
  if self.ring = [] then .ok none
  else do
    let keyHash ← self.hashKey sha256 key
    let index ← bisectRight sentinelLt self.ring (keyHash, ())
    let index := if index ≥ self.ring.length then 0 else index
    match self.ring[index]? with
    | some entry => pure (some entry.2)
    | none => throw (.indexError "list index out of range")

/-- The loop of `get_key_distribution`: `distribution[node.node_id].append(key)` on a
`defaultdict(list)` for each key that has a node. -/
def getKeyDistribution.loop (self : ConsistentHashRing) :
    List String → PyDict String (List String) → Except PyError (PyDict String (List String))
  | [], distribution => .ok distribution
  | key :: rest, distribution =>
      match getNodeForKey sha256 self key with
      | .error e => .error e
      | .ok (some node) =>
          getKeyDistribution.loop self rest (distribution.insert node.nodeId
            ((distribution.get? node.nodeId).getD [] ++ [key]))
      | .ok none => getKeyDistribution.loop self rest distribution

/-- `get_key_distribution(keys)`. -/
def getKeyDistribution (self : ConsistentHashRing) (keys : List String) :
    Except PyError (PyDict String (List String)) :=
  getKeyDistribution.loop sha256 self keys .empty

/-- The reverse mapping `{key: node_id}` of a distribution, a later listing of a key
overwriting an earlier one. -/
def keyToNode (distribution : PyDict String (List String)) : PyDict String String :=
  distribution.entries.foldl (fun m e => e.2.foldl (fun m key => m.insert key e.1) m) .empty

/-- `get_moved_keys(old_distribution, new_distribution)`. The loop runs over the set
`set(old_key_to_node.keys()) | set(new_key_to_node.keys())`, enumerated here without
repeats; Python does not fix the order of a set, and nothing below depends on it. -/
def getMovedKeys (oldDistribution newDistribution : PyDict String (List String)) :
    List String :=
  let oldKeyToNode := keyToNode oldDistribution
  let newKeyToNode := keyToNode newDistribution
  (oldKeyToNode.keys ++ newKeyToNode.keys).dedup.filter fun key =>
    oldKeyToNode.get? key ≠ newKeyToNode.get? key

/-- `get_ring_state()`. -/
def getRingState (self : ConsistentHashRing) : List (Nat × String) :=
  self.ring.map fun e => (e.1, e.2.nodeId)

end ConsistentHashRing

/-- A call to one of the ring's mutating methods. -/
inductive Call where
  | addNode (node : Node)
  | removeNode (nodeId : String)

namespace Call

variable (sha256 : List UInt8 → Nat)

/-- The ring as the call leaves it, whether the call returned or raised. -/
def apply : Call → ConsistentHashRing → ConsistentHashRing
  | .addNode node, self => stateAfter (self.addNode sha256 node)
  | .removeNode nodeId, self => stateAfter (self.removeNode sha256 nodeId)

end Call

/-- The ring after a sequence of calls, each made on what the previous one left. -/
def run (sha256 : List UInt8 → Nat) (calls : List Call) (self : ConsistentHashRing) :
    ConsistentHashRing :=
  calls.foldl (fun self call => call.apply sha256 self) self

theorem run_append (sha256 : List UInt8 → Nat) (calls more : List Call)
    (self : ConsistentHashRing) :
    run sha256 (calls ++ more) self = run sha256 more (run sha256 calls self) :=
  List.foldl_append _ _ _ _

end ConsistentHashLab
