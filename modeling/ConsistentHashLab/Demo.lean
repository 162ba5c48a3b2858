import ConsistentHashLab.AnyRun
import ConsistentHashLab.Exceptions
import ConsistentHashLab.Rebalance

/-! # The demo's interactive mode

`demo.py`'s `interactive_mode(ring, test_keys)` reads commands in a `while True` loop.
`add <node_id>` and `remove <node_id>` call the ring behind a guard on `ring.nodes` and
print how many test keys moved; `status` prints the distribution and how many keys moved
since the loop started; `quit` leaves, and at the end of the input `typer.prompt` raises
click's `Abort`. An exception ends the demo with a traceback. The model reads each command
as `typer.prompt(...).strip().lower()` returns it, and keeps of each printed line the data
it is formatted from: the two-decimal percentages and the table columns other than the node
ids are left out.

`console.print` parses what it prints as Rich markup and raises `MarkupError` on markup it
rejects. The program's own markup is well formed, but a node id put into a line, or into a
cell of the distribution table, can break it. Rich's parser is the parameter `markupOk`,
as `hashlib.sha256` is, so every result holds whatever it accepts.

Every pass leaves the ring as the call its command asks for would, or as it was when an
exception came first, so a session is a `run` of the calls asked for. The guards make
`add_node`'s duplicate-id `ValueError` and the "Failed to remove" branch unreachable; with
no test keys the percentage divides by zero.
-/

namespace ConsistentHashLab

namespace PyStr

/-- `str.isspace()` on one character: the separators of `str.split()`. -/
def isSpace (c : Char) : Bool :=
  (0x09 ≤ c.toNat && c.toNat ≤ 0x0D) || (0x1C ≤ c.toNat && c.toNat ≤ 0x20) ||
    c.toNat == 0x85 || c.toNat == 0xA0 || c.toNat == 0x1680 ||
    (0x2000 ≤ c.toNat && c.toNat ≤ 0x200A) || c.toNat == 0x2028 || c.toNat == 0x2029 ||
    c.toNat == 0x202F || c.toNat == 0x205F || c.toNat == 0x3000

/-- The loop of `str.split()`; `word` holds the run of non-space characters read so far. -/
def split.loop : List Char → List Char → List String
  | [], word => if word = [] then [] else [⟨word⟩]
  | c :: rest, word =>
      if isSpace c then (if word = [] then [] else [⟨word⟩]) ++ split.loop rest []
      else split.loop rest (word ++ [c])

/-- `s.split()`: the maximal runs of non-space characters. -/
def split (s : String) : List String := split.loop s.data []

/-- `s.startswith(pre)`. -/
def startswith (s pre : String) : Bool := pre.data.isPrefixOf s.data

/-- Each word `str.split()` returns is nonempty and holds no space. -/
theorem split_loop_words :
    ∀ (cs word : List Char), (∀ c ∈ word, isSpace c = false) →
      ∀ w ∈ split.loop cs word, w.data ≠ [] ∧ ∀ c ∈ w.data, isSpace c = false
  | [], word, hw, w, hmem => by
      simp only [split.loop] at hmem
      split_ifs at hmem with h
      · exact absurd hmem (List.not_mem_nil w)
      · rw [List.mem_singleton.1 hmem]
        exact ⟨h, hw⟩
  | c :: rest, word, hw, w, hmem => by
      have hnil : ∀ c ∈ ([] : List Char), isSpace c = false :=
        fun _ h => absurd h (List.not_mem_nil _)
      simp only [split.loop] at hmem
      split_ifs at hmem with hc h
      · exact split_loop_words rest [] hnil w (by simpa using hmem)
      · rcases List.mem_append.1 hmem with hmem | hmem
        · rw [List.mem_singleton.1 hmem]
          exact ⟨h, hw⟩
        · exact split_loop_words rest [] hnil w hmem
      · refine split_loop_words rest (word ++ [c]) (fun c' hc' => ?_) w hmem
        rcases List.mem_append.1 hc' with hc' | hc'
        · exact hw c' hc'
        · rw [List.mem_singleton.1 hc']
          simpa using hc

/-- A run of non-space characters continues the word read so far. -/
theorem split_loop_of_no_space :
    ∀ (cs word : List Char), (∀ c ∈ cs, isSpace c = false) →
      split.loop cs word = if word ++ cs = [] then [] else [⟨word ++ cs⟩]
  | [], word, _ => by simp [split.loop]
  | c :: rest, word, h => by
      rw [List.forall_mem_cons] at h
      rw [split.loop, if_neg (by simp [h.1]), split_loop_of_no_space rest _ h.2]
      simp

/-- A space ends the word read so far. -/
theorem split_loop_space {c : Char} (hc : isSpace c = true) (rest word : List Char) :
    split.loop (c :: rest) word =
      (if word = [] then [] else [⟨word⟩]) ++ split.loop rest [] := by
  rw [split.loop, if_pos hc]

/-- A space between a run of non-space characters and the rest ends the run as one word. -/
theorem split_loop_append {sp : Char} (hsp : isSpace sp = true) (rest : List Char) :
    ∀ (cs word : List Char), (∀ c ∈ cs, isSpace c = false) →
      split.loop (cs ++ sp :: rest) word =
        (if word ++ cs = [] then [] else [⟨word ++ cs⟩]) ++ split.loop rest []
  | [], word, _ => by rw [List.nil_append, List.append_nil, split_loop_space hsp]
  | c :: cs, word, h => by
      rw [List.forall_mem_cons] at h
      rw [List.cons_append, split.loop, if_neg (by simp [h.1]),
        split_loop_append hsp rest cs _ h.2]
      simp

/-- Two words with one space between them split into the two words. -/
theorem split_two_words (w₁ w₂ : String) (h₁ : w₁ ≠ "") (h₂ : w₂ ≠ "")
    (hs₁ : ∀ c ∈ w₁.data, isSpace c = false)
    (hs₂ : ∀ c ∈ w₂.data, isSpace c = false) :
    split (w₁ ++ " " ++ w₂) = [w₁, w₂] := by
  have hd : ∀ w : String, w ≠ "" → w.data ≠ [] := fun w hw h => hw (String.ext h)
  rw [split, show (w₁ ++ " " ++ w₂).data = w₁.data ++ ' ' :: w₂.data by simp,
    split_loop_append (show isSpace ' ' = true from rfl) _ _ _ hs₁,
    split_loop_of_no_space _ _ hs₂]
  simp only [List.nil_append, if_neg (hd w₁ h₁), if_neg (hd w₂ h₂), List.singleton_append]

/-- Two strings that start with different characters differ. -/
theorem ne_of_head? {s : String} (t : String) {a b : Char} (hs : s.data.head? = some a)
    (ht : t.data.head? = some b) (hab : a ≠ b) : s ≠ t :=
  fun h => hab (Option.some.inj (hs.symm.trans (h ▸ ht)))

/-- `s.strip()`: `s` without its leading and trailing whitespace. -/
def strip (s : String) : String :=
  ⟨((s.data.dropWhile isSpace).reverse.dropWhile isSpace).reverse⟩

/-- `s.lower()` on ASCII characters: `A` to `Z` become `a` to `z`. -/
def lowerAscii (s : String) : String := ⟨s.data.map Char.toLower⟩

/-- `s.lower()` on a string of ASCII characters; Python's case mapping of the other
characters is not modelled (`none`). -/
def lower? (s : String) : Option String :=
  if s.data.all (·.toNat < 128) then some (lowerAscii s) else none

/-- A list that starts with a non-space character is kept by `dropWhile isSpace`. -/
theorem dropWhile_of_head? {l : List Char} {c : Char} (hl : l.head? = some c)
    (hc : isSpace c = false) : l.dropWhile isSpace = l := by
  cases l with
  | nil => cases hl
  | cons d l =>
      obtain rfl := Option.some.inj hl
      exact List.dropWhile_cons_of_neg (by rw [hc]; decide)

/-- A string that starts and ends with a non-space character is its own `strip()`. -/
theorem strip_of_ends {s : String} {a z : Char} (ha : s.data.head? = some a)
    (hz : s.data.getLast? = some z) (hsa : isSpace a = false) (hsz : isSpace z = false) :
    strip s = s := by
  rw [strip, dropWhile_of_head? ha hsa,
    dropWhile_of_head? (by rw [List.head?_reverse]; exact hz) hsz, List.reverse_reverse]

/-- `lower()` makes no space of a non-space character, nor the other way. -/
theorem isSpace_toLower (c : Char) : isSpace c.toLower = isSpace c := by
  by_cases h : 65 ≤ c.toNat ∧ c.toNat ≤ 90
  · have hk : ∀ k < 26,
        isSpace (Char.ofNat (65 + k)).toLower = isSpace (Char.ofNat (65 + k)) := by
      decide
    have := hk (c.toNat - 65) (by omega)
    rwa [show 65 + (c.toNat - 65) = c.toNat by omega, Char.ofNat_toNat] at this
  · simp only [Char.toLower, ge_iff_le, h, if_false]

theorem lower?_of_ascii {s : String} (h : ∀ c ∈ s.data, c.toNat < 128) :
    lower? s = some (lowerAscii s) :=
  if_pos (List.all_eq_true.2 fun c hc => decide_eq_true (h c hc))

theorem lowerAscii_append (s t : String) : lowerAscii (s ++ t) = lowerAscii s ++ lowerAscii t :=
  String.ext (by simp [lowerAscii])

end PyStr

namespace Demo

open ConsistentHashRing

/-- The exception that ends the demo with a traceback. -/
inductive Crash where
  /-- An exception raised by a method of the ring. -/
  | raised (e : PyError)
  /-- The `ZeroDivisionError` of `len(moved_keys) / len(test_keys)`. -/
  | zeroDivisionError (message : String)
  /-- Rich's `MarkupError` for markup `console.print` cannot parse; its message, which
  names the offending tag, is Rich's. -/
  | markupError
  deriving DecidableEq, Repr

/-- A line the loop prints, as the data it is formatted from. -/
inductive Reply where
  /-- `show_key_distribution(current_distribution, "Current Distribution")`: a table row
  for each node id of the distribution, or "No keys distributed" when it has none. -/
  | distribution (entries : List (String × List String))
  /-- `status`: "Movement: {moved} keys moved ({percentage}%)", the percentage being
  `moved / total * 100`. -/
  | movement (moved total : Nat)
  /-- "Usage: add <node_id>" or "Usage: remove <node_id>". -/
  | usage (text : String)
  /-- "Node {node_id} already exists". -/
  | alreadyExists (nodeId : String)
  /-- "✓ Added node {node_id}". -/
  | added (nodeId : String)
  /-- "Node {node_id} not found". -/
  | notFound (nodeId : String)
  /-- "✓ Removed node {node_id}". -/
  | removed (nodeId : String)
  /-- "Failed to remove node {node_id}". -/
  | failedToRemove (nodeId : String)
  /-- After an `add` or a `remove`: "Impact: {moved} keys moved ({percentage}%)". -/
  | impact (moved total : Nat)
  /-- "Unknown command. Use: add <node_id>, remove <node_id>, status, quit". -/
  | unknownCommand
  deriving DecidableEq, Repr

/-- The markup Rich parses that holds a node id: the f-string of a line about one node, or
the node id cells of the table. The other lines hold only the program's own markup. -/
def Reply.markups : Reply → List String
  | .distribution entries => entries.map (·.1)
  | .alreadyExists nodeId => ["[red]Node " ++ nodeId ++ " already exists[/red]"]
  | .added nodeId => ["[green]✓ Added node " ++ nodeId ++ "[/green]"]
  | .notFound nodeId => ["[red]Node " ++ nodeId ++ " not found[/red]"]
  | .removed nodeId => ["[green]✓ Removed node " ++ nodeId ++ "[/green]"]
  | .failedToRemove nodeId => ["[red]Failed to remove node " ++ nodeId ++ "[/red]"]
  | _ => []

/-- A command line, told apart as the `if`/`elif` chain of the loop does. -/
inductive Command where
  /-- "quit" or "q". -/
  | quit
  /-- "status" or "s". -/
  | status
  /-- A line starting with "add ", as its words. -/
  | add (parts : List String)
  /-- A line starting with "remove ", as its words. -/
  | remove (parts : List String)
  /-- Anything else. -/
  | unknown
  deriving DecidableEq, Repr

namespace Command

/-- The branch of the loop a command takes. -/
def parse (command : String) : Command :=
  if command = "quit" ∨ command = "q" then .quit
  else if command = "status" ∨ command = "s" then .status
  else if PyStr.startswith command "add " then .add (PyStr.split command)
  else if PyStr.startswith command "remove " then .remove (PyStr.split command)
  else .unknown

/-- `parts[1]` once `len(parts) != 2` has been ruled out. -/
def nodeIdOf? : List String → Option String
  | [_, nodeId] => some nodeId
  | _ => none

/-- The call of the ring a command asks for: `add_node(Node(node_id, replicas=1))` or
`remove_node(node_id)` on a line of two words. -/
def call? : Command → Option Call
  | .add parts => (nodeIdOf? parts).map fun nodeId => .addNode ⟨nodeId, 1⟩
  | .remove parts => (nodeIdOf? parts).map .removeNode
  | _ => none

end Command

/-- How the loop stops. -/
inductive Stop where
  /-- `break` on `quit`. -/
  | quit
  /-- An exception. -/
  | crash (c : Crash)
  /-- The end of the input, after every command has run: `typer.prompt` raises click's
  `Abort`, which click reports as "Aborted!" with exit status 1. -/
  | aborted
  deriving DecidableEq, Repr

/-- One pass of the loop: the lines it printed, whether the loop stops, and the ring. -/
structure Pass where
  printed : List Reply
  stop : Option Stop
  ring : ConsistentHashRing

/-- A pass that prints `lines` in turn, stopping at the first exception. -/
def Pass.finish : List (Except Crash Reply) → ConsistentHashRing → Pass
  | [], self => ⟨[], none, self⟩
  | .ok line :: lines, self =>
      let p := Pass.finish lines self
      ⟨line :: p.printed, p.stop, p.ring⟩
  | .error c :: _, self => ⟨[], some (.crash c), self⟩

/-- What a session printed, how it stopped, and the ring it left. -/
structure Transcript where
  printed : List Reply
  stop : Stop
  ring : ConsistentHashRing

section Loop

variable (sha256 : List UInt8 → Nat) (markupOk : String → Bool) (testKeys : List String)

/-- `console.print` of a line, which raises if Rich rejects markup with a node id in it. -/
def say (line : Reply) : Except Crash Reply :=
  if line.markups.all markupOk then .ok line else .error .markupError

/-- `movement_percentage = (len(moved_keys) / len(test_keys)) * 100`, then the line that
prints it; true division by zero raises. -/
def movementLine (line : Nat → Nat → Reply) (movedKeys : List String) : Except Crash Reply :=
  if testKeys.length = 0 then .error (.zeroDivisionError "division by zero")
  else .ok (line movedKeys.length testKeys.length)

/-- The end of an `add` or `remove` that went through: `get_key_distribution` after it,
`get_moved_keys`, and the impact line. -/
def impactLine (before : PyDict String (List String)) (self : ConsistentHashRing) :
    Except Crash Reply :=
  match self.getKeyDistribution sha256 testKeys with
  | .error e => .error (.raised e)
  | .ok after => movementLine testKeys .impact (getMovedKeys before after)

/-- The `status` branch: the distribution now, and the keys moved since `original`. -/
def status (original : PyDict String (List String)) (self : ConsistentHashRing) : Pass :=
  match self.getKeyDistribution sha256 testKeys with
  | .error e => ⟨[], some (.crash (.raised e)), self⟩
  | .ok current =>
      .finish [say markupOk (.distribution current.entries),
        movementLine testKeys .movement (getMovedKeys original current)] self

/-- The `add` branch on a line of two words. -/
def add (nodeId : String) (self : ConsistentHashRing) : Pass :=
  if nodeId ∈ self.nodes.keys then .finish [say markupOk (.alreadyExists nodeId)] self
  else
    match self.getKeyDistribution sha256 testKeys with
    | .error e => ⟨[], some (.crash (.raised e)), self⟩
    | .ok before =>
        match self.addNode sha256 ⟨nodeId, 1⟩ with
        | .error e self => ⟨[], some (.crash (.raised e)), self⟩
        | .ok () self =>
            .finish [say markupOk (.added nodeId), impactLine sha256 testKeys before self] self

/-- The `remove` branch on a line of two words. -/
def remove (nodeId : String) (self : ConsistentHashRing) : Pass :=
  if nodeId ∉ self.nodes.keys then .finish [say markupOk (.notFound nodeId)] self
  else
    match self.getKeyDistribution sha256 testKeys with
    | .error e => ⟨[], some (.crash (.raised e)), self⟩
    | .ok before =>
        match self.removeNode sha256 nodeId with
        | .error e self => ⟨[], some (.crash (.raised e)), self⟩
        | .ok (some _) self =>
            .finish [say markupOk (.removed nodeId), impactLine sha256 testKeys before self] self
        | .ok none self => .finish [say markupOk (.failedToRemove nodeId)] self

/-- One pass of the loop on `command`, `original` being the distribution taken when the
loop started. -/
def step (original : PyDict String (List String)) (command : String)
    (self : ConsistentHashRing) : Pass :=
  match Command.parse command with
  | .quit => ⟨[], some .quit, self⟩
  | .status => status sha256 markupOk testKeys original self
  | .add parts =>
      match Command.nodeIdOf? parts with
      | some nodeId => add sha256 markupOk testKeys nodeId self
      | none => .finish [say markupOk (.usage "Usage: add <node_id>")] self
  | .remove parts =>
      match Command.nodeIdOf? parts with
      | some nodeId => remove sha256 markupOk testKeys nodeId self
      | none => .finish [say markupOk (.usage "Usage: remove <node_id>")] self
  | .unknown => .finish [say markupOk .unknownCommand] self

/-- The `while True` loop over the commands typed, one pass each, until it stops. -/
def session (original : PyDict String (List String)) :
    List String → ConsistentHashRing → Transcript
  | [], self => ⟨[], .aborted, self⟩
  | command :: rest, self =>
      let pass := step sha256 markupOk testKeys original command self
      match pass.stop with
      | some stop => ⟨pass.printed, stop, pass.ring⟩
      | none =>
          let t := session original rest pass.ring
          ⟨pass.printed ++ t.printed, t.stop, t.ring⟩

end Loop

/-- `interactive_mode(ring, test_keys)` given the commands typed. -/
def interactiveMode (sha256 : List UInt8 → Nat) (markupOk : String → Bool)
    (self : ConsistentHashRing) (testKeys commands : List String) : Transcript :=
  match self.getKeyDistribution sha256 testKeys with
  | .error e => ⟨[], .crash (.raised e), self⟩
  | .ok original => session sha256 markupOk testKeys original commands self

/-- The calls of the ring that the commands ask for, up to the first `quit`. -/
def requestedCalls : List String → List Call
  | [] => []
  | command :: rest =>
      if Command.parse command = .quit then []
      else (Command.parse command).call?.toList ++ requestedCalls rest

/-- The exceptions the loop can end with on a ring whose hash function is
`hashFunction`: a ring method's `ValueError` for an unsupported hash function or
`TypeError` of a tie, the `ZeroDivisionError` of the percentage, or a `MarkupError` when
Rich rejects markup that holds a node id. -/
def CanRaise (markupOk : String → Bool) (hashFunction : String) (c : Crash) : Prop :=
  c = .raised (.valueError ("Unsupported hash function: " ++ hashFunction)) ∨
    c = .raised nodeTieError ∨ c = .raised noneTieError ∨
    c = .zeroDivisionError "division by zero" ∨
    c = .markupError ∧ ∃ line : Reply, ∃ text ∈ line.markups, markupOk text = false

/-- How many distinct keys of `keys` have another owner on `s₂` than on `s₁`. -/
def movedCount (sha256 : List UInt8 → Nat) (keys : List String) (s₁ s₂ : ConsistentHashRing) :
    Nat :=
  (keys.dedup.filter fun key => s₁.ownerId sha256 key ≠ s₂.ownerId sha256 key).length

section Methods

variable {sha256 : List UInt8 → Nat} {markupOk : String → Bool} {s s' : ConsistentHashRing}
  {e : PyError}

theorem getKeyDistribution_canRaise {keys : List String}
    (h : s.getKeyDistribution sha256 keys = .error e) :
    CanRaise markupOk s.hashFunction (.raised e) := by
  obtain ⟨key, -, hk⟩ := getKeyDistribution_loop_error keys .empty h
  rcases getNodeForKey_error_cases hk with rfl | rfl
  · exact .inl rfl
  · exact .inr (.inr (.inl rfl))

theorem addNode_canRaise {node : Node} (hid : node.nodeId ∉ s.nodes.keys)
    (h : s.addNode sha256 node = .error e s') : CanRaise markupOk s.hashFunction (.raised e) := by
  rw [addNode_fresh hid] at h
  split at h
  · exact .inr (.inl (congrArg _ (addNode_loop_error h)))
  · cases h
    exact .inl (congrArg _ (getHashValues_error ‹_›))

theorem removeNode_canRaise {nodeId : String} (h : s.removeNode sha256 nodeId = .error e s') :
    CanRaise markupOk s.hashFunction (.raised e) := by
  unfold removeNode at h
  split at h
  · cases h
  · split at h
    · cases h
      exact .inl (congrArg _ (getHashValues_error ‹_›))
    · cases h

/-- `remove_node` of a registered id returns the node or raises. -/
theorem removeNode_ne_none {nodeId : String} (h : nodeId ∈ s.nodes.keys) :
    s.removeNode sha256 nodeId ≠ .ok none s' := by
  obtain ⟨n, hn⟩ := Option.ne_none_iff_exists'.1 (mt PyDict.get?_eq_none.1 (not_not.2 h))
  simp only [removeNode, hn]
  split <;> simp

theorem isDistribution_of_ok {keys : List String} {D : PyDict String (List String)}
    (h : s.getKeyDistribution sha256 keys = .ok D) : IsDistribution sha256 s keys D := by
  obtain ⟨D', hD', hdist⟩ :=
    getKeyDistribution_isDistribution ((getKeyDistribution_loop_ok_iff keys .empty).1 ⟨D, h⟩)
  rw [h] at hD'
  cases hD'
  exact hdist

/-- `len(get_moved_keys(...))` between two distributions counts the distinct keys whose
owner changed. -/
theorem length_getMovedKeys {keys : List String} {D₁ D₂ : PyDict String (List String)}
    (h₁ : IsDistribution sha256 s keys D₁) (h₂ : IsDistribution sha256 s' keys D₂) :
    (getMovedKeys D₁ D₂).length = movedCount sha256 keys s s' := by
  refine List.Perm.length_eq ((List.perm_ext_iff_of_nodup ?_ ?_).2 fun key => ?_)
  · exact (List.nodup_dedup _).filter _
  · exact (List.nodup_dedup _).filter _
  · rw [h₁.mem_getMovedKeys h₂, List.mem_filter, List.mem_dedup, decide_eq_true_iff]

end Methods

section Lines

variable {sha256 : List UInt8 → Nat} {markupOk : String → Bool} {testKeys : List String}
  {line : Nat → Nat → Reply} {movedKeys : List String} {before : PyDict String (List String)}
  {s : ConsistentHashRing} {c : Crash} {r r' : Reply}

theorem say_ok (h : say markupOk r = .ok r') : r' = r := by
  unfold say at h
  split_ifs at h
  cases h
  rfl

theorem say_error {hashFunction : String} (h : say markupOk r = .error c) :
    CanRaise markupOk hashFunction c := by
  unfold say at h
  split_ifs at h with hall
  cases h
  obtain ⟨text, hmem, hf⟩ : ∃ text ∈ r.markups, markupOk text = false := by simpa using hall
  exact .inr (.inr (.inr (.inr ⟨rfl, r, text, hmem, hf⟩)))

theorem movementLine_error (h : movementLine testKeys line movedKeys = .error c) :
    testKeys = [] ∧ c = .zeroDivisionError "division by zero" := by
  unfold movementLine at h
  split_ifs at h with h0
  cases h
  exact ⟨List.length_eq_zero.1 h0, rfl⟩

theorem movementLine_ok (h : movementLine testKeys line movedKeys = .ok r) :
    testKeys ≠ [] ∧ r = line movedKeys.length testKeys.length := by
  unfold movementLine at h
  split_ifs at h with h0
  cases h
  exact ⟨fun h => h0 (h ▸ rfl), rfl⟩

theorem impactLine_error (h : impactLine sha256 testKeys before s = .error c) :
    CanRaise markupOk s.hashFunction c := by
  unfold impactLine at h
  split at h
  · cases h
    exact getKeyDistribution_canRaise ‹_›
  · exact (movementLine_error h).2 ▸ .inr (.inr (.inr (.inl rfl)))

theorem impactLine_ok (h : impactLine sha256 testKeys before s = .ok r) :
    testKeys ≠ [] ∧ ∃ after, s.getKeyDistribution sha256 testKeys = .ok after ∧
      r = .impact (getMovedKeys before after).length testKeys.length := by
  unfold impactLine at h
  split at h
  · cases h
  · exact ⟨(movementLine_ok h).1, _, ‹_›, (movementLine_ok h).2⟩

variable {lines : List (Except Crash Reply)}

@[simp] theorem finish_ring (lines : List (Except Crash Reply)) (s : ConsistentHashRing) :
    (Pass.finish lines s).ring = s := by
  induction lines with
  | nil => rfl
  | cons res lines ih =>
      cases res with
      | ok r => exact ih
      | error c => rfl

theorem mem_finish (h : r ∈ (Pass.finish lines s).printed) : .ok r ∈ lines := by
  induction lines with
  | nil => exact absurd h (List.not_mem_nil _)
  | cons res lines ih =>
      cases res with
      | ok r' =>
          rcases List.mem_cons.1 h with rfl | h
          · exact List.mem_cons_self _ _
          · exact List.mem_cons_of_mem _ (ih h)
      | error c => exact absurd h (List.not_mem_nil _)

theorem finish_stop {stop : Stop} (h : (Pass.finish lines s).stop = some stop) :
    ∃ c, stop = .crash c ∧ .error c ∈ lines := by
  induction lines with
  | nil => cases h
  | cons res lines ih =>
      cases res with
      | ok r =>
          obtain ⟨c, hc, hm⟩ := ih h
          exact ⟨c, hc, List.mem_cons_of_mem _ hm⟩
      | error c =>
          cases h
          exact ⟨c, rfl, List.mem_cons_self _ _⟩

end Lines

/-- What a pass keeps, for the ring `start` it starts from, the calls `calls` its command
asks for, and the ring `origin` whose distribution the loop took when it started. -/
structure Pass.Sound (sha256 : List UInt8 → Nat) (markupOk : String → Bool)
    (testKeys : List String) (origin start : ConsistentHashRing) (calls : List Call)
    (p : Pass) : Prop where
  /-- The ring the calls leave, or the ring as it was when an exception came first. -/
  ring : p.ring = run sha256 calls start ∨ p.ring = start ∧ ∃ c, p.stop = some (.crash c)
  /-- A pass stops only on an exception the loop can raise. -/
  stop : ∀ stop, p.stop = some stop →
    ∃ c, stop = .crash c ∧ CanRaise markupOk start.hashFunction c
  /-- "Failed to remove node" is never printed. -/
  not_failed : ∀ nodeId, .failedToRemove nodeId ∉ p.printed
  /-- A movement line counts the keys moved since the loop started, out of all test keys. -/
  movement : ∀ m n, .movement m n ∈ p.printed →
    testKeys ≠ [] ∧ n = testKeys.length ∧ m = movedCount sha256 testKeys origin start
  /-- An impact line counts the keys the command's one call moved. -/
  impact : ∀ m n, .impact m n ∈ p.printed →
    testKeys ≠ [] ∧ n = testKeys.length ∧ ∃ call, calls = [call] ∧
      p.ring = run sha256 [call] start ∧ m = movedCount sha256 testKeys start p.ring

namespace Pass.Sound

variable {sha256 : List UInt8 → Nat} {markupOk : String → Bool} {testKeys : List String}
  {origin self self' : ConsistentHashRing} {calls : List Call}

/-- A pass that raises before printing, in or before its call. -/
theorem of_crash {c : Crash} (hring : self' = run sha256 calls self ∨ self' = self)
    (hc : CanRaise markupOk self.hashFunction c) :
    Sound sha256 markupOk testKeys origin self calls ⟨[], some (.crash c), self'⟩ :=
  ⟨hring.imp id fun h => ⟨h, c, rfl⟩, fun _ h => ⟨c, (Option.some.inj h).symm, hc⟩,
    fun _ h => List.not_mem_nil _ h, fun _ _ h => absurd h (List.not_mem_nil _),
    fun _ _ h => absurd h (List.not_mem_nil _)⟩

/-- A pass that has made its calls and prints `lines` in turn. -/
theorem of_finish {lines : List (Except Crash Reply)} (hring : self' = run sha256 calls self)
    (herr : ∀ c, .error c ∈ lines → CanRaise markupOk self'.hashFunction c)
    (hok : ∀ r, .ok r ∈ lines → (∀ nodeId, r ≠ .failedToRemove nodeId) ∧
      (∀ m n, r = .movement m n → testKeys ≠ [] ∧ n = testKeys.length ∧
        m = movedCount sha256 testKeys origin self) ∧
      (∀ m n, r = .impact m n → testKeys ≠ [] ∧ n = testKeys.length ∧
        ∃ call, calls = [call] ∧ m = movedCount sha256 testKeys self self')) :
    Sound sha256 markupOk testKeys origin self calls (Pass.finish lines self') := by
  have hfun : self'.hashFunction = self.hashFunction := hring ▸ run_hashFunction sha256 calls self
  refine ⟨.inl (by rw [finish_ring, hring]), fun stop h => ?_,
    fun nodeId h => (hok _ (mem_finish h)).1 nodeId rfl,
    fun m n h => (hok _ (mem_finish h)).2.1 m n rfl, fun m n h => ?_⟩
  · obtain ⟨c, rfl, hc⟩ := finish_stop h
    exact ⟨c, rfl, hfun ▸ herr c hc⟩
  · obtain ⟨hk, hn, call, rfl, hm⟩ := (hok _ (mem_finish h)).2.2 m n rfl
    rw [finish_ring]
    exact ⟨hk, hn, call, rfl, hring, hm⟩

/-- A pass that prints one line without a count and leaves the ring as its calls would. -/
theorem of_say (r : Reply) (hrun : run sha256 calls self = self)
    (hf : ∀ nodeId, r ≠ .failedToRemove nodeId)
    (hm : ∀ m n, r ≠ .movement m n ∧ r ≠ .impact m n) :
    Sound sha256 markupOk testKeys origin self calls (Pass.finish [say markupOk r] self) :=
  .of_finish hrun.symm (fun _ hc => say_error (List.mem_singleton.1 hc).symm) fun r' hr => by
    obtain rfl := say_ok (List.mem_singleton.1 hr).symm
    exact ⟨hf, fun m n h => absurd h (hm m n).1, fun m n h => absurd h (hm m n).2⟩

end Pass.Sound

section Passes

variable {sha256 : List UInt8 → Nat} {markupOk : String → Bool} {testKeys : List String}

/-- Everything the `status` branch can do. -/
theorem status_cases (original : PyDict String (List String)) (self : ConsistentHashRing) :
    (∃ e, self.getKeyDistribution sha256 testKeys = .error e ∧
        status sha256 markupOk testKeys original self = ⟨[], some (.crash (.raised e)), self⟩) ∨
      ∃ current, self.getKeyDistribution sha256 testKeys = .ok current ∧
        status sha256 markupOk testKeys original self =
          .finish [say markupOk (.distribution current.entries),
            movementLine testKeys .movement (getMovedKeys original current)] self := by
  cases hd : self.getKeyDistribution sha256 testKeys with
  | error e => exact .inl ⟨e, rfl, by simp only [status, hd]⟩
  | ok current => exact .inr ⟨current, rfl, by simp only [status, hd]⟩

/-- Everything the `add` branch can do. -/
theorem add_cases (nodeId : String) (self : ConsistentHashRing) :
    (nodeId ∈ self.nodes.keys ∧ add sha256 markupOk testKeys nodeId self =
        .finish [say markupOk (.alreadyExists nodeId)] self) ∨
      (∃ e, self.getKeyDistribution sha256 testKeys = .error e ∧
        add sha256 markupOk testKeys nodeId self = ⟨[], some (.crash (.raised e)), self⟩) ∨
      (nodeId ∉ self.nodes.keys ∧ ∃ e s',
        self.addNode sha256 ⟨nodeId, 1⟩ = .error e s' ∧
        add sha256 markupOk testKeys nodeId self = ⟨[], some (.crash (.raised e)), s'⟩) ∨
      ∃ before s', self.getKeyDistribution sha256 testKeys = .ok before ∧
        self.addNode sha256 ⟨nodeId, 1⟩ = .ok () s' ∧
        add sha256 markupOk testKeys nodeId self =
          .finish [say markupOk (.added nodeId), impactLine sha256 testKeys before s'] s' := by
  by_cases hid : nodeId ∈ self.nodes.keys
  · exact .inl ⟨hid, if_pos hid⟩
  cases hd : self.getKeyDistribution sha256 testKeys with
  | error e => exact .inr (.inl ⟨e, rfl, by simp only [add, hid, hd, if_false]⟩)
  | ok before =>
      cases ha : self.addNode sha256 ⟨nodeId, 1⟩ with
      | error e s' =>
          exact .inr (.inr (.inl ⟨hid, e, s', rfl, by simp only [add, hid, hd, ha, if_false]⟩))
      | ok u s' =>
          exact .inr (.inr (.inr ⟨before, s', rfl, rfl,
            by simp only [add, hid, hd, ha, if_false]⟩))

/-- Everything the `remove` branch can do: behind the guard, `remove_node` returns the
node or raises, so "Failed to remove node" is never printed. -/
theorem remove_cases (nodeId : String) (self : ConsistentHashRing) :
    (nodeId ∉ self.nodes.keys ∧ remove sha256 markupOk testKeys nodeId self =
        .finish [say markupOk (.notFound nodeId)] self) ∨
      (∃ e, self.getKeyDistribution sha256 testKeys = .error e ∧
        remove sha256 markupOk testKeys nodeId self = ⟨[], some (.crash (.raised e)), self⟩) ∨
      (∃ e s', self.removeNode sha256 nodeId = .error e s' ∧
        remove sha256 markupOk testKeys nodeId self = ⟨[], some (.crash (.raised e)), s'⟩) ∨
      ∃ before n s', self.getKeyDistribution sha256 testKeys = .ok before ∧
        self.removeNode sha256 nodeId = .ok (some n) s' ∧
        remove sha256 markupOk testKeys nodeId self =
          .finish [say markupOk (.removed nodeId), impactLine sha256 testKeys before s'] s' := by
  by_cases hid : nodeId ∈ self.nodes.keys
  swap
  · exact .inl ⟨hid, if_pos hid⟩
  have hg : ¬nodeId ∉ self.nodes.keys := not_not.2 hid
  cases hd : self.getKeyDistribution sha256 testKeys with
  | error e => exact .inr (.inl ⟨e, rfl, by simp only [remove, hg, hd, if_false]⟩)
  | ok before =>
      cases hr : self.removeNode sha256 nodeId with
      | error e s' =>
          exact .inr (.inr (.inl ⟨e, s', rfl, by simp only [remove, hg, hd, hr, if_false]⟩))
      | ok n s' =>
          cases n with
          | none => exact absurd hr (removeNode_ne_none hid)
          | some n =>
              exact .inr (.inr (.inr ⟨before, n, s', rfl, rfl,
                by simp only [remove, hg, hd, hr, if_false]⟩))

variable {origin : ConsistentHashRing} {original : PyDict String (List String)}

theorem status_sound (h₀ : origin.getKeyDistribution sha256 testKeys = .ok original)
    (self : ConsistentHashRing) :
    Pass.Sound sha256 markupOk testKeys origin self [] (status sha256 markupOk testKeys original self) := by
  rcases status_cases original self with ⟨e, he, h⟩ | ⟨current, hc, h⟩ <;> rw [h]
  · exact .of_crash (.inr rfl) (getKeyDistribution_canRaise he)
  refine .of_finish rfl (fun c hc' => ?_) fun r hr => ?_
  · rcases List.mem_pair.1 hc' with hc' | hc'
    · exact say_error hc'.symm
    · exact (movementLine_error hc'.symm).2 ▸ .inr (.inr (.inr (.inl rfl)))
  · rcases List.mem_pair.1 hr with hr | hr
    · obtain rfl := say_ok hr.symm
      exact ⟨fun _ => nofun, fun _ _ => nofun, fun _ _ => nofun⟩
    · obtain ⟨hk, rfl⟩ := movementLine_ok hr.symm
      refine ⟨fun _ => nofun, fun m n h => ?_, fun _ _ => nofun⟩
      cases h
      exact ⟨hk, rfl, length_getMovedKeys (isDistribution_of_ok h₀) (isDistribution_of_ok hc)⟩

/-- The two lines after a call that went through: its own line, then the impact line. -/
theorem of_call {self s' : ConsistentHashRing} {call : Call} {before : PyDict String (List String)}
    (hb : self.getKeyDistribution sha256 testKeys = .ok before) (r : Reply)
    (hrun : s' = run sha256 [call] self) (hf : ∀ nodeId, r ≠ .failedToRemove nodeId)
    (hm : ∀ m n, r ≠ .movement m n ∧ r ≠ .impact m n) :
    Pass.Sound sha256 markupOk testKeys origin self [call]
      (.finish [say markupOk r, impactLine sha256 testKeys before s'] s') := by
  refine .of_finish hrun (fun c hc => ?_) fun r' hr => ?_
  · rcases List.mem_pair.1 hc with hc | hc
    · exact say_error hc.symm
    · exact impactLine_error hc.symm
  · rcases List.mem_pair.1 hr with hr | hr
    · obtain rfl := say_ok hr.symm
      exact ⟨hf, fun m n h => absurd h (hm m n).1, fun m n h => absurd h (hm m n).2⟩
    · obtain ⟨hk, after, ha, rfl⟩ := impactLine_ok hr.symm
      refine ⟨fun _ => nofun, fun _ _ => nofun, fun m n h => ?_⟩
      cases h
      exact ⟨hk, rfl, call, rfl,
        length_getMovedKeys (isDistribution_of_ok hb) (isDistribution_of_ok ha)⟩

theorem add_sound (nodeId : String) (self : ConsistentHashRing) :
    Pass.Sound sha256 markupOk testKeys origin self [.addNode ⟨nodeId, 1⟩]
      (add sha256 markupOk testKeys nodeId self) := by
  have hcall : ∀ r, self.addNode sha256 ⟨nodeId, 1⟩ = r →
      stateAfter r = run sha256 [.addNode ⟨nodeId, 1⟩] self := fun r h => by
    rw [← h]
    rfl
  rcases add_cases nodeId self with ⟨hid, h⟩ | ⟨e, he, h⟩ | ⟨hid, e, s', ha, h⟩ |
    ⟨before, s', hb, ha, h⟩ <;> rw [h]
  · refine .of_say _ ?_ (fun _ => nofun) fun _ _ => ⟨nofun, nofun⟩
    rw [← hcall _ (addNode_registered hid)]
    rfl
  · exact .of_crash (.inr rfl) (getKeyDistribution_canRaise he)
  · exact .of_crash (.inl (hcall _ ha)) (addNode_canRaise hid ha)
  · exact of_call hb _ (hcall _ ha) (fun _ => nofun) fun _ _ => ⟨nofun, nofun⟩

theorem remove_sound (nodeId : String) (self : ConsistentHashRing) :
    Pass.Sound sha256 markupOk testKeys origin self [.removeNode nodeId]
      (remove sha256 markupOk testKeys nodeId self) := by
  have hcall : ∀ r, self.removeNode sha256 nodeId = r →
      stateAfter r = run sha256 [.removeNode nodeId] self := fun r h => by
    rw [← h]
    rfl
  rcases remove_cases nodeId self with ⟨hid, h⟩ | ⟨e, he, h⟩ | ⟨e, s', hr, h⟩ |
    ⟨before, n, s', hb, hr, h⟩ <;> rw [h]
  · refine .of_say _ ?_ (fun _ => nofun) fun _ _ => ⟨nofun, nofun⟩
    rw [← hcall _ (removeNode_unregistered (PyDict.get?_eq_none.2 hid))]
    rfl
  · exact .of_crash (.inr rfl) (getKeyDistribution_canRaise he)
  · exact .of_crash (.inl (hcall _ hr)) (removeNode_canRaise hr)
  · exact of_call hb _ (hcall _ hr) (fun _ => nofun) fun _ _ => ⟨nofun, nofun⟩

/-- The step lemma: what every pass but `quit` keeps. -/
theorem step_sound (h₀ : origin.getKeyDistribution sha256 testKeys = .ok original)
    (command : String) (self : ConsistentHashRing) (hq : Command.parse command ≠ .quit) :
    Pass.Sound sha256 markupOk testKeys origin self (Command.parse command).call?.toList
      (step sha256 markupOk testKeys original command self) := by
  have hline : ∀ r, (∀ nodeId, r ≠ .failedToRemove nodeId) →
      (∀ m n, r ≠ .movement m n ∧ r ≠ .impact m n) →
        Pass.Sound sha256 markupOk testKeys origin self [] (Pass.finish [say markupOk r] self) :=
    fun r => .of_say r rfl
  cases hp : Command.parse command with
  | quit => exact absurd hp hq
  | status =>
      simp only [step, hp, Command.call?, Option.toList_none]
      exact status_sound h₀ self
  | add parts =>
      cases hn : Command.nodeIdOf? parts with
      | none =>
          simp only [step, hp, hn, Command.call?, Option.map_none', Option.toList_none]
          exact hline _ (fun _ => nofun) fun _ _ => ⟨nofun, nofun⟩
      | some nodeId =>
          simp only [step, hp, hn, Command.call?, Option.map_some', Option.toList_some]
          exact add_sound nodeId self
  | remove parts =>
      cases hn : Command.nodeIdOf? parts with
      | none =>
          simp only [step, hp, hn, Command.call?, Option.map_none', Option.toList_none]
          exact hline _ (fun _ => nofun) fun _ _ => ⟨nofun, nofun⟩
      | some nodeId =>
          simp only [step, hp, hn, Command.call?, Option.map_some', Option.toList_some]
          exact remove_sound nodeId self
  | unknown =>
      simp only [step, hp, Command.call?, Option.toList_none]
      exact hline _ (fun _ => nofun) fun _ _ => ⟨nofun, nofun⟩

/-- With no test keys `status` prints "No keys distributed" and divides by zero. -/
theorem step_status_without_keys (original : PyDict String (List String)) {command : String}
    (self : ConsistentHashRing) (hp : Command.parse command = .status) :
    step sha256 markupOk [] original command self =
      ⟨[.distribution []], some (.crash (.zeroDivisionError "division by zero")), self⟩ := by
  simp only [step, hp]
  rfl

end Passes

/-- Every count the loop prints is the number of distinct test keys whose owner changed:
since the loop started for the movement line of `status`, `original` being the
distribution of the ring `start` it started on, and across the command's call for the
impact line of `add` and `remove`. -/
theorem step_counts_moved_keys (sha256 : List UInt8 → Nat) (markupOk : String → Bool)
    (testKeys : List String) (start : ConsistentHashRing) (original : PyDict String (List String))
    (h₀ : start.getKeyDistribution sha256 testKeys = .ok original) (command : String)
    (self : ConsistentHashRing) (m t : Nat) :
    (.movement m t ∈ (step sha256 markupOk testKeys original command self).printed →
        m = movedCount sha256 testKeys start self ∧ t = testKeys.length) ∧
      (.impact m t ∈ (step sha256 markupOk testKeys original command self).printed →
        m = movedCount sha256 testKeys self
            (step sha256 markupOk testKeys original command self).ring ∧
          t = testKeys.length) := by
  by_cases hq : Command.parse command = .quit
  · simp [step, hq]
  have hs : Pass.Sound sha256 markupOk testKeys start self _
      (step sha256 markupOk testKeys original command self) := step_sound h₀ command self hq
  refine ⟨fun h => ?_, fun h => ?_⟩
  · obtain ⟨-, hn, hm⟩ := hs.movement m t h
    exact ⟨hm, hn⟩
  · obtain ⟨-, hn, -, -, -, hm⟩ := hs.impact m t h
    exact ⟨hm, hn⟩

/-- "add a" on an empty ring with three test keys: all three move to "a". -/
theorem step_counts_moved_keys_first_node :
    (step (fun _ => 0) (fun _ => true) ["k1", "k2", "k3"] .empty "add a" (init "fnv1a")).printed =
        [.added "a", .impact 3 3] ∧
      3 = movedCount (fun _ => 0) ["k1", "k2", "k3"] (init "fnv1a")
        (step (fun _ => 0) (fun _ => true) ["k1", "k2", "k3"] .empty "add a" (init "fnv1a")).ring := by
  have hp : (step (fun _ => 0) (fun _ => true) ["k1", "k2", "k3"] .empty "add a"
      (init "fnv1a")).printed = [.added "a", .impact 3 3] := rfl
  refine ⟨hp, ((step_counts_moved_keys (fun _ => 0) (fun _ => true) ["k1", "k2", "k3"]
    (init "fnv1a") .empty rfl "add a" (init "fnv1a") 3 3).2 ?_).1⟩
  rw [hp]
  simp

section Sessions

variable {sha256 : List UInt8 → Nat} {markupOk : String → Bool} {testKeys : List String}
  {original : PyDict String (List String)} {command : String} {rest : List String}
  {self : ConsistentHashRing}

theorem session_cons_some {stop : Stop}
    (h : (step sha256 markupOk testKeys original command self).stop = some stop) :
    session sha256 markupOk testKeys original (command :: rest) self =
      ⟨(step sha256 markupOk testKeys original command self).printed, stop,
        (step sha256 markupOk testKeys original command self).ring⟩ := by
  simp only [session, h]

theorem session_cons_none {t : Transcript}
    (h : (step sha256 markupOk testKeys original command self).stop = none)
    (ht : session sha256 markupOk testKeys original rest
      (step sha256 markupOk testKeys original command self).ring = t) :
    session sha256 markupOk testKeys original (command :: rest) self =
      ⟨(step sha256 markupOk testKeys original command self).printed ++ t.printed, t.stop,
        t.ring⟩ := by
  simp only [session, h, ht]

end Sessions

/-- What a session keeps, over the ring `start` it starts from, the commands typed, and the
ring `origin` whose distribution the loop took when it started. -/
structure Transcript.Sound (sha256 : List UInt8 → Nat) (markupOk : String → Bool)
    (testKeys : List String) (origin start : ConsistentHashRing) (commands : List String)
    (t : Transcript) : Prop where
  /-- The ring is a `run` of the first calls asked for, and of all of them unless the
  session raised. -/
  ring : ∃ calls, calls <+: requestedCalls commands ∧ t.ring = run sha256 calls start ∧
    ((∀ c, t.stop ≠ .crash c) → calls = requestedCalls commands)
  crash : ∀ c, t.stop = .crash c → CanRaise markupOk start.hashFunction c
  not_failed : ∀ nodeId, .failedToRemove nodeId ∉ t.printed
  /-- A movement line counts the keys moved from `origin` to the ring that some first calls
  asked for leave. -/
  movement : ∀ m n, .movement m n ∈ t.printed → testKeys ≠ [] ∧ n = testKeys.length ∧
    ∃ calls, calls <+: requestedCalls commands ∧
      m = movedCount sha256 testKeys origin (run sha256 calls start)
  /-- An impact line counts the keys one call asked for moved, after the calls before it. -/
  impact : ∀ m n, .impact m n ∈ t.printed → testKeys ≠ [] ∧ n = testKeys.length ∧
    ∃ calls call, calls ++ [call] <+: requestedCalls commands ∧
      m = movedCount sha256 testKeys (run sha256 calls start) (run sha256 (calls ++ [call]) start)

namespace Transcript.Sound

variable {sha256 : List UInt8 → Nat} {markupOk : String → Bool} {testKeys : List String}
  {origin self : ConsistentHashRing}

/-- A session that raised before its first command, or stopped at a `quit` or at the end of
the input with nothing asked for. -/
theorem of_stop {commands : List String} {stop : Stop}
    (hreq : requestedCalls commands = [] ∨ ∃ c, stop = .crash c)
    (hc : ∀ c, stop = .crash c → CanRaise markupOk self.hashFunction c) :
    Sound sha256 markupOk testKeys origin self commands ⟨[], stop, self⟩ := by
  refine ⟨⟨[], List.nil_prefix, rfl, fun h => ?_⟩, hc, fun _ h => List.not_mem_nil _ h,
    fun _ _ h => absurd h (List.not_mem_nil _), fun _ _ h => absurd h (List.not_mem_nil _)⟩
  rcases hreq with hreq | ⟨c, rfl⟩
  · exact hreq.symm
  · exact absurd rfl (h c)

end Transcript.Sound

section Sessions

variable {sha256 : List UInt8 → Nat} {markupOk : String → Bool} {testKeys : List String}
  {origin : ConsistentHashRing} {original : PyDict String (List String)}

/-- The run lemma: what every session keeps. -/
theorem session_sound (h₀ : origin.getKeyDistribution sha256 testKeys = .ok original) :
    ∀ (commands : List String) (self : ConsistentHashRing),
      Transcript.Sound sha256 markupOk testKeys origin self commands
        (session sha256 markupOk testKeys original commands self)
  | [], self => .of_stop (.inl rfl) fun _ h => nomatch h
  | command :: rest, self => by
      by_cases hq : Command.parse command = .quit
      · have hs : session sha256 markupOk testKeys original (command :: rest) self =
            ⟨[], .quit, self⟩ := by
          simp only [session, step, hq]
        rw [hs]
        exact .of_stop (.inl (if_pos hq)) fun _ h => nomatch h
      have hreq : requestedCalls (command :: rest) =
          (Command.parse command).call?.toList ++ requestedCalls rest := if_neg hq
      have hp : Pass.Sound sha256 markupOk testKeys origin self _
          (step sha256 markupOk testKeys original command self) := step_sound h₀ command self hq
      cases hstop : (step sha256 markupOk testKeys original command self).stop with
      | some stop =>
          obtain ⟨c, rfl, hc⟩ := hp.stop _ hstop
          rw [session_cons_some hstop]
          refine ⟨?_, fun c' h => ?_, hp.not_failed, fun m n h => ?_, fun m n h => ?_⟩
          · rcases hp.ring with h | ⟨h, -⟩
            · exact ⟨_, hreq ▸ List.prefix_append _ _, h, fun h' => absurd rfl (h' c)⟩
            · exact ⟨[], List.nil_prefix, h, fun h' => absurd rfl (h' c)⟩
          · cases h
            exact hc
          · obtain ⟨hk, hn, hm⟩ := hp.movement m n h
            exact ⟨hk, hn, [], List.nil_prefix, hm⟩
          · obtain ⟨hk, hn, call, hcall, hring, hm⟩ := hp.impact m n h
            exact ⟨hk, hn, [], call, by rw [hreq, hcall]; exact List.prefix_append _ _,
              by rw [hm, hring]; rfl⟩
      | none =>
          have hring : (step sha256 markupOk testKeys original command self).ring =
              run sha256 (Command.parse command).call?.toList self :=
            hp.ring.resolve_right fun ⟨_, c, h⟩ => by rw [hstop] at h; cases h
          have ih := session_sound h₀ rest (step sha256 markupOk testKeys original command self).ring
          have hfun : (step sha256 markupOk testKeys original command self).ring.hashFunction =
              self.hashFunction := hring ▸ run_hashFunction sha256 _ self
          have hpre : ∀ {l}, l <+: requestedCalls rest →
              (Command.parse command).call?.toList ++ l <+: requestedCalls (command :: rest) :=
            fun h => hreq ▸ (List.prefix_append_right_inj _).2 h
          have hrun : ∀ l, run sha256 l (step sha256 markupOk testKeys original command self).ring =
              run sha256 ((Command.parse command).call?.toList ++ l) self := fun l => by
            rw [hring, run_append]
          rw [session_cons_none hstop rfl]
          obtain ⟨calls, hcalls, hrun', hall⟩ := ih.ring
          refine ⟨⟨_ ++ calls, hpre hcalls, by rw [hrun', hrun], fun h => by rw [hreq, hall h]⟩,
            fun c h => hfun ▸ ih.crash c h, fun nodeId h => ?_, fun m n h => ?_, fun m n h => ?_⟩
            <;> rcases List.mem_append.1 h with h | h
          · exact hp.not_failed nodeId h
          · exact ih.not_failed nodeId h
          · obtain ⟨hk, hn, hm⟩ := hp.movement m n h
            exact ⟨hk, hn, [], List.nil_prefix, hm⟩
          · obtain ⟨hk, hn, calls', hcalls', hm⟩ := ih.movement m n h
            exact ⟨hk, hn, _, hpre hcalls', by rw [hm, hrun]⟩
          · obtain ⟨hk, hn, call, hcall, hring', hm⟩ := hp.impact m n h
            exact ⟨hk, hn, [], call, by rw [hreq, hcall]; exact List.prefix_append _ _,
              by rw [hm, hring']; rfl⟩
          · obtain ⟨hk, hn, calls', call, hcalls', hm⟩ := ih.impact m n h
            refine ⟨hk, hn, _ ++ calls', call, ?_, by rw [hm, hrun, hrun, ← List.append_assoc]⟩
            rw [List.append_assoc]
            exact hpre hcalls'

/-- What every use of `interactive_mode` keeps. -/
theorem interactiveMode_sound (self : ConsistentHashRing) (commands : List String) :
    Transcript.Sound sha256 markupOk testKeys self self commands
      (interactiveMode sha256 markupOk self testKeys commands) := by
  unfold interactiveMode
  split
  · refine .of_stop (.inr ⟨_, rfl⟩) fun c h => ?_
    cases h
    exact getKeyDistribution_canRaise ‹_›
  · exact session_sound ‹_› commands self

/-- With no test keys, a session that reaches a `status` after commands `pre` without
`quit` runs `pre` to its end, then prints "No keys distributed" and raises the
`ZeroDivisionError` there; unless a command of `pre` raised first, which ends it. -/
theorem session_status_without_keys (h₀ : origin.getKeyDistribution sha256 [] = .ok original)
    {command : String} (post : List String) (hs : Command.parse command = .status) :
    ∀ (pre : List String) (self : ConsistentHashRing), (∀ c ∈ pre, Command.parse c ≠ .quit) →
      ((session sha256 markupOk [] original pre self).stop = .aborted ∧
        session sha256 markupOk [] original (pre ++ command :: post) self =
          ⟨(session sha256 markupOk [] original pre self).printed ++ [.distribution []],
            .crash (.zeroDivisionError "division by zero"),
            (session sha256 markupOk [] original pre self).ring⟩) ∨
        ∃ c, (session sha256 markupOk [] original pre self).stop = .crash c ∧
          (session sha256 markupOk [] original (pre ++ command :: post) self).stop = .crash c
  | [], self, _ => by
      have hstep : step sha256 markupOk [] original command self =
          ⟨[.distribution []], some (.crash (.zeroDivisionError "division by zero")), self⟩ :=
        step_status_without_keys original self hs
      refine .inl ⟨rfl, ?_⟩
      rw [List.nil_append, session_cons_some (by rw [hstep]), hstep]
      rfl
  | first :: pre, self, hq => by
      have hp : Pass.Sound sha256 markupOk [] origin self _
          (step sha256 markupOk [] original first self) :=
        step_sound h₀ first self (hq first (List.mem_cons_self _ _))
      cases hstop : (step sha256 markupOk [] original first self).stop with
      | some stop =>
          obtain ⟨c, rfl, -⟩ := hp.stop _ hstop
          rw [List.cons_append, session_cons_some hstop, session_cons_some hstop]
          exact .inr ⟨c, rfl, rfl⟩
      | none =>
          rw [List.cons_append, session_cons_none hstop rfl, session_cons_none hstop rfl]
          rcases session_status_without_keys h₀ post hs pre _ fun c hc =>
            hq c (List.mem_cons_of_mem _ hc) with ⟨hab, heq⟩ | hcrash
          · exact .inl ⟨hab, by simp only [heq, List.append_assoc]⟩
          · exact .inr hcrash

end Sessions

/-- The interactive mode is a client of the ring: whatever is typed, the ring it leaves is
a `run` of the `add_node(Node(node_id, replicas=1))` and `remove_node(node_id)` calls its
commands ask for up to the first `quit`; of all of them unless an exception ended the demo,
and of the first ones otherwise. The guards on `ring.nodes` change nothing, since the calls
they skip would leave the ring as it is. -/
theorem interactiveMode_runs_requested_calls (sha256 : List UInt8 → Nat)
    (markupOk : String → Bool) (self : ConsistentHashRing) (testKeys commands : List String) :
    ∃ calls, calls <+: requestedCalls commands ∧
      (interactiveMode sha256 markupOk self testKeys commands).ring = run sha256 calls self ∧
      ((∀ c, (interactiveMode sha256 markupOk self testKeys commands).stop ≠ .crash c) →
        calls = requestedCalls commands) :=
  (interactiveMode_sound self commands).ring

/-- "remove [/x]" on a ring without that id: Rich rejects "[red]Node [/x] not found[/red]",
whose closing tag matches no open tag, and the demo ends with a `MarkupError`. -/
example : (interactiveMode (fun _ => 0) (fun text => text != "[red]Node [/x] not found[/red]")
    (init "fnv1a") ["k"] ["remove [/x]"]).stop = .crash .markupError := rfl

/-- With no test keys (`demo --keys 0 --interactive`) the loop never prints a movement
line, since each one divides by `len(test_keys)`. When a `status` comes after commands `pre`
without `quit`, the demo runs `pre` to its end and then stops at that `status`: it prints
"No keys distributed" and raises the `ZeroDivisionError`, with the ring `pre` left. The
other way is that a command of `pre` raised first, and that exception ends the demo. -/
theorem interactiveMode_without_test_keys (sha256 : List UInt8 → Nat)
    (markupOk : String → Bool) (self : ConsistentHashRing) (commands : List String) :
    (∀ m n, .movement m n ∉ (interactiveMode sha256 markupOk self [] commands).printed ∧
        .impact m n ∉ (interactiveMode sha256 markupOk self [] commands).printed) ∧
      ∀ pre command post, commands = pre ++ command :: post →
        (∀ c ∈ pre, Command.parse c ≠ .quit) → Command.parse command = .status →
        ((interactiveMode sha256 markupOk self [] pre).stop = .aborted ∧
          interactiveMode sha256 markupOk self [] commands =
            ⟨(interactiveMode sha256 markupOk self [] pre).printed ++ [.distribution []],
              .crash (.zeroDivisionError "division by zero"),
              (interactiveMode sha256 markupOk self [] pre).ring⟩) ∨
          ∃ c, (interactiveMode sha256 markupOk self [] pre).stop = .crash c ∧
            (interactiveMode sha256 markupOk self [] commands).stop = .crash c := by
  refine ⟨fun m n => ⟨fun h => ((interactiveMode_sound self commands).movement m n h).1 rfl,
    fun h => ((interactiveMode_sound self commands).impact m n h).1 rfl⟩, ?_⟩
  rintro pre command post rfl hq hs
  have h₀ : self.getKeyDistribution sha256 [] = .ok .empty := rfl
  exact session_status_without_keys h₀ post hs pre self hq

example : (interactiveMode (fun _ => 0) (fun _ => true) (init "fnv1a") [] ["s"]).stop =
    .crash (.zeroDivisionError "division by zero") := rfl

theorem mem_of_nodeIdOf? {parts : List String} {nodeId : String}
    (h : Command.nodeIdOf? parts = some nodeId) : nodeId ∈ parts := by
  unfold Command.nodeIdOf? at h
  split at h
  · cases h
    exact List.mem_cons_of_mem _ (List.mem_singleton_self _)
  · cases h

/-- A call a command asks for is on a word of the line, so on a nonempty id without
whitespace. -/
theorem call?_well_formed {command : String} {call : Call}
    (h : (Command.parse command).call? = some call) :
    ∃ nodeId, nodeId ≠ "" ∧ (∀ c ∈ nodeId.data, PyStr.isSpace c = false) ∧
      (call = .addNode ⟨nodeId, 1⟩ ∨ call = .removeNode nodeId) := by
  have hword : ∀ {nodeId}, Command.nodeIdOf? (PyStr.split command) = some nodeId →
      nodeId ≠ "" ∧ ∀ c ∈ nodeId.data, PyStr.isSpace c = false := fun hn => by
    obtain ⟨hne, hs⟩ := PyStr.split_loop_words _ [] (fun _ h => absurd h (List.not_mem_nil _)) _
      (mem_of_nodeIdOf? hn)
    exact ⟨fun h => hne (congrArg String.data h), hs⟩
  unfold Command.parse at h
  split_ifs at h
  · cases h
  · cases h
  · obtain ⟨nodeId, hn, rfl⟩ := Option.map_eq_some'.1 h
    exact ⟨nodeId, (hword hn).1, (hword hn).2, .inl rfl⟩
  · obtain ⟨nodeId, hn, rfl⟩ := Option.map_eq_some'.1 h
    exact ⟨nodeId, (hword hn).1, (hword hn).2, .inr rfl⟩
  · cases h

/-- What the loop asks of the ring is well formed: every call is on an id that is
nonempty and holds no whitespace, a word of the line typed, and every node it adds has
one replica. -/
theorem requestedCalls_well_formed (commands : List String) (call : Call)
    (h : call ∈ requestedCalls commands) :
    ∃ nodeId, nodeId ≠ "" ∧ (∀ c ∈ nodeId.data, PyStr.isSpace c = false) ∧
      (call = .addNode ⟨nodeId, 1⟩ ∨ call = .removeNode nodeId) := by
  induction commands with
  | nil => exact absurd h (List.not_mem_nil _)
  | cons command rest ih =>
      unfold requestedCalls at h
      split_ifs at h
      · exact absurd h (List.not_mem_nil _)
      · rcases List.mem_append.1 h with h | h
        · exact call?_well_formed (Option.mem_toList.1 h)
        · exact ih h

/-- The line "add node-07" asks for `add_node(Node("node-07", replicas=1))`. -/
theorem requestedCalls_well_formed_node07 :
    ∃ nodeId, nodeId ≠ "" ∧ (∀ c ∈ nodeId.data, PyStr.isSpace c = false) ∧
      (Call.addNode ⟨"node-07", 1⟩ = .addNode ⟨nodeId, 1⟩ ∨
        Call.addNode ⟨"node-07", 1⟩ = .removeNode nodeId) := by
  refine requestedCalls_well_formed ["add node-07"] _ ?_
  rw [show requestedCalls ["add node-07"] = [.addNode ⟨"node-07", 1⟩] from rfl]
  exact List.mem_singleton_self _

/-- A line that starts with neither "q" nor "s" is told apart by its prefix. -/
theorem parse_of_head {command : String} {c : Char} (hc : command.data.head? = some c)
    (hq : c ≠ 'q') (hs : c ≠ 's') :
    Command.parse command =
      if PyStr.startswith command "add " then .add (PyStr.split command)
      else if PyStr.startswith command "remove " then .remove (PyStr.split command)
      else .unknown := by
  rw [Command.parse, if_neg (not_or.2 ⟨PyStr.ne_of_head? "quit" hc rfl hq,
      PyStr.ne_of_head? "q" hc rfl hq⟩),
    if_neg (not_or.2 ⟨PyStr.ne_of_head? "status" hc rfl hs, PyStr.ne_of_head? "s" hc rfl hs⟩)]

/-- The loop reads back the commands its usage lines document: for an id that is nonempty
and holds no whitespace, "add <id>" asks for `add_node(Node(id, replicas=1))` and
"remove <id>" for `remove_node(id)`. -/
theorem call?_verb_lines (nodeId : String) (hne : nodeId ≠ "")
    (hs : ∀ c ∈ nodeId.data, PyStr.isSpace c = false) :
    (Command.parse ("add " ++ nodeId)).call? = some (.addNode ⟨nodeId, 1⟩) ∧
      (Command.parse ("remove " ++ nodeId)).call? = some (.removeNode nodeId) := by
  have hadd : Command.parse ("add " ++ nodeId) = .add ["add", nodeId] := by
    rw [parse_of_head (show ("add " ++ nodeId).data.head? = some 'a' from rfl) (by decide)
      (by decide), if_pos (show PyStr.startswith ("add " ++ nodeId) "add " = true by
        simp [PyStr.startswith, List.isPrefixOf])]
    exact congrArg Command.add (PyStr.split_two_words "add" nodeId (by decide) hne (by decide) hs)
  have hremove : Command.parse ("remove " ++ nodeId) = .remove ["remove", nodeId] := by
    rw [parse_of_head (show ("remove " ++ nodeId).data.head? = some 'r' from rfl) (by decide)
      (by decide), if_neg (show ¬PyStr.startswith ("remove " ++ nodeId) "add " = true by
        simp [PyStr.startswith, List.isPrefixOf]),
      if_pos (show PyStr.startswith ("remove " ++ nodeId) "remove " = true by
        simp [PyStr.startswith, List.isPrefixOf])]
    exact congrArg Command.remove
      (PyStr.split_two_words "remove" nodeId (by decide) hne (by decide) hs)
  rw [hadd, hremove]
  exact ⟨rfl, rfl⟩

/-- `typer.prompt(...).strip().lower()` of a typed line made of an ASCII verb line that is
its own `lower()` and an ASCII id without whitespace: `.strip()` keeps the line and
`.lower()` lowers the id. -/
theorem read_verb_line {verb nodeId : String} {v : Char} (hv : verb.data.head? = some v)
    (hvs : PyStr.isSpace v = false) (hva : ∀ c ∈ verb.data, c.toNat < 128)
    (hlow : PyStr.lowerAscii verb = verb) (hne : nodeId ≠ "")
    (hs : ∀ c ∈ nodeId.data, PyStr.isSpace c = false) (hascii : ∀ c ∈ nodeId.data, c.toNat < 128) :
    PyStr.lower? (PyStr.strip (verb ++ nodeId)) = some (verb ++ PyStr.lowerAscii nodeId) := by
  have hd : nodeId.data ≠ [] := fun h => hne (String.ext h)
  rw [PyStr.strip_of_ends (by simp [hv])
      (by simp [List.getLast?_append, List.getLast?_eq_getLast _ hd]) hvs
      (hs _ (List.getLast_mem hd)),
    PyStr.lower?_of_ascii fun c hc => (List.mem_append.1 (String.data_append _ _ ▸ hc)).elim
      (hva c) (hascii c),
    PyStr.lowerAscii_append, hlow]

/-- The loop reads back the commands its usage lines document, as typed: for an ASCII id
that is nonempty and holds no whitespace, the line "add <id>" asks for
`add_node(Node(id.lower(), replicas=1))` and "remove <id>" for `remove_node(id.lower())`. -/
theorem parse_add_remove_lines (nodeId : String) (hne : nodeId ≠ "")
    (hs : ∀ c ∈ nodeId.data, PyStr.isSpace c = false)
    (hascii : ∀ c ∈ nodeId.data, c.toNat < 128) :
    (∃ command, PyStr.lower? (PyStr.strip ("add " ++ nodeId)) = some command ∧
        (Command.parse command).call? = some (.addNode ⟨PyStr.lowerAscii nodeId, 1⟩)) ∧
      ∃ command, PyStr.lower? (PyStr.strip ("remove " ++ nodeId)) = some command ∧
        (Command.parse command).call? = some (.removeNode (PyStr.lowerAscii nodeId)) := by
  have hne' : PyStr.lowerAscii nodeId ≠ "" := fun h =>
    hne (String.ext (List.map_eq_nil_iff.1 (congrArg String.data h)))
  have hs' : ∀ c ∈ (PyStr.lowerAscii nodeId).data, PyStr.isSpace c = false := fun c hc => by
    obtain ⟨d, hd, rfl⟩ := List.mem_map.1 hc
    rw [PyStr.isSpace_toLower]
    exact hs d hd
  obtain ⟨hadd, hremove⟩ := call?_verb_lines _ hne' hs'
  exact ⟨⟨_, read_verb_line rfl rfl (by decide) rfl hne hs hascii, hadd⟩,
    _, read_verb_line rfl rfl (by decide) rfl hne hs hascii, hremove⟩

/-- The typed lines "add Node-07" and "remove Node-07" ask for `Node("node-07")`. -/
theorem parse_add_remove_lines_node07 :
    (∃ command, PyStr.lower? (PyStr.strip ("add " ++ "Node-07")) = some command ∧
        (Command.parse command).call? = some (.addNode ⟨PyStr.lowerAscii "Node-07", 1⟩)) ∧
      ∃ command, PyStr.lower? (PyStr.strip ("remove " ++ "Node-07")) = some command ∧
        (Command.parse command).call? = some (.removeNode (PyStr.lowerAscii "Node-07")) :=
  parse_add_remove_lines "Node-07" (by decide) (by decide) (by decide)

example : PyStr.lowerAscii "Node-07" = "node-07" := by decide

end Demo

end ConsistentHashLab
