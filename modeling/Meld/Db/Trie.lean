import Meld.Lib.Arena
import Meld.Vm.Types

/-!
# The trie: objects and operations

A trie stores tuples by their levels. Its nodes, hash tables and leaves are heap objects: a node
points to its parent, to its neighbours among the children of its parent, and to its first
child, its hash table or its leaf. The children of a node are a doubly linked list, or, when the
node is hashed, one list for each bucket of the table; a hashed child also points to the bucket
that holds it. The leaves form a list of their own.

The bucket array of a table is kept with the table. A pointer to a bucket names the array, by an
address of its own, and the index; it is dangling once the table has moved to a larger array.

The stack of field values and the stack of field types that the walks share are one stack of
typed values. Loops take a bound, the number of addresses handed out so far or the number of
levels left, and a loop that exceeds it diverges.
-/

namespace Meld.Db

open Meld.Lib Meld.Vm

/-- `TRIE_HASH_LIST_THRESHOLD`. -/
def hashListThreshold : ℕ := 8

/-- `TRIE_HASH_BASE_BUCKETS`. -/
def hashBaseBuckets : ℕ := 64

/-- `TRIE_HASH_MAX_NODES_PER_BUCKET`. -/
def hashMaxNodesPerBucket : ℕ := hashListThreshold / 2

/-! ### The hash functions -/

/-- `hash<int_val>`: the value as a `size_t`. -/
def hashInt (v : Int32) : ℕ := (v.toInt % 2 ^ 64).toNat

/-- `hash<uint_val>`. -/
def hashUint (v : UInt32) : ℕ := v.toNat

/-- `hash<node_val>`. -/
def hashNode (v : UInt32) : ℕ := v.toNat

/-- One byte of the hash of a double, taken as a signed character. -/
def fnvStep (r : UInt64) (b : UInt8) : UInt64 :=
  (r ^^^ b.toInt8.toInt64.toUInt64) * 1099511628211

/-- `hash<float_val>`: zero for both zeros, else the hash of the eight bytes. -/
def hashFloat (v : UInt64) : ℕ :=
  if isZero v then 0
  else (((List.range 8).map fun i => (v >>> (8 * i).toUInt64).toUInt8).foldl fnvStep
    14695981039346656037).toNat

/-- The hash of a stored field, by its type. -/
def hashField : TupleField → ℕ
  | .item (.int v) => hashInt v
  | .item (.float v) => hashFloat v
  | .item (.node v) => hashNode v
  | .ptr p => hashUint p.toUInt32

/-! ### The heap -/

/-- The `child` pointer of a node, with its tag. -/
inductive Child
  | null
  | node (a : ℕ)
  | hash (h : ℕ)
  | leaf (l : ℕ)
  deriving DecidableEq, Repr

/-- `is_leaf`. -/
def Child.isLeaf : Child → Bool
  | leaf _ => true
  | _ => false

/-- The child pointer that points to a node or is null. -/
def Child.ofNode : Option ℕ → Child
  | some a => node a
  | none => null

/-- The `trie_node` objects. -/
structure NodeHeap where
  arena : Arena := .empty
  parent : ℕ → Option ℕ := fun _ => none
  next : ℕ → Option ℕ := fun _ => none
  prev : ℕ → Option ℕ := fun _ => none
  child : ℕ → Child := fun _ => .null
  data : ℕ → TupleField := fun _ => .ptr 0
  hashed : ℕ → Bool := fun _ => false
  /-- the array and the index of the bucket that holds the node -/
  bucket : ℕ → Option (ℕ × ℕ) := fun _ => none

/-- The `trie_hash` objects with their bucket arrays. -/
structure HashHeap where
  arena : Arena := .empty
  type : ℕ → FieldType := fun _ => .string
  parent : ℕ → ℕ := fun _ => 0
  /-- the address of the bucket array -/
  buckets : ℕ → ℕ := fun _ => 0
  /-- the bucket array -/
  slots : ℕ → ℕ → Option ℕ := fun _ _ => none
  numBuckets : ℕ → ℕ := fun _ => 0
  total : ℕ → ℕ := fun _ => 0
  /-- the next address of a bucket array -/
  nextArray : ℕ := 0

/-- The table `h` gets a new array, empty and twice as large. -/
def HashHeap.grow (H : HashHeap) (h : ℕ) : HashHeap :=
  { H with
    numBuckets := Function.update H.numBuckets h (H.numBuckets h * 2)
    buckets := Function.update H.buckets h H.nextArray
    slots := Function.update H.slots h fun _ => none
    nextArray := H.nextArray + 1 }

/-- The `trie_leaf` objects; `payload` is what the derived class adds. -/
structure LeafHeap (L : Type) [Inhabited L] where
  arena : Arena := .empty
  prev : ℕ → Option ℕ := fun _ => none
  next : ℕ → Option ℕ := fun _ => none
  node : ℕ → ℕ := fun _ => 0
  payload : ℕ → L := fun _ => default

/-- The virtual functions of `trie_leaf`. -/
class LeafOps (L : Type) extends Inhabited L where
  /-- `get_count`, before its conversion to `size_t` -/
  getCount : L → ℤ
  addCount : L → ℤ → L
  toDelete : L → Bool
  /-- what the destructor asserts -/
  destructible : L → Bool

/-- `trie`. -/
structure Trie (L : Type) [LeafOps L] where
  nodes : NodeHeap := {}
  hashes : HashHeap := {}
  leaves : LeafHeap L := {}
  root : ℕ
  numberOfReferences : ℤ := 0
  firstLeaf : Option ℕ := none
  lastLeaf : Option ℕ := none

namespace Trie

variable {L : Type} [LeafOps L]

/-! ### Reads and writes -/

/-- `node->next = v`. -/
def setNext (t : Trie L) (a : ℕ) (v : Option ℕ) : Exec (Trie L) := do
  t.nodes.arena.check a
  pure { t with nodes.next := Function.update t.nodes.next a v }

/-- `node->prev = v`. -/
def setPrev (t : Trie L) (a : ℕ) (v : Option ℕ) : Exec (Trie L) := do
  t.nodes.arena.check a
  pure { t with nodes.prev := Function.update t.nodes.prev a v }

/-- `node->child = v`. -/
def setChild (t : Trie L) (a : ℕ) (v : Child) : Exec (Trie L) := do
  t.nodes.arena.check a
  pure { t with nodes.child := Function.update t.nodes.child a v }

/-- `node->hashed = v`. -/
def setHashed (t : Trie L) (a : ℕ) (v : Bool) : Exec (Trie L) := do
  t.nodes.arena.check a
  pure { t with nodes.hashed := Function.update t.nodes.hashed a v }

/-- `node->bucket = v`. -/
def setBucket (t : Trie L) (a : ℕ) (v : Option (ℕ × ℕ)) : Exec (Trie L) := do
  t.nodes.arena.check a
  pure { t with nodes.bucket := Function.update t.nodes.bucket a v }

/-- `new trie_node(f)` with its `parent`; the address is `t.nodes.arena.next`. -/
def newNode (t : Trie L) (f : TupleField) (parent : Option ℕ) : Trie L :=
  let a := t.nodes.arena.next
  { t with nodes :=
    { arena := t.nodes.arena.alloc
      parent := Function.update t.nodes.parent a parent
      next := Function.update t.nodes.next a none
      prev := Function.update t.nodes.prev a none
      child := Function.update t.nodes.child a .null
      data := Function.update t.nodes.data a f
      hashed := Function.update t.nodes.hashed a false
      bucket := Function.update t.nodes.bucket a none } }

/-- `delete node`. -/
def freeNode (t : Trie L) (a : ℕ) : Exec (Trie L) := do
  t.nodes.arena.check a
  pure { t with nodes.arena := t.nodes.arena.free a }

/-- `new trie_hash(type, parent)`; the address is `t.hashes.arena.next`. -/
def newHash (t : Trie L) (type : FieldType) (parent : ℕ) : Trie L :=
  let h := t.hashes.arena.next
  { t with hashes :=
    { arena := t.hashes.arena.alloc
      type := Function.update t.hashes.type h type
      parent := Function.update t.hashes.parent h parent
      buckets := Function.update t.hashes.buckets h t.hashes.nextArray
      slots := Function.update t.hashes.slots h fun _ => none
      numBuckets := Function.update t.hashes.numBuckets h hashBaseBuckets
      total := Function.update t.hashes.total h 0
      nextArray := t.hashes.nextArray + 1 } }

/-- `delete hash`. -/
def freeHash (t : Trie L) (h : ℕ) : Exec (Trie L) := do
  t.hashes.arena.check h
  pure { t with hashes.arena := t.hashes.arena.free h }

/-- `hash->total = n`. -/
def setTotal (t : Trie L) (h n : ℕ) : Exec (Trie L) := do
  t.hashes.arena.check h
  pure { t with hashes.total := Function.update t.hashes.total h n }

/-- `hash->buckets[i] = v`. -/
def setSlot (t : Trie L) (h i : ℕ) (v : Option ℕ) : Exec (Trie L) := do
  t.hashes.arena.check h
  let slots := Function.update (t.hashes.slots h) i v
  pure { t with hashes.slots := Function.update t.hashes.slots h slots }

/-- `leaf->prev = v`. -/
def setLeafPrev (t : Trie L) (l : ℕ) (v : Option ℕ) : Exec (Trie L) := do
  t.leaves.arena.check l
  pure { t with leaves.prev := Function.update t.leaves.prev l v }

/-- `leaf->next = v`. -/
def setLeafNext (t : Trie L) (l : ℕ) (v : Option ℕ) : Exec (Trie L) := do
  t.leaves.arena.check l
  pure { t with leaves.next := Function.update t.leaves.next l v }

/-- `new` for a leaf, which then gets its node and its neighbours; the address is
`t.leaves.arena.next`. -/
def newLeaf (t : Trie L) (payload : L) (node : ℕ) (prev next : Option ℕ) : Trie L :=
  let l := t.leaves.arena.next
  { t with leaves :=
    { arena := t.leaves.arena.alloc
      prev := Function.update t.leaves.prev l prev
      next := Function.update t.leaves.next l next
      node := Function.update t.leaves.node l node
      payload := Function.update t.leaves.payload l payload } }

/-- `delete leaf`, with what the destructor asserts. -/
def freeLeaf (t : Trie L) (l : ℕ) : Exec (Trie L) := do
  t.leaves.arena.check l
  assert (LeafOps.destructible (t.leaves.payload l))
  pure { t with leaves.arena := t.leaves.arena.free l }

/-- `leaf->add_count(many)`. -/
def addCount (t : Trie L) (l : ℕ) (many : ℤ) : Exec (Trie L) := do
  t.leaves.arena.check l
  let payload := LeafOps.addCount (t.leaves.payload l) many
  pure { t with leaves.payload := Function.update t.leaves.payload l payload }

/-- `p->f = v` when `p` is not null, for a setter of the field `f`. -/
def setIfSome (t : Trie L) (set : Trie L → ℕ → Option ℕ → Exec (Trie L)) (p v : Option ℕ) :
    Exec (Trie L) :=
  match p with
  | some a => set t a v
  | none => pure t

/-- `get_child`, used as a node. -/
def nodeChild (t : Trie L) (a : ℕ) : Exec (Option ℕ) := do
  t.nodes.arena.check a
  match t.nodes.child a with
  | .null => pure none
  | .node b => pure (some b)
  | _ => throw .dangling

/-- `get_hash`. -/
def getHash (t : Trie L) (a : ℕ) : Exec ℕ := do
  t.nodes.arena.check a
  match t.nodes.child a with
  | .hash h => do
    t.hashes.arena.check h
    pure h
  | _ => throw .dangling

/-- `basic_invariants`. -/
def basicInvariants (t : Trie L) : Exec Unit := do
  t.nodes.arena.check t.root
  assert (t.nodes.parent t.root = none)
  if t.numberOfReferences = 0 then assert (t.nodes.child t.root = .null)
  else assert (t.nodes.child t.root ≠ .null)
  assert (t.nodes.prev t.root = none)
  assert (t.nodes.next t.root = none)
  assert ((t.nodes.child t.root = .null ∧ t.firstLeaf = none ∧ t.lastLeaf = none) ∨
    (t.nodes.child t.root ≠ .null ∧ t.firstLeaf ≠ none ∧ t.lastLeaf ≠ none))

/-- The constructor `trie()`. -/
def new : Trie L := (({ root := 0 } : Trie L)).newNode (.ptr 0) none

/-! ### Hash tables -/

/-- `hash_item`. -/
def hashItem (t : Trie L) (h item : ℕ) : ℕ := item &&& (t.hashes.numBuckets h - 1)

/-- The part the four insertions into a table share. -/
def insertBucket (t : Trie L) (h bucket node : ℕ) : Exec (Trie L) := do
  t.hashes.arena.check h
  assert (bucket < t.hashes.numBuckets h)
  let old := t.hashes.slots h bucket
  let t ← t.setPrev node none
  let t ← t.setNext node old
  let t ← t.setIfSome setPrev old (some node)
  let t ← t.setBucket node (some (t.hashes.buckets h, bucket))
  t.setSlot h bucket (some node)

/-- `insert_int`. -/
def insertInt (t : Trie L) (h : ℕ) (v : Int32) (node : ℕ) : Exec (Trie L) := do
  assert (0 < t.hashes.numBuckets h)
  t.insertBucket h (t.hashItem h (hashInt v)) node

/-- `insert_uint`. -/
def insertUint (t : Trie L) (h : ℕ) (v : UInt32) (node : ℕ) : Exec (Trie L) := do
  assert (0 < t.hashes.numBuckets h)
  t.insertBucket h (t.hashItem h (hashUint v)) node

/-- `insert_float`. -/
def insertFloat (t : Trie L) (h : ℕ) (v : UInt64) (node : ℕ) : Exec (Trie L) :=
  t.insertBucket h (t.hashItem h (hashFloat v)) node

/-- `insert_node`. -/
def insertNode (t : Trie L) (h : ℕ) (v : UInt32) (node : ℕ) : Exec (Trie L) :=
  t.insertBucket h (t.hashItem h (hashNode v)) node

/-- The insertion of a child by the type of its field. -/
def insertField (t : Trie L) (h : ℕ) (f : TupleField) (node : ℕ) : Exec (Trie L) :=
  match f with
  | .item (.int v) => t.insertInt h v node
  | .item (.float v) => t.insertFloat h v node
  | .item (.node v) => t.insertNode h v node
  | .ptr p => t.insertUint h p.toUInt32 node

/-- `get_int`. -/
def getInt (t : Trie L) (h : ℕ) (v : Int32) : Option ℕ := t.hashes.slots h (t.hashItem h (hashInt v))

/-- `get_float`. -/
def getFloat (t : Trie L) (h : ℕ) (v : UInt64) : Option ℕ :=
  t.hashes.slots h (t.hashItem h (hashFloat v))

/-- `get_node`. -/
def getNode (t : Trie L) (h : ℕ) (v : UInt32) : Option ℕ :=
  t.hashes.slots h (t.hashItem h (hashNode v))

/-- `get_uint`. -/
def getUint (t : Trie L) (h : ℕ) (v : UInt32) : Option ℕ :=
  t.hashes.slots h (t.hashItem h (hashUint v))

/-- The first child of the bucket of a field, by the type of the field. -/
def getField (t : Trie L) (h : ℕ) : TupleField → Option ℕ
  | .item (.int v) => t.getInt h v
  | .item (.float v) => t.getFloat h v
  | .item (.node v) => t.getNode h v
  | .ptr p => t.getUint h p.toUInt32

/-- The loop that puts the nodes of a list into a table and counts them. -/
def rehash (h : ℕ) : ℕ → Trie L → Option ℕ → ℕ → Exec (Trie L × ℕ)
  | _, t, none, total => pure (t, total)
  | 0, _, some _, _ => throw .diverge
  | fuel + 1, t, some a, total => do
    t.nodes.arena.check a
    let tmp := t.nodes.next a
    let t ← t.insertField h (t.nodes.data a) a
    rehash h fuel t tmp (total + 1)

/-- The loop of `expand` over the buckets of the old array. -/
def expandLoop (h : ℕ) (oldBuckets : ℕ → Option ℕ) : List ℕ → Trie L → Exec (Trie L)
  | [], t => pure t
  | i :: is, t => do
    let (t, _) ← rehash h t.nodes.arena.next t (oldBuckets i) 0
    expandLoop h oldBuckets is t

/-- `expand`. -/
def expand (t : Trie L) (h : ℕ) : Exec (Trie L) := do
  t.hashes.arena.check h
  expandLoop h (t.hashes.slots h) (List.range (t.hashes.numBuckets h))
    { t with hashes := t.hashes.grow h }

/-! ### Nodes -/

/-- The loop that looks for a field in a list of children, and the number of children it saw. -/
def search (t : Trie L) (f : TupleField) : ℕ → Option ℕ → ℕ → Exec (Option ℕ × ℕ)
  | _, none, count => pure (none, count)
  | 0, some _, _ => throw .diverge
  | fuel + 1, some a, count => do
    t.nodes.arena.check a
    if (t.nodes.data a).sameAs f then pure (some a, count + 1)
    else search t f fuel (t.nodes.next a) (count + 1)

/-- Where the search for a field among the children of a node starts. -/
def searchStart (t : Trie L) (a : ℕ) (f : TupleField) : Exec (Option ℕ) :=
  if t.nodes.hashed a then do
    let h ← t.getHash a
    pure (t.getField h f)
  else t.nodeChild a

/-- `match`; the values it pushes are `v.pushed`. -/
def matchNode (t : Trie L) (a : ℕ) (v : Value) : Exec (Option ℕ × ℕ) := do
  t.nodes.arena.check a
  assert ((t.nodes.child a).isLeaf = false)
  if t.nodes.child a = .null then pure (none, 0)
  else do
    let start ← t.searchStart a v.store
    t.search v.store t.nodes.arena.next start 0

/-- The part `get_by_int`, `get_by_float` and `get_by_node` share. -/
def getBy (t : Trie L) (a : ℕ) (x : Item) : Exec (Option ℕ) := do
  t.nodes.arena.check a
  assert ((t.nodes.child a).isLeaf = false)
  assert (t.nodes.child a ≠ .null)
  let start ← t.searchStart a (.item x)
  let r ← t.search (.item x) t.nodes.arena.next start 0
  pure r.1

/-- `get_by_int`. -/
def getByInt (t : Trie L) (a : ℕ) (v : Int32) : Exec (Option ℕ) := t.getBy a (.int v)

/-- `get_by_float`. -/
def getByFloat (t : Trie L) (a : ℕ) (v : UInt64) : Exec (Option ℕ) := t.getBy a (.float v)

/-- `get_by_node`. -/
def getByNode (t : Trie L) (a : ℕ) (v : UInt32) : Exec (Option ℕ) := t.getBy a (.node v)

/-- `insert`; the values it pushes are `v.pushed`. -/
def insert (t : Trie L) (a : ℕ) (v : Value) : Exec (Trie L × ℕ) := do
  let c := t.nodes.arena.next
  let t := t.newNode v.store (some a)
  t.nodes.arena.check a
  assert ((t.nodes.child a).isLeaf = false)
  let t ←
    if t.nodes.hashed a then do
      assert (t.nodes.child a ≠ .null)
      let h ← t.getHash a
      let t ← t.setTotal h (t.hashes.total h + 1)
      t.insertField h v.store c
    else do
      let old ← t.nodeChild a
      let t ← t.setNext c old
      let t ← t.setPrev c none
      let t ← t.setIfSome setPrev old (some c)
      t.setChild a (.node c)
  assert (t.nodes.parent c = some a)
  pure (t, c)

/-- `convert_hash`. -/
def convertHash (t : Trie L) (a : ℕ) (type : FieldType) : Exec (Trie L) := do
  assert (t.nodes.hashed a = false)
  let next ← t.nodeChild a
  let h := t.hashes.arena.next
  let t := t.newHash type a
  let (t, total) ← rehash h t.nodes.arena.next t next 0
  let t ← t.setTotal h total
  let t ← t.setChild a (.hash h)
  assert (t.nodes.hashed a = false)
  t.setHashed a true

/-! ### Deletion -/

/-- `*(node->bucket) = v`, for a child of the node whose table is `h`. -/
def setBucketSlot (t : Trie L) (h : ℕ) (b : ℕ × ℕ) (v : Option ℕ) : Exec (Trie L) :=
  if t.hashes.buckets h = b.1 ∧ b.2 < t.hashes.numBuckets h then t.setSlot h b.2 v
  else throw .dangling

/-- The part of `delete_path` that takes a node out of the children of its parent, and whether
the parent is then without children. -/
def unlinkNode (t : Trie L) (parent a : ℕ) : Exec (Trie L × Bool) := do
  let prev := t.nodes.prev a
  let next := t.nodes.next a
  let t ← t.setIfSome setNext prev next
  let t ← t.setIfSome setPrev next prev
  let t ←
    if (t.nodes.bucket a).isSome then do
      let h ← t.getHash parent
      t.setTotal h (decSize (t.hashes.total h))
    else pure t
  if prev = none then
    match t.nodes.bucket a with
    | some b => do
      let h ← t.getHash parent
      let t ← t.setBucketSlot h b next
      if t.hashes.total h = 0 then do
        let t ← t.freeHash h
        let t ← t.setHashed a false
        let t ← t.setBucket a none
        let t ← t.setChild parent .null
        pure (t, true)
      else pure (t, false)
    | none => do
      assert (t.nodes.child parent = .node a)
      let t ← t.setChild parent (.ofNode next)
      pure (t, decide (next = none))
  else pure (t, false)

/-- `delete_path`. -/
def deletePath : ℕ → Trie L → ℕ → Exec (Trie L)
  | 0, _, _ => throw .diverge
  | fuel + 1, t, a => do
    t.nodes.arena.check a
    if a = t.root then t.setHashed a false
    else do
      assert (t.nodes.child a = .null)
      let parent ← deref (t.nodes.parent a)
      let (t, emptied) ← t.unlinkNode parent a
      let t ← if emptied then deletePath fuel t parent else pure t
      t.freeNode a

/-- The loop over the children in one list: `body` on the child, then `delete`. -/
def deleteChain (body : Trie L → ℕ → Exec (Trie L × ℤ)) :
    ℕ → Trie L → Option ℕ → ℤ → Exec (Trie L × ℤ)
  | _, t, none, count => pure (t, count)
  | 0, _, some _, _ => throw .diverge
  | fuel + 1, t, some a, count => do
    t.nodes.arena.check a
    let tmp := t.nodes.next a
    let (t, n) ← body t a
    let t ← t.freeNode a
    deleteChain body fuel t tmp (count + n)

/-- The loop over the buckets of the table `h`. -/
def deleteBuckets (body : Trie L → ℕ → Exec (Trie L × ℤ)) (h : ℕ) :
    List ℕ → Trie L → ℤ → Exec (Trie L × ℤ)
  | [], t, count => pure (t, count)
  | i :: is, t, count => do
    let (t, count) ← deleteChain body t.nodes.arena.next t (t.hashes.slots h i) count
    deleteBuckets body h is t count

/-- The part of `delete_branch` that removes a leaf from the list of leaves. -/
def unlinkLeaf (t : Trie L) (l : ℕ) : Exec (Trie L) := do
  t.leaves.arena.check l
  let prev := t.leaves.prev l
  let next := t.leaves.next l
  let t ← t.setIfSome setLeafNext prev next
  let t ← t.setIfSome setLeafPrev next prev
  let first := if t.firstLeaf = some l then next else t.firstLeaf
  let last := if t.lastLeaf = some l then prev else t.lastLeaf
  pure { t with firstLeaf := first, lastLeaf := last }

/-- `delete_branch`. The count is taken before its conversion to `size_t`. -/
def deleteBranch : ℕ → Trie L → ℕ → Exec (Trie L × ℤ)
  | 0, _, _ => throw .diverge
  | depth + 1, t, a => do
    t.nodes.arena.check a
    match t.nodes.child a with
    | .leaf l => do
      let t ← t.unlinkLeaf l
      let count := LeafOps.getCount (t.leaves.payload l)
      let t ← t.freeLeaf l
      let t ← t.setChild a .null
      pure (t, count)
    | _ => do
      let (t, count) ←
        if t.nodes.hashed a then do
          let h ← t.getHash a
          deleteBuckets (deleteBranch depth) h (List.range (t.hashes.numBuckets h)) t 0
        else do
          let next ← t.nodeChild a
          deleteChain (deleteBranch depth) t.nodes.arena.next t next 0
      let t ← t.setChild a .null
      pure (t, count)

/-- The part of `inner_delete_by_leaf` that removes a leaf. -/
def removeLeaf (t : Trie L) (l : ℕ) : Exec (Trie L) := do
  let node := t.leaves.node l
  let prev := t.leaves.prev l
  let next := t.leaves.next l
  let t ← t.setIfSome setLeafPrev next prev
  let t ← t.setIfSome setLeafNext prev next
  assert (t.firstLeaf = some l → prev = none)
  assert (t.lastLeaf = some l → next = none)
  let first := if t.firstLeaf = some l then next else t.firstLeaf
  let last := if t.lastLeaf = some l then prev else t.lastLeaf
  assert (t.firstLeaf = some l ∧ t.lastLeaf = some l → last = none ∧ first = none)
  let t ← ({ t with firstLeaf := first, lastLeaf := last } : Trie L).freeLeaf l
  let t ← t.setChild node .null
  let t ← deletePath t.nodes.arena.next t node
  assert (t.nodes.next t.root = none)
  assert (t.nodes.prev t.root = none)
  pure t

/-- `inner_delete_by_leaf`. -/
def innerDeleteByLeaf (t : Trie L) (l : ℕ) (count : ℤ) : Exec (Trie L) := do
  t.leaves.arena.check l
  let t ← if count ≠ 0 then do
      assert (0 < count)
      t.addCount l (-count)
    else pure t
  if LeafOps.toDelete (t.leaves.payload l) = false then pure t
  else t.removeLeaf l

/-- `number_of_references += n`. -/
def addReferences (t : Trie L) (n : ℤ) : Exec (Trie L) := do
  let r ← addInt t.numberOfReferences n
  pure { t with numberOfReferences := r }

/-- `commit_delete`. -/
def commitDelete (t : Trie L) (a : ℕ) (many : ℤ) : Exec (Trie L) := do
  t.nodes.arena.check a
  match t.nodes.child a with
  | .leaf l => do
    let t ← t.addReferences (-many)
    assert (0 ≤ t.numberOfReferences)
    let t ← t.innerDeleteByLeaf l 0
    t.basicInvariants
    pure t
  | _ => throw .assertion

/-- `delete_by_leaf`. -/
def deleteByLeaf (t : Trie L) (l : ℕ) : Exec (Trie L) := do
  let t ← t.addReferences (-1)
  assert (0 ≤ t.numberOfReferences)
  t.innerDeleteByLeaf l 1

/-! ### Insertion -/

/-- The loop that inserts what is left on the stack below a new node. -/
def insertRest : ℕ → Trie L → ℕ → List Value → Exec (Trie L × ℕ)
  | _, t, a, [] => pure (t, a)
  | 0, _, _, _ :: _ => throw .diverge
  | fuel + 1, t, a, v :: vs => do
    t.nodes.arena.check a
    assert ((t.nodes.child a).isLeaf = false)
    let (t, c) ← t.insert a v
    insertRest fuel t c (v.pushed ++ vs)

/-- The new leaf of the node `a`, appended to the list of leaves. -/
def attachLeaf (t : Trie L) (a : ℕ) (payload : L) : Exec (Trie L) := do
  let l := t.leaves.arena.next
  let t := t.newLeaf payload a t.lastLeaf none
  let t ← t.setChild a (.leaf l)
  let t ←
    if t.firstLeaf = none then do
      let t ← t.setLeafPrev l none
      pure { t with firstLeaf := some l, lastLeaf := some l }
    else do
      let last ← deref t.lastLeaf
      let t ← t.setLeafNext last (some l)
      pure { t with lastLeaf := some l }
  assert (t.lastLeaf = some l)
  pure t

/-- What `check_insert` does when no child of `a` has the field: the children are put into a
table, or into a larger one, when the search for the field saw too many of them. -/
def makeRoom (t : Trie L) (a : ℕ) (type : FieldType) (count : ℕ) : Exec (Trie L) := do
  if hashListThreshold < count ∧ t.nodes.hashed a = false then do
    let t ← t.convertHash a type
    assert (t.nodes.hashed a = true)
    pure t
  else if t.nodes.hashed a = true ∧ hashMaxNodesPerBucket < count then do
    let h ← t.getHash a
    t.expand h
  else pure t

/-- What `check_insert` does when no child of `a` has the field of the value `v`: `count` is the
number of children the search saw, and `vs` is what is left on the stack. -/
def insertNew (t : Trie L) (mk : ℤ → L) (many : ℤ) (a : ℕ) (v : Value) (vs : List Value)
    (count : ℕ) : Exec (Trie L × Option ℕ × Bool) := do
  let t ← t.makeRoom a v.type (count + 1)
  let (t, c) ← t.insert a v
  assert (c ≠ t.root)
  let (t, b) ← insertRest (levels (v.pushed ++ vs)).length t c (v.pushed ++ vs)
  let t ← t.attachLeaf b (mk many)
  assert ((t.nodes.child t.root).isLeaf = false)
  assert (t.firstLeaf ≠ none)
  assert (t.nodes.child t.root ≠ .null)
  pure (t, some b, false)

/-- What `check_insert` does at the leaf `l` of the node `a`. -/
def foundLeaf (t : Trie L) (many : ℤ) (a l : ℕ) : Exec (Trie L × Option ℕ × Bool) := do
  assert ((t.nodes.child t.root).isLeaf = false)
  let t ← t.addCount l many
  assert (t.firstLeaf ≠ none ∧ t.lastLeaf ≠ none)
  t.basicInvariants
  pure (t, some a, true)

/-- The loop of `check_insert`, from the node `a`: the node of the tuple's leaf, or null, and
whether the tuple was found. -/
def insertFrom (mk : ℤ → L) (many : ℤ) :
    ℕ → Trie L → ℕ → List Value → Exec (Trie L × Option ℕ × Bool)
  | fuel, t, a, vs => do
    t.nodes.arena.check a
    match t.nodes.child a with
    | .leaf l => do
      assert (vs = [])
      t.foundLeaf many a l
    | _ =>
      match fuel, vs with
      | _, [] => throw .assertion
      | 0, _ :: _ => throw .diverge
      | fuel + 1, v :: vs => do
        let (cur, count) ← t.matchNode a v
        match cur with
        | some c => insertFrom mk many fuel t c (v.pushed ++ vs)
        | none =>
          if many < 0 then pure (t, none, false)
          else t.insertNew mk many a v vs count

/-- `check_insert`; `mk` is `create_leaf` on the data of the caller. -/
def checkInsert (t : Trie L) (mk : ℤ → L) (many : ℤ) (vs : List Value) :
    Exec (Trie L × Option ℕ × Bool) :=
  if vs = [] then do
    t.nodes.arena.check t.root
    match t.nodes.child t.root with
    | .leaf l => do
      let t ← t.addCount l many
      pure (t, some t.root, true)
    | _ => do
      let l := t.leaves.arena.next
      let t := t.newLeaf (mk many) t.root none none
      let t ← t.setChild t.root (.leaf l)
      pure ({ t with firstLeaf := some l, lastLeaf := some l }, some t.root, false)
  else insertFrom mk many (levels vs).length t t.root vs

end Trie

end Meld.Db
