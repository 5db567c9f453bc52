import Meld.Lib.ByteMemory
import Meld.Lib.Transition

/-!
# The memory pool

The allocator of the program keeps a group of chunks for each size of blocks. A block that is freed
is put in front of the group's list of free objects, whose links are kept in the freed blocks
themselves; a block is taken from this list, or else cut from the chunk that was made last. Each
chunk has room for twice as many blocks as the one before.

The bytes of the chunks are in one memory. What `new` gives for a chunk is not described further: it
is a range of addresses apart from those that it gave before.
-/

namespace Meld.Mem

open Lib

/-! ### Chunks -/

/-- `chunk`. The list of the chunks of a group is kept by the group. -/
structure Chunk where
  cur : ℕ
  bottom : ℕ
  top : ℕ
  deriving DecidableEq, Repr

namespace Chunk

/-- The bytes that a chunk asks for. -/
def total (size numElems : ℕ) : ℕ := size * numElems % 2 ^ 64

/-- The constructor; `bottom` is what `new` gives. -/
def new (size numElems bottom : ℕ) : Chunk := ⟨bottom, bottom, bottom + total size numElems⟩

/-- `allocate`; null when the chunk is full. -/
def allocate (c : Chunk) (size : ℕ) : Chunk × Option ℕ :=
  let oldCur := c.cur
  let c := { c with cur := (c.cur + size) % 2 ^ 64 }
  if c.top < c.cur then (c, none) else (c, some oldCur)

/-- The addresses of the chunk. -/
def region (c : Chunk) : Block := ⟨c.bottom, c.top - c.bottom⟩

/-- The addresses from which no block has been cut. -/
def unused (c : Chunk) : Block := ⟨c.cur, c.top - c.cur⟩

end Chunk

/-! ### Groups -/

/-- `chunkgroup`. `newChunk` is the last one of the list that begins at `first_chunk`, the others
are `oldChunks`. -/
structure ChunkGroup where
  size : ℕ
  oldChunks : List Chunk
  newChunk : Option Chunk
  freeObjs : Option ℕ
  numElemsPerChunk : ℕ
  deriving DecidableEq, Repr

namespace ChunkGroup

/-- `INITIAL_NUM_ELEMS`. -/
def initialNumElems : ℕ := 64

/-- The constructor. -/
def new (size : ℕ) : ChunkGroup := ⟨size, [], none, none, initialNumElems⟩

/-- The number of elements of the chunk after a full one. -/
def moreElems (n : ℕ) : ℕ := if n < (2 ^ 64 - 1) / 2 then n * 2 else n

/-- The group with another first free object. -/
def setFree (g : ChunkGroup) (p : Option ℕ) : ChunkGroup := { g with freeObjs := p }

@[simp] theorem setFree_freeObjs (g : ChunkGroup) (p : Option ℕ) : (g.setFree p).freeObjs = p := rfl

/-- A new chunk, and a block that is cut from it. -/
def addChunk (g : ChunkGroup) (bottom : ℕ) : ChunkGroup × Option ℕ :=
  let (c, ret) := (Chunk.new g.size g.numElemsPerChunk bottom).allocate g.size
  ({ g with newChunk := some c }, ret)

/-- `allocate`; `bottom` is what `new` gives when a chunk is made. -/
def allocate (g : ChunkGroup) (mem : Memory) (bottom : ℕ) : ChunkGroup × Option ℕ :=
  match g.freeObjs with
  | some ret => (g.setFree (mem.wordNext ret), some ret)
  | none =>
    match g.newChunk with
    | none => g.addChunk bottom
    | some c =>
      match c.allocate g.size with
      | (c, some ret) => ({ g with newChunk := some c }, some ret)
      | (c, none) =>
        { g with
          oldChunks := g.oldChunks ++ [c]
          numElemsPerChunk := moreElems g.numElemsPerChunk }.addChunk bottom

/-- The bytes that `allocate` asks for, when it makes a chunk. -/
def requested (g : ChunkGroup) : Option ℕ :=
  match g.freeObjs, g.newChunk with
  | some _, _ => none
  | none, none => some (Chunk.total g.size g.numElemsPerChunk)
  | none, some c =>
    if (c.allocate g.size).2 = none then
      some (Chunk.total g.size (moreElems g.numElemsPerChunk))
    else none

/-- `deallocate`. -/
def deallocate (g : ChunkGroup) (mem : Memory) (ptr : ℕ) : ChunkGroup × Memory :=
  (g.setFree (some ptr), mem.storeWord ptr (Memory.ofPtr g.freeObjs))

/-- The addresses of the chunks. -/
def regions (g : ChunkGroup) : List Block := (g.oldChunks ++ g.newChunk.toList).map Chunk.region

end ChunkGroup

/-! ### The pool -/

/-- `pool`, and the memory. -/
structure Pool where
  mem : Memory
  chunks : ℕ → Option ChunkGroup

namespace Pool

/-- `get_group`. -/
def getGroup (p : Pool) (size : ℕ) : Exec ChunkGroup := do
  assert (0 < size)
  return (p.chunks size).getD (ChunkGroup.new size)

/-- The pool with a group for the size. -/
def setGroup (p : Pool) (size : ℕ) (g : ChunkGroup) : Pool :=
  { p with chunks := Function.update p.chunks size (some g) }

/-- `allocate`. -/
def allocate (p : Pool) (size bottom : ℕ) : Exec (Pool × Option ℕ) := do
  let (g, ret) := (← p.getGroup size).allocate p.mem bottom
  return (p.setGroup size g, ret)

/-- `deallocate`. -/
def deallocate (p : Pool) (ptr size : ℕ) : Exec Pool := do
  let (g, mem) := (← p.getGroup size).deallocate p.mem ptr
  return { p.setGroup size g with mem := mem }

end Pool

/-! ### Clients -/

/-- The pool with the blocks that clients have, those that they gave back and that were not handed
out again, and the ranges that `new` gave for chunks. -/
structure Client where
  pool : Pool
  live : List Block
  freed : List Block
  given : List Block

namespace Client

/-- What clients do. -/
inductive Op
  /-- a block; `new` gives a chunk at `bottom` if one is made -/
  | allocate (size bottom : ℕ)
  | deallocate (b : Block)
  /-- a byte is written -/
  | write (x : ℕ) (v : UInt8)
  deriving DecidableEq, Repr

/-- The bytes that a request of this size asks of `new`. -/
def requested (s : Client) (size : ℕ) : Option ℕ :=
  ((s.pool.chunks size).getD (ChunkGroup.new size)).requested

/-- An operation. -/
def run (s : Client) : Op → Exec Client
  | .allocate size bottom => do
    let (pool, ret) ← s.pool.allocate size bottom
    let b : Block := ⟨Memory.ofPtr ret, size⟩
    return {
      pool := pool
      live := b :: s.live
      freed := s.freed.erase b
      given := ((s.requested size).map (Block.mk bottom)).toList ++ s.given }
  | .deallocate b => do
    let pool ← s.pool.deallocate b.addr b.size
    return { s with pool := pool, live := s.live.erase b, freed := b :: s.freed }
  | .write x v => return { s with pool.mem := Function.update s.pool.mem x v }

/-- What `new` promises of the range that it gives: it is not null, it is below the addresses of the
kernel, and it is apart from the ranges that were given before. -/
def Fresh (s : Client) (r : Block) : Prop :=
  0 < r.addr ∧ r.addr + r.size ≤ 2 ^ 63 ∧ ∀ r' ∈ s.given, r.Apart r'

/-- Clients give back blocks that they have, and write into these; the sizes are those that the
program asks for. -/
def Legal (sizes : Set ℕ) (s : Client) : Op → Prop
  | .allocate size bottom =>
    size ∈ sizes ∧ ∀ total, s.requested size = some total → s.Fresh ⟨bottom, total⟩
  | .deallocate b => b ∈ s.live
  | .write x _ => ∃ b ∈ s.live, b.Has x

/-- The runs of clients that ask for blocks of these sizes, from an empty pool on. -/
def system (sizes : Set ℕ) : System Client where
  init s := (∀ n, s.pool.chunks n = none) ∧ s.live = [] ∧ s.freed = [] ∧ s.given = []
  step s s' := ∃ op, Legal sizes s op ∧ s.run op = .ok s'

/-- The live blocks lie in chunks of their groups and are apart from one another, and the list of
free objects of each group has exactly the freed blocks of its size. -/
structure Sound (s : Client) : Prop where
  inside : ∀ b ∈ s.live, ∃ g, s.pool.chunks b.size = some g ∧ ∃ r ∈ g.regions, b.Inside r
  apart : s.live.Pairwise Block.Apart
  free : ∀ n, ∃ l, Chain s.pool.mem.wordNext ((s.pool.chunks n).bind ChunkGroup.freeObjs) l ∧
    l.Perm ((s.freed.filter (·.size = n)).map Block.addr)

/-- The bytes of the blocks that stay live are as before, unless a client writes. -/
def Keeps (s : Client) (op : Op) (s' : Client) : Prop :=
  (∀ x v, op ≠ .write x v) →
    ∀ b ∈ s.live, b ∈ s'.live → ∀ x, b.Has x → s'.pool.mem x = s.pool.mem x

/-- No memory in use is handed out or damaged: the state is sound, and what clients may do next
succeeds and keeps the bytes of the live blocks. -/
def Safe (sizes : Set ℕ) (s : Client) : Prop :=
  Sound s ∧ ∀ op, Legal sizes s op → ∃ s', s.run op = .ok s' ∧ Keeps s op s'

end Client

end Meld.Mem
