import LsmStore.Arena.Chunk
import LsmStore.Failure

/-!
# Arenas

An arena hands out regions of zeroed bytes that it carves from the front of large
blocks.  It never takes a region back.  A request that fits what is left of the
current block is carved from it.  Otherwise a request of more than a quarter of
a block gets a block of its own, so that the current block can still serve
smaller ones, and any other request starts a new current block and abandons what
was left of the old one.

Two things are taken for granted of the memory below an arena.  A block that is
obtained has as many bytes as were asked for, all of them zero, and shares none
with another block; `Arena.obtain` says so.  And a region can be cut in two where it
lies, without moving a byte; `Region.front` and `Region.behind` are its two parts.
-/

namespace LsmStore

/-- A range of bytes in one block of an arena. -/
structure Region where
  block : Nat
  /-- The first byte in that block. -/
  start : Nat
  length : Nat
  deriving DecidableEq, Repr

namespace Region

/-- The first bytes of a region, when it is cut in two. -/
def front (region : Region) (size : Nat) : Region :=
  ⟨region.block, region.start, size⟩

/-- What is left behind the first bytes of a region, when it is cut in two. -/
def behind (region : Region) (size : Nat) : Region :=
  ⟨region.block, region.start + size, region.length - size⟩

end Region

/-- An allocator that carves regions from blocks. -/
structure Arena where
  blockSize : Nat
  blockSize_pos : 0 < blockSize
  /-- The contents of all blocks, in the order in which they were obtained. -/
  blocks : Array Arena.Chunk
  /-- What is unused of the current block. -/
  spare : Region
  /-- The total size of the blocks, added up as they are obtained. -/
  memoryUsage : Nat
  /-- The number of the blocks, counted as they are obtained. -/
  blockCount : Nat

namespace Arena

def defaultBlockSize : Nat := 4096

def ofBlockSize (blockSize : Nat) (hpositive : 0 < blockSize) : Arena where
  blockSize := blockSize
  blockSize_pos := hpositive
  blocks := #[]
  spare := ⟨0, 0, 0⟩
  memoryUsage := 0
  blockCount := 0

/-- An arena for blocks of any size, refused for blocks without bytes. -/
def make (blockSize : Nat) : Except Fault Arena :=
  if hpositive : 0 < blockSize then .ok (ofBlockSize blockSize hpositive)
  else .error .emptyArenaBlock

/-- How a request is served. -/
inductive Service where
  /-- From the front of what is unused of the current block. -/
  | carved
  /-- By a block of its own. -/
  | dedicated
  /-- From the front of a new current block. -/
  | renewed
  deriving DecidableEq, Repr

def service (arena : Arena) (size : Nat) : Service :=
  if size ≤ arena.spare.length then .carved
  else if arena.blockSize / 4 < size then .dedicated
  else .renewed

/-- A zeroed block beside some others; the region is the whole of it. -/
def obtain (blocks : Array Chunk) (size : Nat) : Region × Array Chunk :=
  (⟨blocks.size, 0, size⟩, blocks.push (Chunk.zeroed size))

def addBlock (arena : Arena) (size : Nat) : Region × Arena :=
  let (whole, blocks) := obtain arena.blocks size
  (whole,
    { arena with
      blocks := blocks
      memoryUsage := arena.memoryUsage + size
      blockCount := arena.blockCount + 1 })

@[simp]
theorem whole_addBlock
    (arena : Arena) (size : Nat) :
    (arena.addBlock size).1 = ⟨arena.blocks.size, 0, size⟩ :=
  rfl

@[simp]
theorem blocks_addBlock
    (arena : Arena) (size : Nat) :
    (arena.addBlock size).2.blocks = arena.blocks.push (Chunk.zeroed size) :=
  rfl

/-- Takes a region from the front of the unused part of the current block. -/
def carve (arena : Arena) (size : Nat) : Region × Arena :=
  (arena.spare.front size, { arena with spare := arena.spare.behind size })

def withSpare (arena : Arena) (spare : Region) : Arena :=
  { arena with spare := spare }

/-- Hands out a region of exactly `size` zeroed bytes. -/
def allocate (arena : Arena) (size : Nat) : Except Fault (Region × Arena) :=
  if size = 0 then .error .emptyAllocation
  else
    match arena.service size with
    | .carved => .ok (arena.carve size)
    | .dedicated => .ok (arena.addBlock size)
    | .renewed =>
      let (whole, arena) := arena.addBlock arena.blockSize
      .ok ((arena.withSpare whole).carve size)

def read (arena : Arena) (region : Region) : Bytes :=
  match arena.blocks[region.block]? with
  | some chunk => chunk.read region.start region.length
  | none => []

/-- Writes from the front of a region; what does not fit in it is left out. -/
def write (arena : Arena) (region : Region) (bytes : Bytes) : Arena :=
  { arena with
    blocks := arena.blocks.modify region.block fun chunk =>
      chunk.write region.start region.length bytes }

end Arena

end LsmStore
