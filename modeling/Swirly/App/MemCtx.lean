import Swirly.App.MemPool

/-!
# The memory context

`app/MemCtx.cpp` on the pool of `app/MemPool.hpp`: blocks of seven sizes are carved from the front of the storage, and a
block that is given back goes on the free list of a size.  The constructor maps fresh pages, which are zero.
-/

namespace Swirly

/-- The free lists, named for the cache lines of their blocks. -/
inductive SizeClass where
  | free1 | free2 | free3 | free4 | free8 | free16 | free32
  deriving DecidableEq

namespace SizeClass

/-- The size of a node. -/
def size : SizeClass → MemSize
  | free1 => 64
  | free2 => 128
  | free3 => 192
  | free4 => 256
  | free8 => 512
  | free16 => 1024
  | free32 => 2048

end SizeClass

structure MemPool where
  free : SizeClass → MemStack
  /-- The end of the blocks carved so far. -/
  offset : MemSize
  /-- The storage, by the first words of blocks. -/
  next : MemSize → MemLink

namespace MemPool

variable (pool : MemPool)

def make : MemPool := { free := fun _ => { head := 0, tag := 0 }, offset := 0, next := fun _ => 0 }

def setFree (k : SizeClass) (stack : MemStack) : MemPool := { pool with free := Function.update pool.free k stack }

/-- The new offset is 32 bits wide. -/
def reserve (size maxSize : MemSize) : Option (MemPool × MemSize) :=
  let newOffset := pool.offset + size
  if newOffset > maxSize then none else some ({ pool with offset := newOffset }, pool.offset)

/-- No block stands for `bad_alloc`. -/
def allocBlock (k : SizeClass) (maxSize : MemSize) : MemPool × Option MemSize :=
  match MemStack.pop pool.next (pool.free k) with
  | (stack, some node) => (pool.setFree k stack, some node)
  | (stack, none) =>
    match (pool.setFree k stack).reserve k.size maxSize with
    | none => (pool.setFree k stack, none)
    | some (pool, offset) => (pool, some offset)

def deallocBlock (k : SizeClass) (addr : MemSize) : MemPool :=
  let (next, stack) := MemStack.push pool.next (pool.free k) addr
  { pool with next }.setFree k stack

/-- The owner of a block writes to its words. -/
def write (addr : MemSize) (size : UInt64) (words : MemSize → MemLink) : MemPool :=
  { pool with next := fun node =>
      if addr ≤ node ∧ node.toNat < addr.toNat + size.toNat then words node else pool.next node }

end MemPool

structure MemCtx where
  maxSize : UInt64
  pool : MemPool

namespace MemCtx

/-- `next_pow2` of an `unsigned long`.  The number that it shifts is an `int`: a shift by 31 gives the least `int`, and
the result of a greater shift is undefined. -/
def nextPow2 (n : UInt64) : Option UInt64 :=
  if n ≤ 1 then some 1
  else
    let bits := (n - 1).toNat.log2 + 1
    if bits < 31 then some (1 <<< UInt64.ofNat bits)
    else if bits = 31 then some 0xffffffff80000000
    else none

/-- The cases of a switch on the power of two. -/
def switch (cacheLines pow2 : UInt64) : Option SizeClass :=
  if pow2 = 1 then some .free1
  else if pow2 = 2 then some .free2
  else if pow2 = 4 then
    if cacheLines = 3 then some .free3 else some .free4
  else if pow2 = 8 then some .free8
  else if pow2 = 16 then some .free16
  else if pow2 = 32 then some .free32
  else none

variable (ctx : MemCtx)

def make (maxSize : UInt64) : MemCtx := { maxSize, pool := .make }

/-- Round up to whole cache lines.  No result at all stands for undefined behaviour. -/
def alloc (size : UInt64) : Option (MemCtx × Option MemSize) :=
  let cacheLines := (size + 63) >>> 6
  (nextPow2 cacheLines).map fun pow2 =>
    match switch cacheLines pow2 with
    | none => (ctx, none)
    | some k =>
      let (pool, addr) := ctx.pool.allocBlock k ctx.maxSize.toUInt32
      ({ ctx with pool }, addr)

/-- Round down to whole cache lines.  No result stands for a call of `abort`, or for undefined behaviour. -/
def dealloc (addr : MemSize) (size : UInt64) : Option MemCtx :=
  let cacheLines := size >>> 6
  (nextPow2 cacheLines).bind fun pow2 =>
    (switch cacheLines pow2).map fun k => { ctx with pool := ctx.pool.deallocBlock k addr }

end MemCtx

/-- A context and the blocks that its user holds. -/
structure MemClient where
  ctx : MemCtx
  /-- The blocks with the sizes asked for. -/
  live : List (MemSize × UInt64)
  /-- The blocks that have been carved with their sizes, the latest first. -/
  blocks : List (MemSize × MemSize)

namespace MemClient

inductive Op where
  | alloc (size : UInt64)
  /-- Give a block back with the size that was asked for. -/
  | dealloc (addr : MemSize) (size : UInt64)
  | write (addr : MemSize) (size : UInt64) (words : MemSize → MemLink)

def make (maxSize : UInt64) : MemClient := { ctx := .make maxSize, live := [], blocks := [] }

variable (s : MemClient)

/-- The size of a block. -/
def capacity (addr : MemSize) : Nat := ((s.blocks.lookup addr).map UInt32.toNat).getD 0

/-- A context has allocated, and has carved a block if its offset has moved. -/
def allocated (ctx : MemCtx) (size : UInt64) : Option MemSize → MemClient
  | none => { s with ctx }
  | some addr =>
    { ctx
      live := (addr, size) :: s.live
      blocks :=
        if ctx.pool.offset = s.ctx.pool.offset then s.blocks
        else (addr, ctx.pool.offset - s.ctx.pool.offset) :: s.blocks }

/-- The user gives back and writes to blocks that it holds. -/
def step : Op → Option MemClient
  | .alloc size => (s.ctx.alloc size).map fun (ctx, addr) => s.allocated ctx size addr
  | .dealloc addr size =>
    if (addr, size) ∈ s.live then
      (s.ctx.dealloc addr size).map fun ctx => { s with ctx, live := s.live.erase (addr, size) }
    else none
  | .write addr size words =>
    if (addr, size) ∈ s.live then some { s with ctx := { s.ctx with pool := s.ctx.pool.write addr size words } }
    else none

end MemClient

end Swirly
