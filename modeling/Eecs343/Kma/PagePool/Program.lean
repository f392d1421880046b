import Eecs343.Kma.Machine

namespace Eecs343.Kma.PagePool

open Bytes Effect

/-- Pages of 8192 bytes, the `PAGESIZE` of the source. -/
def MAXPAGES : Nat := 4096

/-- `kma_page_stat_t`. -/
structure Stat where
  numRequested : BitVec 32
  numFreed : BitVec 32
  numInUse : BitVec 32
  pageSize : BitVec 32

/-- `kma_page_t`, the record `get_page` allocates for a page it hands out. -/
structure Page where
  id : BitVec 32
  ptr : Int
  size : BitVec 32
  deriving DecidableEq

/-- The memory and the variables of the page allocator, `id` being the static counter of `get_page`. -/
structure Pool where
  memory : Memory
  stats : Stat
  pool : Int
  nextFreePage : Int
  id : BitVec 32

inductive Failure where
  | assertion
  | nullDereference
  | error (message arg : String)

abbrev P (α : Type) := Comp Pool Failure α

section

variable [Target]

/-- The pointer to the address `x`, which wraps around as addresses do. -/
def pointer (x : Int) : Int := Int.bmod x (256 ^ ptr : Nat)

/-- `*((void **) p)`. -/
def link (m : Memory) (p : Int) : Int := load m ptr p

def readLink (p : Int) : P Int := do
  if p = 0 then throw .nullDereference
  return link (← get).memory p

def writeLink (p v : Int) : P Unit := do
  if p = 0 then throw .nullDereference
  modify fun s => { s with memory := store s.memory ptr p v }

/-- The passes of the loop of `initPages` from `i` on, `left` of them. -/
def linkPages : (i left : Nat) → P Unit
  | _, 0 => return ()
  | i, left + 1 => do
    let p := pointer ((← get).pool + i * 8192)
    let next := pointer (p + 8192)
    writeLink p next
    linkPages (i + 1) left

/-- `region` is what `posix_memalign` stores in `pool`, or nothing where it fails. -/
def initPages (region : Option Int) : P Unit := do
  if (← get).nextFreePage ≠ 0 then throw .assertion
  if (← get).pool ≠ 0 then throw .assertion
  match region with
  | none => throw (.error "Error using posix_memalign to allocate memory" "")
  | some start =>
    modify fun s => { s with pool := start }
    modify fun s => { s with nextFreePage := s.pool }
    linkPages 0 (MAXPAGES - 1)
    writeLink (pointer ((← get).pool + (MAXPAGES - 1 : Nat) * 8192)) 0

/-- What `allocPage` does once there is a pool. -/
def takePage : P Int := do
  let res := (← get).nextFreePage
  if res = 0 then throw (.error "error: all pages already allocated" "")
  let next ← readLink (← get).nextFreePage
  modify fun s => { s with nextFreePage := next }
  if res = 0 then throw .assertion
  return res

def allocPage (region : Option Int) : P Int := do
  if (← get).pool = 0 then initPages region
  takePage

/-- `get_page`, whose `malloc` succeeds. -/
def getPage (region : Option Int) : P Page := do
  modify fun s => { s with stats.numRequested := s.stats.numRequested + 1 }
  modify fun s => { s with stats.numInUse := s.stats.numInUse + 1 }
  let id := (← get).id
  modify fun s => { s with id := s.id + 1 }
  let size := (← get).stats.pageSize
  let ptr ← allocPage region
  if ptr = 0 then throw .assertion
  return { id, ptr, size }

/-- `freePage`, which `free_page` calls to take the page back. -/
def freePagePtr (ptr : Int) : P Unit := do
  if ptr = 0 then throw .assertion
  writeLink ptr (← get).nextFreePage
  modify fun s => { s with nextFreePage := ptr }
  if (← get).stats.numInUse = 0 then
    modify fun s => { s with pool := 0 }
    modify fun s => { s with nextFreePage := 0 }

def freePage (page : Page) : P Unit := do
  if page.ptr = 0 then throw .assertion
  if (← get).stats.numInUse.toInt ≤ 0 then throw .assertion
  modify fun s => { s with stats.numFreed := s.stats.numFreed + 1 }
  modify fun s => { s with stats.numInUse := s.stats.numInUse - 1 }
  freePagePtr page.ptr

end

end Eecs343.Kma.PagePool
