import Eecs343.Kma.Machine

namespace Eecs343.Kma.ResourceMap

open Effect

variable [Target]

/-- `sizeof(blockheaderT)`: `size` at 0, `next_block` at one pointer. -/
def sizeofBlockheader : Int := 2 * ptr

/-- `REAL_PAGE_SIZE`. It is a `size_t`, and makes one of what it is compared with. -/
def realPageSize : Int := 8192 - sizeofBlockheader

/-- The conversion to `short`. -/
def short (x : Int) : Int := x.bmod (2 ^ 16)

/-- `FIRST_PAGE_BLOCK`: the first word of the first page. -/
def firstPageBlock : C Int := do readPtr (← get).firstPage 0

def setFirstPageBlock (block : Int) : C Unit := do writePtr (← get).firstPage 0 block

/-- Fills in a new `blockheaderT`. -/
def writeHeader (block size next : Int) : C Unit := do
  modify fun s => { s with headers := block :: s.headers }
  writeShort block 0 size
  writePtr block ptr next

/-- `previous_block == NULL` stands for the head of the list. -/
def setNext (previous block : Int) : C Unit :=
  if previous = 0 then setFirstPageBlock block else writePtr previous ptr block

def updateMallocHeaders (size current previous : Int) : C Unit := do
  let newNext ← readPtr current ptr
  let newSize := short ((← readShort current 0) - size)
  writeHeader (current + size) newSize newNext
  setNext previous (current + size)

/-- The loop of `new_page` that looks for the place of the new header. -/
def insertHeader : Nat → Int → Int → Int → C Unit
  | 0, _, _, _ => throw .diverges
  | n + 1, header, current, previous => do
    if current = 0 then return
    if current > header then
      writePtr previous ptr header
      writePtr header ptr current
    else
      let next ← readPtr current ptr
      if next = 0 then writePtr current ptr header
      else insertHeader n header next current

def newPage (size : Int) : C Int := do
  let page ← getPage
  writePtr page 0 page
  let header := page + ptr + size
  writeHeader header (realPageSize - size) 0
  insertHeader fuel header (← firstPageBlock) 0
  return page + ptr

/-- The loop of `find_first_fit`. A difference below zero is a large `size_t`. -/
def searchFit : Nat → Int → Int → Int → C Int
  | 0, _, _, _ => throw .diverges
  | n + 1, size, current, previous => do
    if current = 0 then newPage size
    else
      let blockSize ← readShort current 0
      if (blockSize - size) % 256 ^ ptr < sizeofBlockheader then
        searchFit n size (← readPtr current ptr) current
      else if size < blockSize then
        updateMallocHeaders size current previous
        return current
      else
        searchFit n size (← readPtr current ptr) current

def findFirstFit (size : Int) : C Int := do searchFit fuel size (← firstPageBlock) 0

def kmaMalloc (size : Int) : C Int := do
  if (← get).firstPage = 0 then
    let page ← getPage
    modify fun s => { s with firstPage := page }
    writeHeader (page + ptr) realPageSize 0
    setFirstPageBlock (page + ptr)
  if size % 256 ^ ptr > realPageSize then return 0
  findFirstFit (short size)

/-- The loop of `kma_free`: a block beyond the last free one is not linked at all. -/
def insertFreed : Nat → Int → Int → Int → Int → C Unit
  | 0, _, _, _, _ => throw .diverges
  | n + 1, p, size, current, previous => do
    if current ≠ 0 then
      if current > p then
        writeHeader p (short size) current
        setNext previous p
      else
        insertFreed n p size (← readPtr current ptr) current

def coalesceFrom : Nat → Int → C Unit
  | 0, _ => throw .diverges
  | n + 1, current => do
    if current ≠ 0 then
      let next ← readPtr current ptr
      if next ≠ 0 ∧ baseAddr current = baseAddr next ∧ next - (current + (← readShort current 0)) = 0 then
        writeShort current 0 ((← readShort current 0) + (← readShort next 0))
        writePtr current ptr (← readPtr next ptr)
        coalesceFrom n current
      else
        coalesceFrom n next

def coalesce : C Unit := do coalesceFrom fuel (← firstPageBlock)

/-- Takes an empty page off the list and gives it back; `true` when it was the last page. -/
def releasePage (current previous : Int) : C Bool := do
  let page := baseAddr current
  let next ← readPtr current ptr
  if page ≠ (← get).firstPage then
    setNext previous next
    freePage (← readPtr page 0)
    return false
  else if next ≠ 0 then
    let temp := (← get).firstPage
    let first ← readPtr (baseAddr next) 0
    modify fun s => { s with firstPage := first }
    setFirstPageBlock next
    freePage temp
    return false
  else
    freePage (← get).firstPage
    modify fun s => { s with firstPage := 0 }
    return true

def clearFrom : Nat → Int → Int → C Unit
  | 0, _, _ => throw .diverges
  | n + 1, current, previous => do
    if current ≠ 0 then
      let blockSize ← readShort current 0
      if blockSize % 256 ^ ptr = realPageSize then
        if ← releasePage current previous then return
      clearFrom n (← readPtr current ptr) current

def clearEmptyPages : C Unit := do clearFrom fuel (← firstPageBlock) 0

def kmaFree (p size : Int) : C Unit := do
  insertFreed fuel p size (← firstPageBlock) 0
  coalesce
  clearEmptyPages

end Eecs343.Kma.ResourceMap
