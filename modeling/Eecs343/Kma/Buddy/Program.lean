import Eecs343.Kma.Machine

namespace Eecs343.Kma.Buddy

open Effect

variable [Target]

/-- `sizeof(allocheaderT)`: `start` at 0, `size` at one pointer, `next` at two. -/
def sizeofAllocheader : Int := 3 * ptr

/-- `sizeof(pageheaderT)`: `page` at 0, `next` at one pointer, nine lists of two pointers from two
    pointers on, then `used`. -/
def sizeofPageheader : Int := 21 * ptr

/-- `REALSIZE(size)`. The sum is a `size_t`, as are the sums it stands in. -/
def realSize (size : Int) : Int := (size + sizeofAllocheader) % 256 ^ ptr

/-- `PAGE_HEADER(page)`. -/
def pageHeader (page : Int) : Int := page + sizeofAllocheader

/-- `ALLOC_START(ptr)`. -/
def allocStart (block : Int) : Int := block + sizeofAllocheader

def roundUp (x : Int) : Int :=
  let x := BitVec.ofInt 32 x - 1
  let x := x ||| x.sshiftRight 1
  let x := x ||| x.sshiftRight 2
  let x := x ||| x.sshiftRight 4
  let x := x ||| x.sshiftRight 8
  let x := x ||| x.sshiftRight 16
  let x := x + 1
  if x.toInt < 32 then 32 else x.toInt

/-- `&page_header->free_headers.buffer<32 * 2 ^ k>`: `first_block` at 0, `bigger_size` at one pointer. -/
def buffer (header : Int) (k : Nat) : Int := header + 2 * ptr + 2 * ptr * k

/-- The ladder of `get_required_buffer`. -/
def sizeClass (size : Int) : Nat :=
  if size ≤ 32 then 0
  else if size ≤ 64 then 1
  else if size ≤ 128 then 2
  else if size ≤ 256 then 3
  else if size ≤ 512 then 4
  else if size ≤ 1024 then 5
  else if size ≤ 2048 then 6
  else if size ≤ 4096 then 7
  else 8

def getRequiredBuffer (size : Int) (header : Int) : Int :=
  if header = 0 then 0 else buffer header (sizeClass size)

/-- The walk of `split_buffer` to the last block of a list. -/
def lastBlock : Nat → Int → C Int
  | 0, _ => throw .diverges
  | n + 1, current => do
    let next ← readPtr current (2 * ptr)
    if next = 0 then return current
    lastBlock n next

def splitBuffer (bufferSize header : Int) : C Int := do
  let original ← readPtr bufferSize 0
  writePtr bufferSize 0 (← readPtr original (2 * ptr))
  let newSize := (← readInt original ptr).tdiv 2
  let newBuffer := original + newSize
  writeInt newBuffer ptr newSize
  writePtr newBuffer 0 (allocStart newBuffer)
  writePtr newBuffer (2 * ptr) 0
  writeInt original ptr newSize
  writePtr original (2 * ptr) newBuffer
  let newBufferSize := getRequiredBuffer newSize header
  let current ← readPtr newBufferSize 0
  if current = 0 then
    writePtr newBufferSize 0 original
  else
    writePtr (← lastBlock fuel current) (2 * ptr) original
  return newBufferSize

/-- `for(; i > 0; i--) buffer_size = split_buffer(buffer_size, page_header);` -/
def splitTimes : Nat → Int → Int → C Int
  | 0, bufferSize, _ => return bufferSize
  | i + 1, bufferSize, header => do splitTimes i (← splitBuffer bufferSize header) header

def getBuddy (block : Int) : C Int := do
  let size ← readInt block ptr
  if (block - baseAddr block).tdiv size % 2 ≠ 0 then return block - size
  return block + size

/-- The inner loop of `coalesce`: the first block whose buddy follows it on its list, or NULL. -/
def findPair : Nat → Int → C Int
  | 0, _ => throw .diverges
  | n + 1, block => do
    if block = 0 then return 0
    let next ← readPtr block (2 * ptr)
    if next ≠ 0 then
      if (← getBuddy block) = next then return block
    findPair n next

/-- The outer loop of `coalesce`: the first list with such a block, and the block. -/
def findBuffer : Nat → Int → C (Int × Int)
  | 0, _ => throw .diverges
  | n + 1, list => do
    if list = 0 then return (0, 0)
    let block ← findPair fuel (← readPtr list 0)
    if block ≠ 0 then return (list, block)
    findBuffer n (← readPtr list ptr)

/-- `coalesce(page)`, over the `kma_free` it calls. Its `prev` is NULL throughout. -/
def coalesce (kmaFree : Int → Int → C Unit) (header : Int) : C Unit := do
  let (list, block) ← findBuffer fuel (getRequiredBuffer 1 header)
  if block ≠ 0 then
    let next ← readPtr block (2 * ptr)
    writePtr list 0 (← readPtr next (2 * ptr))
    writeInt header (20 * ptr) ((← readInt header (20 * ptr)) + 1)
    kmaFree block ((← readInt block ptr) * 2)

/-- The loop of `kma_free` that looks for the place of a block behind the first of its list. -/
def insertAfter : Nat → Int → Int → C Unit
  | 0, _, _ => throw .diverges
  | n + 1, block, newAlloc => do
    let next ← readPtr block (2 * ptr)
    if next ≠ 0 then
      if next > newAlloc then
        writePtr newAlloc (2 * ptr) next
        writePtr block (2 * ptr) newAlloc
      else
        insertAfter n next newAlloc

/-- The loop of `kma_free` that looks for the page before the one to be released. -/
def previousPage : Nat → Int → Int → Int → C Int
  | 0, _, _, _ => throw .diverges
  | n + 1, temp, prev, header =>
    if temp ≠ header then do
      previousPage n (← readPtr temp ptr) temp header
    else return prev

/-- The end of `kma_free`, once the page has no allocated block left. -/
def releasePage (header : Int) : C Unit := do
  let first := (← get).firstPage
  let page ← readPtr header 0
  let next ← readPtr header ptr
  if page = first ∧ next ≠ 0 then
    let temp ← readPtr next 0
    freePage first
    modify fun s => { s with firstPage := temp }
  else if page = first then
    freePage first
    modify fun s => { s with firstPage := 0 }
  else
    let prev ← previousPage fuel (pageHeader first) 0 header
    writePtr prev ptr (← readPtr header ptr)
    freePage (← readPtr header 0)

/-- The first half of `kma_free`: the block at `block` joins the list of its class. -/
def insertBlock (coalesce : Int → C Unit) (block : Int) (size : Int) : C Unit := do
  let header := baseAddr block + sizeofAllocheader
  let list := getRequiredBuffer size header
  let first ← readPtr list 0
  if roundUp size ≠ 8192 then
    writePtr block 0 (allocStart block)
    writeInt block ptr (roundUp size)
    writePtr block (2 * ptr) 0
    if first = 0 then
      writePtr list 0 block
    else if first > block then
      writePtr block (2 * ptr) first
      writePtr list 0 block
    else
      insertAfter fuel first block
      coalesce header

def kmaFreeDepth : Nat → Int → Int → C Unit
  | 0, _, _ => throw .diverges
  | n + 1, block, size => do
    insertBlock (coalesce (kmaFreeDepth n)) block size
    let header := baseAddr block + sizeofAllocheader
    writeInt header (20 * ptr) ((← readInt header (20 * ptr)) - 1)
    if (← readInt header (20 * ptr)) = 0 then
      releasePage header

def kmaFree (block : Int) (size : Int) : C Unit := kmaFreeDepth fuel block size

/-- The nine assignments of a constant to the `first_block` fields. -/
def clearLists (header : Int) : Nat → C Unit
  | 0 => return
  | k + 1 => do
    clearLists header k
    writePtr (buffer header k) 0 0

/-- The assignments to the first eight `bigger_size` fields. -/
def linkLists (header : Int) : Nat → C Unit
  | 0 => return
  | k + 1 => do
    linkLists header k
    writePtr (buffer header k) ptr (buffer header (k + 1))

def initPage : C Int := do
  let page ← getPage
  let header := pageHeader page
  writePtr header 0 page
  writePtr header ptr 0
  writeInt header (20 * ptr) 0
  linkLists header 8
  writePtr (buffer header 8) ptr 0
  clearLists header 9
  writePtr page 0 (allocStart page)
  writeInt page ptr 8192
  writePtr page (2 * ptr) 0
  writePtr (buffer header 8) 0 page
  return page

/-- The inner loop of `get_free_buffer`, over the pages. It returns the page and the list it stops at. -/
def walkPages : Nat → Int → Int → Int → C (Int × Int)
  | 0, _, _, _ => throw .diverges
  | n + 1, searchSize, header, list => do
    if header = 0 then return (header, list)
    if (← readPtr list 0) = 0 then
      let next ← readPtr header ptr
      walkPages n searchSize next (getRequiredBuffer searchSize next)
    else return (header, list)

/-- The block a search ends with: split `i` times, unlinked and counted. -/
def takeBlock (i : Nat) (header list : Int) : C Int := do
  let list ← splitTimes i list header
  let block ← readPtr list 0
  writePtr list 0 (← readPtr block (2 * ptr))
  writeInt header (20 * ptr) ((← readInt header (20 * ptr)) + 1)
  return block

/-- The outer loop of `get_free_buffer`, over the sizes; NULL when no list has a block. -/
def searchBuffers : Nat → Nat → Int → Int → Int → C Int
  | 0, _, _, _, _ => throw .diverges
  | n + 1, i, searchSize, header, list =>
    if searchSize ≤ 8192 then do
      let (header, list) ← walkPages fuel searchSize header list
      if list = 0 then
        let header := pageHeader (← get).firstPage
        searchBuffers n (i + 1) (searchSize * 2) header (getRequiredBuffer (searchSize * 2) header)
      else takeBlock i header list
    else return 0

/-- The walk of `get_free_buffer` to the last page. -/
def lastPage : Nat → Int → Int → C Int
  | 0, _, _ => throw .diverges
  | n + 1, header, prev => do
    if header = 0 then return prev
    lastPage n (← readPtr header ptr) header

/-- The walk of `get_free_buffer` up the lists of a new page; the list and the number of steps. -/
def firstList : Nat → Nat → Int → C (Nat × Int)
  | 0, _, _ => throw .diverges
  | n + 1, i, list => do
    if list ≠ 0 then
      if (← readPtr list 0) = 0 then
        firstList n (i + 1) (← readPtr list ptr)
      else return (i, list)
    else return (i, list)

/-- The new page of `get_free_buffer`, with the block of its header carved. -/
def appendPage : C Int := do
  let prev ← lastPage fuel (pageHeader (← get).firstPage) 0
  let header := pageHeader (← initPage)
  writePtr prev ptr header
  let (i, list) ← firstList fuel 0 (getRequiredBuffer sizeofPageheader header)
  let list ← splitTimes i list header
  let block ← readPtr list 0
  writePtr list 0 (← readPtr block (2 * ptr))
  return header

def getFreeBufferDepth : Nat → Int → C Int
  | 0, _ => throw .diverges
  | n + 1, size => do
    let header := pageHeader (← get).firstPage
    let searchSize := roundUp (realSize size)
    let block ← searchBuffers fuel 0 searchSize header (getRequiredBuffer searchSize header)
    if block ≠ 0 then return block
    let header ← appendPage
    if roundUp (realSize size) = 8192 then
      clearLists header 9
      writeInt header (20 * ptr) ((← readInt header (20 * ptr)) + 1)
      return header + sizeofPageheader
    getFreeBufferDepth n size

def getFreeBuffer (size : Int) : C Int := getFreeBufferDepth fuel size

def kmaMallocDepth : Nat → Int → C Int
  | 0, _ => throw .diverges
  | n + 1, size => do
    if (realSize size + sizeofPageheader) % 256 ^ ptr > 8192 then return 0
    if (← get).firstPage = 0 then
      let page ← initPage
      modify fun s => { s with firstPage := page }
      let _ ← kmaMallocDepth n sizeofPageheader
      writeInt (pageHeader (← get).firstPage) (20 * ptr) 0
    getFreeBuffer size

def kmaMalloc (size : Int) : C Int := kmaMallocDepth fuel size

end Eecs343.Kma.Buddy
