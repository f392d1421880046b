import Eecs343.Base.Bytes
import Eecs343.Base.Effect

namespace Eecs343.Kma

open Bytes Effect

/-- The target the allocators are compiled for: pointers and `long` of four or of eight bytes. A
    pointer is modelled by its value as a `long int`, the type the sources compare pointers in. -/
class Target where
  ptr : Nat
  ptr_cases : ptr = 4 ∨ ptr = 8

export Target (ptr)

theorem ptr_bounds [Target] : (4 : Int) ≤ ptr ∧ (ptr : Int) ≤ 8 := by
  rcases Target.ptr_cases with h | h <;> simp [h]

/-- `BASEADDR(x)`, the mask `~(PAGESIZE-1)` of the page size 8192. -/
def baseAddr (x : Int) : Int := x - x % 8192

/-- Why a call does not return. A pointer walk longer than `fuel` has met a node twice. -/
inductive Stop where
  | nullDereference
  | allPagesAllocated
  | assertion
  | diverges
  deriving DecidableEq

/-- The memory and the variables of an allocator and of the page allocator under it. The record
    behind a `kma_page_t *` never changes and stands for one page: the pointer is modelled by the
    address `ptr` of the page. `supply` holds what `get_page` will hand out, each page with the link
    found in its first word; `pages` and `headers` are history: the pages in use, and the places
    where a `blockheaderT` has been written. -/
structure Machine where
  memory : Memory
  firstPage : Int
  nextFreePage : Int
  numRequested : Int
  numFreed : Int
  numInUse : Int
  supply : List (Int × Int)
  pages : List Int
  headers : List Int

abbrev C (α : Type) := Comp Machine Stop α

/-- More steps than there are addresses. -/
def fuel : Nat := 2 ^ 64

/-- Reads the `n`-byte field at `offset` of the record `p` points to. -/
def read (n : Nat) (p : Int) (offset : Int) : C Int := do
  if p = 0 then throw .nullDereference
  return load (← get).memory n (p + offset)

def write (n : Nat) (p : Int) (offset v : Int) : C Unit := do
  if p = 0 then throw .nullDereference
  modify fun s => { s with memory := store s.memory n (p + offset) v }

section

variable [Target]

abbrev readPtr (p : Int) (offset : Int) : C Int := read ptr p offset
abbrev writePtr (p : Int) (offset : Int) (v : Int) : C Unit := write ptr p offset v
abbrev readInt (p : Int) (offset : Int) : C Int := read 4 p offset
abbrev writeInt (p : Int) (offset v : Int) : C Unit := write 4 p offset v
abbrev readShort (p : Int) (offset : Int) : C Int := read 2 p offset
abbrev writeShort (p : Int) (offset v : Int) : C Unit := write 2 p offset v

/-- The variables after `get_page` has handed out `page`. -/
def Machine.grant (s : Machine) (page link : Int) (rest : List (Int × Int)) : Machine :=
  { s with
    numRequested := s.numRequested + 1
    numInUse := s.numInUse + 1
    nextFreePage := link
    supply := rest
    pages := page :: s.pages }

/-- The variables after `free_page` has taken `page` back. -/
def Machine.reclaim (s : Machine) (page : Int) : Machine :=
  { s with
    numFreed := s.numFreed + 1
    numInUse := s.numInUse - 1
    nextFreePage := if s.numInUse - 1 = 0 then 0 else page
    pages := s.pages.erase page }

def getPage : C Int := do
  match (← get).supply with
  | [] => throw .allPagesAllocated
  | (res, link) :: rest =>
    modify fun s => s.grant res link rest
    return res

def freePage (page : Int) : C Unit := do
  let s ← get
  if page = 0 ∨ s.numInUse ≤ 0 then throw .assertion
  writePtr page 0 s.nextFreePage
  modify fun s => s.reclaim page

end

variable {s : Machine} {exc : Stop → Prop}

theorem wp_read {n : Nat} {p : Int} {offset : Int} {post : Int → Machine → Prop}
    (nonzero : p ≠ 0) (h : post (load s.memory n (p + offset)) s) : wp (read n p offset) post exc s := by
  simpa [read, nonzero] using h

theorem wp_write {n : Nat} {p : Int} {offset v : Int} {post : Unit → Machine → Prop} (nonzero : p ≠ 0)
    (h : post () { s with memory := store s.memory n (p + offset) v }) : wp (write n p offset v) post exc s := by
  simpa [write, nonzero] using h

theorem wp_getPage {post : Int → Machine → Prop} (exhausted : s.supply = [] → exc .allPagesAllocated)
    (h : ∀ res link rest, s.supply = (res, link) :: rest → post res (s.grant res link rest)) :
    wp getPage post exc s := by
  rcases left : s.supply with _ | ⟨⟨res, link⟩, rest⟩
  · simpa [getPage, left] using exhausted left
  · simpa [getPage, left] using h res link rest left

theorem wp_freePage [Target] {page : Int} {post : Unit → Machine → Prop} (nonzero : page ≠ 0)
    (used : 0 < s.numInUse)
    (h : post () { s.reclaim page with memory := store s.memory ptr page s.nextFreePage }) :
    wp (freePage page) post exc s := by
  simpa [freePage, nonzero, Int.not_le.mpr used, write, Machine.reclaim] using h

section

variable [Target]

/-- The address of a page: aligned, not NULL, and with the whole page inside the address space. -/
structure Legal (base : Int) : Prop where
  aligned : base % 8192 = 0
  nonzero : base ≠ 0
  low : -(256 ^ ptr : Nat) ≤ 2 * base
  high : 2 * (base + 8192) ≤ (256 ^ ptr : Nat)

theorem Legal.fits {base x : Int} (legal : Legal base) (low : base ≤ x) (high : x < base + 8192) : Fits ptr x := by
  have := legal.low
  have := legal.high
  exact ⟨by omega, by omega⟩

theorem Legal.ne_zero {base x : Int} (legal : Legal base) (low : base ≤ x) (high : x < base + 8192) : x ≠ 0 := by
  have := legal.aligned
  have := legal.nonzero
  omega

theorem Legal.baseAddr {base x : Int} (legal : Legal base) (low : base ≤ x) (high : x < base + 8192) :
    baseAddr x = base := by
  have := legal.aligned
  unfold Kma.baseAddr
  omega

theorem Legal.apart {a b : Int} (left : Legal a) (right : Legal b) (ne : a ≠ b) : a + 8192 ≤ b ∨ b + 8192 ≤ a := by
  have := left.aligned
  have := right.aligned
  omega

/-- What `get_page` may hand out: pages not in use, each once. -/
structure Offered (s : Machine) : Prop where
  legal : ∀ offer ∈ s.supply, Legal offer.1
  unused : ∀ offer ∈ s.supply, offer.1 ∉ s.pages
  distinct : (s.supply.map Prod.fst).Nodup

theorem Offered.grant {s : Machine} {page link : Int} {rest : List (Int × Int)} (offered : Offered s)
    (left : s.supply = (page, link) :: rest) :
    Offered (s.grant page link rest) := by
  have distinct := offered.distinct
  rw [left, List.map_cons, List.nodup_cons] at distinct
  refine ⟨fun offer member => offered.legal offer (left ▸ List.mem_cons_of_mem _ member), ?_, distinct.2⟩
  intro offer member inUse
  change offer ∈ rest at member
  rcases List.mem_cons.mp inUse with same | inUse
  · have other := List.mem_map_of_mem (f := Prod.fst) member
    rw [same] at other
    exact distinct.1 other
  · exact offered.unused offer (left ▸ List.mem_cons_of_mem _ member) inUse

end

end Eecs343.Kma
