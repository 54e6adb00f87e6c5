import Toystar.Kernel.Lock
import Toystar.Klibc.Memory

/-!
# The kernel heap: a buddy allocator

The embedding of `kernel/memory/heap.cpp`.  A `Block` header sits at the start
of every block, `size` at offset 0 and `next` at offset 8; free blocks of order
`k` form a linked list through `next` whose head is `bucketList[20 - k]`.

Nothing here is abstracted: the lists live in memory, `try_to_merge` walks
and relinks them through a pointer to a pointer (`Slot`), `find_buddy`
restarts from the head and counts positions, and a null pointer that is
followed is a fault.
-/

namespace Toystar.Memory.Heap

open Toystar.Kernel
open Toystar.Klibc
open Toystar.Verified

/-- `MAX_POWER`: the order of the whole heap, one allocation of `INITIAL_PAGES`, 256,
frames. -/
def MAX_POWER : Nat := 20

/-- `MIN_POWER`. -/
def MIN_POWER : Nat := 4

/-- `sizeof(Block)`: two words and a padded `uint16_t`. -/
def sizeofBlock : Nat := 24

/-- Entries of the page that `bucketList` points to. -/
def bucketCount : Nat := 512

/-- More iterations than any free list has nodes: the smallest block spans
`2 ^ 5` of the heap's `2 ^ 20` bytes. -/
def listFuel : Nat := 2 ^ 15 + 2

/-- The allocator object, the array and the memory it points to, and the
global lock that guards them. -/
structure BuddyAllocator where
  mem : ByteMem
  bucketList : Nat → Nat
  baseAddr : Nat
  heapLock : Bool

namespace BuddyAllocator

/-! ## Header fields and list heads -/

/-- `block->size`. -/
def size (h : BuddyAllocator) (block : Nat) : Nat := h.mem.read64 block

/-- `block->next`. -/
def next (h : BuddyAllocator) (block : Nat) : Nat := h.mem.read64 (block + 8)

/-- `block->next` as an expression: a null `block` is followed. -/
def loadNext (h : BuddyAllocator) (block : Nat) : Except Fault Nat :=
  if block = 0 then .error .nullDeref else .ok (h.next block)

/-- `block->size` as an expression. -/
def loadSize (h : BuddyAllocator) (block : Nat) : Except Fault Nat :=
  if block = 0 then .error .nullDeref else .ok (h.size block)

/-- `block->size = v`. -/
def setSize (h : BuddyAllocator) (block v : Nat) : BuddyAllocator :=
  { h with mem := h.mem.write64 block v }

/-- `block->next = v`. -/
def setNext (h : BuddyAllocator) (block v : Nat) : BuddyAllocator :=
  { h with mem := h.mem.write64 (block + 8) v }

/-- `bucketList[index]` as an expression. -/
def bucket (h : BuddyAllocator) (index : Nat) : Except Fault Nat :=
  if index < bucketCount then .ok (h.bucketList index)
  else .error .outOfBounds

/-- `bucketList[index] = v` on an index that `bucket` has accepted. -/
def setBucket (h : BuddyAllocator) (index v : Nat) : BuddyAllocator :=
  { h with bucketList := Function.update h.bucketList index v }

/-- What a `Block**` of `try_to_merge` can point to. -/
inductive Slot
  | bucket (index : Nat)
  | nextOf (block : Nat)
deriving DecidableEq

/-- `*p`. -/
def load (h : BuddyAllocator) : Slot → Nat
  | .bucket index => h.bucketList index
  | .nextOf block => h.next block

/-- `*p = v`. -/
def store (h : BuddyAllocator) (p : Slot) (v : Nat) : BuddyAllocator :=
  match p with
  | .bucket index => h.setBucket index v
  | .nextOf block => h.setNext block v

end BuddyAllocator

open BuddyAllocator

/-! ## The constructor -/

/-- `BuddyAllocator::BuddyAllocator()`: one block of order 20 at `firstBlock`,
every other bucket null because `PMM::alloc` hands out zeroed frames. -/
def buddyAllocator (mem : ByteMem) (firstBlock : Nat) : BuddyAllocator :=
  let h : BuddyAllocator := ⟨mem, fun _ => 0, 0, false⟩
  let h := h.setBucket 0 firstBlock
  let h := h.setSize firstBlock (2 ^ MAX_POWER)
  let h := h.setNext firstBlock 0
  { h with baseAddr := firstBlock }

/-! ## `find_buddy` -/

/-- `index_from_order`: a `size_t` subtraction. -/
def indexFromOrder (order : Nat) : Nat := (2 ^ 64 + MAX_POWER - order) % 2 ^ 64

/-- `while (i--) curr = curr->next;` -/
def advance (h : BuddyAllocator) : Nat → Nat → Except Fault Nat
  | 0, curr => .ok curr
  | i + 1, curr => do
      let curr ← h.loadNext curr
      advance h i curr

/-- The search loop of `find_buddy`: the position of `buddy` in the list that
starts at `curr`, counting from `i`, or `-1`. -/
def positionFrom (h : BuddyAllocator) (buddy : Nat) :
    Nat → Nat → Nat → Except Fault Int
  | 0, _, _ => .error .fuel
  | fuel + 1, curr, i =>
      if curr = 0 then .ok (-1)
      else if curr = buddy then .ok i
      else do
        let curr ← h.loadNext curr
        positionFrom h buddy fuel curr (i + 1)

/-- `BuddyAllocator::find_buddy`: position of the buddy of the `i`-th block of
order `order`, or `-1`. -/
def findBuddy (h : BuddyAllocator) (order i : Nat) : Except Fault Int :=
  if order ≤ MIN_POWER then .ok (-1)
  else do
    let head ← h.bucket (indexFromOrder order)
    if head = 0 then .ok (-1)
    else do
      let curr ← advance h i head
      if curr = 0 then .ok (-1)
      else do
        let bit ← shiftOne order
        positionFrom h (curr ^^^ bit) listFuel head 0

/-! ## `split_block` -/

/-- The stores of `split_block`: both halves become blocks of size `half`, the
lower one first on the list `index + 1` whose old head is `below`. -/
def cutBlock (h : BuddyAllocator) (index block half below : Nat) :
    BuddyAllocator :=
  let block2 := block + half
  let h := h.setNext block2 below
  let h := h.setSize block2 half
  let h := h.setNext block block2
  let h := h.setSize block half
  h.setBucket (index + 1) block

/-- `BuddyAllocator::split_block`: cut the first block of order `order` in
two and put both halves, lower one first, on the list below.  The guard on
`order` in the source is a conjunction that no value satisfies. -/
def splitBlock (h : BuddyAllocator) (order : Nat) :
    Except Fault (Bool × BuddyAllocator) :=
  if order ≤ MIN_POWER ∧ order > MAX_POWER then .ok (false, h)
  else do
    let index := indexFromOrder order
    let block ← h.bucket index
    if block = 0 then .ok (false, h)
    else do
      let h := h.setBucket index (h.next block)
      let bit ← shiftOne order
      let below ← h.bucket (index + 1)
      .ok (true, cutBlock h index block (bit / 2) below)

/-! ## `try_to_merge` -/

/-- The `while (buddy--)` loop: walk to the block at position `buddy`, taking
`curr` out of the list when the walk passes it.  `p` is the slot that holds
`buddyBlock`. -/
def unlinkLoop (curr : Nat) :
    Nat → BuddyAllocator → Slot → Nat → Except Fault (BuddyAllocator × Slot × Nat)
  | 0, h, p, buddyBlock => .ok (h, p, buddyBlock)
  | buddy + 1, h, p, buddyBlock => do
      let after ← h.loadNext buddyBlock
      if h.load p = curr then unlinkLoop curr buddy (h.store p after) p after
      else unlinkLoop curr buddy h (.nextOf buddyBlock) after

/-- `index - 1` on `size_t`. -/
def predIndex (index : Nat) : Nat := (2 ^ 64 + index - 1) % 2 ^ 64

/-- `curr = curr->next; if (curr == buddyBlock) curr = curr->next;` -/
def stepPast (h : BuddyAllocator) (curr buddyBlock : Nat) : Except Fault Nat := do
  let curr ← h.loadNext curr
  if curr = buddyBlock then h.loadNext curr else .ok curr

/-- The tail of the merge branch: the lower of the two blocks becomes a block
of the next order at the head of its list. -/
def pushMerged (h : BuddyAllocator) (order index block : Nat) :
    Except Fault BuddyAllocator := do
  let bit ← shiftOne (order + 1)
  let h := h.setSize block bit
  let above ← h.bucket (predIndex index)
  let h := h.setNext block above
  .ok (h.setBucket (predIndex index) block)

/-- The branch of `try_to_merge` taken when `find_buddy` gave position
`buddy`: unlink both blocks, advance `curr` past them, push the union. -/
def mergeAt (h : BuddyAllocator) (order index curr buddy : Nat) :
    Except Fault (BuddyAllocator × Nat) := do
  let head ← h.bucket index
  let (h, p, buddyBlock) ← unlinkLoop curr buddy h (.bucket index) head
  let after ← h.loadNext buddyBlock
  let h := h.store p after
  let curr' ← stepPast h curr buddyBlock
  let h ← pushMerged h order index (if buddyBlock > curr then curr else buddyBlock)
  .ok (h, curr')

/-- The outer loop of `try_to_merge`; `i` counts iterations, which is the
position of `curr` only until the first merge. -/
def mergeLoop (order index : Nat) :
    Nat → BuddyAllocator → Nat → Nat → Bool → Except Fault (Bool × BuddyAllocator)
  | 0, _, _, _, _ => .error .fuel
  | fuel + 1, h, i, curr, merged =>
      if curr = 0 then .ok (merged, h)
      else do
        let buddy ← findBuddy h order i
        if 0 ≤ buddy then do
          let (h, curr) ← mergeAt h order index curr buddy.toNat
          mergeLoop order index fuel h (i + 1) curr true
        else do
          let curr ← h.loadNext curr
          mergeLoop order index fuel h (i + 1) curr merged

/-- `BuddyAllocator::try_to_merge`. -/
def tryToMerge (h : BuddyAllocator) (order : Nat) :
    Except Fault (Bool × BuddyAllocator) :=
  if order > MAX_POWER then .ok (false, h)
  else do
    let index := indexFromOrder order
    let curr ← h.bucket index
    mergeLoop order index listFuel h 0 curr false

/-! ## `kmalloc` -/

/-- `while ((1 << order) < size) order++;` -/
def orderLoop (size : Nat) : Nat → Nat → Except Fault Nat
  | 0, _ => .error .fuel
  | fuel + 1, order => do
      let bit ← shiftOne order
      if bit < size then orderLoop size fuel (order + 1) else .ok order

/-- The order search of `kmalloc` and `kfree`, both from order 4.  `kfree`
writes it with a post-increment and one decrement after the loop. -/
def orderOf (size : Nat) : Except Fault Nat := orderLoop size 29 4

/-- `while (!split_block(t++)) { if (t > MAX_POWER) return nullptr; }`: the
value of `t` after the loop, or `none` for the early return. -/
def splitSearch :
    Nat → BuddyAllocator → Nat → Except Fault (Option (Nat × BuddyAllocator))
  | 0, _, _ => .error .fuel
  | fuel + 1, h, t => do
      let (split, h) ← splitBlock h t
      if split then .ok (some (t + 1, h))
      else if t + 1 > MAX_POWER then .ok none
      else splitSearch fuel h (t + 1)

/-- `while (--t > order) split_block(t);` -/
def splitDown (order : Nat) : Nat → BuddyAllocator → Except Fault BuddyAllocator
  | 0, _ => .error .fuel
  | t + 1, h =>
      if t > order then do
        let (_, h) ← splitBlock h t
        splitDown order t h
      else .ok h

/-- The block search of `kmalloc` under the lock: `none` when no block is
large enough. -/
def refill (h : BuddyAllocator) (order : Nat) : Except Fault (Option BuddyAllocator) := do
  let head ← h.bucket (indexFromOrder order)
  if head = 0 then do
    match ← splitSearch (MAX_POWER + 1) h (order + 1) with
    | none => .ok none
    | some (t, h) => do
        let h ← splitDown order (t - 1) h
        .ok (some h)
  else .ok (some h)

/-- Take the head of the list of order `order`. -/
def popBucket (h : BuddyAllocator) (order : Nat) :
    Except Fault (Nat × BuddyAllocator) := do
  let index := indexFromOrder order
  let allocated ← h.bucket index
  let after ← h.loadNext allocated
  let h := h.setBucket index after
  .ok (allocated, h.setNext allocated 0)

/-- `BuddyAllocator::kmalloc`.  The early `return nullptr` leaves the lock
taken. -/
def kmalloc (h : BuddyAllocator) (bytes : Nat) :
    Except Fault (Nat × BuddyAllocator) := do
  let order ← orderOf ((bytes + sizeofBlock) % 2 ^ 64)
  let locked ← Lock.acquire h.heapLock
  let h := { h with heapLock := locked }
  match ← refill h order with
  | none => .ok (0, h)
  | some h => do
      let (allocated, h) ← popBucket h order
      .ok (allocated + sizeofBlock, { h with heapLock := Lock.release h.heapLock })

/-! ## `kfree` -/

/-- `while (order < MAX_POWER && try_to_merge(order++));` -/
def mergeUp : Nat → BuddyAllocator → Nat → Except Fault BuddyAllocator
  | 0, _, _ => .error .fuel
  | fuel + 1, h, order =>
      if order < MAX_POWER then do
        let (merged, h) ← tryToMerge h order
        if merged then mergeUp fuel h (order + 1) else .ok h
      else .ok h

/-- `BuddyAllocator::kfree`. -/
def kfree (h : BuddyAllocator) (ptr : Nat) : Except Fault BuddyAllocator :=
  if ptr < h.baseAddr ∨ ptr > h.baseAddr + 2 ^ MAX_POWER then .ok h
  else do
    let block := ptr - sizeofBlock
    let size ← h.loadSize block
    let order ← orderOf size
    let index := indexFromOrder order
    let locked ← Lock.acquire h.heapLock
    let h := { h with heapLock := locked }
    let head ← h.bucket index
    let h := h.setNext block head
    let h := h.setBucket index block
    let h ← mergeUp (MAX_POWER + 1) h order
    .ok { h with heapLock := Lock.release h.heapLock }

/-! ## `krealloc` -/

/-- The length of the copy in `krealloc`: `block->size` counts the header. -/
def copyLength (bytes size : Nat) : Nat := if bytes > size then size else bytes

/-- `BuddyAllocator::krealloc`: the result of `kmalloc` is used as it is. -/
def krealloc (h : BuddyAllocator) (ptr bytes : Nat) :
    Except Fault (Nat × BuddyAllocator) :=
  if ptr < h.baseAddr ∨ ptr > h.baseAddr + 2 ^ MAX_POWER then .ok (0, h)
  else do
    let (newPtr, h) ← kmalloc h bytes
    let size ← h.loadSize (ptr - sizeofBlock)
    if newPtr = 0 ∧ copyLength bytes size ≠ 0 then .error .nullDeref
    else do
      let h := { h with mem := memcpy h.mem newPtr ptr (copyLength bytes size) }
      let h ← kfree h ptr
      .ok (newPtr, h)

end Toystar.Memory.Heap
