import Nachos.Lib.PointerList
import Nachos.Library.Buckets

/-! The self-expanding hash table of `lib/hash.cc`. Its buckets are lists with their pointers. An
operation has no result when an assertion fails. -/
namespace Nachos

def InitialBuckets : ℕ := 4
def ResizeRatio : ℤ := 3
def IncreaseSizeBy : ℕ := 4

structure HashTable (α : Type) where
  buckets : List (PointerList α)
  numItems : ℤ
  deriving DecidableEq

/-- A `HashIterator` stands in a bucket, on an element of it. -/
structure HashIterator where
  bucket : ℕ
  bucketIter : Option ListIterator
  deriving DecidableEq

namespace HashTable

variable {α κ : Type}

def numBuckets (table : HashTable α) : ℕ := table.buckets.length

def initBuckets (sz : ℕ) : List (PointerList α) := List.replicate sz PointerList.new

/-- `HashTable::HashTable`. -/
def new : HashTable α := ⟨initBuckets InitialBuckets, 0⟩

def hashValue (hash : κ → BitVec 32) (table : HashTable α) (key : κ) : Option ℕ :=
  let result := (hash key).toNat % table.numBuckets
  if result < table.numBuckets then some result else none

section

variable [DecidableEq α] [DecidableEq κ] (getKey : α → κ) (hash : κ → BitVec 32)

/-- The loop of `FindInBucket`. -/
def findLoop (list : PointerList α) (key : κ) : ℕ → ListIterator → Option (Option α)
  | turns, iterator =>
    if iterator.isDone then some none
    else match turns with
      | 0 => none
      | turns + 1 => do
        let item ← iterator.item list
        if key = getKey item then some (some item)
        else findLoop list key turns (← iterator.next list)

def findInBucket (table : HashTable α) (bucket : ℕ) (key : κ) : Option (Option α) := do
  let list ← table.buckets[bucket]?
  findLoop getKey list key list.turns (ListIterator.new list)

/-- `HashTable::Find`. -/
def find (table : HashTable α) (key : κ) : Option (Option α) := do
  table.findInBucket getKey (← table.hashValue hash key) key

def isInTable (table : HashTable α) (key : κ) : Option Bool :=
  (table.find getKey hash key).map (·.isSome)

/-- The items of one bucket are to hash to it. -/
def checkLoop (table : HashTable α) (bucket : ℕ) (list : PointerList α) :
    ℕ → ListIterator → Option Unit
  | turns, iterator =>
    if iterator.isDone then some ()
    else match turns with
      | 0 => none
      | turns + 1 => do
        let item ← iterator.item list
        if bucket = (← table.hashValue hash (getKey item)) then
          checkLoop table bucket list turns (← iterator.next list)
        else none

/-- The items in the buckets from this one on, each of them checked. -/
def checkBuckets (table : HashTable α) : List (PointerList α) → (bucket : ℕ) → ℤ → Option ℤ
  | [], _, numFound => some numFound
  | list :: lists, bucket, numFound => do
    list.sanityCheck
    table.checkLoop getKey hash bucket list list.turns (ListIterator.new list)
    checkBuckets table lists (bucket + 1) (numFound + list.numInList)

def sanityCheck (table : HashTable α) : Option Unit := do
  let numFound ← table.checkBuckets getKey hash table.buckets 0 0
  if table.numItems = numFound then some () else none

/-- `buckets[HashValue(getKey(item))]->Append(item)`. -/
def appendItem (table : HashTable α) (item : α) : Option (HashTable α) := do
  let bucket ← table.hashValue hash (getKey item)
  let list ← (← table.buckets[bucket]?).append item
  return { table with buckets := table.buckets.set bucket list }

/-- The items of one old bucket go into the new table. -/
def moveItems : ℕ → PointerList α → HashTable α → Option (HashTable α)
  | turns, list, table =>
    if list.isEmpty then some table
    else match turns with
      | 0 => none
      | turns + 1 => do
        let (item, list) ← list.removeFront
        moveItems turns list (← table.appendItem getKey hash item)

def moveBuckets : List (PointerList α) → HashTable α → Option (HashTable α)
  | [], table => some table
  | list :: lists, table => do
    moveBuckets lists (← moveItems getKey hash list.turns list table)

/-- `HashTable::ReHash`. -/
def reHash (table : HashTable α) : Option (HashTable α) := do
  table.sanityCheck getKey hash
  let oldTable := table.buckets
  let table ← moveBuckets getKey hash oldTable
    { table with buckets := initBuckets (table.numBuckets * IncreaseSizeBy) }
  table.sanityCheck getKey hash
  return table

/-- The table grows if there are too many items for its buckets. -/
def grow (table : HashTable α) : Option (HashTable α) :=
  if table.numItems.tdiv table.numBuckets ≥ ResizeRatio then table.reHash getKey hash
  else some table

/-- `HashTable::Insert`. -/
def insert (table : HashTable α) (item : α) : Option (HashTable α) := do
  let key := getKey item
  if ← table.isInTable getKey hash key then none
  else
    let table ← table.grow getKey hash
    let table ← table.appendItem getKey hash item
    let table := { table with numItems := table.numItems + 1 }
    if ← table.isInTable getKey hash key then some table else none

/-- `HashTable::Remove`. -/
def remove (table : HashTable α) (key : κ) : Option (α × HashTable α) := do
  let bucket ← table.hashValue hash key
  let item ← (← table.findInBucket getKey bucket key)
  let list ← (← table.buckets[bucket]?).remove item
  let table : HashTable α := ⟨table.buckets.set bucket list, table.numItems - 1⟩
  if ← table.isInTable getKey hash key then none else some (item, table)

end

/-- The first of these buckets, numbered from `bucket` on, that has an item. -/
def nextFullBucket : List (PointerList α) → (bucket : ℕ) → ℕ
  | [], bucket => bucket
  | list :: lists, bucket => if list.isEmpty then nextFullBucket lists (bucket + 1) else bucket

def findNextFullBucket (table : HashTable α) (bucket : ℕ) : ℕ :=
  nextFullBucket (table.buckets.drop bucket) bucket

end HashTable

namespace HashIterator

variable {α : Type}

/-- The start of the first full bucket from `bucket` on. -/
def startFrom (table : HashTable α) (bucket : ℕ) : HashIterator :=
  let bucket := table.findNextFullBucket bucket
  ⟨bucket, table.buckets[bucket]?.map ListIterator.new⟩

def new (table : HashTable α) : HashIterator := startFrom table 0

def isDone (table : HashTable α) (iterator : HashIterator) : Bool :=
  iterator.bucket = table.numBuckets

def item (table : HashTable α) (iterator : HashIterator) : Option α := do
  if iterator.isDone table then none
  else (← iterator.bucketIter).item (← table.buckets[iterator.bucket]?)

def next (table : HashTable α) (iterator : HashIterator) : Option HashIterator := do
  let bucketIter ← (← iterator.bucketIter).next (← table.buckets[iterator.bucket]?)
  if bucketIter.isDone then some (startFrom table (iterator.bucket + 1))
  else some { iterator with bucketIter := some bucketIter }

/-- The items that the loop over an iterator sees, as long as its turns last. -/
def visited (table : HashTable α) : ℕ → HashIterator → Option (List α)
  | turns, iterator =>
    if iterator.isDone table then some []
    else match turns with
      | 0 => none
      | turns + 1 => do
        let item ← iterator.item table
        let rest ← visited table turns (← iterator.next table)
        return item :: rest

end HashIterator

end Nachos
