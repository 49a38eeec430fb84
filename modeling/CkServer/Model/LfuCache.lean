import CkServer.Model.Integers
import Mathlib.Data.List.AList
import Mathlib.Logic.Function.Basic

/-! # The LFU cache

Nodes live in a heap. An address is a number and a null pointer is `none`; a function is `none`
where the program dereferences a null pointer. An operation on an `int` that overflows wraps. The
hash maps are association lists. In which order a loop goes over a hash map is open, and every call
gets the orders that it uses. -/

namespace CkServer

def INT8_MAX : ℤ := 127

structure FreqList.Node (Key Value : Type) where
  freq : ℤ := 1
  key : Key
  value : Value
  pre : Option ℕ := none
  next : Option ℕ := none

/-- The nodes by their addresses. -/
structure Heap (Key Value : Type) where
  node : ℕ → FreqList.Node Key Value

namespace Heap

variable {Key Value : Type}

instance : CoeFun (Heap Key Value) fun _ => ℕ → FreqList.Node Key Value := ⟨Heap.node⟩

def set (heap : Heap Key Value) (a : ℕ) (n : FreqList.Node Key Value) : Heap Key Value :=
  ⟨Function.update heap.node a n⟩

def setFreq (heap : Heap Key Value) (a : ℕ) (freq : ℤ) : Heap Key Value :=
  heap.set a { heap a with freq := freq }

def setValue (heap : Heap Key Value) (a : ℕ) (value : Value) : Heap Key Value :=
  heap.set a { heap a with value := value }

def setPre (heap : Heap Key Value) (a : ℕ) (pre : Option ℕ) : Heap Key Value :=
  heap.set a { heap a with pre := pre }

def setNext (heap : Heap Key Value) (a : ℕ) (next : Option ℕ) : Heap Key Value :=
  heap.set a { heap a with next := next }

end Heap

structure FreqList where
  freq_ : ℤ
  head_ : ℕ
  tail_ : ℕ
deriving DecidableEq

namespace FreqList

variable {Key Value : Type}

def isEmpty (l : FreqList) (heap : Heap Key Value) : Bool := (heap l.head_).next = some l.tail_

def getFirstNode (l : FreqList) (heap : Heap Key Value) : Option ℕ := (heap l.head_).next

def addNode (l : FreqList) (heap : Heap Key Value) (node : ℕ) : Option (Heap Key Value) := do
  let heap := heap.setPre node (heap l.tail_).pre
  let heap := heap.setNext node (some l.tail_)
  let last ← (heap l.tail_).pre
  let heap := heap.setNext last (some node)
  return heap.setPre l.tail_ (some node)

/-- A node without a neighbour stays as it is. -/
def removeNode (heap : Heap Key Value) (node : ℕ) : Heap Key Value :=
  match (heap node).pre, (heap node).next with
  | some pre, some next =>
      let heap := heap.setNext pre (some next)
      let heap := heap.setPre next (some pre)
      let heap := heap.setPre node none
      heap.setNext node none
  | _, _ => heap

end FreqList

/-- The orders in which a call goes over `nodeMap_` and over `freqToFreqList_`. -/
structure IterationOrders (Key : Type) where
  nodes : List (Σ _ : Key, ℕ) → List (Σ _ : Key, ℕ)
  nodes_perm : ∀ entries, (nodes entries).Perm entries
  lists : List (Σ _ : ℤ, FreqList) → List (Σ _ : ℤ, FreqList)
  lists_perm : ∀ entries, (lists entries).Perm entries

/-- The order of the entries themselves. -/
def IterationOrders.inOrder {Key : Type} : IterationOrders Key where
  nodes entries := entries
  nodes_perm := List.Perm.refl
  lists entries := entries
  lists_perm := List.Perm.refl

/-- `allocated` is the first address that has not been given out. Nothing sets the key and the
value of a sentinel: they are `default`. -/
structure LfuCache (Key Value : Type) where
  capacity_ : ℤ
  minFreq_ : ℤ := INT8_MAX
  maxAverageNum_ : ℤ
  curAverageNum_ : ℤ := 0
  curTotalNum_ : ℤ := 0
  nodeMap_ : AList fun _ : Key => ℕ := ∅
  freqToFreqList_ : AList fun _ : ℤ => FreqList := ∅
  heap : Heap Key Value
  allocated : ℕ := 0

namespace LfuCache

variable {Key Value : Type}

/-- The constructor. -/
def new [Inhabited Key] [Inhabited Value] (capacity : Int32) (maxAverageNum : Int32 := 10) :
    LfuCache Key Value where
  capacity_ := capacity.toInt
  maxAverageNum_ := maxAverageNum.toInt
  heap := ⟨fun _ => { key := default, value := default }⟩

def size (c : LfuCache Key Value) : ℕ := c.nodeMap_.entries.length

/-- `std::make_shared<Node>(key, value)`. -/
def newNode (c : LfuCache Key Value) (key : Key) (value : Value) : LfuCache Key Value :=
  { c with
    heap := c.heap.set c.allocated { key := key, value := value }
    allocated := c.allocated + 1 }

/-- `new FreqList(freq)`, with its two sentinels. -/
def newFreqList [Inhabited Key] [Inhabited Value] (c : LfuCache Key Value) (freq : ℤ) :
    LfuCache Key Value :=
  let head : FreqList.Node Key Value :=
    { key := default, value := default, next := some (c.allocated + 1) }
  let tail : FreqList.Node Key Value :=
    { key := default, value := default, pre := some c.allocated }
  { c with
    heap := (c.heap.set c.allocated head).set (c.allocated + 1) tail
    allocated := c.allocated + 2
    freqToFreqList_ := c.freqToFreqList_.insert freq ⟨freq, c.allocated, c.allocated + 1⟩ }

def removeFromFreqList (c : LfuCache Key Value) (node : ℕ) : Option (LfuCache Key Value) :=
  match c.freqToFreqList_.lookup (c.heap node).freq with
  | some _ => some { c with heap := FreqList.removeNode c.heap node }
  | none => none

/-- `curAverageNum_` is computed from `curTotalNum_`, by a division of `size_t`. -/
def updateAverage (c : LfuCache Key Value) : LfuCache Key Value :=
  { c with
    curAverageNum_ := if c.size = 0 then 0 else toInt (toSize_t c.curTotalNum_ / c.size : ℕ) }

def decreaseFreqNum (c : LfuCache Key Value) (num : ℤ) : LfuCache Key Value :=
  { c with curTotalNum_ := toInt (c.curTotalNum_ - num) }.updateAverage

def updateMinFreq (c : LfuCache Key Value) (o : IterationOrders Key) : LfuCache Key Value :=
  let minFreq := (o.lists c.freqToFreqList_.entries).foldl
    (fun m e => if e.2.isEmpty c.heap then m else min m e.1) INT8_MAX
  { c with minFreq_ := if minFreq = INT8_MAX then 1 else minFreq }

/-- The last look of `getInternal` at the list that the node has left. -/
def raiseMinFreq (c : LfuCache Key Value) (freq : ℤ) : Option (LfuCache Key Value) :=
  if toInt (freq - 1) = c.minFreq_ then
    match c.freqToFreqList_.lookup (toInt (freq - 1)) with
    | some l =>
        some (if l.isEmpty c.heap then { c with minFreq_ := increment c.minFreq_ } else c)
    | none => none
  else
    some c

def kickOut [DecidableEq Key] (c : LfuCache Key Value) : Option (LfuCache Key Value) := do
  let l ← c.freqToFreqList_.lookup c.minFreq_
  let node ← l.getFirstNode c.heap
  let c ← c.removeFromFreqList node
  let c := { c with nodeMap_ := c.nodeMap_.erase (c.heap node).key }
  return c.decreaseFreqNum (c.heap node).freq

def purge (c : LfuCache Key Value) : LfuCache Key Value :=
  { c with nodeMap_ := ∅, freqToFreqList_ := ∅ }

section Adding

variable [Inhabited Key] [Inhabited Value]

def addToFreqList (c : LfuCache Key Value) (node : ℕ) : Option (LfuCache Key Value) := do
  let freq := (c.heap node).freq
  let c := if freq ∈ c.freqToFreqList_ then c else c.newFreqList freq
  let l ← c.freqToFreqList_.lookup freq
  let heap ← l.addNode c.heap node
  return { c with heap := heap }

/-- A node leaves its list, gets another frequency and goes to the list of that frequency. -/
def moveNode (c : LfuCache Key Value) (node : ℕ) (freq : ℤ) : Option (LfuCache Key Value) := do
  let c ← c.removeFromFreqList node
  addToFreqList { c with heap := c.heap.setFreq node freq } node

/-- What the loop of `handleOverMaxAverageNum` does to a node. -/
def ageNode (c : LfuCache Key Value) (node : ℕ) : Option (LfuCache Key Value) :=
  let freq := toInt ((c.heap node).freq - c.maxAverageNum_.tdiv 2)
  c.moveNode node (if freq < 1 then 1 else freq)

def handleOverMaxAverageNum (c : LfuCache Key Value) (o : IterationOrders Key) :
    Option (LfuCache Key Value) :=
  if c.size = 0 then some c
  else do
    let c ← (o.nodes c.nodeMap_.entries).foldlM (fun c e => c.ageNode e.2) c
    return c.updateMinFreq o

def addFreqNum (c : LfuCache Key Value) (o : IterationOrders Key) : Option (LfuCache Key Value) :=
  let c := { c with curTotalNum_ := increment c.curTotalNum_ }.updateAverage
  if c.curAverageNum_ > c.maxAverageNum_ then c.handleOverMaxAverageNum o else some c

def getInternal (c : LfuCache Key Value) (o : IterationOrders Key) (node : ℕ) :
    Option (LfuCache Key Value × Value) := do
  let value := (c.heap node).value
  let c ← c.moveNode node (increment (c.heap node).freq)
  let c ← c.raiseMinFreq (c.heap node).freq
  let c ← c.addFreqNum o
  return (c, value)

variable [DecidableEq Key]

def putInternal (c : LfuCache Key Value) (o : IterationOrders Key) (key : Key) (value : Value) :
    Option (LfuCache Key Value) := do
  let c ← if c.size = toSize_t c.capacity_ then c.kickOut else some c
  let node := c.allocated
  let c := c.newNode key value
  let c := { c with nodeMap_ := c.nodeMap_.insert key node }
  let c ← c.addToFreqList node
  let c ← c.addFreqNum o
  return { c with minFreq_ := min c.minFreq_ 1 }

def put (c : LfuCache Key Value) (o : IterationOrders Key) (key : Key) (value : Value) :
    Option (LfuCache Key Value) :=
  if c.capacity_ = 0 then some c
  else
    match c.nodeMap_.lookup key with
    | some node =>
        let c := { c with heap := c.heap.setValue node value }
        (c.getInternal o node).map Prod.fst
    | none => c.putInternal o key value

/-- The value is `none` where `get` returns false. -/
def get (c : LfuCache Key Value) (o : IterationOrders Key) (key : Key) :
    Option (LfuCache Key Value × Option Value) :=
  match c.nodeMap_.lookup key with
  | some node => (c.getInternal o node).map fun (c, value) => (c, some value)
  | none => some (c, none)

end Adding

end LfuCache

/-! ## Calls -/

inductive CacheCall (Key Value : Type) where
  | put (o : IterationOrders Key) (key : Key) (value : Value)
  | get (o : IterationOrders Key) (key : Key)
  | purge

namespace LfuCache

variable {Key Value : Type} [Inhabited Key] [Inhabited Value] [DecidableEq Key]

def call (c : LfuCache Key Value) : CacheCall Key Value → Option (LfuCache Key Value)
  | .put o key value => c.put o key value
  | .get o key => (c.get o key).map Prod.fst
  | .purge => some c.purge

/-- The state after a sequence of calls. -/
def calls (c : LfuCache Key Value) (ops : List (CacheCall Key Value)) :
    Option (LfuCache Key Value) :=
  ops.foldlM call c

end LfuCache

end CkServer
