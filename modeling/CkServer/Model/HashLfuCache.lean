import CkServer.Library.Binary64
import CkServer.Model.LfuCache

/-! # The sliced LFU cache

`std::hash<Key>` and `std::thread::hardware_concurrency` are parameters. -/

namespace CkServer

structure HashLfuCache (Key Value : Type) where
  capacity_ : UInt64
  sliceNum_ : ℤ
  lfuSliceCaches_ : List (LfuCache Key Value) := []

namespace HashLfuCache

variable {Key Value : Type}

/-- The division is one of doubles. -/
def sliceSize (capacity : UInt64) (sliceNum : ℤ) : ℕ :=
  ⌈Binary64.div (Binary64.round capacity.toNat) sliceNum⌉₊

section Adding

variable [Inhabited Key] [Inhabited Value]

/-- The constructor. The capacity of a slice is narrowed from `size_t` to `int`. -/
def new (hardware_concurrency : UInt32) (capacity : UInt64) (sliceNum : Int32)
    (maxAverageNum : Int32 := 10) : HashLfuCache Key Value :=
  let sliceNum_ := if 0 < sliceNum.toInt then sliceNum.toInt else hardware_concurrency.toInt32.toInt
  let slice := LfuCache.new (Int32.ofNat (sliceSize capacity sliceNum_)) maxAverageNum
  { capacity_ := capacity
    sliceNum_ := sliceNum_
    lfuSliceCaches_ := List.replicate sliceNum_.toNat slice }

variable (Hash : Key → UInt64)

def sliceIndex (c : HashLfuCache Key Value) (key : Key) : ℕ :=
  (Hash key).toNat % toSize_t c.sliceNum_

variable [DecidableEq Key]

def put (c : HashLfuCache Key Value) (o : IterationOrders Key) (key : Key) (value : Value) :
    Option (HashLfuCache Key Value) := do
  let i := c.sliceIndex Hash key
  let slice ← c.lfuSliceCaches_[i]?
  let slice ← slice.put o key value
  return { c with lfuSliceCaches_ := c.lfuSliceCaches_.set i slice }

def get (c : HashLfuCache Key Value) (o : IterationOrders Key) (key : Key) :
    Option (HashLfuCache Key Value × Option Value) := do
  let i := c.sliceIndex Hash key
  let slice ← c.lfuSliceCaches_[i]?
  let (slice, value) ← slice.get o key
  return ({ c with lfuSliceCaches_ := c.lfuSliceCaches_.set i slice }, value)

def purge (c : HashLfuCache Key Value) : HashLfuCache Key Value :=
  { c with lfuSliceCaches_ := c.lfuSliceCaches_.map LfuCache.purge }

def call (c : HashLfuCache Key Value) : CacheCall Key Value → Option (HashLfuCache Key Value)
  | .put o key value => c.put Hash o key value
  | .get o key => (c.get Hash o key).map Prod.fst
  | .purge => some c.purge

/-- The state after a sequence of calls. -/
def calls (c : HashLfuCache Key Value) (ops : List (CacheCall Key Value)) :
    Option (HashLfuCache Key Value) :=
  ops.foldlM (call Hash) c

end Adding

/-- The number of entries of all slices. -/
def size (c : HashLfuCache Key Value) : ℕ := (c.lfuSliceCaches_.map LfuCache.size).sum

end HashLfuCache

end CkServer
