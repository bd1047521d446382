import HyScanCache.Buffer

/-!
# `HyScanCached`, as `hyscan-cached.c` computes it

The functions of the source, one definition each, under the source's names.  Two parts of a payload are two
byte strings; their sizes and every sum of sizes are the `guint32` values of the source, `used_size` and
`cache_size` are `guint64` values.  A function that changes the cache returns the private data it leaves.
-/

namespace HyScanCache.Cached

open Lib HyScanCachedPrivate

variable {β : Type} [HyScanBuffer β]

/-- `MIN_CACHE_SIZE`, in MiB. -/
def MIN_CACHE_SIZE : UInt32 := 64

/-- `MAX_CACHE_SIZE` on a 64-bit build, in MiB. -/
def MAX_CACHE_SIZE : UInt32 := 131072

/-- `hyscan_cached_new`: the property `cache-size` in bytes, and an empty table and list. -/
def new (cacheSize : UInt32) : HyScanCachedPrivate where
  cacheSize := cacheSize.toUInt64 * (1024 * 1024)
  usedSize := 0
  objects := []
  topObject := none
  bottomObject := none
  heap := fun _ => none

/-! ### The list of used objects -/

/-- `hyscan_cached_remove_object_from_used` -/
def removeObjectFromUsed (priv : HyScanCachedPrivate) (object : Ptr) : Exec HyScanCachedPrivate := do
  if priv.topObject = priv.bottomObject ∧ priv.topObject = object then
    return { priv with topObject := none, bottomObject := none }
  let o ← load priv.heap object
  if o.prev = none ∧ o.next = none then
    return priv
  if o.prev ≠ none ∧ o.next ≠ none then
    let priv ← priv.store o.prev fun x => { x with next := o.next }
    let o ← load priv.heap object
    let priv ← priv.store o.next fun x => { x with prev := o.prev }
    priv.store object fun x => { x with prev := none, next := none }
  else if o.prev = none then
    let priv ← ({ priv with topObject := o.next } : HyScanCachedPrivate).store o.next
      fun x => { x with prev := none }
    priv.store object fun x => { x with next := none }
  else
    let priv ← ({ priv with bottomObject := o.prev } : HyScanCachedPrivate).store o.prev
      fun x => { x with next := none }
    priv.store object fun x => { x with prev := none }

/-- `hyscan_cached_place_object_on_top_of_used` -/
def placeObjectOnTopOfUsed (priv : HyScanCachedPrivate) (object : Ptr) : Exec HyScanCachedPrivate := do
  let priv ← removeObjectFromUsed priv object
  if priv.topObject = none ∧ priv.bottomObject = none then
    return { priv with topObject := object, bottomObject := object }
  else
    let priv ← priv.store priv.topObject fun x => { x with prev := object }
    let priv ← priv.store object fun x => { x with next := priv.topObject }
    return { priv with topObject := object }

/-! ### Dropping objects -/

/-- `hyscan_cached_drop_object` -/
def dropObject (priv : HyScanCachedPrivate) (object : Ptr) : Exec HyScanCachedPrivate := do
  let priv ← removeObjectFromUsed priv object
  let o ← load priv.heap object
  let priv := { priv with usedSize := priv.usedSize - (OBJECT_HEADER_SIZE + o.allocated.toUInt64) }
  priv.remove o.hash

/-- The condition of the loop of `hyscan_cached_free_used`. -/
def needsRoom (priv : HyScanCachedPrivate) (size : UInt32) : Prop :=
  priv.bottomObject ≠ none ∧ priv.cacheSize < priv.usedSize + size.toUInt64

instance (priv : HyScanCachedPrivate) (size : UInt32) : Decidable (needsRoom priv size) := by
  unfold needsRoom; infer_instance

/-- The loop of `hyscan_cached_free_used`, for at most `fuel` rounds. -/
def freeUsedLoop (size : UInt32) : ℕ → HyScanCachedPrivate → Exec HyScanCachedPrivate
  | 0, priv => if needsRoom priv size then .error .endless else .ok priv
  | fuel + 1, priv =>
    if needsRoom priv size then do
      let priv ← dropObject priv priv.bottomObject
      freeUsedLoop size fuel priv
    else
      .ok priv

/-- `hyscan_cached_free_used`; the loop is given a round for every object of the table. -/
def freeUsed (priv : HyScanCachedPrivate) (size : UInt32) : Exec HyScanCachedPrivate :=
  freeUsedLoop size priv.objects.length priv

/-! ### Storing objects -/

/-- The two `memcpy` calls that end `hyscan_cached_rise_object` and `hyscan_cached_update_object`. -/
def copyData (priv : HyScanCachedPrivate) (object : Ptr) (data1 data2 : Bytes) : Exec HyScanCachedPrivate := do
  let size1 := guint32Size data1
  let size2 := guint32Size data2
  let priv ← priv.memcpy object 0 data1
  if size2 > 0 then
    priv.memcpy object size1 data2
  else
    return priv

/-- `hyscan_cached_rise_object` -/
def riseObject (block : Block) (priv : HyScanCachedPrivate) (key detail : UInt64) (data1 data2 : Bytes) :
    Exec (Ptr × HyScanCachedPrivate) := do
  let size := guint32Size data1 + guint32Size data2
  let (object, priv) ← priv.malloc block
    { prev := none, next := none, hash := key, detail := detail, allocated := size, size := size,
      data := block.bytes size }
  let priv := { priv with usedSize := priv.usedSize + (OBJECT_HEADER_SIZE + size.toUInt64) }
  let priv ← copyData priv object data1 data2
  return (object, priv)

/-- The test of `hyscan_cached_update_object`: the object is too small for `size` bytes, or `size` is less
than 0.95 of it.  The source divides two `guint32` values as doubles; a quotient below 19/20 is below it by
more than 2⁻³⁷ and rounding is monotone, so the test on doubles agrees with this one on rationals. -/
def reallocates (allocated size : UInt32) : Prop :=
  allocated < size ∨ 20 * size.toNat < 19 * allocated.toNat

instance (allocated size : UInt32) : Decidable (reallocates allocated size) := by
  unfold reallocates; infer_instance

/-- The block of `hyscan_cached_update_object` that allocates the memory of an object anew. -/
def reallocObject (block : Block) (priv : HyScanCachedPrivate) (object : Ptr) (size : UInt32) :
    Exec (Ptr × HyScanCachedPrivate) := do
  let o ← load priv.heap object
  let priv ← priv.steal o.hash
  let (object, priv) ← priv.realloc block object size
  let priv ← priv.insert object
  let o ← load priv.heap object
  let priv := { priv with usedSize := priv.usedSize - (OBJECT_HEADER_SIZE + o.allocated.toUInt64) }
  let priv ← priv.store object fun x => { x with allocated := size }
  return (object, { priv with usedSize := priv.usedSize + (OBJECT_HEADER_SIZE + size.toUInt64) })

/-- `hyscan_cached_update_object` -/
def updateObject (block : Block) (priv : HyScanCachedPrivate) (object : Ptr) (detail : UInt64)
    (data1 data2 : Bytes) : Exec (Ptr × HyScanCachedPrivate) := do
  let size := guint32Size data1 + guint32Size data2
  let o ← load priv.heap object
  let (object, priv) ←
    if reallocates o.allocated size then reallocObject block priv object size else pure (object, priv)
  let priv ← priv.store object fun x => { x with size := size, detail := detail }
  let priv ← copyData priv object data1 data2
  return (object, priv)

/-! ### The interface -/

/-- The block of `hyscan_cached_set` that makes room: the private data and the object looked up again. -/
def makeRoom (priv : HyScanCachedPrivate) (key : UInt64) (object : Ptr) (size : UInt32) :
    Exec (Ptr × HyScanCachedPrivate) := do
  if priv.usedSize + OBJECT_HEADER_SIZE + size.toUInt64 > priv.cacheSize then
    let priv ← freeUsed priv (OBJECT_HEADER_SIZE + size.toUInt64).toUInt32
    let object ← priv.lookup key
    return (object, priv)
  else
    return (object, priv)

/-- The part of `hyscan_cached_set` that stores the payload: the object of the key is taken off the list and
changed, or a new object is put into the table. -/
def storeObject (block : Block) (priv : HyScanCachedPrivate) (object : Ptr) (key detail : UInt64)
    (data1 data2 : Bytes) : Exec (Ptr × HyScanCachedPrivate) := do
  if object ≠ none then
    let priv ← removeObjectFromUsed priv object
    updateObject block priv object detail data1 data2
  else
    let (object, priv) ← riseObject block priv key detail data1 data2
    let priv ← priv.insert object
    return (object, priv)

/-- `hyscan_cached_set`: the status and the private data.  `block` is what the call's allocation, if it makes
one, is given. -/
def set (block : Block) (priv : HyScanCachedPrivate) (key detail : UInt64) (buffer1 buffer2 : Option β) :
    Exec (Bool × HyScanCachedPrivate) := do
  let data1 := givenBytes buffer1
  let data2 := givenBytes buffer2
  let size := guint32Size data1 + guint32Size data2
  if size.toUInt64 > priv.cacheSize / 10 then
    return (false, priv)
  let object ← priv.lookup key
  if size = 0 then
    if object ≠ none then
      let priv ← dropObject priv object
      return (true, priv)
    else
      return (true, priv)
  let (object, priv) ← makeRoom priv key object size
  let (object, priv) ← storeObject block priv object key detail data1 data2
  let priv ← placeObjectOnTopOfUsed priv object
  return (true, priv)

/-- The search of `hyscan_cached_get`: the object of the key, if its detail is the one asked for. -/
def getObject (priv : HyScanCachedPrivate) (key detail : UInt64) : Exec Ptr := do
  let object ← priv.lookup key
  if object = none then
    return none
  let o ← load priv.heap object
  if detail ≠ 0 ∧ o.detail ≠ detail then
    return none
  return object

/-- The block of `hyscan_cached_get` that copies `size` bytes of an object, `src` onwards, to a buffer: the
size the buffer returns and the buffers, or `none` when the buffer refuses the size. -/
def copyPart (bufs : Buffers β) (buffer : BufferPtr) (size : UInt32) (src : Bytes) :
    Exec (Option (UInt32 × Buffers β)) :=
  match buffer with
  | none => .ok (some (size, bufs))
  | some b =>
    match setDataSize (bufs b) size with
    | none => .ok none
    | some buf =>
      let size := guint32Size (bytes buf)
      if size.toNat ≤ src.length then
        .ok (some (size, Function.update bufs b (fill buf (src.take size.toNat))))
      else
        .error .overrun

/-- The first part of the data: its size and the buffers. -/
def copyFirst (priv : HyScanCachedPrivate) (object : Ptr) (size1 : UInt32) (bufs : Buffers β)
    (buffer1 : BufferPtr) : Exec (Option (UInt32 × Buffers β)) := do
  let o ← load priv.heap object
  copyPart bufs buffer1 (min size1 o.size) o.data

/-- The second part of the data, after the first `size1` bytes. -/
def copySecond (priv : HyScanCachedPrivate) (object : Ptr) (size1 : UInt32) (bufs : Buffers β)
    (buffer2 : BufferPtr) : Exec (Option (UInt32 × Buffers β)) := do
  let o ← load priv.heap object
  copyPart bufs buffer2 (o.size - size1) (o.data.drop size1.toNat)

/-- `hyscan_cached_get`: the status, the buffers of the caller and the private data. -/
def get (priv : HyScanCachedPrivate) (key detail : UInt64) (size1 : UInt32) (bufs : Buffers β)
    (buffer1 buffer2 : BufferPtr) : Exec (Bool × Buffers β × HyScanCachedPrivate) := do
  if buffer1 = none ∧ buffer2 ≠ none then
    return (false, bufs, priv)
  let object ← getObject priv key detail
  if object = none then
    return (false, bufs, priv)
  let priv ← placeObjectOnTopOfUsed priv object
  match ← copyFirst priv object size1 bufs buffer1 with
  | none => return (false, bufs, priv)
  | some (size1, bufs) =>
    match ← copySecond priv object size1 bufs buffer2 with
    | none => return (false, bufs, priv)
    | some (_, bufs) => return (true, bufs, priv)

end HyScanCache.Cached
