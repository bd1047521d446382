import HyScanCache.Buffer

/-!
# `HyScanCache`, the interface, as `hyscan-cache.c` computes it

The functions a user calls.  They hash the strings they are given and call what the cache implements.  FarmHash,
which `hyscan_hash64` calls, is the parameter `hash`; a string is given by its bytes.
-/

namespace HyScanCache

variable {σ β : Type}

/-- `HyScanCacheInterface`: what a cache implements, over its private data `σ`. -/
structure HyScanCacheInterface (σ β : Type) where
  set : Option (σ → UInt64 → UInt64 → Option β → Option β → Exec (Bool × σ))
  get : Option (σ → UInt64 → UInt64 → UInt32 → Buffers β → BufferPtr → BufferPtr → Exec (Bool × Buffers β × σ))

/-- `hyscan_hash64` -/
def hyscanHash64 (hash : Bytes → UInt64) (name : Option Bytes) : UInt64 :=
  match name with
  | some name => hash name
  | none => 0

section Set

variable (iface : HyScanCacheInterface σ β) (cache : σ)

/-- `hyscan_cache_set2i` -/
def hyscanCacheSet2i (key detail : UInt64) (buffer1 buffer2 : Option β) : Exec (Bool × σ) :=
  match iface.set with
  | some set => set cache key detail buffer1 buffer2
  | none => .ok (false, cache)

/-- `hyscan_cache_set2` -/
def hyscanCacheSet2 (hash : Bytes → UInt64) (key detail : Option Bytes) (buffer1 buffer2 : Option β) :
    Exec (Bool × σ) :=
  match iface.set with
  | some set => set cache (hyscanHash64 hash key) (hyscanHash64 hash detail) buffer1 buffer2
  | none => .ok (false, cache)

/-- `hyscan_cache_set` -/
def hyscanCacheSet (hash : Bytes → UInt64) (key detail : Option Bytes) (buffer : Option β) : Exec (Bool × σ) :=
  match iface.set with
  | some set => set cache (hyscanHash64 hash key) (hyscanHash64 hash detail) buffer none
  | none => .ok (false, cache)

end Set

section Get

variable (iface : HyScanCacheInterface σ β) (cache : σ)

/-- `hyscan_cache_get2i` -/
def hyscanCacheGet2i (key detail : UInt64) (size1 : UInt32) (bufs : Buffers β) (buffer1 buffer2 : BufferPtr) :
    Exec (Bool × Buffers β × σ) :=
  match iface.get with
  | some get => get cache key detail size1 bufs buffer1 buffer2
  | none => .ok (false, bufs, cache)

/-- `hyscan_cache_get2` -/
def hyscanCacheGet2 (hash : Bytes → UInt64) (key detail : Option Bytes) (size1 : UInt32) (bufs : Buffers β)
    (buffer1 buffer2 : BufferPtr) : Exec (Bool × Buffers β × σ) :=
  match iface.get with
  | some get => get cache (hyscanHash64 hash key) (hyscanHash64 hash detail) size1 bufs buffer1 buffer2
  | none => .ok (false, bufs, cache)

/-- `hyscan_cache_get`: all of the data goes to one buffer. -/
def hyscanCacheGet (hash : Bytes → UInt64) (key detail : Option Bytes) (bufs : Buffers β) (buffer : BufferPtr) :
    Exec (Bool × Buffers β × σ) :=
  match iface.get with
  | some get => get cache (hyscanHash64 hash key) (hyscanHash64 hash detail) 0xFFFFFFFF bufs buffer none
  | none => .ok (false, bufs, cache)

end Get

end HyScanCache
