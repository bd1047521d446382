import HyScanCache.Lib.LinkedList
import Mathlib.Algebra.Order.Group.Nat

/-!
# Objects, memory and the hash table

What `hyscan-cached.c` computes on: the object structure `ObjectInfo`, the private data of the cache, and the
primitives of C and GLib it uses.  Every access goes through a pointer into the memory of the objects, and
stops with a `Fault` where C leaves the behaviour undefined: a null pointer, a block that is not live, a
`memcpy` that does not stay in its block.

An allocation takes its address, and the bytes the fresh memory happens to hold, from a `Block`.  Nothing is
assumed of it except what every allocator keeps: a live block is not handed out again.
-/

namespace HyScanCache

open Lib

/-- Why a call does not come to its end. -/
inductive Fault where
  /-- A null pointer is followed. -/
  | nullPointer
  /-- A block that was freed, or never allocated, is accessed. -/
  | deadBlock
  /-- A `memcpy` reads or writes past the end of its block. -/
  | overrun
  /-- The allocator hands out a live block: no allocator does. -/
  | allocator
  /-- The eviction loop has not ended. -/
  | endless
  deriving DecidableEq, Repr

/-- A computation that may stop with a fault. -/
abbrev Exec := Except Fault

@[simp] theorem Exec.ok_bind {α β : Type} (a : α) (f : α → Exec β) : (Except.ok a >>= f) = f a := rfl

@[simp] theorem Exec.error_bind {α β : Type} (e : Fault) (f : α → Exec β) :
    ((Except.error e : Exec α) >>= f) = Except.error e := rfl

@[simp] theorem Exec.pure_eq {α : Type} (a : α) : (pure a : Exec α) = Except.ok a := rfl

/-- Bytes in memory. -/
abbrev Bytes := List UInt8

/-- The `guint32` size of some bytes. -/
def guint32Size (data : Bytes) : UInt32 := UInt32.ofNat data.length

/-- `struct _ObjectInfo`; `data` has as many bytes as were allocated behind the header. -/
structure ObjectInfo where
  prev : Ptr
  next : Ptr
  hash : UInt64
  detail : UInt64
  allocated : UInt32
  size : UInt32
  data : Bytes
  deriving DecidableEq

instance : Linked ObjectInfo where
  prev o := o.prev
  next o := o.next
  setPrev p o := { o with prev := p }
  setNext p o := { o with next := p }
  prev_setPrev _ _ := rfl
  next_setNext _ _ := rfl
  prev_setNext _ _ := rfl
  next_setPrev _ _ := rfl
  setPrev_setPrev _ _ _ := rfl
  setNext_setNext _ _ _ := rfl
  setPrev_setNext _ _ _ := rfl
  setPrev_prev _ := rfl
  setNext_next _ := rfl

/-- `OBJECT_HEADER_SIZE` on a 64-bit build: `offsetof (ObjectInfo, data)`. -/
def OBJECT_HEADER_SIZE : UInt64 := 40

/-- What an allocation is given: the address of the block and what its memory holds. -/
structure Block where
  addr : Addr
  junk : ℕ → UInt8

/-- The first `n` bytes of a fresh block. -/
def Block.bytes (block : Block) (n : UInt32) : Bytes := (List.range n.toNat).map block.junk

@[simp] theorem Block.length_bytes (block : Block) (n : UInt32) : (block.bytes n).length = n.toNat := by
  simp [Block.bytes]

/-- An entry of the `GHashTable`: a pointer to the key, which is the field `hash` of the block at `key`, and
the value. -/
structure Slot where
  key : Ptr
  value : Ptr
  deriving DecidableEq

/-- `struct _HyScanCachedPrivate` without its locks, and the memory the objects live in. -/
structure HyScanCachedPrivate where
  cacheSize : UInt64
  usedSize : UInt64
  objects : List Slot
  topObject : Ptr
  bottomObject : Ptr
  heap : Heap ObjectInfo

/-! ### Memory accesses -/

/-- `*p` -/
def load (heap : Heap ObjectInfo) : Ptr → Exec ObjectInfo
  | none => .error .nullPointer
  | some a =>
    match heap a with
    | none => .error .deadBlock
    | some o => .ok o

/-- Split off the entry whose key is `key`.  Keys are compared by `g_int64_equal`, which reads both of them:
the search follows the key pointers of the entries it passes. -/
def extract (heap : Heap ObjectInfo) (key : UInt64) : List Slot → Exec (Option Slot × List Slot)
  | [] => .ok (none, [])
  | slot :: rest => do
    let o ← load heap slot.key
    if o.hash = key then
      return (some slot, rest)
    let (found, rest) ← extract heap key rest
    return (found, slot :: rest)

namespace HyScanCachedPrivate

variable (priv : HyScanCachedPrivate)

/-- `p->field = …`: an assignment to fields of `*p`. -/
def store (p : Ptr) (f : ObjectInfo → ObjectInfo) : Exec HyScanCachedPrivate := do
  let _ ← load priv.heap p
  return { priv with heap := priv.heap.modify p f }

/-- `g_malloc`, with the fields the caller then sets. -/
def malloc (block : Block) (object : ObjectInfo) : Exec (Ptr × HyScanCachedPrivate) :=
  match priv.heap block.addr with
  | none => .ok (some block.addr, { priv with heap := Function.update priv.heap block.addr (some object) })
  | some _ => .error .allocator

/-- `g_free` -/
def free (p : Ptr) : Exec HyScanCachedPrivate := do
  let _ ← load priv.heap p
  match p with
  | none => return priv
  | some a => return { priv with heap := Function.update priv.heap a none }

/-- `g_realloc (p, OBJECT_HEADER_SIZE + size)`: the block may stay where it is or move; its contents are kept
up to the smaller of the two sizes. -/
def realloc (block : Block) (p : Ptr) (size : UInt32) : Exec (Ptr × HyScanCachedPrivate) := do
  let o ← load priv.heap p
  let priv ← priv.free p
  let data := o.data.take size.toNat ++ (block.bytes size).drop o.data.length
  priv.malloc block { o with data := data }

/-- `memcpy (p->data + offset, src, size)` of all the bytes of `src`. -/
def memcpy (p : Ptr) (offset : UInt32) (src : Bytes) : Exec HyScanCachedPrivate := do
  let o ← load priv.heap p
  if offset.toNat + src.length ≤ o.data.length then
    let data := o.data.take offset.toNat ++ src ++ o.data.drop (offset.toNat + src.length)
    priv.store p fun o => { o with data := data }
  else
    .error .overrun

/-! ### The hash table -/

/-- `g_hash_table_lookup` -/
def lookup (key : UInt64) : Exec Ptr := do
  let (found, _) ← extract priv.heap key priv.objects
  return found.bind Slot.value

/-- `g_hash_table_steal`: the entry is taken out, its value is not destroyed. -/
def steal (key : UInt64) : Exec HyScanCachedPrivate := do
  let (_, rest) ← extract priv.heap key priv.objects
  return { priv with objects := rest }

/-- `g_hash_table_remove`: the value is destroyed with `g_free`. -/
def remove (key : UInt64) : Exec HyScanCachedPrivate := do
  let (found, rest) ← extract priv.heap key priv.objects
  match found with
  | none => return priv
  | some slot => ({ priv with objects := rest } : HyScanCachedPrivate).free slot.value

/-- `g_hash_table_insert (objects, &object->hash, object)`.  If there is an entry of this key its value is
replaced and destroyed, and its key pointer is kept. -/
def insert (object : Ptr) : Exec HyScanCachedPrivate := do
  let o ← load priv.heap object
  let (found, rest) ← extract priv.heap o.hash priv.objects
  match found with
  | none => return { priv with objects := ⟨object, object⟩ :: priv.objects }
  | some slot =>
    ({ priv with objects := ⟨slot.key, object⟩ :: rest } : HyScanCachedPrivate).free slot.value

end HyScanCachedPrivate

end HyScanCache
