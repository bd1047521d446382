import HyScanCache.Lib.Lts
import HyScanCache.Buffer
import HyScanCache.Store

/-!
# The service of a cache

What a cache does on a call, without its pointers: `Store.Step s e s'` takes the contents `s` to `s'` on the
event `e`, a call with what it returned.

A payload is given by two buffers; the cache goes by the sum of their sizes in 32 bits, which it compares
with a tenth of the limit and with zero.  A payload whose true size is 2³² bytes or more is either rejected,
or taken for an empty one if it is a multiple of 2³² bytes, or the call does not return.
-/

namespace HyScanCache

open Lib

variable {β : Type} [HyScanBuffer β]

/-- The arguments of `set`. -/
structure SetCall (β : Type) where
  key : UInt64
  detail : UInt64
  buffer1 : Option β
  buffer2 : Option β

/-- The arguments of `get`, with the buffers of the caller. -/
structure GetCall (β : Type) where
  key : UInt64
  detail : UInt64
  size1 : UInt32
  bufs : Buffers β
  buffer1 : BufferPtr
  buffer2 : BufferPtr

/-- The concatenation of the two parts. -/
def SetCall.payload (c : SetCall β) : Bytes := givenBytes c.buffer1 ++ givenBytes c.buffer2

/-- The size of the payload as the source computes it. -/
def SetCall.size (c : SetCall β) : ℕ := c.payload.length % 2 ^ 32

/-- A second buffer without a first one. -/
def GetCall.Refused (c : GetCall β) : Prop := c.buffer1 = none ∧ c.buffer2 ≠ none

instance (c : GetCall β) : Decidable c.Refused := by unfold GetCall.Refused; infer_instance

/-- The detail is the one asked for. -/
def GetCall.Accepts (c : GetCall β) (detail : UInt64) : Prop := c.detail = 0 ∨ detail = c.detail

instance (c : GetCall β) (detail : UInt64) : Decidable (c.Accepts detail) := by
  unfold GetCall.Accepts; infer_instance

/-- A call and what it returned; `found` says whether a `get` found an object of its key and detail. -/
inductive Event (β : Type) where
  | set (c : SetCall β) (status : Bool)
  | get (c : GetCall β) (found status : Bool) (bufs : Buffers β)

/-- The key whose entry the call has used, if it has used one: an accepted payload that is not empty, or an
object found. -/
def Event.touched : Event β → Option UInt64
  | .set c true => if c.payload = [] then none else some c.key
  | .get c true _ _ => some c.key
  | _ => none

/-- The call is a `set` of the key that was accepted. -/
def Event.sets (k : UInt64) : Event β → Bool
  | .set c status => status && c.key == k
  | .get .. => false

/-- **The calls on the contents of a cache.** -/
inductive Store.Step : Store → Event β → Store → Prop
  /-- The payload is too large. -/
  | reject {s : Store} {c : SetCall β} (h : s.limit / 10 < c.size) : Step s (.set c false) s
  /-- The payload is empty, in 32 bits. -/
  | delete {s : Store} {c : SetCall β} (h : c.size = 0) : Step s (.set c true) (s.erase c.key)
  /-- The payload is stored. -/
  | put {s : Store} {c : SetCall β} {p : Payload} (hp : p.bytes = c.payload)
      (h : p.bytes.length ≤ s.limit / 10) : Step s (.set c true) (s.set c.key c.detail p)
  /-- The buffers are refused. -/
  | refuse {s : Store} {c : GetCall β} (h : c.Refused) : Step s (.get c false false c.bufs) s
  /-- There is no entry of the key and the detail. -/
  | miss {s : Store} {c : GetCall β} (hr : ¬ c.Refused)
      (h : ∀ e, s.find c.key = some e → ¬ c.Accepts e.detail) : Step s (.get c false false c.bufs) s
  /-- The entry is delivered; the buffers may be refused half-way. -/
  | hit {s : Store} {c : GetCall β} {e : Entry} (hr : ¬ c.Refused) (hf : s.find c.key = some e)
      (hd : c.Accepts e.detail) {status : Bool} {bufs : Buffers β}
      (h : deliver c.bufs c.buffer1 c.buffer2 c.size1.toNat e.bytes = (status, bufs)) :
      Step s (.get c true status bufs) (s.touch c.key)

/-- The runs of a cache that starts empty. -/
def service (β : Type) [HyScanBuffer β] : Lts Store (Event β) where
  init s := s.entries = []
  tr := Store.Step

end HyScanCache
