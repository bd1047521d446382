import HyScanCache.Remote.Rpc
import HyScanCache.Service

/-!
# `HyScanCacheClient`, as `hyscan-cache-client.c` computes it

The functions of the source as programs of a client.  All of them lock the transport, set the parameters, have
the procedure executed, read the reply and unlock the transport.  Every error leaves for the label `exit`,
which the body of a function models by returning; what stands at the label follows the body.
-/

namespace HyScanCache.Remote

open Lib

variable {β : Type}

/-- The two `memcpy` calls of `hyscan_cache_client_set`. -/
def copyParts (data1 data2 : Bytes) : ClientProg Unit := do
  let size1 := guint32Size data1
  let size2 := guint32Size data2
  if size1 > 0 then
    memcpy .data 0 data1
  if size2 > 0 then
    memcpy .data size1 data2

theorem uses_copyParts (data1 data2 : Bytes) :
    (copyParts data1 data2).Uses fun o => ∃ p offset src, o = .write p offset src := by
  have hwrite (p : Param) (offset : UInt32) (src : Bytes) :
      (memcpy p offset src).Uses fun o => ∃ p offset src, o = .write p offset src :=
    ⟨⟨p, offset, src, rfl⟩, fun _ => trivial⟩
  unfold copyParts
  by_cases h1 : guint32Size data1 > 0 <;> by_cases h2 : guint32Size data2 > 0
  · rw [if_pos h1, if_pos h2]
    exact ⟨⟨_, _, _, rfl⟩, fun _ => hwrite _ _ _⟩
  · rw [if_pos h1, if_neg h2]
    exact ⟨⟨_, _, _, rfl⟩, fun _ => trivial⟩
  · rw [if_neg h1, if_pos h2]
    exact hwrite _ _ _
  · rw [if_neg h1, if_neg h2]
    trivial

/-- What `hyscan_cache_client_set` does when the transport is locked, up to the label `exit`. -/
def clientSetLocked [HyScanBuffer β] (c : SetCall β) : ClientProg Bool := do
  let data1 := givenBytes c.buffer1
  let data2 := givenBytes c.buffer2
  if !(← urpcDataSetUint64 .key c.key) then
    return false
  if !(← urpcDataSetUint64 .detail c.detail) then
    return false
  if !(← urpcDataSet .data (guint32Size data1 + guint32Size data2)) then
    return false
  copyParts data1 data2
  if !(← urpcClientExec .set) then
    return false
  match ← urpcDataGetUint32 .status with
  | none => return false
  | some execStatus => return execStatus == HYSCAN_CACHE_RPC_STATUS_OK

/-- `hyscan_cache_client_set` from the lock to the label `exit`. -/
def clientSetBody [HyScanBuffer β] (c : SetCall β) : ClientProg Bool := do
  if !(← urpcClientLock) then
    return false
  clientSetLocked c

/-- `hyscan_cache_client_set`; `connected` says that `rpc` is not null. -/
def clientSet [HyScanBuffer β] [URpc] (connected : Bool) (c : SetCall β) : ClientProg Bool := do
  if !connected then
    return false
  if guint32Size (givenBytes c.buffer1) + guint32Size (givenBytes c.buffer2) > maxPayload then
    return false
  let status ← clientSetBody c
  urpcClientUnlock
  return status

/-- `hyscan_buffer_set` of a buffer of the caller. -/
def setBuffer [HyScanBufferWrap β] (bufs : Buffers β) (buffer : BufferPtr) (data : Bytes) : Buffers β :=
  match buffer with
  | none => bufs
  | some b => Function.update bufs b (HyScanBufferWrap.set (bufs b) data)

/-- The two `hyscan_buffer_set` calls of `hyscan_cache_client_get`. -/
def setParts [HyScanBufferWrap β] (c : GetCall β) (data : Bytes) : Buffers β :=
  let size := guint32Size data
  let size1 := min size c.size1
  let bufs := setBuffer c.bufs c.buffer1 (data.take size1.toNat)
  setBuffer bufs c.buffer2 ((data.drop size1.toNat).take (size - size1).toNat)

/-- What `hyscan_cache_client_get` does when the transport is locked, up to the label `exit`. -/
def clientGetLocked [HyScanBufferWrap β] (c : GetCall β) : ClientProg (Bool × Buffers β) := do
  if !(← urpcDataSetUint64 .key c.key) then
    return (false, c.bufs)
  if !(← urpcDataSetUint64 .detail c.detail) then
    return (false, c.bufs)
  if !(← urpcClientExec .get) then
    return (false, c.bufs)
  match ← urpcDataGetUint32 .status with
  | none => return (false, c.bufs)
  | some execStatus =>
    if execStatus ≠ HYSCAN_CACHE_RPC_STATUS_OK then
      return (false, c.bufs)
    match ← urpcDataGet .data with
    | none => return (false, c.bufs)
    | some data => return (true, setParts c data)

/-- `hyscan_cache_client_get` from the lock to the label `exit`. -/
def clientGetBody [HyScanBufferWrap β] (c : GetCall β) : ClientProg (Bool × Buffers β) := do
  if !(← urpcClientLock) then
    return (false, c.bufs)
  clientGetLocked c

/-- `hyscan_cache_client_get` -/
def clientGet [HyScanBufferWrap β] (connected : Bool) (c : GetCall β) : ClientProg (Bool × Buffers β) := do
  if !connected then
    return (false, c.bufs)
  if c.Refused then
    return (false, c.bufs)
  let result ← clientGetBody c
  urpcClientUnlock
  return result

/-- A function of a client from the lock on: a refused lock leaves for the label `exit` as well. -/
def session {α : Type} (locked : ClientProg α) (refused : α) : ClientProg α :=
  .op .lock fun granted => (if !granted then .ret refused else locked) >>= fun r =>
    .op .unlock fun _ => .ret r

theorem clientSet_eq [HyScanBuffer β] [URpc] (c : SetCall β) :
    clientSet true c =
      if guint32Size (givenBytes c.buffer1) + guint32Size (givenBytes c.buffer2) > maxPayload then .ret false
      else session (clientSetLocked c) false := by
  unfold clientSet
  by_cases hs : guint32Size (givenBytes c.buffer1) + guint32Size (givenBytes c.buffer2) > maxPayload
  · rw [if_pos hs, if_pos hs]
    rfl
  · rw [if_neg hs, if_neg hs]
    rfl

theorem clientGet_eq [HyScanBufferWrap β] (c : GetCall β) :
    clientGet true c =
      if c.Refused then .ret (false, c.bufs) else session (clientGetLocked c) (false, c.bufs) := by
  unfold clientGet
  by_cases hr : c.Refused
  · rw [if_pos hr, if_pos hr]
    rfl
  · rw [if_neg hr, if_neg hr]
    rfl

/-- `hyscan_cache_client_object_constructed` once it is connected: whether it stays so. -/
def clientConstructed : ClientProg Bool := do
  if !(← urpcClientLock) then
    return false
  if !(← urpcClientExec .version) then
    urpcClientUnlock
    return false
  match ← urpcDataGetUint32 .version with
  | none =>
    urpcClientUnlock
    return false
  | some version =>
    urpcClientUnlock
    return version == HYSCAN_CACHE_RPC_VERSION

end HyScanCache.Remote
