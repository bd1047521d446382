import HyScanCache.Cached.Calls
import HyScanCache.Remote.Rpc

/-!
# `HyScanCacheServer`, as `hyscan-cache-server.c` computes it

The procedures of the server as programs: they read the parameters of the request, set those of the reply, and
call the cache.  A thread of the server has a buffer, which a procedure makes lie in the memory of a parameter.
`serve` runs a procedure when no operation is refused.
-/

namespace HyScanCache.Remote

open Lib

/-- What a procedure of the server calls. -/
inductive ServerOp (β : Type) where
  | getUint64 (p : Param)
  | getData (p : Param)
  | setUint32 (p : Param) (v : UInt32)
  | reserve (p : Param) (size : UInt32)
  /-- The buffer that lies in the memory of the parameter was written to. -/
  | write (p : Param) (memory : Bytes)
  | cacheSet (c : SetCall β)
  | cacheGet (c : GetCall β)

/-- What a call returns: `true` for a zero status, and the memory that was reserved. -/
@[reducible] def ServerOp.Ans {β : Type} : ServerOp β → Type
  | getUint64 _ => Option UInt64
  | getData _ => Option Bytes
  | setUint32 .. => Bool
  | reserve .. => Option Bytes
  | write .. => Unit
  | cacheSet _ => Bool
  | cacheGet _ => Bool × Buffers β

/-- A procedure of the server. -/
abbrev ServerProg (β : Type) := Prog (ServerOp β) ServerOp.Ans

namespace Server

variable {β : Type}

section Calls

/-- `urpc_data_get_uint64` -/
abbrev urpcDataGetUint64 (p : Param) : ServerProg β (Option UInt64) := Prog.perform (ServerOp.getUint64 p)

/-- `urpc_data_get` -/
abbrev urpcDataGet (p : Param) : ServerProg β (Option Bytes) := Prog.perform (ServerOp.getData p)

/-- `urpc_data_set_uint32` -/
abbrev urpcDataSetUint32 (p : Param) (v : UInt32) : ServerProg β Bool := Prog.perform (ServerOp.setUint32 p v)

/-- `urpc_data_set` without data: the memory. -/
abbrev urpcDataSet (p : Param) (size : UInt32) : ServerProg β (Option Bytes) :=
  Prog.perform (ServerOp.reserve p size)

/-- What became of the memory of a parameter. -/
abbrev writeMemory (p : Param) (memory : Bytes) : ServerProg β Unit := Prog.perform (ServerOp.write p memory)

/-- `hyscan_cache_set2i` -/
abbrev hyscanCacheSet2i (c : SetCall β) : ServerProg β Bool := Prog.perform (ServerOp.cacheSet c)

/-- `hyscan_cache_get2i` -/
abbrev hyscanCacheGet2i (c : GetCall β) : ServerProg β (Bool × Buffers β) := Prog.perform (ServerOp.cacheGet c)

end Calls

/-- `hyscan_cache_server_rpc_proc_version` -/
def procVersion : ServerProg β Unit := do
  let _ ← urpcDataSetUint32 .version HYSCAN_CACHE_RPC_VERSION

variable [HyScanBufferWrap β]

/-- `hyscan_cache_server_rpc_proc_set` up to the label `exit`: the status. -/
def procSetBody (buffer : β) : ServerProg β UInt32 := do
  match ← urpcDataGetUint64 .key with
  | none => return HYSCAN_CACHE_RPC_STATUS_FAIL
  | some key =>
    let detail ← urpcDataGetUint64 .detail
    let data ← urpcDataGet .data
    let status ← hyscanCacheSet2i
      { key, detail := detail.getD 0, buffer1 := data.map (wrap buffer), buffer2 := none }
    return if status then HYSCAN_CACHE_RPC_STATUS_OK else HYSCAN_CACHE_RPC_STATUS_FAIL

/-- `hyscan_cache_server_rpc_proc_set`; `buffer` is the buffer of the thread. -/
def procSet (buffer : β) : ServerProg β Unit := do
  let rpcStatus ← procSetBody buffer
  let _ ← urpcDataSetUint32 .status rpcStatus

/-- The call of the cache in `hyscan_cache_server_rpc_proc_get`: the whole object goes to one buffer. -/
def getWhole (key detail : UInt64) (buffer : β) : GetCall β where
  key := key
  detail := detail
  size1 := 0xFFFFFFFF
  bufs := fun _ => buffer
  buffer1 := some 0
  buffer2 := none

/-- `hyscan_cache_server_rpc_proc_get` up to the label `exit`: the status. -/
def procGetBody [URpc] (buffer : β) : ServerProg β UInt32 := do
  match ← urpcDataGetUint64 .key with
  | none => return HYSCAN_CACHE_RPC_STATUS_FAIL
  | some key =>
    let detail ← urpcDataGetUint64 .detail
    match ← urpcDataSet .data maxPayload with
    | none => return HYSCAN_CACHE_RPC_STATUS_FAIL
    | some data =>
      let (status, bufs) ← hyscanCacheGet2i (getWhole key (detail.getD 0) (wrap buffer data))
      writeMemory .data (memory (bufs 0))
      if !status then
        return HYSCAN_CACHE_RPC_STATUS_FAIL
      match ← urpcDataSet .data (guint32Size (bytes (bufs 0))) with
      | none => return HYSCAN_CACHE_RPC_STATUS_FAIL
      | some _ => return HYSCAN_CACHE_RPC_STATUS_OK

/-- `hyscan_cache_server_rpc_proc_get` -/
def procGet [URpc] (buffer : β) : ServerProg β Unit := do
  let rpcStatus ← procGetBody buffer
  let _ ← urpcDataSetUint32 .status rpcStatus

/-- The procedures `hyscan_cache_server_start` registers. -/
def program [URpc] (buffer : β) : Proc → ServerProg β Unit
  | .version => procVersion
  | .set => procSet buffer
  | .get => procGet buffer

/-! ### Running a procedure -/

/-- What a procedure works on. -/
structure Serving where
  request : URpcData
  reply : URpcData
  priv : HyScanCachedPrivate

variable [URpc]

/-- Operations that are not refused. -/
def Serving.perform (block : Block) : (o : ServerOp β) → Serving → Exec (o.Ans × Serving)
  | .getUint64 p, s => .ok (s.request.getUint64 p, s)
  | .getData p, s => .ok (s.request.getData p, s)
  | .setUint32 p v, s => .ok (true, { s with reply := s.reply.set p (.uint32 v) })
  | .reserve p size, s =>
    let memory := reserve (s.reply.getData p) size
    .ok (some memory, { s with reply := s.reply.set p (.bytes memory) })
  | .write p memory, s => .ok ((), { s with reply := s.reply.set p (.bytes memory) })
  | .cacheSet c, s => do
    let (status, priv) ← Cached.callSet block s.priv c
    .ok (status, { s with priv })
  | .cacheGet c, s => do
    let (status, bufs, priv) ← Cached.callGet s.priv c
    .ok ((status, bufs), { s with priv })

/-- A procedure is served: the reply and the cache.  `left` is what the reply held before. -/
def serve (block : Block) (buffer : β) (left : URpcData) (proc : Proc) (request : URpcData)
    (priv : HyScanCachedPrivate) : Exec (URpcData × HyScanCachedPrivate) := do
  let (_, s) ← (program buffer proc).run (Serving.perform block) ⟨request, left, priv⟩
  return (s.reply, s.priv)

end Server

end HyScanCache.Remote
