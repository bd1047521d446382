import HyScanCache.Lib.Prog
import HyScanCache.Buffer

/-!
# The protocol of the remote cache

The constants of `hyscan-cache-rpc.h`, and what the two sides rely on of uRPC, which is another library: a
client fills the parameters of a request, has a procedure executed, and reads the parameters of the reply.  The
operations of a client are `ClientOp`; `Transport.perform` says what they do to the two sets of parameters when
they are not refused, and `ClientOp.refusal` what a refused one answers.
-/

namespace HyScanCache.Remote

open Lib

/-- `HYSCAN_CACHE_RPC_VERSION` -/
def HYSCAN_CACHE_RPC_VERSION : UInt32 := 20151200

/-- `HYSCAN_CACHE_RPC_STATUS_OK` -/
def HYSCAN_CACHE_RPC_STATUS_OK : UInt32 := 1

/-- `HYSCAN_CACHE_RPC_STATUS_FAIL` -/
def HYSCAN_CACHE_RPC_STATUS_FAIL : UInt32 := 0

/-- `HYSCAN_CACHE_RPC_PROC_*` -/
inductive Proc where
  | version | set | get
  deriving DecidableEq

/-- `HYSCAN_CACHE_RPC_PARAM_*` -/
inductive Param where
  | version | status | key | detail | data
  deriving DecidableEq

/-! ### uRPC -/

/-- The value of a parameter. -/
inductive Value where
  | uint32 (v : UInt32)
  | uint64 (v : UInt64)
  | bytes (b : Bytes)

/-- `uRpcData`: the parameters that are set. -/
abbrev URpcData := Param → Option Value

namespace URpcData

variable (d : URpcData)

/-- `urpc_data_get_uint32` -/
def getUint32 (p : Param) : Option UInt32 :=
  match d p with
  | some (.uint32 v) => some v
  | _ => none

/-- `urpc_data_get_uint64` -/
def getUint64 (p : Param) : Option UInt64 :=
  match d p with
  | some (.uint64 v) => some v
  | _ => none

/-- `urpc_data_get` -/
def getData (p : Param) : Option Bytes :=
  match d p with
  | some (.bytes b) => some b
  | _ => none

/-- `urpc_data_set_*` -/
def set (p : Param) (v : Value) : URpcData := Function.update d p (some v)

variable {d} {p q : Param}

theorem set_self (v : Value) : d.set p v p = some v := Function.update_self ..

theorem set_of_ne (h : q ≠ p) (v : Value) : d.set p v q = d q := Function.update_of_ne h ..

@[simp] theorem set_set (v v' : Value) : (d.set p v).set p v' = d.set p v' := Function.update_idem ..

@[simp] theorem getUint32_set_self (v : UInt32) : (d.set p (.uint32 v)).getUint32 p = some v := by
  rw [getUint32, set_self]

@[simp] theorem getUint64_set_self (v : UInt64) : (d.set p (.uint64 v)).getUint64 p = some v := by
  rw [getUint64, set_self]

@[simp] theorem getData_set_self (b : Bytes) : (d.set p (.bytes b)).getData p = some b := by
  rw [getData, set_self]

theorem getUint32_set_of_ne (h : q ≠ p) (v : Value) : (d.set p v).getUint32 q = d.getUint32 q := by
  rw [getUint32, getUint32, set_of_ne h]

theorem getUint64_set_of_ne (h : q ≠ p) (v : Value) : (d.set p v).getUint64 q = d.getUint64 q := by
  rw [getUint64, getUint64, set_of_ne h]

theorem getData_set_of_ne (h : q ≠ p) (v : Value) : (d.set p v).getData q = d.getData q := by
  rw [getData, getData, set_of_ne h]

end URpcData

/-- What is left open of uRPC. -/
class URpc where
  URPC_MAX_DATA_SIZE : UInt32
  /-- The memory of `size` bytes that `urpc_data_set` gives to a parameter it is told no data for, by the data
  the parameter had. -/
  reserve : Option Bytes → UInt32 → Bytes
  length_reserve : ∀ old size, (reserve old size).length = size.toNat
  /-- Less memory than before keeps its contents. -/
  reserve_of_le : ∀ d size, size.toNat ≤ d.length → reserve (some d) size = d.take size.toNat

export URpc (URPC_MAX_DATA_SIZE reserve)

/-- A transport of one mebibyte, to run the programs on. -/
@[reducible] def plainURpc : URpc where
  URPC_MAX_DATA_SIZE := 1024 * 1024
  reserve old size := (old.getD []).take size.toNat ++ List.replicate (size.toNat - (old.getD []).length) 0
  length_reserve old size := by
    rw [List.length_append, List.length_take, List.length_replicate]
    omega
  reserve_of_le d size h := by
    rw [Option.getD_some, Nat.sub_eq_zero_of_le h, List.replicate_zero, List.append_nil]

/-- The largest payload that client and server pass on. -/
def maxPayload [URpc] : UInt32 := URPC_MAX_DATA_SIZE - 1024

/-- The parameters of the request and of the reply. -/
structure Transport where
  request : URpcData
  reply : URpcData

/-! ### The operations of a client -/

/-- The calls a client makes; `write` is a `memcpy` to the memory of a parameter. -/
inductive ClientOp where
  | lock
  | unlock
  | setUint64 (p : Param) (v : UInt64)
  | reserve (p : Param) (size : UInt32)
  | write (p : Param) (offset : UInt32) (src : Bytes)
  | exec (proc : Proc)
  | getUint32 (p : Param)
  | getData (p : Param)

namespace ClientOp

/-- What a call returns: `true` for a pointer that is not null and for a zero status. -/
@[reducible] def Ans : ClientOp → Type
  | lock | setUint64 .. | reserve .. | exec _ => Bool
  | unlock | write .. => Unit
  | getUint32 _ => Option UInt32
  | getData _ => Option Bytes

/-- What a call returns that is refused; the calls that return nothing are not. -/
def refusal : (o : ClientOp) → Option o.Ans
  | lock | setUint64 .. | reserve .. | exec _ => some false
  | unlock | write .. => none
  | getUint32 _ => some (none : Option UInt32)
  | getData _ => some (none : Option Bytes)

end ClientOp

/-- A program of a client. -/
abbrev ClientProg := Prog ClientOp ClientOp.Ans

section Calls

/-- `urpc_client_lock`: whether the transport is locked. -/
abbrev urpcClientLock : ClientProg Bool := Prog.perform ClientOp.lock

/-- `urpc_client_unlock` -/
abbrev urpcClientUnlock : ClientProg Unit := Prog.perform ClientOp.unlock

/-- `urpc_data_set_uint64` -/
abbrev urpcDataSetUint64 (p : Param) (v : UInt64) : ClientProg Bool := Prog.perform (ClientOp.setUint64 p v)

/-- `urpc_data_set` without data: whether there is memory. -/
abbrev urpcDataSet (p : Param) (size : UInt32) : ClientProg Bool := Prog.perform (ClientOp.reserve p size)

/-- `memcpy` to the memory of a parameter. -/
abbrev memcpy (p : Param) (offset : UInt32) (src : Bytes) : ClientProg Unit :=
  Prog.perform (ClientOp.write p offset src)

/-- `urpc_client_exec`: whether the status is `URPC_STATUS_OK`. -/
abbrev urpcClientExec (proc : Proc) : ClientProg Bool := Prog.perform (ClientOp.exec proc)

/-- `urpc_data_get_uint32` -/
abbrev urpcDataGetUint32 (p : Param) : ClientProg (Option UInt32) := Prog.perform (ClientOp.getUint32 p)

/-- `urpc_data_get` -/
abbrev urpcDataGet (p : Param) : ClientProg (Option Bytes) := Prog.perform (ClientOp.getData p)

end Calls

namespace Transport

variable [URpc] (t : Transport)

/-- What a call does that is not refused.  The lock, and what executing a procedure does to the reply, are the
business of the system the client is part of. -/
def perform : (o : ClientOp) → Exec (o.Ans × Transport)
  | .lock | .exec _ => .ok (true, t)
  | .unlock => .ok ((), t)
  | .setUint64 p v => .ok (true, { t with request := t.request.set p (.uint64 v) })
  | .reserve p size =>
    .ok (true, { t with request := t.request.set p (.bytes (reserve (t.request.getData p) size)) })
  | .write p offset src =>
    match t.request.getData p with
    | none => .error .nullPointer
    | some region =>
      if offset.toNat + src.length ≤ region.length then
        let region := region.take offset.toNat ++ src ++ region.drop (offset.toNat + src.length)
        .ok ((), { t with request := t.request.set p (.bytes region) })
      else
        .error .overrun
  | .getUint32 p => .ok (t.reply.getUint32 p, t)
  | .getData p => .ok (t.reply.getData p, t)

variable {t}

/-- A write inside the memory of a parameter. -/
theorem perform_write {p : Param} {offset : UInt32} {src region : Bytes} (hr : t.request.getData p = some region)
    (h : offset.toNat + src.length ≤ region.length) :
    t.perform (.write p offset src) = .ok ((), { t with request := t.request.set p (.bytes
      (region.take offset.toNat ++ src ++ region.drop (offset.toNat + src.length))) }) := by
  rw [perform]
  simp only [hr]
  exact if_pos h

/-- A write that ends outside the memory of a parameter. -/
theorem perform_write_overrun {p : Param} {offset : UInt32} {src region : Bytes}
    (hr : t.request.getData p = some region) (h : region.length < offset.toNat + src.length) :
    t.perform (.write p offset src) = .error .overrun := by
  rw [perform]
  simp only [hr]
  exact if_neg (by omega)

end Transport

end HyScanCache.Remote
