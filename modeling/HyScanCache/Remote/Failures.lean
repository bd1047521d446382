import HyScanCache.Cached.Failures
import HyScanCache.Remote.Answers

/-!
# Calls of a client that fail

A procedure sets the status of its reply in its last step, and a client returns `TRUE` only when it has read the
status OK.  So what it returns `TRUE` for was done by the cache, whatever has failed, and a client that returns
`FALSE` has not written to a buffer (`success_is_real`).
-/

namespace HyScanCache.Remote

open Lib Recency Cached

section Failures

variable {β : Type} [HyScanBufferWrap β] [URpc]
variable {priv : HyScanCachedPrivate} {request reply left : URpcData} {calls : List (Made β)} {t : Transport}

/-! ### The procedures -/

section Procedures

variable {key detail : UInt64} {data : Bytes} {buffer : β}

theorem always_status (status : UInt32) (hr : (cached β).Reachable priv) (hnone : reply.getUint32 .status = none) :
    (Prog.op (.setUint32 .status status : ServerOp β) fun _ => .ret ()).Always Job.Answers
      (fun _ j => j.calls = calls ∧ j.serving.reply.getData .data = reply.getData .data ∧
        ∀ v, j.serving.reply.getUint32 .status = some v → v = status) (Job.at request reply priv calls) := by
  refine always_setUint32 hr (fun priv _ => ⟨rfl, ?_, fun v hv => ?_⟩) ⟨rfl, rfl, fun v hv => ?_⟩
  · exact URpcData.getData_set_of_ne (by decide) _
  · rw [URpcData.getUint32_set_self] at hv
    exact (Option.some.inj hv).symm
  · rw [hnone] at hv
    cases hv

/-- The call of the cache in the procedure `set`. -/
def setWhole (key detail : UInt64) (data : Bytes) (buffer : β) : SetCall β where
  key := key
  detail := detail
  buffer1 := some (wrap buffer data)
  buffer2 := none

/-- The procedure `set` calls the cache with what it was sent, and says OK only if that call has succeeded. -/
theorem always_procSet (hr : (cached β).Reachable priv) (hk : request.getUint64 .key = some key)
    (hd : request.getUint64 .detail = some detail) (hdata : request.getData .data = some data)
    (hnone : reply.getUint32 .status = none) :
    (Server.procSet buffer).Always Job.Answers
      (fun _ j => j.serving.reply.getUint32 .status = some HYSCAN_CACHE_RPC_STATUS_OK →
        ∃ priv₁, j.calls = calls ++ [.set priv₁ (setWhole key detail data buffer) true])
      (Job.at request reply priv calls) := by
  refine always_getUint64 hr hk fun priv hr => ?_
  refine always_getUint64 hr hd fun priv hr => ?_
  refine always_getData hr hdata fun priv hr => ?_
  refine always_cacheSet hr fun status priv₁ priv' hr => ?_
  refine (always_status _ hr hnone).mono fun _ j ⟨hcalls, _, hstatus⟩ hok => ?_
  have hst := hstatus _ hok
  cases status with
  | false => exact absurd hst (by decide)
  | true => exact ⟨priv₁, hcalls⟩

/-- An object of the key, with the detail if one is asked for, that holds the value. -/
def Stored (priv : HyScanCachedPrivate) (key detail : UInt64) (value : Bytes) : Prop :=
  ∃ o ∈ storedObjects priv, o.hash = key ∧ (detail = 0 ∨ o.detail = detail) ∧ objectBytes o = value

omit [URpc] in
/-- What a successful `get` of the procedure leaves in the memory of the parameter. -/
theorem callGet_getWhole {region : Bytes} {priv' : HyScanCachedPrivate} {bufs : Buffers β}
    (hr : (cached β).Reachable priv)
    (hc : callGet priv (Server.getWhole key detail (wrap buffer region)) = .ok (true, bufs, priv')) :
    ∃ value rest, value.length < 2 ^ 32 ∧ Stored priv key detail value ∧ bytes (bufs 0) = value ∧
      memory (bufs 0) = value ++ rest := by
  obtain ⟨s, hA⟩ := Reachable.abs hr
  by_cases hf : Found priv (Server.getWhole key detail (wrap buffer region))
  · obtain ⟨us, o, vs, os', priv₁, hread, hk, hd, he, -⟩ := get_of_found hA hf
    have ho : o ∈ storedObjects priv := (hA.reads_perm hread).mem_iff.1 (by simp)
    have hlt := length_objectBytes_lt o
    obtain ⟨hstatus, hbufs, -⟩ : _ = true ∧ _ = bufs ∧ priv₁ = priv' := by simpa using he.symm.trans hc
    obtain ⟨hb, hm⟩ := deliver_wrap_true hlt (Prod.ext hstatus hbufs)
    exact ⟨objectBytes o, _, hlt, ⟨o, ho, hk, hd, rfl⟩, hb, hm⟩
  · rw [get_of_not_found hA hf] at hc
    cases hc

theorem always_fail {P : Job β → Prop} (hr : (cached β).Reachable priv) (hnone : reply.getUint32 .status = none) :
    (Prog.op (.setUint32 .status HYSCAN_CACHE_RPC_STATUS_FAIL : ServerOp β) fun _ => .ret ()).Always Job.Answers
      (fun _ j => j.serving.reply.getUint32 .status = some HYSCAN_CACHE_RPC_STATUS_OK → P j)
      (Job.at request reply priv calls) :=
  (always_status _ hr hnone).mono fun _ _ ⟨_, _, hstatus⟩ hok => absurd (hstatus _ hok) (by decide)

/-- The procedure `get` calls the cache with what it was sent, and says OK only if that call has succeeded and the
value is in the reply. -/
theorem always_procGet (hr : (cached β).Reachable priv) (hk : request.getUint64 .key = some key)
    (hd : request.getUint64 .detail = some detail) (hnone : reply.getUint32 .status = none) :
    (Server.procGet buffer).Always Job.Answers
      (fun _ j => j.serving.reply.getUint32 .status = some HYSCAN_CACHE_RPC_STATUS_OK →
        ∃ priv₁ region bufs value,
          j.calls = calls ++ [.get priv₁ (Server.getWhole key detail (wrap buffer region)) true bufs] ∧
          value.length < 2 ^ 32 ∧ Stored priv₁ key detail value ∧ j.serving.reply.getData .data = some value)
      (Job.at request reply priv calls) := by
  refine always_getUint64 hr hk fun priv hr => ?_
  refine always_getUint64 hr hd fun priv hr => ?_
  refine always_reserve hr (fun priv hr => ?_) (always_fail hr hnone)
  refine always_cacheGet hr fun status bufs priv₁ priv' hr₁ hc hr => ?_
  refine always_write hr fun priv hr => ?_
  rw [URpcData.set_set]
  have hnone' (v : Value) : (reply.set .data v).getUint32 .status = none :=
    (URpcData.getUint32_set_of_ne (by decide) v).trans hnone
  cases status with
  | false => exact always_fail hr (hnone' _)
  | true =>
    obtain ⟨value, rest, hlt, hstored, hb, hm⟩ := callGet_getWhole hr₁ hc
    refine always_reserve hr (fun priv hr => ?_) (always_fail hr (hnone' _))
    rw [URpcData.getData_set_self, hb, hm, reserve_front hlt rest, URpcData.set_set]
    refine (always_status _ hr (hnone' _)).mono fun _ j ⟨hcalls, hdata, _⟩ _ => ?_
    exact ⟨priv₁, _, bufs, value, hcalls, hlt, hstored, hdata.trans (URpcData.getData_set_self _)⟩

end Procedures

/-! ### Calls of a client -/

theorem always_copyParts {data1 data2 region : Bytes} (h1 : data1.length < 2 ^ 32) (h2 : data2.length < 2 ^ 32)
    (hlen : region.length = data1.length + data2.length) :
    (copyParts data1 data2).Always Session.Answers
      (fun _ s => s = Session.at ⟨request.set .data (.bytes (data1 ++ data2)), reply⟩ priv calls)
      (Session.at ⟨request.set .data (.bytes region), reply⟩ priv calls) := by
  have hwrite : ∀ o : ClientOp, (∃ p offset src, o = .write p offset src) → ∀ (s : Session β) b s',
      Session.Answers o s b s' → s.link.transport.perform o = .ok (b, s'.link.transport) ∧
        (s'.link.priv, s'.calls) = (s.link.priv, s.calls) := by
    rintro _ ⟨p, offset, src, rfl⟩ s b s' ho
    cases ho with
    | perform _ ho => exact ⟨ho, rfl⟩
    | refuse h => cases h
  have hrun := Prog.Always.of_run (f := fun s : Session β => s.link.transport)
    (g := fun s => (s.link.priv, s.calls)) hwrite (uses_copyParts data1 data2)
    (t := Session.at ⟨request.set .data (.bytes region), reply⟩ priv calls) (run_copyParts h1 h2 hlen)
  refine hrun.mono fun _ s ⟨_, ht, hrest⟩ => ?_
  obtain ⟨⟨t, priv'⟩, calls'⟩ := s
  obtain rfl : t = _ := ht
  obtain ⟨rfl, rfl⟩ := Prod.mk.inj hrest
  rfl

/-- The cache was called once more, with the key, the detail and the payload of the call, and it has succeeded. -/
def SetMade (c : SetCall β) (calls calls' : List (Made β)) : Prop :=
  ∃ priv₁ c', calls' = calls ++ [.set priv₁ c' true] ∧ c'.key = c.key ∧ c'.detail = c.detail ∧
    c'.payload = c.payload

omit [URpc] in
theorem payload_setWhole {key detail : UInt64} {data : Bytes} {buffer : β} (hlt : data.length < 2 ^ 32) :
    (setWhole key detail data buffer).payload = data := by
  have hp : (setWhole key detail data buffer).payload = bytes (wrap buffer data) ++ [] := rfl
  rw [hp, HyScanBufferWrap.bytes_wrap _ _ hlt, List.append_nil]

theorem always_clientSet {c : SetCall β} (hr : (cached β).Reachable priv) (hlt : c.payload.length < 2 ^ 32)
    (connected : Bool) :
    (clientSet connected c).Always Session.Answers (fun status s => status = true → SetMade c calls s.calls)
      (Session.at t priv calls) := by
  have hfalse {P : Prop} : false = true → P := nofun
  cases connected with
  | false => exact hfalse
  | true =>
    rw [clientSet_eq]
    split
    · exact hfalse
    refine always_session (P := fun status calls' => status = true → SetMade c calls calls') ?_ hfalse
    refine always_refusable nofun rfl rfl ?_ hfalse
    refine always_refusable nofun rfl rfl ?_ hfalse
    refine always_refusable nofun rfl rfl ?_ hfalse
    show (copyParts (givenBytes c.buffer1) (givenBytes c.buffer2) >>= fun _ => _).Always _ _ _
    refine Prog.Always.bind ((always_copyParts (length_givenBytes_lt _) (length_givenBytes_lt _) ?_).mono ?_)
    · have hsize : (callSize c).toNat = c.payload.length := (toNat_callSize c).trans (Nat.mod_eq_of_lt hlt)
      rw [← List.length_append, URpc.length_reserve]
      exact hsize
    rintro _ _ rfl
    refine always_exec (fun buffer left j hleft hj => ?_) fun _ => hfalse
    refine always_refusable nofun rfl rfl ?_ hfalse
    -- what the client has sent is what the procedure has read
    obtain ⟨hk, hd⟩ := request_keys t.request c.key c.detail
    have hdone := hj.post (always_procSet hr ((URpcData.getUint64_set_of_ne (by decide) _).trans hk)
      ((URpcData.getUint64_set_of_ne (by decide) _).trans hd) (URpcData.getData_set_self c.payload) hleft)
    generalize j.serving.reply.getUint32 .status = status at hdone ⊢
    cases status with
    | none => exact hfalse
    | some execStatus =>
      intro hok
      obtain rfl : execStatus = HYSCAN_CACHE_RPC_STATUS_OK := eq_of_beq hok
      obtain ⟨priv₁, hcalls⟩ := hdone rfl
      exact ⟨priv₁, _, hcalls, rfl, rfl, payload_setWhole hlt⟩

/-- What a client that gets an object does with its value: each buffer is given its part, and no other buffer is
written. -/
structure Parted (c : GetCall β) (value : Bytes) (bufs : Buffers β) : Prop where
  given1 : ∀ b, c.buffer1 = some b → bufs b = HyScanBufferWrap.set (c.bufs b) (value.take c.size1.toNat)
  given2 : ∀ b, c.buffer2 = some b → bufs b = HyScanBufferWrap.set (c.bufs b) (value.drop c.size1.toNat)
  others : ∀ b, c.buffer1 ≠ some b → c.buffer2 ≠ some b → bufs b = c.bufs b
  /-- A buffer that takes any size has its part. -/
  bytes1 : ∀ b, c.buffer1 = some b → Grows (c.bufs b) → bytes (bufs b) = value.take c.size1.toNat
  bytes2 : ∀ b, c.buffer2 = some b → Grows (c.bufs b) → bytes (bufs b) = value.drop c.size1.toNat

omit [URpc] in
theorem setBuffer_of_ne {bufs : Buffers β} {buffer : BufferPtr} {b : ℕ} (h : buffer ≠ some b) (part : Bytes) :
    setBuffer bufs buffer part b = bufs b := by
  cases buffer with
  | none => rfl
  | some b' => exact Function.update_of_ne (fun e => h (by rw [e])) _ _

omit [URpc] in
theorem parted_setParts {c : GetCall β} {value : Bytes} (hlt : value.length < 2 ^ 32)
    (hne : ∀ b, c.buffer1 = some b → c.buffer2 ≠ some b) : Parted c value (setParts c value) := by
  have hself (bufs : Buffers β) (b : ℕ) (part : Bytes) :
      setBuffer bufs (some b) part b = HyScanBufferWrap.set (bufs b) part := Function.update_self ..
  have h1 : ∀ b, c.buffer1 = some b →
      setParts c value b = HyScanBufferWrap.set (c.bufs b) (value.take c.size1.toNat) := by
    intro b hb
    rw [setParts_eq hlt, setBuffer_of_ne (hne b hb), hb, hself]
  have h2 : ∀ b, c.buffer2 = some b →
      setParts c value b = HyScanBufferWrap.set (c.bufs b) (value.drop c.size1.toNat) := by
    intro b hb
    have hb1 : c.buffer1 ≠ some b := fun h => hne b h hb
    rw [setParts_eq hlt, hb, hself, setBuffer_of_ne hb1]
  refine ⟨h1, h2, ?_, ?_, ?_⟩
  · intro b hb1 hb2
    rw [setParts_eq hlt, setBuffer_of_ne hb2, setBuffer_of_ne hb1]
  · intro b hb hg
    rw [h1 b hb]
    exact HyScanBufferWrap.bytes_set _ _ hg (by rw [List.length_take]; omega)
  · intro b hb hg
    rw [h2 b hb]
    exact HyScanBufferWrap.bytes_set _ _ hg (by rw [List.length_drop]; omega)

/-- The cache was called once more, with the key and the detail of the call, it has succeeded, and the buffers have
the value it had stored. -/
def GetMade (c : GetCall β) (calls calls' : List (Made β)) (bufs : Buffers β) : Prop :=
  ∃ priv₁ c' bufs' value, calls' = calls ++ [.get priv₁ c' true bufs'] ∧ c'.key = c.key ∧ c'.detail = c.detail ∧
    Stored priv₁ c.key c.detail value ∧ Parted c value bufs

/-- The cache was called so if the client returns `TRUE`, and the buffers were left alone if it returns `FALSE`. -/
def GetResult (c : GetCall β) (calls : List (Made β)) (r : Bool × Buffers β) (calls' : List (Made β)) : Prop :=
  (r.1 = true → GetMade c calls calls' r.2) ∧ (r.1 = false → r.2 = c.bufs)

theorem always_clientGet {c : GetCall β} (hr : (cached β).Reachable priv)
    (hne : ∀ b, c.buffer1 = some b → c.buffer2 ≠ some b) (connected : Bool) :
    (clientGet connected c).Always Session.Answers
      (fun r s => GetResult c calls r s.calls) (Session.at t priv calls) := by
  have hfalse {calls' : List (Made β)} : GetResult c calls (false, c.bufs) calls' := ⟨nofun, fun _ => rfl⟩
  cases connected with
  | false => exact hfalse
  | true =>
    rw [clientGet_eq]
    split
    · exact hfalse
    refine always_session (P := GetResult c calls) ?_ hfalse
    refine always_refusable nofun rfl rfl ?_ hfalse
    refine always_refusable nofun rfl rfl ?_ hfalse
    refine always_exec (fun buffer left j hleft hj => ?_) fun _ => hfalse
    refine always_refusable nofun rfl rfl ?_ hfalse
    obtain ⟨hk, hd⟩ := request_keys t.request c.key c.detail
    have hdone := hj.post (always_procGet hr hk hd hleft)
    generalize j.serving.reply.getUint32 .status = status at hdone ⊢
    cases status with
    | none => exact hfalse
    | some execStatus =>
      by_cases hok : execStatus = HYSCAN_CACHE_RPC_STATUS_OK
      · subst hok
        obtain ⟨priv₁, region, bufs, value, hcalls, hlt, hstored, hdata⟩ := hdone rfl
        refine always_refusable nofun rfl rfl ?_ hfalse
        rw [hdata]
        refine ⟨fun _ => ?_, nofun⟩
        exact ⟨priv₁, _, bufs, value, hcalls, rfl, rfl, hstored, parted_setParts hlt hne⟩
      · show (if execStatus ≠ HYSCAN_CACHE_RPC_STATUS_OK then Prog.ret (false, c.bufs) else _).Always _ _ _
        rw [if_pos hok]
        exact hfalse

/-! ### Success -/

/-- **Success is real.**  Whatever is refused or fails on either side, and whatever other callers do to the cache
meanwhile: `hyscan_cache_client_set` returns `TRUE` only if the server has called the cache once, with the key, the
detail and the payload of the call, and that `set` has succeeded; `hyscan_cache_client_get` returns `TRUE` only if
the server has called the cache once, with the key and the detail of the call, that `get` has succeeded, and the
two parts of the value that was stored are in the buffers; if it returns `FALSE`, the buffers are as they were. -/
theorem success_is_real (hr : (cached β).Reachable priv) (t : Transport) (calls : List (Made β)) (connected : Bool) :
    (∀ (c : SetCall β) s, c.payload.length < 2 ^ 32 →
      (clientSet connected c).Runs Session.Answers (Session.at t priv calls) true s → SetMade c calls s.calls) ∧
    ∀ (c : GetCall β) b status bufs s, c.buffer1 = some b → c.buffer2 ≠ some b →
      (clientGet connected c).Runs Session.Answers (Session.at t priv calls) (status, bufs) s →
        (status = true → GetMade c calls s.calls bufs) ∧ (status = false → bufs = c.bufs) := by
  constructor
  · intro c s hlt hrun
    exact hrun.post (always_clientSet hr hlt connected) rfl
  · intro c b status bufs s hb hne hrun
    refine hrun.post (always_clientGet hr (fun b' hb' => ?_) connected)
    obtain rfl : b = b' := Option.some.inj (hb.symm.trans hb')
    exact hne

end Failures

section Sample

local instance failuresURpc : URpc := plainURpc

/-- A transport before its first call. -/
def idle : Transport := ⟨fun _ => none, fun _ => none⟩

/-- A payload is stored by a client and read back. -/
theorem success_is_real_sample : ∃ (s s' : Session PlainBuffer) (bufs : Buffers PlainBuffer),
    (clientSet true (sampleSet 7)).Runs Session.Answers (Session.at idle (new 64) []) true s ∧
    SetMade (sampleSet 7) [] s.calls ∧
    (clientGet true (sampleGet 7)).Runs Session.Answers (Session.at idle s.link.priv []) (true, bufs) s' ∧
    GetMade (sampleGet 7) [] s'.calls bufs := by
  have hle : (sampleSet 7).payload.length ≤ (maxPayload : UInt32).toNat := by decide
  obtain ⟨priv, -, hput, -⟩ := sample_sets
  have hr : (cached PlainBuffer).Reachable priv := reachable_new.step (Step.set _ hput)
  -- the client sets the payload as a direct caller does
  obtain ⟨t, hclient⟩ := run_clientSet_ok ⟨0, fun _ => 0⟩ PlainBuffer.empty (fun _ => none) hle idle hput
  obtain ⟨s, hset, hs⟩ := runs_of_run rfl hclient
  -- and it gets what a direct caller gets
  obtain ⟨store, he, -, hA⟩ := abs_new (show MIN_CACHE_SIZE ≤ 64 by decide) (by decide)
  obtain ⟨store', hstep, hA'⟩ := step_abs hA (Step.set _ hput)
  have hp : Payloads store' := Payloads.step (by simp [Payloads, he]) hstep (by rintro _ _ ⟨⟩; exact hle)
  obtain ⟨status, bufs₁, bufs, priv', t', hcall, hrun, -⟩ := run_clientGet hA' hp
    ⟨⟨0, rfl, by decide⟩, fun _ _ _ => rfl⟩ ⟨0, fun _ => 0⟩ PlainBuffer.empty (fun _ => none) idle (c := sampleGet 7)
  obtain rfl : status = true := by
    cases hput
    cases hcall
    rfl
  obtain ⟨s', hget, -⟩ := runs_of_run rfl hrun
  obtain rfl : s.link.priv = priv := by rw [hs]
  exact ⟨s, s', bufs, hset, (success_is_real reachable_new idle [] true).1 _ _ (by decide) hset, hget,
    ((success_is_real hr idle [] true).2 _ 0 _ _ _ rfl (by decide) hget).1 rfl⟩

end Sample

end HyScanCache.Remote
