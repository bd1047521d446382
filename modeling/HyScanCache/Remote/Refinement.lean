import HyScanCache.Cached.Runs
import HyScanCache.History
import HyScanCache.Remote.Client
import HyScanCache.Remote.Server

/-!
# The remote cache refines the local one

A client sends the two parts of a payload as one, and the server stores it as one part; the server reads an
object whole into memory of the largest size and cuts it to the size of the object, and the client splits it.
Nothing is refused here, and the memory a parameter is given may hold anything.

* `serve_set`, `serve_get_true`, `serve_get_false`: the server's procedures call the cache once, and say in the
  reply how it went;
* `run_clientSet`, `run_clientGet`: a call of a client is the call of the cache, with the same buffers;
* `remote_refines_local`: so are the calls of any number of clients among direct calls.
-/

namespace HyScanCache.Remote

open Lib Recency Cached

section Refinement

variable {β : Type} [HyScanBufferWrap β] [URpc]
variable {block : Block} {buffer : β} {left request reply : URpcData} {priv priv' : HyScanCachedPrivate}

/-! ### A procedure -/

section Serve

open Server

variable {key detail : UInt64} {data : Bytes}

theorem serve_set (hk : request.getUint64 .key = some key) (hd : request.getUint64 .detail = some detail)
    (hdata : request.getData .data = some data) :
    serve block buffer left .set request priv = (do
      let (status, priv) ← callSet block priv
        { key, detail, buffer1 := some (wrap buffer data), buffer2 := none }
      let rpcStatus := if status then HYSCAN_CACHE_RPC_STATUS_OK else HYSCAN_CACHE_RPC_STATUS_FAIL
      return (left.set .status (.uint32 rpcStatus), priv)) := by
  simp only [serve, program, procSet, procSetBody, Prog.perform_bind, Prog.op_bind, Prog.run, Serving.perform,
    hk, hd, hdata, Exec.ok_bind, Option.map_some, Option.getD_some]
  cases callSet block priv { key, detail, buffer1 := some (wrap buffer data), buffer2 := none } <;> rfl

/-- The memory the procedure `get` reserves, and the call it makes. -/
def wholeCall (key detail : UInt64) (buffer : β) (left : URpcData) : GetCall β :=
  getWhole key detail (wrap buffer (reserve (left.getData .data) maxPayload))

/-- The procedure `get` when the cache delivers nothing. -/
theorem serve_get_false {bufs : Buffers β} (hk : request.getUint64 .key = some key)
    (hd : request.getUint64 .detail = some detail)
    (hcall : callGet priv (wholeCall key detail buffer left) = .ok (false, bufs, priv')) :
    ∃ reply, serve block buffer left .get request priv = .ok (reply, priv') ∧
      reply.getUint32 .status = some HYSCAN_CACHE_RPC_STATUS_FAIL := by
  rw [wholeCall] at hcall
  simp only [serve, program, procGet, procGetBody, Prog.perform_bind, Prog.op_bind, Prog.run, Serving.perform,
    hk, hd, Exec.ok_bind, Option.getD_some, hcall]
  exact ⟨_, rfl, URpcData.getUint32_set_self _⟩

omit [HyScanBufferWrap β] in
theorem reserve_front {value : Bytes} (hlt : value.length < 2 ^ 32) (rest : Bytes) :
    reserve (some (value ++ rest)) (guint32Size value) = value := by
  have hsize := toNat_guint32Size hlt
  rw [URpc.reserve_of_le _ _ (by rw [hsize, List.length_append]; omega), hsize, List.take_left]

/-- The procedure `get` when the cache delivers a value to the front of the memory. -/
theorem serve_get_true {bufs : Buffers β} {value rest : Bytes} (hk : request.getUint64 .key = some key)
    (hd : request.getUint64 .detail = some detail)
    (hcall : callGet priv (wholeCall key detail buffer left) = .ok (true, bufs, priv'))
    (hlt : value.length < 2 ^ 32) (hv : bytes (bufs 0) = value) (hm : memory (bufs 0) = value ++ rest) :
    ∃ reply, serve block buffer left .get request priv = .ok (reply, priv') ∧
      reply.getUint32 .status = some HYSCAN_CACHE_RPC_STATUS_OK ∧ reply.getData .data = some value := by
  have hkept := reserve_front hlt rest
  rw [wholeCall] at hcall
  simp only [serve, program, procGet, procGetBody, Prog.perform_bind, Prog.op_bind, Prog.run, Serving.perform,
    hk, hd, Exec.ok_bind, Option.getD_some, hcall, hv, hm, Bool.not_true, Bool.false_eq_true, if_false,
    URpcData.getData_set_self, hkept]
  refine ⟨_, rfl, URpcData.getUint32_set_self _, ?_⟩
  exact (URpcData.getData_set_of_ne (q := .data) (p := .status) (by decide) _).trans (URpcData.getData_set_self _)

omit [URpc] in
theorem deliver_wrap_true {value region : Bytes} {bufs : Buffers β} (hlt : value.length < 2 ^ 32)
    (h : deliver (fun _ => wrap buffer region) (some 0) none (2 ^ 32 - 1) value = (true, bufs)) :
    bytes (bufs 0) = value ∧ memory (bufs 0) = value ++ region.drop value.length := by
  have hsize : (guint32Size value).toNat = value.length := toNat_guint32Size hlt
  rw [deliver, List.take_of_length_le (by omega), deliverPart] at h
  cases hset : setDataSize (wrap buffer region) (guint32Size value) with
  | none =>
    rw [hset] at h
    cases h
  | some buf =>
    rw [hset] at h
    cases h
    have hlen := HyScanBuffer.length_setDataSize _ _ _ hset
    simp only [Function.update_self]
    exact ⟨HyScanBuffer.bytes_fill _ _ (by rw [hlen, hsize]), HyScanBufferWrap.memory_fill _ _ _ _ _ hset hsize.symm⟩

omit [URpc] in
theorem deliver_wrap (buffer : β) {value region : Bytes} (h : value.length ≤ region.length)
    (hlt : region.length < 2 ^ 32) :
    ∃ bufs, deliver (fun _ => wrap buffer region) (some 0) none (2 ^ 32 - 1) value = (true, bufs) ∧
      bytes (bufs 0) = value ∧ memory (bufs 0) = value ++ region.drop value.length := by
  obtain ⟨buf, hset⟩ := Option.isSome_iff_exists.1 (HyScanBufferWrap.setDataSize_wrap buffer region
    (guint32Size value) (by rw [toNat_guint32Size (by omega)]; exact h))
  have hd : deliver (fun _ => wrap buffer region) (some 0) none (2 ^ 32 - 1) value =
      (true, Function.update (fun _ => wrap buffer region) 0 (fill buf value)) := by
    rw [deliver, List.take_of_length_le (by omega), deliverPart, hset]
    rfl
  exact ⟨_, hd, deliver_wrap_true (by omega) hd⟩

end Serve

/-! ### A call of a client -/

/-- A client, and the cache its server serves. -/
structure Link where
  transport : Transport
  priv : HyScanCachedPrivate

/-- Operations of a client that are not refused; the server executes its procedures. -/
def Link.perform (block : Block) (buffer : β) (left : URpcData) : (o : ClientOp) → Link → Exec (o.Ans × Link)
  | .exec proc, w => do
    let (reply, priv) ← Server.serve block buffer left proc w.transport.request w.priv
    .ok (true, ⟨{ w.transport with reply }, priv⟩)
  | o, w => do
    let (a, transport) ← w.transport.perform o
    .ok (a, ⟨transport, w.priv⟩)

theorem run_link {α : Type} {P : ClientOp → Prop} (hP : ∀ o, P o → ∀ proc, o ≠ .exec proc) {p : ClientProg α}
    (hp : p.Uses P) {t t' : Transport} {a : α} (hrun : p.run (fun o (t : Transport) => t.perform o) t = .ok (a, t')) :
    p.run (Link.perform block buffer left) ⟨t, priv⟩ = .ok (a, ⟨t', priv⟩) := by
  have hlink : ∀ o, P o → ∀ (t : Transport) b t' (w : Link), w = ⟨t, priv⟩ → t.perform o = .ok (b, t') →
      ∃ w', Link.perform block buffer left o w = .ok (b, w') ∧ w' = ⟨t', priv⟩ := by
    rintro o ho t b t' w rfl he
    refine ⟨_, ?_, rfl⟩
    rw [Link.perform, he]
    · rfl
    · exact hP o ho
  obtain ⟨w, hw, rfl⟩ := Prog.Runs.of_run hlink hp rfl hrun
  exact hw.run

theorem perform_write {region src : Bytes} {offset : UInt32} (h : offset.toNat + src.length ≤ region.length) :
    Transport.perform ⟨request.set .data (.bytes region), reply⟩ (.write .data offset src) =
      .ok ((), ⟨request.set .data (.bytes (region.take offset.toNat ++ src ++
        region.drop (offset.toNat + src.length))), reply⟩) := by
  rw [Transport.perform_write (URpcData.getData_set_self _) h, URpcData.set_set]

theorem run_copyParts {data1 data2 region : Bytes} (h1 : data1.length < 2 ^ 32) (h2 : data2.length < 2 ^ 32)
    (hlen : region.length = data1.length + data2.length) :
    (copyParts data1 data2).run (fun o (t : Transport) => t.perform o) ⟨request.set .data (.bytes region), reply⟩ =
      .ok ((), ⟨request.set .data (.bytes (data1 ++ data2)), reply⟩) := by
  have hs1 := toNat_guint32Size h1
  -- the first part at the front, and the second part right after it
  have hfirst : region.take (0 : UInt32).toNat ++ data1 ++ region.drop ((0 : UInt32).toNat + data1.length) =
      data1 ++ region.drop data1.length := by simp
  have hlen' : (data1 ++ region.drop data1.length).length = data1.length + data2.length := by
    rw [List.length_append, List.length_drop]
    omega
  have hsecond : (data1 ++ region.drop data1.length).take (guint32Size data1).toNat ++ data2 ++
      (data1 ++ region.drop data1.length).drop ((guint32Size data1).toNat + data2.length) = data1 ++ data2 := by
    rw [hs1, List.take_left, List.drop_eq_nil_of_le (by omega), List.append_nil]
  unfold copyParts
  by_cases c1 : data1 = [] <;> by_cases c2 : data2 = []
  · subst c1 c2
    obtain rfl := List.eq_nil_of_length_eq_zero hlen
    rfl
  · subst c1
    rw [if_neg (by simp [guint32Size]), if_pos ((guint32Size_pos h2).2 c2)]
    apply (Prog.run_op (perform_write (by rw [hs1]; omega))).trans
    exact congrArg (fun b => Except.ok ((), Transport.mk (request.set .data (.bytes b)) reply)) hsecond
  · subst c2
    rw [if_pos ((guint32Size_pos h1).2 c1), if_neg (by simp [guint32Size])]
    apply (Prog.run_op (perform_write (by simp; omega))).trans
    rw [hfirst, List.drop_eq_nil_of_le (by simpa using hlen.le)]
    rfl
  · rw [if_pos ((guint32Size_pos h1).2 c1), if_pos ((guint32Size_pos h2).2 c2)]
    apply (Prog.run_op (perform_write (by simp; omega))).trans
    rw [hfirst]
    apply (Prog.run_op (perform_write (by rw [hs1, hlen']))).trans
    exact congrArg (fun b => Except.ok ((), Transport.mk (request.set .data (.bytes b)) reply)) hsecond

theorem maxPayload_lt : (maxPayload : UInt32).toNat < 2 ^ 32 := UInt32.toNat_lt _

omit [URpc] in
theorem request_keys (d : URpcData) (key detail : UInt64) :
    ((d.set .key (.uint64 key)).set .detail (.uint64 detail)).getUint64 .key = some key ∧
      ((d.set .key (.uint64 key)).set .detail (.uint64 detail)).getUint64 .detail = some detail := by
  refine ⟨?_, URpcData.getUint64_set_self _⟩
  rw [URpcData.getUint64_set_of_ne (by decide), URpcData.getUint64_set_self]

/-- **A `set` of a client is the `set` of the cache.** -/
theorem run_clientSet {c : SetCall β} (block : Block) (buffer : β) (left : URpcData)
    (hle : c.payload.length ≤ (maxPayload : UInt32).toNat) (t : Transport) :
    ((clientSet true c).run (Link.perform block buffer left) ⟨t, priv⟩).map (fun r => (r.1, r.2.priv)) =
      callSet block priv c := by
  have hlt := hle.trans_lt maxPayload_lt
  have hsize : (callSize c).toNat = c.payload.length := (toNat_callSize c).trans (Nat.mod_eq_of_lt hlt)
  have hfits : ¬ callSize c > maxPayload := by
    rw [gt_iff_lt, UInt32.lt_iff_toNat_lt, hsize]
    omega
  have hsum : callSize c = guint32Size (givenBytes c.buffer1) + guint32Size (givenBytes c.buffer2) := rfl
  rw [clientSet_eq, ← hsum, if_neg hfits]
  simp only [session, clientSetLocked, Prog.perform_bind, Prog.op_bind, Prog.run, Link.perform, Transport.perform,
    Exec.ok_bind, Bool.not_true, Bool.false_eq_true, if_false, ← hsum]
  -- what the client sends
  obtain ⟨hk, hd⟩ := request_keys t.request c.key c.detail
  generalize (t.request.set .key (.uint64 c.key)).set .detail (.uint64 c.detail) = request at hk hd ⊢
  have hk' : (request.set .data (.bytes c.payload)).getUint64 .key = some c.key := by
    rw [URpcData.getUint64_set_of_ne (by decide), hk]
  have hd' : (request.set .data (.bytes c.payload)).getUint64 .detail = some c.detail := by
    rw [URpcData.getUint64_set_of_ne (by decide), hd]
  have hparts : givenBytes c.buffer1 ++ givenBytes c.buffer2 = c.payload := rfl
  have hpay : bytes (wrap buffer c.payload) ++ [] = c.payload := by
    rw [HyScanBufferWrap.bytes_wrap _ _ hlt, List.append_nil]
  have hcong : callSet block priv
      { key := c.key, detail := c.detail, buffer1 := some (wrap buffer c.payload), buffer2 := none } =
        callSet block priv c :=
    callSet_congr rfl rfl hpay (by rw [SetCall.payload, givenBytes, givenBytes, hpay]; exact hlt)
  rw [Prog.run_bind, Prog.run_bind, run_link (by rintro _ ⟨_, _, _, rfl⟩ _ ⟨⟩) (uses_copyParts _ _)
    (run_copyParts (length_givenBytes_lt _) (length_givenBytes_lt _)
      (by rw [URpc.length_reserve, hsize, SetCall.payload, List.length_append])), hparts]
  simp only [Exec.ok_bind, Prog.run, Link.perform, serve_set hk' hd' (URpcData.getData_set_self _), hcong]
  cases callSet block priv c with
  | error e => rfl
  | ok r =>
    obtain ⟨status, priv'⟩ := r
    cases status <;> rfl

theorem run_clientSet_ok {c : SetCall β} {status : Bool} (block : Block) (buffer : β) (left : URpcData)
    (hle : c.payload.length ≤ (maxPayload : UInt32).toNat) (t : Transport)
    (he : callSet block priv c = .ok (status, priv')) :
    ∃ t', (clientSet true c).run (Link.perform block buffer left) ⟨t, priv⟩ = .ok (status, ⟨t', priv'⟩) := by
  have hmap := (run_clientSet block buffer left hle t).trans he
  cases hrun : (clientSet true c).run (Link.perform block buffer left) ⟨t, priv⟩ with
  | error f =>
    rw [hrun] at hmap
    cases hmap
  | ok r =>
    obtain ⟨status', t', priv''⟩ := r
    rw [hrun] at hmap
    cases hmap
    exact ⟨t', rfl⟩

section Get

variable {c : GetCall β} {t : Transport}

theorem run_clientGet_false (hr : ¬ c.Refused)
    (hserve : ∀ request : URpcData, request.getUint64 .key = some c.key →
      request.getUint64 .detail = some c.detail →
      ∃ reply, Server.serve block buffer left .get request priv = .ok (reply, priv') ∧
        reply.getUint32 .status = some HYSCAN_CACHE_RPC_STATUS_FAIL) :
    ∃ t', (clientGet true c).run (Link.perform block buffer left) ⟨t, priv⟩ =
      .ok ((false, c.bufs), ⟨t', priv'⟩) := by
  obtain ⟨hk, hd⟩ := request_keys t.request c.key c.detail
  obtain ⟨reply, he, hst⟩ := hserve _ hk hd
  rw [clientGet_eq, if_neg hr]
  simp only [session, clientGetLocked, Prog.perform_bind, Prog.op_bind, Prog.run, Link.perform, Transport.perform,
    Exec.ok_bind, Bool.not_true, Bool.false_eq_true, if_false, he, hst]
  exact ⟨_, rfl⟩

theorem run_clientGet_true {value : Bytes} (hr : ¬ c.Refused)
    (hserve : ∀ request : URpcData, request.getUint64 .key = some c.key →
      request.getUint64 .detail = some c.detail →
      ∃ reply, Server.serve block buffer left .get request priv = .ok (reply, priv') ∧
        reply.getUint32 .status = some HYSCAN_CACHE_RPC_STATUS_OK ∧ reply.getData .data = some value) :
    ∃ t', (clientGet true c).run (Link.perform block buffer left) ⟨t, priv⟩ =
      .ok ((true, setParts c value), ⟨t', priv'⟩) := by
  obtain ⟨hk, hd⟩ := request_keys t.request c.key c.detail
  obtain ⟨reply, he, hst, hdata⟩ := hserve _ hk hd
  rw [clientGet_eq, if_neg hr]
  simp only [session, clientGetLocked, Prog.perform_bind, Prog.op_bind, Prog.run, Link.perform, Transport.perform,
    Exec.ok_bind, Bool.not_true, Bool.false_eq_true, if_false, he, hst, ne_eq, not_true_eq_false, hdata]
  exact ⟨_, rfl⟩

omit [URpc] in
/-- The split of the client is the split of the cache. -/
theorem setParts_eq {value : Bytes} (hlt : value.length < 2 ^ 32) :
    setParts c value = setBuffer (setBuffer c.bufs c.buffer1 (value.take c.size1.toNat)) c.buffer2
      (value.drop c.size1.toNat) := by
  have hsize := toNat_guint32Size hlt
  have hmin : (min (guint32Size value) c.size1).toNat = min value.length c.size1.toNat := by
    rw [UInt32.toNat_min, hsize]
  have hsub : (guint32Size value - min (guint32Size value) c.size1).toNat =
      value.length - min value.length c.size1.toNat := by
    rw [UInt32.toNat_sub_of_le _ _ (by rw [UInt32.le_iff_toNat_le, hmin, hsize]; omega), hmin, hsize]
  have htake : value.take (min value.length c.size1.toNat) = value.take c.size1.toNat := by
    rw [Nat.min_comm, ← List.take_eq_take_min]
  have hdrop : value.drop (min value.length c.size1.toNat) = value.drop c.size1.toNat := by
    rw [Nat.min_comm, ← List.drop_eq_drop_min]
  have hrest : (value.drop c.size1.toNat).take (value.length - min value.length c.size1.toNat) =
      value.drop c.size1.toNat := by
    rw [← hdrop]
    exact List.take_of_length_le (by rw [List.length_drop])
  rw [setParts]
  simp only [hmin, hsub, htake, hdrop, hrest]

omit [URpc] in
theorem deliverPart_grows {bufs : Buffers β} {b : ℕ} {part : Bytes} (hg : Grows (bufs b))
    (hlt : part.length < 2 ^ 32) :
    ∃ bufs', deliverPart bufs (some b) part = some bufs' ∧
      ∀ b', bytes (setBuffer bufs (some b) part b') = bytes (bufs' b') ∧ (b' ≠ b → bufs' b' = bufs b') := by
  obtain ⟨buf, hset⟩ := Option.isSome_iff_exists.1 (hg (guint32Size part))
  have hd : deliverPart bufs (some b) part = some (Function.update bufs b (fill buf part)) := by
    rw [deliverPart, hset]
    rfl
  refine ⟨_, hd, ?_⟩
  intro b'
  obtain ⟨h1, h2⟩ := deliverPart_some hlt hd
  by_cases hb : b' = b
  · subst hb
    rw [h1, setBuffer, Function.update_self, HyScanBufferWrap.bytes_set _ _ hg hlt]
    exact ⟨rfl, fun h => absurd rfl h⟩
  · rw [setBuffer, Function.update_of_ne hb, h2 b' hb]
    exact ⟨rfl, fun _ => rfl⟩

/-- The buffers of a caller that the remote cache may be asked to fill. -/
structure Fillable (c : GetCall β) : Prop where
  buffer1 : ∃ b, c.buffer1 = some b ∧ c.buffer2 ≠ some b
  grows : ∀ b, c.buffer1 = some b ∨ c.buffer2 = some b → Grows (c.bufs b)

omit [URpc] in
/-- **The client fills the buffers as the cache does.** -/
theorem deliver_setParts {value : Bytes} (hc : Fillable c) (hlt : value.length < 2 ^ 32) :
    ∃ bufs, deliver c.bufs c.buffer1 c.buffer2 c.size1.toNat value = (true, bufs) ∧
      ∀ b, bytes (setParts c value b) = bytes (bufs b) := by
  obtain ⟨b1, h1, hne⟩ := hc.buffer1
  have hlt1 : (value.take c.size1.toNat).length < 2 ^ 32 := by
    rw [List.length_take]
    omega
  have hlt2 : (value.drop c.size1.toNat).length < 2 ^ 32 := by
    rw [List.length_drop]
    omega
  rw [setParts_eq hlt, h1]
  obtain ⟨bufs₁, hd1, hb1⟩ := deliverPart_grows (hc.grows b1 (.inl h1)) hlt1
  cases h2 : c.buffer2 with
  | none =>
    refine ⟨bufs₁, ?_, fun b => (hb1 b).1⟩
    rw [deliver, hd1]
    rfl
  | some b2 =>
    have hb2 : b2 ≠ b1 := fun e => hne (by rw [h2, e])
    have hsame : bufs₁ b2 = c.bufs b2 := (hb1 b2).2 hb2
    obtain ⟨bufs₂, hd2, hb2'⟩ := deliverPart_grows (hsame ▸ hc.grows b2 (.inr h2)) hlt2
    refine ⟨bufs₂, ?_, ?_⟩
    · rw [deliver, hd1]
      simp only
      rw [hd2]
    · intro b
      by_cases hb : b = b2
      · subst hb
        rw [← (hb2' b).1, setBuffer, setBuffer, setBuffer, Function.update_self, Function.update_self,
          Function.update_of_ne hb2, hsame]
      · rw [(hb2' b).2 hb, ← (hb1 b).1, setBuffer, Function.update_of_ne hb]

/-- **A `get` of a client is the `get` of the cache**, if no payload stored is too large for the reply. -/
theorem run_clientGet {s : Store} (hA : Abs priv s)
    (hfit : ∀ e ∈ s.entries, e.bytes.length ≤ (maxPayload : UInt32).toNat) (hc : Fillable c) (block : Block)
    (buffer : β) (left : URpcData) (t : Transport) :
    ∃ status bufs bufs' priv' t', callGet priv c = .ok (status, bufs, priv') ∧
      (clientGet true c).run (Link.perform block buffer left) ⟨t, priv⟩ = .ok ((status, bufs'), ⟨t', priv'⟩) ∧
      ∀ b, bytes (bufs' b) = bytes (bufs b) := by
  obtain ⟨l, hr, hs, hlim⟩ := hA
  have hcr : ¬ c.Refused := by
    obtain ⟨b, hb, -⟩ := hc.buffer1
    simp [GetCall.Refused, hb]
  have hwr : ¬ (wholeCall c.key c.detail buffer left).Refused := by
    simp [GetCall.Refused, wholeCall, Server.getWhole]
  by_cases hhit : ∃ x, Recency.find Cell.key c.key l = some x ∧ c.Accepts x.2.detail
  · obtain ⟨x, hf, hd⟩ := hhit
    have hk : Cell.key x = c.key := key_of_find hf
    have hle : x.2.bytes.length ≤ (maxPayload : UInt32).toNat :=
      hfit _ (by rw [hs]; exact List.mem_map_of_mem (mem_of_find hf))
    have hlt := hle.trans_lt maxPayload_lt
    obtain ⟨us, vs, rfl⟩ := List.append_of_mem (mem_of_find hf)
    obtain ⟨priv', hp, he, -⟩ := get_hit hr hcr hk hd
    obtain ⟨priv'', hp', he', -⟩ := get_hit hr hwr hk hd
    obtain rfl : priv' = priv'' := Except.ok.inj (hp.symm.trans hp')
    have hreg := URpc.length_reserve (left.getData .data) maxPayload
    have hroom : x.2.bytes.length ≤ (reserve (left.getData .data) maxPayload).length := by
      rw [hreg]
      exact hle
    obtain ⟨wbufs, hw, hwb, hwm⟩ := deliver_wrap buffer hroom (by rw [hreg]; exact maxPayload_lt)
    obtain ⟨bufs, hdel, hb⟩ := deliver_setParts hc hlt
    have hwhole : callGet priv (wholeCall c.key c.detail buffer left) = .ok (true, wbufs, priv') := by
      rw [he']
      exact congrArg (fun r : Bool × Buffers β => Except.ok (r.1, r.2, priv')) hw
    obtain ⟨t', ht⟩ := run_clientGet_true (t := t) hcr fun request hk hd =>
      serve_get_true hk hd hwhole hlt hwb hwm
    exact ⟨true, bufs, _, priv', t', by rw [he, hdel], ht, hb⟩
  · obtain ⟨t', ht⟩ := run_clientGet_false (t := t) hcr fun request hk hd =>
      serve_get_false hk hd (get_miss hwr (getObject_none hr hhit))
    exact ⟨false, c.bufs, c.bufs, priv, t', get_miss hcr (getObject_none hr hhit), ht, fun _ => rfl⟩

end Get

/-! ### Clients beside callers of the cache -/

/-- A cache, and what is left in the transports of its clients. -/
structure Net where
  priv : HyScanCachedPrivate
  transports : ℕ → Transport

/-- A call that returns, made directly or by the client of a number. -/
inductive Net.Step : Net → Option ℕ × Event β → Net → Prop
  | direct {net : Net} {e : Event β} {priv' : HyScanCachedPrivate} (h : Cached.Step net.priv e priv') :
      Step net (none, e) { net with priv := priv' }
  | clientSet {net : Net} {c : SetCall β} {status : Bool} {t' : Transport} {priv' : HyScanCachedPrivate} (i : ℕ)
      (block : Block) (buffer : β) (left : URpcData)
      (h : (clientSet true c).run (Link.perform block buffer left) ⟨net.transports i, net.priv⟩ =
        .ok (status, ⟨t', priv'⟩)) :
      Step net (some i, .set c status) ⟨priv', Function.update net.transports i t'⟩
  | clientGet {net : Net} {c : GetCall β} {found status : Bool} {bufs : Buffers β} {t' : Transport}
      {priv' : HyScanCachedPrivate} (i : ℕ) (block : Block) (buffer : β) (left : URpcData)
      (h : (clientGet true c).run (Link.perform block buffer left) ⟨net.transports i, net.priv⟩ =
        .ok ((status, bufs), ⟨t', priv'⟩)) (hf : found = true ↔ Found net.priv c) :
      Step net (some i, .get c found status bufs) ⟨priv', Function.update net.transports i t'⟩

/-- **The cache with its clients.** -/
def served (β : Type) [HyScanBufferWrap β] : Lts Net (Option ℕ × Event β) where
  init net := (cached β).init net.priv
  tr := Net.Step

/-- The payload is not too large for the transport, and the buffers are fit to be filled. -/
def Small (_ : Net) : Option ℕ × Event β → Prop
  | (_, .set c _) => c.payload.length ≤ (maxPayload : UInt32).toNat
  | (_, .get c ..) => Fillable c

/-- Two calls that cannot be told apart by their callers. -/
inductive SameReply : Event β → Event β → Prop
  | set (c : SetCall β) (status : Bool) : SameReply (.set c status) (.set c status)
  | get (c : GetCall β) (found status : Bool) {bufs bufs' : Buffers β}
      (h : ∀ b, bytes (bufs b) = bytes (bufs' b)) : SameReply (.get c found status bufs) (.get c found status bufs')

omit [URpc] in
theorem SameReply.refl (e : Event β) : SameReply e e := by
  cases e with
  | set c status => exact .set c status
  | get c found status bufs => exact .get c found status fun _ => rfl

section Run

variable {net net' : Net} {s : Store} {e : Option ℕ × Event β} {h : List (Option ℕ × Event β)}

/-- The payloads that are stored are not too large for the transport. -/
def Payloads (s : Store) : Prop := ∀ e ∈ s.entries, e.bytes.length ≤ (maxPayload : UInt32).toNat

/-- **Every call has the reply of a direct one**, and leaves the same cache. -/
theorem Net.Step.sameReply (ht : Net.Step net e net') (hA : Abs net.priv s) (hp : Payloads s) (hs : Small net e) :
    ∃ e', SameReply e.2 e' ∧ Cached.Step net.priv e' net'.priv := by
  cases ht with
  | direct h => exact ⟨_, .refl _, h⟩
  | @clientSet c status t' priv' i block buffer left h =>
    have hset : _ = callSet block net.priv c := run_clientSet block buffer left hs (net.transports i)
    rw [h] at hset
    exact ⟨_, .set c status, .set block hset.symm⟩
  | @clientGet c found status bufs t' priv' i block buffer left h hf =>
    obtain ⟨status', bufs', bufs'', priv'', t'', he, hrun, hb⟩ :=
      run_clientGet hA hp hs block buffer left (net.transports i)
    obtain ⟨⟨rfl, rfl⟩, rfl, rfl⟩ : (status = status' ∧ bufs = bufs'') ∧ t' = t'' ∧ priv' = priv'' := by
      simpa using h.symm.trans hrun
    exact ⟨_, .get c found status hb, .get he hf⟩

theorem Payloads.step {s' : Store} {e : Event β} (hp : Payloads s) (ht : s.Step e s')
    (hs : ∀ c status, e = .set c status → c.payload.length ≤ (maxPayload : UInt32).toNat) : Payloads s' := by
  intro x hx
  rcases ht.mem hx with ⟨c, rfl, -, -, hb⟩ | ⟨hm, -⟩
  · rw [← hb]
    exact hs c true rfl
  · exact hp x hm

theorem SameReply.small {e e' : Event β} (h : SameReply e e') {who : Option ℕ} (hs : Small net (who, e))
    {c : SetCall β} {status : Bool} (he : e' = .set c status) :
    c.payload.length ≤ (maxPayload : UInt32).toNat := by
  cases h with
  | set => cases he; exact hs
  | get => cases he

/-- **The remote cache refines the local one**, with any number of clients beside callers of the cache itself, in
any order of their calls, if the payloads are not too large for the transport and the buffers are fit to be
filled.  The calls, made directly, have the same replies in a run of the cache alone that ends in the same state;
and from that state on, a call of a client is the direct call. -/
theorem remote_refines_local (hr : ((served β).guard Small).Run h net) :
    (∃ h', List.Forall₂ (fun e e' => SameReply e.2 e') h h' ∧ (cached β).Run h' net.priv) ∧
    (∀ (c : SetCall β) (block : Block) (buffer : β) (left : URpcData) (t : Transport),
      c.payload.length ≤ (maxPayload : UInt32).toNat →
        ((clientSet true c).run (Link.perform block buffer left) ⟨t, net.priv⟩).map (fun r => (r.1, r.2.priv)) =
          callSet block net.priv c) ∧
    (∀ (c : GetCall β) (block : Block) (buffer : β) (left : URpcData) (t : Transport), Fillable c →
      ∃ status bufs bufs' priv' t', callGet net.priv c = .ok (status, bufs, priv') ∧
        (clientGet true c).run (Link.perform block buffer left) ⟨t, net.priv⟩ =
          .ok ((status, bufs'), ⟨t', priv'⟩) ∧
        ∀ b, bytes (bufs' b) = bytes (bufs b)) := by
  let P : List (Option ℕ × Event β) → Net → Prop := fun h net =>
    (∃ h', List.Forall₂ (fun e e' => SameReply e.2 e') h h' ∧ (cached β).Run h' net.priv) ∧
      ∃ s, Abs net.priv s ∧ Payloads s
  have hinv : P h net := by
    refine Lts.Run.inv (L := (served β).guard Small) (P := P) ?_ ?_ hr
    · rintro net hi
      obtain ⟨s, h0, hA⟩ := (simulation : Lts.Simulation (cached β) _ _).init _ hi
      refine ⟨⟨[], .nil, .nil hi⟩, s, hA, ?_⟩
      intro e he
      rw [show s.entries = [] from h0] at he
      cases he
    · rintro h net e net' - ⟨⟨h', hsame, hrun⟩, s, hA, hp⟩ ⟨hs, ht⟩
      obtain ⟨e', he, hstep⟩ := ht.sameReply hA hp hs
      obtain ⟨s', hs', hA'⟩ := step_abs hA hstep
      exact ⟨⟨e' :: h', .cons he hsame, hrun.cons hstep⟩, s', hA',
        hp.step hs' fun c status hc => he.small hs hc⟩
  obtain ⟨hrun, s, hA, hp⟩ := hinv
  exact ⟨hrun, fun c block buffer left t hle => run_clientSet block buffer left hle t,
    fun c block buffer left t hc => run_clientGet hA hp hc block buffer left t⟩

end Run

end Refinement

section Sample

local instance refinementURpc : URpc := plainURpc

theorem fillable_sampleGet (key : UInt64) : Fillable (sampleGet key) where
  buffer1 := ⟨0, rfl, by simp [sampleGet]⟩
  grows _ _ _ := rfl

/-- A payload stored by one client is read by another one. -/
theorem remote_refines_local_sample : ∃ (net : Net) (bufs bufs' : Buffers PlainBuffer) (t' : Transport)
    (priv' : HyScanCachedPrivate),
    ((served PlainBuffer).guard Small).Run [(some 0, .set (sampleSet 7) true)] net ∧
    (cached PlainBuffer).Run [.set (sampleSet 7) true] net.priv ∧
    callGet net.priv (sampleGet 7) = .ok (true, bufs, priv') ∧
    (clientGet true (sampleGet 7)).run (Link.perform ⟨0, fun _ => 0⟩ PlainBuffer.empty fun _ => none)
      ⟨net.transports 1, net.priv⟩ = .ok ((true, bufs'), ⟨t', priv'⟩) ∧
    ∀ b, bytes (bufs' b) = bytes (bufs b) := by
  have hle : (sampleSet 7).payload.length ≤ (maxPayload : UInt32).toNat := by decide
  have h0 : ((served PlainBuffer).guard Small).Run [] ⟨new 64, fun _ => ⟨fun _ => none, fun _ => none⟩⟩ :=
    .nil init_new
  obtain ⟨priv, -, hput, -⟩ := sample_sets
  obtain ⟨t, hset⟩ := run_clientSet_ok ⟨0, fun _ => 0⟩ PlainBuffer.empty (fun _ => none) hle
    ⟨fun _ => none, fun _ => none⟩ hput
  obtain ⟨bufs, priv', hread⟩ : ∃ bufs priv', callGet priv (sampleGet 7) = .ok (true, bufs, priv') := by
    cases hput
    exact ⟨_, _, rfl⟩
  have h1 : ((served PlainBuffer).guard Small).Run [(some 0, .set (sampleSet 7) true)] _ :=
    h0.cons ⟨hle, .clientSet 0 _ _ _ hset⟩
  obtain ⟨⟨h', hsame, hrun⟩, -, hget⟩ := remote_refines_local h1
  obtain ⟨status, bufs₁, bufs', priv₁, t', he, hc, hb⟩ := hget (sampleGet 7) ⟨0, fun _ => 0⟩ PlainBuffer.empty
    (fun _ => none) _ (fillable_sampleGet 7)
  obtain ⟨rfl, rfl, rfl⟩ : true = status ∧ bufs = bufs₁ ∧ priv' = priv₁ := by simpa using hread.symm.trans he
  obtain ⟨e', _, hreply, hnil, rfl⟩ := List.forall₂_cons_left_iff.1 hsame
  cases hreply
  cases hnil
  exact ⟨_, bufs, bufs', t', priv', h1, hrun, hread, hc, hb⟩

end Sample

end HyScanCache.Remote
