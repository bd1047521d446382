import HyScanCache.Remote.Failures

/-!
# What a request makes the server do

Nothing is assumed here of a request: parameters may be missing or of another type, uRPC may refuse what a procedure
asks for, and other callers use the cache meanwhile.

* `any_request`: a procedure calls the cache once at most, with what it was sent, and never without a key;
* `delivery`: over all the calls a client has made, the server has called the cache for some of them, once for each
  and in their order, among them all that returned `TRUE`.
-/

namespace HyScanCache.Remote

open Lib Cached

section Requests

variable {β : Type} [HyScanBufferWrap β] [URpc]
variable {priv : HyScanCachedPrivate} {request reply left : URpcData} {calls : List (Made β)} {t : Transport}

/-- The call of the cache for a request that has the key, with the defaults for what it does not have. -/
def requested (request : URpcData) (key : UInt64) (buffer : β) : SetCall β where
  key := key
  detail := (request.getUint64 .detail).getD 0
  buffer1 := (request.getData .data).map (wrap buffer)
  buffer2 := none

/-- **What a procedure may come to**: the calls of the cache it makes, and the status it finds. -/
inductive Served (request : URpcData) (buffer : β) : Proc → List (Made β) → UInt32 → Prop
  | noKey {proc : Proc} (h : request.getUint64 .key = none) :
      Served request buffer proc [] HYSCAN_CACHE_RPC_STATUS_FAIL
  | set {key : UInt64} {priv : HyScanCachedPrivate} {status : Bool} (h : request.getUint64 .key = some key) :
      Served request buffer .set [.set priv (requested request key buffer) status]
        (if status then HYSCAN_CACHE_RPC_STATUS_OK else HYSCAN_CACHE_RPC_STATUS_FAIL)
  | noMemory {key : UInt64} (h : request.getUint64 .key = some key) :
      Served request buffer .get [] HYSCAN_CACHE_RPC_STATUS_FAIL
  | get {key : UInt64} {priv : HyScanCachedPrivate} {region : Bytes} {status : Bool} {bufs : Buffers β} {v : UInt32}
      (h : request.getUint64 .key = some key)
      (hv : v = HYSCAN_CACHE_RPC_STATUS_FAIL ∨ v = HYSCAN_CACHE_RPC_STATUS_OK ∧ status = true) :
      Served request buffer .get
        [.get priv (Server.getWhole key ((request.getUint64 .detail).getD 0) (wrap buffer region)) status bufs] v

/-- The calls were made, and the status is in the reply unless it was refused there. -/
def Done (request : URpcData) (buffer : β) (proc : Proc) (reply : URpcData) (calls : List (Made β)) (j : Job β) :
    Prop :=
  (cached β).Reachable j.serving.priv ∧ ∃ made v, Served request buffer proc made v ∧ j.calls = calls ++ made ∧
    (j.serving.reply.getUint32 .status = some v ∨
      j.serving.reply.getUint32 .status = reply.getUint32 .status)

variable {buffer : β} {proc : Proc} {made calls' : List (Made β)} {v : UInt32}

theorem always_exit (hr : (cached β).Reachable priv) (hs : Served request buffer proc made v)
    (hcalls : calls' = calls ++ made) {reply' : URpcData}
    (hreply : reply'.getUint32 .status = reply.getUint32 .status) :
    (Prog.op (.setUint32 .status v : ServerOp β) fun _ => .ret ()).Always Job.Answers
      (fun _ j => Done request buffer proc reply calls j) (Job.at request reply' priv calls') := by
  refine always_setUint32 hr (fun priv hr => ?_) ⟨hr, made, v, hs, hcalls, .inr hreply⟩
  exact ⟨hr, made, v, hs, hcalls, .inl (URpcData.getUint32_set_self v)⟩

theorem always_procSet_any (hr : (cached β).Reachable priv) :
    (Server.procSet buffer).Always Job.Answers (fun _ j => Done request buffer .set reply calls j)
      (Job.at request reply priv calls) := by
  refine always_getUint64 hr rfl fun priv hr => ?_
  cases hk : request.getUint64 .key with
  | none => exact always_exit hr (.noKey hk) (List.append_nil _).symm rfl
  | some key =>
    refine always_getUint64 hr rfl fun priv hr => ?_
    refine always_getData hr rfl fun priv hr => ?_
    refine always_cacheSet hr fun status priv₁ priv' hr => ?_
    exact always_exit hr (.set hk) rfl rfl

theorem always_procGet_any (hr : (cached β).Reachable priv) :
    (Server.procGet buffer).Always Job.Answers (fun _ j => Done request buffer .get reply calls j)
      (Job.at request reply priv calls) := by
  refine always_getUint64 hr rfl fun priv hr => ?_
  cases hk : request.getUint64 .key with
  | none => exact always_exit hr (.noKey hk) (List.append_nil _).symm rfl
  | some key =>
    refine always_getUint64 hr rfl fun priv hr => ?_
    have hdata (v : Value) : (reply.set .data v).getUint32 .status = reply.getUint32 .status :=
      URpcData.getUint32_set_of_ne (by decide) v
    refine always_reserve hr (fun priv hr => ?_) ?_
    · refine always_cacheGet hr fun status bufs priv₁ priv' hr₁ hc hr => ?_
      refine always_write hr fun priv hr => ?_
      rw [URpcData.set_set]
      cases status with
      | false => exact always_exit hr (.get hk (.inl rfl)) rfl (hdata _)
      | true =>
        refine always_reserve hr (fun priv hr => ?_) (always_exit hr (.get hk (.inl rfl)) rfl (hdata _))
        rw [URpcData.set_set]
        exact always_exit hr (.get hk (.inr ⟨rfl, rfl⟩)) rfl (hdata _)
    · exact always_exit hr (.noMemory hk) (List.append_nil _).symm rfl

/-- **Any request is served.**  Whatever a client has sent, and whatever is refused: a procedure calls the cache once
at most, with the key it was sent, the detail or zero and the data or none; without a key it does not call it; it
finds the status OK only if that call has succeeded, and leaves a cache in a state that calls of `set` and `get` lead
to. -/
theorem any_request (hr : (cached β).Reachable priv) (request reply : URpcData) (calls : List (Made β)) (buffer : β)
    {j : Job β} (hj : (Server.program buffer proc).Runs Job.Answers (Job.at request reply priv calls) () j) :
    (proc = .version → (cached β).Reachable j.serving.priv ∧ j.calls = calls) ∧
      (proc ≠ .version → Done request buffer proc reply calls j) := by
  cases proc with
  | version =>
    have hversion : (Server.procVersion (β := β)).Always Job.Answers
        (fun _ j => (cached β).Reachable j.serving.priv ∧ j.calls = calls) (Job.at request reply priv calls) :=
      always_setUint32 hr (fun priv hr => ⟨hr, rfl⟩) ⟨hr, rfl⟩
    exact ⟨fun _ => hj.post hversion, fun h => absurd rfl h⟩
  | set => exact ⟨nofun, fun _ => hj.post (always_procSet_any hr)⟩
  | get => exact ⟨nofun, fun _ => hj.post (always_procGet_any hr)⟩

end Requests

section Sample

local instance requestURpc : URpc := plainURpc

/-- A request that has a key and nothing else: the server deletes the object of the key. -/
theorem any_request_sample : ∃ j : Job PlainBuffer,
    (Server.program PlainBuffer.empty .set).Runs Job.Answers
      (Job.at (URpcData.set (fun _ => none) .key (.uint64 7)) (fun _ => none) (new 64) []) () j ∧
    j.serving.reply.getUint32 .status = some HYSCAN_CACHE_RPC_STATUS_OK ∧
    Done (URpcData.set (fun _ => none) .key (.uint64 7)) PlainBuffer.empty .set (fun _ => none) [] j := by
  have hserve : ∃ reply priv, Server.serve ⟨0, fun _ => 0⟩ PlainBuffer.empty (fun _ => none) .set
      (URpcData.set (fun _ => none) .key (.uint64 7)) (new 64) = .ok (reply, priv) ∧
      reply.getUint32 .status = some HYSCAN_CACHE_RPC_STATUS_OK := ⟨_, _, rfl, rfl⟩
  obtain ⟨reply, priv, hserve, hstatus⟩ := hserve
  obtain ⟨j, hj, hreply, -⟩ := runs_of_serve hserve
  exact ⟨j, hj, by rw [hreply, hstatus], (any_request reachable_new _ _ [] _ hj).2 nofun⟩

end Sample

/-! ### The calls of a client -/

section Calls

variable {β : Type} [HyScanBufferWrap β] [URpc]
variable {priv : HyScanCachedPrivate} {calls : List (Made β)} {t : Transport} {s s' : Session β}

/-- A call of a client, with what it returned. -/
inductive ClientEvent (β : Type) where
  | set (c : SetCall β) (status : Bool)
  | get (c : GetCall β) (status : Bool) (bufs : Buffers β)

/-- What it returned. -/
def ClientEvent.status : ClientEvent β → Bool
  | .set _ status | .get _ status _ => status

/-- The call of the cache is for the call of the client, and has succeeded if that has. -/
inductive Carries : ClientEvent β → Made β → Prop
  | set {c c' : SetCall β} {status made : Bool} {priv : HyScanCachedPrivate} (hk : c'.key = c.key)
      (hd : c'.detail = c.detail) (hp : c'.payload = c.payload) (hs : status = true → made = true) :
      Carries (.set c status) (.set priv c' made)
  | get {c c' : GetCall β} {status made : Bool} {bufs bufs' : Buffers β} {priv : HyScanCachedPrivate}
      (hk : c'.key = c.key) (hd : c'.detail = c.detail) (hs : status = true → made = true) :
      Carries (.get c status bufs) (.get priv c' made bufs')

/-- **What is delivered** of a history, the newest event first: calls of the cache for some of its calls, one for each
and in their order; a call for which there is none has returned `FALSE`. -/
inductive Delivered : List (ClientEvent β) → List (Made β) → Prop
  | nil : Delivered [] []
  | lost {h : List (ClientEvent β)} {made : List (Made β)} {e : ClientEvent β} (hh : Delivered h made)
      (he : e.status = false) : Delivered (e :: h) made
  | carried {h : List (ClientEvent β)} {made : List (Made β)} {e : ClientEvent β} {m : Made β} (hh : Delivered h made)
      (he : Carries e m) : Delivered (e :: h) (made ++ [m])

/-- What a call of a client may have led to. -/
def Led (calls : List (Made β)) (e : ClientEvent β) (priv : HyScanCachedPrivate) (calls' : List (Made β)) : Prop :=
  (cached β).Reachable priv ∧ (e.status = false ∧ calls' = calls ∨ ∃ m, Carries e m ∧ calls' = calls ++ [m])

theorem always_exec_any {α : Type} {Q : α → Session β → Prop} {proc : Proc} {k : Bool → ClientProg α}
    (hrefused : (k false).Always Session.Answers Q (Session.at t priv calls))
    (hk : ∀ (buffer : β) left j b reply, (b = true → left.getUint32 .status = none ∧ reply = j.serving.reply) →
      (Server.program buffer proc).Runs Job.Answers (Job.at t.request left priv calls) () j →
      (k b).Always Session.Answers Q (Session.at { t with reply } j.serving.priv j.calls)) :
    (Prog.op (ClientOp.exec proc) k).Always Session.Answers Q (Session.at t priv calls) := by
  intro a s ho
  cases ho with
  | perform hexec _ => exact absurd rfl (hexec _)
  | refuse h =>
    cases h
    exact hrefused
  | exec buffer left hleft hj => exact hk buffer left _ true _ (fun _ => ⟨hleft, rfl⟩) hj
  | lost buffer left reply hj => exact hk buffer left _ false reply nofun hj

theorem always_clientSet_led {c : SetCall β} (hr : (cached β).Reachable priv) (hlt : c.payload.length < 2 ^ 32)
    (connected : Bool) :
    (clientSet connected c).Always Session.Answers
      (fun status s => Led calls (.set c status) s.link.priv s.calls) (Session.at t priv calls) := by
  have hfalse : Led calls (.set c false) priv calls := ⟨hr, .inl ⟨rfl, rfl⟩⟩
  cases connected with
  | false => exact hfalse
  | true =>
    rw [clientSet_eq]
    split
    · exact hfalse
    refine always_session_priv (P := fun status priv calls' => Led calls (.set c status) priv calls') ?_ hfalse
    refine always_refusable nofun rfl rfl ?_ hfalse
    refine always_refusable nofun rfl rfl ?_ hfalse
    refine always_refusable nofun rfl rfl ?_ hfalse
    show (copyParts (givenBytes c.buffer1) (givenBytes c.buffer2) >>= fun _ => _).Always _ _ _
    refine Prog.Always.bind ((always_copyParts (length_givenBytes_lt _) (length_givenBytes_lt _) ?_).mono ?_)
    · have hsize : (callSize c).toNat = c.payload.length := (toNat_callSize c).trans (Nat.mod_eq_of_lt hlt)
      rw [← List.length_append, URpc.length_reserve]
      exact hsize
    rintro _ _ rfl
    refine always_exec_any hfalse fun buffer left j b reply hb hj => ?_
    obtain ⟨hr', made, v, hserved, hcalls, hstatus⟩ := (any_request hr _ _ _ buffer hj).2 nofun
    obtain ⟨hk, hd⟩ := request_keys t.request c.key c.detail
    replace hk := (URpcData.getUint64_set_of_ne (p := .data) (q := .key) (by decide) (.bytes c.payload)).trans hk
    replace hd := (URpcData.getUint64_set_of_ne (p := .data) (q := .detail) (by decide) (.bytes c.payload)).trans hd
    cases hserved with
    | noKey h => cases hk.symm.trans h
    | @set key priv₁ made h =>
      obtain rfl : c.key = key := Option.some.inj (hk.symm.trans h)
      have hled (status : Bool) (hs : status = true → made = true) :
          Led calls (.set c status) j.serving.priv j.calls := by
        refine ⟨hr', .inr ⟨_, .set ?_ ?_ ?_ hs, hcalls⟩⟩
        · rfl
        · exact congrArg (fun d => d.getD 0) hd
        · rw [requested, URpcData.getData_set_self]
          have hp : (setWhole c.key c.detail c.payload buffer).payload = c.payload := payload_setWhole hlt
          exact hp
      cases b with
      | false => exact hled false nofun
      | true =>
        obtain ⟨hleft, rfl⟩ := hb rfl
        refine always_refusable nofun rfl rfl ?_ (hled false nofun)
        rw [hleft] at hstatus
        generalize j.serving.reply.getUint32 .status = status at hstatus ⊢
        cases status with
        | none => exact hled false nofun
        | some execStatus =>
          obtain rfl : execStatus = _ := by simpa using hstatus
          refine hled _ fun hok => ?_
          cases made with
          | false => exact absurd hok (by decide)
          | true => rfl

theorem always_clientGet_led {c : GetCall β} (hr : (cached β).Reachable priv) (connected : Bool) :
    (clientGet connected c).Always Session.Answers
      (fun r s => Led calls (.get c r.1 r.2) s.link.priv s.calls) (Session.at t priv calls) := by
  have hfalse : Led calls (.get c false c.bufs) priv calls := ⟨hr, .inl ⟨rfl, rfl⟩⟩
  cases connected with
  | false => exact hfalse
  | true =>
    rw [clientGet_eq]
    split
    · exact hfalse
    refine always_session_priv (P := fun (r : Bool × Buffers β) priv calls' =>
      Led calls (.get c r.1 r.2) priv calls') ?_ hfalse
    refine always_refusable nofun rfl rfl ?_ hfalse
    refine always_refusable nofun rfl rfl ?_ hfalse
    refine always_exec_any hfalse fun buffer left j b reply hb hj => ?_
    obtain ⟨hr', made, v, hserved, hcalls, hstatus⟩ := (any_request hr _ _ _ buffer hj).2 nofun
    obtain ⟨hk, hd⟩ := request_keys t.request c.key c.detail
    -- the procedure that has not called the cache has found the status FAIL
    have hled (r : Bool × Buffers β) (hs : r.1 = true → v = HYSCAN_CACHE_RPC_STATUS_OK) :
        Led calls (.get c r.1 r.2) j.serving.priv j.calls := by
      refine ⟨hr', ?_⟩
      cases hserved with
      | noKey h => cases hk.symm.trans h
      | noMemory h =>
        refine .inl ⟨?_, by rw [hcalls, List.append_nil]⟩
        by_contra hne
        exact absurd (hs (Bool.eq_true_of_not_eq_false hne)) (by decide)
      | @get key _ _ made _ _ h hv =>
        obtain rfl : c.key = key := Option.some.inj (hk.symm.trans h)
        refine .inr ⟨_, .get ?_ ?_ fun hr => ?_, hcalls⟩
        · rfl
        · exact congrArg (fun d => d.getD 0) hd
        · rcases hv with rfl | ⟨-, hmade⟩
          · exact absurd (hs hr) (by decide)
          · exact hmade
    cases b with
    | false => exact hled (false, c.bufs) nofun
    | true =>
      obtain ⟨hleft, rfl⟩ := hb rfl
      refine always_refusable nofun rfl rfl ?_ (hled (false, c.bufs) nofun)
      rw [hleft] at hstatus
      generalize j.serving.reply.getUint32 .status = status at hstatus ⊢
      cases status with
      | none => exact hled (false, c.bufs) nofun
      | some execStatus =>
        obtain rfl : execStatus = _ := by simpa using hstatus
        by_cases hok : execStatus = HYSCAN_CACHE_RPC_STATUS_OK
        · subst hok
          refine always_refusable nofun rfl rfl ?_ (hled (false, c.bufs) nofun)
          generalize j.serving.reply.getData .data = data
          cases data with
          | none => exact hled (false, c.bufs) nofun
          | some data => exact hled (true, setParts c data) fun _ => rfl
        · show (if execStatus ≠ HYSCAN_CACHE_RPC_STATUS_OK then Prog.ret (false, c.bufs) else _).Always _ _ _
          rw [if_pos hok]
          exact hled (false, c.bufs) nofun

/-! ### All the calls of a client -/

/-- A call of a client. -/
inductive ClientStep : Session β → ClientEvent β → Session β → Prop
  | set {s s' : Session β} {c : SetCall β} {status : Bool} (connected : Bool)
      (h : (clientSet connected c).Runs Session.Answers s status s') : ClientStep s (.set c status) s'
  | get {s s' : Session β} {c : GetCall β} {status : Bool} {bufs : Buffers β} (connected : Bool)
      (h : (clientGet connected c).Runs Session.Answers s (status, bufs) s') : ClientStep s (.get c status bufs) s'

/-- **A client and the calls it makes**, of a cache that others may have used before. -/
def client (β : Type) [HyScanBufferWrap β] : Lts (Session β) (ClientEvent β) where
  init s := (cached β).Reachable s.link.priv ∧ s.calls = []
  tr := ClientStep

/-- Payloads have fewer than 2³² bytes. -/
def ClientFits (_ : Session β) : ClientEvent β → Prop
  | .set c _ => c.payload.length < 2 ^ 32
  | .get .. => True

/-- What a call leads to. -/
theorem ClientStep.led {e : ClientEvent β} (ht : ClientStep s e s') (hr : (cached β).Reachable s.link.priv)
    (hfits : ClientFits s e) : Led s.calls e s'.link.priv s'.calls := by
  cases ht with
  | set connected h => exact h.post (always_clientSet_led hr hfits connected)
  | get connected h => exact h.post (always_clientGet_led hr connected)

/-- **Nothing is made up, repeated or reordered.**  Over all the calls that a client has made, whatever was refused or
failed and whatever others have done to the cache meanwhile: the server has called the cache for some of the calls,
once for each and in their order, with the key, the detail and the payload of the call, and among them are all the
calls that returned `TRUE`, for which the cache has returned `TRUE`. -/
theorem delivery {h : List (ClientEvent β)} (hr : ((client β).guard ClientFits).Run h s) :
    Delivered h s.calls ∧ (cached β).Reachable s.link.priv := by
  refine Lts.Run.inv (L := (client β).guard ClientFits)
    (P := fun h s => Delivered h s.calls ∧ (cached β).Reachable s.link.priv) ?_ ?_ hr
  · rintro s ⟨hr, h0⟩
    rw [h0]
    exact ⟨.nil, hr⟩
  · rintro h s e s' - ⟨hd, hr⟩ ⟨hfits, ht⟩
    obtain ⟨hr', ⟨he, hcalls⟩ | ⟨m, hm, hcalls⟩⟩ := ht.led hr hfits
    · rw [hcalls]
      exact ⟨.lost hd he, hr'⟩
    · rw [hcalls]
      exact ⟨.carried hd hm, hr'⟩

end Calls

section Sample

local instance deliveryURpc : URpc := plainURpc

/-- A payload is stored by a client that is then not connected any more. -/
theorem delivery_sample : ∃ s : Session PlainBuffer,
    ((client PlainBuffer).guard ClientFits).Run
      [.get (sampleGet 7) false (sampleGet 7).bufs, .set (sampleSet 7) true] s ∧
    Delivered [.get (sampleGet 7) false (sampleGet 7).bufs, .set (sampleSet 7) true] s.calls := by
  have hle : (sampleSet 7).payload.length ≤ (maxPayload : UInt32).toNat := by decide
  obtain ⟨priv, -, hput, -⟩ := sample_sets
  obtain ⟨t, hclient⟩ := run_clientSet_ok ⟨0, fun _ => 0⟩ PlainBuffer.empty (fun _ => none) hle idle hput
  obtain ⟨s, hset, -⟩ := runs_of_run rfl hclient
  have hinit : (client PlainBuffer).init (Session.at idle (new 64) []) := ⟨reachable_new, rfl⟩
  have hfits : ClientFits (Session.at idle (new 64) []) (.set (sampleSet 7) true) := by
    show (sampleSet 7).payload.length < 2 ^ 32
    decide
  have hget : ClientStep s (.get (sampleGet 7) false (sampleGet 7).bufs) s := .get false .ret
  have hfits' : ClientFits s (.get (sampleGet 7) false (sampleGet 7).bufs) := trivial
  have hrun := ((Lts.Run.nil (L := (client PlainBuffer).guard ClientFits) hinit).cons ⟨hfits, .set true hset⟩).cons
    ⟨hfits', hget⟩
  exact ⟨s, hrun, (delivery hrun).1⟩

end Sample

end HyScanCache.Remote
