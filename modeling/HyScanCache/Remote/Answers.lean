import HyScanCache.Remote.Refinement

/-!
# How operations are answered when calls fail

Any call of uRPC may be refused, on either side, and the execution of a procedure may fail before or after the
server has run it.  Other callers use the cache meanwhile.  `Job.Answers` and `Session.Answers` say how the
operations of a procedure and of a client may be answered; a job and a session keep the calls of the cache that
were made for them.  A reply starts without a status.

There is a rule for every operation, which says what a program has to come to after each of its answers, and a
program that runs without refusals has such a run as well (`runs_of_run`).
-/

namespace HyScanCache.Remote

open Lib Recency Cached

/-- A call of the cache, with the state it was made in and what it returned. -/
inductive Made (β : Type) where
  | set (priv : HyScanCachedPrivate) (c : SetCall β) (status : Bool)
  | get (priv : HyScanCachedPrivate) (c : GetCall β) (status : Bool) (bufs : Buffers β)

namespace ServerOp

variable {β : Type}

/-- What an operation of a procedure answers that is refused; what the client has sent can be read. -/
def refusal : (o : ServerOp β) → Option o.Ans
  | setUint32 .. => some false
  | reserve .. => some none
  | getUint64 _ | getData _ | write .. | cacheSet _ | cacheGet _ => none

/-- The calls of the cache in an operation. -/
def made (priv : HyScanCachedPrivate) : (o : ServerOp β) → o.Ans → List (Made β)
  | cacheSet c, status => [.set priv c status]
  | cacheGet c, (status, bufs) => [.get priv c status bufs]
  | getUint64 _, _ | getData _, _ | setUint32 .., _ | reserve .., _ | write .., _ => []

end ServerOp

section Failures

variable {β : Type} [HyScanBufferWrap β] [URpc]
variable {priv : HyScanCachedPrivate} {request reply left : URpcData} {calls : List (Made β)} {t : Transport}

/-! ### The server -/

/-- A procedure at work. -/
structure Job (β : Type) where
  serving : Server.Serving
  calls : List (Made β)

/-- How an operation of a procedure may be answered. -/
inductive Job.Answers : (o : ServerOp β) → Job β → o.Ans → Job β → Prop
  /-- Other callers have used the cache, and the operation is not refused. -/
  | perform {o : ServerOp β} {j : Job β} {h : List (Event β)} {priv₁ : HyScanCachedPrivate} {a : o.Ans}
      {v : Server.Serving} (block : Block) (hs : (cached β).Steps j.serving.priv h priv₁)
      (ho : ({ j.serving with priv := priv₁ } : Server.Serving).perform block o = .ok (a, v)) :
      Answers o j a ⟨v, j.calls ++ o.made priv₁ a⟩
  /-- The operation is refused. -/
  | refuse {o : ServerOp β} {j : Job β} {a : o.Ans} (h : o.refusal = some a) : Answers o j a j

theorem Job.Answers.inv {o : ServerOp β} {j j' : Job β} {a : o.Ans} (h : Job.Answers o j a j')
    (hr : (cached β).Reachable j.serving.priv) :
    (o.refusal = some a ∧ j' = j) ∨ ∃ block priv₁ v, (cached β).Reachable priv₁ ∧
      ({ j.serving with priv := priv₁ } : Server.Serving).perform block o = .ok (a, v) ∧
      j' = ⟨v, j.calls ++ o.made priv₁ a⟩ := by
  cases h with
  | perform block hs ho =>
    obtain ⟨h, hrun⟩ := hr
    exact .inr ⟨block, _, _, ⟨_, hrun.trans hs⟩, ho, rfl⟩
  | refuse h => exact .inl ⟨h, rfl⟩

/-- The state of a job. -/
abbrev Job.at (request reply : URpcData) (priv : HyScanCachedPrivate) (calls : List (Made β)) : Job β :=
  ⟨⟨request, reply, priv⟩, calls⟩

section Rules

variable {α : Type} {Q : α → Job β → Prop} {p : Param}

theorem always_plain {o : ServerOp β} {k : o.Ans → ServerProg β α} {a : o.Ans} {reply' : URpcData}
    (hr : (cached β).Reachable priv)
    (ho : ∀ block priv, ({ request, reply, priv } : Server.Serving).perform block o =
      .ok (a, { request, reply := reply', priv }))
    (hmade : ∀ priv, o.made priv a = [])
    (hk : ∀ priv, (cached β).Reachable priv → (k a).Always Job.Answers Q (Job.at request reply' priv calls))
    (hrefused : ∀ r, o.refusal = some r → (k r).Always Job.Answers Q (Job.at request reply priv calls)) :
    (Prog.op o k).Always Job.Answers Q (Job.at request reply priv calls) := by
  intro b j hb
  obtain ⟨h, rfl⟩ | ⟨block, priv₁, v, hr₁, he, rfl⟩ := hb.inv hr
  · exact hrefused b h
  · obtain ⟨rfl, rfl⟩ := Prod.mk.inj (Except.ok.inj ((ho block priv₁).symm.trans he))
    rw [hmade, List.append_nil]
    exact hk priv₁ hr₁

theorem always_getUint64 {k : Option UInt64 → ServerProg β α} {v : Option UInt64} (hr : (cached β).Reachable priv)
    (hv : request.getUint64 p = v)
    (hk : ∀ priv, (cached β).Reachable priv → (k v).Always Job.Answers Q (Job.at request reply priv calls)) :
    (Prog.op (ServerOp.getUint64 p) k).Always Job.Answers Q (Job.at request reply priv calls) := by
  subst hv
  exact always_plain hr (fun _ _ => rfl) (fun _ => rfl) hk (fun _ h => by cases h)

theorem always_getData {k : Option Bytes → ServerProg β α} {v : Option Bytes} (hr : (cached β).Reachable priv)
    (hv : request.getData p = v)
    (hk : ∀ priv, (cached β).Reachable priv → (k v).Always Job.Answers Q (Job.at request reply priv calls)) :
    (Prog.op (ServerOp.getData p) k).Always Job.Answers Q (Job.at request reply priv calls) := by
  subst hv
  exact always_plain hr (fun _ _ => rfl) (fun _ => rfl) hk (fun _ h => by cases h)

theorem always_setUint32 {k : Bool → ServerProg β α} {v : UInt32} (hr : (cached β).Reachable priv)
    (hk : ∀ priv, (cached β).Reachable priv →
      (k true).Always Job.Answers Q (Job.at request (reply.set p (.uint32 v)) priv calls))
    (hrefused : (k false).Always Job.Answers Q (Job.at request reply priv calls)) :
    (Prog.op (ServerOp.setUint32 p v) k).Always Job.Answers Q (Job.at request reply priv calls) := by
  refine always_plain hr (fun _ _ => rfl) (fun _ => rfl) hk ?_
  rintro r ⟨⟩
  exact hrefused

theorem always_reserve {k : Option Bytes → ServerProg β α} {size : UInt32} (hr : (cached β).Reachable priv)
    (hk : ∀ priv, (cached β).Reachable priv → (k (some (reserve (reply.getData p) size))).Always Job.Answers Q
      (Job.at request (reply.set p (.bytes (reserve (reply.getData p) size))) priv calls))
    (hrefused : (k none).Always Job.Answers Q (Job.at request reply priv calls)) :
    (Prog.op (ServerOp.reserve p size) k).Always Job.Answers Q (Job.at request reply priv calls) := by
  refine always_plain hr (fun _ _ => rfl) (fun _ => rfl) hk ?_
  rintro r ⟨⟩
  exact hrefused

theorem always_write {k : Unit → ServerProg β α} {m : Bytes} (hr : (cached β).Reachable priv)
    (hk : ∀ priv, (cached β).Reachable priv →
      (k ()).Always Job.Answers Q (Job.at request (reply.set p (.bytes m)) priv calls)) :
    (Prog.op (ServerOp.write p m) k).Always Job.Answers Q (Job.at request reply priv calls) :=
  always_plain hr (fun _ _ => rfl) (fun _ => rfl) hk (fun _ h => by cases h)

theorem always_cacheSet {k : Bool → ServerProg β α} {c : SetCall β} (hr : (cached β).Reachable priv)
    (hk : ∀ status priv₁ priv', (cached β).Reachable priv' →
      (k status).Always Job.Answers Q (Job.at request reply priv' (calls ++ [.set priv₁ c status]))) :
    (Prog.op (ServerOp.cacheSet c) k).Always Job.Answers Q (Job.at request reply priv calls) := by
  intro a j ho
  obtain ⟨h, -⟩ | ⟨block, priv₁, v', hr₁, he, rfl⟩ := ho.inv hr
  · cases h
  · cases hc : callSet block priv₁ c with
    | error f =>
      rw [Server.Serving.perform, hc] at he
      cases he
    | ok r =>
      obtain ⟨status, priv'⟩ := r
      rw [Server.Serving.perform, hc] at he
      cases he
      exact hk _ priv₁ priv' (hr₁.step (Step.set block hc))

theorem always_cacheGet {k : Bool × Buffers β → ServerProg β α} {c : GetCall β} (hr : (cached β).Reachable priv)
    (hk : ∀ status bufs priv₁ priv', (cached β).Reachable priv₁ → callGet priv₁ c = .ok (status, bufs, priv') →
      (cached β).Reachable priv' →
      (k (status, bufs)).Always Job.Answers Q (Job.at request reply priv' (calls ++ [.get priv₁ c status bufs]))) :
    (Prog.op (ServerOp.cacheGet c) k).Always Job.Answers Q (Job.at request reply priv calls) := by
  intro a j ho
  obtain ⟨h, -⟩ | ⟨block, priv₁, v', hr₁, he, rfl⟩ := ho.inv hr
  · cases h
  · cases hc : callGet priv₁ c with
    | error f =>
      rw [Server.Serving.perform, hc] at he
      cases he
    | ok r =>
      obtain ⟨status, bufs, priv'⟩ := r
      rw [Server.Serving.perform, hc] at he
      cases he
      obtain ⟨found, hf⟩ : ∃ found : Bool, found = true ↔ Found priv₁ c := by
        by_cases hf : Found priv₁ c
        · exact ⟨true, by simp [hf]⟩
        · exact ⟨false, by simp [hf]⟩
      exact hk status bufs priv₁ priv' hr₁ hc (hr₁.step (Step.get hc hf))

end Rules

/-! ### The client -/

/-- A client in a call, and the calls of the cache that were made for it. -/
structure Session (β : Type) where
  link : Link
  calls : List (Made β)

/-- How an operation of a client may be answered. -/
inductive Session.Answers : (o : ClientOp) → Session β → o.Ans → Session β → Prop
  /-- The operation is not refused. -/
  | perform {o : ClientOp} {s : Session β} {a : o.Ans} {t : Transport} (hexec : ∀ proc, o ≠ .exec proc)
      (ho : s.link.transport.perform o = .ok (a, t)) : Answers o s a { s with link := ⟨t, s.link.priv⟩ }
  /-- The operation is refused. -/
  | refuse {o : ClientOp} {s : Session β} {a : o.Ans} (h : o.refusal = some a) : Answers o s a s
  /-- A thread of the server, with its buffer, has run the procedure, on a reply without a status. -/
  | exec {proc : Proc} {s : Session β} {j : Job β} (buffer : β) (left : URpcData)
      (hleft : left.getUint32 .status = none)
      (hj : (Server.program buffer proc).Runs Job.Answers
        (Job.at s.link.transport.request left s.link.priv s.calls) () j) :
      Answers (.exec proc) s true
        ⟨⟨{ s.link.transport with reply := j.serving.reply }, j.serving.priv⟩, j.calls⟩
  /-- The procedure was run, and its reply was lost. -/
  | lost {proc : Proc} {s : Session β} {j : Job β} (buffer : β) (left reply : URpcData)
      (hj : (Server.program buffer proc).Runs Job.Answers
        (Job.at s.link.transport.request left s.link.priv s.calls) () j) :
      Answers (.exec proc) s false ⟨⟨{ s.link.transport with reply }, j.serving.priv⟩, j.calls⟩

/-- The state of a session. -/
abbrev Session.at (t : Transport) (priv : HyScanCachedPrivate) (calls : List (Made β)) : Session β :=
  ⟨⟨t, priv⟩, calls⟩

section Rules

variable {α : Type} {Q : α → Session β → Prop} {p : Param}

theorem always_own {o : ClientOp} {k : o.Ans → ClientProg α} (hexec : ∀ proc, o ≠ .exec proc)
    (hk : ∀ a t', t.perform o = .ok (a, t') → (k a).Always Session.Answers Q (Session.at t' priv calls))
    (hrefused : ∀ a, o.refusal = some a → (k a).Always Session.Answers Q (Session.at t priv calls)) :
    (Prog.op o k).Always Session.Answers Q (Session.at t priv calls) := by
  intro a s ho
  cases ho with
  | perform _ ho => exact hk _ _ ho
  | refuse h => exact hrefused _ h
  | exec => exact absurd rfl (hexec _)
  | lost => exact absurd rfl (hexec _)

theorem always_refusable {o : ClientOp} {k : o.Ans → ClientProg α} {a r : o.Ans} {t' : Transport}
    (hexec : ∀ proc, o ≠ .exec proc) (ho : t.perform o = .ok (a, t')) (href : o.refusal = some r)
    (hk : (k a).Always Session.Answers Q (Session.at t' priv calls))
    (hrefused : (k r).Always Session.Answers Q (Session.at t priv calls)) :
    (Prog.op o k).Always Session.Answers Q (Session.at t priv calls) := by
  refine always_own hexec ?_ ?_
  · intro b t₁ hb
    obtain ⟨rfl, rfl⟩ := Prod.mk.inj (Except.ok.inj (ho.symm.trans hb))
    exact hk
  · intro b hb
    obtain rfl : r = b := Option.some.inj (href.symm.trans hb)
    exact hrefused

theorem always_exec {proc : Proc} {k : Bool → ClientProg α}
    (hk : ∀ (buffer : β) left j, left.getUint32 .status = none →
      (Server.program buffer proc).Runs Job.Answers (Job.at t.request left priv calls) () j →
      (k true).Always Session.Answers Q (Session.at { t with reply := j.serving.reply } j.serving.priv j.calls))
    (hfailed : ∀ s, (k false).Always Session.Answers Q s) :
    (Prog.op (ClientOp.exec proc) k).Always Session.Answers Q (Session.at t priv calls) := by
  intro a s ho
  cases ho with
  | perform hexec _ => exact absurd rfl (hexec _)
  | refuse h =>
    cases h
    exact hfailed _
  | exec buffer left hleft hj => exact hk buffer left _ hleft hj
  | lost => exact hfailed _

/-- **The lock and the label `exit`** change nothing of what a function comes to. -/
theorem always_session_priv {locked : ClientProg α} {refused : α} {P : α → HyScanCachedPrivate → List (Made β) → Prop}
    (hlocked : locked.Always Session.Answers (fun r s => P r s.link.priv s.calls) (Session.at t priv calls))
    (hrefused : P refused priv calls) :
    (session locked refused).Always Session.Answers (fun r s => P r s.link.priv s.calls)
      (Session.at t priv calls) := by
  have hexit (r : α) (s : Session β) (hr : P r s.link.priv s.calls) :
      (Prog.op ClientOp.unlock fun _ => Prog.ret r).Always Session.Answers
        (fun r s => P r s.link.priv s.calls) s := by
    refine always_own (fun _ h => by cases h) ?_ ?_
    · rintro a t' ⟨⟩
      exact hr
    · rintro a ⟨⟩
  exact always_refusable nofun rfl rfl (Prog.Always.bind (hlocked.mono hexit)) (hexit refused _ hrefused)

theorem always_session {locked : ClientProg α} {refused : α} {P : α → List (Made β) → Prop}
    (hlocked : locked.Always Session.Answers (fun r s => P r s.calls) (Session.at t priv calls))
    (hrefused : P refused calls) :
    (session locked refused).Always Session.Answers (fun r s => P r s.calls) (Session.at t priv calls) :=
  always_session_priv (P := fun r _ calls => P r calls) hlocked hrefused

end Rules

/-! ### Calls that do not fail -/

/-- A procedure that is served is one of the runs. -/
theorem runs_of_serve {block : Block} {buffer : β} {proc : Proc} {priv' : HyScanCachedPrivate}
    (h : Server.serve block buffer left proc request priv = .ok (reply, priv')) :
    ∃ j, (Server.program buffer proc).Runs Job.Answers (Job.at request left priv calls) () j ∧
      j.serving.reply = reply ∧ j.serving.priv = priv' := by
  rw [Server.serve] at h
  cases hrun : (Server.program buffer proc).run (Server.Serving.perform block) ⟨request, left, priv⟩ with
  | error f =>
    rw [hrun] at h
    cases h
  | ok r =>
    obtain ⟨⟨⟩, v⟩ := r
    rw [hrun] at h
    cases h
    have hjob : ∀ o : ServerOp β, True → ∀ (v : Server.Serving) a v' (j : Job β), j.serving = v →
        v.perform block o = .ok (a, v') → ∃ j', Job.Answers o j a j' ∧ j'.serving = v' := by
      rintro o - _ a v' j rfl ho
      exact ⟨_, .perform block .nil ho, rfl⟩
    obtain ⟨j, hj, hv⟩ := Prog.Runs.of_run hjob (Prog.uses_any _) (t := Job.at request left priv calls) rfl hrun
    exact ⟨j, hj, by rw [hv], by rw [hv]⟩

/-- **A call of a client in which nothing is refused** is one of the runs. -/
theorem runs_of_run {α : Type} {block : Block} {buffer : β} {p : ClientProg α} {a : α} {w : Link}
    (hleft : left.getUint32 .status = none)
    (hrun : p.run (Link.perform block buffer left) ⟨t, priv⟩ = .ok (a, w)) :
    ∃ s, p.Runs Session.Answers (Session.at t priv calls) a s ∧ s.link = w := by
  refine Prog.Runs.of_run (S := fun w (s : Session β) => s.link = w) ?_ (Prog.uses_any p) rfl hrun
  rintro o - _ a w' s rfl ho
  by_cases hexec : ∃ proc, o = .exec proc
  · obtain ⟨proc, rfl⟩ := hexec
    rw [Link.perform] at ho
    cases hserve : Server.serve block buffer left proc s.link.transport.request s.link.priv with
    | error f =>
      rw [hserve] at ho
      cases ho
    | ok r =>
      obtain ⟨reply, priv'⟩ := r
      rw [hserve] at ho
      cases ho
      obtain ⟨j, hj, rfl, rfl⟩ := runs_of_serve hserve
      exact ⟨_, .exec buffer left hleft hj, rfl⟩
  · have hown : ∀ proc, o ≠ .exec proc := fun proc h => hexec ⟨proc, h⟩
    rw [Link.perform] at ho
    · cases hp : s.link.transport.perform o with
      | error f =>
        rw [hp] at ho
        cases ho
      | ok r =>
        rw [hp] at ho
        cases ho
        exact ⟨_, .perform hown hp, rfl⟩
    · exact hown

end Failures

end HyScanCache.Remote
