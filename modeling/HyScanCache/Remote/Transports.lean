import HyScanCache.Remote.Exclusive
import HyScanCache.Remote.Threads

/-!
# The transport of a client

All calls of a client share its transport (`calls`).  A call of the system of a server and its clients has a transport
of its own, which the lock is no matter for (`AnyCall.client`).  As long as no lock returns `NULL` this comes to the
same.

* `own_transport`: what a call does to the transport it shares is a run of its program on a transport of its own, from
  what the transport was when the lock was granted;
* `inside_goes_on`: a call that has the lock can go on until it has unlocked the transport, if its payload has fewer
  than 2³² bytes;
* `steps_of_client`: what a call of the system does to its transport is a run of its client, with this call alone.
-/

namespace HyScanCache.Remote

open Lib Cached

variable {β : Type} [URpc]

/-! ### A shared transport -/

section Shared

variable {w w' : World β} {i : ℕ} {connected : Bool} {k : Bool → ClientProg (Bool × Option (Buffers β))}

/-- Where a call stands whose program locks the transport and goes on as `k`. -/
inductive World.OnItsOwn (k : Bool → ClientProg (Bool × Option (Buffers β))) (w : World β) (i : ℕ) : Prop
  | waits (ha : w.acquired i = false) (hc : w.calls i = some (.op .lock k))
  | inside {t : Transport} {p : ClientProg (Bool × Option (Buffers β))} (hi : w.Inside i) (hc : w.calls i = some p)
      (h : (k true).Through Transport.Answers t p w.transport)
  | ended {t t' : Transport} {r : Bool × Option (Buffers β)} (hr : w.released i = true)
      (hc : w.calls i = some (.ret r)) (h : (k true).Runs Transport.Answers t r t')

theorem World.OnItsOwn.congr (h : w.OnItsOwn k i) (hc : w'.calls i = w.calls i) (ha : w'.acquired i = w.acquired i)
    (hr : w'.released i = w.released i) (ht : w.Inside i → w'.transport = w.transport) : w'.OnItsOwn k i := by
  cases h with
  | waits ha' hc' => exact .waits (ha.trans ha') (hc.trans hc')
  | inside hi hc' h =>
    rw [← ht hi] at h
    exact .inside ⟨ha.trans hi.1, hr.trans hi.2⟩ (hc.trans hc') h
  | ended hr' hc' h => exact .ended (hr.trans hr') (hc.trans hc') h

/-- What is answered to a call that has the lock is answered on the transport. -/
theorem World.Answers.transport {o : ClientOp} {a : o.Ans} (h : w.Answers i o a w') (ho : o ≠ .lock) :
    Transport.Answers o w.transport a w'.transport ∧ w'.acquired i = w.acquired i ∧
      (o = .unlock → w'.released i = true) ∧ (o ≠ .unlock → w'.released i = w.released i) := by
  cases h with
  | lock => exact absurd rfl ho
  | unlock => exact ⟨.perform nofun rfl, rfl, fun _ => Function.update_self .., fun hu => absurd rfl hu⟩
  | exec proc ok reply => exact ⟨.reply reply, rfl, nofun, fun _ => rfl⟩
  | perform _ hu he h => exact ⟨.perform he h, rfl, fun h => absurd h hu, fun _ => rfl⟩
  | refuse h =>
    refine ⟨.refuse h, rfl, ?_, fun _ => rfl⟩
    rintro rfl
    cases h

theorem World.Answers.other {j : ℕ} (hj : i ≠ j) {o : ClientOp} {a : o.Ans} (h : w.Answers j o a w') :
    w'.acquired i = w.acquired i ∧ w'.released i = w.released i := by
  cases h with
  | lock => exact ⟨Function.update_of_ne hj _ _, rfl⟩
  | unlock => exact ⟨rfl, Function.update_of_ne hj _ _⟩
  | exec | perform | refuse => exact ⟨rfl, rfl⟩

omit [URpc] in
theorem World.Sound.owner (hs : w.Sound) (hi : w.Inside i) {p : ClientProg (Bool × Option (Buffers β))}
    (hc : w.calls i = some p) : ∃ ps x, Owns true ps x p := by
  cases hs.stands i p hc with
  | waits ha => exact absurd (ha.symm.trans hi.1) (by decide)
  | owns _ h => exact ⟨_, _, h⟩
  | ended _ hr => exact absurd (hr.symm.trans hi.2) (by decide)

/-- **The step of a call** that has the lock is one of its program, on a transport of its own. -/
theorem World.OnItsOwn.answer (hs : w.Sound) {o : ClientOp} {a : o.Ans} (hg : Act.answer o a ≠ .answer .lock false)
    {k' : o.Ans → ClientProg (Bool × Option (Buffers β))} (hc : w.calls i = some (.op o k')) (h : w.Answers i o a w')
    (hw : w.OnItsOwn k i) : World.OnItsOwn k { w' with calls := Function.update w.calls i (some (k' a)) } i := by
  have hcalls : Function.update w.calls i (some (k' a)) i = some (k' a) := Function.update_self ..
  cases hw with
  | waits ha hc' =>
    cases Option.some.inj (hc.symm.trans hc')
    have hr := (hs.waiting hc).1
    cases h with
    | lock => exact .inside ⟨Function.update_self .., hr⟩ hcalls .refl
    | perform hl => exact absurd rfl hl
    | refuse h =>
      cases h
      exact absurd rfl hg
  | @inside t p hi hc' hthrough =>
    obtain rfl := Option.some.inj (hc.symm.trans hc')
    obtain ⟨ps, x, hp⟩ := hs.owner hi hc
    obtain ⟨hans, ha, hunlock, hr⟩ := h.transport hp.ne_lock
    by_cases hu : o = .unlock
    · subst hu
      obtain ⟨-, r, hret⟩ := hp
      have hend : (k' a).Runs Transport.Answers w'.transport r w'.transport := by
        rw [show k' a = .ret r from hret]
        exact .ret
      exact .ended (hunlock rfl) (hcalls.trans (congrArg some hret)) ((hthrough.step hans).runs hend)
    · exact .inside ⟨ha.trans hi.1, (hr hu).trans hi.2⟩ hcalls (hthrough.step hans)
  | ended _ hc' => cases Option.some.inj (hc.symm.trans hc')

variable [HyScanBufferWrap β]

/-- **A step of the client** leaves the transport of a call that has the lock to this call. -/
theorem World.OnItsOwn.step (hs : w.Sound) {e : ℕ × Act} (hg : Granted w e) (ht : w.Step connected e w')
    (hw : w.OnItsOwn k i) : w'.OnItsOwn k i := by
  have hsome : w.calls i ≠ none := by
    cases hw with
    | waits _ hc | inside _ hc | ended _ hc =>
      rw [hc]
      exact Option.some_ne_none _
  cases ht with
  | @start j call hj =>
    have hne : i ≠ j := by
      rintro rfl
      exact hsome hj
    exact hw.congr (Function.update_of_ne hne ..) rfl rfl fun _ => rfl
  | @answer w' j o k' a hc h =>
    by_cases hij : i = j
    · subst hij
      exact hw.answer hs hg hc h
    · obtain ⟨ha, hr⟩ := h.other hij
      refine hw.congr (Function.update_of_ne hij ..) ha hr fun hi => ?_
      -- the other call would have to have the lock as well
      exfalso
      by_cases hl : o = .lock
      · subst hl
        cases h with
        | lock hfree => exact absurd (hfree.symm.trans (hs.locked i hi)) (by decide)
        | perform hl => exact hl rfl
        | refuse h =>
          cases h
          exact hg rfl
      · exact hij (hs.unique i j hi (hs.working hc hl).1)

/-- **A call has the transport to itself.**  As long as no lock returns `NULL`, a call of a client that comes to the
lock waits for it, or works on the transport, or is over, and what it has done to the transport from when the lock was
granted is a run of its program on a transport of its own. -/
theorem own_transport {w₀ : World β} {h : List (ℕ × Act)} (hr : ((calls β connected).guard Granted).Reachable w₀)
    (hc : w₀.calls i = some (.op .lock k)) (hs : ((calls β connected).guard Granted).Steps w₀ h w) :
    w.OnItsOwn k i := by
  obtain ⟨h₀, hr⟩ := hr
  have h0 : w₀.OnItsOwn k i := by
    have hsound : w₀.Sound := Reachable.sound ⟨h₀, hr⟩
    cases hsound.stands i _ hc with
    | waits ha => exact .waits ha hc
    | owns _ h => exact h.elim
    | ended _ _ h =>
      obtain ⟨r, h⟩ := h
      cases h
  refine hs.inv (P := fun w => w.OnItsOwn k i) h0 ?_
  rintro h w₁ e w₂ hs₁ hw ⟨hg, ht⟩
  exact hw.step (Reachable.sound ⟨_, hr.trans hs₁⟩) hg ht

omit [HyScanBufferWrap β] [URpc] in
theorem granted_answer {o : ClientOp} (ho : o ≠ .lock) (a : o.Ans) : Granted w (i, .answer o a) := by
  intro h
  cases h
  exact ho rfl

/-- A call has a payload below 2³² bytes. -/
def ClientCall.Fits (call : ClientCall β) : Prop := ∀ c, call = .set c → c.payload.length < 2 ^ 32

theorem ClientCall.faultless {call : ClientCall β} (hfits : call.Fits) (connected : Bool) (t : Transport) :
    Faultless (call.program connected) t := by
  cases call with
  | get c =>
    refine Faultless.of_uses ?_ t
    exact (uses_clientGet c).bind fun _ => trivial
  | set c =>
    show (clientSet connected c >>= fun _ => _).Safely _ _ _ _
    exact Prog.Safely.bind ((faultless_clientSet (hfits c rfl) t).mono fun _ _ _ => trivial)

/-- **A call that has the lock can go on**, until it has unlocked the transport. -/
theorem inside_goes_on {call : ClientCall β} (hfits : call.Fits) (hk : call.program connected = .op .lock k)
    (hs : w.Sound) (hw : w.OnItsOwn k i) (hi : w.Inside i) :
    ∃ e w', Granted w (i, e) ∧ w.Step connected (i, e) w' := by
  cases hw with
  | waits ha => exact absurd (ha.symm.trans hi.1) (by decide)
  | ended hr => exact absurd (hr.symm.trans hi.2) (by decide)
  | @inside t p _ hc hthrough =>
    have hsafe : Faultless (k true) t := by
      have h := call.faultless hfits connected t
      rw [hk] at h
      exact h.2 true t (.perform nofun rfl)
    have hp := hthrough.safely hsafe
    obtain ⟨ps, x, howns⟩ := hs.owner hi hc
    cases p with
    | ret r => cases howns
    | op o k' =>
      obtain ⟨⟨a, t'⟩, ha⟩ := hp.1
      have hgo {a : o.Ans} {w' : World β} (h : w.Answers i o a w') :
          ∃ e w', Granted w (i, e) ∧ w.Step connected (i, e) w' :=
        ⟨_, _, granted_answer howns.ne_lock a, .answer hc h⟩
      cases o with
      | lock => exact howns.elim
      | unlock => exact hgo .unlock
      | exec proc => exact hgo (.exec proc true fun _ => none)
      | setUint64 | reserve | write | getUint32 | getData => exact hgo (.perform nofun nofun nofun ha)

end Shared

/-! ### A transport of one's own -/

section Own

variable [HyScanBufferWrap β] {α σ : Type} {x : Conditions β} {t t' : Transport}
variable {R : (o : LockOp CacheLock (CachedOp β)) → σ → o.Ans CachedOp.Ans → σ → Prop} {s s' : σ}

/-- What a program does in the system, whatever the cache answers. -/
theorem runs_of_clientProgram {p : ClientProg α} {refused : Refusals} {a : α}
    (h : (clientProgram x p refused t).Runs R s (.ok (a, t')) s') : p.Runs Transport.Answers t a t' := by
  induction p generalizing refused t s with
  | ret b =>
    cases h
    exact .ret
  | op o k ih =>
    by_cases hexec : ∃ proc, o = .exec proc
    · obtain ⟨proc, rfl⟩ := hexec
      rw [clientProgram] at h
      split at h
      · exact .op (.refuse rfl) (ih false h)
      · obtain ⟨r, s₁, -, hk⟩ := h.of_bind
        exact .op (.reply r.2) (ih (!x.lost) hk)
    · have hown : ∀ proc, o ≠ .exec proc := fun proc h => hexec ⟨proc, h⟩
      cases ho : o.own (refused 0) t with
      | error f =>
        rw [clientProgram] at h
        · rw [ho] at h
          cases h
        · exact fun proc _ he _ => hown proc he
      | ok r =>
        obtain ⟨b, t₁⟩ := r
        rw [clientProgram_op hown ho] at h
        exact .op (own_answers hown ho) (ih b h)

variable {w : World β} {i : ℕ} {connected : Bool} {r : Bool × Option (Buffers β)}

/-- **A run on a transport of its own** is a run of the client, with nobody else about. -/
theorem steps_of_runs {p : ClientProg (Bool × Option (Buffers β))} {ps : List Param} {y : Bool}
    (hp : Owns true ps y p) (hrun : p.Runs Transport.Answers t r t') (hc : w.calls i = some p)
    (ht : w.transport = t) :
    ∃ h w', ((calls β connected).guard Granted).Steps w h w' ∧ w'.calls i = some (.ret r) ∧ w'.transport = t' := by
  induction hrun generalizing w ps y with
  | ret => cases hp
  | @op o k t t₁ t' b r ho hk ih =>
    subst ht
    have hstep {w₁ : World β} (h : w.Answers i o b w₁) : ((calls β connected).guard Granted).tr w (i, .answer o b)
        { w₁ with calls := Function.update w.calls i (some (k b)) } :=
      ⟨granted_answer hp.ne_lock b, .answer hc h⟩
    by_cases hu : o = .unlock
    · subst hu
      obtain ⟨-, r', hret⟩ := hp
      have hend : k b = .ret r' := hret
      rw [hend] at hk
      cases hk
      refine ⟨_, _, .cons .nil (hstep .unlock), ?_, ?_⟩
      · exact (Function.update_self ..).trans (congrArg some hend)
      · cases ho with
        | perform _ h =>
          cases h
          rfl
        | refuse h => cases h
    · obtain ⟨ps', y', hown⟩ := hp.next hu b
      obtain ⟨w₁, hans, hw₁⟩ : ∃ w₁, w.Answers i o b w₁ ∧ w₁.transport = t₁ := by
        cases ho with
        | perform he h => exact ⟨_, .perform hp.ne_lock hu he h, rfl⟩
        | refuse h => exact ⟨w, .refuse h, rfl⟩
        | @reply _ _ b reply => exact ⟨_, .exec _ b reply, rfl⟩
      obtain ⟨h, w', hs, hc', ht'⟩ :=
        ih (w := { w₁ with calls := Function.update w.calls i (some (k b)) }) hown (Function.update_self ..) hw₁
      exact ⟨_, w', Lts.Steps.trans (.cons .nil (hstep hans)) hs, hc', ht'⟩

/-- The call, as the system has it. -/
def ClientCall.call : ClientCall β → Call β
  | .set c => .set c
  | .get c => .get c

/-- What it returned, as the client has it. -/
def returned : Answer β → Bool × Option (Buffers β)
  | .set status => (status, none)
  | .get status bufs => (status, some bufs)

theorem callClient_bind (connected : Bool) (call : ClientCall β) :
    (callClient connected call.call >>= fun a => Prog.ret (returned a)) = call.program connected := by
  cases call with
  | set c => exact Prog.bind_assoc (clientSet connected c) _ _
  | get c => exact Prog.bind_assoc (clientGet connected c) _ _

/-- **A call of the system** that is granted the lock is, on its transport, a run of its client, with nobody else
about. -/
theorem steps_of_client {call : ClientCall β} {a : Answer β} (hx : x.refused 0 = false)
    (hrun : (AnyCall.client call.call connected t x).program.Runs R s (.ok a) s') (hc : w.calls i = none)
    (hl : w.locked = false) (ht : w.transport = t) :
    ∃ h w', ((calls β connected).guard Granted).Steps w h w' ∧ w'.calls i = some (.ret (returned a)) := by
  have hstart : ((calls β connected).guard Granted).tr w (i, .start)
      { w with calls := Function.update w.calls i (some (call.program connected)) } :=
    ⟨(by rintro ⟨⟩), .start call hc⟩
  obtain ⟨r, s₁, hclient, hret⟩ := hrun.of_bind
  obtain ⟨⟨b, t'⟩, rfl⟩ : ∃ b, r = .ok b := by
    cases r with
    | error f => cases hret
    | ok b => exact ⟨b, rfl⟩
  cases hret
  have hbind := callClient_bind connected call
  have hwaits := call.waits connected
  cases hcall : callClient connected call.call with
  | ret a₀ =>
    rw [hcall] at hclient hbind
    cases hclient
    exact ⟨_, _, .cons .nil hstart, (Function.update_self ..).trans (congrArg some hbind.symm)⟩
  | op o k =>
    rw [hcall] at hclient hbind
    rw [← hbind] at hwaits
    rcases hwaits with ⟨r, h⟩ | ⟨k', hk, howns⟩
    · cases h
    cases hk
    have hlock : ClientOp.own .lock (x.refused 0) t = .ok (true, t) := by
      rw [hx]
      rfl
    rw [clientProgram_op (by rintro proc ⟨⟩) hlock] at hclient
    have hgo := (runs_of_clientProgram hclient).bind (f := fun a => Prog.ret (returned a)) .ret
    have hcalls : Function.update w.calls i (some (call.program connected)) i = some (.op .lock _) :=
      (Function.update_self ..).trans (congrArg some hbind.symm)
    obtain ⟨w₁, hgranted, hc₁, ht₁⟩ : ∃ w₁, ((calls β connected).guard Granted).tr
        { w with calls := Function.update w.calls i (some (call.program connected)) } (i, .answer .lock true) w₁ ∧
        w₁.calls i = some (k true >>= fun a => Prog.ret (returned a)) ∧ w₁.transport = t :=
      ⟨_, ⟨by rintro ⟨⟩, .answer hcalls (.lock hl)⟩, Function.update_self .., ht⟩
    obtain ⟨h, w', hs, hc', -⟩ := steps_of_runs howns hgo hc₁ ht₁
    exact ⟨_, w', Lts.Steps.trans (.cons (.cons .nil hstart) hgranted) hs, hc'⟩

end Own

end HyScanCache.Remote
