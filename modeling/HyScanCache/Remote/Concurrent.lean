import HyScanCache.Remote.Threads

/-!
# Clients at the same time

`system` is the system of a server, any number of clients, and others who call the cache in the process of the server.

* `remote_linearizable`: the calls take effect on the cache one after the other, each between its start and its
  return;
* `remote_progress`: no action meets a fault, and no deadlock keeps the calls from their end;
* `calls_return`: whatever the schedule, all calls return once no more are started.
-/

namespace HyScanCache.Remote

open Lib Cached

/-- A state of the system. -/
abbrev SystemState (β : Type) :=
  Threads CacheLock (CachedOp β) CachedOp.Ans (AnyCall β) (Exec (Answer β)) HyScanCachedPrivate

/-- What a thread does. -/
abbrev SystemDeed (β : Type) := Deed CacheLock (CachedOp β) CachedOp.Ans (AnyCall β) (Exec (Answer β))

/-- **The server, its cache, and all who call it**; a client makes one call at a time. -/
def system (β : Type) [HyScanBufferWrap β] [URpc] : Lts (SystemState β) (ℕ × SystemDeed β) :=
  Threads.system (fun priv => (cached β).init priv) AnyCall.program CachedOp.Does

/-! ### One call -/

section Calls

variable {β : Type} [HyScanBufferWrap β] [URpc]

/-- What is asked for. -/
def AnyCall.call : AnyCall β → Call β
  | direct c | client c .. => c

/-- What a call comes to, by the call of the cache it makes. -/
def AnyMade : AnyCall β → Option (Call β × Answer β) → Exec (Answer β) → Prop
  | .direct c, o, r => ∃ a, o = some (c, a) ∧ r = .ok a
  | .client c connected t _, o, r => ∃ a, r = .ok a ∧ ∀ priv priv' l calls, Happens o priv priv' l →
      ∃ s, (callClient connected c).Runs Session.Answers (Session.at t priv calls) a s ∧ s.link.priv = priv' ∧
        s.calls = calls ++ l

/-- **A call of anyone carries out one call of the cache, or none.** -/
theorem makes_program {c : AnyCall β} (hc : CallFits c.call) :
    Makes callProgram CallFits (AnyMade c) c.program := by
  cases c with
  | direct c => exact .calls hc fun a => ⟨a, rfl, rfl⟩
  | client c connected t x =>
    refine (makes_client (execsOnce_callClient c) (faultless_callClient hc t) x.refused).bind ?_ ?_
    · rintro r ⟨a, t', rfl, hr⟩
      exact .returns ⟨a, rfl, fun priv priv' l calls hx => ⟨_, hr priv priv' l calls hx, rfl, rfl⟩⟩
    · rintro y r ⟨a, t', rfl, hr⟩
      exact ⟨.ok a, rfl, a, rfl, fun priv priv' l calls hx => ⟨_, hr priv priv' l calls hx, rfl, rfl⟩⟩

variable {priv priv' : HyScanCachedPrivate} {calls l : List (Made β)} {t : Transport} {s : Session β}
variable {connected : Bool} {x : Conditions β} {a : Answer β}

theorem set_led {c : SetCall β} (hr : (cached β).Reachable priv) (hlt : c.payload.length < 2 ^ 32)
    (hrun : (callClient connected (.set c)).Runs Session.Answers (Session.at t priv calls) a s) :
    ∃ status, a = .set status ∧ Led calls (.set c status) s.link.priv s.calls := by
  refine hrun.post (Q := fun a s => ∃ status, a = .set status ∧ Led calls (.set c status) s.link.priv s.calls) ?_
  refine Prog.Always.bind ((always_clientSet_led hr hlt connected).mono ?_)
  exact fun status s hled => ⟨status, rfl, hled⟩

theorem get_led {c : GetCall β} (hr : (cached β).Reachable priv)
    (hrun : (callClient connected (.get c)).Runs Session.Answers (Session.at t priv calls) a s) :
    ∃ status bufs, a = .get status bufs ∧ Led calls (.get c status bufs) s.link.priv s.calls ∧
      ((∀ b, c.buffer1 = some b → c.buffer2 ≠ some b) → GetResult c calls (status, bufs) s.calls) := by
  obtain ⟨status, bufs, rfl, hled⟩ : ∃ status bufs, a = .get status bufs ∧
      Led calls (.get c status bufs) s.link.priv s.calls := by
    refine hrun.post (Q := fun a s => ∃ status bufs, a = .get status bufs ∧
      Led calls (.get c status bufs) s.link.priv s.calls) ?_
    refine Prog.Always.bind ((always_clientGet_led hr connected).mono ?_)
    exact fun r s hled => ⟨r.1, r.2, rfl, hled⟩
  refine ⟨status, bufs, rfl, hled, fun hne => ?_⟩
  have hresult : ∀ status' bufs', Answer.get status bufs = .get status' bufs' →
      GetResult c calls (status', bufs') s.calls := by
    refine hrun.post (Q := fun a s => ∀ status' bufs', a = .get status' bufs' →
      GetResult c calls (status', bufs') s.calls) ?_
    refine Prog.Always.bind ((always_clientGet hr hne connected).mono ?_)
    rintro r s hresult _ _ ⟨⟩
    exact hresult
  exact hresult status bufs rfl

/-- **What a call is answered** that has taken effect as `e`, where `before` has taken effect before it.  A client is
told `TRUE` only if the cache has said so, and is given the payload that was set last. -/
inductive Comes (before : List (Event β)) : AnyCall β → Event β → Answer β → Prop
  | direct {e : Event β} : Comes before (.direct (callOf e)) e (answerOf e)
  | set {c c' : SetCall β} {made status connected : Bool} {t : Transport} {x : Conditions β} (hk : c'.key = c.key)
      (hd : c'.detail = c.detail) (hp : c'.payload = c.payload) (hs : status = true → made = true) :
      Comes before (.client (.set c) connected t x) (.set c' made) (.set status)
  | get {c c' : GetCall β} {found made status connected : Bool} {bufs bufs' : Buffers β} {t : Transport}
      {x : Conditions β} (hk : c'.key = c.key) (hd : c'.detail = c.detail) (hs : status = true → made = true)
      (hbufs : (∀ b, c.buffer1 = some b → c.buffer2 ≠ some b) →
        (status = true → ∃ c₀, before.find? (Event.sets c.key) = some (.set c₀ true) ∧
          (c.detail = 0 ∨ c₀.detail = c.detail) ∧ Parted c c₀.payload bufs) ∧ (status = false → bufs = c.bufs)) :
      Comes before (.client (.get c) connected t x) (.get c' found made bufs') (.get status bufs)

omit [URpc] in
theorem Stored.written {before : List (Event β)} {key detail : UInt64} {value : Bytes}
    (hrun : (cached β).Run before priv) (hs : Stored priv key detail value) :
    ∃ c₀, before.find? (Event.sets key) = some (.set c₀ true) ∧ (detail = 0 ∨ c₀.detail = detail) ∧
      c₀.payload = value := by
  obtain ⟨store, hservice, hA⟩ := Run.abs hrun
  obtain ⟨o, ho, rfl, hd, rfl⟩ := hs
  obtain ⟨e, he, hh⟩ := hA.exists_entry ho
  obtain ⟨c₀, hf, hd₀, hp⟩ := run_written hservice he
  refine ⟨c₀, by rw [hh.hash]; exact hf, hd.imp_right fun h => ?_, hp.trans hh.objectBytes_eq.symm⟩
  rw [hd₀, ← h, hh.detail]

theorem comes {before : List (Event β)} {c : AnyCall β} {e : Event β} {r : Exec (Answer β)} (hc : CallFits c.call)
    (hrun : (cached β).Run before priv) (ht : (cached β).tr priv e priv')
    (hm : AnyMade c (some (callOf e, answerOf e)) r) : ∃ a, r = .ok a ∧ Comes before c e a := by
  have hr : (cached β).Reachable priv := ⟨before, hrun⟩
  cases c with
  | direct c =>
    obtain ⟨a, he, rfl⟩ := hm
    cases he
    exact ⟨_, rfl, .direct⟩
  | client c connected t x =>
    obtain ⟨a, rfl, hm⟩ := hm
    refine ⟨a, rfl, ?_⟩
    cases ht with
    | set block h =>
      obtain ⟨s, hs, -, hcalls⟩ := hm _ _ _ [] (.set block h)
      cases c with
      | set c =>
        obtain ⟨status, rfl, -, ⟨-, hnone⟩ | ⟨m, hcarries, hone⟩⟩ := set_led hr (hc c rfl) hs
        · rw [hnone] at hcalls
          cases hcalls
        · obtain rfl : m = _ := by simpa using hone.symm.trans hcalls
          cases hcarries with
          | set hk hd hp hstatus => exact .set hk hd hp hstatus
      | get c =>
        obtain ⟨status, bufs, rfl, ⟨-, ⟨-, hnone⟩ | ⟨m, hcarries, hone⟩⟩, -⟩ := get_led hr hs
        · rw [hnone] at hcalls
          cases hcalls
        · obtain rfl : m = _ := by simpa using hone.symm.trans hcalls
          cases hcarries
    | get h hf =>
      obtain ⟨s, hs, -, hcalls⟩ := hm _ _ _ [] (.get h)
      cases c with
      | set c =>
        obtain ⟨status, rfl, -, ⟨-, hnone⟩ | ⟨m, hcarries, hone⟩⟩ := set_led hr (hc c rfl) hs
        · rw [hnone] at hcalls
          cases hcalls
        · obtain rfl : m = _ := by simpa using hone.symm.trans hcalls
          cases hcarries
      | get c =>
        obtain ⟨status, bufs, rfl, ⟨-, ⟨-, hnone⟩ | ⟨m, hcarries, hone⟩⟩, hresult⟩ := get_led hr hs
        · rw [hnone] at hcalls
          cases hcalls
        · obtain rfl : m = _ := by simpa using hone.symm.trans hcalls
          cases hcarries with
          | get hk hd hstatus =>
            refine .get hk hd hstatus fun hne => ⟨fun htrue => ?_, (hresult hne).2⟩
            obtain ⟨priv₁, c'', bufs'', value, hmade, -, -, hstored, hparted⟩ := (hresult hne).1 htrue
            rw [hcalls] at hmade
            simp only [List.nil_append, List.cons.injEq, Made.get.injEq, and_true] at hmade
            obtain ⟨rfl, -⟩ := hmade
            obtain ⟨c₀, hf₀, hd₀, rfl⟩ := hstored.written hrun
            exact ⟨c₀, hf₀, hd₀, hparted⟩

/-- The call has returned `FALSE`, and has left the buffers as they were. -/
def AnyCall.Failed (c : AnyCall β) (r : Exec (Answer β)) : Prop :=
  match c.call with
  | .set _ => r = .ok (.set false)
  | .get c => ∃ bufs, r = .ok (.get false bufs) ∧ ((∀ b, c.buffer1 = some b → c.buffer2 ≠ some b) → bufs = c.bufs)

theorem AnyMade.failed {c : AnyCall β} {r : Exec (Answer β)} (hc : CallFits c.call)
    (hr : (cached β).Reachable priv) (hm : AnyMade c none r) : c.Failed r := by
  cases c with
  | direct c =>
    obtain ⟨a, he, -⟩ := hm
    cases he
  | client c connected t x =>
    obtain ⟨a, rfl, hm⟩ := hm
    obtain ⟨s, hs, -, hcalls⟩ := hm priv priv _ [] .nothing
    cases c with
    | set c =>
      obtain ⟨status, rfl, -, ⟨hfalse, -⟩ | ⟨m, -, hone⟩⟩ := set_led hr (hc c rfl) hs
      · obtain rfl : status = false := hfalse
        exact rfl
      · rw [hone] at hcalls
        cases hcalls
    | get c =>
      obtain ⟨status, bufs, rfl, ⟨-, ⟨hfalse, -⟩ | ⟨m, -, hone⟩⟩, hresult⟩ := get_led hr hs
      · obtain rfl : status = false := hfalse
        exact ⟨bufs, rfl, fun hne => (hresult hne).2 rfl⟩
      · rw [hone] at hcalls
        cases hcalls

/-! ### All of the calls -/

variable {h : List (ℕ × SystemDeed β)} {w : SystemState β}

/-- Payloads have fewer than 2³² bytes. -/
def SystemFits (_ : SystemState β) (x : ℕ × SystemDeed β) : Prop :=
  ∀ c, x.2 = .start c → CallFits c.call

/-- **The effects of the calls** of the history `h`, the newest first.

* A thread has one effect at most, of the call it has started, and has returned what that comes to.
* A call that has returned without an effect has failed.
* Of two calls with an effect, the one that has returned before the other one was started has the older effect. -/
structure Effects (h : List (ℕ × SystemDeed β)) (lin : List (ℕ × Event β)) : Prop where
  once : (lin.map Prod.fst).Nodup
  effect : ∀ l₂ i e l₁, lin = l₂ ++ (i, e) :: l₁ → ∃ c a, (i, .start c) ∈ h ∧ Comes (l₁.map Prod.snd) c e a ∧
    ∀ r, (i, .finish r) ∈ h → r = .ok a
  failed : ∀ i r, (i, .finish r) ∈ h → i ∉ lin.map Prod.fst → ∃ c, (i, .start c) ∈ h ∧ c.Failed r
  order : ∀ i j, Precedes h i j → i ∈ lin.map Prod.fst → ∀ l₂ e l₁, lin = l₂ ++ (j, e) :: l₁ → i ∈ l₁.map Prod.fst

theorem started_fits (hr : ((system β).guard SystemFits).Run h w) {i : ℕ} {c : AnyCall β} (hs : (i, .start c) ∈ h) :
    CallFits c.call := by
  obtain ⟨h₂, h₁, rfl⟩ := List.append_of_mem hs
  obtain ⟨s₁, s₁', -, ⟨hfits, -⟩, -⟩ := hr.split
  exact hfits c rfl

/-- The system runs as the threads do that call the cache itself. -/
theorem system_mirrored (hr : ((system β).guard SystemFits).Run h w) : ∃ h' w' priv lin,
    ((threads β).guard Cached.Fits).Run h' w' ∧ Mirrors AnyMade h w h' w' ∧ Consistent h' w' priv lin := by
  obtain ⟨h', w', hr', hm⟩ : ∃ h' w', ((threads β).guard Cached.Fits).Run h' w' ∧ Mirrors AnyMade h w h' w' :=
    Threads.mirrored (F := CallFits) (fun w i c hfits => makes_program (hfits c rfl))
      (fun w i d hd c hc => hd _ hc c rfl) hr
  obtain ⟨priv, lin, hl⟩ := Run.consistent hr'
  exact ⟨h', w', priv, lin, hr', hm, hl⟩

/-- **The calls take effect as those of the cache do that they make.** -/
theorem effects {h' : List (ℕ × Deed CacheLock (CachedOp β) CachedOp.Ans (Call β) (Answer β))}
    {w' : Threads CacheLock (CachedOp β) CachedOp.Ans (Call β) (Answer β) HyScanCachedPrivate}
    {lin : List (ℕ × Event β)} (hr : ((system β).guard SystemFits).Run h w)
    (hr' : ((threads β).guard Cached.Fits).Run h' w') (hm : Mirrors AnyMade h w h' w')
    (hl : Consistent h' w' priv lin) : Effects h lin := by
  have htold (i : ℕ) : Told h i (w.thread i) := Threads.told hr i
  have htold' (i : ℕ) : Told h' i (w'.thread i) := Threads.told hr' i
  refine ⟨hl.linear.once, ?_, ?_, ?_⟩
  · rintro l₂ i e l₁ rfl
    -- the state of the cache in which the call takes effect
    have hrun := hl.run
    rw [List.map_append, List.map_cons] at hrun
    obtain ⟨priv₁, priv₂, hbefore, ht, -⟩ := hrun.split
    have hmem : (i, e) ∈ l₂ ++ (i, e) :: l₁ := by simp
    have hstart := hl.linear.started i e hmem
    have hi := htold i
    have hsh := hm.thread i
    rcases (htold' i).started hstart with ⟨p, hp⟩ | ⟨r', hr'⟩
    · rw [hp] at hsh
      generalize w.thread i = t at hi hsh
      cases hsh with
      | @running c _ _ g hmade =>
        have hstarted := (hi.1 c).2 rfl
        obtain ⟨a, -, hcomes⟩ := comes (started_fits hr hstarted) hbefore ht (hmade (answerOf e))
        exact ⟨c, a, hstarted, hcomes, fun r hf => absurd hf (hi.2 r)⟩
    · -- what the call of the cache has returned is what its effect says
      obtain ⟨e', he', rfl⟩ := hl.linear.finished i r' (by
        have := htold' i
        rw [hr'] at this
        exact (this.2 r').2 rfl)
      obtain rfl : e = e' := hl.linear.unique hmem he'
      rw [hr'] at hsh
      generalize w.thread i = t at hi hsh
      cases hsh with
      | @returned c _ _ r hmade =>
        have hstarted := (hi.1 c).2 rfl
        obtain ⟨a, rfl, hcomes⟩ := comes (started_fits hr hstarted) hbefore ht hmade
        exact ⟨c, a, hstarted, hcomes, fun r hf => (hi.2 r).1 hf⟩
  · intro i r hf hno
    have hi := htold i
    obtain ⟨c, hret⟩ := hi.finished hf
    have hsh := hm.thread i
    rw [hret] at hi hsh
    have hstarted := (hi.1 c).2 rfl
    generalize hw' : w'.thread i = t at hsh
    cases hsh with
    | done hmade => exact ⟨c, hstarted, hmade.failed (started_fits hr hstarted) ⟨_, hl.run⟩⟩
    | @returned _ c₁ a _ hmade =>
      have hi' := htold' i
      rw [hw'] at hi'
      obtain ⟨e, he, -⟩ := hl.linear.finished i a ((hi'.2 a).2 rfl)
      exact absurd (List.mem_map.2 ⟨_, he, rfl⟩) hno
  · rintro i j hp hi l₂ e l₁ rfl
    obtain ⟨⟨i, e'⟩, he', rfl⟩ := List.mem_map.1 hi
    have hstarted := hl.linear.started j e (by simp)
    exact hl.linear.order i j (hm.order i j hp ⟨_, hl.linear.started i e' he'⟩ ⟨_, hstarted⟩) l₂ e l₁ rfl

omit [URpc] in
theorem Comes.read {before : List (Event β)} {s₁ s₂ : Store} {c : AnyCall β} {e : Event β} {g : GetCall β}
    {bufs : Buffers β} {b1 b2 : ℕ} (hcomes : Comes before c e (.get true bufs)) (hs : (service β).Run before s₁)
    (ht : Store.Step s₁ e s₂) (hg : c.call = .get g) (h1 : g.buffer1 = some b1) (h2 : g.buffer2 = some b2)
    (hne : b1 ≠ b2) (hg1 : Grows (g.bufs b1)) (hg2 : Grows (g.bufs b2)) :
    ∃ p, Event.set p true ∈ before ∧ p.key = g.key ∧ (g.detail = 0 ∨ p.detail = g.detail) ∧
      bytes (bufs b1) = p.payload.take g.size1.toNat ∧ bytes (bufs b2) = p.payload.drop g.size1.toNat := by
  have hkey {p : SetCall β} {k : UInt64} (hf : before.find? (Event.sets k) = some (.set p true)) : p.key = k := by
    have hsets := List.find?_some hf
    simpa [Event.sets] using hsets
  generalize ha : Answer.get true bufs = a at hcomes
  cases hcomes with
  | direct =>
    cases ht with
    | @hit g' x hcr hfind hdet status bufs' hdeliver =>
      cases hg
      cases ha
      obtain ⟨p, hf, hd, hp⟩ := run_written hs (Recency.mem_of_find hfind)
      rw [h1, h2] at hdeliver
      have hlt : x.bytes.length < 2 ^ 32 := x.fits.trans_lt x.lt
      obtain ⟨hb1, hb2⟩ := deliver_true hlt (fun he => hne (Option.some.inj he).symm) hdeliver
      rw [← hp] at hb1 hb2
      exact ⟨p, List.mem_of_find?_eq_some hf, (hkey hf).trans (Recency.key_of_find hfind),
        hdet.imp_right hd.trans, hb1, hb2 b2 rfl⟩
    | refuse | miss => cases ha
    | reject | delete | put => cases hg
  | set => cases hg
  | get hk hd hstatus hbufs =>
    cases hg
    cases ha
    have hdist : ∀ b, g.buffer1 = some b → g.buffer2 ≠ some b := by
      rintro b hb hb2
      exact hne (Option.some.inj (h1.symm.trans (hb.trans (hb2.symm.trans h2))))
    obtain ⟨p, hf, hd, hparted⟩ := (hbufs hdist).1 rfl
    exact ⟨p, List.mem_of_find?_eq_some hf, hkey hf, hd, hparted.bytes1 b1 h1 hg1, hparted.bytes2 b2 h2 hg2⟩

variable {lin : List (ℕ × Event β)}

omit [URpc] in
theorem Effects.setter (he : Effects h lin) {p : SetCall β} (hp : Event.set p true ∈ lin.map Prod.snd) :
    ∃ j c p', (j, .start c) ∈ h ∧ c.call = .set p' ∧ p'.key = p.key ∧ p'.detail = p.detail ∧
      p'.payload = p.payload := by
  obtain ⟨⟨j, e⟩, hj, rfl⟩ := List.mem_map.1 hp
  obtain ⟨l₂, l₁, rfl⟩ := List.append_of_mem hj
  obtain ⟨c, a, hc, hcomes, -⟩ := he.effect l₂ j (.set p true) l₁ rfl
  generalize hset : Event.set p true = e at hcomes
  cases hcomes with
  | direct =>
    subst hset
    exact ⟨j, _, p, hc, rfl, rfl, rfl, rfl⟩
  | @set c' _ _ _ _ _ _ hk hd hpayload =>
    cases hset
    exact ⟨j, _, c', hc, rfl, hk.symm, hd.symm, hpayload.symm⟩
  | get => cases hset

omit [URpc] in
theorem Comes.get_answer {before : List (Event β)} {c : AnyCall β} {e : Event β} {a : Answer β} {g : GetCall β}
    (hcomes : Comes before c e a) (hg : c.call = .get g) : ∃ status bufs, a = .get status bufs := by
  cases hcomes with
  | direct =>
    cases e with
    | set c status => cases hg
    | get c found status bufs => exact ⟨status, bufs, rfl⟩
  | set => cases hg
  | @get _ _ _ _ status _ bufs => exact ⟨status, bufs, rfl⟩

/-- **Readers see what was set.**  A call that gets an object and returns `TRUE` leaves in its buffers the parts of a
payload that a call with this key has been given. -/
theorem Effects.read (he : Effects h lin) (hr : ((system β).guard SystemFits).Run h w) {store : Store}
    (hs : (service β).Run (lin.map Prod.snd) store) {i b1 b2 : ℕ} {c : AnyCall β} {g : GetCall β}
    {r : Exec (Answer β)} (hstart : (i, .start c) ∈ h) (hg : c.call = .get g) (hf : (i, .finish r) ∈ h)
    (h1 : g.buffer1 = some b1) (h2 : g.buffer2 = some b2) (hne : b1 ≠ b2) (hg1 : Grows (g.bufs b1))
    (hg2 : Grows (g.bufs b2)) :
    ∃ status bufs, r = .ok (.get status bufs) ∧ (status = true → ∃ j c' p, (j, .start c') ∈ h ∧ c'.call = .set p ∧
      p.key = g.key ∧ (g.detail = 0 ∨ p.detail = g.detail) ∧ bytes (bufs b1) = p.payload.take g.size1.toNat ∧
      bytes (bufs b2) = p.payload.drop g.size1.toNat) := by
  have hone {c' : AnyCall β} (hc' : (i, .start c') ∈ h) : c' = c := by
    have hi : Told h i (w.thread i) := Threads.told hr i
    obtain ⟨c₀, hret⟩ := hi.finished hf
    rw [hret] at hi
    rw [(hi.1 c').1 hc', (hi.1 c).1 hstart]
  by_cases hlin : i ∈ lin.map Prod.fst
  · obtain ⟨⟨i, e⟩, hmem, rfl⟩ := List.mem_map.1 hlin
    obtain ⟨l₂, l₁, rfl⟩ := List.append_of_mem hmem
    obtain ⟨c', a, hc', hcomes, hret⟩ := he.effect l₂ i e l₁ rfl
    obtain rfl := hone hc'
    obtain ⟨status, bufs, rfl⟩ := hcomes.get_answer hg
    refine ⟨status, bufs, hret r hf, ?_⟩
    rintro rfl
    rw [List.map_append, List.map_cons] at hs
    obtain ⟨s₁, s₂, hbefore, ht, -⟩ := hs.split
    obtain ⟨p, hp, hk, hd, hb1, hb2⟩ := hcomes.read hbefore ht hg h1 h2 hne hg1 hg2
    have hset : Event.set p true ∈ (l₂ ++ (i, e) :: l₁).map Prod.snd := by simp [hp]
    obtain ⟨j, c₁, p', hc₁, hcall, hk', hd', hp'⟩ := he.setter hset
    rw [← hp'] at hb1 hb2
    exact ⟨j, c₁, p', hc₁, hcall, hk'.trans hk, hd.imp_right hd'.trans, hb1, hb2⟩
  · obtain ⟨c', hc', hfailed⟩ := he.failed i r hf hlin
    obtain rfl := hone hc'
    rw [AnyCall.Failed, hg] at hfailed
    obtain ⟨bufs, hfalse, -⟩ := hfailed
    exact ⟨false, bufs, hfalse, nofun⟩

/-- While no call is under way, the cache is as the whole calls have left it. -/
theorem rests {h' : List (ℕ × Deed CacheLock (CachedOp β) CachedOp.Ans (Call β) (Answer β))}
    {w' : Threads CacheLock (CachedOp β) CachedOp.Ans (Call β) (Answer β) HyScanCachedPrivate}
    (hm : Mirrors AnyMade h w h' w') (hl : Consistent h' w' priv lin) (hidle : ∀ i c p, w.thread i ≠ .running c p) :
    w.mem = priv := by
  refine hm.mem.symm.trans (hl.rests fun i c p hp => ?_).2
  have hsh := hm.thread i
  rw [hp] at hsh
  generalize ht : w.thread i = t at hsh
  cases hsh
  exact hidle i _ _ ht

/-- **Clients and other callers are linearizable.**  Whatever is refused or lost on the way of a client, the calls
that have an effect on the cache have it one after the other, each between its start and its return; what they return
and leave in the buffers follows from the run of whole calls in this order, and the rest has failed. -/
theorem remote_linearizable (hr : ((system β).guard SystemFits).Run h w) :
    ∃ lin priv s, Effects h lin ∧ (cached β).Run (lin.map Prod.snd) priv ∧ (service β).Run (lin.map Prod.snd) s ∧
      Abs priv s ∧ ((∀ i c p, w.thread i ≠ .running c p) → w.mem = priv) := by
  obtain ⟨h', w', priv, lin, hr', hm, hl⟩ := system_mirrored hr
  obtain ⟨s, hs, hA⟩ := Run.abs hl.run
  exact ⟨lin, priv, s, effects hr hr' hm hl, hl.run, hs, hA, rests hm hl⟩

theorem goes_on (hr : ((system β).guard SystemFits).Reachable w) :
    (∀ i o, w.Acts i o → o.Suits w.mem) ∧
      ∀ i c p, w.thread i = .running c p → ∃ j, w.Ready CachedOp.Does j := by
  obtain ⟨h, hr⟩ := hr
  obtain ⟨h', w', priv, lin, hr', hm, hl⟩ := system_mirrored hr
  have ho := Threads.orderly hr'
  have hsuits (i : ℕ) (o : CachedOp β) (hi : w.Acts i o) : o.Suits w.mem := by
    rw [← hm.mem]
    exact hl.suits ho (hm.acts hi)
  have hrank (l : CacheLock) : l.rank < 2 := by cases l <;> decide
  exact ⟨hsuits, fun i c p hi => (hm.orderly ho).progress hrank (fun i o hi => (hsuits i o hi).1) hi⟩

/-- **No fault, and no deadlock.**  No action of a thread meets a null pointer, a dead block or the end of a block,
and while calls are under way, of clients or of others, one of them can take a step. -/
theorem remote_progress (hr : ((system β).guard SystemFits).Reachable w) :
    (∀ i o, w.Acts i o → o.Suits w.mem) ∧
      ∀ i c p, w.thread i = .running c p → ∃ j, w.Ready CachedOp.Does j := goes_on hr

/-- **All calls return.**  Once no more calls are started, every schedule comes to an end: all calls that were under
way have returned, no lock is held, and the cache is in a state that whole calls lead to. -/
theorem calls_return (hr : ((system β).guard SystemFits).Reachable w) :
    ((system β).guard Threads.Quiet).Inevitable (fun w' => (∀ i c p, w.thread i = .running c p →
      ∃ r, w'.thread i = .returned c r) ∧ (∀ i, w'.held i = noLocks) ∧ (cached β).Reachable w'.mem) w := by
  refine Threads.inevitable (fun w x hx c hc => absurd hc (hx c)) (fun w hr => (goes_on hr).2) ?_ hr
  rintro w' ⟨h, hr⟩ hidle hcall
  obtain ⟨h', w₁, priv, lin, hr', hm, hl⟩ := system_mirrored hr
  have ho := hm.orderly (Threads.orderly hr')
  refine ⟨fun i c p hi => ?_, fun i => ?_, ?_⟩
  · have hc := hcall i
    rw [hi] at hc
    cases ht : w'.thread i with
    | idle =>
      rw [ht] at hc
      cases hc
    | running c' p' => exact absurd ht (hidle i c' p')
    | returned c' r =>
      rw [ht] at hc
      cases hc
      exact ⟨r, rfl⟩
  · cases ht : w'.thread i with
    | idle => exact ho.idle i ht
    | running c p => exact absurd ht (hidle i c p)
    | returned c r => exact ho.returned i c r ht
  · rw [rests hm hl hidle]
    exact ⟨_, hl.run⟩

theorem steps_call {G : SystemState β → ℕ × SystemDeed β → Prop} (hle : ∀ w x, G w x → SystemFits w x)
    (hG : ∀ w i d, (∀ c, d ≠ .start c) → G w (i, d)) {block : Block} {i : ℕ} {c : AnyCall β} {r : Exec (Answer β)}
    {priv' : HyScanCachedPrivate} (hr : ((system β).guard G).Run h w) (hi : w.thread i = .running c c.program)
    (hrun : c.program.run (handleAlone block) w.mem = .ok (r, priv')) (hnone : ∀ j, w.held j = noLocks) :
    ∃ h' w', ((system β).guard G).Steps w h' w' ∧ (i, .finish r) ∈ h' ∧ w'.mem = priv' ∧
      (∀ j, w'.held j = noLocks) ∧ w'.thread = Function.update w.thread i (.returned c r) := by
  obtain ⟨h', w', priv, lin, hr', hm, -⟩ := system_mirrored (hr.guard_mono hle)
  have ho := hm.orderly (Threads.orderly hr')
  exact Threads.steps_alone hG (runs_alone hrun) rfl hi (ho.running i c _ hi) fun j _ => hnone j

end Calls

section Sample

local instance threadsURpc : URpc := plainURpc

/-- Nothing is refused. -/
def plainConditions : Conditions PlainBuffer where
  refused := fun _ => false
  serverRefused := fun _ => false
  lost := false
  buffer := PlainBuffer.empty
  left := fun _ => none
  hleft := rfl

variable {G : SystemState PlainBuffer → ℕ × SystemDeed PlainBuffer → Prop}

theorem run_started {c₀ c₁ : AnyCall PlainBuffer} (h₀ : ∀ w, G w (0, .start c₀)) (h₁ : ∀ w, G w (1, .start c₁)) :
    ∃ w, ((system PlainBuffer).guard G).Run [(1, .start c₁), (0, .start c₀)] w ∧ w.mem = new 64 ∧
      (∀ i, w.held i = noLocks) ∧ w.thread 0 = .running c₀ c₀.program ∧ w.thread 1 = .running c₁ c₁.program := by
  have hinit : (system PlainBuffer).init ⟨new 64, fun _ => noLocks, fun _ => .idle⟩ := ⟨init_new, fun _ => ⟨rfl, rfl⟩⟩
  have hnil := Lts.Run.nil (L := (system PlainBuffer).guard G) hinit
  exact ⟨_, (hnil.cons ⟨h₀ _, .start rfl⟩).cons ⟨h₁ _, .start rfl⟩, rfl, fun _ => rfl, rfl, rfl⟩

/-- A client sets an object, and someone else, who has called the cache at the same time, gets it. -/
theorem run_called (hle : ∀ w x, G w x → SystemFits w x) (hG : ∀ w i d, (∀ c, d ≠ .start c) → G w (i, d))
    {c : SetCall PlainBuffer} {g : GetCall PlainBuffer} {bufs : Buffers PlainBuffer}
    {priv₁ priv₂ : HyScanCachedPrivate} (hc : ∀ w, G w (0, .start (.client (.set c) true idle plainConditions)))
    (hg : ∀ w, G w (1, .start (.direct (.get g)))) (hfit : c.payload.length ≤ (maxPayload : UInt32).toNat)
    (hset : callSet ⟨0, fun _ => 0⟩ (new 64) c = .ok (true, priv₁))
    (hget : callGet priv₁ g = .ok (true, bufs, priv₂)) : ∃ h w, ((system PlainBuffer).guard G).Run h w ∧
      (1, .start (.direct (.get g))) ∈ h ∧ (0, .finish (.ok (.set true))) ∈ h ∧
      (1, .finish (.ok (.get true bufs))) ∈ h := by
  obtain ⟨w, hr, hmem, hheld, h0, h1⟩ := run_started hc hg
  obtain ⟨t, hclient⟩ := run_clientSet_ok ⟨0, fun _ => 0⟩ PlainBuffer.empty (fun _ => none) hfit idle hset
  have hcall : (callClient true (.set c)).run
      (Link.perform ⟨0, fun _ => 0⟩ PlainBuffer.empty fun _ => none) ⟨idle, new 64⟩ =
        .ok (.set true, ⟨t, priv₁⟩) := by
    rw [callClient, Prog.run_bind, hclient]
    rfl
  have hrun₁ : (AnyCall.client (.set c) true idle plainConditions).program.run (handleAlone ⟨0, fun _ => 0⟩)
      (new 64) = .ok (.ok (.set true), priv₁) :=
    run_client (x := plainConditions) (fun _ => rfl) rfl (fun _ => rfl) hcall
  obtain ⟨h₁, w₁, hs₁, hf₁, hm₁, hl₁, ht₁⟩ := steps_call (i := 0)
    (c := .client (.set c) true idle plainConditions) hle hG hr h0 (by rw [hmem]; exact hrun₁) hheld
  have hrun₂ : (AnyCall.direct (.get g)).program.run (handleAlone ⟨1, fun _ => 0⟩) priv₁ =
      .ok (.ok (.get true bufs), priv₂) := by
    rw [AnyCall.program, Prog.run_bind, run_program, Call.run, hget]
    rfl
  have h1' : w₁.thread 1 = .running (.direct (.get g)) (AnyCall.direct (.get g)).program := by
    rw [ht₁, Function.update_of_ne (by decide), h1]
  obtain ⟨h₂, w₂, hs₂, hf₂, -⟩ := steps_call (i := 1) (c := .direct (.get g)) hle hG (hr.trans hs₁) h1'
    (by rw [hm₁]; exact hrun₂) hl₁
  exact ⟨_, w₂, (hr.trans hs₁).trans hs₂, by simp, List.mem_append_right _ (List.mem_append_left _ hf₁),
    List.mem_append_left _ hf₂⟩

/-- A client sets an object. -/
def sampleClient : AnyCall PlainBuffer := .client (.set (sampleSet 7)) true idle plainConditions

/-- Someone else gets it. -/
def sampleDirect : AnyCall PlainBuffer := .direct (.get (sampleGet 7))

theorem fits_sampleClient (w : SystemState PlainBuffer) : SystemFits w (0, .start sampleClient) := by
  rintro c ⟨⟩ c' ⟨⟩
  decide

theorem fits_sampleDirect (w : SystemState PlainBuffer) : SystemFits w (1, .start sampleDirect) := by
  rintro c ⟨⟩ c' ⟨⟩

/-- A payload is stored by a client, and read by someone who has called the cache at the same time. -/
theorem remote_linearizable_sample : ∃ h w bufs, ((system PlainBuffer).guard SystemFits).Run h w ∧
    (0, .finish (.ok (.set true))) ∈ h ∧ (1, .finish (.ok (.get true bufs))) ∈ h ∧
    ∃ lin priv s, Effects h lin ∧ (cached PlainBuffer).Run (lin.map Prod.snd) priv ∧
      (service PlainBuffer).Run (lin.map Prod.snd) s ∧ Abs priv s := by
  obtain ⟨priv₁, -, hset, -⟩ := sample_sets
  obtain ⟨priv₂, bufs, hget⟩ : ∃ priv bufs, callGet priv₁ (sampleGet 7) = .ok (true, bufs, priv) := by
    cases hset
    exact ⟨_, _, rfl⟩
  obtain ⟨h, w, hr, -, hf₀, hf₁⟩ := run_called (fun _ _ => id) (fun _ _ _ hd c he => absurd he (hd c))
    fits_sampleClient fits_sampleDirect (by decide) hset hget
  obtain ⟨lin, priv, s, heffects, hrun, hs, hA, -⟩ := remote_linearizable hr
  exact ⟨h, w, bufs, hr, hf₀, hf₁, lin, priv, s, heffects, hrun, hs, hA⟩

/-- A client and someone else have started. -/
theorem remote_progress_sample : ∃ w : SystemState PlainBuffer,
    w.thread 0 = .running sampleClient sampleClient.program ∧ (∀ i o, w.Acts i o → o.Suits w.mem) ∧
      ∃ j, w.Ready CachedOp.Does j := by
  obtain ⟨w, hr, -, -, h0, -⟩ := run_started fits_sampleClient fits_sampleDirect
  obtain ⟨hsuits, hready⟩ := remote_progress ⟨_, hr⟩
  exact ⟨w, h0, hsuits, hready 0 _ _ h0⟩

/-- Both come to their end. -/
theorem calls_return_sample : ∃ w : SystemState PlainBuffer,
    w.thread 0 = .running sampleClient sampleClient.program ∧
    ((system PlainBuffer).guard Threads.Quiet).Inevitable (fun w' => (∀ i c p, w.thread i = .running c p →
      ∃ r, w'.thread i = .returned c r) ∧ (∀ i, w'.held i = noLocks) ∧ (cached PlainBuffer).Reachable w'.mem) w := by
  obtain ⟨w, hr, -, -, h0, -⟩ := run_started fits_sampleClient fits_sampleDirect
  exact ⟨w, h0, calls_return ⟨_, hr⟩⟩

end Sample

end HyScanCache.Remote
