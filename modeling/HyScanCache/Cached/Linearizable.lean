import HyScanCache.Cached.Places

/-!
# Calls at the same time

`threads` is the system of any number of threads that call `set` and `get`, one action or lock operation at a time.
Whatever the order of the steps:

* `linearizable`: the calls take effect one after the other, each between its start and its return, with the answers
  and the memory of a run of whole calls;
* `calls_progress`: no action meets a fault, and no deadlock keeps the calls from their end;
* `actions_commute`: no two actions that could take place at the same time are in conflict.
-/

namespace HyScanCache.Cached

open Lib Recency HyScanCachedPrivate

variable {β : Type} [HyScanBuffer β]
variable {mem mem' : HyScanCachedPrivate}

/-! ### Runs -/

section Runs

variable {h : List (ℕ × Deed CacheLock (CachedOp β) CachedOp.Ans (Call β) (Answer β))} {w : World β}
variable {lin : List (ℕ × Event β)} {i j : ℕ} {o o' : CachedOp β}

theorem Threads.orderly (hr : ((threads β).guard Fits).Run h w) : w.Orderly CacheLock.rank CachedOp.Allowed :=
  Threads.Reachable.orderly disciplined_program ⟨h, hr.of_guard⟩

/-- **The invariant holds in every run.** -/
theorem Run.consistent (hr : ((threads β).guard Fits).Run h w) : ∃ priv lin, Consistent h w priv lin := by
  refine Lts.Run.inv (L := (threads β).guard Fits) (P := fun h w => ∃ priv lin, Consistent h w priv lin) ?_ ?_ hr
  · rintro w ⟨hinit, h0⟩
    refine ⟨w.mem, [], Lts.Run.nil hinit, .nil, fun i c p hi => ?_, fun i => ?_, rfl, fun _ => .refl _,
      fun _ _ => rfl⟩
    · rw [(h0 i).2] at hi
      cases hi
    · rw [(h0 i).1, (h0 i).2]
      exact .idle rfl nofun
  · rintro h w ⟨i, d⟩ w' hr ⟨priv, lin, hl⟩ ⟨hfits, ht⟩
    exact hl.step (Threads.orderly hr) ht hfits

/-- What a program comes to alone. -/
theorem runs_alone {α : Type} {block : Block} {priv priv' : HyScanCachedPrivate} {p : CachedProg β α} {a : α}
    (h : p.run (handleAlone block) priv = .ok (a, priv')) : p.Runs (Alone CachedOp.Does) priv a priv' := by
  have halone (op : LockOp CacheLock (CachedOp β)) (_ : True) (priv : HyScanCachedPrivate) (b : op.Ans CachedOp.Ans)
      (priv₁ t : HyScanCachedPrivate) (ht : priv = t) (he : handleAlone block op priv = .ok (b, priv₁)) :
      ∃ t', Alone CachedOp.Does op t b t' ∧ priv₁ = t' := by
    subst ht
    cases op with
    | acquire l m =>
      cases he
      exact ⟨priv, .acquire, rfl⟩
    | release l m =>
      cases he
      exact ⟨priv, .release, rfl⟩
    | act o => exact ⟨priv₁, .act ⟨block, he⟩, rfl⟩
  obtain ⟨priv₁, hr, rfl⟩ := Prog.Runs.of_run halone p.uses_any rfl h
  exact hr

theorem runs_program {block : Block} {priv priv' : HyScanCachedPrivate} {c : Call β} {r : Answer β}
    (h : c.run block priv = .ok (r, priv')) : (callProgram c).Runs (Alone CachedOp.Does) priv r priv' := by
  rw [← run_program] at h
  exact runs_alone h

/-- A thread that finds the others without locks carries out its call. -/
theorem steps_program (block : Block) {priv' : HyScanCachedPrivate} {c : Call β} {r : Answer β}
    (h : c.run block w.mem = .ok (r, priv')) (hi : w.thread i = .running c (callProgram c))
    (hnone : ∀ j, w.held j = noLocks) :
    ∃ h w', ((threads β).guard Fits).Steps w h w' ∧ (i, .finish r) ∈ h ∧ w'.mem = priv' ∧
      (∀ j, w'.held j = noLocks) ∧ w'.thread = Function.update w.thread i (.returned c r) :=
  Threads.steps_alone (fun w i d hd c he => absurd he (hd _)) (runs_program h) rfl hi
    (by rw [hnone i]; exact disciplined_program c) fun j _ => hnone j

theorem Consistent.rests {priv : HyScanCachedPrivate} (hl : Consistent h w priv lin)
    (hidle : ∀ i c p, w.thread i ≠ .running c p) : (∀ i, w.held i = noLocks) ∧ w.mem = priv := by
  have hnone (i : ℕ) : w.held i = noLocks := by
    have hp := hl.place i
    generalize hi : w.thread i = t at hp
    cases hp with
    | idle hheld | returned hheld => exact hheld
    | checking | waiting | writing | entering | reading | found | placing | copying | ending =>
      exact absurd hi (hidle i _ _)
  exact ⟨hnone, hl.settled (fun i => by rw [hnone i]; nofun) fun i => by rw [hnone i]; rfl⟩

/-- **Calls are linearizable.**  They take effect one after the other, each between its start and its return: they
return what a run of whole calls in this order returns, from a cache that refines the service, and they leave its
memory once all of them have returned. -/
theorem linearizable (hr : ((threads β).guard Fits).Run h w) :
    ∃ lin priv s, Linearization callOf answerOf h lin ∧ (cached β).Run (lin.map Prod.snd) priv ∧
      (service β).Run (lin.map Prod.snd) s ∧ Abs priv s ∧ ((∀ i c p, w.thread i ≠ .running c p) → w.mem = priv) := by
  obtain ⟨priv, lin, hl⟩ := Run.consistent hr
  obtain ⟨s, hs, hA⟩ := Run.abs hl.run
  exact ⟨lin, priv, s, hl.linear, hl.run, hs, hA, fun hidle => (hl.rests hidle).2⟩

/-- A fresh cache, and threads that have not called it. -/
def freshWorld : World PlainBuffer := ⟨new 64, fun _ => noLocks, fun _ => .idle⟩

/-- The threads start the calls, one after the other. -/
def startedWorld (c₀ c₁ c₂ : Call PlainBuffer) : World PlainBuffer :=
  ((freshWorld.go 0 (.running c₀ (callProgram c₀))).go 1 (.running c₁ (callProgram c₁))).go 2
    (.running c₂ (callProgram c₂))

theorem run_startedWorld (c₀ c₁ c₂ : Call PlainBuffer)
    (hfits : ∀ c, Call.set c ∈ [c₀, c₁, c₂] → c.payload.length < 2 ^ 32) :
    ((threads PlainBuffer).guard Fits).Run [(2, .start c₂), (1, .start c₁), (0, .start c₀)]
      (startedWorld c₀ c₁ c₂) := by
  have hstart {c' : Call PlainBuffer} (i : ℕ) (w : World PlainBuffer) (hc' : c' ∈ [c₀, c₁, c₂]) :
      Fits w (i, .start c') := by
    intro c hc
    cases hc
    exact hfits c hc'
  have h₀ : ((threads PlainBuffer).guard Fits).Run [] freshWorld := .nil ⟨init_new, fun _ => ⟨rfl, rfl⟩⟩
  have h₁ : ((threads PlainBuffer).guard Fits).Run [(0, .start c₀)]
      (freshWorld.go 0 (.running c₀ (callProgram c₀))) :=
    h₀.cons ⟨hstart 0 _ (by simp), .start rfl⟩
  have h₂ : ((threads PlainBuffer).guard Fits).Run [(1, .start c₁), (0, .start c₀)]
      ((freshWorld.go 0 (.running c₀ (callProgram c₀))).go 1 (.running c₁ (callProgram c₁))) :=
    h₁.cons ⟨hstart 1 _ (by simp), .start rfl⟩
  exact h₂.cons ⟨hstart 2 _ (by simp), .start rfl⟩

/-- Two payloads are stored and one is read, by threads that have all started before one of them goes on. -/
theorem sample_threads : ∃ h w bufs, ((threads PlainBuffer).guard Fits).Run h w ∧
    (∀ i c p, w.thread i ≠ .running c p) ∧ (2, .finish (.get true bufs)) ∈ h := by
  obtain ⟨priv₁, priv₂, h₁, h₂⟩ := sample_sets
  obtain ⟨priv₃, bufs, h₃⟩ : ∃ priv bufs, callGet priv₂ (sampleGet 7) = .ok (true, bufs, priv) := by
    cases h₁
    cases h₂
    exact ⟨_, _, rfl⟩
  have hr := run_startedWorld (.set (sampleSet 7)) (.set (sampleSet 8)) (.get (sampleGet 7)) (by
    intro c hc
    simp only [List.mem_cons, Call.set.injEq, reduceCtorEq, List.not_mem_nil, or_false] at hc
    rcases hc with rfl | rfl <;> decide)
  obtain ⟨hist₁, w₁, hs₁, -, hm₁, hl₁, ht₁⟩ := steps_program ⟨0, fun _ => 0⟩ (r := .set true) (i := 0)
    (w := startedWorld (.set (sampleSet 7)) (.set (sampleSet 8)) (.get (sampleGet 7))) (by
      rw [Call.run, show (startedWorld _ _ _).mem = new 64 from rfl, h₁]; rfl) rfl fun _ => rfl
  obtain ⟨hist₂, w₂, hs₂, -, hm₂, hl₂, ht₂⟩ := steps_program ⟨1, fun _ => 0⟩ (c := .set (sampleSet 8))
    (r := .set true) (i := 1) (by rw [Call.run, hm₁, h₂]; rfl) (by rw [ht₁]; rfl) hl₁
  obtain ⟨hist₃, w₃, hs₃, hf₃, -, -, ht₃⟩ := steps_program ⟨1, fun _ => 0⟩ (c := .get (sampleGet 7))
    (r := .get true bufs) (i := 2) (by rw [Call.run, hm₂, h₃]; rfl) (by rw [ht₂, ht₁]; rfl) hl₂
  refine ⟨_, w₃, bufs, ((hr.trans hs₁).trans hs₂).trans hs₃, fun i c p hi => ?_, List.mem_append_left _ hf₃⟩
  rw [ht₃, ht₂, ht₁] at hi
  rcases i with _ | _ | _ | i <;> cases hi

/-- Two payloads are stored and one is read at the same time: the `get` that has returned takes effect. -/
theorem linearizable_sample : ∃ h w bufs, ((threads PlainBuffer).guard Fits).Run h w ∧
    ∃ lin priv s, Linearization callOf answerOf h lin ∧ (cached PlainBuffer).Run (lin.map Prod.snd) priv ∧
      (service PlainBuffer).Run (lin.map Prod.snd) s ∧ Abs priv s ∧ w.mem = priv ∧
      ∃ e, (2, e) ∈ lin ∧ answerOf e = .get true bufs := by
  obtain ⟨h, w, bufs, hr, hidle, hf⟩ := sample_threads
  obtain ⟨lin, priv, s, hlin, hrun, hs, hA, hmem⟩ := linearizable hr
  exact ⟨h, w, bufs, hr, lin, priv, s, hlin, hrun, hs, hA, hmem hidle, hlin.finished _ _ hf⟩

/-- What a thread does next suits the memory. -/
theorem Consistent.suits (hl : Consistent h w priv lin) (ho : w.Orderly CacheLock.rank CachedOp.Allowed)
    (hi : w.Acts i o) : o.Suits w.mem := by
  obtain ⟨c, k, hi⟩ := hi
  have hp := hl.place i
  rw [hi] at hp
  generalize ht : Thread.running c (Prog.op (LockOp.act o) k) = t at hp
  cases hp with
  | idle | waiting | entering | found | ending | returned => cases ht
  | checking =>
    cases ht
    exact .of_run fun _ => rfl
  | @writing c p hheld hno huses hsafe =>
    cases p with
    | ret r => cases ht
    | op op k =>
      cases ht
      exact hsafe.1.2 o rfl
  | @reading c hheld hlist hno hr =>
    cases ht
    obtain ⟨s, -, l, hrep, -⟩ := Run.abs hl.run
    have hg := getObject_spec hrep c
    rw [← (hl.links_of_shared ho hheld).getObject_eq] at hg
    generalize (Recency.find Cell.key c.key l).bind _ = object at hg
    have hrun (block : Block) :
        (CachedOp.getObject (β := β) c.key c.detail).run block w.mem = .ok (object, w.mem) := by
      rw [CachedOp.run, hg]
      rfl
    exact .of_run hrun
  | @placing c a p priv' hheld hlist hno hr hg hplace huses hsafe =>
    cases p with
    | ret u => cases ht
    | op op k =>
      cases ht
      exact hsafe.1.2 o rfl
  | @copying c e p hheld hlist he hc hs =>
    cases p with
    | ret r => cases ht
    | op op k =>
      cases ht
      obtain ⟨hlinks, x, hx, -⟩ := hs
      have hrun (block : Block) : o.run block w.mem = .ok (x, w.mem) := by
        rw [CachedOp.run_congr hlinks (hl.links_of_shared ho hheld), hx block]
        rfl
      exact .of_run hrun

/-- **Calls at the same time come to their end.**  No action of a thread meets a null pointer, a dead block or the end
of a block, and while calls are under way one of them can take a step, even if a reader that comes waits for the
writers that wait. -/
theorem calls_progress (hr : ((threads β).guard Fits).Reachable w) :
    (∀ i o, w.Acts i o → o.Suits w.mem) ∧
      ∀ i c p, w.thread i = .running c p → ∃ j, w.Ready CachedOp.Does j := by
  obtain ⟨h, hr⟩ := hr
  obtain ⟨priv, lin, hl⟩ := Run.consistent hr
  have ho := Threads.orderly hr
  have hsuits (i : ℕ) (o : CachedOp β) (hi : w.Acts i o) : o.Suits w.mem := hl.suits ho hi
  have hrank (l : CacheLock) : l.rank < 2 := by cases l <;> decide
  exact ⟨hsuits, fun i c p hi => ho.progress hrank (fun i o hi => (hsuits i o hi).1) hi⟩

theorem sample_fits : ∀ c, Call.set c ∈ [.set (sampleSet 7), .get (sampleGet 7), .get (sampleGet 8)] →
    c.payload.length < 2 ^ 32 := by
  intro c hc
  simp only [List.mem_cons, Call.set.injEq, reduceCtorEq, List.not_mem_nil, or_false] at hc
  subst hc
  decide

/-- A `set` and two `get`s have started. -/
theorem calls_progress_sample : ∃ w : World PlainBuffer,
    (∀ i, i < 3 → ∃ c p, w.thread i = .running c p) ∧ (∀ i o, w.Acts i o → o.Suits w.mem) ∧
      ∃ j, w.Ready CachedOp.Does j := by
  have hr := run_startedWorld (.set (sampleSet 7)) (.get (sampleGet 7)) (.get (sampleGet 8)) sample_fits
  obtain ⟨hsuits, hready⟩ := calls_progress ⟨_, hr⟩
  refine ⟨_, fun i hi => ?_, hsuits, hready 0 (.set (sampleSet 7)) (callProgram (.set (sampleSet 7))) rfl⟩
  rcases i with _ | _ | _ | i
  · exact ⟨.set (sampleSet 7), _, rfl⟩
  · exact ⟨.get (sampleGet 7), _, rfl⟩
  · exact ⟨.get (sampleGet 8), _, rfl⟩
  · omega

/-! ### Actions at the same time -/

theorem Consistent.act_size (hl : Consistent h w priv lin) (hi : w.Acts i o) {x : o.Ans}
    (hd : o.Does w.mem x mem') : mem'.cacheSize = w.mem.cacheSize := by
  by_cases hwrites : o.WritesData
  · obtain ⟨c, k, hi⟩ := hi
    have hp := hl.place i
    rw [hi] at hp
    generalize ht : Thread.running c (Prog.op (LockOp.act o) k) = t at hp
    cases hp with
    | idle | waiting | entering | found | ending | returned => cases ht
    | checking | reading =>
      cases ht
      exact absurd hwrites id
    | @writing c p hheld hno huses hsafe =>
      cases p with
      | ret r => cases ht
      | op op k =>
        cases ht
        rw [hl.size]
        exact safely_size (hsafe.2 x mem' (.act hd)) fun _ _ hq => hq.2.1
    | @placing c a p priv' hheld hlist hno hr hg hplace huses hsafe =>
      cases p with
      | ret u => cases ht
      | op op k =>
        cases ht
        rw [hl.size]
        exact safely_size (hsafe.2 x mem' (.act hd)) fun _ _ hq => hq.1
    | @copying c e p hheld hlist he hc hs =>
      cases p with
      | ret r => cases ht
      | op op k =>
        cases ht
        cases o <;> first | exact absurd trivial hs.1 | exact absurd hwrites id
  · obtain ⟨block, hd⟩ := hd
    exact (CachedOp.run_links hwrites hd).cacheSize

/-- An action that does not touch links is answered alike after one it does not conflict with. -/
theorem CachedOp.Does.after {x : o.Ans} {y : o'.Ans} (hc : ¬ o'.Conflict o) (ho : ¬ o.TouchesLinks)
    (h' : o'.Does mem y mem') (hsize : mem'.cacheSize = mem.cacheSize) : o.Does mem x mem ↔ o.Does mem' x mem' := by
  by_cases hwrites : o'.WritesData
  · -- then the action is a look at the limit
    cases o with
    | cacheSize =>
      have hrun (priv : HyScanCachedPrivate) : (cacheSize (β := β)).Does priv x priv ↔ priv.cacheSize = x :=
        ⟨fun ⟨block, h⟩ => by simpa [CachedOp.run] using h, fun h => ⟨⟨0, fun _ => 0⟩, by rw [CachedOp.run, h]; rfl⟩⟩
      rw [hrun, hrun, hsize]
    | _ => exact absurd (.inl ⟨hwrites, trivial⟩) hc
  · obtain ⟨block', h'⟩ := h'
    have hlo := CachedOp.run_links hwrites h'
    have hrun (block : Block) : o.run block mem' = _ := CachedOp.run_congr ho hlo
    constructor
    · rintro ⟨block, h⟩
      exact ⟨block, by rw [hrun, h]; rfl⟩
    · rintro ⟨block, h⟩
      rw [hrun] at h
      cases hr : o.run block mem with
      | error f =>
        rw [hr] at h
        cases h
      | ok r =>
        obtain rfl : r.2 = mem := CachedOp.run_eq (a := r.1) ho hr
        rw [hr] at h
        cases h
        exact ⟨block, hr⟩

theorem CachedOp.Does.swap {mem₁ mem₂ : HyScanCachedPrivate} {x : o.Ans} {y : o'.Ans} (hc : ¬ o.Conflict o')
    (hsize : ∀ mem₁, o.Does mem x mem₁ → mem₁.cacheSize = mem.cacheSize)
    (hsize' : ∀ mem₁, o'.Does mem y mem₁ → mem₁.cacheSize = mem.cacheSize) (h₁ : o.Does mem x mem₁)
    (h₂ : o'.Does mem₁ y mem₂) : ∃ mem₁, o'.Does mem y mem₁ ∧ o.Does mem₁ x mem₂ := by
  by_cases ho' : o'.TouchesLinks
  · have ho : ¬ o.TouchesLinks := fun ho => hc (.inr (.inr ⟨ho, ho'⟩))
    obtain rfl : mem₁ = mem := by
      obtain ⟨block, h₁⟩ := h₁
      exact CachedOp.run_eq ho h₁
    exact ⟨mem₂, h₂, (h₂.after (fun h => hc h.symm) ho (hsize' mem₂ h₂)).1 h₁⟩
  · obtain rfl : mem₂ = mem₁ := by
      obtain ⟨block, h₂⟩ := h₂
      exact CachedOp.run_eq ho' h₂
    exact ⟨mem, (h₁.after hc ho' (hsize mem₂ h₁)).2 h₂, h₁⟩

/-- **There are no races**: actions of two threads that could take place at the same time do not conflict, and come
to the same, with the same answers, in either order. -/
theorem actions_commute (hr : ((threads β).guard Fits).Reachable w) (hne : i ≠ j) (hi : w.Acts i o)
    (hj : w.Acts j o') :
    ¬ o.Conflict o' ∧ ∀ x y mem₂, (∃ mem₁, o.Does w.mem x mem₁ ∧ o'.Does mem₁ y mem₂) ↔
      ∃ mem₁, o'.Does w.mem y mem₁ ∧ o.Does mem₁ x mem₂ := by
  obtain ⟨h, hr⟩ := hr
  obtain ⟨priv, lin, hl⟩ := Run.consistent hr
  have hc : ¬ o.Conflict o' := fun hc =>
    (Threads.orderly hr).race_free (fun held held' h h' => hc.atOdds h h') hne hi hj
  refine ⟨hc, fun x y mem₂ => ⟨?_, ?_⟩⟩
  · rintro ⟨mem₁, h₁, h₂⟩
    exact h₁.swap hc (fun _ hd => hl.act_size hi hd) (fun _ hd => hl.act_size hj hd) h₂
  · rintro ⟨mem₁, h₁, h₂⟩
    exact h₁.swap (fun hc' => hc hc'.symm) (fun _ hd => hl.act_size hj hd) (fun _ hd => hl.act_size hi hd) h₂

theorem tr_entering {c : GetCall β} (hi : w.thread i = .running (.get c) (locked dataLock .shared (getBody c)))
    (ha : w.Admits dataLock .shared) : (threads β).tr w (i, .acquire dataLock .shared)
      ((w.lock i dataLock (some .shared)).go i (.running (.get c) (leaving dataLock .shared (getBody c)))) :=
  Threads.Step.acquire hi ha

/-- Two `get`s look for their objects at the same time. -/
theorem actions_commute_sample : ∃ w : World PlainBuffer, ∃ o o' : CachedOp PlainBuffer,
    o = .getObject 7 0 ∧ o' = .getObject 8 0 ∧ w.Acts 1 o ∧ w.Acts 2 o' ∧ ¬ o.Conflict o' ∧
    ∀ x y mem₂, (∃ mem₁, o.Does w.mem x mem₁ ∧ o'.Does mem₁ y mem₂) ↔
      ∃ mem₁, o'.Does w.mem y mem₁ ∧ o.Does mem₁ x mem₂ := by
  have hr := run_startedWorld (.set (sampleSet 7)) (.get (sampleGet 7)) (.get (sampleGet 8)) sample_fits
  have hshared (w : World PlainBuffer) (i : ℕ) : Fits w (i, .acquire dataLock .shared) := fun c hc => by cases hc
  have h₁ := hr.cons ⟨hshared _ 1, tr_entering (c := sampleGet 7) rfl fun j => nofun⟩
  have h₂ := h₁.cons ⟨hshared _ 2, tr_entering (c := sampleGet 8) rfl fun j => by
    by_cases hj : j = 1
    · subst hj
      exact nofun
    · rw [Threads.go_held, Threads.lock_held_of_ne hj]
      exact nofun⟩
  exact ⟨_, _, _, rfl, rfl, ⟨.get (sampleGet 7), _, rfl⟩, ⟨.get (sampleGet 8), _, rfl⟩,
    actions_commute (i := 1) (j := 2) ⟨_, h₂⟩ (by decide) ⟨.get (sampleGet 7), _, rfl⟩ ⟨.get (sampleGet 8), _, rfl⟩⟩

end Runs

end HyScanCache.Cached
