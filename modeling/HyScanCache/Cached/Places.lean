import HyScanCache.Cached.Sections
import HyScanCache.Lib.Linearization

/-!
# Where the threads are

The invariant of the threads that call one cache.  `Place` says where a thread is and what it has left to do comes to,
`Consistent` how the memory and the calls that have taken effect fit together: a `set` takes effect when it leaves
`data_lock`, a `get` that has found an object when it leaves `list_lock`, and the others where they find out that
there is nothing to do.

* `Place.stable`: other threads leave a thread where it is, as its locks make them;
* `Consistent.go` and its cases `quiet`, `act`, `settle`, `note`: what a step of one thread has to keep;
* `Consistent.step`: every step keeps the invariant.
-/

namespace HyScanCache.Cached

open Lib Recency HyScanCachedPrivate

variable {β : Type} [HyScanBuffer β]
variable {priv priv' mem mem' : HyScanCachedPrivate} {a : Addr}

/-! ### The invariant -/

/-- A cache and the threads that call it. -/
abbrev World (β : Type) := Threads CacheLock (CachedOp β) CachedOp.Ans (Call β) (Answer β) HyScanCachedPrivate

/-- **Where the thread `i` is**, what it holds and what it has left to do.  `mem` is the memory, `priv` the cache
after the calls that have taken effect, which `lin` lists. -/
inductive Place (mem priv : HyScanCachedPrivate) (lin : List (ℕ × Event β)) (i : ℕ) (held : Held CacheLock) :
    Thread (Call β) (Answer β) (CachedProg β (Answer β)) → Prop
  | idle (hheld : held = noLocks) (hno : ∀ e, (i, e) ∉ lin) : Place mem priv lin i held .idle
  /-- A `set` has not yet looked at the limit. -/
  | checking {c : SetCall β} (hheld : held = noLocks) (hno : ∀ e, (i, e) ∉ lin) (hlt : c.payload.length < 2 ^ 32) :
      Place mem priv lin i held (.running (.set c) (setProgram c))
  /-- It waits for `data_lock`. -/
  | waiting {c : SetCall β} (hheld : held = noLocks) (hno : ∀ e, (i, e) ∉ lin) (hlt : c.payload.length < 2 ^ 32)
      (hrej : ¬ (callSize c).toUInt64 > priv.cacheSize / 10) :
      Place mem priv lin i held (.running (.set c) (locked dataLock .exclusive (setBody c)))
  /-- It holds `data_lock`: what is left leads to the end of the whole call. -/
  | writing {c : SetCall β} {p : CachedProg β (Answer β)} (hheld : held dataLock = some .exclusive)
      (hno : ∀ e, (i, e) ∉ lin) (huses : p.Uses LeavesData)
      (hsafe : p.Safely (Alone CachedOp.Does) (Suitable priv.cacheSize) (fun r mem' => r = .set true ∧
        mem'.cacheSize = priv.cacheSize ∧ ∃ block, callSet block priv c = .ok (true, mem')) mem) :
      Place mem priv lin i held (.running (.set c) (leaving dataLock .exclusive p))
  /-- A `get` waits for `data_lock`. -/
  | entering {c : GetCall β} (hheld : held = noLocks) (hno : ∀ e, (i, e) ∉ lin) (hr : ¬ c.Refused) :
      Place mem priv lin i held (.running (.get c) (locked dataLock .shared (getBody c)))
  | reading {c : GetCall β} (hheld : held dataLock = some .shared) (hlist : held listLock = none)
      (hno : ∀ e, (i, e) ∉ lin) (hr : ¬ c.Refused) :
      Place mem priv lin i held (.running (.get c) (leaving dataLock .shared (getBody c)))
  /-- It has found an object and waits for `list_lock`. -/
  | found {c : GetCall β} {a : Addr} (hheld : held dataLock = some .shared) (hlist : held listLock = none)
      (hno : ∀ e, (i, e) ∉ lin) (hr : ¬ c.Refused) (hg : getObject priv c.key c.detail = .ok (some a)) :
      Place mem priv lin i held (.running (.get c) (leaving dataLock .shared (foundBody c (some a))))
  /-- It holds `list_lock`: what is left of the move leads to its end. -/
  | placing {c : GetCall β} {a : Addr} {p : CachedProg β Unit} {priv' : HyScanCachedPrivate}
      (hheld : held dataLock = some .shared) (hlist : held listLock = some .exclusive) (hno : ∀ e, (i, e) ∉ lin)
      (hr : ¬ c.Refused) (hg : getObject priv c.key c.detail = .ok (some a))
      (hplace : placeObjectOnTopOfUsed priv (some a) = .ok priv') (huses : p.Uses fun op => ∃ o, op = .act o)
      (hsafe : p.Safely (Alone CachedOp.Does) (Suitable priv.cacheSize)
        (fun _ mem' => mem'.cacheSize = priv.cacheSize ∧ mem' = priv') mem) :
      Place mem priv lin i held (.running (.get c)
        (leaving dataLock .shared (leaving listLock .exclusive p >>= fun _ => copyBody c (some a))))
  /-- It has taken effect, and what is left returns what its effect says. -/
  | copying {c : GetCall β} {e : Event β} {p : CachedProg β (Answer β)} (hheld : held dataLock = some .shared)
      (hlist : held listLock = none) (he : (i, e) ∈ lin) (hc : callOf e = .get c) (hs : Steady priv (answerOf e) p) :
      Place mem priv lin i held (.running (.get c) (leaving dataLock .shared p))
  | ending {e : Event β} (hheld : held = noLocks) (he : (i, e) ∈ lin) :
      Place mem priv lin i held (.running (callOf e) (.ret (answerOf e)))
  | returned {e : Event β} (hheld : held = noLocks) (he : (i, e) ∈ lin) :
      Place mem priv lin i held (.returned (callOf e) (answerOf e))

/-- **The invariant** of a run with the history `h`: the calls that have taken effect, `lin`, are a linearization of
the history and lead to the cache `priv`.  The memory is that cache but for what a writer has under way, and, while
there is none, but for a move to the top. -/
structure Consistent (h : List (ℕ × Deed CacheLock (CachedOp β) CachedOp.Ans (Call β) (Answer β))) (w : World β)
    (priv : HyScanCachedPrivate) (lin : List (ℕ × Event β)) : Prop where
  run : (cached β).Run (lin.map Prod.snd) priv
  linear : Linearization callOf answerOf h lin
  calls : ∀ i c p, w.thread i = .running c p → (i, .start c) ∈ h
  place : ∀ i, Place w.mem priv lin i (w.held i) (w.thread i)
  size : w.mem.cacheSize = priv.cacheSize
  links : (∀ i, w.held i dataLock ≠ some .exclusive) → LinksOnly priv w.mem
  settled : (∀ i, w.held i dataLock ≠ some .exclusive) → (∀ i, w.held i listLock = none) → w.mem = priv

section Step

variable {h : List (ℕ × Deed CacheLock (CachedOp β) CachedOp.Ans (Call β) (Answer β))} {w w' : World β}
variable {lin lin' : List (ℕ × Event β)} {i j : ℕ} {d : Deed CacheLock (CachedOp β) CachedOp.Ans (Call β) (Answer β)}
variable {held : Held CacheLock} {t : Thread (Call β) (Answer β) (CachedProg β (Answer β))}

/-- `list_lock` is held under `data_lock` only. -/
theorem Place.data_held (hp : Place mem priv lin i held t) (hl : held listLock ≠ none) : held dataLock ≠ none := by
  cases hp with
  | idle hheld | checking hheld | waiting hheld | entering hheld | ending hheld | returned hheld =>
    rw [hheld] at hl
    exact absurd rfl hl
  | writing hheld | reading hheld | found hheld | placing hheld | copying hheld =>
    rw [hheld]
    nofun

/-- **What other threads may do** while a thread is where it is: as much as its locks let them. -/
theorem Place.stable (hp : Place mem priv lin i held t) (hlin : ∀ e, (i, e) ∈ lin' ↔ (i, e) ∈ lin)
    (hsize : priv'.cacheSize = priv.cacheSize)
    (halone : held dataLock = some .exclusive ∨ held listLock = some .exclusive → mem' = mem ∧ priv' = priv)
    (hshared : held dataLock = some .shared → LinksOnly priv priv') : Place mem' priv' lin' i held t := by
  have hnot (hno : ∀ e, (i, e) ∉ lin) (e : Event β) : (i, e) ∉ lin' := fun he => hno e ((hlin e).1 he)
  cases hp with
  | idle hheld hno => exact .idle hheld (hnot hno)
  | checking hheld hno hlt => exact .checking hheld (hnot hno) hlt
  | waiting hheld hno hlt hrej => exact .waiting hheld (hnot hno) hlt (hsize ▸ hrej)
  | writing hheld hno huses hsafe =>
    obtain ⟨rfl, rfl⟩ := halone (.inl hheld)
    exact .writing hheld (hnot hno) huses hsafe
  | entering hheld hno hr => exact .entering hheld (hnot hno) hr
  | reading hheld hlist hno hr => exact .reading hheld hlist (hnot hno) hr
  | found hheld hlist hno hr hg =>
    exact .found hheld hlist (hnot hno) hr (((hshared hheld).getObject_eq _ _).trans hg)
  | placing hheld hlist hno hr hg hplace huses hsafe =>
    obtain ⟨rfl, rfl⟩ := halone (.inr hlist)
    exact .placing hheld hlist (hnot hno) hr hg hplace huses hsafe
  | copying hheld hlist he hc hs => exact .copying hheld hlist ((hlin _).2 he) hc (hs.links (hshared hheld))
  | ending hheld he => exact .ending hheld ((hlin _).2 he)
  | returned hheld he => exact .returned hheld ((hlin _).2 he)

/-- A step of the thread `i`, for what it may do. -/
theorem Consistent.go (hl : Consistent h w priv lin)
    (hother : ∀ j, j ≠ i → w'.held j = w.held j ∧ w'.thread j = w.thread j)
    (hrun : (cached β).Run (lin'.map Prod.snd) priv') (hlin : Linearization callOf answerOf ((i, d) :: h) lin')
    (hcalls : ∀ c p, w'.thread i = .running c p → (i, .start c) ∈ (i, d) :: h)
    (hplace : Place w'.mem priv' lin' i (w'.held i) (w'.thread i))
    (hsame : ∀ j, j ≠ i → ∀ e, (j, e) ∈ lin' ↔ (j, e) ∈ lin) (hpsize : priv'.cacheSize = priv.cacheSize)
    (halone : ∀ j, j ≠ i → w.held j dataLock = some .exclusive ∨ w.held j listLock = some .exclusive →
      w'.mem = w.mem ∧ priv' = priv)
    (hshared : ∀ j, j ≠ i → w.held j dataLock = some .shared → LinksOnly priv priv')
    (hsize : w'.mem.cacheSize = priv'.cacheSize)
    (hlinks : (∀ j, w'.held j dataLock ≠ some .exclusive) → LinksOnly priv' w'.mem)
    (hsettled : (∀ j, w'.held j dataLock ≠ some .exclusive) → (∀ j, w'.held j listLock = none) → w'.mem = priv') :
    Consistent ((i, d) :: h) w' priv' lin' := by
  refine ⟨hrun, hlin, fun j c p hj => ?_, fun j => ?_, hsize, hlinks, hsettled⟩
  · by_cases hji : j = i
    · subst hji
      exact hcalls c p hj
    · rw [(hother j hji).2] at hj
      exact List.mem_cons_of_mem _ (hl.calls j c p hj)
  · by_cases hji : j = i
    · subst hji
      exact hplace
    · rw [(hother j hji).1, (hother j hji).2]
      exact (hl.place j).stable (hsame j hji) hpsize (halone j hji) (hshared j hji)

theorem Consistent.started (hl : Consistent h w priv lin) {c : Call β} {p p' : CachedProg β (Answer β)}
    (hi : w.thread i = .running c p) {w₁ : World β} (c' : Call β) (p'' : CachedProg β (Answer β))
    (hc : (w₁.go i (.running c p')).thread i = .running c' p'') : (i, .start c') ∈ (i, d) :: h := by
  rw [Threads.go_thread] at hc
  cases hc
  exact List.mem_cons_of_mem _ (hl.calls i _ _ hi)

theorem Consistent.quiet (hl : Consistent h w priv lin) (hmem : w'.mem = w.mem)
    (hother : ∀ j, j ≠ i → w'.held j = w.held j ∧ w'.thread j = w.thread j)
    (hlin : Linearization callOf answerOf ((i, d) :: h) lin)
    (hcalls : ∀ c p, w'.thread i = .running c p → (i, .start c) ∈ (i, d) :: h)
    (hplace : Place w.mem priv lin i (w'.held i) (w'.thread i))
    (hdata : w.held i dataLock = some .exclusive → w'.held i dataLock = some .exclusive)
    (hlist : w.held i listLock ≠ none → w'.held i listLock ≠ none ∨ w'.held i dataLock = some .exclusive) :
    Consistent ((i, d) :: h) w' priv lin := by
  have hwriter (hw : ∀ j, w'.held j dataLock ≠ some .exclusive) (j : ℕ) : w.held j dataLock ≠ some .exclusive := by
    by_cases hji : j = i
    · subst hji
      exact fun hj => hw j (hdata hj)
    · rw [← (hother j hji).1]
      exact hw j
  refine hl.go hother hl.run hlin hcalls (hmem ▸ hplace) (fun _ _ _ => Iff.rfl) rfl (fun _ _ _ => ⟨hmem, rfl⟩)
    (fun _ _ _ => .refl _) (hmem ▸ hl.size) (fun hw => hmem ▸ hl.links (hwriter hw)) fun hw hnone => ?_
  rw [hmem]
  refine hl.settled (hwriter hw) fun j => ?_
  by_cases hji : j = i
  · subst hji
    by_contra hj
    rcases hlist hj with hj | hj
    · exact hj (hnone j)
    · exact hw j hj
  · rw [← (hother j hji).1]
    exact hnone j

/-- The call takes effect and the memory is the cache that it leaves. -/
theorem Consistent.settle (hl : Consistent h w priv lin) {e : Event β}
    (hother : ∀ j, j ≠ i → w'.held j = w.held j ∧ w'.thread j = w.thread j) (ht : Cached.Step priv e w'.mem)
    (hlin : Linearization callOf answerOf ((i, d) :: h) ((i, e) :: lin))
    (hcalls : ∀ c p, w'.thread i = .running c p → (i, .start c) ∈ (i, d) :: h)
    (hplace : Place w'.mem w'.mem ((i, e) :: lin) i (w'.held i) (w'.thread i))
    (halone : ∀ j, j ≠ i → ¬ (w.held j dataLock = some .exclusive ∨ w.held j listLock = some .exclusive))
    (hshared : ∀ j, j ≠ i → w.held j dataLock = some .shared → LinksOnly priv w'.mem)
    (hpsize : w'.mem.cacheSize = priv.cacheSize) : Consistent ((i, d) :: h) w' w'.mem ((i, e) :: lin) :=
  hl.go hother (hl.run.cons ht) hlin hcalls hplace (fun j hj e' => by simp [hj]) hpsize
    (fun j hj hx => absurd hx (halone j hj)) hshared rfl (fun _ => .refl _) (fun _ _ => rfl)

theorem Consistent.note (hl : Consistent h w priv lin) {e : Event β} (hmem : w'.mem = w.mem)
    (hheld : w'.held = w.held) (hother : ∀ j, j ≠ i → w'.thread j = w.thread j) (ht : Cached.Step priv e priv)
    (hlin : Linearization callOf answerOf ((i, d) :: h) ((i, e) :: lin))
    (hcalls : ∀ c p, w'.thread i = .running c p → (i, .start c) ∈ (i, d) :: h)
    (hplace : Place w.mem priv ((i, e) :: lin) i (w.held i) (w'.thread i)) :
    Consistent ((i, d) :: h) w' priv ((i, e) :: lin) :=
  hl.go (fun j hj => ⟨congrFun hheld j, hother j hj⟩) (hl.run.cons ht) hlin hcalls (by rw [hmem, hheld]; exact hplace)
    (fun j hj e' => by simp [hj]) rfl (fun _ _ _ => ⟨hmem, rfl⟩) (fun _ _ _ => .refl _) (hmem ▸ hl.size)
    (by rw [hmem, hheld]; exact hl.links) (by rw [hmem, hheld]; exact hl.settled)

/-! ### Actions -/

variable {c : Call β} {o : CachedOp β} {k : o.Ans → CachedProg β (Answer β)} {x : o.Ans}

/-- While another thread holds a lock alone, an action changes nothing. -/
theorem Consistent.act_eq (hl : Consistent h w priv lin) (ho : w.Orderly CacheLock.rank CachedOp.Allowed)
    (hi : w.thread i = .running c (.op (.act o) k)) (hd : o.Does w.mem x mem') (hj : j ≠ i)
    (halone : w.held j dataLock = some .exclusive ∨ w.held j listLock = some .exclusive) : mem' = w.mem := by
  have hallowed : o.Allowed (w.held i) := (ho.running i c _ hi).1
  obtain ⟨block, hd⟩ := hd
  refine CachedOp.run_eq (fun hlinks => ?_) hd
  have hdata := hallowed.1 hlinks.data
  have hj' : w.held j dataLock ≠ none := by
    rcases halone with hj' | hj'
    · rw [hj']
      nofun
    · exact (hl.place j).data_held (by rw [hj']; nofun)
  rcases halone with hx | hx
  · exact hdata (ho.alone j i dataLock hj hx)
  · rcases hallowed.2.2 hlinks with hy | hy
    · exact hj' (ho.alone i j dataLock hj.symm hy)
    · rw [ho.alone i j listLock hj.symm hy] at hx
      cases hx

/-- **An action of a thread**, as its locks let it. -/
theorem Consistent.act (hl : Consistent h w priv lin) (ho : w.Orderly CacheLock.rank CachedOp.Allowed)
    (hi : w.thread i = .running c (.op (.act o) k)) (hd : o.Does w.mem x mem')
    (hsize : mem'.cacheSize = priv.cacheSize)
    (hplace : Place mem' priv lin i (w.held i) (.running c (k x))) :
    Consistent ((i, .act o x) :: h) ({ w with mem := mem' }.go i (.running c (k x))) priv lin := by
  have hallowed : o.Allowed (w.held i) := (ho.running i c _ hi).1
  refine hl.go (fun j hj => ⟨rfl, Threads.go_thread_of_ne hj⟩) hl.run
    (hl.linear.silent (by rintro c ⟨⟩) (by rintro r ⟨⟩)) (hl.started hi) (by rw [Threads.go_thread]; exact hplace)
    (fun _ _ _ => Iff.rfl) rfl (fun j hj halone => ⟨hl.act_eq ho hi hd hj halone, rfl⟩) (fun _ _ _ => .refl _) hsize
    (fun hw => ?_) fun hw hnone => ?_
  · -- nobody writes data
    obtain ⟨block, hd⟩ := hd
    exact (hl.links hw).trans (CachedOp.run_links (fun hwrites => hw i (hallowed.2.1 hwrites)) hd)
  · -- nobody touches links
    have hmem : mem' = w.mem := by
      obtain ⟨block, hd⟩ := hd
      refine CachedOp.run_eq (fun hlinks => ?_) hd
      rcases hallowed.2.2 hlinks with hy | hy
      · exact hw i hy
      · have hnone' : w.held i listLock = none := hnone i
        rw [hy] at hnone'
        cases hnone'
    exact hmem.trans (hl.settled hw hnone)

/-! ### The steps -/

/-- The condition on the calls: a payload has fewer than 2³² bytes. -/
def Fits (_ : World β) (x : ℕ × Deed CacheLock (CachedOp β) CachedOp.Ans (Call β) (Answer β)) : Prop :=
  ∀ c, x.2 = .start (.set c) → c.payload.length < 2 ^ 32

theorem Consistent.step_idle (hl : Consistent h w priv lin) (ht : (threads β).tr w (i, d) w')
    (hi : w.thread i = .idle) (hno : ∀ e, (i, e) ∉ lin) (hheld : w.held i = noLocks) (hfits : Fits w (i, d)) :
    ∃ priv' lin', Consistent ((i, d) :: h) w' priv' lin' := by
  obtain ⟨c, rfl, rfl⟩ := ht.of_idle hi
  have hlin := hl.linear.start (c := c) hno
  have hother (j : ℕ) (hj : j ≠ i) : (w.go i (.running c (callProgram c))).held j = w.held j ∧
      (w.go i (.running c (callProgram c))).thread j = w.thread j := ⟨rfl, Threads.go_thread_of_ne hj⟩
  have hcalls (c' : Call β) (p : CachedProg β (Answer β))
      (hc : (w.go i (.running c (callProgram c))).thread i = .running c' p) :
      (i, .start c') ∈ (i, .start c) :: h := by
    rw [Threads.go_thread] at hc
    cases hc
    exact List.mem_cons_self ..
  cases c with
  | set c =>
    refine ⟨priv, lin, hl.quiet rfl hother hlin hcalls ?_ id .inl⟩
    rw [Threads.go_thread, Threads.go_held]
    exact .checking hheld hno (hfits c rfl)
  | get c =>
    by_cases hr : c.Refused
    · have hret : callProgram (.get c) = .ret (.get false c.bufs) := if_pos hr
      refine ⟨priv, (i, .get c false false c.bufs) :: lin, hl.note rfl rfl (fun j hj => (hother j hj).2)
        (.get (get_refuse hr) (by simp [Found, hr])) (hlin.effect hno (List.mem_cons_self ..)) hcalls ?_⟩
      rw [Threads.go_thread, hret]
      exact .ending (e := .get c false false c.bufs) hheld (List.mem_cons_self ..)
    · have hprog : callProgram (.get c) = locked dataLock .shared (getBody c) := if_neg hr
      refine ⟨priv, lin, hl.quiet rfl hother hlin hcalls ?_ id .inl⟩
      rw [Threads.go_thread, Threads.go_held, hprog]
      exact .entering hheld hno hr

theorem Consistent.step_checking {c : SetCall β} (hl : Consistent h w priv lin)
    (ho : w.Orderly CacheLock.rank CachedOp.Allowed) (ht : (threads β).tr w (i, d) w')
    (hi : w.thread i = .running (.set c) (setProgram c)) (hheld : w.held i = noLocks) (hno : ∀ e, (i, e) ∉ lin)
    (hlt : c.payload.length < 2 ^ 32) : ∃ priv' lin', Consistent ((i, d) :: h) w' priv' lin' := by
  rw [setProgram_eq] at hi
  obtain ⟨x, mem', rfl, ⟨block, hd⟩, rfl⟩ := ht.of_act hi
  obtain ⟨rfl, rfl⟩ : w.mem.cacheSize = x ∧ w.mem = mem' := by simpa [CachedOp.run] using hd
  by_cases hrej : (callSize c).toUInt64 > w.mem.cacheSize / 10
  · have hcall : callSet block priv c = .ok (false, priv) := by
      rw [hl.size] at hrej
      rw [callSet, set]
      exact if_pos hrej
    rw [if_pos hrej]
    refine ⟨priv, (i, .set c false) :: lin, hl.note rfl rfl (fun j hj => Threads.go_thread_of_ne hj)
      (.set block hcall) ((hl.linear.silent (by rintro c ⟨⟩) (by rintro r ⟨⟩)).effect hno
        (List.mem_cons_of_mem _ (hl.calls i _ _ hi))) (hl.started hi) ?_⟩
    rw [Threads.go_thread]
    exact .ending (e := .set c false) hheld (List.mem_cons_self ..)
  · refine ⟨priv, lin, hl.act ho hi ⟨block, hd⟩ hl.size ?_⟩
    rw [if_neg hrej]
    exact .waiting hheld hno hlt (hl.size ▸ hrej)

theorem Consistent.step_waiting {c : SetCall β} (hl : Consistent h w priv lin) (ht : (threads β).tr w (i, d) w')
    (hi : w.thread i = .running (.set c) (locked dataLock .exclusive (setBody c))) (hheld : w.held i = noLocks)
    (hno : ∀ e, (i, e) ∉ lin) (hlt : c.payload.length < 2 ^ 32)
    (hrej : ¬ (callSize c).toUInt64 > priv.cacheSize / 10) :
    ∃ priv' lin', Consistent ((i, d) :: h) w' priv' lin' := by
  obtain ⟨rfl, hadmits, rfl⟩ := ht.of_acquire hi
  obtain ⟨s, -, hA⟩ := Run.abs hl.run
  have hmem : w.mem = priv := by
    refine hl.settled (fun j => by rw [hadmits j]; nofun) fun j => ?_
    by_contra hj
    exact (hl.place j).data_held hj (hadmits j)
  refine ⟨priv, lin, hl.quiet rfl (fun j hj => ⟨Threads.lock_held_of_ne hj, Threads.go_thread_of_ne hj⟩)
    (hl.linear.silent (by rintro c ⟨⟩) (by rintro r ⟨⟩)) (hl.started hi) ?_ (fun hx => ?_) fun hx => ?_⟩
  · rw [Threads.go_thread, Threads.go_held, Threads.lock_held, hmem]
    exact .writing (Function.update_self ..) hno (uses_setBody c) (setBody_safely hA hlt hrej)
  · rw [hheld] at hx
    cases hx
  · exact absurd (by rw [hheld]; rfl) hx

/-- It goes on, and leaves `data_lock` at the end: then the call has taken effect. -/
theorem Consistent.step_writing {c : SetCall β} {p : CachedProg β (Answer β)} (hl : Consistent h w priv lin)
    (ho : w.Orderly CacheLock.rank CachedOp.Allowed) (ht : (threads β).tr w (i, d) w')
    (hi : w.thread i = .running (.set c) (leaving dataLock .exclusive p))
    (hheld : w.held i dataLock = some .exclusive) (hno : ∀ e, (i, e) ∉ lin) (huses : p.Uses LeavesData)
    (hsafe : p.Safely (Alone CachedOp.Does) (Suitable priv.cacheSize) (fun r mem' => r = .set true ∧
      mem'.cacheSize = priv.cacheSize ∧ ∃ block, callSet block priv c = .ok (true, mem')) w.mem) :
    ∃ priv' lin', Consistent ((i, d) :: h) w' priv' lin' := by
  have hothers (j : ℕ) (hj : j ≠ i) : w.held j dataLock = none := ho.alone i j dataLock hj.symm hheld
  cases p with
  | ret r =>
    have hd : Disciplined CacheLock.rank CachedOp.Allowed noLocks (w.held i) (leaving dataLock .exclusive (.ret r)) :=
      ho.running i _ _ hi
    obtain ⟨rfl, rfl⟩ := ht.of_release hi
    obtain ⟨rfl, hsize, block, hcall⟩ := hsafe
    refine ⟨w.mem, (i, .set c true) :: lin, hl.settle
      (fun j hj => ⟨Threads.lock_held_of_ne hj, Threads.go_thread_of_ne hj⟩) (.set block hcall)
      ((hl.linear.silent (by rintro c ⟨⟩) (by rintro r ⟨⟩)).effect hno (List.mem_cons_of_mem _ (hl.calls i _ _ hi)))
      (hl.started hi) ?_ (fun j hj hx => ?_) (fun j hj hx => ?_) hsize⟩
    · rw [Threads.go_thread, Threads.go_held, Threads.lock_held]
      exact .ending (e := .set c true) hd.2 (List.mem_cons_self ..)
    · rcases hx with hx | hx
      · rw [hothers j hj] at hx
        cases hx
      · exact (hl.place j).data_held (by rw [hx]; nofun) (hothers j hj)
    · rw [hothers j hj] at hx
      cases hx
  | op op k =>
    cases op with
    | acquire l m =>
      obtain ⟨rfl, -, rfl⟩ := ht.of_acquire hi
      have hne : dataLock ≠ l := fun e => (huses.1 m).1 (by rw [e])
      have hheld' : Function.update (w.held i) l (some m) dataLock = some .exclusive := by
        rw [Function.update_of_ne hne, hheld]
      refine ⟨priv, lin, hl.quiet rfl (fun j hj => ⟨Threads.lock_held_of_ne hj, Threads.go_thread_of_ne hj⟩)
        (hl.linear.silent (by rintro c ⟨⟩) (by rintro r ⟨⟩)) (hl.started hi) ?_ (fun _ => ?_) fun _ => .inr ?_⟩
      · rw [Threads.go_thread, Threads.go_held, Threads.lock_held]
        exact .writing hheld' hno (huses.2 ()) (hsafe.2 () _ .acquire)
      · rw [Threads.go_held, Threads.lock_held, hheld']
      · rw [Threads.go_held, Threads.lock_held, hheld']
    | release l m =>
      obtain ⟨rfl, rfl⟩ := ht.of_release hi
      have hne : dataLock ≠ l := fun e => (huses.1 m).2 (by rw [e])
      have hheld' : Function.update (w.held i) l none dataLock = some .exclusive := by
        rw [Function.update_of_ne hne, hheld]
      refine ⟨priv, lin, hl.quiet rfl (fun j hj => ⟨Threads.lock_held_of_ne hj, Threads.go_thread_of_ne hj⟩)
        (hl.linear.silent (by rintro c ⟨⟩) (by rintro r ⟨⟩)) (hl.started hi) ?_ (fun _ => ?_) fun _ => .inr ?_⟩
      · rw [Threads.go_thread, Threads.go_held, Threads.lock_held]
        exact .writing hheld' hno (huses.2 ()) (hsafe.2 () _ .release)
      · rw [Threads.go_held, Threads.lock_held, hheld']
      · rw [Threads.go_held, Threads.lock_held, hheld']
    | act o =>
      obtain ⟨x, mem', rfl, hd, rfl⟩ := ht.of_act hi
      have hsafe' := hsafe.2 x mem' (.act hd)
      exact ⟨priv, lin, hl.act ho hi hd (safely_size hsafe' fun _ _ hq => hq.2.1)
        (.writing hheld hno (huses.2 x) hsafe')⟩

theorem Consistent.step_entering {c : GetCall β} (hl : Consistent h w priv lin) (ht : (threads β).tr w (i, d) w')
    (hi : w.thread i = .running (.get c) (locked dataLock .shared (getBody c))) (hheld : w.held i = noLocks)
    (hno : ∀ e, (i, e) ∉ lin) (hr : ¬ c.Refused) : ∃ priv' lin', Consistent ((i, d) :: h) w' priv' lin' := by
  obtain ⟨rfl, -, rfl⟩ := ht.of_acquire hi
  refine ⟨priv, lin, hl.quiet rfl (fun j hj => ⟨Threads.lock_held_of_ne hj, Threads.go_thread_of_ne hj⟩)
    (hl.linear.silent (by rintro c ⟨⟩) (by rintro r ⟨⟩)) (hl.started hi) ?_ (fun hx => ?_) fun hx => ?_⟩
  · rw [Threads.go_thread, Threads.go_held, Threads.lock_held, hheld]
    exact .reading rfl rfl hno hr
  · rw [hheld] at hx
    cases hx
  · exact absurd (by rw [hheld]; rfl) hx

/-- While a thread reads, links only are changed. -/
theorem Consistent.links_of_shared (hl : Consistent h w priv lin) (ho : w.Orderly CacheLock.rank CachedOp.Allowed)
    (hheld : w.held i dataLock = some .shared) : LinksOnly priv w.mem := by
  refine hl.links fun j hj => ?_
  by_cases hji : j = i
  · subst hji
    rw [hheld] at hj
    cases hj
  · rw [ho.alone j i dataLock hji hj] at hheld
    cases hheld

theorem Consistent.step_reading {c : GetCall β} (hl : Consistent h w priv lin)
    (ho : w.Orderly CacheLock.rank CachedOp.Allowed) (ht : (threads β).tr w (i, d) w')
    (hi : w.thread i = .running (.get c) (leaving dataLock .shared (getBody c)))
    (hheld : w.held i dataLock = some .shared) (hlist : w.held i listLock = none) (hno : ∀ e, (i, e) ∉ lin)
    (hr : ¬ c.Refused) : ∃ priv' lin', Consistent ((i, d) :: h) w' priv' lin' := by
  rw [getBody_eq] at hi
  obtain ⟨x, mem', rfl, ⟨block, hd⟩, rfl⟩ := ht.of_act hi
  obtain rfl : mem' = w.mem := CachedOp.run_eq id hd
  have hg : getObject priv c.key c.detail = .ok x := by
    rw [← (hl.links_of_shared ho hheld).getObject_eq]
    obtain ⟨object, hobject, he⟩ := Exec.bind_eq_ok.1 hd
    cases he
    exact hobject
  cases x with
  | none =>
    refine ⟨priv, (i, .get c false false c.bufs) :: lin, hl.note rfl rfl (fun j hj => Threads.go_thread_of_ne hj)
      (.get (get_miss hr hg) (by simp [Found, hg])) ((hl.linear.silent (by rintro c ⟨⟩) (by rintro r ⟨⟩)).effect hno
        (List.mem_cons_of_mem _ (hl.calls i _ _ hi))) (hl.started hi) ?_⟩
    rw [Threads.go_thread]
    exact .copying (e := .get c false false c.bufs) (p := .ret (.get false c.bufs)) hheld hlist
      (List.mem_cons_self ..) rfl rfl
  | some a => exact ⟨priv, lin, hl.act ho hi ⟨block, hd⟩ hl.size (.found hheld hlist hno hr hg)⟩

/-- It takes `list_lock`: nobody moves an object, and the memory is the cache. -/
theorem Consistent.step_found {c : GetCall β} (hl : Consistent h w priv lin)
    (ho : w.Orderly CacheLock.rank CachedOp.Allowed) (ht : (threads β).tr w (i, d) w')
    (hi : w.thread i = .running (.get c) (leaving dataLock .shared (foundBody c (some a))))
    (hheld : w.held i dataLock = some .shared) (hno : ∀ e, (i, e) ∉ lin)
    (hr : ¬ c.Refused) (hg : getObject priv c.key c.detail = .ok (some a)) :
    ∃ priv' lin', Consistent ((i, d) :: h) w' priv' lin' := by
  obtain ⟨rfl, hadmits, rfl⟩ := ht.of_acquire hi
  obtain ⟨s, -, hA⟩ := Run.abs hl.run
  obtain ⟨priv', -, -, hplace, -⟩ := found_takesEffect hA hr hg
  have hmem : w.mem = priv := by
    refine hl.settled (fun j hj => ?_) hadmits
    by_cases hji : j = i
    · subst hji
      rw [hheld] at hj
      cases hj
    · rw [ho.alone j i dataLock hji hj] at hheld
      cases hheld
  have hheld' : Function.update (w.held i) listLock (some .exclusive) dataLock = some .shared := hheld
  refine ⟨priv, lin, hl.quiet rfl (fun j hj => ⟨Threads.lock_held_of_ne hj, Threads.go_thread_of_ne hj⟩)
    (hl.linear.silent (by rintro c ⟨⟩) (by rintro r ⟨⟩)) (hl.started hi) ?_ (fun hx => ?_) fun hx => ?_⟩
  · rw [Threads.go_thread, Threads.go_held, Threads.lock_held, hmem]
    exact .placing (p := placeBody (some a)) hheld' (Function.update_self ..) hno hr hg hplace
      ⟨⟨_, rfl⟩, fun _ => ⟨⟨_, rfl⟩, fun _ => trivial⟩⟩ (placeBody_safely hplace rfl)
  · rw [hheld] at hx
    cases hx
  · exact absurd (hadmits i) hx

/-- It moves the object, and leaves `list_lock` at the end: then the call has taken effect. -/
theorem Consistent.step_placing {c : GetCall β} {p : CachedProg β Unit} (hl : Consistent h w priv lin)
    (ho : w.Orderly CacheLock.rank CachedOp.Allowed) (ht : (threads β).tr w (i, d) w')
    (hi : w.thread i = .running (.get c)
      (leaving dataLock .shared (leaving listLock .exclusive p >>= fun _ => copyBody c (some a))))
    (hheld : w.held i dataLock = some .shared) (hlist : w.held i listLock = some .exclusive) (hno : ∀ e, (i, e) ∉ lin)
    (hr : ¬ c.Refused) (hg : getObject priv c.key c.detail = .ok (some a))
    (hplace : placeObjectOnTopOfUsed priv (some a) = .ok priv') (huses : p.Uses fun op => ∃ o, op = .act o)
    (hsafe : p.Safely (Alone CachedOp.Does) (Suitable priv.cacheSize)
      (fun _ mem' => mem'.cacheSize = priv.cacheSize ∧ mem' = priv') w.mem) :
    ∃ priv' lin', Consistent ((i, d) :: h) w' priv' lin' := by
  cases p with
  | ret u =>
    obtain ⟨rfl, rfl⟩ := ht.of_release hi
    obtain ⟨hsize, rfl⟩ := hsafe
    obtain ⟨s, -, hA⟩ := Run.abs hl.run
    obtain ⟨priv₁, status, bufs, hplace₁, hstep, hlo, hsteady⟩ := found_takesEffect hA hr hg
    obtain rfl : w.mem = priv₁ := Except.ok.inj (hplace.symm.trans hplace₁)
    have hheld' : Function.update (w.held i) listLock none dataLock = some .shared := hheld
    refine ⟨w.mem, (i, .get c true status bufs) :: lin, hl.settle
      (fun j hj => ⟨Threads.lock_held_of_ne hj, Threads.go_thread_of_ne hj⟩) hstep
      ((hl.linear.silent (by rintro c ⟨⟩) (by rintro r ⟨⟩)).effect hno (List.mem_cons_of_mem _ (hl.calls i _ _ hi)))
      (hl.started hi) ?_ (fun j hj hx => ?_) (fun _ _ _ => hlo) hsize⟩
    · rw [Threads.go_thread, Threads.go_held, Threads.lock_held]
      exact .copying (e := .get c true status bufs) (p := copyBody c (some a)) hheld' (Function.update_self ..)
        (List.mem_cons_self ..) rfl hsteady
    · rcases hx with hx | hx
      · rw [ho.alone j i dataLock hj hx] at hheld
        cases hheld
      · rw [ho.alone j i listLock hj hx] at hlist
        cases hlist
  | op op k =>
    obtain ⟨⟨o, rfl⟩, huses⟩ := huses
    obtain ⟨x, mem', rfl, hd, rfl⟩ := ht.of_act hi
    have hsafe' := hsafe.2 x mem' (.act hd)
    exact ⟨priv, lin, hl.act ho hi hd (safely_size hsafe' fun _ _ hq => hq.1)
      (.placing (p := k x) hheld hlist hno hr hg hplace (huses x) hsafe')⟩

/-- It copies, and leaves `data_lock` at the end. -/
theorem Consistent.step_copying {c : GetCall β} {e : Event β} {p : CachedProg β (Answer β)}
    (hl : Consistent h w priv lin) (ho : w.Orderly CacheLock.rank CachedOp.Allowed) (ht : (threads β).tr w (i, d) w')
    (hi : w.thread i = .running (.get c) (leaving dataLock .shared p)) (hheld : w.held i dataLock = some .shared)
    (hlist : w.held i listLock = none) (he : (i, e) ∈ lin) (hc : callOf e = .get c)
    (hs : Steady priv (answerOf e) p) : ∃ priv' lin', Consistent ((i, d) :: h) w' priv' lin' := by
  cases p with
  | ret r =>
    have hd : Disciplined CacheLock.rank CachedOp.Allowed noLocks (w.held i) (leaving dataLock .shared (.ret r)) :=
      ho.running i _ _ hi
    obtain ⟨rfl, rfl⟩ := ht.of_release hi
    obtain rfl : r = answerOf e := hs
    refine ⟨priv, lin, hl.quiet rfl (fun j hj => ⟨Threads.lock_held_of_ne hj, Threads.go_thread_of_ne hj⟩)
      (hl.linear.silent (by rintro c ⟨⟩) (by rintro r ⟨⟩)) (hl.started hi) ?_ (fun hx => ?_) fun hx => ?_⟩
    · rw [Threads.go_thread, Threads.go_held, Threads.lock_held, ← hc]
      exact .ending hd.2 he
    · rw [hheld] at hx
      cases hx
    · exact absurd hlist hx
  | op op k =>
    cases op with
    | acquire l m => exact absurd hs id
    | release l m => exact absurd hs id
    | act o =>
      obtain ⟨x, mem', rfl, ⟨block, hd⟩, rfl⟩ := ht.of_act hi
      obtain ⟨hlinks, y, hy, hs⟩ := hs
      obtain rfl : mem' = w.mem := CachedOp.run_eq hlinks hd
      have hx : o.run block w.mem = .ok (y, w.mem) := by
        rw [CachedOp.run_congr hlinks (hl.links_of_shared ho hheld), hy block]
        rfl
      obtain rfl : x = y := by simpa using hd.symm.trans hx
      exact ⟨priv, lin, hl.act ho hi ⟨block, hd⟩ hl.size (.copying hheld hlist he hc hs)⟩

theorem Consistent.step_ending {e : Event β} (hl : Consistent h w priv lin) (ht : (threads β).tr w (i, d) w')
    (hi : w.thread i = .running (callOf e) (.ret (answerOf e))) (hheld : w.held i = noLocks) (he : (i, e) ∈ lin) :
    ∃ priv' lin', Consistent ((i, d) :: h) w' priv' lin' := by
  obtain ⟨rfl, rfl⟩ := ht.of_ret hi
  refine ⟨priv, lin, hl.quiet rfl (fun j hj => ⟨rfl, Threads.go_thread_of_ne hj⟩) (hl.linear.finish he)
    (fun c' p hc => ?_) ?_ id .inl⟩
  · rw [Threads.go_thread] at hc
    cases hc
  · rw [Threads.go_thread, Threads.go_held]
    exact .returned hheld he

/-- **Every step keeps the invariant.** -/
theorem Consistent.step (hl : Consistent h w priv lin) (ho : w.Orderly CacheLock.rank CachedOp.Allowed)
    (ht : (threads β).tr w (i, d) w') (hfits : Fits w (i, d)) :
    ∃ priv' lin', Consistent ((i, d) :: h) w' priv' lin' := by
  have hp := hl.place i
  generalize hi : w.thread i = t at hp
  cases hp with
  | idle hheld hno => exact hl.step_idle ht hi hno hheld hfits
  | checking hheld hno hlt => exact hl.step_checking ho ht hi hheld hno hlt
  | waiting hheld hno hlt hrej => exact hl.step_waiting ht hi hheld hno hlt hrej
  | writing hheld hno huses hsafe => exact hl.step_writing ho ht hi hheld hno huses hsafe
  | entering hheld hno hr => exact hl.step_entering ht hi hheld hno hr
  | reading hheld hlist hno hr => exact hl.step_reading ho ht hi hheld hlist hno hr
  | found hheld hlist hno hr hg => exact hl.step_found ho ht hi hheld hno hr hg
  | placing hheld hlist hno hr hg hplace huses hsafe =>
    exact hl.step_placing ho ht hi hheld hlist hno hr hg hplace huses hsafe
  | copying hheld hlist he hc hs => exact hl.step_copying ho ht hi hheld hlist he hc hs
  | ending hheld he => exact hl.step_ending ht hi hheld he
  | returned hheld he => exact absurd (ht.of_returned hi) id

end Step

end HyScanCache.Cached
