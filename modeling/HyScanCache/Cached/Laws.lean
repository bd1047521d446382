import HyScanCache.Cached.Invariants
import HyScanCache.History

/-!
# Laws of whole runs

The laws of the service, read off the objects of the cache.

* `read_last_write`: a `get` that returns `TRUE` delivers the payload of the last accepted `set` of the key;
* `recency_order`: the list is sorted by the last touches;
* `retention`: an object is kept while the payloads stored fit beside it and what was touched after it.
-/

namespace HyScanCache.Cached

open Lib Recency HyScanCachedPrivate

variable {β : Type} [HyScanBuffer β]
variable {priv priv' : HyScanCachedPrivate} {h : List (Event β)} {s : Store} {l : List Cell} {o : ObjectInfo}

/-! ### Reading what was written -/

/-- **Read your last write.**  If a `get` of a run returns `TRUE`, its buffers hold the payload of the newest
accepted `set` of its key, split at `size1`; that payload is not empty, so the key was not deleted since, and
its detail is the one asked for. -/
theorem read_last_write {c : GetCall β} {found : Bool} {bufs : Buffers β} {b1 : ℕ}
    (hr : (cached β).Run (.get c found true bufs :: h) priv) (h1 : c.buffer1 = some b1) (h2 : c.buffer2 ≠ some b1) :
    ∃ newer older w, h = newer ++ .set w true :: older ∧ w.key = c.key ∧ w.payload ≠ [] ∧
      (∀ ev ∈ newer, ev.sets c.key = false) ∧ (c.detail = 0 ∨ c.detail = w.detail) ∧
      bytes (bufs b1) = w.payload.take (min c.size1.toNat w.payload.length) ∧
      ∀ b2, c.buffer2 = some b2 → bytes (bufs b2) = w.payload.drop (min c.size1.toNat w.payload.length) := by
  obtain ⟨s, hrs, -⟩ := Run.abs hr
  obtain ⟨s₁, s₂, hr₁, ht, -⟩ := Lts.Run.split (show (service β).Run ([] ++ _ :: h) s from hrs)
  cases ht with
  | @hit _ e hcr hf hd _ _ hdel =>
    obtain ⟨w, hfind, hwd, hwp⟩ := run_written hr₁ (mem_of_find hf)
    obtain ⟨hsets, newer, older, rfl, hnewer⟩ := List.find?_eq_some_iff_append.1 hfind
    have hek : e.key = c.key := key_of_find hf
    rw [h1] at hdel
    have hlt : e.bytes.length < 2 ^ 32 := lt_of_le_of_lt e.fits e.lt
    obtain ⟨hb1, hb2⟩ := deliver_true hlt h2 hdel
    refine ⟨newer, older, w, rfl, ?_, ?_, ?_, ?_, ?_, ?_⟩
    · rw [← hek]
      simpa [Event.sets] using hsets
    · rw [hwp]
      exact List.ne_nil_of_length_pos e.pos
    · intro ev hev
      simpa [hek] using hnewer ev hev
    · rw [hwd]
      exact hd.imp_right Eq.symm
    · rw [hb1, hwp, ← List.take_eq_take_min]
    · intro b2 he
      rw [hb2 b2 he, hwp, List.drop_eq_drop_min]

/-- The law on a run: two payloads are stored, and the first one is read back in two parts. -/
theorem read_last_write_sample : ∃ bufs priv, (cached PlainBuffer).Run
    [.get (sampleGet 7) true true bufs, .set (sampleSet 8) true, .set (sampleSet 7) true] priv ∧
    bytes (bufs 0) = [7, 2] ∧ bytes (bufs 1) = [3] := by
  obtain ⟨priv₁, priv₂, bufs, priv, h₁, h₂, h₃, hf⟩ := sample_calls
  have hr := sample_run h₁ h₂ h₃ hf
  obtain ⟨newer, older, w, hh, hk, -, -, -, hb0, hb1⟩ := read_last_write hr rfl (by decide)
  obtain rfl : w = sampleSet 7 := by
    rcases newer with _ | ⟨ev, _ | ⟨ev', newer⟩⟩
    · injection hh with hw
      injection hw with hw
      rw [← hw] at hk
      exact absurd hk (by decide)
    · injection hh with _ hh
      injection hh with hw
      injection hw with hw
      exact hw.symm
    · simp at hh
  exact ⟨bufs, priv, hr, hb0, hb1 1 rfl⟩

/-! ### The order of use -/

theorem Carries.keys {os : List ObjectInfo} (hc : Carries priv os l) (hs : s.entries = l.map Prod.snd) :
    os.map ObjectInfo.hash = s.entries.map Entry.key := by
  rw [hs, List.map_map]
  exact hc.map_eq fun o x _ hh => hh.hash

/-- **The list is in the order of use.**  The objects read off the list are those of the table, sorted by
strictly decreasing time of the last touch of their keys.  A call leaves the keys, but for the one it touches,
in the order they were in. -/
theorem recency_order (hr : (cached β).Run h priv) :
    (∃ os, Reads priv os ∧ os.Perm (storedObjects priv) ∧ (∀ o ∈ os, 0 < lastTouch o.hash h) ∧
      os.Pairwise fun o o' => lastTouch o'.hash h < lastTouch o.hash h) ∧
    ∀ (ev : Event β) priv' os os', Step priv ev priv' → Reads priv os → Reads priv' os' →
      ((os'.map ObjectInfo.hash).filter fun k => ev.touched ≠ some k).Sublist (os.map ObjectInfo.hash) := by
  obtain ⟨s, hrs, hA⟩ := Run.abs hr
  obtain ⟨l, hl, hs, hlim⟩ := id hA
  obtain ⟨os, hreads, hc⟩ := hl.reads
  have hkeys := hc.keys hs
  have hrec := run_recent hrs
  constructor
  · refine ⟨os, hreads, hl.reads_perm hc, ?_, ?_⟩
    · intro o ho
      obtain ⟨e, he, hek⟩ := List.mem_map.1 (hkeys ▸ List.mem_map_of_mem ho)
      rw [← hek]
      exact hrec.touched e he
    · have h1 : (os.map ObjectInfo.hash).Pairwise fun k k' => lastTouch k' h < lastTouch k h := by
        rw [hkeys]
        exact List.pairwise_map.2 hrec.sorted
      exact List.pairwise_map.1 h1
  · intro ev priv' os₁ os' ht hreads₁ hreads'
    obtain rfl := hreads.unique hreads₁
    obtain ⟨s', hstep, l', hl', hs', -⟩ := step_abs hA ht
    obtain ⟨os₂, hreads₂, hc'⟩ := hl'.reads
    obtain rfl := hreads₂.unique hreads'
    rw [hkeys, hc'.keys hs']
    rcases hstep.shape with ⟨x, rest, he, hx, hsub, hne⟩ | ⟨hsub, -⟩
    · rw [he, List.map_cons, List.filter_cons_of_neg (by simp [hx])]
      exact List.filter_sublist.trans (hsub.map _)
    · exact List.filter_sublist.trans (hsub.map _)

/-- The law on that run: the payload that was read back is on top. -/
theorem recency_order_sample : ∃ bufs priv, (cached PlainBuffer).Run (sampleHistory bufs) priv ∧
    ∃ os, Reads priv os ∧ os.map ObjectInfo.hash = [7, 8] ∧
      os.Pairwise fun o o' => lastTouch o'.hash (sampleHistory bufs) < lastTouch o.hash (sampleHistory bufs) := by
  obtain ⟨priv₁, priv₂, bufs, priv, h₁, h₂, h₃, hf⟩ := sample_calls
  have hr := sample_run h₁ h₂ h₃ hf
  obtain ⟨⟨os, hreads, -, -, hsorted⟩, -⟩ := recency_order hr
  refine ⟨bufs, priv, hr, os, hreads, ?_, hsorted⟩
  obtain ⟨os', hreads', hkeys⟩ : ∃ os, Reads priv os ∧ os.map ObjectInfo.hash = [7, 8] := by
    cases h₁
    cases h₂
    cases h₃
    exact ⟨[_, _], ⟨[0, 1], ⟨rfl, _, rfl, rfl, _, rfl, rfl⟩, rfl⟩, rfl⟩
  rw [hreads.unique hreads', hkeys]

/-! ### What is kept -/

/-- The event leaves room for the object of the key `k`: it is no accepted `set` of `k`, and a payload it stores
fits beside that object and those whose last touch is later. -/
def KeepsRoom (k : UInt64) (x : List (Event β) × HyScanCachedPrivate) : Event β → Prop
  | .set c true => c.key ≠ k ∧ (c.payload ≠ [] → ∀ o ∈ storedObjects x.2, o.hash = k →
      objectFootprint o +
        total objectFootprint ((storedObjects x.2).filter fun o' => lastTouch k x.1 < lastTouch o'.hash x.1) +
        OBJECT_HEADER_SIZE.toNat + c.payload.length ≤ x.2.cacheSize.toNat)
  | _ => True

theorem KeepsRoom.leavesRoom (hA : Abs priv s) {e : Entry} (he : e ∈ s.entries) {ev : Event β}
    (hk : KeepsRoom e.key (h, priv) ev) : LeavesRoom e h s ev := by
  rcases ev with ⟨c, _ | _⟩ | _
  · trivial
  · refine ⟨hk.1, ?_⟩
    intro hne
    obtain ⟨o, ho, hh⟩ := hA.exists_object he
    have hroom := hk.2 hne o ho hh.hash
    rw [hA.total_filter fun k => lastTouch e.key h < lastTouch k h, objectFootprint, hh.allocated] at hroom
    obtain ⟨-, -, -, hlim⟩ := hA
    rw [hlim] at hroom
    exact hroom
  · trivial

/-- **Retention.**  From a reachable state that stores an object of the key `k`, through any calls that leave
room for it, `k` stays stored with the same detail and the same bytes. -/
theorem retention {h₀ h₁ : List (Event β)} {priv₀ priv₁ : HyScanCachedPrivate}
    (hr : (cached β).recorded.Reachable (h₀, priv₀)) (ho : o ∈ storedObjects priv₀)
    (hs : ((cached β).recorded.guard (KeepsRoom o.hash)).Steps (h₀, priv₀) h (h₁, priv₁)) :
    ∃ o' ∈ storedObjects priv₁, o'.hash = o.hash ∧ o'.detail = o.detail ∧ objectBytes o' = objectBytes o := by
  obtain ⟨s₀, hrs₀, hA₀⟩ := Run.abs hr.of_recorded
  obtain ⟨e, he, hh⟩ := hA₀.exists_entry ho
  -- the entry stays in the list
  let P : List (Event β) × HyScanCachedPrivate → Prop :=
    fun x => ∃ s, (service β).Run x.1 s ∧ Abs x.2 s ∧ e ∈ s.entries
  have hkept : P (h₁, priv₁) := by
    refine hs.inv (P := P) ⟨s₀, hrs₀, hA₀, he⟩ ?_
    rintro - ⟨h, priv⟩ ev ⟨h', priv'⟩ - ⟨s, hrs, hA, hm⟩ ⟨hroom, hh', ht⟩
    obtain rfl : h' = ev :: h := hh'
    obtain ⟨s', hstep, hA'⟩ := step_abs hA ht
    rw [hh.hash] at hroom
    exact ⟨s', hrs.cons hstep, hA', hstep.mem_of_leavesRoom (run_recent hrs) hm (hroom.leavesRoom hA hm)⟩
  obtain ⟨s₁, -, hA₁, hm⟩ := hkept
  obtain ⟨o', ho', hh'⟩ := hA₁.exists_object hm
  refine ⟨o', ho', hh'.hash.trans hh.hash.symm, hh'.detail.trans hh.detail.symm, ?_⟩
  rw [objectBytes, objectBytes, hh.size, hh'.size, hh.take, hh'.take]

/-- An object is kept while another one is stored beside it. -/
theorem retention_sample : ∃ priv₀ priv₁ h, ∃ o ∈ storedObjects priv₀,
    (cached PlainBuffer).Steps priv₀ h priv₁ ∧ h.length = 1 ∧
    ∃ o' ∈ storedObjects priv₁, o'.hash = 7 ∧ objectBytes o' = [7, 2, 3] := by
  obtain ⟨priv₀, priv₁, h₀, h₁⟩ := sample_sets
  have hr := (Lts.Run.nil init_new).cons (Step.set _ h₀)
  have ht : Step priv₀ (.set (sampleSet 8) true) priv₁ := Step.set _ h₁
  obtain ⟨o, ho, hkey, hbytes, hroom⟩ : ∃ o ∈ storedObjects priv₀, o.hash = 7 ∧ objectBytes o = [7, 2, 3] ∧
      KeepsRoom o.hash ([.set (sampleSet 7) true], priv₀) (.set (sampleSet 8) true) := by
    cases h₀
    exact ⟨_, List.mem_cons_self, by decide, by decide, by decide, fun _ => by decide⟩
  obtain ⟨o', ho', hk', -, hb'⟩ := retention hr.recorded ho (Lts.Steps.nil.cons ⟨hroom, rfl, ht⟩)
  exact ⟨priv₀, priv₁, _, o, ho, Lts.Steps.nil.cons ht, rfl, o', ho', hk'.trans hkey, hb'.trans hbytes⟩

end HyScanCache.Cached
