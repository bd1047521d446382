import HyScanCache.Cached.Invariants
import HyScanCache.History

/-!
# The memory limit

`hyscan_cached_free_used` takes its request as a 32-bit value, while what is about to be stored needs the
header besides the payload.  As long as that sum fits in 32 bits whenever the loop is needed, the memory in use
stays within the limit (`used_le_cacheSize`).  A payload of 2³² − 40 bytes makes the request zero: a cache of
40960 MiB takes eleven of them where ten fill it (`limit_exceeded`).
-/

namespace HyScanCache

open Lib Recency

variable {s s' : Store} {k detail : UInt64} {p : Payload}

/-! ### The contents -/

namespace Store

theorem used_makeRoom_add_le (hle : p.bytes.length ≤ s.limit / 10)
    (hfit : s.limit < s.used + headerSize + p.bytes.length → headerSize + p.bytes.length < 2 ^ 32) :
    (s.makeRoom p).used + headerSize + p.bytes.length ≤ s.limit := by
  have hge := s.limit_ge
  have hhead : headerSize = 40 := rfl
  unfold makeRoom
  split
  · next hover =>
    have h1 := s.used_evict_le ((headerSize + p.bytes.length) % 2 ^ 32)
    rw [Nat.mod_eq_of_lt (hfit hover)] at h1 ⊢
    omega
  · omega

theorem used_set_le : (s.set k detail p).used ≤ (s.makeRoom p).used + headerSize + p.bytes.length := by
  have h1 := (s.makeRoom p).total_promote (Entry.next ((s.makeRoom p).find k) k detail p)
  have h2 := Entry.footprint_next_le ((s.makeRoom p).find k) k detail p
  rw [key_next] at h1
  rw [used, entries_set]
  omega

/-- A request cut to zero makes no room in a cache that is within its limit. -/
theorem makeRoom_of_request_eq_zero (hu : s.used ≤ s.limit) (h0 : (headerSize + p.bytes.length) % 2 ^ 32 = 0) :
    s.makeRoom p = s := by
  unfold makeRoom
  split
  · ext1
    · rfl
    · rw [entries_evict, h0]
      exact keepFit_eq_self hu
  · rfl

end Store

namespace Cached

open HyScanCachedPrivate

variable {β : Type} [HyScanBuffer β] {priv : HyScanCachedPrivate}

/-! ### Runs within the limit -/

/-- If the loop of `hyscan_cached_free_used` is needed for a payload that is not too large, its request fits in
32 bits. -/
def RequestFits (priv : HyScanCachedPrivate) : Event β → Prop
  | .set c _ => c.size ≤ priv.cacheSize.toNat / 10 →
      priv.cacheSize.toNat < priv.usedSize.toNat + OBJECT_HEADER_SIZE.toNat + c.size →
      OBJECT_HEADER_SIZE.toNat + c.size < 2 ^ 32
  | .get .. => True

theorem used_le_of_step (hA : Abs priv s) {ev : Event β} (hu : s.used ≤ s.limit) (hfit : RequestFits priv ev)
    (ht : s.Step ev s') : s'.used ≤ s'.limit := by
  cases ht with
  | reject h => exact hu
  | delete h => exact (total_le_of_sublist _ erase_sublist).trans hu
  | @put c p hp hle =>
    have hsize : c.size = p.bytes.length := by
      rw [SetCall.size, ← hp]
      exact Nat.mod_eq_of_lt p.lt
    rw [Store.limit_set]
    refine Store.used_set_le.trans (Store.used_makeRoom_add_le hle fun hover => ?_)
    rw [RequestFits, hA.usedSize_eq, hA.cacheSize_eq, hsize] at hfit
    exact hfit hle hover
  | refuse h => exact hu
  | miss hr h => exact hu
  | @hit c e hr hf hd status bufs h =>
    rw [Store.limit_touch, Store.used, Store.entries_touch s c.key e hf]
    have := s.total_promote_le e (by rw [key_of_find hf]; exact hf)
    omega

/-- **The limit is kept** in every state of a run whose requests fit. -/
theorem used_le_cacheSize (hr : ((cached β).guard RequestFits).Reachable priv) :
    priv.usedSize ≤ priv.cacheSize := by
  have hinv : ∃ s, Abs priv s ∧ s.used ≤ s.limit := by
    refine Lts.Reachable.inv (P := fun priv => ∃ s, Abs priv s ∧ s.used ≤ s.limit) ?_ ?_ hr
    · rintro priv ⟨cacheSize, h1, h2, rfl⟩
      obtain ⟨s, he, -, hA⟩ := abs_new h1 h2
      exact ⟨s, hA, by simp [Store.used, he]⟩
    · rintro priv ev priv' - ⟨s, hA, hu⟩ ⟨hfit, ht⟩
      obtain ⟨s', hstep, hA'⟩ := step_abs hA ht
      exact ⟨s', hA', used_le_of_step hA hu hfit hstep⟩
  obtain ⟨s, hA, hu⟩ := hinv
  rw [UInt64.le_iff_toNat_le, hA.usedSize_eq, hA.cacheSize_eq]
  exact hu

theorem requestFits_large (priv : HyScanCachedPrivate) (key : UInt64) :
    RequestFits priv (.set (largeSet key) true) := by
  intro _ _
  rw [size_largeSet]
  decide

/-- A tenth large payload is stored in a cache that has room for nine: room is made for it. -/
theorem used_le_cacheSize_sample : ∃ priv block priv', ((cached PlainBuffer).guard RequestFits).Run largeRun priv ∧
    callSet block priv (largeSet 9) = .ok (true, priv') ∧
    priv.cacheSize.toNat < priv.usedSize.toNat + OBJECT_HEADER_SIZE.toNat + (largeSet 9).size ∧
    priv'.usedSize ≤ priv'.cacheSize := by
  have hhead : OBJECT_HEADER_SIZE.toNat = 40 := rfl
  obtain ⟨priv, s, hrun, hA, hlim, -, hused⟩ := exists_largeRun
  have hr : ((cached PlainBuffer).guard RequestFits).Run largeRun priv := by
    refine hrun.guard_of_mem fun e he priv => ?_
    obtain ⟨key, rfl⟩ := mem_sizedRun he
    exact requestFits_large priv key
  obtain ⟨priv', ht, -⟩ := hA.exists_put (bytes_largePayload 9) (by rw [length_largePayload, hlim])
  cases ht with
  | set block hset =>
    have hr' := hr.cons ⟨requestFits_large priv 9, .set block hset⟩
    refine ⟨priv, block, priv', hr, hset, ?_, used_le_cacheSize ⟨_, hr'⟩⟩
    rw [hA.cacheSize_eq, hA.usedSize_eq, hlim, hused, size_largeSet]
    omega

/-! ### A run beyond the limit -/

/-- **The limit is exceeded**: eleven payloads of 2³² − 40 bytes, each under a key of its own, in a fresh cache of
40960 MiB. -/
theorem limit_exceeded : ∃ priv, (cached PlainBuffer).Run (sizedRun (2 ^ 32 - 40) (by decide) 11) priv ∧
    (∀ key, (sizedSet key (2 ^ 32 - 40) (by decide)).payload.length = 2 ^ 32 - 40) ∧
    priv.cacheSize.toNat = 40960 * 2 ^ 20 ∧ priv.cacheSize < priv.usedSize := by
  have hmib : (40960 : UInt32).toNat = 40960 := rfl
  have hhead : headerSize = 40 := rfl
  -- ten of them fill the cache, and no room is made for the eleventh
  obtain ⟨priv, s, hr, hA, hlim, he⟩ := exists_sizedRun (n := 11) (show MIN_CACHE_SIZE ≤ 40960 by decide)
    (by decide) (show 0 < 2 ^ 32 - 40 by decide) (by decide) (by decide) (by decide) fun m hm s hlim hused =>
      Store.makeRoom_of_request_eq_zero (by rw [hlim, hused, hmib, hhead]; omega) (by rw [length_sizedPayload]; rfl)
  have hused : s.used = 11 * 2 ^ 32 := by
    rw [Store.used, he, total_sizedEntries, length_sizedPayload]
    rfl
  refine ⟨priv, hr, fun key => length_sizedSet .., by rw [hA.cacheSize_eq, hlim]; rfl, ?_⟩
  rw [UInt64.lt_iff_toNat_lt, hA.cacheSize_eq, hA.usedSize_eq]
  omega

end Cached

end HyScanCache
