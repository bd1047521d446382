import HyScanCache.Cached.Runs
import HyScanCache.Interface

/-!
# Names

The functions of the interface that take names are calls of the cache with the hashes of the names.  What was set
under a name is got under it.
-/

namespace HyScanCache

variable {β : Type}

/-- The call that `hyscan_cache_set2` makes. -/
def SetCall.named (hash : Bytes → UInt64) (key detail : Option Bytes) (buffer1 buffer2 : Option β) : SetCall β where
  key := hyscanHash64 hash key
  detail := hyscanHash64 hash detail
  buffer1 := buffer1
  buffer2 := buffer2

/-- The call that `hyscan_cache_get2` makes. -/
def GetCall.named (hash : Bytes → UInt64) (key detail : Option Bytes) (size1 : UInt32) (bufs : Buffers β)
    (buffer1 buffer2 : BufferPtr) : GetCall β where
  key := hyscanHash64 hash key
  detail := hyscanHash64 hash detail
  size1 := size1
  bufs := bufs
  buffer1 := buffer1
  buffer2 := buffer2

namespace Cached

open Lib Recency HyScanCachedPrivate

variable [HyScanBuffer β]
variable {priv priv' : HyScanCachedPrivate} {block : Block} {hash : Bytes → UInt64} {key detail : Option Bytes}

/-- `hyscan_cached_interface_init`; `block` is what the allocation of a call of `set` is given. -/
def cachedInterface (block : Block) : HyScanCacheInterface HyScanCachedPrivate β where
  set := some (set block)
  get := some get

theorem hyscanCacheSet2_cached (buffer1 buffer2 : Option β) :
    hyscanCacheSet2 (cachedInterface block) priv hash key detail buffer1 buffer2 =
      callSet block priv (.named hash key detail buffer1 buffer2) := rfl

theorem hyscanCacheSet_cached (buffer : Option β) :
    hyscanCacheSet (cachedInterface block) priv hash key detail buffer =
      callSet block priv (.named hash key detail buffer none) := rfl

theorem hyscanCacheGet2_cached (size1 : UInt32) (bufs : Buffers β) (buffer1 buffer2 : BufferPtr) :
    hyscanCacheGet2 (cachedInterface block) priv hash key detail size1 bufs buffer1 buffer2 =
      callGet priv (.named hash key detail size1 bufs buffer1 buffer2) := rfl

theorem hyscanCacheGet_cached (bufs : Buffers β) (buffer : BufferPtr) :
    hyscanCacheGet (cachedInterface block) priv hash key detail bufs buffer =
      callGet priv (.named hash key detail 0xFFFFFFFF bufs buffer none) := rfl

/-- **What was set is got**: right after a `set` of a payload that is not empty, a `get` of its key. -/
theorem get_of_set (hr : (cached β).Reachable priv) {c : SetCall β} (hset : callSet block priv c = .ok (true, priv'))
    (hsize : c.size ≠ 0) {g : GetCall β} (hk : g.key = c.key) (hd : g.Accepts c.detail) {b : ℕ}
    (h1 : g.buffer1 = some b) (hne : g.buffer2 ≠ some b) (hg1 : Grows (g.bufs b))
    (hg2 : ∀ b2, g.buffer2 = some b2 → Grows (g.bufs b2)) :
    ∃ bufs priv'', callGet priv' g = .ok (true, bufs, priv'') ∧ bytes (bufs b) = c.payload.take g.size1.toNat ∧
      ∀ b2, g.buffer2 = some b2 → bytes (bufs b2) = c.payload.drop g.size1.toNat := by
  obtain ⟨s, hA⟩ := Reachable.abs hr
  obtain ⟨s', hstep, hA'⟩ := step_abs hA (Step.set block hset)
  cases hstep with
  | delete h => exact absurd h hsize
  | @put _ p hp hle =>
    -- the payload is the entry of the key
    obtain ⟨e, hf, hed, heb⟩ := s.find_set c.key c.detail p
    obtain ⟨found, status, bufs, priv'', s'', hget, -, hstep', -⟩ := get_spec hA' g
    have hfind : (s.set c.key c.detail p).find g.key = some e := hk ▸ hf
    cases hstep' with
    | refuse hcr => exact absurd hcr.1 (by rw [h1]; exact Option.some_ne_none b)
    | miss _ hmiss => exact absurd (hed ▸ hd) (hmiss e hfind)
    | @hit _ e' _ hf' _ _ _ hdeliver =>
      obtain rfl : e = e' := Option.some.inj (hfind.symm.trans hf')
      have hlt : e.bytes.length < 2 ^ 32 := e.fits.trans_lt e.lt
      rw [h1] at hdeliver
      obtain ⟨bufs', htrue⟩ : ∃ bufs', deliver g.bufs (some b) g.buffer2 g.size1.toNat e.bytes = (true, bufs') :=
        deliver_grows hlt hne hg1 hg2
      obtain ⟨rfl, rfl⟩ := Prod.mk.inj (hdeliver.symm.trans htrue)
      have hparts := deliver_true hlt hne htrue
      rw [heb, hp] at hparts
      exact ⟨bufs, priv'', hget, hparts⟩

/-- **An object is got under the name it was set under**, in two parts. -/
theorem hyscanCacheGet2_set2 (hr : (cached β).Reachable priv) {buffer1 buffer2 : Option β}
    (hset : hyscanCacheSet2 (cachedInterface block) priv hash key detail buffer1 buffer2 = .ok (true, priv'))
    (hpos : (givenBytes buffer1 ++ givenBytes buffer2).length % 2 ^ 32 ≠ 0) (size1 : UInt32) {bufs : Buffers β}
    {b1 b2 : ℕ} (hne : b2 ≠ b1) (hg1 : Grows (bufs b1)) (hg2 : Grows (bufs b2)) :
    ∃ bufs' priv'', hyscanCacheGet2 (cachedInterface block) priv' hash key detail size1 bufs (some b1) (some b2) =
        .ok (true, bufs', priv'') ∧
      bytes (bufs' b1) = (givenBytes buffer1 ++ givenBytes buffer2).take size1.toNat ∧
      bytes (bufs' b2) = (givenBytes buffer1 ++ givenBytes buffer2).drop size1.toNat := by
  rw [hyscanCacheSet2_cached] at hset
  obtain ⟨bufs', priv'', hget, hb1, hb2⟩ := get_of_set hr hset hpos
    (g := .named hash key detail size1 bufs (some b1) (some b2)) rfl (.inr rfl) rfl
    (fun h => hne (Option.some.inj h)) hg1 (by rintro b ⟨⟩; exact hg2)
  exact ⟨bufs', priv'', hget, hb1, hb2 b2 rfl⟩

/-- **An object is got as a whole.** -/
theorem hyscanCacheGet_set (hr : (cached β).Reachable priv) {buffer : β}
    (hset : hyscanCacheSet (cachedInterface block) priv hash key detail (some buffer) = .ok (true, priv'))
    (hpos : bytes buffer ≠ []) {bufs : Buffers β} {b : ℕ} (hg : Grows (bufs b)) :
    ∃ bufs' priv'', hyscanCacheGet (cachedInterface block) priv' hash key detail bufs (some b) =
        .ok (true, bufs', priv'') ∧ bytes (bufs' b) = bytes buffer := by
  rw [hyscanCacheSet_cached] at hset
  have hlt := HyScanBuffer.length_bytes_lt buffer
  have hpayload : (SetCall.named hash key detail (some buffer) none).payload = bytes buffer := List.append_nil _
  have hsize : (SetCall.named hash key detail (some buffer) none).size ≠ 0 := by
    rw [SetCall.size, hpayload, Nat.mod_eq_of_lt hlt]
    exact List.length_eq_zero_iff.not.2 hpos
  obtain ⟨bufs', priv'', hget, hb, -⟩ := get_of_set hr hset hsize
    (g := .named hash key detail 0xFFFFFFFF bufs (some b) none) rfl (.inr rfl) rfl (Option.some_ne_none b).symm hg
    fun _ h => by cases h
  refine ⟨bufs', priv'', hget, hb.trans ?_⟩
  rw [hpayload]
  exact List.take_of_length_le (by show (bytes buffer).length ≤ 4294967295; omega)

end Cached

end HyScanCache
