import HyScanCache.Cached.Calls
import HyScanCache.PlainBuffer

/-!
# Runs of a cache

The system `cached`: a fresh cache of an admitted size, and the calls of `set` and `get` that return.  What an
allocation is given is any block, so memory may be reused and a reallocated object may move or stay.

* `simulation`: the cache refines the service;
* `set_returns`, `get_returns`: from every reachable state the calls return, for a payload below 2³² bytes and
  an allocator that does not hand out live blocks;
* `set_fault`: no reachable state makes a call follow a null pointer, access a dead block or evict for ever.
-/

namespace HyScanCache.Cached

open Lib Recency HyScanCachedPrivate

variable {β : Type} [HyScanBuffer β]
variable {priv priv' : HyScanCachedPrivate} {h : List (Event β)} {s : Store} {block : Block}

/-- A call that returns. -/
inductive Step : HyScanCachedPrivate → Event β → HyScanCachedPrivate → Prop
  | set {priv priv' : HyScanCachedPrivate} {c : SetCall β} {status : Bool} (block : Block)
      (h : callSet block priv c = .ok (status, priv')) : Step priv (.set c status) priv'
  | get {priv priv' : HyScanCachedPrivate} {c : GetCall β} {found status : Bool} {bufs : Buffers β}
      (h : callGet priv c = .ok (status, bufs, priv')) (hf : found = true ↔ Found priv c) :
      Step priv (.get c found status bufs) priv'

/-- **The cache**: `hyscan_cached_new` with a size the property `cache-size` admits, then calls. -/
def cached (β : Type) [HyScanBuffer β] : Lts HyScanCachedPrivate (Event β) where
  init priv := ∃ cacheSize, MIN_CACHE_SIZE ≤ cacheSize ∧ cacheSize ≤ MAX_CACHE_SIZE ∧ priv = new cacheSize
  tr := Step

/-! ### Refinement -/

theorem toNat_cacheSize {cacheSize : UInt32} (h1 : MIN_CACHE_SIZE ≤ cacheSize) (h2 : cacheSize ≤ MAX_CACHE_SIZE) :
    (new cacheSize).cacheSize.toNat = cacheSize.toNat * 2 ^ 20 ∧
      2 ^ 26 ≤ cacheSize.toNat * 2 ^ 20 ∧ cacheSize.toNat * 2 ^ 20 ≤ 2 ^ 37 := by
  have h1' : 64 ≤ cacheSize.toNat := h1
  have h2' : cacheSize.toNat ≤ 131072 := h2
  have hm : ((1024 * 1024 : UInt64)).toNat = 2 ^ 20 := rfl
  refine ⟨?_, by omega, by omega⟩
  rw [new, UInt64.toNat_mul, UInt32.toNat_toUInt64, hm, Nat.mod_eq_of_lt (by omega)]

theorem rep_new (cacheSize : UInt32) : Rep (new cacheSize) [] where
  holding :=
    { addrs := List.nodup_nil
      keys := List.nodup_nil
      table := ⟨[], List.Perm.refl _, rfl⟩
      object := by simp
      live := by simp [new]
      used := rfl }
  list := ⟨List.nodup_nil, rfl, rfl, trivial⟩

theorem abs_new {cacheSize : UInt32} (h1 : MIN_CACHE_SIZE ≤ cacheSize) (h2 : cacheSize ≤ MAX_CACHE_SIZE) :
    ∃ s : Store, s.entries = [] ∧ s.limit = cacheSize.toNat * 2 ^ 20 ∧ Abs (new cacheSize) s := by
  obtain ⟨he, hmin, hmax⟩ := toNat_cacheSize h1 h2
  exact ⟨.empty _ hmin hmax, rfl, rfl, [], rep_new cacheSize, rfl, he⟩

theorem step_abs (hA : Abs priv s) {e : Event β} (ht : Step priv e priv') :
    ∃ s', s.Step e s' ∧ Abs priv' s' := by
  cases ht with
  | set block h =>
    rename_i c status
    rcases set_spec block hA c with ⟨status', priv₁, s', he, hs, h'⟩ | ⟨he, -⟩ | ⟨he, -⟩
    · obtain ⟨rfl, rfl⟩ : status' = status ∧ priv₁ = priv' := by simpa using he.symm.trans h
      exact ⟨s', hs, h'⟩
    · rw [he] at h
      cases h
    · rw [he] at h
      cases h
  | get h hf =>
    rename_i c found status bufs
    obtain ⟨found', status', bufs', priv₁, s', he, hf', hs, h'⟩ := get_spec hA c
    obtain ⟨rfl, rfl, rfl⟩ : status' = status ∧ bufs' = bufs ∧ priv₁ = priv' := by
      simpa using he.symm.trans h
    obtain rfl : found' = found := Bool.eq_iff_iff.2 (hf'.trans hf.symm)
    exact ⟨s', hs, h'⟩

/-- **The cache refines the service**, call by call. -/
theorem simulation : Lts.Simulation (cached β) (service β) Abs where
  init priv := by
    rintro ⟨cacheSize, h1, h2, rfl⟩
    obtain ⟨s, he, -, hA⟩ := abs_new h1 h2
    exact ⟨s, he, hA⟩
  step _ _ _ _ hA ht := step_abs hA ht

theorem Run.abs (hr : (cached β).Run h priv) : ∃ s, (service β).Run h s ∧ Abs priv s := simulation.run hr

theorem Reachable.abs (hr : (cached β).Reachable priv) : ∃ s, Abs priv s := by
  obtain ⟨h, hr⟩ := hr
  obtain ⟨s, -, hA⟩ := Run.abs hr
  exact ⟨s, hA⟩

/-! ### Calls return -/

theorem set_returns (hr : (cached β).Reachable priv) {c : SetCall β} (hlt : c.payload.length < 2 ^ 32)
    (hb : priv.heap block.addr = none) : ∃ status priv', callSet block priv c = .ok (status, priv') := by
  obtain ⟨s, hA⟩ := Reachable.abs hr
  rcases set_spec block hA c with ⟨status, priv', -, he, -⟩ | ⟨-, hbig, -⟩ | ⟨-, hlive⟩
  · exact ⟨status, priv', he⟩
  · omega
  · exact absurd hb hlive

theorem get_returns (hr : (cached β).Reachable priv) (c : GetCall β) :
    ∃ status bufs priv', callGet priv c = .ok (status, bufs, priv') := by
  obtain ⟨s, hA⟩ := Reachable.abs hr
  obtain ⟨-, status, bufs, priv', -, he, -⟩ := get_spec hA c
  exact ⟨status, bufs, priv', he⟩

/-- **The faults a call can end in.** -/
theorem set_fault (hr : (cached β).Reachable priv) {c : SetCall β} {f : Fault}
    (he : callSet block priv c = .error f) : f = .overrun ∨ f = .allocator := by
  obtain ⟨s, hA⟩ := Reachable.abs hr
  rcases set_spec block hA c with ⟨_, _, -, he', -⟩ | ⟨he', -⟩ | ⟨he', -⟩
  · rw [he'] at he
    cases he
  · rw [he'] at he
    exact .inl (Except.error.inj he).symm
  · rw [he'] at he
    exact .inr (Except.error.inj he).symm

theorem Rep.exists_dead {l : List Cell} (hr : Rep priv l) : ∃ a, priv.heap a = none := by
  refine ⟨(l.map Prod.fst).sum + 1, ?_⟩
  by_contra hlive
  exact absurd (List.le_sum_of_mem (hr.holding.live _ hlive)) (Nat.not_succ_le_self _)

theorem Abs.exists_dead (hA : Abs priv s) : ∃ a, priv.heap a = none := by
  obtain ⟨l, hl, -⟩ := hA
  exact hl.exists_dead

/-- A payload that is not too large is stored. -/
theorem Abs.exists_put (hA : Abs priv s) {c : SetCall β} {p : Payload} (hp : p.bytes = c.payload)
    (hle : p.bytes.length ≤ s.limit / 10) :
    ∃ priv', Step priv (.set c true) priv' ∧ Abs priv' (s.set c.key c.detail p) := by
  have hpos := p.pos
  have hlt := p.lt
  have hsize : c.size = p.bytes.length := by
    rw [SetCall.size, ← hp]
    exact Nat.mod_eq_of_lt hlt
  obtain ⟨a, ha⟩ := hA.exists_dead
  rcases set_spec ⟨a, fun _ => 0⟩ hA c with ⟨status, priv', s', he, hs, hA'⟩ | ⟨-, hbig, -⟩ | ⟨-, hlive⟩
  · cases hs with
    | reject h => omega
    | delete h => omega
    | @put _ p' hp' hle' =>
      obtain rfl : p' = p := by
        cases p'
        cases p
        simp only at hp hp'
        subst hp
        cases hp'
        rfl
      exact ⟨priv', Step.set _ he, hA'⟩
  · rw [← hp] at hbig
    omega
  · exact absurd ha hlive

/-! ### Runs on given inputs -/

/-- A payload of three bytes, the first one of the key. -/
def sampleSet (key : UInt64) : SetCall PlainBuffer where
  key := key
  detail := 1
  buffer1 := some (.own [key.toUInt8, 2, 3] (by simp))
  buffer2 := none

theorem length_replicate_lt {n : ℕ} (hn : n < 2 ^ 32) : (List.replicate n (0 : UInt8)).length < 2 ^ 32 := by
  rw [List.length_replicate]
  exact hn

/-- A payload of `n` zero bytes. -/
def sizedSet (key : UInt64) (n : ℕ) (hn : n < 2 ^ 32) : SetCall PlainBuffer where
  key := key
  detail := 0
  buffer1 := some (.own (List.replicate n 0) (length_replicate_lt hn))
  buffer2 := none

theorem length_sizedSet (key : UInt64) (n : ℕ) (hn : n < 2 ^ 32) : (sizedSet key n hn).payload.length = n := by
  have hp : (sizedSet key n hn).payload = List.replicate n 0 ++ [] := rfl
  rw [hp, List.append_nil, List.length_replicate]

/-- A `get` of the first two bytes of a payload and the rest. -/
def sampleGet (key : UInt64) : GetCall PlainBuffer where
  key := key
  detail := 0
  size1 := 2
  bufs := fun _ => .empty
  buffer1 := some 0
  buffer2 := some 1

theorem init_new : (cached PlainBuffer).init (new 64) := ⟨64, by decide, by decide, rfl⟩

theorem reachable_new : (cached PlainBuffer).Reachable (new 64) := ⟨[], Lts.Run.nil init_new⟩

theorem sample_sets : ∃ priv₁ priv₂, callSet ⟨0, fun _ => 0⟩ (new 64) (sampleSet 7) = .ok (true, priv₁) ∧
    callSet ⟨1, fun _ => 0⟩ priv₁ (sampleSet 8) = .ok (true, priv₂) := by
  obtain ⟨priv₁, h₁⟩ : ∃ priv, callSet ⟨0, fun _ => 0⟩ (new 64) (sampleSet 7) = .ok (true, priv) := ⟨_, rfl⟩
  obtain ⟨priv₂, h₂⟩ : ∃ priv, callSet ⟨1, fun _ => 0⟩ priv₁ (sampleSet 8) = .ok (true, priv) := by
    cases h₁
    exact ⟨_, rfl⟩
  exact ⟨priv₁, priv₂, h₁, h₂⟩

theorem sample_calls : ∃ priv₁ priv₂ bufs priv₃, callSet ⟨0, fun _ => 0⟩ (new 64) (sampleSet 7) = .ok (true, priv₁) ∧
    callSet ⟨1, fun _ => 0⟩ priv₁ (sampleSet 8) = .ok (true, priv₂) ∧
    callGet priv₂ (sampleGet 7) = .ok (true, bufs, priv₃) ∧ Found priv₂ (sampleGet 7) := by
  obtain ⟨priv₁, priv₂, h₁, h₂⟩ := sample_sets
  obtain ⟨bufs, priv₃, h₃, hf⟩ : ∃ bufs priv, callGet priv₂ (sampleGet 7) = .ok (true, bufs, priv) ∧
      Found priv₂ (sampleGet 7) := by
    cases h₁
    cases h₂
    exact ⟨_, _, rfl, by decide, _, rfl⟩
  exact ⟨priv₁, priv₂, bufs, priv₃, h₁, h₂, h₃, hf⟩

/-- The history of these calls. -/
def sampleHistory (bufs : Buffers PlainBuffer) : List (Event PlainBuffer) :=
  [.get (sampleGet 7) true true bufs, .set (sampleSet 8) true, .set (sampleSet 7) true]

theorem sample_run {priv₁ priv₂ priv₃ : HyScanCachedPrivate} {bufs : Buffers PlainBuffer}
    (h₁ : callSet ⟨0, fun _ => 0⟩ (new 64) (sampleSet 7) = .ok (true, priv₁))
    (h₂ : callSet ⟨1, fun _ => 0⟩ priv₁ (sampleSet 8) = .ok (true, priv₂))
    (h₃ : callGet priv₂ (sampleGet 7) = .ok (true, bufs, priv₃)) (hf : Found priv₂ (sampleGet 7)) :
    (cached PlainBuffer).Run (sampleHistory bufs) priv₃ :=
  (((Lts.Run.nil init_new).cons (Step.set _ h₁)).cons (Step.set _ h₂)).cons (Step.get h₃ (by simp [hf]))

/-- The payload of `sizedSet`. -/
def sizedPayload (size : ℕ) (hpos : 0 < size) (hs : size < 2 ^ 32) : Payload where
  bytes := List.replicate size 0
  pos := by rw [List.length_replicate]; exact hpos
  lt := length_replicate_lt hs

theorem length_sizedPayload {size : ℕ} (hpos : 0 < size) (hs : size < 2 ^ 32) :
    (sizedPayload size hpos hs).bytes.length = size := List.length_replicate

/-- The first `n` of a family of payloads of one size, each under a key of its own, stored one after the other. -/
def sizedRun (size : ℕ) (hs : size < 2 ^ 32) : ℕ → List (Event PlainBuffer)
  | 0 => []
  | n + 1 => .set (sizedSet (UInt64.ofNat n) size hs) true :: sizedRun size hs n

theorem mem_sizedRun {size n : ℕ} {hs : size < 2 ^ 32} {e : Event PlainBuffer} (he : e ∈ sizedRun size hs n) :
    ∃ key, e = .set (sizedSet key size hs) true := by
  induction n with
  | zero => cases he
  | succ n ih =>
    rcases List.mem_cons.1 he with rfl | he
    · exact ⟨_, rfl⟩
    · exact ih he

/-- What they leave in a cache that has room for them. -/
def sizedEntries (p : Payload) : ℕ → List Entry
  | 0 => []
  | n + 1 => Entry.fresh (UInt64.ofNat n) 0 p :: sizedEntries p n

section Sized

variable {p : Payload} {n : ℕ}

theorem total_sizedEntries (p : Payload) (n : ℕ) :
    total Entry.footprint (sizedEntries p n) = n * (headerSize + p.bytes.length) := by
  induction n with
  | zero => rw [sizedEntries, total_nil, Nat.zero_mul]
  | succ n ih =>
    rw [sizedEntries, total_cons, ih, Nat.succ_mul, Nat.add_comm]
    rfl

theorem key_lt_of_mem_sizedEntries (hn : n ≤ 2 ^ 64) {e : Entry} (he : e ∈ sizedEntries p n) : e.key.toNat < n := by
  induction n with
  | zero => cases he
  | succ n ih =>
    rcases List.mem_cons.1 he with rfl | he
    · have hkey : (UInt64.ofNat n).toNat = n := UInt64.toNat_ofNat_of_lt' hn
      exact hkey.trans_lt n.lt_succ_self
    · exact (ih (by omega) he).trans n.lt_succ_self

/-- **A cache is filled** with payloads of one size, as long as room need not be made for them. -/
theorem exists_sizedRun {cacheSize : UInt32} (h1 : MIN_CACHE_SIZE ≤ cacheSize) (h2 : cacheSize ≤ MAX_CACHE_SIZE)
    {size : ℕ} (hpos : 0 < size) (hs : size < 2 ^ 32) (hle : size ≤ cacheSize.toNat * 2 ^ 20 / 10) (hn : n ≤ 2 ^ 64)
    (hroom : ∀ m < n, ∀ s : Store, s.limit = cacheSize.toNat * 2 ^ 20 → s.used = m * (headerSize + size) →
      s.makeRoom (sizedPayload size hpos hs) = s) :
    ∃ priv s, (cached PlainBuffer).Run (sizedRun size hs n) priv ∧ Abs priv s ∧
      s.limit = cacheSize.toNat * 2 ^ 20 ∧ s.entries = sizedEntries (sizedPayload size hpos hs) n := by
  induction n with
  | zero =>
    obtain ⟨s, he, hlim, hA⟩ := abs_new h1 h2
    have hi : (cached PlainBuffer).init (new cacheSize) := ⟨cacheSize, h1, h2, rfl⟩
    exact ⟨_, s, Lts.Run.nil hi, hA, hlim, he⟩
  | succ n ih =>
    obtain ⟨priv, s, hr, hA, hlim, he⟩ := ih (by omega) fun m hm => hroom m (by omega)
    have hlen := length_sizedPayload hpos hs
    have hused : s.used = n * (headerSize + size) := by
      rw [Store.used, he, total_sizedEntries, hlen]
    have habs : s.find (UInt64.ofNat n) = none := by
      apply find_eq_none.2
      intro e hm hk
      have hlt := key_lt_of_mem_sizedEntries (by omega) (he ▸ hm)
      rw [hk, UInt64.toNat_ofNat_of_lt' hn] at hlt
      omega
    obtain ⟨priv', ht, hA'⟩ := hA.exists_put (c := sizedSet (UInt64.ofNat n) size hs)
      (p := sizedPayload size hpos hs) (List.append_nil _).symm (by rw [hlen, hlim]; exact hle)
    refine ⟨priv', _, hr.cons ht, hA', by rw [Store.limit_set, hlim], ?_⟩
    rw [sizedEntries, ← he]
    exact Store.entries_set_of_room s _ _ _ (hroom n n.lt_succ_self s hlim hused) habs

/-- The largest payload a cache of 64 MiB accepts. -/
def largePayload : Payload := sizedPayload 6710886 (by decide) (by decide)

/-- Nine of them, each under a key of its own. -/
def largeRun : List (Event PlainBuffer) := sizedRun 6710886 (by decide) 9

/-- Such a payload as it is given. -/
def largeSet (key : UInt64) : SetCall PlainBuffer := sizedSet key 6710886 (by decide)

theorem length_largePayload : largePayload.bytes.length = 6710886 := length_sizedPayload (by decide) (by decide)

theorem bytes_largePayload (key : UInt64) : largePayload.bytes = (largeSet key).payload := (List.append_nil _).symm

theorem size_largeSet (key : UInt64) : (largeSet key).size = 6710886 := by
  rw [SetCall.size, largeSet, length_sizedSet]
  rfl

theorem exists_largeRun : ∃ priv s, (cached PlainBuffer).Run largeRun priv ∧ Abs priv s ∧ s.limit = 67108864 ∧
    s.entries = sizedEntries largePayload 9 ∧ s.used = 60398334 := by
  have hmib : (64 : UInt32).toNat = 64 := rfl
  have hhead : headerSize = 40 := rfl
  obtain ⟨priv, s, hr, hA, hlim, he⟩ := exists_sizedRun (n := 9) (show MIN_CACHE_SIZE ≤ 64 by decide) (by decide)
    (show 0 < 6710886 by decide) (by decide) (by decide) (by decide) fun m hm s hlim hused => by
      rw [Store.makeRoom, if_neg]
      rw [hlim, hused, length_sizedPayload, hmib, hhead]
      omega
  refine ⟨priv, s, hr, hA, hlim, he, ?_⟩
  rw [Store.used, he, total_sizedEntries, length_sizedPayload, hhead]

end Sized

end HyScanCache.Cached
