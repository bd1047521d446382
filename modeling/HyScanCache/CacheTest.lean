import Mathlib.Data.Nat.Digits.Lemmas
import HyScanCache.Cached.Names
import HyScanCache.Farmhash
import HyScanCache.Remote.Concurrent

/-!
# The test of the cache, as `cache-test.c` computes it

Two threads write objects to the cache, and others read them, all at the same time, through clients or in the process
of the server.  A reader knows from the key of an object what it has to be, and stops the program with an error if it
gets something else.

* `keyName_inj`: objects have keys of their own;
* `stress_test`: no reader ever stops the program.
-/

namespace HyScanCache.CacheTest

open Lib Cached Remote

/-! ### The objects -/

/-- `MAX_SIZE` -/
def maxSize : ℤ := 1024 * 1024

/-- `MIN_SIZE` -/
def minSize : ℤ := 4

/-- The limits on `small_size` and `big_size` in `main`. -/
def limitSize (size : ℤ) : ℤ :=
  let size := if size > maxSize then maxSize else size
  let size := if size < minSize then minSize else size
  if size % 2 ≠ 0 then size - 1 else size

/-- `g_random_int_range`, which gives its first argument if the range is empty. -/
def RandomIntRange (first last n : ℕ) : Prop := if first < last then first ≤ n ∧ n < last else n = first

/-- What the program is started with, and what it draws for its patterns. -/
structure Options where
  small_size : ℤ
  big_size : ℤ
  nPatterns : ℕ
  nObjects : ℕ
  preload : Bool
  update : Bool
  random : ℕ → ℕ → UInt8
  nPatterns_pos : 0 < nPatterns
  nObjects_pos : 0 < nObjects

namespace Options

variable (o : Options)

/-- `small_size`, within its limits. -/
def smallSize : ℕ := (limitSize o.small_size).toNat

/-- `big_size`, within its limits. -/
def bigSize : ℕ := (limitSize o.big_size).toNat

/-- `pattern_size` -/
def patternSize : ℕ := if o.bigSize > o.smallSize then o.bigSize else o.smallSize

/-- `patterns` -/
def patterns (i : ℕ) : Bytes := (List.range o.patternSize).map (o.random i)

/-- `patterns[key_id % n_patterns]` -/
def pattern (keyId : ℕ) : Bytes := o.patterns (keyId % o.nPatterns)

/-- The size of the first part of an object. -/
def objectSize (keyId : ℕ) : ℕ := if keyId % 2 ≠ 0 then o.bigSize else o.smallSize

/-- The keys `data_writer` writes: in order before the test, and at random during it. -/
def WriterKey (dataIndex : Bool) (keyId : ℕ) : Prop :=
  (o.preload = true ∧ keyId < o.nObjects ∧ ∃ n, keyId = dataIndex.toNat + 2 * n) ∨
    (o.update = true ∧ ∃ n, RandomIntRange 0 (o.nObjects / 2) n ∧ keyId = 2 * n + dataIndex.toNat)

/-- The keys of the test; a single object that is updated has two. -/
def IsKey (keyId : ℕ) : Prop := keyId < o.nObjects ∨ ∃ dataIndex, o.WriterKey dataIndex keyId

end Options

/-- The key of an object, which is printed with `"%09d"`. -/
def keyName (keyId : ℕ) : Bytes :=
  let digits := Nat.digits 10 keyId
  (List.replicate (9 - digits.length) 0 ++ digits.reverse).map fun digit => 48 + UInt8.ofNat digit

section Calls

variable {β : Type} [HyScanBufferWrap β]

/-- A call of `data_writer`, whose argument is `dataIndex`, for the object `keyId`. -/
def writerCall (o : Options) (hash : Bytes → UInt64) (dataIndex : Bool) (keyId size2 : ℕ) (buffer1 buffer2 : β) :
    SetCall β :=
  let data := o.pattern keyId
  let size1 := if dataIndex then o.bigSize else o.smallSize
  .named hash (some (keyName keyId)) none (some (wrap buffer1 (data.take size1)))
    (some (wrap buffer2 (data.take size2)))

/-- A call of `data_reader`. -/
def readerCall (o : Options) (hash : Bytes → UInt64) (keyId : ℕ) (bufs : Buffers β) (buffer1 buffer2 : ℕ) :
    GetCall β :=
  .named hash (some (keyName keyId)) none (UInt32.ofNat (o.objectSize keyId)) bufs (some buffer1) (some buffer2)

/-- What `data_reader` finds; a mismatch is an error, and stops the program. -/
inductive Verdict where
  | miss
  | sizeMismatch
  | data1Mismatch
  | data2Mismatch
  | hit
  deriving DecidableEq

/-- What `data_reader` does with the data it got. -/
def verdict (o : Options) (keyId : ℕ) (status : Bool) (data1 data2 : Bytes) : Verdict :=
  if status then
    if data1.length < data2.length ∨ data1.length ≠ o.objectSize keyId then .sizeMismatch
    else if data1 ≠ (o.pattern keyId).take data1.length then .data1Mismatch
    else if data2 ≠ (o.pattern keyId).take data2.length then .data2Mismatch
    else .hit
  else .miss

/-- A call that writes an object; the second part has a random size, between half the size of the first one and all
of it. -/
def Writes (o : Options) (hash : Bytes → UInt64) (c : SetCall β) : Prop :=
  ∃ dataIndex keyId size2 buffer1 buffer2, o.WriterKey dataIndex keyId ∧ o.objectSize keyId / 2 ≤ size2 ∧
    size2 ≤ o.objectSize keyId ∧ c = writerCall o hash dataIndex keyId size2 buffer1 buffer2

/-- A call that reads an object to buffers with memory of their own. -/
def Reads (o : Options) (hash : Bytes → UInt64) (keyId buffer1 buffer2 : ℕ) (c : GetCall β) : Prop :=
  RandomIntRange 0 o.nObjects keyId ∧ buffer1 ≠ buffer2 ∧
    ∃ bufs, Grows (bufs buffer1) ∧ Grows (bufs buffer2) ∧ c = readerCall o hash keyId bufs buffer1 buffer2

/-- The threads of the test write and read objects. -/
def TestCalls (o : Options) (hash : Bytes → UInt64) (_ : SystemState β) (x : ℕ × SystemDeed β) : Prop :=
  ∀ c, x.2 = .start c →
    match c.call with
    | .set c => Writes o hash c
    | .get c => ∃ keyId buffer1 buffer2, Reads o hash keyId buffer1 buffer2 c

end Calls

/-! ### The test -/

theorem limitSize_bounds (size : ℤ) : 4 ≤ limitSize size ∧ limitSize size ≤ 1024 * 1024 := by
  simp only [limitSize, maxSize, minSize]
  split_ifs <;> omega

section Objects

variable (o : Options) (keyId : ℕ)

theorem objectSize_le : o.objectSize keyId ≤ 1024 * 1024 := by
  have hs := limitSize_bounds o.small_size
  have hb := limitSize_bounds o.big_size
  unfold Options.objectSize Options.smallSize Options.bigSize
  split <;> omega

theorem objectSize_le_length : o.objectSize keyId ≤ (o.pattern keyId).length := by
  rw [Options.pattern, Options.patterns, List.length_map, List.length_range]
  unfold Options.objectSize Options.patternSize
  split <;> split <;> omega

theorem ofDigits_keyName (keyId : ℕ) :
    Nat.ofDigits 10 ((keyName keyId).map fun b => (b - 48).toNat).reverse = keyId := by
  have hdigit : ∀ d ∈ List.replicate (9 - (Nat.digits 10 keyId).length) 0 ++ (Nat.digits 10 keyId).reverse,
      (48 + UInt8.ofNat d - 48).toNat = d := by
    intro d hd
    have hlt : d < 10 := by
      rcases List.mem_append.1 hd with hd | hd
      · rw [List.eq_of_mem_replicate hd]
        decide
      · exact Nat.digits_lt_base (by decide) (List.mem_reverse.1 hd)
    rw [UInt8.add_comm, UInt8.add_sub_cancel, UInt8.toNat_ofNat']
    omega
  have hmap : (keyName keyId).map (fun b => (b - 48).toNat) =
      List.replicate (9 - (Nat.digits 10 keyId).length) 0 ++ (Nat.digits 10 keyId).reverse := by
    rw [keyName, List.map_map]
    exact (List.map_congr_left hdigit).trans (List.map_id _)
  rw [hmap, List.reverse_append, List.reverse_reverse, List.reverse_replicate, Nat.ofDigits_append_replicate_zero,
    Nat.ofDigits_digits]

/-- **Objects have keys of their own.** -/
theorem keyName_inj {a b : ℕ} (h : keyName a = keyName b) : a = b := by
  rw [← ofDigits_keyName a, h, ofDigits_keyName]

end Objects

section Test

variable {β : Type} [HyScanBufferWrap β]
variable {o : Options} {hash : Bytes → UInt64} {c : SetCall β}

omit [HyScanBufferWrap β] in
theorem writerKey_size {dataIndex : Bool} {keyId : ℕ} (h : o.WriterKey dataIndex keyId) :
    (if dataIndex then o.bigSize else o.smallSize) = o.objectSize keyId := by
  obtain ⟨n, rfl⟩ : ∃ n, keyId = 2 * n + dataIndex.toNat := by
    rcases h with ⟨-, -, n, rfl⟩ | ⟨-, n, -, rfl⟩
    · exact ⟨n, by omega⟩
    · exact ⟨n, rfl⟩
  cases dataIndex <;> simp [Options.objectSize]

theorem Writes.payload (hw : Writes o hash c) : ∃ keyId size2, o.IsKey keyId ∧ size2 ≤ o.objectSize keyId ∧
    c.key = hash (keyName keyId) ∧
    c.payload = (o.pattern keyId).take (o.objectSize keyId) ++ (o.pattern keyId).take size2 := by
  obtain ⟨dataIndex, keyId, size2, buffer1, buffer2, hkey, -, hle, rfl⟩ := hw
  refine ⟨keyId, size2, .inr ⟨dataIndex, hkey⟩, hle, rfl, ?_⟩
  have hlt (size : ℕ) (h : size ≤ o.objectSize keyId) : ((o.pattern keyId).take size).length < 2 ^ 32 := by
    have := objectSize_le o keyId
    rw [List.length_take]
    omega
  simp only [writerCall, SetCall.named, SetCall.payload, givenBytes, writerKey_size hkey]
  rw [HyScanBufferWrap.bytes_wrap _ _ (hlt _ le_rfl), HyScanBufferWrap.bytes_wrap _ _ (hlt _ hle)]

omit [HyScanBufferWrap β] in
theorem isKey_of_range {keyId : ℕ} (h : RandomIntRange 0 o.nObjects keyId) : o.IsKey keyId := by
  rw [RandomIntRange, if_pos o.nObjects_pos] at h
  exact .inl h.2

theorem verdict_hit {keyId size2 : ℕ} (h : size2 ≤ o.objectSize keyId) :
    verdict o keyId true ((o.pattern keyId).take (o.objectSize keyId)) ((o.pattern keyId).take size2) = .hit := by
  have hle := objectSize_le_length o keyId
  have h1 : ((o.pattern keyId).take (o.objectSize keyId)).length = o.objectSize keyId := by
    rw [List.length_take]
    omega
  have h2 : ((o.pattern keyId).take size2).length = size2 := by
    rw [List.length_take]
    omega
  unfold verdict
  rw [h1, h2]
  simp [h]

variable {h : List (ℕ × SystemDeed β)} {w : SystemState β}

theorem TestCalls.fits {x : ℕ × SystemDeed β} (hx : TestCalls o hash w x) : SystemFits w x := by
  intro c hstart c' hc'
  have hcall := hx c hstart
  rw [hc'] at hcall
  obtain ⟨keyId, size2, -, hle, -, hp⟩ := Writes.payload hcall
  have := objectSize_le o keyId
  rw [hp, List.length_append, List.length_take, List.length_take]
  omega

variable [URpc]

/-- **No reader ever stops the program.**  Whatever writers, readers, clients and workers of the server do at the same
time, and whatever is refused or lost on their way, data that a reader gets pass its checks. -/
theorem stress_test (hhash : ∀ a b, o.IsKey a → o.IsKey b → hash (keyName a) = hash (keyName b) →
      keyName a = keyName b)
    (hr : ((system β).guard (TestCalls o hash)).Run h w) {i keyId buffer1 buffer2 : ℕ} {c : AnyCall β}
    {g : GetCall β} {r : Exec (Answer β)} (hstart : (i, .start c) ∈ h) (hc : c.call = .get g)
    (hread : Reads o hash keyId buffer1 buffer2 g) (hf : (i, .finish r) ∈ h) :
    ∃ status bufs, r = .ok (.get status bufs) ∧
      verdict o keyId status (bytes (bufs buffer1)) (bytes (bufs buffer2)) = if status then .hit else .miss := by
  obtain ⟨hid, hne, bufs₀, hg1, hg2, rfl⟩ := hread
  have hfits := hr.guard_mono fun _ _ => TestCalls.fits
  obtain ⟨h', w', priv, lin, hr', hm, hl⟩ := system_mirrored hfits
  obtain ⟨s, hs, -⟩ := Run.abs hl.run
  have heffects := effects hfits hr' hm hl
  obtain ⟨status, bufs, rfl, htrue⟩ := heffects.read hfits hs hstart hc hf rfl rfl hne hg1 hg2
  refine ⟨status, bufs, rfl, ?_⟩
  cases status with
  | false => rfl
  | true =>
    obtain ⟨j, c', p, hj, hset, hk, -, hb1, hb2⟩ := htrue rfl
    have hwrites : Writes o hash p := by
      obtain ⟨h₂, h₁, rfl⟩ := List.append_of_mem hj
      obtain ⟨s₁, s₁', -, ⟨hcalls, -⟩, -⟩ := hr.split
      have hcall := hcalls c' rfl
      rwa [hset] at hcall
    obtain ⟨keyId', size2, hid', hle, hkey, hp⟩ := hwrites.payload
    -- the key is that of the object the reader asks for
    obtain rfl : keyId' = keyId := keyName_inj (hhash _ _ hid' (isKey_of_range hid) (hkey.symm.trans hk))
    have hsize : (readerCall o hash keyId' bufs₀ buffer1 buffer2).size1.toNat =
        ((o.pattern keyId').take (o.objectSize keyId')).length := by
      have hle := objectSize_le o keyId'
      have hlen := objectSize_le_length o keyId'
      rw [readerCall, GetCall.named, List.length_take, UInt32.toNat_ofNat']
      omega
    rw [hp, hsize, List.take_left] at hb1
    rw [hp, hsize, List.drop_left] at hb2
    rw [hb1, hb2, verdict_hit hle]
    rfl

end Test

section Sample

local instance testURpc : URpc := plainURpc

/-- Two objects, of four and eight bytes. -/
def sampleOptions : Options where
  small_size := 1
  big_size := 9
  nPatterns := 1
  nObjects := 2
  preload := true
  update := true
  random i j := UInt8.ofNat (i + j)
  nPatterns_pos := by decide
  nObjects_pos := by decide

/-- FarmHash. -/
def sampleHash (name : Bytes) : UInt64 :=
  match Farmhash.hyscanHash64 false (some (name ++ [0])) with
  | .ok hash => hash
  | .error _ => 0

theorem sampleHash_inj : ∀ a b, sampleOptions.IsKey a → sampleOptions.IsKey b →
    sampleHash (keyName a) = sampleHash (keyName b) → keyName a = keyName b := by
  have hlt : ∀ a, sampleOptions.IsKey a → a < 2 := by
    rintro a (h | ⟨dataIndex, ⟨-, h, -⟩ | ⟨-, n, h, rfl⟩⟩)
    · exact h
    · exact h
    · have hn : 0 ≤ n ∧ n < 1 := h
      cases dataIndex <;> simp <;> omega
  have hinj : ∀ a < 2, ∀ b < 2, sampleHash (keyName a) = sampleHash (keyName b) → keyName a = keyName b := by
    decide +kernel
  exact fun a b ha hb => hinj a (hlt a ha) b (hlt b hb)

theorem sampleHash_zero : sampleHash (keyName 0) = 2271946735276985195 := by decide +kernel

/-- An object is written. -/
def sampleWrite : SetCall PlainBuffer := writerCall sampleOptions sampleHash false 0 2 .empty .empty

/-- It is read. -/
def sampleRead : GetCall PlainBuffer := readerCall sampleOptions sampleHash 0 (fun _ => .empty) 0 1

theorem sampleWrite_eq : sampleWrite = ⟨2271946735276985195, 0, some (.wrapped [0, 1, 2, 3] 4 (by decide)),
    some (.wrapped [0, 1] 2 (by decide))⟩ := by
  rw [sampleWrite, writerCall, SetCall.named,
    show hyscanHash64 sampleHash (some (keyName 0)) = _ from sampleHash_zero]
  rfl

theorem sampleRead_eq : sampleRead = ⟨2271946735276985195, 0, 4, fun _ => .empty, some 0, some 1⟩ := by
  rw [sampleRead, readerCall, GetCall.named, show hyscanHash64 sampleHash (some (keyName 0)) = _ from sampleHash_zero]
  rfl

theorem sampleWrite_writes : Writes sampleOptions sampleHash sampleWrite :=
  ⟨false, 0, 2, .empty, .empty, .inl ⟨rfl, by decide, 0, rfl⟩, by decide, by decide, rfl⟩

theorem sampleRead_reads : Reads sampleOptions sampleHash 0 0 1 sampleRead :=
  ⟨⟨by decide, by decide⟩, by decide, fun _ => .empty, fun _ => rfl, fun _ => rfl, rfl⟩

/-- An object is written by a client, and read by somebody who has called the cache at the same time. -/
theorem stress_test_sample : ∃ h w bufs, ((system PlainBuffer).guard (TestCalls sampleOptions sampleHash)).Run h w ∧
    (0, .finish (.ok (.set true))) ∈ h ∧ (1, .finish (.ok (.get true bufs))) ∈ h ∧
    verdict sampleOptions 0 true (bytes (bufs 0)) (bytes (bufs 1)) = .hit := by
  obtain ⟨priv₁, hset⟩ : ∃ priv, callSet ⟨0, fun _ => 0⟩ (new 64) sampleWrite = .ok (true, priv) := by
    rw [sampleWrite_eq]
    exact ⟨_, rfl⟩
  obtain ⟨priv₂, bufs, hget⟩ : ∃ priv bufs, callGet priv₁ sampleRead = .ok (true, bufs, priv) := by
    rw [sampleWrite_eq] at hset
    rw [sampleRead_eq]
    cases hset
    exact ⟨_, _, rfl⟩
  have hfit : sampleWrite.payload.length ≤ (maxPayload : UInt32).toNat := by
    rw [sampleWrite_eq]
    decide
  obtain ⟨h, w, hr, hs, hf₀, hf₁⟩ := run_called (G := TestCalls sampleOptions sampleHash)
    (fun _ _ => TestCalls.fits) (fun _ _ _ hd c he => absurd he (hd c))
    (by rintro w c ⟨⟩; exact sampleWrite_writes) (by rintro w c ⟨⟩; exact ⟨0, 0, 1, sampleRead_reads⟩) hfit hset hget
  obtain ⟨status, bufs', hret, hverdict⟩ := stress_test sampleHash_inj hr hs rfl sampleRead_reads hf₁
  cases hret
  exact ⟨h, w, bufs, hr, hf₀, hf₁, hverdict⟩

end Sample

end HyScanCache.CacheTest
