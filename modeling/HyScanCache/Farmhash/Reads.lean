import HyScanCache.Farmhash
import HyScanCache.Interface
import Mathlib.Tactic.Linarith

/-!
# What FarmHash reads

For strings of every length: `Reads p lo hi` says that a program reads the places from `lo` up to `hi`, all of them
and no others, that its assertions hold and its loops end.  `Reads.bind` is the rule for one program after another.
There is one lemma for each function of `farmhash.cc`, `doWhile_reads` for the loops over blocks of 64 bytes, and
`hash64_reads` for the whole.
-/

namespace HyScanCache.Farmhash

open Lib

variable {α σ : Type} {lo hi i s end' : ℤ} {len : ℕ}

/-- What is read lies in a range, and what is asserted is true. -/
@[simp] def Inside (lo hi : ℤ) : StringOp → Prop
  | .fetch64 p => lo ≤ p ∧ p + 8 ≤ hi
  | .fetch32 p => lo ≤ p ∧ p + 4 ≤ hi
  | .char p => lo ≤ p ∧ p + 1 ≤ hi
  | .assert b => b = true
  | .endless => False

/-- The byte at `i` is read. -/
@[simp] def Covers (i : ℤ) : StringOp → Prop
  | .fetch64 p => p ≤ i ∧ i < p + 8
  | .fetch32 p => p ≤ i ∧ i < p + 4
  | .char p => p ≤ i ∧ i < p + 1
  | .assert _ => False
  | .endless => False

/-- **What a program reads**: a range, all of it and nothing else. -/
structure Reads (p : StringProg α) (lo hi : ℤ) : Prop where
  inside : p.Uses (Inside lo hi)
  covers : ∀ i, lo ≤ i → i < hi → p.Meets (Covers i)

theorem Inside.mono {lo' hi' : ℤ} {o : StringOp} (h : Inside lo hi o) (hlo : lo' ≤ lo) (hhi : hi ≤ hi') :
    Inside lo' hi' o := by
  cases o with
  | fetch64 p | fetch32 p | char p =>
    simp only [Inside] at h ⊢
    omega
  | assert b => exact h
  | endless => exact h

theorem uses_inside_mono {lo' hi' : ℤ} {p : StringProg α} (h : p.Uses (Inside lo hi)) (hlo : lo' ≤ lo)
    (hhi : hi ≤ hi') : p.Uses (Inside lo' hi') := by
  induction p with
  | ret a => trivial
  | op o k ih => exact ⟨h.1.mono hlo hhi, fun b => ih b (h.2 b)⟩

theorem Reads.bind {mid mid' : ℤ} {p : StringProg σ} {f : σ → StringProg α} (hp : Reads p lo mid)
    (hf : ∀ a, Reads (f a) mid' hi) (hlo : lo ≤ mid') (hmid : mid' ≤ mid) (hhi : mid ≤ hi) :
    Reads (p >>= f) lo hi := by
  refine ⟨?_, fun i h1 h2 => ?_⟩
  · refine Prog.Uses.bind (uses_inside_mono hp.inside le_rfl hhi) fun a => ?_
    exact uses_inside_mono (hf a).inside hlo le_rfl
  · by_cases hi : i < mid
    · exact (hp.covers i h1 hi).bind_left _
    · exact Prog.Meets.bind_right _ fun a => (hf a).covers i (by omega) h2

theorem Reads.map {p : StringProg σ} (hp : Reads p lo hi) (g : σ → α) : Reads (p >>= fun a => .ret (g a)) lo hi :=
  ⟨Prog.Uses.bind hp.inside fun _ => trivial, fun i h1 h2 => (hp.covers i h1 h2).bind_left _⟩

@[simp] theorem fetch64_bind (p : ℤ) (f : UInt64 → StringProg α) : (fetch64 p >>= f) = .op (.fetch64 p) f := rfl

@[simp] theorem fetch32_bind (p : ℤ) (f : UInt32 → StringProg α) : (fetch32 p >>= f) = .op (.fetch32 p) f := rfl

@[simp] theorem char_bind (p : ℤ) (f : UInt8 → StringProg α) : (char p >>= f) = .op (.char p) f := rfl

@[simp] theorem assert_bind (b : Bool) (f : Unit → StringProg α) : (assert b >>= f) = .op (.assert b) f := rfl

/-! ### Short strings -/

theorem Na.hashLen0to16_reads (s : ℤ) (h : len ≤ 16) : Reads (Na.hashLen0to16 s len) s (s + len) := by
  unfold Na.hashLen0to16
  split
  · refine ⟨?_, fun i h1 h2 => ?_⟩ <;> simp <;> omega
  split
  · refine ⟨?_, fun i h1 h2 => ?_⟩ <;> simp <;> omega
  split
  · refine ⟨?_, fun i h1 h2 => ?_⟩ <;> simp <;> omega
  · refine ⟨?_, fun i h1 h2 => ?_⟩
    · simp
    · omega

theorem Na.hashLen17to32_reads (s : ℤ) (h : 16 ≤ len) (h' : len ≤ 32) :
    Reads (Na.hashLen17to32 s len) s (s + len) := by
  unfold Na.hashLen17to32
  refine ⟨?_, fun i h1 h2 => ?_⟩ <;> simp <;> omega

theorem Na.hashLen33to64_reads (s : ℤ) (h : 32 ≤ len) (h' : len ≤ 64) :
    Reads (Na.hashLen33to64 s len) s (s + len) := by
  unfold Na.hashLen33to64
  refine ⟨?_, fun i h1 h2 => ?_⟩ <;> simp <;> omega

theorem Xo.h32_reads (s : ℤ) (mul seed0 seed1 : UInt64) : Reads (Xo.h32 s 32 mul seed0 seed1) s (s + 32) := by
  unfold Xo.h32
  refine ⟨?_, fun i h1 h2 => ?_⟩ <;> simp <;> omega

theorem Xo.h32_reads_end (s : ℤ) (mul seed0 seed1 : UInt64) :
    Reads (Xo.h32 (s + len - 32) 32 mul seed0 seed1) (s + len - 32) (s + len) := by
  have h := Xo.h32_reads (s + len - 32) mul seed0 seed1
  rwa [sub_add_cancel] at h

theorem Xo.hashLen33to64_reads (s : ℤ) (h : 32 ≤ len) (h' : len ≤ 64) :
    Reads (Xo.hashLen33to64 s len) s (s + len) := by
  refine (Xo.h32_reads s _ _ _).bind (fun h0 => (Xo.h32_reads_end s _ _ _).map _) ?_ ?_ ?_ <;> omega

theorem Xo.hashLen65to96_reads (s : ℤ) (h : 64 ≤ len) (h' : len ≤ 96) :
    Reads (Xo.hashLen65to96 s len) s (s + len) := by
  refine (Xo.h32_reads s _ _ _).bind (fun h0 => ?_) (by omega) le_rfl (by omega)
  refine (Xo.h32_reads (s + 32) _ _ _).bind (fun h1 => (Xo.h32_reads_end s _ _ _).map _) ?_ ?_ ?_ <;> omega

/-! ### Long strings -/

/-- A loop whose rounds read blocks of 64 bytes reads the bytes up to its end, and comes to it. -/
theorem doWhile_reads {body : ℤ → σ → StringProg σ} (hbody : ∀ s st, Reads (body s st) s (s + 64)) (n : ℕ)
    {fuel : ℕ} (hfuel : n < fuel) (hend : end' = s + 64 * (n + 1 : ℕ)) (st : σ) :
    Reads (doWhile body end' fuel s st) s end' := by
  induction fuel generalizing n s st with
  | zero => omega
  | succ fuel ih =>
    unfold doWhile
    by_cases hs : s + 64 ≠ end'
    · -- there is another round
      obtain ⟨m, rfl⟩ : ∃ m, n = m + 1 := ⟨n - 1, by omega⟩
      have hrest (st : σ) : Reads (doWhile body end' fuel (s + 64) st) (s + 64) end' :=
        ih m (by omega) (by omega) st
      simp only [if_pos hs]
      exact (hbody s st).bind hrest (by omega) le_rfl (by omega)
    · rw [not_not] at hs
      subst hs
      simp only [ne_eq, not_true_eq_false, if_false]
      exact (hbody s st).map _

theorem Na.round_reads (s : ℤ) (st : Na.State) : Reads (Na.round s st) s (s + 64) := by
  unfold Na.round Na.weakHashLen32WithSeeds
  refine ⟨?_, fun i h1 h2 => ?_⟩ <;> simp <;> omega

theorem Na.last_reads (s : ℤ) (st : Na.State) : Reads (Na.last s len st) s (s + 64) := by
  unfold Na.last Na.weakHashLen32WithSeeds
  refine ⟨?_, fun i h1 h2 => ?_⟩ <;> simp <;> omega

theorem Uo.round_reads (mul : UInt64) (s : ℤ) (st : Uo.State) : Reads (Uo.round mul s st) s (s + 64) := by
  unfold Uo.round
  refine ⟨?_, fun i h1 h2 => ?_⟩ <;> simp <;> omega

theorem Uo.last_reads (mul : UInt64) (s : ℤ) (st : Uo.State) : Reads (Uo.last mul s len st) s (s + 64) := by
  unfold Uo.last Na.weakHashLen32WithSeeds
  refine ⟨?_, fun i h1 h2 => ?_⟩ <;> simp <;> omega

theorem blocks_reads (body : ℤ → σ → StringProg σ) (tail : ℤ → σ → StringProg α)
    (hbody : ∀ s st, Reads (body s st) s (s + 64)) (htail : ∀ s st, Reads (tail s st) s (s + 64)) (h : 64 < len)
    (st : σ) :
    Reads (doWhile body (s + ((len - 1) / 64 * 64 : ℕ)) len s st >>= fun st =>
      tail (s + ((len - 1) / 64 * 64 : ℕ) + ((len - 1) % 64 : ℕ) - 63) st) s (s + len) := by
  have hlast : s + ((len - 1) / 64 * 64 : ℕ) + ((len - 1) % 64 : ℕ) - 63 = s + len - 64 := by omega
  have hblocks : Reads (doWhile body (s + ((len - 1) / 64 * 64 : ℕ)) len s st) s (s + ((len - 1) / 64 * 64 : ℕ)) :=
    doWhile_reads hbody ((len - 1) / 64 - 1) (by omega) (by omega) st
  have hend (st : σ) : Reads (tail (s + len - 64) st) (s + len - 64) (s + len) := by
    have htail' := htail (s + len - 64) st
    rwa [sub_add_cancel] at htail'
  rw [hlast]
  exact hblocks.bind hend (by omega) (by omega) (by omega)

theorem Na.hash64_reads (s : ℤ) (len : ℕ) : Reads (Na.hash64 s len) s (s + len) := by
  unfold Na.hash64
  split
  · split
    · exact Na.hashLen0to16_reads s (by omega)
    · exact Na.hashLen17to32_reads s (by omega) (by omega)
  split
  · exact Na.hashLen33to64_reads s (by omega) (by omega)
  · have hlen : 64 < len := by omega
    have hblocks (st : Na.State) := blocks_reads Na.round (fun s => Na.last s len) Na.round_reads
      (fun s => Na.last_reads s) hlen st (s := s)
    simp only [fetch64_bind, assert_bind]
    refine ⟨⟨⟨le_rfl, by omega⟩, fun a => ⟨?_, fun _ => (hblocks _).inside⟩⟩, fun i h1 h2 => ?_⟩
    · simp only [Inside, decide_eq_true_eq]
      omega
    · exact .inr fun a => .inr fun _ => (hblocks _).covers i h1 h2

theorem Na.hash64WithSeeds_reads (s : ℤ) (len : ℕ) (seed0 seed1 : UInt64) :
    Reads (Na.hash64WithSeeds s len seed0 seed1) s (s + len) := (Na.hash64_reads s len).map _

theorem Uo.hash64WithSeeds_reads (s : ℤ) (len : ℕ) (seed0 seed1 : UInt64) :
    Reads (Uo.hash64WithSeeds s len seed0 seed1) s (s + len) := by
  unfold Uo.hash64WithSeeds
  split
  · exact Na.hash64WithSeeds_reads s len seed0 seed1
  · have hlen : 64 < len := by omega
    have hblocks (mul : UInt64) (st : Uo.State) := blocks_reads (Uo.round mul) (fun s => Uo.last mul s len)
      (Uo.round_reads mul) (fun s => Uo.last_reads mul s) hlen st (s := s)
    simp only [assert_bind]
    refine ⟨⟨?_, fun _ => (hblocks _ _).inside⟩, fun i h1 h2 => ?_⟩
    · simp only [Inside, decide_eq_true_eq]
      omega
    · exact .inr fun _ => (hblocks _ _).covers i h1 h2

theorem Uo.hash64_reads (s : ℤ) (len : ℕ) : Reads (Uo.hash64 s len) s (s + len) := by
  unfold Uo.hash64
  split
  · exact Na.hash64_reads s len
  · exact Uo.hash64WithSeeds_reads s len 81 0

theorem Xo.hash64_reads (s : ℤ) (len : ℕ) : Reads (Xo.hash64 s len) s (s + len) := by
  unfold Xo.hash64
  split
  · split
    · exact Na.hashLen0to16_reads s (by omega)
    · exact Na.hashLen17to32_reads s (by omega) (by omega)
  split
  · exact Xo.hashLen33to64_reads s (by omega) (by omega)
  split
  · exact Xo.hashLen65to96_reads s (by omega) (by omega)
  split
  · exact Na.hash64_reads s len
  · exact Uo.hash64_reads s len

theorem hash64_reads (debugMode : Bool) (s : ℤ) (len : ℕ) : Reads (hash64 debugMode s len) s (s + len) :=
  (Xo.hash64_reads s len).map _

/-! ### Memory -/

variable {mem mem' : Memory}

theorem bytesAt_ok {p : ℤ} {n : ℕ} (h : ∀ i : ℤ, p ≤ i → i < p + n → mem i ≠ none) :
    ∃ bytes, bytesAt mem p n = .ok bytes := by
  induction n generalizing p with
  | zero => exact ⟨[], rfl⟩
  | succ n ih =>
    obtain ⟨b, hb⟩ := Option.ne_none_iff_exists'.1 (h p le_rfl (by omega))
    obtain ⟨bytes, hbytes⟩ := ih (p := p + 1) fun i h1 h2 => h i (by omega) (by omega)
    exact ⟨b :: bytes, by simp [bytesAt, hb, hbytes]⟩

theorem bytesAt_ok_or (mem : Memory) (p : ℤ) (n : ℕ) :
    (∃ bytes, bytesAt mem p n = .ok bytes) ∨ bytesAt mem p n = .error .overrun := by
  induction n generalizing p with
  | zero => exact .inl ⟨[], rfl⟩
  | succ n ih =>
    rw [bytesAt]
    cases mem p with
    | none => exact .inr rfl
    | some b =>
      rcases ih (p + 1) with ⟨bytes, hbytes⟩ | he
      · exact .inl ⟨b :: bytes, by simp [hbytes]⟩
      · exact .inr (by simp [he])

theorem ne_none_of_bytesAt {p : ℤ} {n : ℕ} {bytes : Bytes} (h : bytesAt mem p n = .ok bytes) (hi : p ≤ i)
    (hi' : i < p + n) : mem i ≠ none := by
  induction n generalizing p bytes with
  | zero => omega
  | succ n ih =>
    rw [bytesAt] at h
    cases hp : mem p with
    | none =>
      rw [hp] at h
      cases h
    | some b =>
      rw [hp] at h
      by_cases hpi : p = i
      · subst hpi
        simp [hp]
      · cases hrest : bytesAt mem (p + 1) n with
        | error e => simp [hrest] at h
        | ok rest => exact ih hrest (by omega) (by omega)

theorem bytesAt_congr {p : ℤ} {n : ℕ} (h : ∀ i : ℤ, p ≤ i → i < p + n → mem i = mem' i) :
    bytesAt mem p n = bytesAt mem' p n := by
  induction n generalizing p with
  | zero => rfl
  | succ n ih =>
    have hrest : bytesAt mem (p + 1) n = bytesAt mem' (p + 1) n := ih fun i h1 h2 => h i (by omega) (by omega)
    rw [bytesAt, bytesAt, h p le_rfl (by omega), hrest]

/-! ### Operations -/

variable {o : StringOp}

theorem exists_read {e : Except HashFault Bytes} (h : ∃ bytes, e = .ok bytes) (f : Bytes → α) :
    ∃ a, (do return f (← e)) = (.ok a : Except HashFault α) := by
  obtain ⟨bytes, rfl⟩ := h
  exact ⟨f bytes, rfl⟩

theorem exists_read_or {e : Except HashFault Bytes} (h : (∃ bytes, e = .ok bytes) ∨ e = .error .overrun)
    (f : Bytes → α) :
    (∃ a, (do return f (← e)) = (.ok a : Except HashFault α)) ∨ (do return f (← e)) = .error .overrun := by
  rcases h with h | rfl
  · exact .inl (exists_read h f)
  · exact .inr rfl

theorem read_congr {e e' : Except HashFault Bytes} (h : e = e') (f : Bytes → α) :
    (do return f (← e)) = (do return f (← e') : Except HashFault α) := by
  rw [h]

theorem of_read {e : Except HashFault Bytes} {f : Bytes → α} {a : α} (h : (do return f (← e)) = .ok a) :
    ∃ bytes, e = .ok bytes := by
  cases e with
  | error e => cases h
  | ok bytes => exact ⟨bytes, rfl⟩

theorem perform_ok (ho : Inside lo hi o) (h : ∀ i, lo ≤ i → i < hi → mem i ≠ none) :
    ∃ a, o.perform mem = .ok a := by
  cases o with
  | fetch64 p | fetch32 p | char p =>
    simp only [Inside] at ho
    exact exists_read (bytesAt_ok fun i h1 h2 => h i (by omega) (by omega)) _
  | assert b => exact ⟨(), if_pos ho⟩
  | endless => exact ho.elim

theorem perform_ok_or (ho : Inside lo hi o) : (∃ a, o.perform mem = .ok a) ∨ o.perform mem = .error .overrun := by
  cases o with
  | fetch64 p | fetch32 p | char p => exact exists_read_or (bytesAt_ok_or mem p _) _
  | assert b => exact .inl ⟨(), if_pos ho⟩
  | endless => exact ho.elim

theorem perform_congr (ho : Inside lo hi o) (h : ∀ i, lo ≤ i → i < hi → mem i = mem' i) :
    o.perform mem = o.perform mem' := by
  cases o with
  | fetch64 p | fetch32 p | char p =>
    simp only [Inside] at ho
    exact read_congr (bytesAt_congr fun i h1 h2 => h i (by omega) (by omega)) _
  | assert b => rfl
  | endless => rfl

theorem ne_none_of_perform (ho : Covers i o) {a : o.Ans} (h : o.perform mem = .ok a) : mem i ≠ none := by
  cases o with
  | fetch64 p | fetch32 p | char p =>
    obtain ⟨bytes, hbytes⟩ := of_read h
    simp only [Covers] at ho
    exact ne_none_of_bytesAt hbytes (by omega) (by omega)
  | assert b => exact ho.elim
  | endless => exact ho.elim

/-- **The hash of a string is computed from its bytes**, whatever their number: it is found if each of them can be
read, a read fails if one of them cannot, and nothing else in memory plays a part. -/
theorem hash64_of_bytes (debugMode : Bool) (s : ℤ) (len : ℕ) (mem : Memory) :
    ((∃ hash, (hash64 debugMode s len).eval (StringOp.perform mem) = .ok hash) ↔
      ∀ i, s ≤ i → i < s + len → mem i ≠ none) ∧
    ((∃ i, s ≤ i ∧ i < s + len ∧ mem i = none) →
      (hash64 debugMode s len).eval (StringOp.perform mem) = .error .overrun) ∧
    ∀ mem' : Memory, (∀ i, s ≤ i → i < s + len → mem i = mem' i) →
      (hash64 debugMode s len).eval (StringOp.perform mem) =
        (hash64 debugMode s len).eval (StringOp.perform mem') := by
  have hr := hash64_reads debugMode s len
  have hread (hash : UInt64) (hhash : (hash64 debugMode s len).eval (StringOp.perform mem) = .ok hash) (i : ℤ)
      (h1 : s ≤ i) (h2 : i < s + len) : mem i ≠ none := by
    obtain ⟨o, ho, a, ha⟩ := (hr.covers i h1 h2).eval hhash
    exact ne_none_of_perform ho ha
  refine ⟨⟨fun ⟨hash, hhash⟩ => hread hash hhash, fun hmem => ?_⟩, fun ⟨i, h1, h2, hi⟩ => ?_, fun mem' h => ?_⟩
  · exact hr.inside.eval_ok fun o ho => perform_ok ho hmem
  · rcases hr.inside.eval_ok_or fun o ho => perform_ok_or ho with ⟨hash, hhash⟩ | he
    · exact absurd hi (hread hash hhash i h1 h2)
    · exact he
  · exact hr.inside.eval_congr fun o ho => perform_congr ho h

/-! ### Names -/

theorem strlen_append {name : Bytes} (h : 0 ∉ name) (rest : Bytes) :
    strlen (name ++ 0 :: rest) = .ok name.length := by
  induction name with
  | nil => rfl
  | cons b name ih =>
    have hb : b ≠ 0 := fun hb => h (by simp [hb])
    have hrest := ih fun h' => h (by simp [h'])
    simp [strlen, hb, hrest]

theorem strlen_overrun {bytes : Bytes} (h : 0 ∉ bytes) : strlen bytes = .error .overrun := by
  induction bytes with
  | nil => rfl
  | cons b bytes ih =>
    have hb : b ≠ 0 := fun hb => h (by simp [hb])
    have hrest := ih fun h' => h (by simp [h'])
    simp [strlen, hb, hrest]

theorem memoryOf_append {name : Bytes} (rest : Bytes) {i : ℤ} (h : 0 ≤ i) (h' : i < name.length) :
    memoryOf (name ++ rest) i = memoryOf name i := by
  simp only [memoryOf, if_pos h]
  exact List.getElem?_append_left (by omega)

/-- **The hash of a name** is found for every string that is terminated: it is the hash of the characters in front of
the terminator, with nothing after them in memory; without a terminator memory is read to its end. -/
theorem hyscanHash64_of_name (debugMode : Bool) : ∃ hash : Bytes → UInt64,
    (∀ name : Bytes, (hash64 debugMode 0 name.length).eval (StringOp.perform (memoryOf name)) = .ok (hash name)) ∧
    (∀ rest (name : Option Bytes), (∀ s, name = some s → 0 ∉ s) →
      Farmhash.hyscanHash64 debugMode (name.map fun s => s ++ 0 :: rest) = .ok (HyScanCache.hyscanHash64 hash name)) ∧
    ∀ bytes, 0 ∉ bytes → Farmhash.hyscanHash64 debugMode (some bytes) = .error .overrun := by
  have hname (name : Bytes) :
      ∃ hash, (hash64 debugMode 0 name.length).eval (StringOp.perform (memoryOf name)) = .ok hash := by
    refine (hash64_of_bytes debugMode 0 name.length (memoryOf name)).1.2 fun i h1 h2 => ?_
    simp only [memoryOf, if_pos h1, ne_eq, List.getElem?_eq_none_iff]
    omega
  choose hash hhash using hname
  refine ⟨hash, hhash, fun rest name h => ?_, fun bytes h => ?_⟩
  · cases name with
    | none => rfl
    | some name =>
      have hcongr := (hash64_of_bytes debugMode 0 name.length (memoryOf (name ++ 0 :: rest))).2.2 (memoryOf name)
        fun i h1 h2 => memoryOf_append _ h1 (by omega)
      rw [Option.map_some, Farmhash.hyscanHash64, strlen_append (h name rfl)]
      exact hcongr.trans (hhash name)
  · rw [Farmhash.hyscanHash64, strlen_overrun h]
    rfl

/-- Two strings of the self-test in `farmhash.cc`, with the hashes it expects. -/
example : hyscanHash64 false (some [113, 18, 187, 219, 73, 199, 187, 16, 80, 0]) = .ok 0xfb8d9c70660b910b := by decide

example : hyscanHash64 false (some [114, 246, 57, 89, 253, 152, 90, 54, 72, 13, 253, 154, 71, 79, 146, 69, 20, 35,
    45, 210, 0]) = .ok 0x4182832b52d63735 := by decide +kernel

end HyScanCache.Farmhash
