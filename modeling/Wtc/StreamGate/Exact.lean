import Mathlib.Tactic
import Wtc.StreamGate.Model

/-!
# The stream gate's words do not wrap

As long as no catch-up brings more than `most` elements, the sums stay below
`4 * 2 ^ kFrac * most + 259`: a sample makes up for what one filled probe adds, and there is no
second filled probe before a sample, because a gate whose time was dropped reads a stream.
-/

namespace Wtc.StreamGate

/-! ## The probe counters -/

/-- What holds of the counters whatever the sums are. -/
structure Exact.Paced (e : Exact) : Prop where
  probe_lt : e.probe < e.probeEvery
  every : ∃ k, 8 ≤ k ∧ k ≤ 16 ∧ e.probeEvery = 2 ^ k
  openRun_le : e.openRun ≤ kStayOpen

variable {e : Exact}

theorem Exact.Paced.every_le (h : e.Paced) : e.probeEvery ≤ kProbeMax := by
  obtain ⟨k, -, hk, he⟩ := h.every
  rw [he]
  exact Nat.pow_le_pow_right (n := 2) (by decide) hk

theorem Exact.Paced.le_every (h : e.Paced) : kProbeEvery ≤ e.probeEvery := by
  obtain ⟨k, hk, -, he⟩ := h.every
  rw [he]
  exact Nat.pow_le_pow_right (n := 2) (by decide) hk

theorem Exact.init_paced : Exact.init.Paced :=
  ⟨by decide, ⟨8, by decide, by decide, rfl⟩, by decide⟩

theorem Exact.Paced.opened (h : e.Paced) : e.opened.Paced := by
  have hpos : 0 < e.probeEvery := Nat.lt_of_le_of_lt (Nat.zero_le _) h.probe_lt
  unfold Exact.opened
  split
  · next ho =>
    refine ⟨?_, ?_, ho⟩
    · show 0 < if e.openRun + 1 = kStayOpen then kProbeEvery else e.probeEvery
      split
      · decide
      · exact hpos
    · show ∃ k, 8 ≤ k ∧ k ≤ 16 ∧
        (if e.openRun + 1 = kStayOpen then kProbeEvery else e.probeEvery) = 2 ^ k
      split
      · exact ⟨8, by decide, by decide, rfl⟩
      · exact h.every
  · exact ⟨hpos, h.every, h.openRun_le⟩

/-- A probe doubles the count to the next one. -/
theorem Exact.Paced.doubled (h : e.Paced) (b : Bool) :
    Exact.Paced { e with openRun := 0, probe := 0, probeEvery := min (2 * e.probeEvery) kProbeMax,
                         probing := b } := by
  obtain ⟨k, hk, hk', he⟩ := h.every
  refine ⟨?_, ?_, Nat.zero_le _⟩
  · show 0 < min (2 * e.probeEvery) kProbeMax
    rw [lt_min_iff]
    exact ⟨by have := h.probe_lt; omega, by decide⟩
  · show ∃ k, 8 ≤ k ∧ k ≤ 16 ∧ min (2 * e.probeEvery) kProbeMax = 2 ^ k
    rcases Nat.lt_or_ge k 16 with hlt | hge
    · refine ⟨k + 1, by omega, hlt, ?_⟩
      rw [he, ← Nat.pow_succ', min_eq_left]
      exact Nat.pow_le_pow_right (by decide) hlt
    · obtain rfl : k = 16 := by omega
      exact ⟨16, by decide, by decide, by rw [he]; decide⟩

/-- What a catch-up does after its sample, of the numbers. -/
def Exact.settle (stream : Bool) (e : Exact) : Reading × Exact :=
  if stream then (.stream, e.opened)
  else if e.probeEvery ≤ e.probe + 1 then
    (.probe, { e with openRun := 0, probe := 0, probeEvery := min (2 * e.probeEvery) kProbeMax,
                      probing := true })
  else (.quiet, { e with openRun := 0, probe := e.probe + 1 })

theorem Exact.catchUp_eq (rate arrived now : Nat) (e : Exact) :
    e.catchUp rate arrived now =
      (e.sample arrived now).settle ((e.sample arrived now).ReadsStream rate) := by
  unfold Exact.catchUp Exact.settle
  simp only [decide_eq_true_eq]

theorem Exact.Paced.settle (h : e.Paced) (stream : Bool) : (e.settle stream).2.Paced := by
  unfold Exact.settle
  split
  · exact h.opened
  · split
    · exact h.doubled true
    · next hlt => exact ⟨Nat.lt_of_not_le hlt, h.every, Nat.zero_le _⟩

/-! ## The sums -/

/-- The most that the sums hold when no catch-up brings more than `most` elements. -/
structure Exact.Bounded (most : Nat) (e : Exact) : Prop where
  tSum_le : e.tSum ≤ 2 ^ 38 + 3
  aSum_le : e.aSum ≤ 64 * most + 259
  /-- The seed of a filled probe is in the sum only until the next sample that takes time. -/
  unseeded : e.tSum ≠ 0 → e.aSum ≤ 64 * most + 195
  /-- A gate that probes has not read a stream. -/
  probing : e.probing → e.tSum ≠ 0 ∨ e.aSum = 0

theorem decay_le {sum gain b : Nat} (hs : sum ≤ 64 * b + 259) (hg : gain ≤ b) :
    decay sum gain ≤ 64 * b + 195 := by
  unfold decay kFrac; omega

theorem decay_time_le {sum gain : Nat} (hs : sum ≤ 2 ^ 38 + 3) (hg : gain ≤ kMaxInterval) :
    decay sum gain ≤ 2 ^ 38 + 3 := by
  unfold decay kFrac; unfold kMaxInterval at hg; omega

variable {most : Nat}

theorem Exact.init_bounded : Exact.init.Bounded most :=
  ⟨by decide, Nat.zero_le _, fun _ => Nat.zero_le _, fun h => nomatch h⟩

theorem Exact.Bounded.sample (h : e.Bounded most) {arrived : Nat} (now : Nat)
    (ha : arrived ≤ most) : (e.sample arrived now).Bounded most := by
  unfold Exact.sample
  split
  · have hle := decay_le h.aSum_le ha
    exact ⟨decay_time_le h.tSum_le (Nat.min_le_right _ _), Nat.le_trans hle (by omega),
      fun _ => hle, fun hp => nomatch hp⟩
  · exact ⟨h.tSum_le, h.aSum_le, h.unseeded, fun hp => nomatch hp⟩

theorem Exact.Bounded.congr {e' : Exact} (h : e.Bounded most) (ht : e'.tSum = e.tSum)
    (ha : e'.aSum = e.aSum) (hp : e'.probing → e'.tSum ≠ 0 ∨ e'.aSum = 0) : e'.Bounded most :=
  ⟨by rw [ht]; exact h.tSum_le, by rw [ha]; exact h.aSum_le,
    by rw [ht, ha]; exact h.unseeded, hp⟩

theorem Exact.sample_probing (arrived now : Nat) (e : Exact) :
    (e.sample arrived now).probing = false := by
  unfold Exact.sample; split <;> rfl

/-- A gate without a time sum reads a stream as soon as anything has arrived. -/
theorem Exact.ReadsStream.of_tSum {rate : Nat} (ht : e.tSum = 0) (ha : e.aSum ≠ 0) :
    e.ReadsStream rate := by
  refine ⟨ha, ?_⟩
  rw [ht, Nat.cast_zero, zero_div, zero_div]
  positivity

theorem Exact.opened_tSum (e : Exact) : e.opened.tSum = e.tSum := by
  unfold Exact.opened; split <;> rfl

theorem Exact.opened_aSum (e : Exact) : e.opened.aSum = e.aSum := by
  unfold Exact.opened; split <;> rfl

theorem Exact.opened_probing (e : Exact) : e.opened.probing = e.probing := by
  unfold Exact.opened; split <;> rfl

theorem Exact.Bounded.catchUp (h : e.Bounded most) {arrived : Nat} (rate now : Nat)
    (ha : arrived ≤ most) : (e.catchUp rate arrived now).2.Bounded most := by
  have hs := h.sample now ha
  have hp := e.sample_probing arrived now
  rw [Exact.catchUp_eq]
  generalize e.sample arrived now = s at hs hp ⊢
  unfold Exact.settle
  split
  · refine hs.congr (opened_tSum s) (opened_aSum s) fun hb => ?_
    rw [opened_probing, hp] at hb
    cases hb
  · next hno =>
    split
    · refine hs.congr rfl rfl fun _ => ?_
      by_contra hc
      rw [not_or, not_not] at hc
      exact hno (decide_eq_true (ReadsStream.of_tSum hc.1 hc.2))
    · exact hs.congr rfl rfl fun hb => absurd (hp.symm.trans hb) (by decide)

theorem Exact.Bounded.waited (h : e.Bounded most) (filled : Bool) :
    (e.waited filled).Bounded most := by
  unfold Exact.waited
  split
  · next hp =>
    -- what a probe seeds comes on top of a sum that holds no other seed
    have hle : e.aSum ≤ 64 * most + 195 := by
      rcases h.probing hp.1 with ht | ha
      · exact h.unseeded ht
      · rw [ha]; exact Nat.zero_le _
    refine ⟨Nat.zero_le _, ?_, fun ht => absurd rfl ht, fun hb => nomatch hb⟩
    show e.aSum + kProbeSeed * 2 ^ kFrac ≤ _
    unfold kProbeSeed kFrac
    omega
  · exact ⟨h.tSum_le, h.aSum_le, h.unseeded, fun hb => nomatch hb⟩

/-! ## The words -/

variable {g : Gate}

/-- The rate that the threshold stands for: the one given, or the one measured on first use. -/
def ticksPerMs (rate measured : BitVec 64) : BitVec 64 := if rate = 0 then measured else rate

theorem shr_two (x : BitVec 64) : (x >>> 2).toNat = x.toNat / 4 := by
  rw [BitVec.toNat_ushiftRight, Nat.shiftRight_eq_div_pow]

theorem shl_frac {x : BitVec 64} (h : x.toNat * 16 < 2 ^ 64) :
    (x <<< kFrac).toNat = x.toNat * 2 ^ kFrac := by
  unfold kFrac
  rw [BitVec.toNat_shiftLeft, Nat.shiftLeft_eq, Nat.mod_eq_of_lt]
  omega

/-- A word that loses a quarter and gains what came in. -/
theorem decay_toNat {sum gain : BitVec 64} (hg : gain.toNat * 16 < 2 ^ 64)
    (h : decay sum.toNat gain.toNat < 2 ^ 64) :
    (sum - sum >>> 2 + gain <<< kFrac).toNat = decay sum.toNat gain.toNat := by
  have hle : sum.toNat / 4 ≤ sum.toNat := Nat.div_le_self _ _
  unfold decay at h ⊢
  rw [BitVec.toNat_add, BitVec.toNat_sub_of_le, shr_two, shl_frac hg, Nat.mod_eq_of_lt h]
  rw [BitVec.le_def, shr_two]
  exact hle

theorem interval_toNat {now : BitVec 64} (h : g.t ≤ now) :
    (g.interval now).toNat = min (now.toNat - g.t.toNat) kMaxInterval := by
  have hdt : (now - g.t).toNat = now.toNat - g.t.toNat := BitVec.toNat_sub_of_le h
  have hk : ((kMaxInterval : Nat) : BitVec 64).toNat = kMaxInterval := by decide
  unfold Gate.interval
  dsimp only
  split
  · next hlt =>
    rw [BitVec.lt_def, hdt, hk] at hlt
    rw [hk, min_eq_right hlt.le]
  · next hge =>
    rw [BitVec.not_lt, BitVec.le_def, hdt, hk] at hge
    rw [hdt, min_eq_left hge]

section Words

variable {rate measured : BitVec 64}

/-- What `should_wait_at` finds in `thr_`. -/
def Gate.Rated (rate measured : BitVec 64) (g : Gate) : Prop :=
  g.thr = kStreamNs * rate ∨ g.thr = kStreamNs * ticksPerMs rate measured

/-- The products of the stream test fit in a word. -/
structure Fits (most : Nat) (rate measured : BitVec 64) : Prop where
  sum : 64 * most + 259 < 2 ^ 64
  product : kStreamNs * (ticksPerMs rate measured).toNat * (64 * most + 259) < 2 ^ 64

theorem Fits.thr_toNat (hf : Fits most rate measured) :
    ((kStreamNs : BitVec 64) * ticksPerMs rate measured).toNat =
      kStreamNs * (ticksPerMs rate measured).toNat := by
  have hk : ((kStreamNs : Nat) : BitVec 64).toNat = kStreamNs := by decide
  rw [BitVec.toNat_mul, hk, Nat.mod_eq_of_lt]
  exact Nat.lt_of_le_of_lt (Nat.le_mul_of_pos_right _ (by omega)) hf.product

theorem Gate.ofRate_rated : (Gate.ofRate rate).Rated rate measured := .inl rfl

/-- A rate that is given makes a threshold that is not 0. -/
theorem Gate.Rated.sample_thr (h : g.Rated rate measured) (hf : Fits most rate measured)
    (arrived now : BitVec 64) :
    (g.sample measured arrived now).thr = kStreamNs * ticksPerMs rate measured := by
  have hthr : (g.sample measured arrived now).thr =
      if g.thr = 0 then kStreamNs * measured else g.thr := by
    unfold Gate.sample
    dsimp only
    split <;> rfl
  rw [hthr]
  by_cases hr : rate = 0
  · have he : ticksPerMs rate measured = measured := if_pos hr
    rw [he]
    split
    · rfl
    · next hne =>
      rcases h with h | h
      · exact absurd (by rw [h, hr]; rfl) hne
      · rw [h, he]
  · have he : ticksPerMs rate measured = rate := if_neg hr
    have hg : g.thr = kStreamNs * ticksPerMs rate measured := by
      rcases h with h | h
      · rw [h, he]
      · exact h
    have hne : g.thr ≠ 0 := by
      intro h0
      have hn := hf.thr_toNat
      rw [← hg, h0, he] at hn
      have hz : rate.toNat = 0 := by
        have : kStreamNs * rate.toNat = 0 := hn.symm
        unfold kStreamNs at this
        omega
      exact hr (BitVec.eq_of_toNat_eq hz)
    rw [if_neg hne, hg]

theorem sample_exact (hf : Fits most rate measured) (hb : g.exact.Bounded most)
    {arrived : BitVec 64} (ha : arrived.toNat ≤ most) (now : BitVec 64) :
    (g.sample measured arrived now).exact = g.exact.sample arrived.toNat now.toNat := by
  have hsum := hf.sum
  have hat := hb.sample now.toNat ha
  unfold Gate.sample Exact.sample at *
  dsimp only at *
  by_cases hc : g.started ∧ g.t ≤ now
  · have hc' : g.exact.started ∧ g.exact.t ≤ now.toNat := hc
    rw [if_pos hc'] at hat
    rw [if_pos hc, if_pos hc']
    have hi := interval_toNat hc.2
    have hm : min (now.toNat - g.t.toNat) kMaxInterval ≤ kMaxInterval := Nat.min_le_right _ _
    have ht : (g.tSum - g.tSum >>> 2 + g.interval now <<< kFrac).toNat =
        decay g.tSum.toNat (min (now.toNat - g.t.toNat) kMaxInterval) := by
      rw [← hi]
      apply decay_toNat
      · rw [hi]; unfold kMaxInterval at *; omega
      · rw [hi]
        exact Nat.lt_of_le_of_lt hat.tSum_le (by norm_num)
    have hA : (g.aSum - g.aSum >>> 2 + arrived <<< kFrac).toNat =
        decay g.aSum.toNat arrived.toNat := by
      apply decay_toNat
      · omega
      · exact Nat.lt_of_le_of_lt hat.aSum_le hsum
    unfold Gate.exact
    rw [Exact.mk.injEq]
    exact ⟨rfl, rfl, ht, hA, rfl, rfl, rfl, rfl⟩
  · have hc' : ¬ (g.exact.started ∧ g.exact.t ≤ now.toNat) := hc
    rw [if_neg hc, if_neg hc']
    rfl

/-- The comparison of the products is that of the fractions. -/
theorem readsStream_iff (hf : Fits most rate measured) (hb : g.exact.Bounded most)
    (ht : g.thr = kStreamNs * ticksPerMs rate measured) :
    g.readsStream = true ↔ g.exact.ReadsStream (ticksPerMs rate measured).toNat := by
  have hmul : (g.tSum * 1000000).toNat = g.tSum.toNat * 1000000 := by
    have hle : g.tSum.toNat ≤ 2 ^ 38 + 3 := hb.tSum_le
    rw [BitVec.toNat_mul]
    apply Nat.mod_eq_of_lt
    show g.tSum.toNat * 1000000 < 2 ^ 64
    omega
  have hthr : (g.thr * g.aSum).toNat =
      kStreamNs * (ticksPerMs rate measured).toNat * g.aSum.toNat := by
    rw [BitVec.toNat_mul, ht, hf.thr_toNat, Nat.mod_eq_of_lt]
    exact Nat.lt_of_le_of_lt (Nat.mul_le_mul_left _ hb.aSum_le) hf.product
  have hne : g.aSum ≠ 0 ↔ g.aSum.toNat ≠ 0 := by
    rw [not_iff_not, BitVec.toNat_eq]
    rfl
  unfold Gate.readsStream Exact.ReadsStream
  rw [decide_eq_true_eq, hne, BitVec.le_def, hmul, hthr]
  refine and_congr_right fun ha => ?_
  have hpos : (0 : ℚ) < g.aSum.toNat := by
    exact_mod_cast Nat.pos_of_ne_zero ha
  show _ ↔ (g.tSum.toNat / 2 ^ kFrac : ℚ) / (g.aSum.toNat / 2 ^ kFrac) ≤ _
  rw [div_div_div_cancel_right₀ (by positivity), div_le_div_iff₀ hpos (by norm_num)]
  exact_mod_cast Iff.rfl

theorem opened_exact (h : g.exact.Paced) : g.opened.exact = g.exact.opened := by
  have hle : g.openRun.toNat ≤ 8 := h.openRun_le
  have hk : ((kStayOpen : Nat) : BitVec 32).toNat = kStayOpen := by decide
  have hadd : (g.openRun + 1).toNat = g.openRun.toNat + 1 := by
    rw [BitVec.toNat_add]
    apply Nat.mod_eq_of_lt
    show g.openRun.toNat + 1 < 2 ^ 32
    omega
  have heq : g.openRun + 1 = (kStayOpen : BitVec 32) ↔ g.exact.openRun + 1 = kStayOpen := by
    rw [BitVec.toNat_eq, hadd, hk]
    rfl
  have hevery : (if g.openRun + 1 = (kStayOpen : BitVec 32) then (kProbeEvery : BitVec 32)
      else g.probeEvery).toNat =
        if g.exact.openRun + 1 = kStayOpen then kProbeEvery else g.exact.probeEvery := by
    by_cases he : g.openRun + 1 = (kStayOpen : BitVec 32)
    · rw [if_pos he, if_pos (heq.1 he)]
      rfl
    · rw [if_neg he, if_neg (mt heq.2 he)]
      rfl
  have hlt : g.openRun < (kStayOpen : BitVec 32) ↔ g.exact.openRun < kStayOpen := by
    rw [BitVec.lt_def, hk]
    rfl
  unfold Gate.opened Exact.opened
  by_cases ho : g.openRun < (kStayOpen : BitVec 32)
  · rw [if_pos ho, if_pos (hlt.1 ho)]
    unfold Gate.exact at hevery ⊢
    rw [Exact.mk.injEq]
    exact ⟨rfl, rfl, rfl, rfl, rfl, hevery, hadd, rfl⟩
  · rw [if_neg ho, if_neg (mt hlt.2 ho)]
    rfl

theorem probed_exact (h : g.exact.Paced) :
    g.probed.exact =
      { g.exact with openRun := 0, probe := 0,
                     probeEvery := min (2 * g.exact.probeEvery) kProbeMax, probing := true } := by
  have hle : g.probeEvery.toNat ≤ 65536 := h.every_le
  have hk : ((kProbeMax : Nat) : BitVec 32).toNat = 65536 := by decide
  have hmul : (g.probeEvery * 2).toNat = g.probeEvery.toNat * 2 := by
    rw [BitVec.toNat_mul]
    apply Nat.mod_eq_of_lt
    show g.probeEvery.toNat * 2 < 2 ^ 32
    omega
  have hevery : (if g.probeEvery < (kProbeMax : BitVec 32) then g.probeEvery * 2
      else g.probeEvery).toNat = min (2 * g.probeEvery.toNat) kProbeMax := by
    obtain ⟨k, -, hk16, he⟩ := h.every
    replace he : g.probeEvery.toNat = 2 ^ k := he
    split
    · next hlt =>
      rw [BitVec.lt_def, hk] at hlt
      rw [hmul, Nat.mul_comm, min_eq_left]
      have hklt : k < 16 := by
        by_contra hge
        obtain rfl : k = 16 := by omega
        rw [he] at hlt
        exact absurd hlt (by decide)
      rw [he, ← Nat.pow_succ']
      exact Nat.pow_le_pow_right (n := 2) (by decide) hklt
    · next hge =>
      rw [BitVec.lt_def, hk] at hge
      have : g.probeEvery.toNat = 65536 := by omega
      rw [this]
      decide
  unfold Gate.probed Gate.exact
  rw [Exact.mk.injEq]
  exact ⟨rfl, rfl, rfl, rfl, rfl, hevery, rfl, rfl⟩

theorem probe_succ_toNat (h : g.exact.Paced) : (g.probe + 1).toNat = g.probe.toNat + 1 := by
  have hlt : g.probe.toNat < g.probeEvery.toNat := h.probe_lt
  have hle : g.probeEvery.toNat ≤ 65536 := h.every_le
  rw [BitVec.toNat_add]
  apply Nat.mod_eq_of_lt
  show g.probe.toNat + 1 < 2 ^ 32
  omega

/-- What a catch-up does after its sample, when the gate reads `stream`. -/
def Gate.settle (stream : Bool) (g : Gate) : Reading × Gate :=
  if stream then (.stream, g.opened)
  else if g.probeEvery ≤ g.probe + 1 then (.probe, g.probed)
  else (.quiet, { g with openRun := 0, probe := g.probe + 1 })

theorem Gate.opened_probing (g : Gate) : g.opened.probing = g.probing := by
  unfold Gate.opened; split <;> rfl

theorem Gate.sample_probing (measured arrived now : BitVec 64) (g : Gate) :
    (g.sample measured arrived now).probing = false := by
  unfold Gate.sample
  dsimp only
  split <;> rfl

theorem Gate.catchUp_eq (measured arrived now : BitVec 64) (g : Gate) :
    g.catchUp measured arrived now =
      (g.sample measured arrived now).settle (g.sample measured arrived now).readsStream := by
  have hp := Gate.sample_probing measured arrived now g
  unfold Gate.catchUp Gate.shouldWaitAt Gate.settle
  generalize g.sample measured arrived now = s at hp
  dsimp only
  by_cases hs : s.readsStream = true
  · rw [if_pos hs, if_pos hs]
    simp [Gate.opened_probing, hp]
  · rw [if_neg hs, if_neg hs]
    split
    · rfl
    · rfl

theorem settle_exact (h : g.exact.Paced) (stream : Bool) :
    (g.settle stream).1 = (g.exact.settle stream).1 ∧
      (g.settle stream).2.exact = (g.exact.settle stream).2 := by
  have hle : g.probeEvery ≤ g.probe + 1 ↔ g.exact.probeEvery ≤ g.exact.probe + 1 := by
    rw [BitVec.le_def, probe_succ_toNat h]
    rfl
  unfold Gate.settle Exact.settle
  cases stream with
  | true => exact ⟨rfl, opened_exact h⟩
  | false =>
    simp only [Bool.false_eq_true, if_false]
    by_cases hc : g.probeEvery ≤ g.probe + 1
    · rw [if_pos hc, if_pos (hle.1 hc)]
      exact ⟨rfl, probed_exact h⟩
    · rw [if_neg hc, if_neg (mt hle.2 hc)]
      refine ⟨rfl, ?_⟩
      unfold Gate.exact
      rw [Exact.mk.injEq]
      exact ⟨rfl, rfl, rfl, rfl, probe_succ_toNat h, rfl, rfl, rfl⟩

end Words

end Wtc.StreamGate
