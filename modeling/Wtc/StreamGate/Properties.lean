import Mathlib.Data.BitVec
import Wtc.StreamGate.Exact

/-!
# What the stream gate reads

* `run_exact`: the gate's words hold what the exact gate's numbers are, and the two read the same,
  for every sequence of calls whose products fit in a word
* `probe_of_quiet`, `probes_le`: how often a gate probes that does not read a stream
* `lowered_after_streams`: when the probes come closer together again
-/

namespace Wtc.StreamGate

variable {most : Nat} {rate measured : BitVec 64} {g : Gate}

/-! ## The counters of a run -/

theorem Gate.sample_counters (measured arrived now : BitVec 64) (g : Gate) :
    (g.sample measured arrived now).exact.probe = g.exact.probe ∧
      (g.sample measured arrived now).exact.probeEvery = g.exact.probeEvery ∧
      (g.sample measured arrived now).exact.openRun = g.exact.openRun := by
  unfold Gate.sample
  dsimp only
  split <;> exact ⟨rfl, rfl, rfl⟩

theorem Gate.waited_counters (filled : Bool) (g : Gate) :
    (g.waited filled).exact.probe = g.exact.probe ∧
      (g.waited filled).exact.probeEvery = g.exact.probeEvery ∧
      (g.waited filled).exact.openRun = g.exact.openRun := by
  unfold Gate.waited
  split <;> exact ⟨rfl, rfl, rfl⟩

/-- A step that leaves the counters alone. -/
theorem Exact.Paced.congr {e e' : Exact} (h : e.Paced)
    (he : e'.probe = e.probe ∧ e'.probeEvery = e.probeEvery ∧ e'.openRun = e.openRun) :
    e'.Paced := by
  obtain ⟨hp, hv, ho⟩ := he
  exact ⟨by rw [hp, hv]; exact h.probe_lt, by rw [hv]; exact h.every,
    by rw [ho]; exact h.openRun_le⟩

theorem Gate.ofRate_paced (rate : BitVec 64) : (Gate.ofRate rate).exact.Paced := Exact.init_paced

/-- One catch-up, as its counters see it: a sample, then one of the three readings. -/
theorem catchUp_counters (measured : BitVec 64) (h : g.exact.Paced) (arrived now : BitVec 64) :
    ∃ s : Exact, s.Paced ∧
      (s.probe = g.exact.probe ∧ s.probeEvery = g.exact.probeEvery ∧
        s.openRun = g.exact.openRun) ∧
      ∃ stream, (g.catchUp measured arrived now).1 = (s.settle stream).1 ∧
        (g.catchUp measured arrived now).2.exact = (s.settle stream).2 := by
  have hc := g.sample_counters measured arrived now
  have hs := h.congr hc
  rw [Gate.catchUp_eq]
  exact ⟨_, hs, hc, _, settle_exact hs _⟩

theorem catchUp_paced (measured : BitVec 64) (h : g.exact.Paced) (arrived now : BitVec 64) :
    (g.catchUp measured arrived now).2.exact.Paced := by
  obtain ⟨s, hs, -, stream, -, he⟩ := catchUp_counters measured h arrived now
  rw [he]
  exact hs.settle stream

theorem run_paced (measured : BitVec 64) (cs : List Call) (h : g.exact.Paced) :
    (g.run measured cs).2.exact.Paced := by
  induction cs generalizing g with
  | nil => exact h
  | cons c cs ih =>
    cases c with
    | shouldWaitAt arrived now => exact ih (catchUp_paced measured h arrived now)
    | waited filled => exact ih (h.congr (g.waited_counters filled))

/-! ## How often a gate probes -/

/-- A reading that is not a stream: the counter goes on, or a probe comes when it is full and the
next count is twice as long, up to `kProbeMax`. -/
theorem settle_quiet {s : Exact} {stream : Bool} (hs : s.Paced)
    (h : (s.settle stream).1 ≠ .stream) :
    ((s.settle stream).1 = .quiet ∧ (s.settle stream).2.probe = s.probe + 1 ∧
        (s.settle stream).2.probeEvery = s.probeEvery) ∨
      ((s.settle stream).1 = .probe ∧ s.probe + 1 = s.probeEvery ∧
        (s.settle stream).2.probe = 0 ∧
        (s.settle stream).2.probeEvery = min (2 * s.probeEvery) kProbeMax) := by
  have hlt := hs.probe_lt
  unfold Exact.settle at h ⊢
  split at h
  · exact absurd rfl h
  · next hn =>
    rw [if_neg hn]
    split
    · next hle => exact .inr ⟨rfl, by omega, rfl, rfl⟩
    · exact .inl ⟨rfl, rfl, rfl⟩

/-- Without a probe the counter has counted every catch-up. -/
theorem count_of_no_probe (cs : List Call) (h : g.exact.Paced)
    (hq : ∀ r ∈ (g.run measured cs).1, r = .quiet) :
    (g.run measured cs).2.exact.probe = g.exact.probe + (g.run measured cs).1.length := by
  induction cs generalizing g with
  | nil => rfl
  | cons c cs ih =>
    cases c with
    | shouldWaitAt arrived now =>
      have hpaced := catchUp_paced measured h arrived now
      have hhead : (g.catchUp measured arrived now).1 = .quiet := hq _ List.mem_cons_self
      have hrest := ih hpaced fun r hr => hq r (List.mem_cons_of_mem _ hr)
      obtain ⟨s, hs, ⟨hp, -, -⟩, stream, hr, he⟩ :=
        catchUp_counters measured h arrived now
      rw [he] at hrest
      rw [hr] at hhead
      obtain ⟨-, hprobe, -⟩ | ⟨hprobe, -⟩ := settle_quiet hs (by rw [hhead]; decide)
      · show (Gate.run measured cs _).2.exact.probe = _ + ((Gate.run measured cs _).1.length + 1)
        rw [hrest, hprobe, hp]
        omega
      · rw [hhead] at hprobe
        cases hprobe
    | waited filled =>
      have hrest := ih (h.congr (g.waited_counters filled)) hq
      rw [(g.waited_counters filled).1] at hrest
      exact hrest

/-- The credit that is left when a probe comes at the count `2 ^ k`. -/
theorem credit_probe {c n p k m : Nat} (hk : k < 16) (hfull : p + 1 = 2 ^ k)
    (h : c * m + m ≤ n + 0 + 2 ^ (k + 1) + (16 - (k + 1)) * m) :
    (c + 1) * m + m ≤ n + 1 + p + 2 ^ k + (16 - k) * m := by
  have hsub : 16 - k = 16 - (k + 1) + 1 := by omega
  rw [hsub, Nat.succ_mul, Nat.succ_mul]
  rw [Nat.pow_succ'] at h
  omega

/-- The probes of a run that reads no stream, against its catch-ups. A probe at the count `2 ^ k`
with `k < 16` is ahead of one every `kProbeMax` catch-ups by what it came earlier. -/
theorem probes_run (cs : List Call) (h : g.exact.Paced) {k : Nat} (hk : k ≤ 16)
    (hev : g.exact.probeEvery = 2 ^ k) (hq : ∀ r ∈ (g.run measured cs).1, r ≠ .stream) :
    (g.run measured cs).1.count .probe * kProbeMax + kProbeMax ≤
      (g.run measured cs).1.length + g.exact.probe + 2 ^ k + (16 - k) * kProbeMax := by
  induction cs generalizing g k with
  | nil =>
    show 0 * kProbeMax + kProbeMax ≤ 0 + _ + 2 ^ k + (16 - k) * kProbeMax
    rcases Nat.lt_or_ge k 16 with hlt | hge
    · have := Nat.le_mul_of_pos_left kProbeMax (Nat.sub_pos_of_lt hlt)
      omega
    · obtain rfl : k = 16 := by omega
      have hmax : kProbeMax = 2 ^ 16 := rfl
      omega
  | cons c cs ih =>
    cases c with
    | shouldWaitAt arrived now =>
      have hpaced := catchUp_paced measured h arrived now
      have hhead : (g.catchUp measured arrived now).1 ≠ .stream := hq _ List.mem_cons_self
      have htail : ∀ r ∈ (Gate.run measured cs (g.catchUp measured arrived now).2).1,
          r ≠ .stream := fun r hr => hq r (List.mem_cons_of_mem _ hr)
      obtain ⟨s, hs, ⟨hp, hv, -⟩, stream, hr, he⟩ :=
        catchUp_counters measured h arrived now
      rw [hr] at hhead
      show ((g.catchUp measured arrived now).1 ::
          (Gate.run measured cs (g.catchUp measured arrived now).2).1).count .probe * kProbeMax +
            kProbeMax ≤
        ((Gate.run measured cs (g.catchUp measured arrived now).2).1.length + 1) + _ + _ + _
      rw [List.count_cons, hr]
      obtain ⟨hquiet, hprobe, hevery⟩ | ⟨hquiet, hfull, hprobe, hevery⟩ := settle_quiet hs hhead
      · have hrest := ih hpaced hk (by rw [he, hevery, hv, hev]) htail
        rw [he, hprobe, hp] at hrest
        rw [hquiet]
        simp only [beq_iff_eq, reduceCtorEq, if_false, Nat.add_zero]
        omega
      · rw [hquiet]
        simp only [beq_self_eq_true, if_true]
        rw [hp, hv, hev] at hfull
        rcases Nat.lt_or_ge k 16 with hlt | hge
        · have hnext : (g.catchUp measured arrived now).2.exact.probeEvery = 2 ^ (k + 1) := by
            rw [he, hevery, hv, hev, ← Nat.pow_succ', min_eq_left]
            exact Nat.pow_le_pow_right (n := 2) (by decide) hlt
          have hrest := ih hpaced (k := k + 1) hlt hnext htail
          rw [he, hprobe] at hrest
          exact credit_probe hlt hfull hrest
        · obtain rfl : k = 16 := by omega
          have hnext : (g.catchUp measured arrived now).2.exact.probeEvery = 2 ^ 16 := by
            rw [he, hevery, hv, hev]
            decide
          have hrest := ih hpaced (k := 16) (by decide) hnext htail
          rw [he, hprobe] at hrest
          rw [Nat.succ_mul]
          have hmax : kProbeMax = 2 ^ 16 := rfl
          omega
    | waited filled =>
      obtain ⟨hp, hv, ho⟩ := g.waited_counters filled
      have hrest := ih (h.congr ⟨hp, hv, ho⟩) hk (hv.trans hev) hq
      rw [hp] at hrest
      exact hrest

theorem probe_of_quiet (cs : List Call) (h : g.exact.Paced)
    (hq : ∀ r ∈ (g.run measured cs).1, r ≠ .stream)
    (hn : kProbeMax ≤ (g.run measured cs).1.length) : .probe ∈ (g.run measured cs).1 := by
  by_contra hno
  have hall : ∀ r ∈ (g.run measured cs).1, r = .quiet := by
    intro r hr
    cases r with
    | stream => exact absurd rfl (hq _ hr)
    | probe => exact absurd hr hno
    | quiet => rfl
  have hcount := count_of_no_probe cs h hall
  have hend := run_paced measured cs h
  have hlt := hend.probe_lt
  have hle := hend.every_le
  omega

theorem probes_le (cs : List Call) (h : g.exact.Paced)
    (hq : ∀ r ∈ (g.run measured cs).1, r ≠ .stream) :
    (g.run measured cs).1.count .probe ≤ 9 + (g.run measured cs).1.length / kProbeMax := by
  obtain ⟨k, hk, hk', he⟩ := h.every
  have hrun := probes_run cs h hk' he hq
  have hlt := h.probe_lt
  rw [he] at hlt
  generalize (g.run measured cs).1.count .probe = c at hrun ⊢
  generalize (g.run measured cs).1.length = n at hrun ⊢
  generalize g.exact.probe = p at hrun hlt
  clear he
  unfold kProbeMax at hrun ⊢
  interval_cases k <;> omega

/-! ## When the probes come closer together again -/

/-- The last `openRun` readings are streams. -/
def Streamed (rs : List Reading) (e : Exact) : Prop := List.replicate e.openRun .stream <:+ rs

theorem settle_openRun {s : Exact} (stream : Bool) :
    ((s.settle stream).1 = .stream ∧
        ((s.settle stream).2.openRun = s.openRun + 1 ∨
          (s.settle stream).2.openRun = s.openRun)) ∨
      ((s.settle stream).1 ≠ .stream ∧ (s.settle stream).2.openRun = 0) := by
  unfold Exact.settle
  split
  · refine .inl ⟨rfl, ?_⟩
    unfold Exact.opened
    dsimp only
    split
    · exact .inl rfl
    · exact .inr rfl
  · split
    · exact .inr ⟨nofun, rfl⟩
    · exact .inr ⟨nofun, rfl⟩

theorem replicate_suffix_snoc {n : Nat} {rs : List Reading}
    (h : List.replicate n Reading.stream <:+ rs) :
    List.replicate (n + 1) Reading.stream <:+ rs ++ [.stream] := by
  obtain ⟨pre, rfl⟩ := h
  exact ⟨pre, by rw [List.replicate_succ', List.append_assoc]⟩

theorem Streamed.settle {rs : List Reading} {s : Exact} (h : Streamed rs s) (stream : Bool) :
    Streamed (rs ++ [(s.settle stream).1]) (s.settle stream).2 := by
  have hsnoc := replicate_suffix_snoc h
  unfold Streamed
  obtain ⟨hr, ho | ho⟩ | ⟨-, ho⟩ := settle_openRun (s := s) stream
  · rw [hr, ho]
    exact hsnoc
  · rw [hr, ho]
    refine List.IsSuffix.trans ⟨[.stream], ?_⟩ hsnoc
    rw [List.replicate_succ]
    rfl
  · rw [ho]
    exact List.nil_suffix

theorem Gate.run_append (cs ds : List Call) (g : Gate) :
    g.run measured (cs ++ ds) =
      ((g.run measured cs).1 ++ ((g.run measured cs).2.run measured ds).1,
        ((g.run measured cs).2.run measured ds).2) := by
  induction cs generalizing g with
  | nil => rfl
  | cons c cs ih =>
    cases c with
    | shouldWaitAt arrived now =>
      rw [List.cons_append, Gate.run, ih]
      rfl
    | waited filled => exact ih _

theorem run_streamed (cs : List Call) (rs : List Reading) (h : g.exact.Paced)
    (hs : Streamed rs g.exact) :
    Streamed (rs ++ (g.run measured cs).1) (g.run measured cs).2.exact := by
  induction cs generalizing g rs with
  | nil =>
    show Streamed (rs ++ []) _
    rw [List.append_nil]
    exact hs
  | cons c cs ih =>
    cases c with
    | shouldWaitAt arrived now =>
      have hpaced := catchUp_paced measured h arrived now
      obtain ⟨s, -, ⟨-, -, ho⟩, stream, hr, he⟩ :=
        catchUp_counters measured h arrived now
      have hs' : Streamed rs s := by
        unfold Streamed at hs ⊢
        rw [ho]
        exact hs
      have hnext := hs'.settle stream
      rw [← hr, ← he] at hnext
      have := ih _ hpaced hnext
      rw [List.append_assoc] at this
      exact this
    | waited filled =>
      obtain ⟨hp, hv, ho⟩ := g.waited_counters filled
      refine ih rs (h.congr ⟨hp, hv, ho⟩) ?_
      unfold Streamed at hs ⊢
      rw [ho]
      exact hs

/-- The count to the next probe falls only with the reading that makes `kStayOpen` of them. -/
theorem settle_lowered {s : Exact} {stream : Bool} (hs : s.Paced)
    (h : (s.settle stream).2.probeEvery < s.probeEvery) :
    (s.settle stream).2.openRun = kStayOpen := by
  have hle := hs.every_le
  unfold Exact.settle at h ⊢
  split at h
  · next hst =>
    rw [if_pos hst]
    unfold Exact.opened at h ⊢
    dsimp only at h ⊢
    split at h
    · next ho =>
      rw [if_pos ho]
      dsimp only at h
      split at h
      · next heq => exact heq
      · exact absurd h (Nat.lt_irrefl _)
    · exact absurd h (Nat.lt_irrefl _)
  · split at h
    · exfalso
      dsimp only at h
      have hpos := hs.probe_lt
      rw [min_lt_iff] at h
      omega
    · exact absurd h (Nat.lt_irrefl _)

theorem lowered_after_streams (cs : List Call) (c : Call)
    (h : ((Gate.ofRate rate).run measured (cs ++ [c])).2.exact.probeEvery <
      ((Gate.ofRate rate).run measured cs).2.exact.probeEvery) :
    List.replicate kStayOpen .stream <:+ ((Gate.ofRate rate).run measured (cs ++ [c])).1 := by
  have hpaced := run_paced measured cs (Gate.ofRate_paced rate)
  have hst : Streamed ((Gate.ofRate rate).run measured (cs ++ [c])).1
      ((Gate.ofRate rate).run measured (cs ++ [c])).2.exact :=
    run_streamed (cs ++ [c]) [] (Gate.ofRate_paced rate) List.nil_suffix
  suffices hend : ((Gate.ofRate rate).run measured (cs ++ [c])).2.exact.openRun = kStayOpen by
    unfold Streamed at hst
    rw [hend] at hst
    exact hst
  rw [Gate.run_append] at h ⊢
  cases c with
  | shouldWaitAt arrived now =>
    obtain ⟨s, hs, ⟨-, hv, -⟩, stream, -, he⟩ :=
      catchUp_counters measured hpaced arrived now
    dsimp only [Gate.run] at h ⊢
    rw [he, ← hv] at h
    rw [he]
    exact settle_lowered hs h
  | waited filled =>
    dsimp only [Gate.run] at h
    rw [(Gate.waited_counters filled _).2.1] at h
    exact absurd h (Nat.lt_irrefl _)

/-! ## The exact gate -/

/-- No more than `most` elements arrive at a catch-up. -/
def Call.Within (most : Nat) : Call → Prop
  | .shouldWaitAt arrived _ => arrived.toNat ≤ most
  | .waited _ => True

instance (most : Nat) (c : Call) : Decidable (c.Within most) :=
  match c with
  | .shouldWaitAt arrived _ => inferInstanceAs (Decidable (arrived.toNat ≤ most))
  | .waited _ => inferInstanceAs (Decidable True)

theorem settle_thr (stream : Bool) (g : Gate) : (g.settle stream).2.thr = g.thr := by
  unfold Gate.settle Gate.opened
  split
  · dsimp only
    split <;> rfl
  · split <;> rfl

theorem Gate.waited_thr (filled : Bool) (g : Gate) : (g.waited filled).thr = g.thr := by
  unfold Gate.waited
  split <;> rfl

/-- What is kept along a run. -/
structure Sound (most : Nat) (rate measured : BitVec 64) (g : Gate) : Prop where
  rated : g.Rated rate measured
  paced : g.exact.Paced
  bounded : g.exact.Bounded most

theorem Gate.ofRate_sound : Sound most rate measured (Gate.ofRate rate) :=
  ⟨Gate.ofRate_rated, Gate.ofRate_paced rate, Exact.init_bounded⟩

theorem catchUp_exact (hf : Fits most rate measured) (h : Sound most rate measured g)
    {arrived : BitVec 64} (ha : arrived.toNat ≤ most) (now : BitVec 64) :
    (g.catchUp measured arrived now).1 =
        (g.exact.catchUp (ticksPerMs rate measured).toNat arrived.toNat now.toNat).1 ∧
      (g.catchUp measured arrived now).2.exact =
        (g.exact.catchUp (ticksPerMs rate measured).toNat arrived.toNat now.toNat).2 ∧
      Sound most rate measured (g.catchUp measured arrived now).2 := by
  have hs := sample_exact hf h.bounded ha now
  have hbounded : (g.sample measured arrived now).exact.Bounded most := by
    rw [hs]
    exact h.bounded.sample now.toNat ha
  have hpaced := h.paced.congr (g.sample_counters measured arrived now)
  have hthr := h.rated.sample_thr hf arrived now
  have hreads := readsStream_iff hf hbounded hthr
  have hbool : (g.sample measured arrived now).readsStream =
      decide ((g.exact.sample arrived.toNat now.toNat).ReadsStream
        (ticksPerMs rate measured).toNat) := by
    rw [← hs, Bool.eq_iff_iff, hreads, decide_eq_true_eq]
  obtain ⟨hr, he⟩ := settle_exact hpaced (g.sample measured arrived now).readsStream
  rw [← Gate.catchUp_eq] at hr he
  rw [hs, hbool, ← Exact.catchUp_eq] at hr he
  refine ⟨hr, he, ?_, catchUp_paced measured h.paced arrived now, ?_⟩
  · right
    rw [Gate.catchUp_eq, settle_thr, hthr]
  · rw [he]
    exact h.bounded.catchUp _ _ ha

theorem waited_exact (hf : Fits most rate measured) (h : Sound most rate measured g)
    (filled : Bool) :
    (g.waited filled).exact = g.exact.waited filled ∧
      Sound most rate measured (g.waited filled) := by
  have he : (g.waited filled).exact = g.exact.waited filled := by
    have hb := h.bounded.waited filled
    have hsum := hf.sum
    unfold Gate.waited Exact.waited at *
    by_cases hc : g.probing ∧ filled
    · have hc' : g.exact.probing ∧ filled := hc
      rw [if_pos hc'] at hb
      rw [if_pos hc, if_pos hc']
      have hk : ((kProbeSeed : BitVec 64) <<< kFrac).toNat = kProbeSeed * 2 ^ kFrac := by decide
      have hadd : (g.aSum + (kProbeSeed : BitVec 64) <<< kFrac).toNat =
          g.aSum.toNat + kProbeSeed * 2 ^ kFrac := by
        rw [BitVec.toNat_add, hk]
        exact Nat.mod_eq_of_lt (Nat.lt_of_le_of_lt hb.aSum_le hsum)
      unfold Gate.exact
      rw [Exact.mk.injEq]
      exact ⟨rfl, rfl, rfl, hadd, rfl, rfl, rfl, rfl⟩
    · have hc' : ¬ (g.exact.probing ∧ filled) := hc
      rw [if_neg hc, if_neg hc']
      rfl
  refine ⟨he, ?_, h.paced.congr (g.waited_counters filled), ?_⟩
  · unfold Gate.Rated
    rw [g.waited_thr]
    exact h.rated
  · rw [he]
    exact h.bounded.waited filled

theorem run_exact (hf : Fits most rate measured) (cs : List Call)
    (h : Sound most rate measured g) (hw : ∀ c ∈ cs, c.Within most) :
    (g.run measured cs).1 = (g.exact.run (ticksPerMs rate measured).toNat cs).1 ∧
      (g.run measured cs).2.exact = (g.exact.run (ticksPerMs rate measured).toNat cs).2 ∧
      Sound most rate measured (g.run measured cs).2 := by
  induction cs generalizing g with
  | nil => exact ⟨rfl, rfl, h⟩
  | cons c cs ih =>
    have hws : ∀ c ∈ cs, c.Within most := fun c hc => hw c (List.mem_cons_of_mem _ hc)
    cases c with
    | shouldWaitAt arrived now =>
      obtain ⟨hr, he, hs⟩ := catchUp_exact hf h (hw _ List.mem_cons_self) now
      obtain ⟨hrs, hes, hss⟩ := ih hs hws
      rw [he] at hrs hes
      refine ⟨?_, hes, hss⟩
      show _ :: _ = _ :: _
      rw [hr, hrs]
    | waited filled =>
      obtain ⟨he, hs⟩ := waited_exact hf h filled
      have hrest := ih hs hws
      rw [he] at hrest
      exact hrest

theorem Sound.products (hf : Fits most rate measured) (h : Sound most rate measured g) :
    g.tSum.toNat * 1000000 < 2 ^ 64 ∧ g.thr.toNat * g.aSum.toNat < 2 ^ 64 := by
  have ht : g.tSum.toNat ≤ 2 ^ 38 + 3 := h.bounded.tSum_le
  have ha : g.aSum.toNat ≤ 64 * most + 259 := h.bounded.aSum_le
  have hthr : g.thr.toNat ≤ kStreamNs * (ticksPerMs rate measured).toNat := by
    rcases h.rated with he | he
    · by_cases hr : rate = 0
      · rw [he, hr]
        exact Nat.zero_le _
      · have hrate : ticksPerMs rate measured = rate := if_neg hr
        rw [he, ← hf.thr_toNat, hrate]
    · rw [he, hf.thr_toNat]
  exact ⟨by omega, Nat.lt_of_le_of_lt (Nat.mul_le_mul hthr ha) hf.product⟩

/-- With 2^24 ticks a millisecond there may be 2^27 elements at a catch-up. -/
theorem fits_of_le (hr : rate.toNat ≤ 2 ^ 24) (hm : measured.toNat ≤ 2 ^ 24) :
    Fits (2 ^ 27) rate measured := by
  have hle : (ticksPerMs rate measured).toNat ≤ 2 ^ 24 := by
    unfold ticksPerMs
    split
    · exact hm
    · exact hr
  refine ⟨by norm_num, ?_⟩
  calc kStreamNs * (ticksPerMs rate measured).toNat * (64 * 2 ^ 27 + 259)
      ≤ kStreamNs * 2 ^ 24 * (64 * 2 ^ 27 + 259) := by gcongr
    _ < 2 ^ 64 := by decide

/--
**The stream gate.**

For every sequence of calls: while the products fit, the words hold the numbers of the exact gate
and the readings are its readings; among catch-ups that do not read a stream there is a probe in
every `kProbeMax`, and no more than `9` beside one in `kProbeMax`; and the count to the next probe
is a power of two that falls only when `kStayOpen` readings in a row were streams.
-/
theorem stream_gate_reads_exactly (rate measured : BitVec 64) (cs : List Call) :
    (∀ most, Fits most rate measured → (∀ c ∈ cs, c.Within most) →
      ((Gate.ofRate rate).run measured cs).1 =
          (Exact.init.run (ticksPerMs rate measured).toNat cs).1 ∧
        ((Gate.ofRate rate).run measured cs).2.exact =
          (Exact.init.run (ticksPerMs rate measured).toNat cs).2 ∧
        ((Gate.ofRate rate).run measured cs).2.tSum.toNat * 1000000 < 2 ^ 64 ∧
        ((Gate.ofRate rate).run measured cs).2.thr.toNat *
          ((Gate.ofRate rate).run measured cs).2.aSum.toNat < 2 ^ 64) ∧
    (∀ ds, (∀ r ∈ (((Gate.ofRate rate).run measured cs).2.run measured ds).1, r ≠ .stream) →
      (kProbeMax ≤ (((Gate.ofRate rate).run measured cs).2.run measured ds).1.length →
        .probe ∈ (((Gate.ofRate rate).run measured cs).2.run measured ds).1) ∧
      (((Gate.ofRate rate).run measured cs).2.run measured ds).1.count .probe ≤
        9 + (((Gate.ofRate rate).run measured cs).2.run measured ds).1.length / kProbeMax) ∧
    (∃ k, ((Gate.ofRate rate).run measured cs).2.probeEvery.toNat = 2 ^ k ∧
      kProbeEvery ≤ 2 ^ k ∧ 2 ^ k ≤ kProbeMax) ∧
    ∀ c, ((Gate.ofRate rate).run measured (cs ++ [c])).2.probeEvery <
        ((Gate.ofRate rate).run measured cs).2.probeEvery →
      List.replicate kStayOpen .stream <:+ ((Gate.ofRate rate).run measured (cs ++ [c])).1 := by
  have hpaced := run_paced measured cs (Gate.ofRate_paced rate)
  refine ⟨?_, ?_, ?_, ?_⟩
  · intro most hf hw
    obtain ⟨hr, he, hs⟩ := run_exact hf cs Gate.ofRate_sound hw
    exact ⟨hr, he, hs.products hf⟩
  · intro ds hq
    exact ⟨probe_of_quiet ds hpaced hq, probes_le ds hpaced hq⟩
  · obtain ⟨k, -, -, he⟩ := hpaced.every
    have hle := hpaced.every_le
    have hge := hpaced.le_every
    rw [he] at hle hge
    exact ⟨k, he, hge, hle⟩
  · intro c hlt
    exact lowered_after_streams cs c hlt

/-- A gate of the fastest counter that fits, with as many elements as fit. -/
theorem stream_gate_reads_full_batches :
    Fits (2 ^ 27) (2 ^ 24) 0 ∧
      ((Gate.ofRate (2 ^ 24)).run 0 [.shouldWaitAt 0 0, .shouldWaitAt (2 ^ 27) 5]).1 =
        (Exact.init.run (2 ^ 24) [.shouldWaitAt 0 0, .shouldWaitAt (2 ^ 27) 5]).1 := by
  have hf : Fits (2 ^ 27) (2 ^ 24) 0 := fits_of_le (by decide) (by decide)
  exact ⟨hf, ((stream_gate_reads_exactly (2 ^ 24) 0
    [.shouldWaitAt 0 0, .shouldWaitAt (2 ^ 27) 5]).1 (2 ^ 27) hf (by decide)).1⟩

/-- The two batches of a producer whose second one does not read as a stream: with at most
`2 ^ 29` elements at a catch-up and `2 ^ 24` ticks a millisecond the product of the threshold and
the arrivals wraps. -/
theorem full_batches_wrap :
    let cs : List Call :=
      [.shouldWaitAt 0 0, .shouldWaitAt (2 ^ 29) 0, .shouldWaitAt 284541584 (2 ^ 20)]
    (∀ c ∈ cs, c.Within (2 ^ 29)) ∧
      2 ^ 64 ≤ ((Gate.ofRate (2 ^ 24)).run 0 cs).2.thr.toNat *
        ((Gate.ofRate (2 ^ 24)).run 0 cs).2.aSum.toNat ∧
      ((Gate.ofRate (2 ^ 24)).run 0 cs).1 = [.quiet, .stream, .quiet] ∧
      (Exact.init.run (2 ^ 24) cs).1 = [.quiet, .stream, .stream] := by
  decide +kernel

end Wtc.StreamGate
