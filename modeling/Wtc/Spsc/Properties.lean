import Wtc.Spsc.Linear

/-!
# Properties of the single-producer single-consumer ring

* `spsc_linearizable` — every history is that of a sequential queue with deferred pushes; the pops
  answer the elements pushed, in order and only once published; the producer builds in free slots
  only, and the consumer follows a `next` pointer only to the block of its next element
-/

namespace Wtc.Spsc

open Wtc.Concurrent

variable {α : Type}

/-- What holds at the end of every run with history `h`. -/
structure Sound (K : Nat) (h : List (Event Side (DeferOp α) (FifoAns α)))
    (s : Config Side (Shared α) (Loc α)) : Prop where
  /-- The `i`-th element popped is the `i`-th pushed. -/
  in_order : pops h <+: pushes h
  /-- Nothing is popped that no publish covers. -/
  covered : (pops h).length ≤ s.sh.c.count ∧ s.sh.c.count ≤ s.sh.pushPub ∧
    s.sh.pushPub ≤ (pushes h).length
  /-- A pop that answers empty reads a `push_pub_` up to which everything has been popped. -/
  empty_answer : ∀ c l sh', s.loc .consumer = some l →
    step K c s.sh l = some (sh', .done [.popped none]) → s.sh.pushPub = s.sh.c.count
  /-- A slot the producer writes holds no element and is not lent. -/
  builds_free : ∀ c l sh' l', s.loc .producer = some l → step K c s.sh l = some (sh', l') →
    ∀ b i, sh'.slot b i ≠ s.sh.slot b i → s.sh.slot b i = none ∧ s.sh.c.lent ≠ some (b, i)
  /-- The block the consumer goes on in starts with the next element to pop. -/
  follows : ∀ borrow, s.loc .consumer = some (.turn borrow) → s.sh.c.off = K →
    s.sh.last (s.sh.next s.sh.c.blk) = s.sh.c.count + K ∧
    ∃ v, (pushes h)[s.sh.c.count]? = some v ∧ s.sh.slot (s.sh.next s.sh.c.blk) 0 = some v

/-! ## The parts -/

section Parts

variable {K : Nat} {sh : Shared α} {w : Ghost α}

/-- The elements built are those of the producer's calls, the last one perhaps missing. -/
theorem built_prefix_pushes {x : Option (Loc α)} (hl : L K .producer sh w x) :
    w.built <+: pushes w.hist := by
  have push : ∀ {v pub}, Pushing w .producer v pub → w.built <+: pushes w.hist :=
    fun h => h.2.2 ▸ List.prefix_append _ _
  have settle : ∀ {ans}, Settled sh w ans .producer → w.built <+: pushes w.hist :=
    fun h => h.1 ▸ List.prefix_rfl
  cases x with
  | none => exact settle hl.2
  | some l =>
    cases l with
    | put v pub => exact push hl
    | drain v pub cand | insert v pub nb | build v pub => exact push hl.1
    | publish deferred => exact hl.2.1 ▸ List.prefix_rfl
    | release b | check b | slip b | turn b | leave b | fetch b => exact absurd hl.1.1 (by decide)
    | take b i =>
      obtain ⟨v, hv, -⟩ := hl
      exact absurd hv (by decide)
    | destroy b i x =>
      obtain ⟨v, ⟨hv, -⟩, -⟩ := hl
      exact absurd hv (by decide)
    | done ans => exact settle hl.2

/-- The elements answered are those popped, the last one perhaps missing. -/
theorem pops_prefix_built {x : Option (Loc α)} (hl : L K .consumer sh w x) :
    pops w.hist <+: w.built.take sh.c.count := by
  have pop : Popping sh w .consumer → pops w.hist <+: w.built.take sh.c.count :=
    fun h => h.2.2 ▸ List.prefix_rfl
  have take : ∀ {b i v}, Taking sh w .consumer b i v → pops w.hist <+: w.built.take sh.c.count :=
    fun h => h.2.2.1 ▸ List.prefix_append _ _
  have settle : ∀ {ans}, Settled sh w ans .consumer → pops w.hist <+: w.built.take sh.c.count :=
    fun h => h.1 ▸ List.prefix_append _ _
  cases x with
  | none => exact settle hl.2
  | some l =>
    cases l with
    | put v pub | publish deferred => exact absurd hl.1 (by decide)
    | drain v pub cand | insert v pub nb | build v pub => exact absurd hl.1.1 (by decide)
    | release b | check b | slip b | turn b | leave b | fetch b => exact pop hl.1
    | take b i =>
      obtain ⟨v, hv⟩ := hl
      exact take hv
    | destroy b i x =>
      obtain ⟨v, hv, -⟩ := hl
      exact take hv
    | done ans => exact settle hl.2

/-- The slot the consumer holds is the one lent, once a lent slot there is. -/
theorem lent_held {x : Option (Loc α)} (hl : L K .consumer sh w x) {b i : Nat}
    (hlent : sh.c.lent = some (b, i)) : w.held = some (b, i) := by
  have free : ¬ Free sh w := fun h => by rw [h.2] at hlent; cases hlent
  cases x with
  | none => exact hl.2.2.trans hlent
  | some l =>
    cases l with
    | put v pub | publish deferred => exact absurd hl.1 (by decide)
    | drain v pub cand | insert v pub nb | build v pub => exact absurd hl.1.1 (by decide)
    | release b => exact hl.2.trans hlent
    | check b => exact absurd hl.2 free
    | slip b | turn b | leave b | fetch b => exact absurd hl.2.1 free
    | take b i =>
      obtain ⟨v, -, -, -, -, hn, -⟩ := hl
      rw [hn] at hlent
      cases hlent
    | destroy b i x =>
      obtain ⟨v, ⟨-, -, -, -, hn, -⟩, -⟩ := hl
      rw [hn] at hlent
      cases hlent
    | done ans => exact hl.2.2.trans hlent

/-- Only the building of an element writes a slot for the producer. -/
theorem producer_slot {c : Bool} {l l' : Loc α} {sh' : Shared α}
    (hl : L K .producer sh w (some l)) (hs : step K c sh l = some (sh', l')) {b i : Nat}
    (hne : sh'.slot b i ≠ sh.slot b i) : b = sh.p.blk ∧ i = sh.p.off := by
  have built : ∀ v, (sh.build v).slot b i ≠ sh.slot b i → b = sh.p.blk ∧ i = sh.p.off := by
    intro v h
    by_contra hbi
    exact h (if_neg hbi)
  cases l with
  | put v pub =>
    simp only [step] at hs
    split at hs
    · split at hs <;> (obtain ⟨rfl, -⟩ := Prod.mk.inj (Option.some.inj hs); exact absurd rfl hne)
    · obtain ⟨rfl, -⟩ := Prod.mk.inj (Option.some.inj hs)
      exact built v hne
  | drain v pub cand =>
    simp only [step] at hs
    split at hs <;> (obtain ⟨rfl, -⟩ := Prod.mk.inj (Option.some.inj hs); exact absurd rfl hne)
  | insert v pub nb | publish deferred =>
    obtain ⟨rfl, -⟩ := Prod.mk.inj (Option.some.inj hs)
    exact absurd rfl hne
  | build v pub =>
    obtain ⟨rfl, -⟩ := Prod.mk.inj (Option.some.inj hs)
    exact built v hne
  | release b | check b | slip b | turn b | leave b | fetch b => exact absurd hl.1.1 (by decide)
  | take b i =>
    obtain ⟨v, hv, -⟩ := hl
    exact absurd hv (by decide)
  | destroy b i x =>
    obtain ⟨v, ⟨hv, -⟩, -⟩ := hl
    exact absurd hv (by decide)
  | done ans => cases hs

/-- A step to an empty answer is the first read of `push_pub_`, and finds the consumer's count. -/
theorem empty_pushPub {c : Bool} {l : Loc α} {sh' : Shared α} (hg : G K sh w)
    (hl : L K .consumer sh w (some l)) (hs : step K c sh l = some (sh', .done [.popped none])) :
    sh.pushPub = sh.c.count := by
  have fetched : ∀ {borrow}, sh.c.off < K → sh.c.count < sh.c.cachedPush →
      fetch sh borrow ≠ (sh', .done [.popped none]) := by
    intro borrow hoff hc h
    obtain ⟨v, -, -, hv, -⟩ := hg.front hoff hc
    cases borrow with
    | true =>
      have h' := (Prod.mk.inj h).2
      rw [hv] at h'
      cases h'
    | false => cases (Prod.mk.inj h).2
  cases l with
  | put v pub | publish deferred => exact absurd hl.1 (by decide)
  | drain v pub cand | insert v pub nb | build v pub => exact absurd hl.1.1 (by decide)
  | check borrow =>
    simp only [step] at hs
    split at hs
    · have hs' := (Prod.mk.inj (Option.some.inj hs)).2
      split at hs'
      · next hpub => exact hpub.symm
      · cases hs'
    · cases hs
  | slip borrow =>
    simp only [step] at hs
    split at hs <;> cases hs
  | turn borrow =>
    obtain ⟨-, -, hc⟩ := hl
    simp only [step] at hs
    split at hs
    · cases hs
    · next hoff => exact absurd (Option.some.inj hs) (fetched (lt_of_le_of_ne hg.c_off hoff) hc)
  | fetch borrow =>
    obtain ⟨-, -, hc, hoff⟩ := hl
    exact absurd (Option.some.inj hs) (fetched hoff hc)
  | destroy b i x =>
    obtain ⟨v, -, rfl⟩ := hl
    have hs' := (Prod.mk.inj (Option.some.inj hs)).2
    cases hs'
  | release borrow | leave borrow | take b i | done ans => cases hs

end Parts

/-- A slot the producer writes holds no element and is not lent. -/
theorem builds_free_of_run {K : Nat} (hK : 2 ≤ K)
    {h : List (Event Side (DeferOp α) (FifoAns α))} {s : Config Side (Shared α) (Loc α)}
    (hr : (machine K).Runs h s) {c : Bool} {l l' : Loc α} {sh' : Shared α}
    (hloc : s.loc .producer = some l) (hs : step K c s.sh l = some (sh', l')) {b i : Nat}
    (hne : sh'.slot b i ≠ s.sh.slot b i) : s.sh.slot b i = none ∧ s.sh.c.lent ≠ some (b, i) := by
  obtain ⟨w, -, hg, hl⟩ := (rule hK).sound hr
  change G K s.sh w at hg
  change ∀ t, L K t s.sh w (s.loc t) at hl
  have hlp := hl .producer
  rw [hloc] at hlp
  obtain ⟨rfl, rfl⟩ := producer_slot hlp hs hne
  exact ⟨hg.slot_free.1, fun hlent => hg.slot_free.2 (lent_held (hl .consumer) hlent)⟩

/-- **The single-producer single-consumer ring is linearizable, and reuses blocks safely.** -/
theorem spsc_linearizable {K : Nat} (hK : 2 ≤ K)
    {h : List (Event Side (DeferOp α) (FifoAns α))} {s : Config Side (Shared α) (Loc α)}
    (hr : (machine K).Runs h s) : Linearizable (deferredFifo α never) h ∧ Sound K h s := by
  refine ⟨(rule hK).linearizable And.left rfl hr, ?_⟩
  obtain ⟨w, ht, hg, hl⟩ := (rule hK).sound hr
  change G K s.sh w at hg
  change ∀ t, L K t s.sh w (s.loc t) at hl
  obtain rfl : w.hist = h := ht.hist_eq rfl
  have hpu := built_prefix_pushes (hl .producer)
  have hpo := pops_prefix_built (hl .consumer)
  constructor
  · have htake := List.take_prefix s.sh.c.count w.built
    exact hpo.trans (htake.trans hpu)
  · refine ⟨hpo.length_le.trans (List.length_take_le _ _), hg.count_le.trans hg.cachedPush_le, ?_⟩
    exact hg.pushPub_le.trans (hg.built ▸ hpu.length_le)
  · intro c l sh' hloc hs
    have hlc := hl .consumer
    rw [hloc] at hlc
    exact empty_pushPub hg hlc hs
  · intro c l sh' l' hloc hs b i
    exact builds_free_of_run hK hr hloc hs
  · intro borrow hloc hoff
    have hlc := hl .consumer
    rw [hloc] at hlc
    obtain ⟨-, hfree, hc⟩ := hlc
    -- after the step the consumer is in front of its element
    have hg' := hg.follow hoff hc hfree.1
    obtain ⟨v, -, -, hv, hget, -, -⟩ := hg'.front (by show 0 < K; omega) hc
    refine ⟨?_, v, ?_, hv⟩
    · have h1 := hg'.last (w.k + 1) le_rfl hg'.k_le
      have h2 := hg'.c_count
      rw [← hg'.c_blk] at h1
      exact h1.trans (by rw [← Nat.add_zero ((w.k + 1) * K)]; exact congrArg (· + K) h2.symm)
    · obtain ⟨more, hmore⟩ := hpu
      have hlen : s.sh.c.count < w.built.length := by
        rw [hg.built]; exact hc.trans_le (hg.cachedPush_le.trans hg.pushPub_le)
      rw [← hmore, List.getElem?_append_left hlen]
      exact hget

/-- Blocks of two slots: the consumer borrows element 7 and keeps it while the producer, whose
next block is not drained, inserts a new one for element 11. -/
def exampleSchedule : List (Action Side (Call Nat) Bool) :=
  [.call .producer (.push 7), .step .producer true, .step .producer true, .ret .producer,
   .call .consumer .tryPopBorrow, .step .consumer true, .step .consumer true,
   .step .consumer false, .step .consumer true, .ret .consumer,
   .call .producer (.pushDeferred 8), .step .producer true, .ret .producer,
   .call .producer (.pushDeferred 9), .step .producer true, .step .producer true, .ret .producer,
   .call .producer (.pushDeferred 10), .step .producer true, .ret .producer,
   .call .producer (.push 11), .step .producer true, .step .producer true, .step .producer true,
   .step .producer true, .step .producer true, .ret .producer,
   .call .consumer .consume, .step .consumer true, .step .consumer true,
   .step .consumer false, .step .consumer true, .step .consumer true, .step .consumer true,
   .ret .consumer,
   .call .consumer .consume, .step .consumer true, .step .consumer true, .step .consumer true]

/-- Its history. -/
def exampleHistory : List (Event Side (DeferOp Nat) (FifoAns Nat)) :=
  [.call .producer [.defer 7, .publish], .ret .producer [.pushed, .pushed],
   .call .consumer [.pop], .ret .consumer [.popped (some 7)],
   .call .producer [.defer 8], .ret .producer [.pushed],
   .call .producer [.defer 9], .ret .producer [.pushed],
   .call .producer [.defer 10], .ret .producer [.pushed],
   .call .producer [.defer 11, .publish], .ret .producer [.pushed, .pushed],
   .call .consumer [.pop], .ret .consumer [.popped (some 8)], .call .consumer [.pop]]

theorem spsc_linearizable_example : ∃ s, (machine 2).Runs exampleHistory s ∧
    s.sh.c.blk = 1 ∧ s.sh.p.blk = 2 ∧
    Linearizable (deferredFifo Nat never) exampleHistory ∧ Sound 2 exampleHistory s := by
  have hr : (machine 2).Runs exampleHistory _ :=
    Machine.runs_of_exec (.init trivial) exampleSchedule rfl
  exact ⟨_, hr, rfl, rfl, spsc_linearizable (by decide) hr⟩

end Wtc.Spsc
