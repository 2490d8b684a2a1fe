import Wtc.Spsc.Invariant

/-!
# The single-producer single-consumer ring is linearizable

Each step of `Wtc/Spsc/Model.lean` that writes keeps `G`, one lemma for each.

A deferred push takes effect where its element is built, a publish at its store of `push_pub_`, a
pop where the consumer goes past its element, and an empty answer at the read of `push_pub_`.
-/

namespace Wtc.Spsc

open Wtc.Concurrent

variable {α : Type} {K : Nat} {sh : Shared α} {w : Ghost α} {t : Side}

/-! ## Chunks -/

variable {i j b : Nat} {p : Side → Option (Pending (DeferOp α) (FifoAns α))}

section

variable (hg : G K sh w)
include hg

/-- An element not yet popped is in a chunk from `k` on. -/
theorem G.k_le_chunk (hj : j < K) (hc : sh.c.count ≤ i * K + j) : w.k ≤ i := by
  by_contra hlt
  have h1 := mul_add_le (Nat.lt_of_not_le hlt) (Nat.succ_le_of_lt hj)
  have h2 := hg.c_count
  omega

/-- An element already built is in a chunk up to `m`. -/
theorem G.chunk_le_m (hp : i * K + j < sh.p.count) : i ≤ w.m := by
  by_contra hlt
  have h1 := mul_add_le (Nat.lt_of_not_le hlt) hg.p_off
  have h2 := hg.p_count
  omega

/-- Live chunks in one block are one chunk. -/
theorem G.place_inj (hi : w.k ≤ i) (hi' : i ≤ w.m) (hj : w.k ≤ j) (hj' : j ≤ w.m)
    (h : w.place i = w.place j) : i = j := by
  rcases Nat.lt_trichotomy i j with hlt | heq | hlt
  · exact absurd h (hg.distinct i j hi hlt hj')
  · exact heq
  · exact absurd h.symm (hg.distinct j i hj hlt hi')

theorem G.count_le_p : sh.c.count ≤ sh.p.count :=
  hg.count_le.trans (hg.cachedPush_le.trans hg.pushPub_le)

/-- A block whose `end` is not past `pop_pub_` holds no live chunk. -/
theorem G.drained (hK : 2 ≤ K) (hb : sh.last b ≤ sh.popPub) :
    ∀ i, w.k ≤ i → i ≤ w.m → w.place i ≠ b := by
  rintro i hi him rfl
  have h1 := hg.last i hi him
  have h2 := hg.popPub_le
  have h3 : w.k * K ≤ i * K := Nat.mul_le_mul_right K hi
  omega

/-- The slot the producer builds in holds no element and is not lent. -/
theorem G.slot_free : sh.slot sh.p.blk sh.p.off = none ∧ w.held ≠ some (sh.p.blk, sh.p.off) := by
  have hheld : w.held ≠ some (sh.p.blk, sh.p.off) := by
    intro hh
    obtain ⟨hb, hj, -⟩ := hg.held _ _ hh
    rw [hg.p_blk] at hb
    have hkm := hg.place_inj hg.k_le le_rfl le_rfl hg.k_le hb
    have h1 := hg.count_le_p
    rw [hg.c_count, hg.p_count, hkm] at h1
    omega
  refine ⟨?_, hheld⟩
  by_contra hne
  rcases hg.full _ _ hne with ⟨i, hj, hb, hc, hp⟩ | hh
  · rw [hg.p_blk] at hb
    have hmi := hg.place_inj hg.k_le le_rfl (hg.k_le_chunk hj hc) (hg.chunk_le_m hp) hb
    rw [← hmi, hg.p_count] at hp
    omega
  · exact hheld hh

/-! ## The producer -/

/-- An element is built. -/
theorem G.build (hoff : sh.p.off < K) {v : α} {d : Deferred α} (hq : d.queue = w.abs.obj.queue)
    (hh : d.hidden = w.abs.obj.hidden ++ [v]) :
    G K (sh.build v) { w with abs := ⟨d, p⟩, built := w.built ++ [v] } := by
  have hfree := hg.slot_free
  have hcp := hg.count_le_p
  have hpub : sh.pushPub ≤ w.built.length := hg.built ▸ hg.pushPub_le
  refine { hg with
    p_count := ?_, p_off := hoff, built := ?_, pushPub_le := ?_, slot := ?_, full := ?_
    held := ?_, queue := ?_, hidden := ?_ }
  · show sh.p.count + 1 = w.m * K + (sh.p.off + 1)
    rw [hg.p_count, Nat.add_assoc]
  · show (w.built ++ [v]).length = sh.p.count + 1
    rw [List.length_append, hg.built, List.length_singleton]
  · exact hg.pushPub_le.trans (Nat.le_succ _)
  · intro i j hj hc hp
    change i * K + j < sh.p.count + 1 at hp
    show setSlot sh.slot sh.p.blk sh.p.off (some v) (w.place i) j = (w.built ++ [v])[i * K + j]?
    by_cases heq : i * K + j = sh.p.count
    · -- the element just built
      obtain ⟨rfl, rfl⟩ := number_inj hj hoff (heq.trans hg.p_count)
      have hlen : w.m * K + sh.p.off = w.built.length := by rw [hg.built, hg.p_count]
      rw [hlen, List.getElem?_concat_length]
      exact if_pos ⟨hg.p_blk.symm, rfl⟩
    · have hlt : i * K + j < sh.p.count := by omega
      have hold := hg.slot i j hj hc hlt
      rw [List.getElem?_append_left (by rw [hg.built]; exact hlt), ← hold]
      refine if_neg ?_
      rintro ⟨hb, rfl⟩
      rw [hb, hfree.1, eq_comm, List.getElem?_eq_none_iff, hg.built] at hold
      omega
  · intro b j hne
    by_cases hbj : b = sh.p.blk ∧ j = sh.p.off
    · obtain ⟨rfl, rfl⟩ := hbj
      refine Or.inl ⟨w.m, hoff, hg.p_blk, ?_, ?_⟩
      · exact hcp.trans (Nat.le_of_eq hg.p_count)
      · exact Nat.lt_succ_of_le (Nat.le_of_eq hg.p_count.symm)
    · have hne' : sh.slot b j ≠ none := by
        intro h0
        exact hne ((if_neg hbj).trans h0)
      rcases hg.full b j hne' with ⟨i, h1, h2, h3, h4⟩ | hh
      · exact Or.inl ⟨i, h1, h2, h3, h4.trans (Nat.lt_succ_self _)⟩
      · exact Or.inr hh
  · intro b j hh
    obtain ⟨h1, h2, h3⟩ := hg.held b j hh
    refine ⟨h1, h2, ?_⟩
    have hbj : ¬ (b = sh.p.blk ∧ j = sh.p.off) := by
      rintro ⟨rfl, rfl⟩
      exact hfree.2 hh
    show setSlot sh.slot sh.p.blk sh.p.off (some v) b j ≠ none
    unfold setSlot
    rwa [if_neg hbj]
  · show d.queue = ((w.built ++ [v]).take sh.pushPub).drop sh.c.count
    rw [List.take_append_of_le_length hpub, hq, hg.queue]
  · show d.hidden = (w.built ++ [v]).drop sh.pushPub
    rw [List.drop_append_of_le_length hpub, hh, hg.hidden]

/-- The producer goes on in block `b`, which it has made the one after its own. -/
def Shared.goOn (K : Nat) (sh : Shared α) (b : Nat) : Shared α :=
  { sh with
    next := Function.update sh.next sh.p.blk b
    last := Function.update sh.last b (sh.p.count + K)
    p := { sh.p with blk := b, off := 0 } }

omit hg in
theorem reuse_eq_goOn : sh.reuse K (sh.next sh.p.blk) = sh.goOn K (sh.next sh.p.blk) := by
  simp [Shared.reuse, Shared.goOn]

omit hg in
theorem insert_eq_goOn {nb : Nat} (h : sh.last nb = sh.p.count + K) :
    sh.insert nb = sh.goOn K nb := by
  simp [Shared.insert, Shared.goOn, ← h]

/-- A turnover to a block that holds no live chunk. -/
theorem G.goOn (hoff : sh.p.off = K) (hb : b < sh.blocks)
    (hfree : ∀ i, w.k ≤ i → i ≤ w.m → w.place i ≠ b) :
    G K (sh.goOn K b) { w with place := Function.update w.place (w.m + 1) b, m := w.m + 1 } := by
  have hold : ∀ i, i ≤ w.m → Function.update w.place (w.m + 1) b i = w.place i := by
    intro i hi
    exact Function.update_of_ne (Nat.ne_of_lt (Nat.lt_succ_of_le hi)) _ _
  have hnew : Function.update w.place (w.m + 1) b (w.m + 1) = b := Function.update_self ..
  have hm : (w.m + 1) * K = sh.p.count := by rw [Nat.add_mul, Nat.one_mul, hg.p_count, hoff]
  refine ⟨?_, Nat.zero_le _, hnew.symm, hg.c_count, hg.c_off, ?_, Nat.le_succ_of_le hg.k_le,
    hg.built, hg.pushPub_le, hg.cachedPush_le, hg.count_le, hg.popPub_le, hg.cachedPop_le, ?_, ?_,
    ?_, ?_, ?_, ?_, ?_, ?_, hg.queue, hg.hidden⟩
  · show sh.p.count = (w.m + 1) * K + 0
    omega
  · exact hg.c_blk.trans (hold _ hg.k_le).symm
  · intro x hx
    show Function.update sh.next sh.p.blk b x < sh.blocks
    by_cases hxb : x = sh.p.blk
    · subst hxb; rwa [Function.update_self]
    · rw [Function.update_of_ne hxb]; exact hg.next_lt x hx
  · intro i hi him
    change i ≤ w.m + 1 at him
    show Function.update w.place (w.m + 1) b i < sh.blocks
    rcases Nat.lt_or_eq_of_le him with h | rfl
    · rw [hold i (Nat.le_of_lt_succ h)]; exact hg.live i hi (Nat.le_of_lt_succ h)
    · rw [hnew]; exact hb
  · intro i j hi hij hj
    change j ≤ w.m + 1 at hj
    show Function.update w.place (w.m + 1) b i ≠ Function.update w.place (w.m + 1) b j
    rw [hold i (by omega)]
    rcases Nat.lt_or_eq_of_le hj with h | rfl
    · rw [hold j (Nat.le_of_lt_succ h)]; exact hg.distinct i j hi hij (Nat.le_of_lt_succ h)
    · rw [hnew]; exact hfree i hi (Nat.le_of_lt_succ hij)
  · intro i hi him
    change i < w.m + 1 at him
    show Function.update sh.next sh.p.blk b (Function.update w.place (w.m + 1) b i) =
      Function.update w.place (w.m + 1) b (i + 1)
    rw [hold i (Nat.le_of_lt_succ him), hg.p_blk]
    rcases Nat.lt_or_eq_of_le (Nat.le_of_lt_succ him) with h | rfl
    · rw [hold (i + 1) h, Function.update_of_ne (hg.distinct i w.m hi h le_rfl), hg.next i hi h]
    · rw [hnew, Function.update_self]
  · intro i hi him
    change i ≤ w.m + 1 at him
    show Function.update sh.last b (sh.p.count + K) (Function.update w.place (w.m + 1) b i) = _
    rcases Nat.lt_or_eq_of_le him with h | rfl
    · have hi' := Nat.le_of_lt_succ h
      rw [hold i hi', Function.update_of_ne (hfree i hi hi'), hg.last i hi hi']
    · rw [hnew, Function.update_self, hm]
  · intro i j hj hc hp
    show sh.slot (Function.update w.place (w.m + 1) b i) j = w.built[i * K + j]?
    rw [hold i (hg.chunk_le_m hp)]
    exact hg.slot i j hj hc hp
  · intro x j hne
    rcases hg.full x j hne with ⟨i, h1, h2, h3, h4⟩ | hh
    · exact Or.inl ⟨i, h1, h2.trans (hold i (hg.chunk_le_m h4)).symm, h3, h4⟩
    · exact Or.inr hh
  · intro x j hh
    obtain ⟨h1, h2, h3⟩ := hg.held x j hh
    exact ⟨h1.trans (hold _ hg.k_le).symm, h2, h3⟩

/-- A block made and not yet linked is of no concern. -/
theorem G.makeBlock {cand : Nat} (hc : cand < sh.blocks) : G K (sh.makeBlock K cand) w := by
  have hne : ∀ i, w.k ≤ i → i ≤ w.m → w.place i ≠ sh.blocks :=
    fun i hi him => Nat.ne_of_lt (hg.live i hi him)
  refine { hg with next_lt := ?_, live := ?_, next := ?_, last := ?_ }
  · intro b hb
    change b < sh.blocks + 1 at hb
    show Function.update sh.next sh.blocks cand b < sh.blocks + 1
    by_cases hbb : b = sh.blocks
    · subst hbb; rw [Function.update_self]; omega
    · rw [Function.update_of_ne hbb]
      have := hg.next_lt b (by omega)
      omega
  · intro i hi him
    exact (hg.live i hi him).trans (Nat.lt_succ_self _)
  · intro i hi him
    exact (Function.update_of_ne (hne i hi (Nat.le_of_lt him)) _ _).trans (hg.next i hi him)
  · intro i hi him
    exact (Function.update_of_ne (hne i hi him) _ _).trans (hg.last i hi him)

/-- Everything built so far is published. -/
theorem G.publish {d : Deferred α} (hq : d.queue = w.abs.obj.queue ++ w.abs.obj.hidden)
    (hh : d.hidden = []) : G K { sh with pushPub := sh.p.count } { w with abs := ⟨d, p⟩ } := by
  have hcp : sh.c.count ≤ sh.pushPub := hg.count_le.trans hg.cachedPush_le
  refine { hg with
    pushPub_le := le_rfl, cachedPush_le := hg.cachedPush_le.trans hg.pushPub_le
    queue := ?_, hidden := ?_ }
  · show d.queue = (w.built.take sh.p.count).drop sh.c.count
    rw [← hg.built, List.take_length, hq, hg.queue, hg.hidden, drop_take_append_drop hcp]
  · show d.hidden = w.built.drop sh.p.count
    rw [← hg.built, List.drop_length, hh]

/-! ## The consumer -/

/-- The element in the held slot is destroyed. -/
theorem G.destroy (hh : w.held = some (b, i)) : G K (sh.destroy b i) { w with held := none } := by
  obtain ⟨hb, hi, -⟩ := hg.held b i hh
  refine { hg with slot := ?_, full := ?_, held := ?_ }
  · intro i' j hj hc hp
    refine Eq.trans (if_neg ?_) (hg.slot i' j hj hc hp)
    rintro ⟨hb', rfl⟩
    -- the held slot is before the consumer's place in its block
    have hk := hg.place_inj (hg.k_le_chunk hj hc) (hg.chunk_le_m hp) le_rfl hg.k_le
      (hb'.trans hb)
    subst hk
    change sh.c.count ≤ w.k * K + j at hc
    rw [hg.c_count] at hc
    omega
  · intro b' j hne
    have hbj : ¬ (b' = b ∧ j = i) := fun h => hne (if_pos h)
    have hne' : sh.slot b' j ≠ none := fun h0 => hne ((if_neg hbj).trans h0)
    rcases hg.full b' j hne' with h | h
    · exact Or.inl h
    · rw [hh] at h
      obtain ⟨rfl, rfl⟩ : b = b' ∧ i = j := by simpa using h
      exact absurd ⟨rfl, rfl⟩ hbj
  · intro b' j h
    cases h

theorem G.loadPush : G K sh.loadPush w :=
  { hg with cachedPush_le := le_rfl, count_le := hg.count_le.trans hg.cachedPush_le }

/-- There is a chunk after the consumer's when there is an element in it. -/
theorem G.k_lt_m (hoff : sh.c.off = K) (hc : sh.c.count < sh.c.cachedPush) : w.k < w.m := by
  by_contra hge
  have h1 : w.k = w.m := Nat.le_antisymm hg.k_le (Nat.le_of_not_lt hge)
  have h2 := hg.p_off
  have h3 := hg.c_count
  have h4 := hg.p_count
  have h5 := hg.cachedPush_le.trans hg.pushPub_le
  rw [h1] at h3
  omega

/-- The consumer follows the `next` pointer of its block. -/
theorem G.follow (hoff : sh.c.off = K) (hc : sh.c.count < sh.c.cachedPush) (hfree : w.held = none) :
    G K sh.follow { w with k := w.k + 1 } := by
  have hkm := hg.k_lt_m hoff hc
  have hk : (w.k + 1) * K = sh.c.count := by rw [Nat.add_mul, Nat.one_mul, hg.c_count, hoff]
  refine { hg with
    c_count := ?_, c_off := Nat.zero_le _, c_blk := ?_, k_le := hkm, popPub_le := ?_, live := ?_
    distinct := ?_, next := ?_, last := ?_, held := ?_ }
  · show sh.c.count = (w.k + 1) * K + 0
    omega
  · show sh.next sh.c.blk = w.place (w.k + 1)
    rw [hg.c_blk, hg.next w.k le_rfl hkm]
  · exact hg.popPub_le.trans (Nat.mul_le_mul_right K (Nat.le_succ _))
  · exact fun i hi => hg.live i (Nat.le_of_succ_le hi)
  · exact fun i j hi => hg.distinct i j (Nat.le_of_succ_le hi)
  · exact fun i hi => hg.next i (Nat.le_of_succ_le hi)
  · exact fun i hi => hg.last i (Nat.le_of_succ_le hi)
  · intro b j hh
    rw [show w.held = some (b, j) from hh] at hfree
    cases hfree

/-- The consumer announces that it has left every chunk before its own. -/
theorem G.leave (hoff : sh.c.off = 0) : G K { sh with popPub := sh.c.count } w := by
  have hk : sh.c.count = w.k * K := by rw [hg.c_count, hoff, Nat.add_zero]
  have hle : sh.popPub ≤ sh.c.count := hk ▸ hg.popPub_le
  exact { hg with popPub_le := Nat.le_of_eq hk, cachedPop_le := hg.cachedPop_le.trans hle }

/-- The oldest element in the queue is the one at the consumer's place. -/
theorem G.front (hoff : sh.c.off < K) (hc : sh.c.count < sh.c.cachedPush) :
    ∃ v q, w.abs.obj.queue = v :: q ∧ sh.slot sh.c.blk sh.c.off = some v ∧
      w.built[sh.c.count]? = some v ∧
      w.built.take (sh.c.count + 1) = w.built.take sh.c.count ++ [v] ∧
      q = (w.built.take sh.pushPub).drop (sh.c.count + 1) := by
  have hpub : sh.c.count < sh.pushPub := hc.trans_le hg.cachedPush_le
  have hlen : sh.c.count < w.built.length := by rw [hg.built]; exact hpub.trans_le hg.pushPub_le
  have hlen' : sh.c.count < (w.built.take sh.pushPub).length := by
    rw [List.length_take]; exact lt_min hpub hlen
  refine ⟨w.built[sh.c.count], _, ?_, ?_, List.getElem?_eq_getElem hlen, ?_, rfl⟩
  · rw [hg.queue, List.drop_eq_getElem_cons hlen', List.getElem_take]
  · have h := hg.slot w.k sh.c.off hoff (Nat.le_of_eq hg.c_count)
      (by rw [← hg.c_count, ← hg.built]; exact hlen)
    rw [hg.c_blk, h, ← hg.c_count, List.getElem?_eq_getElem hlen]
  · rw [List.take_concat_get']

/-- The consumer goes past its element, whose slot it then holds. -/
theorem G.pass (hoff : sh.c.off < K) (hc : sh.c.count < sh.c.cachedPush) (hfree : w.held = none)
    {lent : Option (Nat × Nat)} {d : Deferred α}
    (hq : d.queue = (w.built.take sh.pushPub).drop (sh.c.count + 1))
    (hh : d.hidden = w.abs.obj.hidden) :
    G K { sh with c := { sh.c with
        off := sh.c.off + 1, count := sh.c.count + 1, lent := lent } }
      { w with abs := ⟨d, p⟩, held := some (sh.c.blk, sh.c.off) } := by
  obtain ⟨v, -, -, hv, -⟩ := hg.front hoff hc
  refine { hg with
    c_count := ?_, c_off := hoff, count_le := hc, slot := ?_, full := ?_, held := ?_
    queue := hq, hidden := hh.trans hg.hidden }
  · show sh.c.count + 1 = w.k * K + (sh.c.off + 1)
    rw [hg.c_count, Nat.add_assoc]
  · exact fun i j hj hc => hg.slot i j hj (Nat.le_of_succ_le hc)
  · intro b j hne
    rcases hg.full b j hne with ⟨i, h1, h2, h3, h4⟩ | h
    · by_cases heq : i * K + j = sh.c.count
      · -- the element just popped
        obtain ⟨rfl, rfl⟩ := number_inj h1 hoff (heq.trans hg.c_count)
        exact Or.inr (by rw [h2, ← hg.c_blk])
      · exact Or.inl ⟨i, h1, h2, by show sh.c.count + 1 ≤ i * K + j; omega, h4⟩
    · rw [hfree] at h
      cases h
  · intro b j h
    obtain ⟨rfl, rfl⟩ : sh.c.blk = b ∧ sh.c.off = j := by simpa using h
    exact ⟨hg.c_blk, Nat.lt_succ_self _, by rw [hv]; simp⟩

/-! ## The rule -/

/-- What a step proves: the ghost moves along and everything is kept. -/
def Kept (K : Nat) (t : Side) (sh : Shared α) (w : Ghost α) (r : Shared α × Loc α) : Prop :=
  ∃ w', keeps (deferredFifo α never) Ghost.abs Ghost.hist w [] w' ∧ G K r.1 w' ∧
    L K t r.1 w' (some r.2) ∧ Rely t sh w r.1 w'

omit hg in
/-- A step that changes neither the atomic object nor the history. -/
theorem keeps_same {w w' : Ghost α} (h : w'.abs = w.abs) (hh : w'.hist = w.hist) :
    keeps (deferredFifo α never) Ghost.abs Ghost.hist w [] w' := by
  refine ⟨?_, by rw [hh, List.append_nil]⟩
  unfold carries
  rw [h]
  exact .steps .refl

omit hg in
theorem keeps_lin {w w' : Ghost α} (h : Atomic.Steps (deferredFifo α never) w.abs w'.abs)
    (hh : w'.hist = w.hist) : keeps (deferredFifo α never) Ghost.abs Ghost.hist w [] w' :=
  ⟨.steps h, by rw [hh, List.append_nil]⟩

theorem build_step (hoff : sh.p.off < K) {v : α} {pub : Bool} (hp : Pushing w .producer v pub) :
    Kept K .producer sh w (sh.build v, afterBuild pub) := by
  obtain ⟨-, hpend, hpu⟩ := hp
  have hself := w.abs.lin_pend_self .producer (rest pub) [.pushed] (w.abs.obj.put v)
  refine ⟨{ w with
    abs := w.abs.lin .producer (rest pub) [.pushed] (w.abs.obj.put v)
    built := w.built ++ [v] }, keeps_lin (hpend.lin (DeferStep.defer _ v rfl)) rfl,
    hg.build hoff rfl rfl, ?_, ?_⟩
  · cases pub with
    | true => exact ⟨rfl, hpu, hself⟩
    | false => exact ⟨hself, hpu, rfl⟩
  · refine ⟨fun u hu => w.abs.lin_pend_ne hu _ _ _, rfl, rfl, rfl, ?_, ?_⟩
    · exact List.take_append_of_le_length (by rw [hg.built]; exact hg.count_le_p)
    · intro b j hh
      refine if_neg ?_
      rintro ⟨rfl, rfl⟩
      exact hg.slot_free.2 hh

/-- The turnover steps. The producer's part of the ghost moves and nothing else. -/
theorem goOn_step (hK : 2 ≤ K) (hoff : sh.p.off = K) (hb : b < sh.blocks)
    (hfree : ∀ i, w.k ≤ i → i ≤ w.m → w.place i ≠ b) {v : α} {pub : Bool}
    (hp : Pushing w .producer v pub) : Kept K .producer sh w (sh.goOn K b, .build v pub) := by
  refine ⟨{ w with place := Function.update w.place (w.m + 1) b, m := w.m + 1 },
    keeps_same rfl rfl, hg.goOn hoff hb hfree, ⟨hp, ?_⟩, fun _ _ => rfl, rfl, rfl, rfl, rfl,
    fun _ _ _ => rfl⟩
  show 0 < K
  omega

end

/-- The producer's steps. -/
theorem producer_step (hK : 2 ≤ K) (hg : G K sh w) {c : Bool} {l : Loc α} {r : Shared α × Loc α}
    (hl : L K .producer sh w (some l)) (hs : step K c sh l = some r) :
    Kept K .producer sh w r := by
  cases l with
  | put v pub =>
    simp only [step] at hs
    split at hs
    · next hoff =>
      have hb : sh.next sh.p.blk < sh.blocks :=
        hg.next_lt _ (by rw [hg.p_blk]; exact hg.live _ hg.k_le le_rfl)
      split at hs
      · next hd =>
        obtain rfl := Option.some.inj hs
        rw [reuse_eq_goOn]
        exact goOn_step hg hK hoff hb (hg.drained hK (hd.trans hg.cachedPop_le)) hl
      · obtain rfl := Option.some.inj hs
        exact ⟨w, keeps_same rfl rfl, hg, ⟨hl, hoff, rfl⟩, .refl _ _ _⟩
    · next hoff =>
      obtain rfl := Option.some.inj hs
      exact build_step hg (lt_of_le_of_ne hg.p_off hoff) hl
  | drain v pub cand =>
    obtain ⟨hp, hoff, rfl⟩ := hl
    have hb : sh.next sh.p.blk < sh.blocks :=
      hg.next_lt _ (by rw [hg.p_blk]; exact hg.live _ hg.k_le le_rfl)
    -- the copy of `pop_pub_` is brought up to date first
    have hg' : G K { sh with p := { sh.p with cachedPop := sh.popPub } } w :=
      { hg with cachedPop_le := le_rfl }
    simp only [step] at hs
    split at hs
    · next hd =>
      obtain rfl := Option.some.inj hs
      obtain ⟨w', h1, h2, h3, h4, h5⟩ := goOn_step hg' hK hoff hb (hg'.drained hK hd) hp
      rw [← reuse_eq_goOn] at h2 h3 h5
      exact ⟨w', h1, h2, h3, h4, h5⟩
    · obtain rfl := Option.some.inj hs
      refine ⟨w, keeps_same rfl rfl, hg'.makeBlock hb, ⟨hp, hoff, Nat.lt_succ_self _, ?_, ?_⟩,
        fun _ _ => rfl, rfl, rfl, rfl, rfl, fun _ _ _ => rfl⟩
      · exact Function.update_self ..
      · exact fun i hi him => Nat.ne_of_lt (hg.live i hi him)
  | insert v pub nb =>
    obtain ⟨hp, hoff, hnb, hlast, hfree⟩ := hl
    obtain rfl := Option.some.inj hs
    rw [insert_eq_goOn hlast]
    exact goOn_step hg hK hoff hnb hfree hp
  | build v pub =>
    obtain rfl := Option.some.inj hs
    exact build_step hg hl.2 hl.1
  | publish deferred =>
    obtain ⟨-, hpu, hpend⟩ := hl
    obtain rfl := Option.some.inj hs
    have hself := w.abs.lin_pend_self .producer []
      ((if deferred then [.pushed] else []) ++ [.pushed]) w.abs.obj.show
    refine ⟨{ w with
        abs := w.abs.lin .producer [] ((if deferred then [.pushed] else []) ++ [.pushed])
          w.abs.obj.show },
      keeps_lin (hpend.lin (DeferStep.publish _)) rfl, hg.publish rfl rfl, ?_,
      fun u hu => w.abs.lin_pend_ne hu _ _ _, rfl, rfl, rfl, rfl, fun _ _ _ => rfl⟩
    cases deferred <;> exact ⟨hself, hpu, rfl⟩
  | release b | check b | slip b | turn b | leave b | fetch b => exact absurd hl.1.1 (by decide)
  | take b i =>
    obtain ⟨v, hv, -⟩ := hl
    exact absurd hv (by decide)
  | destroy b i x =>
    obtain ⟨v, ⟨hv, -⟩, -⟩ := hl
    exact absurd hv (by decide)
  | done ans => cases hs

/-- The pop takes effect. -/
theorem fetch_step (hg : G K sh w) {borrow : Bool} (hp : Popping sh w .consumer)
    (hfree : Free sh w) (hc : sh.c.count < sh.c.cachedPush) (hoff : sh.c.off < K) :
    Kept K .consumer sh w (fetch sh borrow) := by
  obtain ⟨-, hpend, hpo⟩ := hp
  obtain ⟨v, q, hq, hv, -, htake, hdrop⟩ := hg.front hoff hc
  have hself := w.abs.lin_pend_self .consumer [] [.popped (some v)] { w.abs.obj with queue := q }
  have hothers : ∀ u, u ≠ Side.consumer → (w.abs.lin .consumer [] [.popped (some v)]
      { w.abs.obj with queue := q }).pend u = w.abs.pend u :=
    fun u hu => w.abs.lin_pend_ne hu _ _ _
  have htake' : w.built.take (sh.c.count + 1) = pops w.hist ++ [v] := by rw [htake, hpo]
  have hk : keeps (deferredFifo α never) Ghost.abs Ghost.hist w [] { w with
      abs := w.abs.lin .consumer [] [.popped (some v)] { w.abs.obj with queue := q }
      held := some (sh.c.blk, sh.c.off) } := keeps_lin (hpend.lin (DeferStep.pop_of hq)) rfl
  cases borrow with
  | true =>
    refine ⟨_, hk, hg.pass hoff hc hfree.1 hdrop rfl, ?_,
      hothers, rfl, rfl, rfl, rfl, rfl, rfl, rfl, rfl, le_rfl⟩
    show L K .consumer _ _ (some (.done [.popped (sh.slot sh.c.blk sh.c.off)]))
    rw [hv]
    exact ⟨hself, htake', rfl⟩
  | false =>
    exact ⟨_, hk, hg.pass hoff hc hfree.1 hdrop rfl, ⟨v, rfl, hself, htake', rfl, hfree.2, hv⟩,
      hothers, rfl, rfl, rfl, rfl, rfl, rfl, rfl, rfl, le_rfl⟩

/-- The consumer's steps. -/
theorem consumer_step (hK : 2 ≤ K) (hg : G K sh w) {c : Bool} {l : Loc α} {r : Shared α × Loc α}
    (hl : L K .consumer sh w (some l)) (hs : step K c sh l = some r) :
    Kept K .consumer sh w r := by
  -- what the producer sees of a step that leaves its own part alone
  have same : ∀ {sh' : Shared α} {w' : Ghost α}, sh'.p = sh.p → sh'.next = sh.next →
      sh'.last = sh.last → sh'.blocks = sh.blocks → w'.abs = w.abs → w'.hist = w.hist →
      w'.place = w.place → w'.m = w.m → w'.built = w.built → w.k ≤ w'.k →
      Rely .consumer sh w sh' w' := by
    intro sh' w' h1 h2 h3 h4 h5 h6 h7 h8 h9 h10
    exact ⟨fun u _ => by rw [h5], h1, h2, h3, h4, h7, h8, h9, by rw [h6], h10⟩
  cases l with
  | put v pub | publish deferred => exact absurd hl.1 (by decide)
  | drain v pub cand | insert v pub nb | build v pub => exact absurd hl.1.1 (by decide)
  | release borrow =>
    obtain ⟨hp, hh⟩ := hl
    obtain rfl := Option.some.inj hs
    unfold Shared.releaseLent
    split
    · next hlent =>
      exact ⟨w, keeps_same rfl rfl, hg, ⟨hp, hh.trans hlent, hlent⟩, .refl _ _ _⟩
    · next b i hlent =>
      have hg' := hg.destroy (hh.trans hlent)
      exact ⟨{ w with held := none }, keeps_same rfl rfl, { hg' with }, ⟨hp, rfl, rfl⟩,
        same rfl rfl rfl rfl rfl rfl rfl rfl rfl le_rfl⟩
  | check borrow =>
    obtain ⟨hp, hfree⟩ := hl
    simp only [step] at hs
    split at hs
    · next heq =>
      obtain rfl := Option.some.inj hs
      split
      · next hpub =>
        -- every published element has been popped
        have hq : w.abs.obj.queue = [] := by rw [hg.queue, ← hpub]; simp
        refine ⟨{ w with abs := w.abs.lin .consumer [] [.popped none] w.abs.obj },
          keeps_lin (hp.2.1.lin (DeferStep.empty_of hq)) rfl, { hg.loadPush with },
          ⟨w.abs.lin_pend_self _ _ _ _, ?_, ?_⟩, fun u hu => w.abs.lin_pend_ne hu _ _ _, rfl, rfl,
          rfl, rfl, rfl, rfl, rfl, rfl, le_rfl⟩
        · show w.built.take sh.c.count = pops w.hist ++ []
          rw [List.append_nil, hp.2.2]
        · exact hfree.1.trans hfree.2.symm
      · next hpub =>
        refine ⟨w, keeps_same rfl rfl, hg.loadPush, ⟨hp, hfree, ?_⟩,
          same rfl rfl rfl rfl rfl rfl rfl rfl rfl le_rfl⟩
        exact lt_of_le_of_ne (hg.count_le.trans hg.cachedPush_le) hpub
    · next hne =>
      obtain rfl := Option.some.inj hs
      exact ⟨w, keeps_same rfl rfl, hg, ⟨hp, hfree, lt_of_le_of_ne hg.count_le hne⟩,
        .refl _ _ _⟩
  | slip borrow =>
    obtain ⟨hp, hfree, hc⟩ := hl
    simp only [step] at hs
    split at hs
    · obtain rfl := Option.some.inj hs
      exact ⟨w, keeps_same rfl rfl, hg.loadPush, ⟨hp, hfree, hc.trans_le hg.cachedPush_le⟩,
        same rfl rfl rfl rfl rfl rfl rfl rfl rfl le_rfl⟩
    · obtain rfl := Option.some.inj hs
      exact ⟨w, keeps_same rfl rfl, hg, ⟨hp, hfree, hc⟩, .refl _ _ _⟩
  | turn borrow =>
    obtain ⟨hp, hfree, hc⟩ := hl
    simp only [step] at hs
    split at hs
    · next hoff =>
      obtain rfl := Option.some.inj hs
      exact ⟨{ w with k := w.k + 1 }, keeps_same rfl rfl, hg.follow hoff hc hfree.1,
        ⟨hp, hfree, hc, rfl⟩, same rfl rfl rfl rfl rfl rfl rfl rfl rfl (Nat.le_succ _)⟩
    · next hoff =>
      obtain rfl := Option.some.inj hs
      exact fetch_step hg hp hfree hc (lt_of_le_of_ne hg.c_off hoff)
  | leave borrow =>
    obtain ⟨hp, hfree, hc, hoff⟩ := hl
    obtain rfl := Option.some.inj hs
    refine ⟨w, keeps_same rfl rfl, hg.leave hoff, ⟨hp, hfree, hc, ?_⟩,
      same rfl rfl rfl rfl rfl rfl rfl rfl rfl le_rfl⟩
    show sh.c.off < K
    omega
  | fetch borrow =>
    obtain ⟨hp, hfree, hc, hoff⟩ := hl
    obtain rfl := Option.some.inj hs
    exact fetch_step hg hp hfree hc hoff
  | take b i =>
    obtain ⟨v, hv⟩ := hl
    obtain rfl := Option.some.inj hs
    exact ⟨w, keeps_same rfl rfl, hg, ⟨v, hv, hv.2.2.2.2.2⟩, .refl _ _ _⟩
  | destroy b i x =>
    obtain ⟨v, ⟨-, hpend, hpo, hh, hlent, -⟩, rfl⟩ := hl
    obtain rfl := Option.some.inj hs
    exact ⟨{ w with held := none }, keeps_same rfl rfl, hg.destroy hh,
      ⟨hpend, hpo, hlent.symm⟩, same rfl rfl rfl rfl rfl rfl rfl rfl rfl le_rfl⟩
  | done ans => cases hs

/-- Everything holds before any call. -/
theorem G.init : G K (.init K) (.init : Ghost α) := by
  constructor <;>
    simp +contextual [Shared.init, Ghost.init, Atomic.init, deferredFifo]
  · intro b _
    split <;> omega
  · intro i j _ hij
    omega

/-- A call leaves the ring as it is. -/
theorem L.call (hl : L K t sh w none) {c : Call α} (ht : t = c.side) :
    L K t sh { w with
      abs := w.abs.set t (some (.new c.ops))
      hist := w.hist ++ [.call t c.ops] } (some (start c)) := by
  subst ht
  obtain ⟨-, hset⟩ := hl
  have hnew : (w.abs.set c.side (some (.new c.ops))).Pend c.side c.ops [] :=
    ⟨_, Atomic.State.set_pend_self _ _ _⟩
  cases c with
  | push v | pushDeferred v => exact ⟨rfl, hnew, by rw [pushes_append, hset.1]; rfl⟩
  | publish => exact ⟨rfl, by rw [pushes_append, hset.1]; exact List.append_nil _, hnew⟩
  | consume | tryPopBorrow => exact ⟨⟨rfl, hnew, by rw [pops_append]; exact hset.1.symm⟩, hset.2⟩

/-- The other side does not see a call. -/
theorem Rely.call {c : Call α} (ht : t = c.side) :
    Rely t sh w sh { w with
      abs := w.abs.set t (some (.new c.ops))
      hist := w.hist ++ [.call t c.ops] } := by
  subst ht
  refine ⟨fun u hu => Atomic.State.set_pend_ne _ hu _, ?_⟩
  cases c with
  | push v | pushDeferred v | publish => exact ⟨rfl, rfl, by simp, rfl, fun _ _ _ => rfl⟩
  | consume | tryPopBorrow =>
    exact ⟨rfl, rfl, rfl, rfl, rfl, rfl, rfl, by simp [pushes, Call.ops], le_rfl⟩

/-- The proof of the ring. -/
def rule (hK : 2 ≤ K) : Rule (machine K) (fun _ => True)
    (keeps (deferredFifo α never) Ghost.abs Ghost.hist) where
  w₀ := .init
  G := G K
  L := L K
  rely := Rely
  init := by
    refine ⟨G.init, fun t => ⟨rfl, ?_⟩⟩
    cases t with
    | producer => exact ⟨rfl, rfl⟩
    | consumer => exact ⟨rfl, rfl⟩
  call := by
    intro s w t c hg hl _ hloc hm
    have hlt := hl t
    rw [hloc] at hlt
    exact ⟨{ w with
        abs := w.abs.set t (some (.new c.ops))
        hist := w.hist ++ [.call t c.ops] },
      ⟨.call hlt.1 _, rfl⟩, { hg with }, hlt.call hm, .call hm⟩
  step := by
    intro s w t l c sh' l' hg _ _ _ _ hl hs
    cases t with
    | producer => exact producer_step hK hg hl hs
    | consumer => exact consumer_step hK hg hl hs
  ret := by
    intro s w t l ans hg hl _ hloc ha
    have hlt := hl t
    rw [hloc] at hlt
    cases l <;> simp only [machine, answer, Option.some.injEq, reduceCtorEq] at ha
    subst ha
    obtain ⟨⟨seen, hp⟩, hset⟩ := hlt
    refine ⟨{ w with abs := w.abs.set t none, hist := w.hist ++ [.ret t _] },
      ⟨.ret .refl hp, rfl⟩, { hg with }, ⟨Atomic.State.set_pend_self _ _ _, ?_⟩,
      fun u hu => Atomic.State.set_pend_ne _ hu _, ?_⟩
    · cases t with
      | producer => exact ⟨by simpa using hset.1, rfl⟩
      | consumer => exact ⟨by simpa [elements] using hset.1, hset.2⟩
    · cases t with
      | producer => exact ⟨rfl, rfl, by simp [hset.2], rfl, fun _ _ _ => rfl⟩
      | consumer => exact ⟨rfl, rfl, rfl, rfl, rfl, rfl, rfl, by simp, le_rfl⟩
  stable := fun hu _ _ hl hr => hl.stable hu hr

end Wtc.Spsc
