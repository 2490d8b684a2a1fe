import Wtc.CQueue.Model

/-!
# Every step of the lifted queue is one of the original, or none

An operation takes effect at the look that succeeds, or, when it answers "finished", at the look
that found nothing after `closed_` was read; a termination takes effect at its fetch-and-add.
-/

namespace Wtc.CQueue

open Wtc.Concurrent

variable {P Tid : Type} [DecidableEq Tid] {cfg : Cfg}

/-! ## The looks -/

theorem least_toNat (a limit : BitVec 64) : (least a limit).toNat = min a.toNat limit.toNat := by
  unfold least
  split_ifs with h
  · have : a.toNat < limit.toNat := h
    omega
  · have : ¬ a.toNat < limit.toNat := h
    omega

/-- The number of elements of a batch fits an `int`. -/
theorem toInt_ofNat {k : Nat} (h : k ≤ 2 ^ 30) : (BitVec.ofNat 32 k).toInt = k := by
  rw [BitVec.toInt_eq_toNat_cond, BitVec.toNat_ofNat]
  split <;> omega

/-- A batch of `k` elements goes in, where `k` may be zero only with nothing to move. -/
theorem pushBatch_took {src : OwnRing P} {limit : BitVec 64} {q q' : List P} {g : Got P}
    (h : look cfg (.pushBatch src limit) q = (q', some g)) :
    q.length < cfg.capacity ∧
      ∃ k, k = min (min src.count.toNat limit.toNat) (cfg.capacity - q.length) ∧
        g = .moved k (src.removeN k).2 ∧ q' = q ++ src.contents.take k := by
  have hm := least_toNat src.count limit
  simp only [look] at h
  split_ifs at h with h0
  · simp only [boundedStep] at h
    split_ifs at h with hlt <;> cases h
    rw [h0] at hm
    exact ⟨hlt, 0, by simp at hm; omega, rfl, by simp⟩
  · have hpos : 0 < (least src.count limit).toNat := by
      rcases Nat.eq_zero_or_pos (least src.count limit).toNat with hz | hz
      · exact absurd (BitVec.eq_of_toNat_eq hz) h0
      · exact hz
    have hle : (least src.count limit).toNat ≤ src.contents.length := by
      rw [OwnRing.length_contents]
      omega
    obtain ⟨h1, -, -⟩ := src.removeN_spec _ hle
    simp only [boundedStep, h1, List.length_take, Nat.min_eq_left hle, List.take_take] at h
    split_ifs at h with hk <;> cases h
    refine ⟨by omega, _, by rw [← hm], rfl, ?_⟩
    rw [Nat.min_comm]

/-- As many of the oldest elements as the caller's ring has room for come out. -/
theorem popBatch_took {dst : OwnRing P} {limit : BitVec 64} {q q' : List P} {g : Got P}
    (h : look cfg (.popBatch dst limit) q = (q', some g)) :
    q ≠ [] ∧ g = .moved (q.take (min dst.room.toNat limit.toNat)).length
        (dst.insertAll (q.take (min dst.room.toNat limit.toNat))) ∧
      q' = q.drop (min dst.room.toNat limit.toNat) := by
  have hm := least_toNat dst.room limit
  simp only [look] at h
  split_ifs at h with h0
  · simp only [boundedStep] at h
    split_ifs at h with hpos <;> cases h
    rw [h0] at hm
    rw [← hm]
    exact ⟨List.ne_nil_of_length_pos hpos, rfl, rfl⟩
  · simp only [boundedStep] at h
    split_ifs at h with hpos <;> cases h
    rw [hm] at hpos
    refine ⟨fun hq => ?_, by rw [hm], by rw [hm]⟩
    simp [hq] at hpos

/-- A look that succeeds is the operation of the original. -/
theorem look_took {c : Call P} {q q' : List P} {g : Got P} (hcap : cfg.capacity ≤ 2 ^ 30)
    (hq : q.length ≤ cfg.capacity) (h : look cfg c q = (q', some g)) (n : Nat) :
    Original.Step cfg ⟨q, n⟩ c (c.answer (some g)) ⟨q', n⟩ := by
  cases c with
  | pushWait v =>
    by_cases hfull : q.length = cfg.capacity
    · simp [look, boundedStep, hfull] at h
    · simp only [look, boundedStep, hfull, if_false] at h
      cases h
      exact ⟨by show q.length < _; omega, rfl, rfl⟩
  | popWait =>
    cases q with
    | nil => cases h
    | cons v rest =>
      cases h
      exact .inl ⟨v, rest, rfl, rfl, rfl⟩
  | terminate => cases h
  | pushBatch src limit =>
    obtain ⟨hlt, k, hk, hg, hq'⟩ := pushBatch_took h
    subst hg hq'
    have hle : k ≤ src.contents.length := by rw [OwnRing.length_contents]; omega
    obtain ⟨-, h2, h3⟩ := src.removeN_spec k hle
    have hk' : k = min limit.toNat (min src.contents.length (cfg.capacity - q.length)) := by
      rw [OwnRing.length_contents]
      omega
    refine ⟨hlt, ⟨_, _, rfl, ?_, h3, ?_⟩, ?_⟩
    · exact hk' ▸ toInt_ofNat (by omega)
    · exact hk' ▸ h2
    · exact hk' ▸ rfl
  | popBatch dst limit =>
    obtain ⟨hne, hg, hq'⟩ := popBatch_took h
    subst hg hq'
    have hroom := dst.room_toNat
    have hlt := dst.count_lt
    set m := min dst.room.toNat limit.toNat
    have hk' : (q.take m).length =
        min limit.toNat (min (dst.slots.toNat - 1 - dst.contents.length) q.length) := by
      rw [List.length_take, OwnRing.length_contents]
      omega
    obtain ⟨h1, h2⟩ := dst.insertAll_spec (q.take m) (by
      rw [OwnRing.length_contents, List.length_take]
      omega)
    refine .inl ⟨hne, ⟨_, _, rfl, ?_, h2, ?_⟩, ?_⟩
    · rw [← hk']
      exact toInt_ofNat (by rw [List.length_take]; omega)
    · rw [← hk', h1, List.length_take, ← List.take_eq_take_min]
    · rw [← hk', List.length_take, ← List.drop_eq_drop_min]

/-- A look that finds nothing changes nothing; where the operation can answer "finished" the ring
is empty. -/
theorem look_missed {c : Call P} {q q' : List P} (h : look cfg c q = (q', none)) :
    q' = q ∧ (c.side = .notEmpty → c = .terminate ∨ q = []) := by
  cases c with
  | pushWait v =>
    by_cases hfull : q.length = cfg.capacity
    · simp only [look, boundedStep, hfull, if_true] at h
      cases h
      exact ⟨rfl, by simp [Call.side]⟩
    · simp [look, boundedStep, hfull] at h
  | popWait =>
    cases q with
    | nil => cases h; exact ⟨rfl, fun _ => .inr rfl⟩
    | cons v rest => cases h
  | terminate => cases h; exact ⟨rfl, fun _ => .inl rfl⟩
  | pushBatch src limit =>
    refine ⟨?_, by simp [Call.side]⟩
    simp only [look] at h
    split_ifs at h with h0 <;> simp only [boundedStep] at h <;> split_ifs at h with hk <;> cases h
    · rfl
    · have hnil : ((src.removeN (least src.count limit).toNat).1.take (cfg.capacity - q.length))
          = [] := by
        rw [List.take_eq_nil_iff, ← List.length_eq_zero_iff]
        omega
      rw [hnil, List.append_nil]
  | popBatch dst limit =>
    simp only [look] at h
    split_ifs at h with h0 <;> simp only [boundedStep] at h <;> split_ifs at h with hk <;> cases h
    · exact ⟨rfl, fun _ => .inr (List.length_eq_zero_iff.1 (by omega))⟩
    · have hpos : (least dst.room limit).toNat ≠ 0 := fun hz => h0 (BitVec.eq_of_toNat_eq hz)
      rw [List.length_take] at hk
      obtain rfl : q = [] := List.length_eq_zero_iff.1 (by omega)
      exact ⟨List.drop_nil, fun _ => .inr rfl⟩

/-- A look that finds nothing in a finished queue is the answer "finished" of the original. -/
theorem look_ended {c : Call P} {q : List P} {n : Nat} (hc : c.side = .notEmpty)
    (ht : c ≠ .terminate) (hq : q = []) (hf : cfg.Finished n) :
    Original.Step cfg ⟨q, n⟩ c (c.answer none) ⟨q, n⟩ := by
  cases c with
  | popWait | popBatch dst limit => exact .inr ⟨hq, hf, rfl, rfl⟩
  | terminate => exact absurd rfl ht
  | _ => cases hc

/-- The ring never holds more than its capacity. -/
theorem original_length_le {q q' : Held P} {c : Call P} {a : Ans P}
    (hq : q.ring.length ≤ cfg.capacity) (h : Original.Step cfg q c a q') :
    q'.ring.length ≤ cfg.capacity := by
  cases c with
  | pushWait v =>
    obtain ⟨hlt, -, rfl⟩ := h
    simpa using hlt
  | popWait =>
    rcases h with ⟨v, rest, hr, -, rfl⟩ | ⟨-, -, -, rfl⟩
    · rw [hr, List.length_cons] at hq
      exact Nat.le_of_succ_le hq
    · exact hq
  | terminate =>
    obtain ⟨-, rfl⟩ := h
    exact hq
  | pushBatch src limit =>
    obtain ⟨hlt, -, rfl⟩ := h
    simp only [List.length_append, List.length_take]
    omega
  | popBatch dst limit =>
    rcases h with ⟨-, -, rfl⟩ | ⟨-, -, -, rfl⟩
    · simp only [List.length_drop]
      omega
    · exact hq

end Wtc.CQueue
