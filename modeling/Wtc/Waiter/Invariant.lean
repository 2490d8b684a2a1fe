import Wtc.Waiter.Machine

/-!
# The invariant of the eventcount

`Inv` holds in every reachable state. Two of its fields carry the argument.

* `fresh` — once a thread has made its second look and found nothing, every element in the queue
  belongs to a notify that has not bumped the epoch yet, as long as the thread's key is the epoch.
* `pending` — while anyone sleeps, every element in the queue is matched by a thread that looks
  again or by a notify that has not woken anyone yet.

A wake-up that reaches fewer sleepers than it asks for leaves none asleep, and `fresh` then takes
the place of the count.
-/

namespace Wtc.Waiter

open Wtc.Concurrent

variable {N : Nat}

/-- Going to sleep unless the epoch is bumped or the next look succeeds. -/
def Loc.sleepy {R : Type} (w : Shared (Fin N)) (t : Fin N) : Loc R → Bool
  | .lastLook _ key wasClosed => wasClosed = false ∧ w.epoch = key.epoch
  | l => l.drowsy w t

def At.sleepy (w : Shared (Fin N)) (t : Fin N) : Option At → Bool
  | some (.inside l) => l.sleepy w t
  | _ => false

/-- The elements for which a thread is counted. -/
def At.credit (w : Shared (Fin N)) (t : Fin N) (x : Option At) : Nat :=
  (At.looks w t x).toNat + At.pending x

structure Inv (s : Config (Fin N) (State N) At) : Prop where
  epoch : s.sh.w.epoch = word s.sh.w.bumps
  waiters : s.sh.w.waiters = word (∑ u, (At.announced (s.loc u)).toNat)
  keys : ∀ u key, At.key (s.loc u) = some key →
    key.epoch = word key.bumps ∧ key.bumps ≤ s.sh.w.bumps
  asleep : ∀ u ∈ s.sh.w.asleep, ∃ limited key, s.loc u = some (.inside (.asleep limited key))
  fresh : (∃ u, At.drowsy s.sh.w u (s.loc u) = true) → s.sh.elems ≤ ∑ u, At.fresh (s.loc u)
  pending : (∃ u, u ∈ s.sh.w.asleep ∨ At.drowsy s.sh.w u (s.loc u) = true) →
    s.sh.elems ≤ ∑ u, At.credit s.sh.w u (s.loc u)
  closing : s.sh.w.closed = true → (∃ u, At.sleepy s.sh.w u (s.loc u) = true) →
    ∃ u, s.loc u = some (.inside .shutBump)
  closed : s.sh.w.closed = true → s.sh.w.asleep.Nonempty →
    ∃ u, s.loc u = some (.inside .shutBump) ∨ s.loc u = some (.inside .shutWake)

/-! ## Small facts -/

theorem At.sleepy_of_drowsy {w : Shared (Fin N)} {t : Fin N} {x : Option At}
    (h : At.drowsy w t x = true) : At.sleepy w t x = true := by
  rcases x with _ | _ | _ | _ | l <;> try cases h
  cases l <;> first | exact h | cases h

theorem At.announced_of_sleepy {w : Shared (Fin N)} {t : Fin N} {x : Option At}
    (h : At.sleepy w t x = true) : At.announced x = true := by
  rcases x with _ | _ | _ | _ | l <;> try cases h
  cases l <;> first | rfl | cases h

theorem At.key_of_sleepy {w : Shared (Fin N)} {t : Fin N} {x : Option At}
    (h : At.sleepy w t x = true) : ∃ key, At.key x = some key ∧ w.epoch = key.epoch := by
  rcases x with _ | _ | _ | _ | l <;> try cases h
  cases l <;> try cases h
  case lastLook limited key wasClosed => exact ⟨key, rfl, (of_decide_eq_true h).2⟩
  case check limited key => exact ⟨key, rfl, of_decide_eq_true h⟩
  case futex limited key => exact ⟨key, rfl, of_decide_eq_true h⟩
  case asleep limited key => exact ⟨key, rfl, (of_decide_eq_true h).2⟩

theorem At.fresh_le_credit (w : Shared (Fin N)) (t : Fin N) (x : Option At) :
    At.fresh x ≤ At.credit w t x := by
  rcases x with _ | _ | _ | _ | l <;> try exact Nat.zero_le _
  cases l <;> simp [At.fresh, At.credit, Loc.fresh, At.pending, Loc.pending]

/-- The number of bumps is the epoch of no key read before the last one. -/
theorem epoch_ne_key {b : Nat} {key : Key} (hk : key.epoch = word key.bumps)
    (hle : key.bumps ≤ b) (hlt : b + 1 < key.bumps + 2 ^ 32) : word (b + 1) ≠ key.epoch := by
  intro he
  have := word_inj (by omega) hlt (hk.symm.trans he.symm)
  omega

/-- With `waiters_` at zero nobody sleeps or is about to. -/
theorem Inv.nobody {s : Config (Fin N) (State N) At} (hi : Inv s) (hN : N ≤ intMax)
    (hw : s.sh.w.waiters = 0) (u : Fin N) :
    u ∉ s.sh.w.asleep ∧ At.drowsy s.sh.w u (s.loc u) = false := by
  have hle : ∑ u, (At.announced (s.loc u)).toNat ≤ N := by
    calc ∑ u, (At.announced (s.loc u)).toNat ≤ ∑ _u : Fin N, 1 :=
          Finset.sum_le_sum fun u _ => Bool.toNat_le _
      _ = N := by simp
  have hzero : ∑ u, (At.announced (s.loc u)).toNat = 0 := by
    have h0 : (0 : BitVec 32) = word 0 := rfl
    have := congrArg BitVec.toNat (hi.waiters.symm.trans (hw.trans h0))
    simp only [word_toNat, intMax] at this hN
    omega
  have hout : At.announced (s.loc u) = false := by
    have := Finset.sum_eq_zero_iff.1 hzero u (Finset.mem_univ u)
    simpa using this
  constructor
  · intro hu
    obtain ⟨limited, key, hl⟩ := hi.asleep u hu
    rw [hl] at hout
    cases hout
  · by_contra hd
    rw [Bool.not_eq_false] at hd
    rw [At.announced_of_sleepy (At.sleepy_of_drowsy hd)] at hout
    cases hout

/-! ## Steps that leave the epoch and the kernel alone -/

section Local

variable {s : Config (Fin N) (State N) At} {t : Fin N} {x : Option At} {n : Nat} {k : BitVec 32}

/-- The state after a step of `t` to `x` that leaves `n` elements and `k` in `waiters_`. -/
def moved (s : Config (Fin N) (State N) At) (t : Fin N) (x : Option At) (n : Nat) (k : BitVec 32) :
    Config (Fin N) (State N) At :=
  { s.set t x with sh := ⟨n, { s.sh.w with waiters := k }⟩ }

/-- What a thread brings along when it moves from `x` to `y` while `m` elements become `n`. -/
structure Fair (w : Shared (Fin N)) (t : Fin N) (x y : Option At) (m n : Nat) : Prop where
  key : ∀ key, At.key y = some key → key.epoch = word key.bumps ∧ key.bumps ≤ w.bumps
  asleep : t ∉ w.asleep
  fresh : n = 0 ∨ w.waiters = 0 ∨ n + At.fresh x ≤ m + At.fresh y
  credit : n = 0 ∨ w.waiters = 0 ∨ n + At.credit w t x ≤ m + At.credit w t y
  drowsy : At.drowsy w t y = true → n = 0 ∨ At.drowsy w t x = true
  sleepy : w.closed = true → At.sleepy w t y = true → At.sleepy w t x = true
  shut : x ≠ some (.inside .shutBump) ∧ x ≠ some (.inside .shutWake)

/-- A move to a place without a key. -/
theorem Fair.plain {w : Shared (Fin N)} {x y : Option At} {m : Nat} (hy : At.key y = none)
    (hx : x ≠ some (.inside .shutBump) ∧ x ≠ some (.inside .shutWake)) (ht : t ∉ w.asleep)
    (hfr : n = 0 ∨ w.waiters = 0 ∨ n + At.fresh x ≤ m + At.fresh y)
    (hcr : n = 0 ∨ w.waiters = 0 ∨ n + At.credit w t x ≤ m + At.credit w t y) :
    Fair w t x y m n := by
  have hs : At.sleepy w t y ≠ true := fun h => by
    obtain ⟨key, hk, -⟩ := At.key_of_sleepy h
    rw [hy] at hk
    cases hk
  exact ⟨by simp [hy], ht, hfr, hcr, fun h => absurd (At.sleepy_of_drowsy h) hs,
    fun _ h => absurd h hs, hx⟩

/-- A thread that is not in the `asleep` place is not in the kernel's list. -/
theorem Inv.awake (hi : Inv s) (h : ∀ limited key, s.loc t ≠ some (.inside (.asleep limited key))) :
    t ∉ s.sh.w.asleep := fun ht => by
  obtain ⟨limited, key, hl⟩ := hi.asleep t ht
  exact h limited key hl

/-- A thread other than `t`, or `t` itself, has the property after the move. -/
theorem exists_moved {p : Fin N → Option At → Prop} (h : ∃ u, p u ((s.set t x).loc u)) :
    p t x ∨ ∃ u, u ≠ t ∧ p u (s.loc u) := by
  obtain ⟨u, hu⟩ := h
  by_cases hut : u = t
  · subst hut; rw [Config.set_loc_self] at hu; exact .inl hu
  · rw [Config.set_loc_ne s hut] at hu; exact .inr ⟨u, hut, hu⟩

/-- **A fair move keeps the invariant.** -/
theorem inv_moved (hN : N ≤ intMax) (hi : Inv s) (hf : Fair s.sh.w t (s.loc t) x s.sh.elems n)
    (hk : ∀ m, s.sh.w.waiters = word (m + (At.announced (s.loc t)).toNat) →
      k = word (m + (At.announced x).toNat)) : Inv (moved s t x n k) := by
  have hself : (moved s t x n k).loc t = x := Config.set_loc_self s t x
  have hother : ∀ u, u ≠ t → (moved s t x n k).loc u = s.loc u :=
    fun u hut => Config.set_loc_ne s hut x
  have hsum : ∀ f : Fin N → Option At → Nat,
      (∑ u, f u ((moved s t x n k).loc u)) + f t (s.loc t) = (∑ u, f u (s.loc u)) + f t x :=
    fun f => Config.sum_set f s t x
  refine ⟨hi.epoch, ?_, ?_, ?_, ?_, ?_, ?_, ?_⟩
  · -- `waiters_` counts the others and the thread itself
    have hle : (At.announced (s.loc t)).toNat ≤ ∑ u, (At.announced (s.loc u)).toNat :=
      Finset.single_le_sum (f := fun u => (At.announced (s.loc u)).toNat)
        (fun _ _ => Nat.zero_le _) (Finset.mem_univ t)
    have hs := hsum fun _ y => (At.announced y).toNat
    obtain ⟨m, hm⟩ := Nat.exists_eq_add_of_le' hle
    have h' : ∑ u, (At.announced ((moved s t x n k).loc u)).toNat =
        m + (At.announced x).toNat := by omega
    exact (hk m (hm ▸ hi.waiters)).trans (congrArg word h').symm
  · intro u key hu
    by_cases hut : u = t
    · subst hut
      rw [hself] at hu
      exact hf.key key hu
    · rw [hother u hut] at hu
      exact hi.keys u key hu
  · intro u hu
    obtain ⟨limited, key, hl⟩ := hi.asleep u hu
    exact ⟨limited, key, (hother u fun h => hf.asleep (h ▸ hu)).trans hl⟩
  · intro hd
    have hold : n = 0 ∨ ∃ u, At.drowsy s.sh.w u (s.loc u) = true := by
      rcases exists_moved (p := fun u y => At.drowsy s.sh.w u y = true) hd with ht | ⟨u, -, hu⟩
      · exact (hf.drowsy ht).imp_right fun h => ⟨t, h⟩
      · exact .inr ⟨u, hu⟩
    rcases hold with h0 | ⟨u, hu⟩
    · exact h0.le.trans (Nat.zero_le _)
    rcases hf.fresh with h0 | hz | hle
    · exact h0.le.trans (Nat.zero_le _)
    · exact absurd hu (by simp [(hi.nobody hN hz u).2])
    have hs := hsum fun _ y => At.fresh y
    have := hi.fresh ⟨u, hu⟩
    show n ≤ ∑ u, At.fresh ((moved s t x n k).loc u)
    omega
  · intro hd
    have hold : n = 0 ∨ ∃ u, u ∈ s.sh.w.asleep ∨ At.drowsy s.sh.w u (s.loc u) = true := by
      rcases exists_moved
          (p := fun u y => u ∈ s.sh.w.asleep ∨ At.drowsy s.sh.w u y = true) hd with ht | ⟨u, -, hu⟩
      · exact ht.elim (fun h => absurd h hf.asleep)
          fun h => (hf.drowsy h).imp_right fun h => ⟨t, .inr h⟩
      · exact .inr ⟨u, hu⟩
    rcases hold with h0 | ⟨u, hu⟩
    · exact h0.le.trans (Nat.zero_le _)
    rcases hf.credit with h0 | hz | hle
    · exact h0.le.trans (Nat.zero_le _)
    · exact absurd hu (by simp [hi.nobody hN hz u])
    have hs := hsum (At.credit s.sh.w)
    have := hi.pending ⟨u, hu⟩
    show n ≤ ∑ u, At.credit s.sh.w u ((moved s t x n k).loc u)
    omega
  · intro hc hd
    have hold : ∃ u, At.sleepy s.sh.w u (s.loc u) = true := by
      rcases exists_moved (p := fun u y => At.sleepy s.sh.w u y = true) hd with ht | ⟨u, -, hu⟩
      · exact ⟨t, hf.sleepy hc ht⟩
      · exact ⟨u, hu⟩
    obtain ⟨u, hu⟩ := hi.closing hc hold
    exact ⟨u, (hother u fun h => hf.shut.1 (h ▸ hu)).trans hu⟩
  · intro hc hne
    obtain ⟨u, hu⟩ := hi.closed hc hne
    have hut : u ≠ t := fun h => hu.elim (h ▸ hf.shut.1) (h ▸ hf.shut.2)
    exact ⟨u, (hother u hut).symm ▸ hu⟩

end Local

/-! ## Steps of `wake`, of `sleep` and of `close` -/

section Special

variable {s : Config (Fin N) (State N) At} {t : Fin N} {x : Option At} {w : Shared (Fin N)}

/-- The state after a step of `t` to `x` that leaves the elements alone. -/
def changed (s : Config (Fin N) (State N) At) (t : Fin N) (x : Option At) (w : Shared (Fin N)) :
    Config (Fin N) (State N) At :=
  { s.set t x with sh := { s.sh with w := w } }

theorem changed_self : (changed s t x w).loc t = x := Config.set_loc_self s t x

theorem changed_other {u : Fin N} (h : u ≠ t) : (changed s t x w).loc u = s.loc u :=
  Config.set_loc_ne s h x

/-- What `waiters_` counts is left alone by a step that neither announces nor cancels. -/
theorem Inv.waiters_changed (hi : Inv s) (hw : w.waiters = s.sh.w.waiters)
    (hx : At.announced x = At.announced (s.loc t)) :
    w.waiters = word (∑ u, (At.announced ((changed s t x w).loc u)).toNat) := by
  have hs := Config.sum_set (fun _ y => (At.announced y).toNat) s t x
  rw [hx, Nat.add_right_cancel_iff] at hs
  rw [hw, hi.waiters]
  exact congrArg word hs.symm

theorem Inv.keys_changed (hi : Inv s) (hw : s.sh.w.bumps ≤ w.bumps)
    (hx : ∀ key, At.key x = some key → At.key (s.loc t) = some key) (u : Fin N) (key : Key)
    (hu : At.key ((changed s t x w).loc u) = some key) :
    key.epoch = word key.bumps ∧ key.bumps ≤ w.bumps := by
  have hold : At.key (s.loc u) = some key := by
    by_cases hut : u = t
    · subst hut; rw [changed_self] at hu; exact hx key hu
    · rw [changed_other hut] at hu; exact hu
  obtain ⟨he, hle⟩ := hi.keys u key hold
  exact ⟨he, hle.trans hw⟩

theorem Inv.asleep_changed (hi : Inv s) (hw : w.asleep ⊆ s.sh.w.asleep) (ht : t ∉ w.asleep)
    (u : Fin N) (hu : u ∈ w.asleep) :
    ∃ limited key, (changed s t x w).loc u = some (.inside (.asleep limited key)) := by
  obtain ⟨limited, key, hl⟩ := hi.asleep u (hw hu)
  have hut : u ≠ t := fun h => ht (h ▸ hu)
  exact ⟨limited, key, (changed_other hut).trans hl⟩

/-- After a bump nobody has the epoch for a key. -/
theorem Inv.sleepy_bump (hi : Inv s) (hx : At.key x = none)
    (hno : NoWrap (changed s t x s.sh.w.bump)) (u : Fin N) :
    At.sleepy s.sh.w.bump u ((changed s t x s.sh.w.bump).loc u) ≠ true := by
  intro hd
  obtain ⟨key, hk, he⟩ := At.key_of_sleepy hd
  have hlt := hno u key hk
  have hut : u ≠ t := by
    rintro rfl
    rw [changed_self, hx] at hk
    cases hk
  rw [changed_other hut] at hk
  obtain ⟨hke, hkb⟩ := hi.keys u key hk
  refine epoch_ne_key hke hkb hlt (.trans ?_ he)
  show word (s.sh.w.bumps + 1) = s.sh.w.epoch + 1
  rw [hi.epoch, word_succ]

theorem At.credit_bump {w : Shared (Fin N)} {u : Fin N} {y : Option At}
    (hd : At.sleepy w.bump u y ≠ true) : At.credit w u y ≤ At.credit w.bump u y := by
  rcases y with _ | _ | _ | _ | l <;> try exact le_rfl
  cases l <;> try exact le_rfl
  all_goals
    have hl : ¬ w.bump.epoch = _ := fun h => hd (decide_eq_true h)
    simp only [At.credit, At.looks, Loc.looks, hl, ne_eq, not_false_eq_true, decide_true]
    exact Nat.add_le_add_right (Bool.toNat_le _) _

/-- **The bump of the epoch, by a notify or a close.** -/
theorem inv_bump (hi : Inv s) (hx : At.key x = none) (hann : At.announced x = false)
    (hann' : At.announced (s.loc t) = false) (ht : t ∉ s.sh.w.asleep)
    (hcr : At.credit s.sh.w.bump t x = At.credit s.sh.w.bump t (s.loc t))
    (hshut : s.loc t = some (.inside .shutBump) → x = some (.inside .shutWake))
    (hshut' : s.loc t ≠ some (.inside .shutWake))
    (hno : NoWrap (changed s t x s.sh.w.bump)) : Inv (changed s t x s.sh.w.bump) := by
  have hs := hi.sleepy_bump hx hno
  have hd : ∀ u, At.drowsy s.sh.w.bump u ((changed s t x s.sh.w.bump).loc u) ≠ true :=
    fun u h => hs u (At.sleepy_of_drowsy h)
  refine ⟨?_, hi.waiters_changed rfl (hann.trans hann'.symm),
    hi.keys_changed (Nat.le_succ _) (by simp [hx]), hi.asleep_changed subset_rfl ht, ?_, ?_, ?_, ?_⟩
  · show s.sh.w.epoch + 1 = word (s.sh.w.bumps + 1)
    rw [hi.epoch, word_succ]
  · rintro ⟨u, hu⟩
    exact absurd hu (hd u)
  · rintro ⟨u, hu⟩
    have hu' : u ∈ s.sh.w.asleep := hu.resolve_right (hd u)
    have hsum := Config.sum_set (At.credit s.sh.w.bump) s t x
    have hmono : ∑ u, At.credit s.sh.w u (s.loc u) ≤ ∑ u, At.credit s.sh.w.bump u (s.loc u) := by
      refine Finset.sum_le_sum fun u _ => At.credit_bump fun h => ?_
      by_cases hut : u = t
      · subst hut
        rw [At.announced_of_sleepy h] at hann'
        cases hann'
      · exact hs u ((changed_other hut).symm ▸ h)
    have := hi.pending ⟨u, .inl hu'⟩
    show s.sh.elems ≤ ∑ u, At.credit s.sh.w.bump u ((s.set t x).loc u)
    omega
  · rintro - ⟨u, hu⟩
    exact absurd hu (hs u)
  · intro hc hne
    obtain ⟨u, hu⟩ := hi.closed hc hne
    by_cases hut : u = t
    · subst hut
      exact ⟨u, .inr (changed_self.trans (hshut (hu.resolve_right hshut')))⟩
    · exact ⟨u, (changed_other hut).symm ▸ hu⟩

/-! What a thread counts for depends on the kernel only through its own place there. -/

theorem At.credit_congr {w w' : Shared (Fin N)} {u : Fin N} (he : w'.epoch = w.epoch)
    (hu : u ∈ w'.asleep ↔ u ∈ w.asleep) (y : Option At) : At.credit w' u y = At.credit w u y := by
  rcases y with _ | _ | _ | _ | l <;> try rfl
  cases l <;> simp [At.credit, At.looks, Loc.looks, he, hu]

theorem At.sleepy_mono {w w' : Shared (Fin N)} {u : Fin N} (he : w'.epoch = w.epoch)
    (hu : u ∈ w'.asleep → u ∈ w.asleep) {y : Option At} (h : At.sleepy w' u y = true) :
    At.sleepy w u y = true := by
  rcases y with _ | _ | _ | _ | l <;> try cases h
  cases l <;> try cases h
  all_goals
    have h' := of_decide_eq_true h
    rw [he] at h'
  case asleep limited key => exact decide_eq_true ⟨hu h'.1, h'.2⟩
  all_goals exact decide_eq_true h'

theorem At.drowsy_mono {w w' : Shared (Fin N)} {u : Fin N} (he : w'.epoch = w.epoch)
    (hu : u ∈ w'.asleep → u ∈ w.asleep) {y : Option At} (h : At.drowsy w' u y = true) :
    At.drowsy w u y = true := by
  rcases y with _ | _ | _ | _ | l <;> try cases h
  cases l <;> try cases h
  all_goals
    have h' := of_decide_eq_true h
    rw [he] at h'
  case asleep limited key => exact decide_eq_true ⟨hu h'.1, h'.2⟩
  all_goals exact decide_eq_true h'

/-- Waking the threads of `W` makes each of them look again. -/
theorem Inv.credit_wake (hi : Inv s) {W : Finset (Fin N)} (hW : W ⊆ s.sh.w.asleep) :
    ∑ u, At.credit (s.sh.w.rouse W) u (s.loc u) =
      (∑ u, At.credit s.sh.w u (s.loc u)) + W.card := by
  have hpt : ∀ u, At.credit (s.sh.w.rouse W) u (s.loc u) =
      At.credit s.sh.w u (s.loc u) + if u ∈ W then 1 else 0 := by
    intro u
    by_cases hu : u ∈ W
    · obtain ⟨limited, key, hl⟩ := hi.asleep u (hW hu)
      simp [hl, At.credit, At.looks, Loc.looks, At.pending, Loc.pending, Shared.rouse, hu, hW hu]
    · rw [if_neg hu, add_zero]
      have he : (s.sh.w.rouse W).epoch = s.sh.w.epoch := rfl
      exact At.credit_congr he (by simp [Shared.rouse, hu]) _
  rw [Finset.sum_congr rfl fun u _ => hpt u, Finset.sum_add_distrib, Finset.sum_boole]
  simp

/-- **A wake-up of `n` sleepers, which are enough for the elements it is for or enough for all.** -/
theorem inv_wake (hi : Inv s) {W : Finset (Fin N)} {n : Nat} (hW : W ⊆ s.sh.w.asleep)
    (hn : W.card = min n s.sh.w.asleep.card) (hx : At.key x = none)
    (hann : At.announced x = At.announced (s.loc t)) (ht : t ∉ s.sh.w.asleep)
    (hfr : At.fresh x = At.fresh (s.loc t))
    (hcr : At.credit s.sh.w t (s.loc t) ≤ n ∨ N ≤ n)
    (hsl : At.sleepy s.sh.w t x ≠ true)
    (hshut : s.loc t ≠ some (.inside .shutBump))
    (hshut' : s.loc t = some (.inside .shutWake) → N ≤ n) :
    Inv (changed s t x (s.sh.w.rouse W)) := by
  set w' : Shared (Fin N) := s.sh.w.rouse W
  have he : w'.epoch = s.sh.w.epoch := rfl
  have hmem : ∀ {u}, u ∈ w'.asleep → u ∈ s.sh.w.asleep := fun h => (Finset.mem_sdiff.1 h).1
  have hle : s.sh.w.asleep.card ≤ N := by simpa using Finset.card_le_univ s.sh.w.asleep
  -- someone left asleep means that the wake-up reached as many as it asked for
  have hleft : ∀ {u}, u ∈ w'.asleep → W.card = n ∧ n < N := by
    intro u hu
    have hlt : W.card < s.sh.w.asleep.card :=
      Finset.card_lt_card ⟨hW, fun h => (Finset.mem_sdiff.1 hu).2 (h (hmem hu))⟩
    omega
  have hfresh : (∃ u, At.drowsy w' u ((changed s t x w').loc u) = true) →
      s.sh.elems ≤ ∑ u, At.fresh ((changed s t x w').loc u) := by
    intro hd
    have hsum := Config.sum_set (fun _ => At.fresh) s t x
    rcases exists_moved (p := fun u y => At.drowsy w' u y = true) hd with h | ⟨u, -, hu⟩
    · exact absurd (At.sleepy_mono he hmem (At.sleepy_of_drowsy h)) hsl
    · have := hi.fresh ⟨u, At.drowsy_mono he hmem hu⟩
      show _ ≤ ∑ u, At.fresh ((s.set t x).loc u)
      omega
  refine ⟨hi.epoch, hi.waiters_changed rfl hann, hi.keys_changed le_rfl (by simp [hx]),
    hi.asleep_changed Finset.sdiff_subset (fun h => ht (hmem h)), hfresh, ?_, ?_, ?_⟩
  · rintro ⟨u, hu | hu⟩
    · have hsum := Config.sum_set (At.credit w') s t x
      have hself := At.credit_congr he ⟨hmem, fun h => absurd h ht⟩ (s.loc t)
      have hold := hi.pending ⟨u, .inl (hmem hu)⟩
      have hwake : ∑ u, At.credit w' u (s.loc u) = _ := hi.credit_wake hW
      have := hleft hu
      show s.sh.elems ≤ ∑ u, At.credit w' u ((s.set t x).loc u)
      omega
    · exact (hfresh ⟨u, hu⟩).trans (Finset.sum_le_sum fun u _ => At.fresh_le_credit _ u _)
  · intro hc hd
    rcases exists_moved (p := fun u y => At.sleepy w' u y = true) hd with h | ⟨u, -, hu⟩
    · exact absurd (At.sleepy_mono he hmem h) hsl
    · obtain ⟨v, hv⟩ := hi.closing hc ⟨u, At.sleepy_mono he hmem hu⟩
      have hvt : v ≠ t := fun h => hshut (h ▸ hv)
      exact ⟨v, (changed_other hvt).trans hv⟩
  · rintro hc ⟨u, hu⟩
    obtain ⟨v, hv⟩ := hi.closed hc ⟨u, hmem hu⟩
    have hvt : v ≠ t := by
      rintro rfl
      have := hshut' (hv.resolve_left hshut)
      have := hleft hu
      omega
    exact ⟨v, (changed_other hvt).symm ▸ hv⟩

/-- **A thread goes to sleep while the epoch is still its key.** -/
theorem inv_sleep (hi : Inv s) {limited : Bool} {key : Key}
    (hl : s.loc t = some (.inside (.futex limited key))) (hk : s.sh.w.epoch = key.epoch) :
    Inv (changed s t (some (.inside (.asleep limited key)))
      { s.sh.w with asleep := insert t s.sh.w.asleep }) := by
  set w' : Shared (Fin N) := { s.sh.w with asleep := insert t s.sh.w.asleep }
  have he : w'.epoch = s.sh.w.epoch := rfl
  have ht : At.drowsy s.sh.w t (s.loc t) = true := by
    rw [hl]
    exact decide_eq_true hk
  have hmem : ∀ {u}, u ≠ t → (u ∈ w'.asleep ↔ u ∈ s.sh.w.asleep) := fun hut => by
    simp [w', hut]
  -- the credit of each thread is as before: the sleeper had none and has none
  have hcredit : ∑ u, At.credit w' u ((changed s t (some (.inside (.asleep limited key))) w').loc u)
      = ∑ u, At.credit s.sh.w u (s.loc u) := by
    refine Finset.sum_congr rfl fun u _ => ?_
    by_cases hut : u = t
    · subst hut
      rw [changed_self, hl]
      simp [At.credit, At.looks, Loc.looks, At.pending, Loc.pending, hk, w']
    · rw [changed_other hut]
      exact At.credit_congr he (hmem hut) _
  refine ⟨hi.epoch, hi.waiters_changed rfl (by rw [hl]; rfl), hi.keys_changed le_rfl (by
    rw [hl]; exact fun _ h => h), ?_, ?_, ?_, ?_, ?_⟩
  · intro u hu
    by_cases hut : u = t
    · subst hut
      exact ⟨limited, key, changed_self⟩
    · obtain ⟨lim, key', hu'⟩ := hi.asleep u ((hmem hut).1 hu)
      exact ⟨lim, key', (changed_other hut).trans hu'⟩
  · intro _
    have hsum := Config.sum_set (fun _ => At.fresh) s t (some (.inside (.asleep limited key)))
    have hold := hi.fresh ⟨t, ht⟩
    rw [hl] at hsum
    exact hold.trans hsum.ge
  · intro _
    exact (hi.pending ⟨t, .inr ht⟩).trans hcredit.ge
  · intro hc _
    obtain ⟨u, hu⟩ := hi.closing hc ⟨t, At.sleepy_of_drowsy ht⟩
    have hut : u ≠ t := fun h => by
      subst h
      rw [hl] at hu
      cases hu
    exact ⟨u, (changed_other hut).trans hu⟩
  · intro hc _
    obtain ⟨u, hu⟩ := hi.closing hc ⟨t, At.sleepy_of_drowsy ht⟩
    have hut : u ≠ t := fun h => by
      subst h
      rw [hl] at hu
      cases hu
    exact ⟨u, .inl ((changed_other hut).trans hu)⟩

/-- **A sleep ends, by a wake-up or by itself.** -/
theorem inv_rouse (hi : Inv s) {limited : Bool} {key : Key}
    (hl : s.loc t = some (.inside (.asleep limited key))) :
    Inv (changed s t (some (.inside (.cancel limited)))
      { s.sh.w with asleep := s.sh.w.asleep.erase t }) := by
  set w' : Shared (Fin N) := { s.sh.w with asleep := s.sh.w.asleep.erase t }
  have he : w'.epoch = s.sh.w.epoch := rfl
  have hmem : ∀ {u}, u ∈ w'.asleep → u ∈ s.sh.w.asleep := Finset.mem_of_mem_erase
  have hne : ∀ {u}, u ∈ w'.asleep → u ≠ t := Finset.ne_of_mem_erase
  have hcredit : ∑ u, At.credit s.sh.w u (s.loc u) ≤
      ∑ u, At.credit w' u ((changed s t (some (.inside (.cancel limited))) w').loc u) := by
    refine Finset.sum_le_sum fun u _ => ?_
    by_cases hut : u = t
    · subst hut
      rw [changed_self, hl]
      exact Bool.toNat_le _
    · rw [changed_other hut]
      exact (At.credit_congr he (by simp [w', hut]) _).ge
  have hshut : ∀ {u}, u = t → s.loc u ≠ some (.inside .shutBump) ∧
      s.loc u ≠ some (.inside .shutWake) := by
    rintro u rfl
    rw [hl]
    exact ⟨nofun, nofun⟩
  refine ⟨hi.epoch, hi.waiters_changed rfl (by rw [hl]; rfl), hi.keys_changed le_rfl nofun,
    hi.asleep_changed (fun _ => hmem) (fun h => hne h rfl), ?_, ?_, ?_, ?_⟩
  · intro hd
    rcases exists_moved (p := fun u y => At.drowsy w' u y = true) hd with h | ⟨u, -, hu⟩
    · cases h
    · have hsum := Config.sum_set (fun _ => At.fresh) s t (some (.inside (.cancel limited)))
      have hold := hi.fresh ⟨u, At.drowsy_mono he hmem hu⟩
      rw [hl] at hsum
      exact hold.trans hsum.ge
  · rintro ⟨u, hu⟩
    refine le_trans (hi.pending ⟨u, hu.imp hmem fun h => ?_⟩) hcredit
    by_cases hut : u = t
    · subst hut
      rw [changed_self] at h
      cases h
    · rw [changed_other hut] at h
      exact At.drowsy_mono he hmem h
  · intro hc hd
    rcases exists_moved (p := fun u y => At.sleepy w' u y = true) hd with h | ⟨u, -, hu⟩
    · cases h
    · obtain ⟨v, hv⟩ := hi.closing hc ⟨u, At.sleepy_mono he hmem hu⟩
      exact ⟨v, (changed_other fun h => (hshut h).1 hv).trans hv⟩
  · rintro hc ⟨u, hu⟩
    obtain ⟨v, hv⟩ := hi.closed hc ⟨u, hmem hu⟩
    have hvt : v ≠ t := fun h => hv.elim (hshut h).1 (hshut h).2
    exact ⟨v, (changed_other hvt).symm ▸ hv⟩

/-- **`closed_` is set.** -/
theorem inv_shut (hN : N ≤ intMax) (hi : Inv s) (hl : s.loc t = some (.inside .shut)) :
    Inv (changed s t (some (.inside .shutBump)) { s.sh.w with closed := true }) := by
  have hf : Fair s.sh.w t (s.loc t) (some (.inside .shutBump)) s.sh.elems s.sh.elems := by
    rw [hl]
    refine .plain rfl ⟨nofun, nofun⟩ (hi.awake ?_) (.inr (.inr le_rfl)) (.inr (.inr le_rfl))
    rw [hl]
    nofun
  have hm := inv_moved hN hi hf (k := s.sh.w.waiters) fun m h => by rw [hl] at h; exact h
  exact ⟨hm.epoch, hm.waiters, hm.keys, hm.asleep, hm.fresh, hm.pending,
    fun _ _ => ⟨t, changed_self⟩, fun _ _ => ⟨t, .inl changed_self⟩⟩

end Special

end Wtc.Waiter
