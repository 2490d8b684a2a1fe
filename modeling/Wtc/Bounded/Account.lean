import Wtc.Bounded.Rule

/-!
# The accounts of the bounded ring

What the answers of a history say about tickets: how many push tickets and how many pop tickets the
operations that gave them took, and how often they counted an overrun. An operation under way has
an account too, at each location, and the accounts add up to the counters.
-/

namespace Wtc.Bounded

open Wtc.Concurrent

variable {α Tid : Type}

/-! ## Reading a history -/

/-- The elements put in by an answered push. -/
def accepted (cap : Nat) : BoundedAns α → Nat
  | .pushed ok => if ok then 1 else 0
  | .overran _ => if cap = 0 then 0 else 1
  | .pushedN k => k
  | _ => 0

/-- The elements taken out by an answered pop. -/
def poppedBy : BoundedAns α → Nat
  | .popped v => if v.isSome then 1 else 0
  | .poppedN vs => vs.length
  | _ => 0

/-- The queued elements lost to an answered push. With no room the element lost is the push's own
and was never queued. -/
def lostBy (cap : Nat) : BoundedAns α → Nat
  | .overran lost => if lost ∧ cap ≠ 0 then 1 else 0
  | _ => 0

/-- The overruns that an answered push reports. -/
def overranBy : BoundedAns α → Nat
  | .overran lost => if lost then 1 else 0
  | _ => 0

/-- A sum over the answers of a history. -/
def total (f : BoundedAns α → Nat) (h : List (Event Tid (BoundedOp α) (BoundedAns α))) : Nat :=
  (h.map fun
    | .call _ _ => 0
    | .ret _ ans => (ans.map f).sum).sum

theorem total_append (f : BoundedAns α → Nat)
    (h h' : List (Event Tid (BoundedOp α) (BoundedAns α))) :
    total f (h ++ h') = total f h + total f h' := by simp [total]

/-- The push tickets, the pop tickets and the overruns of the operation with this answer. -/
def account (cap : Nat) (a : BoundedAns α) : Nat × Nat × Nat :=
  (accepted cap a, poppedBy a + lostBy cap a, overranBy a)

/-- The same for the answers of a history. -/
def accounts (cap : Nat) (h : List (Event Tid (BoundedOp α) (BoundedAns α))) : Nat × Nat × Nat :=
  (total (accepted cap) h, total poppedBy h + total (lostBy cap) h, total overranBy h)

theorem accounts_call (cap : Nat) (h : List (Event Tid (BoundedOp α) (BoundedAns α))) (t : Tid)
    (ops : List (BoundedOp α)) : accounts cap (h ++ [.call t ops]) = accounts cap h := by
  unfold accounts
  simp only [total_append]
  rfl

theorem accounts_ret (cap : Nat) (h : List (Event Tid (BoundedOp α) (BoundedAns α))) (t : Tid)
    (a : BoundedAns α) : accounts cap (h ++ [.ret t [a]]) = accounts cap h + account cap a := by
  have hone : ∀ f : BoundedAns α → Nat,
      total f ([.ret t [a]] : List (Event Tid (BoundedOp α) (BoundedAns α))) = f a := by
    intro f
    simp [total]
  unfold accounts account
  simp only [total_append, hone, Prod.mk_add_mk]
  congr 2
  omega

/-! ## The account of a location -/

/-- What a location says about the tickets of its operation. -/
def Then.account (cap n : Nat) : Then α → Nat × Nat × Nat
  | .one => (0, 1, 0)
  | .batch => (0, n, 0)
  | .overrun _ _ => if cap = 0 then 0 else (1, 1, 0)

/-- The account of an operation under way. -/
def Loc.account (cap : Nat) : Loc α → Nat × Nat × Nat
  | .fill _ _ _ ans | .build _ _ _ ans | .publish _ _ _ ans => Bounded.account cap ans
  | .take _ _ k got e | .read _ _ k got e => e.account cap (k + got.length)
  | .destroy _ _ k got e | .release _ _ k got e => e.account cap (k - 1 + got.length)
  | .count _ _ _ => if cap = 0 then 0 else (1, 1, 0)
  | .done ans => Bounded.account cap ans
  | _ => 0

/-- The locations that operations come to. -/
def Loc.Regular (cfg : Cfg) : Loc α → Prop
  | .load c | .swap c _ => c.reads cfg
  | .take _ _ k got e | .read _ _ k got e =>
    0 < k ∧ (e = .one → k = 1 ∧ got = []) ∧ ∀ t v, e = .overrun t v → k = 1 ∧ cfg.capacity ≠ 0
  | .destroy _ _ k got e | .release _ _ k got e =>
    0 < k ∧ (e = .one → k = 1 ∧ got ≠ []) ∧ ∀ t v, e = .overrun t v → k = 1 ∧ cfg.capacity ≠ 0
  | .count _ _ _ => cfg.capacity ≠ 0
  | .drop => cfg.capacity = 0
  | .nothing ans => ans = .pushedN 0 ∨ ans = .poppedN []
  | _ => True

/-! ## A step -/

/-- What a step does to the counters, it does to the account of its operation. -/
def Balanced (cfg : Cfg) (sh : Shared α) (l : Loc α) (r : Shared α × Loc α) : Prop :=
  r.2.Regular cfg ∧ ∃ k, r.1.overruns = sh.overruns + BitVec.ofNat 64 k ∧
    (r.1.pushed, r.1.popped, 0) + l.account cfg.capacity + (0, 0, k) =
      (sh.pushed, sh.popped, 0) + r.2.account cfg.capacity

/-- A plan takes the tickets that its next location accounts for. -/
theorem plan_account {cfg : Cfg} {s : BitVec 64} {c : Call α} {pl : Plan α} (hr : c.reads cfg)
    (h : plan cfg s c = .ok pl) (st : Stamp) :
    (pl.next st).Regular cfg ∧ (pl.next st).account cfg.capacity = (pl.pushes, pl.pops, 0) := by
  cases c with
  | tryPush v | tryPushN vs =>
    simp only [plan] at h
    split at h <;> cases h
    exact ⟨trivial, rfl⟩
  | pushOverrun v =>
    have h0 : cfg.capacity ≠ 0 := hr.1
    simp only [plan] at h
    split at h <;> cases h
    · refine ⟨⟨Nat.one_pos, by simp, fun _ _ _ => ⟨rfl, h0⟩⟩, ?_⟩
      simp [Loc.account, Then.account, h0]
    · exact ⟨trivial, by simp [Loc.account, account, accepted, poppedBy, lostBy, overranBy, h0]⟩
  | consume =>
    simp only [plan] at h
    split at h <;> cases h
    exact ⟨⟨Nat.one_pos, fun _ => ⟨rfl, rfl⟩, by simp⟩, rfl⟩
  | consumeN n =>
    simp only [plan] at h
    split at h
    · cases h
    · next hne =>
      cases h
      refine ⟨⟨?_, by simp, by simp⟩, rfl⟩
      have hheld := Nat.pos_of_ne_zero (fun h0 => hne (BitVec.eq_of_toNat_eq h0))
      have hn : 0 < n := Nat.pos_of_ne_zero hr
      split
      · next hlt =>
        have := (tailOf s - headOf s).isLt
        rw [word_toNat, Nat.mod_eq_of_lt (by omega)]
        exact hn
      · exact hheld
  | size =>
    simp only [plan] at h
    cases h

/-- What a packed operation comes to with the word it has read takes no tickets. -/
theorem attempt_account {cfg : Cfg} {s : BitVec 64} {c : Call α} (hr : c.reads cfg) :
    (attempt cfg s c).Regular cfg ∧ (attempt cfg s c).account cfg.capacity = 0 := by
  unfold attempt
  split
  · next ans h =>
    refine ⟨trivial, ?_⟩
    cases c <;> simp only [plan] at h
    all_goals first
      | (split at h <;> cases h; rfl)
      | (split at h <;> cases h)
      | (cases h; rfl)
  · exact ⟨hr, rfl⟩

theorem step_account {cfg : Cfg} {b : Bool} {sh : Shared α} {l : Loc α} {r : Shared α × Loc α}
    (hl : l.Regular cfg) (hs : step cfg b sh l = some r) : Balanced cfg sh l r := by
  -- a step that takes no ticket and counts no overrun
  have quiet : ∀ {sh' : Shared α} {l' : Loc α}, sh'.overruns = sh.overruns →
      sh'.pushed = sh.pushed → sh'.popped = sh.popped → l'.Regular cfg →
      l'.account cfg.capacity = l.account cfg.capacity → Balanced cfg sh l (sh', l') := by
    intro sh' l' h1 h2 h3 h4 h5
    refine ⟨h4, 0, by simp [h1], ?_⟩
    show (sh'.pushed, sh'.popped, 0) + _ + _ = _
    rw [h2, h3, h5]
    rfl
  cases l with
  | pushTail v first | popHead first | popTail st x | sizeHead first | sizeTail st x
  | build st x vs ans => obtain rfl := Option.some.inj hs; exact quiet rfl rfl rfl trivial rfl
  | pushHead v st x | pushAgain v st x | popSeen st x | popStore st x y | sizeAgain st x y
  | fill st x vs ans =>
    obtain rfl := Option.some.inj hs
    split <;> exact quiet rfl rfl rfl trivial rfl
  | pushClaim v st x =>
    simp only [step] at hs
    split at hs
    · obtain rfl := Option.some.inj hs
      exact ⟨trivial, 0, by simp [Shared.takeTail], rfl⟩
    · obtain rfl := Option.some.inj hs
      exact quiet rfl rfl rfl trivial rfl
  | popClaim st x =>
    simp only [step] at hs
    split at hs
    · obtain rfl := Option.some.inj hs
      exact ⟨⟨Nat.one_pos, fun _ => ⟨rfl, rfl⟩, by simp⟩, 0, by simp [Shared.takeHead], rfl⟩
    · obtain rfl := Option.some.inj hs
      exact quiet rfl rfl rfl trivial rfl
  | load op =>
    obtain rfl := Option.some.inj hs
    obtain ⟨h1, h2⟩ := attempt_account (s := sh.state) hl
    exact quiet rfl rfl rfl h1 h2
  | swap op s =>
    simp only [step] at hs
    split at hs
    · next ans h =>
      obtain rfl := Option.some.inj hs
      have h2 := (attempt_account (s := s) hl).2
      simp only [attempt, h] at h2
      exact quiet rfl rfl rfl trivial h2
    · next pl h =>
      split at hs
      · obtain rfl := Option.some.inj hs
        obtain ⟨h1, h2⟩ := plan_account hl h (sh.takeBoth pl.word pl.pushes pl.pops).stamp
        refine ⟨h1, 0, by simp [Shared.takeBoth], ?_⟩
        rw [h2]
        rfl
      · obtain rfl := Option.some.inj hs
        obtain ⟨h1, h2⟩ := attempt_account (s := sh.state) hl
        exact quiet rfl rfl rfl h1 h2
  | publish st x vs ans =>
    obtain rfl := Option.some.inj hs
    cases vs.tail with
    | nil | cons v vs => exact quiet rfl rfl rfl trivial rfl
  | take st x k got e =>
    obtain rfl := Option.some.inj hs
    split <;> exact quiet rfl rfl rfl hl rfl
  | read st x k got e =>
    obtain ⟨hk, h1, h2⟩ := hl
    simp only [step, Option.map_eq_some_iff] at hs
    obtain ⟨v, -, rfl⟩ := hs
    refine quiet rfl rfl rfl ⟨hk, fun he => ⟨(h1 he).1, by simp⟩, h2⟩ ?_
    have hlen : k - 1 + (got ++ [v]).length = k + got.length := by
      rw [List.length_append, List.length_singleton]
      omega
    show e.account cfg.capacity (k - 1 + (got ++ [v]).length) = _
    rw [hlen]
    rfl
  | destroy st x k got e => obtain rfl := Option.some.inj hs; exact quiet rfl rfl rfl hl rfl
  | release st x k got e =>
    obtain ⟨hk, h1, h2⟩ := hl
    obtain rfl := Option.some.inj hs
    obtain ⟨k, rfl⟩ : ∃ k', k = k' + 1 := ⟨k - 1, by omega⟩
    rw [Nat.add_sub_cancel]
    cases k with
    | zero =>
      -- the last element is out
      cases e with
      | one =>
        obtain ⟨v, got, rfl⟩ := List.exists_cons_of_ne_nil (h1 rfl).2
        exact quiet rfl rfl rfl trivial rfl
      | batch =>
        refine quiet rfl rfl rfl trivial ?_
        show (0, got.length, 0) = (0, 0 + got.length, 0)
        rw [Nat.zero_add]
      | overrun y v => exact quiet rfl rfl rfl (h2 y v rfl).2 rfl
    | succ k =>
      refine quiet rfl rfl rfl ⟨Nat.succ_pos k, fun he => ?_, fun y v he => ?_⟩ rfl
      · exact absurd (h1 he).1 (by omega)
      · exact absurd (h2 y v he).1 (by omega)
  | count st x v =>
    obtain rfl := Option.some.inj hs
    have h0 : cfg.capacity ≠ 0 := hl
    refine ⟨trivial, 1, rfl, ?_⟩
    simp [Loc.account, account, accepted, poppedBy, lostBy, overranBy, h0]
  | drop =>
    obtain rfl := Option.some.inj hs
    have h0 : cfg.capacity = 0 := hl
    refine ⟨trivial, 1, rfl, ?_⟩
    simp [Loc.account, account, accepted, poppedBy, lostBy, overranBy, h0]
  | nothing ans =>
    obtain rfl := Option.some.inj hs
    rcases hl with rfl | rfl
    · exact quiet rfl rfl rfl trivial rfl
    · exact quiet rfl rfl rfl trivial rfl
  | abort | done ans => cases hs

/-! ## A run -/

/-- The account of a thread. -/
def due (cap : Nat) : Option (Loc α) → Nat × Nat × Nat
  | none => 0
  | some l => l.account cap

/-- The counters are the accounts of the answers and of the operations under way. -/
structure Balance (cfg : Cfg) (h : List (Event Tid (BoundedOp α) (BoundedAns α)))
    (s : Config Tid (Shared α) (Loc α)) : Prop where
  regular : ∀ t l, s.loc t = some l → l.Regular cfg
  balance : ∃ (S : Finset Tid) (k : Nat), (∀ t, t ∉ S → s.loc t = none) ∧
    s.sh.overruns = BitVec.ofNat 64 k ∧
    (s.sh.pushed, s.sh.popped, k) =
      accounts cfg.capacity h + ∑ t ∈ S, due cfg.capacity (s.loc t)

section Run

variable [DecidableEq Tid] {cfg : Cfg} {prod cons : Tid}

theorem start_regular (cfg : Cfg) (c : Call α) : (start cfg c).Regular cfg ∧
    (start cfg c).account cfg.capacity = 0 := by
  cases c with
  | tryPush v | consume | size =>
    simp only [start]
    split <;> exact ⟨trivial, rfl⟩
  | pushOverrun v =>
    simp only [start]
    split
    · exact ⟨trivial, rfl⟩
    · next ho =>
      split
      · next h0 => exact ⟨h0, rfl⟩
      · next h0 => exact ⟨⟨h0, by simpa using ho⟩, rfl⟩
  | tryPushN vs =>
    simp only [start]
    split
    · exact ⟨trivial, rfl⟩
    · split
      · exact ⟨Or.inl rfl, rfl⟩
      · next hne => exact ⟨fun h => hne (by rw [h]; rfl), rfl⟩
  | consumeN n =>
    simp only [start]
    split
    · exact ⟨trivial, rfl⟩
    · split
      · exact ⟨Or.inr rfl, rfl⟩
      · next hne => exact ⟨hne, rfl⟩

/-- One thread goes from one location to another. -/
theorem sum_due_set (cap : Nat) (s : Config Tid (Shared α) (Loc α)) {S : Finset Tid} {t : Tid}
    (ht : t ∈ S) (x : Option (Loc α)) :
    ∑ u ∈ S, due cap ((s.set t x).loc u) + due cap (s.loc t) =
      ∑ u ∈ S, due cap (s.loc u) + due cap x := by
  rw [← Finset.add_sum_erase S _ ht, ← Finset.add_sum_erase S (fun u => due cap (s.loc u)) ht,
    Config.set_loc_self]
  have hrest : ∑ u ∈ S.erase t, due cap ((s.set t x).loc u) =
      ∑ u ∈ S.erase t, due cap (s.loc u) := by
    refine Finset.sum_congr rfl (fun u hu => ?_)
    rw [Config.set_loc_ne s (Finset.ne_of_mem_erase hu)]
  rw [hrest]
  abel

/-- A thread may be counted in. -/
theorem sum_due_insert (cap : Nat) (s : Config Tid (Shared α) (Loc α)) {S : Finset Tid}
    (hS : ∀ t, t ∉ S → s.loc t = none) (t : Tid) :
    ∑ u ∈ insert t S, due cap (s.loc u) = ∑ u ∈ S, due cap (s.loc u) := by
  by_cases ht : t ∈ S
  · rw [Finset.insert_eq_self.mpr ht]
  · rw [Finset.sum_insert ht, hS t ht]
    exact zero_add _

/-- The accounts balance in every run. -/
theorem balance {h : List (Event Tid (BoundedOp α) (BoundedAns α))}
    {s : Config Tid (Shared α) (Loc α)} (hr : (machine cfg prod cons).Runs h s) :
    Balance cfg h s := by
  induction hr with
  | init _ => exact ⟨nofun, ∅, 0, fun _ _ => rfl, rfl, rfl⟩
  | @next h es s s' _ hn _ ih =>
    obtain ⟨hreg, S, k, hS, hover, hsum⟩ := ih
    -- the thread that moves is counted in first
    have hset : ∀ (t : Tid) (x : Option (Loc α)) (u : Tid), u ∉ insert t S →
        (s.set t x).loc u = none := by
      intro t x u hu
      have hut : u ≠ t := by
        rintro rfl
        exact hu (Finset.mem_insert_self u S)
      rw [Config.set_loc_ne s hut]
      exact hS u (fun h => hu (Finset.mem_insert_of_mem h))
    have hregset : ∀ (t : Tid) (l : Loc α), l.Regular cfg → ∀ u l',
        (s.set t (some l)).loc u = some l' → l'.Regular cfg := by
      intro t l hl u l' hu
      by_cases hut : u = t
      · subst hut
        rw [Config.set_loc_self] at hu
        obtain rfl := Option.some.inj hu
        exact hl
      · rw [Config.set_loc_ne s hut] at hu
        exact hreg u l' hu
    cases hn with
    | @call t hloc c hm =>
      obtain ⟨h1, h2⟩ := start_regular cfg c
      refine ⟨hregset t _ h1, insert t S, k, hset t _, hover, ?_⟩
      have hs := sum_due_set cfg.capacity s (Finset.mem_insert_self t S) (some (start cfg c))
      rw [sum_due_insert cfg.capacity s hS, hloc, show due cfg.capacity (some (start cfg c)) = 0
        from h2, show due cfg.capacity (none : Option (Loc α)) = 0 from rfl, add_zero,
        add_zero] at hs
      rw [accounts_call]
      exact hsum.trans (by rw [← hs]; rfl)
    | @step t l hloc c sh' l' hst =>
      obtain ⟨h1, k', hk', hbal⟩ := step_account (hreg t l hloc) hst
      refine ⟨hregset t _ h1, insert t S, k + k', hset t _, ?_, ?_⟩
      · show sh'.overruns = _
        rw [BitVec.ofNat_add, ← hover]
        exact hk'
      · have hs := sum_due_set cfg.capacity s (Finset.mem_insert_self t S) (some l')
        rw [sum_due_insert cfg.capacity s hS, hloc] at hs
        rw [List.append_nil]
        show (sh'.pushed, sh'.popped, k + k') = _ + ∑ u ∈ _, due _ ((s.set t (some l')).loc u)
        generalize (∑ u ∈ insert t S, due cfg.capacity ((s.set t (some l')).loc u)) = σ' at hs ⊢
        generalize (∑ u ∈ S, due cfg.capacity (s.loc u)) = σ at hs hsum
        simp only [due, Prod.ext_iff, Prod.fst_add, Prod.snd_add] at hs hsum hbal ⊢
        omega
    | @ret t l hloc ans ha =>
      cases l <;> simp only [machine, answer, Option.some.injEq, reduceCtorEq] at ha
      next a =>
      subst ha
      refine ⟨?_, insert t S, k, hset t _, hover, ?_⟩
      · intro u l' hu
        by_cases hut : u = t
        · subst hut
          rw [Config.set_loc_self] at hu
          cases hu
        · rw [Config.set_loc_ne s hut] at hu
          exact hreg u l' hu
      · have hs := sum_due_set cfg.capacity s (Finset.mem_insert_self t S) none
        rw [sum_due_insert cfg.capacity s hS, hloc,
          show due cfg.capacity (none : Option (Loc α)) = 0 from rfl, add_zero] at hs
        rw [accounts_ret]
        refine hsum.trans ?_
        rw [← hs, add_assoc, add_comm (account cfg.capacity a)]
        rfl

end Run

end Wtc.Bounded
