import Wtc.Bounded.Split

/-!
# The packed layout

Both counters are in one word, so an operation decides and takes its tickets by the same word: the
queue that the word describes is the queue at the step that replaces it. It does not matter how
often the counters have come round since the word was read.
-/

namespace Wtc.Bounded

open Wtc.Concurrent

variable {α Tid : Type} {cfg : Cfg}

/-! ## The plans -/

/-- What the last `take` leads to, for an operation that takes push tickets for `vs`. -/
def Then.claims (pushed : Nat) (vs : List α) : Then α → Prop
  | .overrun t v => t = word pushed ∧ vs = [v]
  | _ => vs = []

/-- The calls of producers. -/
def Call.isPush : Call α → Bool
  | .tryPush _ | .pushOverrun _ | .tryPushN _ => true
  | _ => false

/-- The calls that take elements out, an overrunning push among them. -/
def Call.isPop : Call α → Bool
  | .consume | .consumeN _ | .pushOverrun _ => true
  | _ => false

theorem Call.eq_prod {prod cons t : Tid} {c : Call α} (ha : c.allowed cfg prod cons t)
    (hc : c.isPush = true) (hm : cfg.mp = false) : t = prod := by
  cases c <;> first | exact ha.resolve_left (by rw [hm]; simp) | cases hc

/-- With overruns no side is single. -/
theorem Call.eq_cons {prod cons t : Tid} {c : Call α} (ha : c.allowed cfg prod cons t)
    (hr : c.reads cfg) (hc : c.isPop = true) (hm : cfg.mc = false) : t = cons := by
  cases c with
  | consume | consumeN n => exact ha.resolve_left (by rw [hm]; simp)
  | pushOverrun v =>
    rw [Cfg.mc, hr.2, Bool.or_true] at hm
    cases hm
  | tryPush v | tryPushN vs | size => cases hc

/-- A plan puts the elements `vs` in and takes `nc` out, at a queue of the elements `q`. -/
structure Claims (cfg : Cfg) (q : List α) (popped pushed : Nat) (c : Call α) (pl : Plan α)
    (vs : List α) (nc : Nat) (ans : BoundedAns α) : Prop where
  pushes : pl.pushes = vs.length
  pops : pl.pops = nc
  nc_le : nc ≤ q.length
  isPush : vs ≠ [] → c.isPush = true
  isPop : nc ≠ 0 → c.isPop = true
  vs_le : q.length + vs.length ≤ nc + cfg.capacity
  step : boundedStep cfg.capacity q c.op = (ans, q.drop nc ++ vs)
  word : pl.word = pack (word (popped + nc)) (word (pushed + vs.length))
  next : (nc = 0 ∧ vs ≠ [] ∧ ∀ st, pl.next st = .fill st (Concurrent.word pushed) vs ans) ∨
    ∃ e, 0 < nc ∧ e.ans (q.take nc) = ans ∧ e.claims pushed vs ∧
      ∀ st, pl.next st = .take st (Concurrent.word popped) nc [] e

section Plan

variable {q : List α} {popped pushed : Nat}

/-- An operation that answers by the word alone gives the answer of the queue it describes. -/
theorem plan_error (hle : popped ≤ pushed) (hcap : pushed ≤ popped + cfg.capacity)
    (hlen : q.length = pushed - popped) {c : Call α} {ans : BoundedAns α}
    (h : plan cfg (pack (word popped) (word pushed)) c = .error ans) :
    boundedStep cfg.capacity q c.op = (ans, q) := by
  have hmax := cfg.capacity_le
  cases c with
  | tryPush v =>
    simp only [plan, headOf_pack, tailOf_pack, cap_le_word_sub hle (by omega)] at h
    split at h
    · cases h
      exact if_pos (by omega)
    · cases h
  | pushOverrun v =>
    simp only [plan] at h
    split at h <;> cases h
  | consume =>
    simp only [plan, headOf_pack, tailOf_pack] at h
    split at h
    · next heq =>
      cases h
      have := word_inj hle (by omega) heq
      obtain rfl : q = [] := List.eq_nil_of_length_eq_zero (by omega)
      rfl
    · cases h
  | tryPushN vs =>
    simp only [plan, headOf_pack, tailOf_pack, cap_le_word_sub hle (by omega)] at h
    split at h
    · cases h
      have h0 : cfg.capacity - q.length = 0 := by omega
      simp [Call.op, boundedStep, h0]
    · cases h
  | consumeN n =>
    simp only [plan, headOf_pack, tailOf_pack] at h
    split at h
    · next heq =>
      cases h
      have hz := congrArg BitVec.toNat heq
      rw [word_sub_toNat hle (by omega)] at hz
      obtain rfl : q = [] := List.eq_nil_of_length_eq_zero (by rw [hlen]; exact hz)
      simp [Call.op, boundedStep]
    · cases h
  | size =>
    simp only [plan, headOf_pack, tailOf_pack, word_sub_toNat hle (by omega : pushed < _)] at h
    cases h
    rw [← hlen]
    rfl

theorem word_add_toNat (a : Nat) (k : BitVec 32) : word a + k = word (a + k.toNat) := by
  rw [word_add, show word k.toNat = k by simp [word]]

/-- An operation that takes tickets does what the queue described by the word does. -/
theorem plan_ok (hle : popped ≤ pushed) (hcap : pushed ≤ popped + cfg.capacity)
    (hlen : q.length = pushed - popped) {c : Call α} (hr : c.reads cfg) {pl : Plan α}
    (h : plan cfg (pack (word popped) (word pushed)) c = .ok pl) :
    ∃ vs nc ans, Claims cfg q popped pushed c pl vs nc ans := by
  have hmax := cfg.capacity_le
  cases c with
  | tryPush v =>
    simp only [plan, headOf_pack, tailOf_pack, cap_le_word_sub hle (by omega)] at h
    split at h
    · cases h
    · next hroom =>
      cases h
      refine ⟨[v], 0, .pushed true, rfl, rfl, Nat.zero_le _, fun _ => rfl,
        fun h => absurd rfl h, ?_, ?_, ?_, Or.inl ⟨rfl, by simp, fun _ => rfl⟩⟩
      · simp only [List.length_singleton]; omega
      · exact if_neg (by omega)
      · rw [List.length_singleton, word_succ]; rfl
  | pushOverrun v =>
    simp only [plan, headOf_pack, tailOf_pack, cap_le_word_sub hle (by omega)] at h
    split at h
    · next hfull =>
      cases h
      have h0 : cfg.capacity ≠ 0 := hr.1
      refine ⟨[v], 1, .overran true, rfl, rfl, by omega, fun _ => rfl, fun _ => rfl, ?_, ?_, ?_,
        Or.inr ⟨.overrun (word pushed) v, Nat.one_pos, rfl, ⟨rfl, rfl⟩, fun _ => rfl⟩⟩
      · simp only [List.length_singleton]; omega
      · show (if cfg.capacity = 0 then _ else _) = _
        rw [if_neg h0, if_pos (by omega), List.drop_one]
      · rw [List.length_singleton, word_succ, word_succ]
    · next hroom =>
      cases h
      have h0 : cfg.capacity ≠ 0 := hr.1
      refine ⟨[v], 0, .overran false, rfl, rfl, Nat.zero_le _, fun _ => rfl,
        fun h => absurd rfl h, ?_, ?_, ?_, Or.inl ⟨rfl, by simp, fun _ => rfl⟩⟩
      · simp only [List.length_singleton]; omega
      · show (if cfg.capacity = 0 then _ else _) = _
        rw [if_neg h0, if_neg (by omega)]
        rfl
      · rw [List.length_singleton, word_succ]; rfl
  | consume =>
    simp only [plan, headOf_pack, tailOf_pack] at h
    split at h
    · cases h
    · next hne =>
      cases h
      have hlt : popped < pushed := lt_of_le_of_ne hle (fun h => hne (by rw [h]))
      refine ⟨[], 1, .popped (q.take 1).head?, rfl, rfl, by omega, fun h => absurd rfl h,
        fun _ => rfl, ?_, ?_, ?_,
        Or.inr ⟨.one, Nat.one_pos, rfl, rfl, fun _ => rfl⟩⟩
      · simp only [List.length_nil]; omega
      · obtain ⟨v, q', rfl⟩ : ∃ v q', q = v :: q' :=
          List.exists_cons_of_length_pos (by omega)
        simp [Call.op, boundedStep]
      · rw [word_succ]; rfl
  | tryPushN vs =>
    simp only [plan, headOf_pack, tailOf_pack, cap_le_word_sub hle (by omega)] at h
    split at h
    · cases h
    · next hroom =>
      cases h
      have hcap' : cfg.cap.toNat = cfg.capacity := by
        rw [Cfg.cap, word_toNat, Nat.mod_eq_of_lt (by omega)]
      have hroom' : (cfg.cap - (word pushed - word popped)).toNat = cfg.capacity - q.length := by
        rw [BitVec.toNat_sub, word_sub_toNat hle (by omega), hcap', hlen]
        omega
      -- the number of elements that fit
      generalize hk : (if vs.length < (cfg.cap - (word pushed - word popped)).toNat
        then word vs.length else cfg.cap - (word pushed - word popped)) = k
      have hkn : k.toNat = min vs.length (cfg.capacity - q.length) := by
        rw [← hk, hroom']
        split
        · rw [word_toNat, Nat.mod_eq_of_lt (by omega)]; omega
        · rw [hroom']; omega
      have htake : vs.take k.toNat = vs.take (cfg.capacity - q.length) := by
        rw [hkn, List.take_eq_take_iff]; omega
      have hlen' : (vs.take k.toNat).length = k.toNat := by
        rw [List.length_take]; omega
      refine ⟨vs.take k.toNat, 0, .pushedN k.toNat, hlen'.symm, rfl, Nat.zero_le _,
        fun _ => rfl, fun h => absurd rfl h, ?_, ?_, ?_,
        Or.inl ⟨rfl, ?_, fun _ => rfl⟩⟩
      · omega
      · rw [List.drop_zero, htake, hkn]
        rfl
      · rw [hlen', word_add_toNat]
        rfl
      · intro hnil
        rw [hnil] at hlen'
        have hvs : 0 < vs.length := List.length_pos_iff.mpr hr
        simp only [List.length_nil] at hlen'
        omega
  | consumeN n =>
    simp only [plan, headOf_pack, tailOf_pack] at h
    split at h
    · cases h
    · next hne =>
      cases h
      have hheld : (word pushed - word popped).toNat = q.length := by
        rw [word_sub_toNat hle (by omega), hlen]
      have hpos : 0 < q.length := by
        rw [← hheld]
        exact Nat.pos_of_ne_zero (fun h0 => hne (BitVec.eq_of_toNat_eq h0))
      generalize hk : (if n < (word pushed - word popped).toNat then word n
        else word pushed - word popped) = k
      have hkn : k.toNat = min n q.length := by
        rw [← hk, hheld]
        split
        · rw [word_toNat, Nat.mod_eq_of_lt (by omega)]; omega
        · rw [hheld]; omega
      have htake : q.take k.toNat = q.take n := by
        rw [hkn, List.take_eq_take_iff]; omega
      have hdrop : q.drop k.toNat = q.drop n := by
        rw [hkn]
        rcases Nat.le_total n q.length with h | h
        · rw [Nat.min_eq_left h]
        · rw [Nat.min_eq_right h, List.drop_length, List.drop_eq_nil_of_le h]
      have hn : 0 < n := Nat.pos_of_ne_zero hr
      refine ⟨[], k.toNat, .poppedN (q.take n), rfl, rfl, by omega, fun h => absurd rfl h,
        fun _ => rfl, ?_, ?_, ?_,
        Or.inr ⟨.batch, by omega, ?_, rfl, fun _ => rfl⟩⟩
      · simp only [List.length_nil]; omega
      · rw [hdrop, List.append_nil]
        rfl
      · rw [word_add_toNat]
        rfl
      · show BoundedAns.poppedN (q.take k.toNat) = _
        rw [htake]
  | size =>
    simp only [plan] at h
    cases h

end Plan

/-! ## The steps -/

section Steps

variable [DecidableEq Tid] {prod cons t : Tid} {sh : Shared α} {w : Ghost Tid α}

/-- An operation has read the word: it answers, or goes on to replace it. -/
theorem attempt_step (hg : G cfg sh w) {p c : Nat} {e e' : Bool} {op : Call α}
    (hh : Holds w t p 0 c 0 e e') (hp : w.abs.Pend t [op.op] []) (hpk : cfg.packed = true)
    (hr : op.reads cfg) (ha : op.allowed cfg prod cons t) :
    Kept cfg prod cons t sh w (sh, attempt cfg sh.state op) := by
  unfold attempt
  split
  · next ans h =>
    rw [hg.state hpk] at h
    exact kept_answer hg hh hp (plan_error hg.popped_le hg.pushed_le hg.length h)
  · next pl h => exact kept_same hg hh ⟨rfl, rfl⟩ ⟨hp, hpk, hr, ha, pl, h⟩

/-- The compare-and-swap of the packed word. -/
theorem swap_step (hg : G cfg sh w) {b : Bool} {op : Call α} {s : BitVec 64}
    {r : Shared α × Loc α} (hl : L cfg prod cons t sh w (some (.swap op s)))
    (hs : step cfg b sh (.swap op s) = some r) : Kept cfg prod cons t sh w r := by
  obtain ⟨p, c, hh, -, hp, hpk, hr, ha, pl, hpl⟩ := hl
  simp only [step, hpl] at hs
  split at hs
  · next hc =>
    obtain rfl := Option.some.inj hs
    obtain ⟨-, rfl⟩ := hc
    rw [hg.state hpk] at hpl
    obtain ⟨vs, nc, ans, hcl⟩ := plan_ok hg.popped_le hg.pushed_le hg.length hr hpl
    have hlen := hg.length
    have h1 := hcl.nc_le
    have h2 := hcl.vs_le
    have h3 := hg.popped_le
    have h4 := hg.pushed_le
    have hmax := cfg.capacity_le
    have hpu : (sh.takeBoth pl.word pl.pushes pl.pops).pushed = sh.pushed + vs.length := by
      rw [← hcl.pushes]; rfl
    have hpo : (sh.takeBoth pl.word pl.pushes pl.pops).popped = sh.popped + nc := by
      rw [← hcl.pops]; rfl
    obtain ⟨w', hT, hG, hH, hP, hE, hRely⟩ := claim_step prod cons hg hh hp (by omega) (by omega)
      hcl.step (sh.takeBoth pl.word pl.pushes pl.pops) rfl rfl hpu hpo
      (fun _ => by rw [hpu, hpo]; exact hcl.word)
      (fun h => by rw [hpk] at h; cases h)
      (fun hm hvs => Call.eq_prod ha (hcl.isPush hvs) hm)
      (fun hm hnc => Call.eq_cons ha hr (hcl.isPop hnc) hm)
    refine ⟨w', hT, hG, ?_, hRely⟩
    have hstamp : (sh.takeBoth pl.word pl.pushes pl.pops).stamp =
        ⟨sh.pushed + vs.length, sh.popped + nc⟩ := by
      rw [← hpu, ← hpo]; rfl
    show L cfg prod cons t _ w' (some (pl.next _))
    have hdropP : w'.elems.drop sh.pushed = vs := by
      rw [hE, List.drop_append_of_le_length (by rw [hg.elems]), ← hg.elems, List.drop_length,
        List.nil_append]
    rcases hcl.next with ⟨rfl, hvs, hnext⟩ | ⟨e, hnc, hans, hecl, hnext⟩
    · rw [hnext, hstamp]
      refine ⟨sh.pushed, sh.popped, hH, ?_, hP, rfl, hvs, by rw [hdropP]⟩
      rintro st ⟨⟩
      exact ⟨fun _ => by show sh.pushed + vs.length ≤ _; omega,
        fun h => absurd h (lt_irrefl _)⟩
    · rw [hnext, hstamp]
      have hpushes : ∀ st x k, (Loc.take st x k [] e).pushes = vs.length := by
        intro st x k
        cases e with
        | one | batch => rw [show vs = [] from hecl]; rfl
        | overrun y v => rw [hecl.2]; rfl
      have hvs1 : vs.length ≤ 1 := by
        cases e with
        | one | batch => rw [show vs = [] from hecl]; exact Nat.zero_le _
        | overrun y v => rw [hecl.2]; exact le_rfl
      obtain ⟨x, xs, hx⟩ : ∃ x xs, w.abs.obj.take nc = x :: xs :=
        List.exists_cons_of_length_pos (by rw [List.length_take]; omega)
      refine ⟨sh.pushed, sh.popped, ?_, ?_, rfl, ?_, x, xs, ?_, ?_, ?_⟩
      · rw [hpushes]
        exact hH
      · rintro st ⟨⟩
        exact ⟨fun _ => by show sh.pushed + vs.length ≤ _; omega,
          fun _ => by show sh.popped + nc ≤ _; omega⟩
      · cases e with
        | one | batch => trivial
        | overrun y v => exact ⟨hecl.1, by rw [hdropP, hecl.2]⟩
      · have := congrArg List.length hx
        rw [List.length_take, List.length_cons] at this
        omega
      · rw [← hx, hE, hg.queue]
        have htake := List.take_prefix nc (w.elems.drop sh.popped)
        exact htake.trans (drop_prefix_drop (List.prefix_append _ _) _)
      · rw [List.nil_append, ← hx, hans]
        exact hP
  · obtain rfl := Option.some.inj hs
    exact attempt_step hg hh hp hpk hr ha

end Steps

end Wtc.Bounded
