import Mathlib.Data.Finset.Card
import Mathlib.Logic.Relation

/-!
# A search that remembers its answers

A search from a node walks the node and asks for the nodes it leads to. Answers are remembered, and
a walk is cut at nodes that are still being walked further up. An answer that nothing was found,
under a cut, is only about what is reached around the nodes in progress; it is given, and not
remembered. So every answer that is remembered is right, and so is the answer for a node when none
is in progress.
-/

namespace Wtc.Search

variable {N S : Type}

structure Memo (N S : Type) where
  memo : List (N × Option S)
  inProgress : List N
  metCycle : Bool

abbrev Ask (N S : Type) := N → Memo N S → Option S × Memo N S

/-- The search, given how a node is walked once the nodes below it can be asked for. -/
def search [DecidableEq N] (walk : Ask N S → Ask N S) : Nat → Ask N S
  | 0, _, st => (none, st)
  | fuel + 1, n, st =>
    match st.memo.lookup n with
    | some answer => (answer, st)
    | none =>
      if n ∈ st.inProgress then (none, { st with metCycle := true })
      else
        let (found, st') := walk (search walk fuel) n
          { st with inProgress := n :: st.inProgress, metCycle := false }
        let memo := if found.isSome || !st'.metCycle then (n, found) :: st'.memo else st'.memo
        (found, ⟨memo, st'.inProgress.erase n, st.metCycle || st'.metCycle⟩)

/-! ## What there is to find -/

/-- `own n` is that there is something at the node itself, `leads n m` that its walk asks for
`m`. -/
structure Terrain (N : Type) where
  nodes : Finset N
  own : N → Prop
  leads : N → N → Prop
  leads_nodes : ∀ {n m}, leads n m → m ∈ nodes

variable {F : Terrain N}

abbrev Terrain.Reaches (F : Terrain N) : N → N → Prop := Relation.ReflTransGen F.leads

/-- There is something at the node, or at one it reaches. -/
def Terrain.Has (F : Terrain N) (n : N) : Prop := ∃ m, F.Reaches n m ∧ F.own m

variable {m n : N} {st st' st'' : Memo N S}

theorem Terrain.Has.of_leads (h : F.leads n m) (hm : F.Has m) : F.Has n := by
  obtain ⟨k, hk, hown⟩ := hm
  exact ⟨k, .head h hk, hown⟩

theorem Terrain.has_iff : F.Has n ↔ F.own n ∨ ∃ m, F.leads n m ∧ F.Has m := by
  constructor
  · rintro ⟨k, hk, hown⟩
    rcases hk.cases_head with rfl | ⟨m, hm, hk⟩
    · exact .inl hown
    · exact .inr ⟨m, hm, k, hk, hown⟩
  · rintro (hown | ⟨m, hm, hhas⟩)
    · exact ⟨n, .refl, hown⟩
    · exact hhas.of_leads hm

/-- `n` reaches the other node around those of `avoid`. -/
inductive Around (F : Terrain N) (avoid : List N) (n : N) : N → Prop
  | here (hn : n ∉ avoid) : Around F avoid n n
  | next {m k : N} (h : Around F avoid n m) (hl : F.leads m k) (hk : k ∉ avoid) :
      Around F avoid n k

/-- The last time the way is at `n`, it goes on around `n`. -/
theorem Around.leave [DecidableEq N] {avoid : List N} (h : Around F avoid n m) :
    m = n ∨ ∃ k, F.leads n k ∧ Around F (n :: avoid) k m := by
  induction h with
  | here => exact .inl rfl
  | @next m k h hl hk ih =>
    by_cases hkn : k = n
    · exact .inl hkn
    · have hnot : k ∉ n :: avoid := by simp [hkn, hk]
      rcases ih with rfl | ⟨j, hj, hway⟩
      · exact .inr ⟨k, hl, .here hnot⟩
      · exact .inr ⟨j, hj, hway.next hl hnot⟩

theorem Around.not_mem {avoid : List N} (h : Around F avoid n m) : n ∉ avoid := by
  induction h with
  | here hn | next _ _ _ hn => exact hn

theorem Around.reaches {avoid : List N} (h : Around F avoid n m) : F.Reaches n m := by
  induction h with
  | here => exact .refl
  | next _ hl _ ih => exact ih.tail hl

theorem around_nil (h : F.Reaches n m) : Around F [] n m := by
  induction h with
  | refl => exact .here (by simp)
  | tail _ hl ih => exact ih.next hl (by simp)

/-! ## What is remembered -/

variable [DecidableEq N]

/-- The node is remembered as one from which nothing is found. -/
def Memo.Clean (st : Memo N S) (n : N) : Prop := st.memo.lookup n = some none

structure Memo.Ok (F : Terrain N) (st : Memo N S) : Prop where
  clean : ∀ {n}, st.Clean n → ¬ F.Has n
  found : ∀ {n s}, st.memo.lookup n = some (some s) → F.Has n
  nodup : st.inProgress.Nodup
  nodes : ∀ n ∈ st.inProgress, n ∈ F.nodes

/-- What a question leaves behind. -/
structure Extends (F : Terrain N) (st st' : Memo N S) : Prop where
  ok : st'.Ok F
  inProgress : st'.inProgress = st.inProgress
  clean : ∀ n, st.Clean n → st'.Clean n
  metCycle : st.metCycle = true → st'.metCycle = true

theorem Extends.refl (h : st.Ok F) : Extends F st st := ⟨h, rfl, fun _ hn => hn, id⟩

theorem Extends.trans (h : Extends F st st') (h' : Extends F st' st'') : Extends F st st'' :=
  ⟨h'.ok, h'.inProgress.trans h.inProgress, fun n hn => h'.clean n (h.clean n hn),
    fun hc => h'.metCycle (h.metCycle hc)⟩

/-- The answer for `n` that nothing is there: right around the nodes in progress, and remembered if
none of them was met. -/
structure Clear (F : Terrain N) (st st' : Memo N S) (n : N) : Prop where
  around : ∀ m, Around F st.inProgress n m → ¬ F.own m
  clean : st'.metCycle = false → st'.Clean n

theorem Clear.extends (h : Clear F st st' n) (he : Extends F st' st'') : Clear F st st'' n := by
  refine ⟨h.around, fun hm => he.clean n (h.clean ?_)⟩
  cases hc : st'.metCycle with
  | false => rfl
  | true => simp [he.metCycle hc] at hm

theorem Clear.after (h : Clear F st' st'' n) (he : Extends F st st') : Clear F st st'' n :=
  ⟨he.inProgress ▸ h.around, h.clean⟩

/-- An answer for `n`: about nothing but what it reaches. -/
structure Answered (F : Terrain N) (st : Memo N S) (n : N) (r : Option S × Memo N S) : Prop where
  extends_ : Extends F st r.2
  clear : r.1 = none → Clear F st r.2 n
  has : ∀ s, r.1 = some s → F.Has n

/-- Right answers, as long as there is fuel for the nodes that are not in progress. -/
def Answers (F : Terrain N) (fuel : Nat) (ask : Ask N S) : Prop :=
  ∀ {n st}, n ∈ F.nodes → st.Ok F → F.nodes.card < fuel + st.inProgress.length →
    Answered F st n (ask n st)

/-- What a walk of the node does, given right answers: it finds what is there, or has asked for
every node that this one leads to. -/
structure Walked (F : Terrain N) (st : Memo N S) (n : N) (r : Option S × Memo N S) : Prop where
  extends_ : Extends F st r.2
  clear : r.1 = none → ¬ F.own n ∧ ∀ m, F.leads n m → Clear F st r.2 m
  has : ∀ s, r.1 = some s → F.Has n

def Walks (F : Terrain N) (walk : Ask N S → Ask N S) : Prop :=
  ∀ {fuel ask}, Answers F fuel ask → ∀ {n st}, st.Ok F →
    F.nodes.card < fuel + st.inProgress.length → Walked F st n (walk ask n st)

/-! ## The search -/

theorem lookup_cons_ne {memo : List (N × Option S)} {x : Option S} (h : m ≠ n) :
    List.lookup m ((n, x) :: memo) = List.lookup m memo := by
  rw [List.lookup_cons, beq_false_of_ne h]

/-- The walk of `n` begins. -/
def Memo.enter (st : Memo N S) (n : N) : Memo N S :=
  { st with inProgress := n :: st.inProgress, metCycle := false }

theorem Memo.Ok.enter (h : st.Ok F) (hn : n ∈ F.nodes) (hp : n ∉ st.inProgress) :
    (st.enter n).Ok F := by
  refine ⟨h.clean, h.found, ?_, ?_⟩
  · exact List.nodup_cons.2 ⟨hp, h.nodup⟩
  · exact List.forall_mem_cons.2 ⟨hn, h.nodes⟩

/-- The answer is remembered. -/
theorem Memo.Ok.note {found : Option S} {l : List N} {b : Bool} (h : st.Ok F)
    (hnone : found = none → ¬ F.Has n) (hsome : ∀ s, found = some s → F.Has n) (hl : l.Nodup)
    (hnodes : ∀ m ∈ l, m ∈ F.nodes) : Memo.Ok F ⟨(n, found) :: st.memo, l, b⟩ := by
  constructor
  · intro m hm
    by_cases hmn : m = n
    · subst hmn
      simp only [Memo.Clean, List.lookup_cons_self, Option.some.injEq] at hm
      exact hnone hm
    · simp only [Memo.Clean, lookup_cons_ne hmn] at hm
      exact h.clean hm
  · intro m s hm
    by_cases hmn : m = n
    · subst hmn
      simp only [List.lookup_cons_self, Option.some.injEq] at hm
      exact hsome s hm
    · simp only [lookup_cons_ne hmn] at hm
      exact h.found hm
  · exact hl
  · exact hnodes

theorem length_inProgress_le (h : st.Ok F) : st.inProgress.length ≤ F.nodes.card := by
  rw [← List.toFinset_card_of_nodup h.nodup]
  exact Finset.card_le_card fun n hn => h.nodes n (List.mem_toFinset.1 hn)

/-- A walk that found nothing, of the node and around those in progress. -/
theorem Walked.not_own {r : Option S × Memo N S} (h : Walked F (st.enter n) n r) (hr : r.1 = none) :
    ∀ m, Around F st.inProgress n m → ¬ F.own m := by
  obtain ⟨hown, hleads⟩ := h.clear hr
  intro m hm
  rcases hm.leave with rfl | ⟨k, hk, hway⟩
  · exact hown
  · exact (hleads k hk).around m hway

/-- A walk that found nothing and met no node in progress. -/
theorem Walked.not_has {r : Option S × Memo N S} (h : Walked F (st.enter n) n r) (hr : r.1 = none)
    (hmet : r.2.metCycle = false) : ¬ F.Has n := by
  obtain ⟨hown, hleads⟩ := h.clear hr
  rw [Terrain.has_iff]
  rintro (hn | ⟨m, hm, hhas⟩)
  · exact hown hn
  · exact h.extends_.ok.clean ((hleads m hm).clean hmet) hhas

theorem search_answers {walk : Ask N S → Ask N S} (hw : Walks F walk) (fuel : Nat) :
    Answers F fuel (search walk fuel) := by
  induction fuel with
  | zero =>
    intro n st _ hok hroom
    have := length_inProgress_le hok
    omega
  | succ fuel ih =>
    intro n st hn hok hroom
    unfold search
    cases hlook : st.memo.lookup n with
    | some answer =>
      refine ⟨.refl hok, fun hnone => ⟨fun m hm hown => ?_, fun _ => ?_⟩, fun s hs => ?_⟩
      · cases hnone
        exact hok.clean hlook ⟨m, hm.reaches, hown⟩
      · cases hnone
        exact hlook
      · cases hs
        exact hok.found hlook
    | none =>
      by_cases hp : n ∈ st.inProgress
      · simp only [hp, if_true]
        refine ⟨⟨⟨hok.clean, hok.found, hok.nodup, hok.nodes⟩, rfl, fun _ h => h, fun _ => rfl⟩, ?_,
          nofun⟩
        exact fun _ => ⟨fun m hm => absurd hp hm.not_mem, nofun⟩
      · simp only [hp, if_false]
        have hroom' : F.nodes.card < fuel + (st.enter n).inProgress.length := by
          simp only [Memo.enter, List.length_cons]
          omega
        have hwalked := hw ih (hok.enter hn hp) hroom' (n := n)
        generalize hr : walk (search walk fuel) n (st.enter n) = r at hwalked
        unfold Memo.enter at hr
        rw [hr]
        have hprog : r.2.inProgress.erase n = st.inProgress := by
          simp [hwalked.extends_.inProgress, Memo.enter]
        have hclean : ∀ m, st.Clean m → m ≠ n := by
          rintro m hm rfl
          cases hlook.symm.trans hm
        by_cases hnote : (r.1.isSome || !r.2.metCycle) = true
        · simp only [hnote, if_true, hprog]
          have hnone : r.1 = none → ¬ F.Has n := by
            intro hnone
            refine hwalked.not_has hnone ?_
            simpa [hnone] using hnote
          refine ⟨⟨hwalked.extends_.ok.note hnone hwalked.has hok.nodup hok.nodes, rfl, ?_, ?_⟩, ?_,
            ?_⟩
          · intro m hm
            simp only [Memo.Clean, lookup_cons_ne (hclean m hm)]
            exact hwalked.extends_.clean m hm
          · intro hmet
            simp [hmet]
          · intro hr1
            refine ⟨hwalked.not_own hr1, fun _ => ?_⟩
            rw [Memo.Clean, List.lookup_cons_self]
            exact congrArg some hr1
          · exact hwalked.has
        · simp only [hnote, hprog]
          have hok' := hwalked.extends_.ok
          simp only [Bool.or_eq_true, Bool.not_eq_true', not_or, Bool.not_eq_false] at hnote
          refine ⟨⟨⟨hok'.clean, hok'.found, hok.nodup, hok.nodes⟩, rfl, hwalked.extends_.clean,
            ?_⟩, ?_,
            ?_⟩
          · intro hmet
            simp [hmet]
          · intro hr1
            refine ⟨hwalked.not_own hr1, fun hmet => ?_⟩
            simp [hnote.2] at hmet
          · exact hwalked.has

end Wtc.Search
