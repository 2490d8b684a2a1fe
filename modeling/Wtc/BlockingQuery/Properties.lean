import Wtc.BlockingQuery.Model

/-!
# The answer is reachability

Whatever was asked before, a question is answered by what can be reached: `at_` gives a site exactly
if the operation is one by itself or calls into a body from which one is reached, and `sitesIn` some
exactly if one is reached from the function.
-/

namespace Wtc.BlockingQuery

open Wtc.Search

variable {F T : Type} (m : Module F T) (accepted : Kind → Bool) (test : Op F T → Option (Site F T))

/-! ## Sites and calls -/

/-- A call of a function whose body is not looked into blocks. -/
def BlocksOutside (c : Call F) (t : F) : Prop :=
  m.followed t = false ∧ (((m.func t).external.any fun ext => !accepted ext.kind) = true ∨
    c.nothrow = false ∧ accepted .mayThrow = false)

/-- The functions that a call may enter, the calls on an ownerless slot apart. -/
def Call.targets (c : Call F) : List F :=
  match c.callee with
  | some t => if (c.operands.head?.map m.ownerless).getD false then [] else [t]
  | none => c.indirectCallees

/-- The operation is a site by itself. -/
def IsSite (o : Op F T) : Prop :=
  (test o).isSome = true ∨
    match o.kind with
    | .progress p => p.blocking = true ∧ accepted .waits = false ∨
        p.blocking = false ∧ p.mayCallAllocator = true ∧ accepted .allocates = false
    | .inlineAsm text => m.onlyNonBlockingInstructions text = false ∧ accepted .assembly = false
    | .asm => accepted .assembly = false
    | .throw => accepted .throws = false
    | .allocException => accepted .throws = false
    | .call c => c.callee = none ∧ c.indirectCallees = [] ∧ accepted .unknownTarget = false ∨
        ∃ t ∈ c.targets m, BlocksOutside m accepted c t
    | .other => False

/-- The operation calls into the body of `t`. -/
def Enters (o : Op F T) (t : F) : Prop :=
  ∃ c, o.kind = .call c ∧ t ∈ c.targets m ∧ m.followed t = true

/-- The second function is reached from the first by calls into bodies. -/
abbrev Reaches : F → F → Prop :=
  Relation.ReflTransGen fun f t => ∃ o ∈ (m.func f).ops, Enters m o t

/-- A site is reached from the function. -/
def MayBlock (f : F) : Prop :=
  ∃ g, Reaches m f g ∧ ∃ o ∈ (m.func g).ops, IsSite m accepted test o

/-- What the search finds; the bodies it walks are those of functions that are called. -/
def terrain [Fintype F] (extra : Op F T → Bool → Option (Site F T)) : Terrain F where
  nodes := Finset.univ
  own f := ∃ o ∈ (m.func f).ops, IsSite m accepted (extra · true) o
  leads f t := ∃ o ∈ (m.func f).ops, Enters m o t
  leads_nodes _ := Finset.mem_univ _

theorem externalSite_isSome {o : Op F T} {c : Call F} {t : F} (ht : m.followed t = false) :
    (externalSite m accepted o c.nothrow t).isSome = true ↔ BlocksOutside m accepted c t := by
  unfold externalSite BlocksOutside
  cases hext : (m.func t).external with
  | none =>
    cases c.nothrow <;> cases hthrow : accepted .mayThrow <;> simp [ht]
  | some ext =>
    cases hkind : accepted ext.kind <;> cases c.nothrow <;> cases hthrow : accepted .mayThrow <;>
      simp [ht, hkind]
    all_goals split <;> simp

/-! ## One operation -/

theorem report_ne_nil (s : Site F T) (sites : List (Site F T)) : report s sites ≠ [] := by
  unfold report
  split
  · next h =>
    rintro rfl
    simp at h
  · simp

variable {st : State F T}

section Walk

variable {m accepted} [DecidableEq F] [Fintype F] {extra : Op F T → Bool → Option (Site F T)}
  {inCallee : Bool} {fuel : Nat} {ask : Ask F (Site F T)}
  (hask : Answers (terrain m accepted extra) fuel ask)
include hask

/-- The answer for a list of targets. -/
structure TargetsAnswered (m : Module F T) (accepted : Kind → Bool)
    (extra : Op F T → Bool → Option (Site F T)) (c : Call F) (ts : List F) (st : State F T)
    (r : Option (Site F T) × State F T) : Prop where
  extends_ : Extends (terrain m accepted extra) st r.2
  clear : r.1 = none → ∀ t ∈ ts, ¬ BlocksOutside m accepted c t ∧
    (m.followed t = true → Clear (terrain m accepted extra) st r.2 t)
  has : ∀ s, r.1 = some s → ∃ t ∈ ts, BlocksOutside m accepted c t ∨
    m.followed t = true ∧ (terrain m accepted extra).Has t

theorem targetsSite_spec (o : Op F T) (c : Call F) (ts : List F)
    (hok : st.Ok (terrain m accepted extra))
    (hroom : (terrain m accepted extra).nodes.card < fuel + st.inProgress.length) :
    TargetsAnswered m accepted extra c ts st (targetsSite m accepted ask o c.nothrow ts st) := by
  induction ts generalizing st with
  | nil => exact ⟨.refl hok, by simp, nofun⟩
  | cons t ts ih =>
    unfold targetsSite
    by_cases ht : m.followed t = true
    · simp only [ht, if_true]
      have hans := hask (Finset.mem_univ t) hok hroom
      have hout : ¬ BlocksOutside m accepted c t := by simp [BlocksOutside, ht]
      generalize ask t st = r at hans
      obtain ⟨found, st₁⟩ := r
      cases found with
      | some s =>
        refine ⟨hans.extends_, nofun, fun _ _ => ⟨t, by simp, .inr ⟨ht, hans.has s rfl⟩⟩⟩
      | none =>
        have hext := hans.extends_
        have hrest := ih hext.ok (by rwa [hext.inProgress])
        refine ⟨hext.trans hrest.extends_, fun hnone => ?_, fun s hs => ?_⟩
        · simp only [List.mem_cons, forall_eq_or_imp]
          refine ⟨⟨hout, fun _ => (hans.clear rfl).extends hrest.extends_⟩, fun t' ht' => ?_⟩
          obtain ⟨hout', hclear⟩ := hrest.clear hnone t' ht'
          exact ⟨hout', fun hf => (hclear hf).after hext⟩
        · obtain ⟨t', ht', hhas⟩ := hrest.has s hs
          exact ⟨t', List.mem_cons_of_mem _ ht', hhas⟩
    · have hf : m.followed t = false := by simpa using ht
      have hsite := externalSite_isSome m accepted (o := o) (c := c) hf
      simp only [hf, Bool.false_eq_true, if_false]
      cases hext : externalSite m accepted o c.nothrow t with
      | some s =>
        rw [hext] at hsite
        exact ⟨.refl hok, nofun, fun _ _ => ⟨t, by simp, .inl (hsite.1 rfl)⟩⟩
      | none =>
        rw [hext] at hsite
        have hrest := ih hok hroom
        refine ⟨hrest.extends_, fun hnone => ?_, fun s hs => ?_⟩
        · simp only [List.mem_cons, forall_eq_or_imp]
          refine ⟨⟨fun hout => ?_, fun hf' => absurd hf' ht⟩, hrest.clear hnone⟩
          cases hsite.2 hout
        · obtain ⟨t', ht', hhas⟩ := hrest.has s hs
          exact ⟨t', List.mem_cons_of_mem _ ht', hhas⟩

/-- The answer for an operation. -/
structure OpAnswered (m : Module F T) (accepted : Kind → Bool)
    (extra : Op F T → Bool → Option (Site F T)) (inCallee : Bool) (o : Op F T) (st : State F T)
    (r : Option (Site F T) × State F T) : Prop where
  extends_ : Extends (terrain m accepted extra) st r.2
  clear : r.1 = none → ¬ IsSite m accepted (extra · inCallee) o ∧
    ∀ t, Enters m o t → Clear (terrain m accepted extra) st r.2 t
  has : ∀ s, r.1 = some s → IsSite m accepted (extra · inCallee) o ∨
    ∃ t, Enters m o t ∧ (terrain m accepted extra).Has t

omit hask [DecidableEq F] [Fintype F] in
theorem site_isSome {o : Op F T} {kind : Kind} {why : String} :
    (site accepted o kind why).isSome = true ↔ accepted kind = false := by
  unfold site
  cases accepted kind <;> simp

omit hask in
/-- An operation that is not a call is answered by what it is. -/
theorem opAnswered_of_iff {o : Op F T} {found : Option (Site F T)}
    (hok : st.Ok (terrain m accepted extra)) (hcall : ∀ c, o.kind ≠ .call c)
    (h : found.isSome = true ↔ IsSite m accepted (extra · inCallee) o) :
    OpAnswered m accepted extra inCallee o st (found, st) := by
  refine ⟨.refl hok, ?_, ?_⟩
  · rintro rfl
    refine ⟨fun hsite => ?_, fun t ht => ?_⟩
    · cases h.2 hsite
    · obtain ⟨c, hc, -⟩ := ht
      exact absurd hc (hcall c)
  · rintro s rfl
    exact .inl (h.1 rfl)

theorem callSite_spec {o : Op F T} {c : Call F} (hkind : o.kind = .call c)
    (htest : extra o inCallee = none)
    (hok : st.Ok (terrain m accepted extra))
    (hroom : (terrain m accepted extra).nodes.card < fuel + st.inProgress.length) :
    OpAnswered m accepted extra inCallee o st (callSite m accepted ask o c st) := by
  have hsite : IsSite m accepted (extra · inCallee) o ↔ c.callee = none ∧ c.indirectCallees = [] ∧
      accepted .unknownTarget = false ∨ ∃ t ∈ c.targets m, BlocksOutside m accepted c t := by
    simp [IsSite, htest, hkind]
  have henters : ∀ t, Enters m o t ↔ t ∈ c.targets m ∧ m.followed t = true := by
    intro t
    simp [Enters, hkind]
  -- the targets in order, where there are any to look at
  have hmain : (¬ (c.callee = none ∧ c.indirectCallees = [])) →
      OpAnswered m accepted extra inCallee o st
        (targetsSite m accepted ask o c.nothrow (c.targets m) st) := by
    intro hsome
    have hts := targetsSite_spec hask o c (c.targets m) hok hroom
    refine ⟨hts.extends_, fun hnone => ?_, fun s hs => ?_⟩
    · have hclear := hts.clear hnone
      refine ⟨fun h => ?_, fun t ht => ?_⟩
      · rcases hsite.1 h with ⟨h₁, h₂, -⟩ | ⟨t, ht, hout⟩
        · exact hsome ⟨h₁, h₂⟩
        · exact (hclear t ht).1 hout
      · obtain ⟨ht, hf⟩ := (henters t).1 ht
        exact (hclear t ht).2 hf
    · obtain ⟨t, ht, hout | ⟨hf, hhas⟩⟩ := hts.has s hs
      · exact .inl (hsite.2 (.inr ⟨t, ht, hout⟩))
      · exact .inr ⟨t, (henters t).2 ⟨ht, hf⟩, hhas⟩
  unfold callSite
  cases hcallee : c.callee with
  | some t =>
    have hmain := hmain (by simp [hcallee])
    simp only [Call.targets, hcallee] at hmain
    by_cases hown : (c.operands.head?.map m.ownerless).getD false = true
    · simpa [hown, targetsSite] using hmain
    · simpa [hown] using hmain
  | none =>
    cases hind : c.indirectCallees with
    | nil =>
      refine ⟨.refl hok, fun hnone => ⟨fun h => ?_, fun t ht => ?_⟩, fun s hs => .inl ?_⟩
      · rcases hsite.1 h with ⟨-, -, hacc⟩ | ⟨t, ht, -⟩
        · simp [site, hacc] at hnone
        · simp [Call.targets, hcallee, hind] at ht
      · have := ((henters t).1 ht).1
        simp [Call.targets, hcallee, hind] at this
      · refine hsite.2 (.inl ⟨hcallee, hind, ?_⟩)
        exact site_isSome.1 (Option.isSome_iff_exists.2 ⟨s, hs⟩)
    | cons t ts =>
      have hmain := hmain (by simp [hind])
      simpa only [Call.targets, hcallee, hind] using hmain

theorem siteAt_spec (o : Op F T) (inCallee : Bool) (hok : st.Ok (terrain m accepted extra))
    (hroom : (terrain m accepted extra).nodes.card < fuel + st.inProgress.length) :
    OpAnswered m accepted extra inCallee o st (siteAt m accepted extra ask o inCallee st) := by
  cases htest : extra o inCallee with
  | some s =>
    simp only [siteAt, htest]
    refine ⟨.refl hok, nofun, fun _ _ => .inl (.inl ?_)⟩
    simp [htest]
  | none =>
    cases hkind : o.kind with
    | call c =>
      simp only [siteAt, htest, hkind]
      exact callSite_spec hask hkind htest hok hroom
    | progress p =>
      have hnot : ∀ c, o.kind ≠ .call c := by simp [hkind]
      simp only [siteAt, htest, hkind]
      cases hb : p.blocking <;> cases ha : p.mayCallAllocator <;>
        refine opAnswered_of_iff hok hnot ?_ <;> simp [IsSite, htest, hkind, hb, ha, site_isSome]
    | inlineAsm text =>
      have hnot : ∀ c, o.kind ≠ .call c := by simp [hkind]
      simp only [siteAt, htest, hkind]
      cases ht : m.onlyNonBlockingInstructions text <;>
        refine opAnswered_of_iff hok hnot ?_ <;> simp [IsSite, htest, hkind, ht, site_isSome]
    | asm | throw | allocException | other =>
      have hnot : ∀ c, o.kind ≠ .call c := by simp [hkind]
      simp only [siteAt, htest, hkind]
      refine opAnswered_of_iff hok hnot ?_
      simp [IsSite, htest, hkind, site_isSome]

/-- The walk of a body, from its first operation or a later one. -/
theorem firstAmong_spec (os : List (Op F T)) (hok : st.Ok (terrain m accepted extra))
    (hroom : (terrain m accepted extra).nodes.card < fuel + st.inProgress.length) :
    Extends (terrain m accepted extra) st (firstAmong m accepted extra ask os st).2 ∧
      ((firstAmong m accepted extra ask os st).1 = none → ∀ o ∈ os,
        ¬ IsSite m accepted (extra · true) o ∧ ∀ t, Enters m o t →
          Clear (terrain m accepted extra) st (firstAmong m accepted extra ask os st).2 t) ∧
      ∀ s, (firstAmong m accepted extra ask os st).1 = some s → ∃ o ∈ os,
        IsSite m accepted (extra · true) o ∨
          ∃ t, Enters m o t ∧ (terrain m accepted extra).Has t := by
  induction os generalizing st with
  | nil => exact ⟨.refl hok, by simp, nofun⟩
  | cons o os ih =>
    unfold firstAmong
    have hans := siteAt_spec hask o true hok hroom
    generalize siteAt m accepted extra ask o true st = r at hans
    obtain ⟨found, st₁⟩ := r
    cases found with
    | some s => exact ⟨hans.extends_, nofun, fun _ _ => ⟨o, by simp, hans.has s rfl⟩⟩
    | none =>
      have hext := hans.extends_
      obtain ⟨hext', hclear, hhas⟩ := ih hext.ok (by rwa [hext.inProgress])
      refine ⟨hext.trans hext', fun hnone => ?_, fun s hs => ?_⟩
      · simp only [List.mem_cons, forall_eq_or_imp]
        obtain ⟨hsite, henters⟩ := hans.clear rfl
        refine ⟨⟨hsite, fun t ht => (henters t ht).extends hext'⟩, fun o' ho' => ?_⟩
        obtain ⟨hsite', henters'⟩ := hclear hnone o' ho'
        exact ⟨hsite', fun t ht => (henters' t ht).after hext⟩
      · obtain ⟨o', ho', h⟩ := hhas s hs
        exact ⟨o', List.mem_cons_of_mem _ ho', h⟩

end Walk

/-! ## Questions -/

section Questions

variable {m accepted test} [Fintype F] {extra : Op F T → Bool → Option (Site F T)}

theorem has_of_op {f : F} {o : Op F T} (ho : o ∈ (m.func f).ops)
    (h : IsSite m accepted (extra · true) o ∨
      ∃ t, Enters m o t ∧ (terrain m accepted extra).Has t) :
    (terrain m accepted extra).Has f := by
  rcases h with hsite | ⟨t, ht, hhas⟩
  · exact ⟨f, .refl, o, ho, hsite⟩
  · have hleads : (terrain m accepted extra).leads f t := ⟨o, ho, ht⟩
    exact hhas.of_leads hleads

/-- There is fuel for every function. -/
theorem room (st : State F T) :
    (terrain m accepted extra).nodes.card < Fintype.card F + 1 + st.inProgress.length := by
  simp only [terrain, Finset.card_univ]
  omega

variable [DecidableEq F]

theorem walks_firstAmong : Walks (terrain m accepted extra)
    (fun ask f => firstAmong m accepted extra ask (m.func f).ops) := by
  intro fuel ask hask f st hok hroom
  obtain ⟨hext, hclear, hhas⟩ := firstAmong_spec hask (m.func f).ops hok hroom
  refine ⟨hext, fun hnone => ⟨?_, ?_⟩, fun s hs => ?_⟩
  · rintro ⟨o, ho, hsite⟩
    exact (hclear hnone o ho).1 hsite
  · rintro t ⟨o, ho, ht⟩
    exact (hclear hnone o ho).2 t ht
  · obtain ⟨o, ho, h⟩ := hhas s hs
    exact has_of_op ho h

theorem firstIn_answers : Answers (terrain m accepted extra) (Fintype.card F + 1)
    (firstIn m accepted extra) :=
  search_answers walks_firstAmong _

theorem at_spec (o : Op F T) (hok : st.Ok (terrain m accepted extra)) :
    OpAnswered m accepted extra false o st (at_ m accepted extra o st) :=
  siteAt_spec firstIn_answers o false hok (room st)

/-- The walk that collects the sites of a function's own operations. -/
theorem sitesAmong_spec (os : List (Op F T)) (sites : List (Site F T))
    (hok : st.Ok (terrain m accepted extra)) :
    Extends (terrain m accepted extra) st
        (sitesAmong m accepted extra os sites st).2 ∧
      ((sitesAmong m accepted extra os sites st).1 = [] → sites = [] ∧ ∀ o ∈ os,
        ¬ IsSite m accepted (extra · false) o ∧ ∀ t, Enters m o t →
          Clear (terrain m accepted extra) st (sitesAmong m accepted extra os sites st).2 t) ∧
      ((sitesAmong m accepted extra os sites st).1 ≠ [] → sites ≠ [] ∨ ∃ o ∈ os,
        IsSite m accepted (extra · false) o ∨
          ∃ t, Enters m o t ∧ (terrain m accepted extra).Has t) := by
  induction os generalizing sites st with
  | nil => exact ⟨.refl hok, fun h => ⟨h, by simp⟩, .inl⟩
  | cons o os ih =>
    unfold sitesAmong
    have hans := at_spec o hok
    unfold at_ at hans
    generalize siteAt m accepted extra _ o false st = r at hans
    obtain ⟨found, st₁⟩ := r
    have hext := hans.extends_
    cases found with
    | some s =>
      obtain ⟨hext', hclear, -⟩ := ih (report s sites) hext.ok
      refine ⟨hext.trans hext', fun hnil => ?_, fun _ => .inr ⟨o, by simp, hans.has s rfl⟩⟩
      exact absurd (hclear hnil).1 (report_ne_nil s sites)
    | none =>
      obtain ⟨hext', hclear, hhas⟩ := ih sites hext.ok
      refine ⟨hext.trans hext', fun hnil => ?_, fun hne => ?_⟩
      · obtain ⟨hsites, hrest⟩ := hclear hnil
        obtain ⟨hsite, henters⟩ := hans.clear rfl
        simp only [List.mem_cons, forall_eq_or_imp]
        refine ⟨hsites, ⟨hsite, fun t ht => (henters t ht).extends hext'⟩, fun o' ho' => ?_⟩
        obtain ⟨hsite', henters'⟩ := hrest o' ho'
        exact ⟨hsite', fun t ht => (henters' t ht).after hext⟩
      · refine (hhas hne).imp id ?_
        rintro ⟨o', ho', h⟩
        exact ⟨o', List.mem_cons_of_mem _ ho', h⟩

/-- The query between questions: what it remembers is right, and nothing is in progress. -/
structure Idle (m : Module F T) (accepted : Kind → Bool) (extra : Op F T → Bool → Option (Site F T))
    (st : State F T) : Prop where
  ok : st.Ok (terrain m accepted extra)
  inProgress : st.inProgress = []

theorem idle_init : Idle m accepted extra ⟨[], [], false⟩ :=
  ⟨⟨nofun, nofun, List.nodup_nil, by simp⟩, rfl⟩

theorem at_idle (o : Op F T) (h : Idle m accepted extra st) :
    Idle m accepted extra (at_ m accepted extra o st).2 := by
  have hext := (at_spec o h.ok).extends_
  exact ⟨hext.ok, hext.inProgress.trans h.inProgress⟩

theorem at_isSome_iff (o : Op F T) (h : Idle m accepted extra st) :
    (at_ m accepted extra o st).1.isSome = true ↔
      IsSite m accepted (extra · false) o ∨
        ∃ t, Enters m o t ∧ MayBlock m accepted (extra · true) t := by
  have hans := at_spec o h.ok
  generalize at_ m accepted extra o st = r at hans
  obtain ⟨found, st'⟩ := r
  cases found with
  | some s => exact iff_of_true rfl (hans.has s rfl)
  | none =>
    refine iff_of_false (by simp) ?_
    obtain ⟨hsite, henters⟩ := hans.clear rfl
    rintro (hs | ⟨t, ht, g, hg, hown⟩)
    · exact hsite hs
    · exact (henters t ht).around g (h.inProgress ▸ around_nil hg) hown

/-- The walk of `sitesIn` begins with its function in progress. -/
theorem Idle.mark (h : Idle m accepted extra st) (f : F) :
    Memo.Ok (terrain m accepted extra) { st with inProgress := f :: st.inProgress } := by
  refine ⟨h.ok.clean, h.ok.found, ?_, fun n _ => Finset.mem_univ n⟩
  simp [h.inProgress]

theorem sitesIn_idle (f : F) (h : Idle m accepted extra st) :
    Idle m accepted extra (sitesIn m accepted extra f st).2 := by
  obtain ⟨hext, -⟩ := sitesAmong_spec (m.func f).ops [] (h.mark f)
  have hprog : (sitesIn m accepted extra f st).2.inProgress = [] := by
    simp only [sitesIn, hext.inProgress, List.erase_cons_head]
    exact h.inProgress
  refine ⟨⟨hext.ok.clean, hext.ok.found, ?_, ?_⟩, hprog⟩
  · simp [hprog]
  · simp [hprog]

theorem sitesIn_ne_nil_iff (f : F) (h : Idle m accepted (fun o _ => test o) st) :
    (sitesIn m accepted (fun o _ => test o) f st).1 ≠ [] ↔ MayBlock m accepted test f := by
  obtain ⟨-, hclear, hhas⟩ := sitesAmong_spec (m.func f).ops [] (h.mark f)
  refine ⟨fun hne => ?_, fun hmay hnil => ?_⟩
  · rcases hhas hne with hne | ⟨o, ho, hop⟩
    · exact absurd rfl hne
    · have hfound : (terrain m accepted fun o _ => test o).Has f := has_of_op ho hop
      exact hfound
  · obtain ⟨-, hops⟩ := hclear hnil
    obtain ⟨g, hg, o, ho, hsite⟩ := hmay
    -- the last time the way is at `f`, one of its own operations goes on around it
    rcases (around_nil (F := terrain m accepted fun o _ => test o) hg).leave with
      rfl | ⟨t, ⟨o', ho', ht⟩, hway⟩
    · exact (hops o ho).1 hsite
    · rw [← h.inProgress] at hway
      exact ((hops o' ho').2 t ht).around g hway ⟨o, ho, hsite⟩

theorem after_idle (earlier : List (Question F T)) :
    Idle m accepted extra (after m accepted extra earlier) := by
  unfold after
  have hinit : Idle m accepted extra ⟨[], [], false⟩ := idle_init
  generalize (⟨[], [], false⟩ : State F T) = st at hinit
  induction earlier generalizing st with
  | nil => exact hinit
  | cons q qs ih =>
    refine ih _ ?_
    cases q with
    | at_ o => exact at_idle o hinit
    | sitesIn f => exact sitesIn_idle f hinit

end Questions

/-- Both questions are answered by reachability, whatever was asked before. -/
theorem answers_are_reachability [DecidableEq F] [Fintype F] (m : Module F T)
    (accepted : Kind → Bool)
    (test : Op F T → Option (Site F T)) (earlier : List (Question F T)) :
    (∀ f, (sitesIn m accepted (fun o _ => test o) f
        (after m accepted (fun o _ => test o) earlier)).1 ≠ [] ↔ MayBlock m accepted test f) ∧
    ∀ o, (at_ m accepted (fun o _ => test o) o
        (after m accepted (fun o _ => test o) earlier)).1.isSome = true ↔
      IsSite m accepted test o ∨ ∃ t, Enters m o t ∧ MayBlock m accepted test t :=
  ⟨fun f => sitesIn_ne_nil_iff f (after_idle earlier),
    fun o => at_isSome_iff o (after_idle earlier)⟩

end Wtc.BlockingQuery
