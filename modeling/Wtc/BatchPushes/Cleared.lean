import Wtc.BatchPushes.Model

/-!
# Code that has been cleared

What the query says of an operation it clears, as a property of the operation and of everything it
calls (`Under`), and what follows for a run: cleared code does not throw, and enters only cleared
code (`Ran.follows`, `called_next`).
-/

namespace Wtc.BatchPushes

open Wtc.Control
open Wtc.BlockingQuery (Kind Site IsSite Enters Reaches MayBlock)

variable {F C Mem V : Type} {m : Module F C}

/-! ## Operations and what they call -/

/-- `P` holds of the operation, and of every operation of the functions it calls, one through
another. The first argument of `P` is whether the operation is in a function that was called. -/
def Under (m : Module F C) (P : Bool → Op F → Prop) (inCallee : Bool) (o : Op F) : Prop :=
  P inCallee o ∧ ∀ t, Enters m.query o t → ∀ g, Reaches m.query t g →
    ∀ o' ∈ (m.body g).ops, P true o'

theorem Under.mono {P Q : Bool → Op F → Prop} {c : Bool} {o : Op F} (h : Under m P c o)
    (hPQ : ∀ {c o}, P c o → Q c o) : Under m Q c o :=
  ⟨hPQ h.1, fun t ht g hg o' ho' => hPQ (h.2 t ht g hg o' ho')⟩

/-- It passes to the functions that are called. -/
theorem Under.body {P : Bool → Op F → Prop} {c : Bool} {o : Op F} {f : F} (h : Under m P c o)
    (hf : Enters m.query o f) : ∀ o' ∈ (m.body f).ops, Under m P true o' := by
  refine fun o' ho' => ⟨h.2 f hf f .refl o' ho', fun t ht g hg => h.2 f hf g (.head ?_ hg)⟩
  exact ⟨o', by rwa [m.ops_eq], ht⟩

/-- The query clears the operation. -/
def Clear (m : Module F C) (inCallee : Bool) (o : Op F) : Prop :=
  ¬ IsSite m.query (accepted m) (extra · inCallee) o

/-- What may wait, and neither throws nor acts on a queue or a mutex. -/
def bears : Kind → Bool
  | .throws => false
  | .mayThrow => false
  | .unknownTarget => false
  | .refused => false
  | _ => true

def Tame (m : Module F C) (inCallee : Bool) (o : Op F) : Prop :=
  (inCallee = true → dialect o = none) ∧ ¬ IsSite m.query bears (fun _ => none) o

theorem bears_of_accepted {k : Kind} (h : accepted m k = true) : bears k = true := by
  cases k <;> simp_all [accepted, bears]

theorem Clear.not_wtc {o : Op F} (h : Clear m true o) : dialect o = none := by
  cases ht : o.tag with
  | wtc w =>
    refine absurd (.inl ?_) h
    simp [extra, ht]
  | _ => simp [dialect, ht]

/-- A kind that is not borne is not accepted. -/
theorem isSite_of_isSite {o : Op F} {c : Bool} (h : IsSite m.query bears (fun _ => none) o) :
    IsSite m.query (accepted m) (extra · c) o := by
  have hnot : ∀ {k}, bears k = false → accepted m k = false := by
    intro k hk
    by_contra hn
    rw [bears_of_accepted (by simpa using hn)] at hk
    cases hk
  rcases h with h | h
  · cases h
  · refine .inr ?_
    cases hk : o.kind with
    | progress p =>
      rw [hk] at h
      exact h.imp (fun h => ⟨h.1, hnot h.2⟩) fun h => ⟨h.1, h.2.1, hnot h.2.2⟩
    | inlineAsm text =>
      rw [hk] at h
      exact ⟨h.1, hnot h.2⟩
    | asm | throw | allocException =>
      rw [hk] at h
      exact hnot h
    | other =>
      rw [hk] at h
      exact h
    | call c =>
      rw [hk] at h
      refine h.imp (fun h => ⟨h.1, h.2.1, hnot h.2.2⟩) ?_
      rintro ⟨t, ht, hf, hout⟩
      refine ⟨t, ht, hf, hout.imp ?_ fun h => ⟨h.1, hnot h.2⟩⟩
      cases (m.query.func t).external with
      | none => exact id
      | some e => simpa using hnot

theorem Clear.tame {o : Op F} {c : Bool} (h : Clear m c o) : Tame m c o := by
  refine ⟨?_, fun hs => h (isSite_of_isSite hs)⟩
  rintro rfl
  exact h.not_wtc

/-! ## Waiting -/

theorem waitingKind_of_accepted {k : Kind} (h : accepted m k = true) : waitingKind k = false := by
  cases k <;> simp_all [accepted, waitingKind]

/-- What the query clears does not wait. -/
theorem Clear.not_mayWait {o : Op F} {c : Bool} (hreg : m.registration = none) (h : Clear m c o)
    (ho : dialect o = none) : ¬ MayWait m o := by
  unfold MayWait
  cases ht : o.tag with
  | label => exact id
  | wtc w => simp [dialect, ht] at ho
  | cir name synchronises v =>
    rintro (rfl | hw)
    · exact h (.inl (by simp [extra, ht]))
    · refine h (.inr ?_)
      cases hk : o.kind with
      | progress p =>
        rw [hk] at hw
        rcases hw with hw | ⟨-, hw⟩
        · exact .inl ⟨hw, rfl⟩
        · simp [hreg] at hw
      | inlineAsm text =>
        rw [hk] at hw
        exact ⟨hw, rfl⟩
      | asm => rfl
      | throw | allocException | other => simp [hk] at hw
      | call c =>
        rw [hk] at hw
        rcases hw with ⟨hc, hi⟩ | ⟨t, htm, hf, e, he, hwait⟩
        · exact .inl ⟨hc, hi, rfl⟩
        · refine .inr ⟨t, htm, hf, .inl ?_⟩
          have hkind : accepted m e.kind = false := by
            by_contra hn
            rcases hwait with hwait | ⟨-, hr⟩
            · rw [waitingKind_of_accepted (by simpa using hn)] at hwait
              cases hwait
            · simp [hreg] at hr
          simp [he, hkind]

/-! ## Running such code -/

/-- The code's operations are all `Q`. -/
def Holds (Q : Op F → Prop) (b : Code (Op F) C) : Prop := ∀ o ∈ b.ops, Q o

/-- What a tame operation puts on the stack, and does to the values. -/
structure Follows (Q : Op F → Prop) (c : Bool) (o : Op F) (env env' : Nat → Nat)
    (fs : List (Frame (Op F) C)) : Prop where
  frames : fs = [] ∨ ∃ b, fs = [.block b, .call] ∧ Holds Q b
  env : env' = env ∨ ∃ v y, result o = some v ∧ c = false ∧ env' = Function.update env v y

theorem bind_cases {c : Bool} {o : Op F} {env : Nat → Nat} {y : Nat} :
    bind c o env y = env ∨
      ∃ v z, result o = some v ∧ c = false ∧ bind c o env y = Function.update env v z := by
  unfold bind
  cases hr : result o with
  | none => exact .inl rfl
  | some v =>
    cases c with
    | true => exact .inl rfl
    | false => exact .inr ⟨v, y, rfl, rfl, rfl⟩

theorem Ran.follows {P : Bool → Op F → Prop} {M : Meaning Mem F C} {c c' : Bool} {o : Op F}
    {mem mem' : Mem} {env env' : Nat → Nat} {es : List (Effect F C)} {fs : List (Frame (Op F) C)}
    (hr : Ran m M c o mem env es mem' env' fs) (ho : Under m P c' o)
    (hP : ∀ {c o}, P c o → Tame m c o) : Follows (Under m P true) c o env env' fs := by
  have hsite := (hP ho.1).2
  cases hr with
  | act _ _ _ | ext _ _ _ _ => exact ⟨.inl rfl, bind_cases⟩
  | throw _ hk =>
    refine absurd (.inr ?_) hsite
    rw [hk]
    rfl
  | @call c f y _ hk hf hb =>
    exact ⟨.inr ⟨_, rfl, ho.body ⟨c, hk, hf, hb⟩⟩, bind_cases⟩
  | extThrow _ hk hn hf hb =>
    refine absurd (.inr ?_) hsite
    rw [hk]
    exact .inr ⟨_, hf, hb, .inr ⟨hn, rfl⟩⟩

variable {Q : Op F → Prop} {c : Bool} {o : Op F} {h : Handle} {env env' : Nat → Nat}
  {fs v w k : List (Frame (Op F) C)}

/-- The loop does not compute the handle anew. -/
def Keeps (h : Handle) (o : Op F) : Prop := result o = some h.value → h.global.isSome = true

/-- What the handle names stays the same. -/
theorem Follows.eval (hf : Follows Q c o env env' fs) (ho : c = false → Keeps h o) :
    h.eval env' = h.eval env := by
  rcases hf.env with he | ⟨v, y, hv, hc, he⟩
  · rw [he]
  · rw [he]
    by_cases hvh : v = h.value
    · obtain ⟨g, hg⟩ := Option.isSome_iff_exists.1 (ho hc (by rw [hv, hvh]))
      simp [Handle.eval, hg]
    · simp [Handle.eval, Function.update_of_ne (Ne.symm hvh)]

theorem rewriteOp_of_dialect (ho : dialect o = none) : rewriteOp o = [o] := by
  unfold rewriteOp
  cases ht : o.tag with
  | wtc w => simp [dialect, ht] at ho
  | _ => rfl

/-- Code that is called is not rewritten. -/
theorem Follows.map_subst (hQ : ∀ {o}, Q o → dialect o = none) (hf : Follows Q c o env env' fs) :
    fs.map (·.subst rewriteOp) = fs := by
  rcases hf.frames with rfl | ⟨b, rfl, hb⟩
  · rfl
  · have := subst_of_kept fun o ho => rewriteOp_of_dialect (hQ (hb o ho))
    simp [Frame.subst, this]

/-! ## Functions that are called -/

/-- Frames of functions that have been called, with operations `Q`. -/
structure Called (Q : Op F → Prop) (w : List (Frame (Op F) C)) : Prop where
  ends : w = [] ∨ Ends (· = .call) w
  sat : ∀ f ∈ w, f.Sat (Holds Q) (· ≠ .throw)

theorem Called.nil : Called Q ([] : List (Frame (Op F) C)) := ⟨.inl rfl, nofun⟩

theorem Called.call {b : Code (Op F) C} (hw : Called Q w) (hb : Holds Q b) :
    Called Q (.block b :: .call :: w) := by
  refine ⟨.inr ?_, List.forall_mem_cons.2 ⟨hb, List.forall_mem_cons.2 ⟨trivial, hw.sat⟩⟩⟩
  rcases hw.ends with rfl | he
  · exact ⟨[.block b], .call, rfl, rfl⟩
  · exact he.cons.cons

theorem Called.mono {Q' : Op F → Prop} (hw : Called Q w) (hQ : ∀ o, Q o → Q' o) : Called Q' w := by
  refine ⟨hw.ends, fun f hf => ?_⟩
  have hs := hw.sat f hf
  have hb : ∀ {b : Code (Op F) C}, Holds Q b → Holds Q' b := fun hb o ho => hQ o (hb o ho)
  cases f with
  | block b | fin b | handler b => exact hb hs
  | test l | body l | step l => exact ⟨hb hs.1, hb hs.2.1, hb hs.2.2⟩
  | switch | call => trivial
  | exit e => exact hs

theorem Called.append (hv : Called Q v) (hw : Called Q w) : Called Q (v ++ w) := by
  refine ⟨?_, fun f hf => (List.mem_append.1 hf).elim (hv.sat f) (hw.sat f)⟩
  rcases hw.ends with rfl | he
  · simpa using hv.ends
  · exact .inr he.append

theorem Follows.called (hf : Follows Q c o env env' fs) : Called Q fs := by
  rcases hf.frames with rfl | ⟨b, rfl, hb⟩
  · exact .nil
  · exact Called.nil.call hb

theorem inCallee_append (k v : List (Frame (Op F) C)) :
    inCallee (k ++ v) = (inCallee k || inCallee v) := List.any_append

theorem inCallee_of_ends (hw : Ends (· = .call) w) : inCallee (w ++ v) = true := by
  obtain ⟨w', x, rfl, rfl⟩ := hw
  simp [inCallee]

theorem inherits_holds : Inherits (Holds Q) (C := C) (· ≠ .throw) := by
  refine ⟨fun hb => ?_, fun hb n o ho => hb o ?_, fun _ => nofun⟩
  · refine ⟨fun o ho => hb o ?_, fun o ho => hb o ?_, fun o ho => hb o ?_, fun o ho => hb o ?_⟩ <;>
      simp [Code.ops, ho]
  · simp [Code.ops, mem_ops_of_enter ho]

/-- What a step in a called function can be; `v` is below it. -/
def CalledStep (Q : Op F → Prop) (v : List (Frame (Op F) C)) : Act (Op F) C → Prop
  | .tau k => ∃ w, Called Q w ∧ k = w ++ v
  | .test _ k => ∀ n, ∃ w, Called Q w ∧ k n = w ++ v
  | .op o k => Q o ∧ ∃ w, Called Q w ∧ w ≠ [] ∧ k = w ++ v
  | .stop => True

theorem called_next (hw : Called Q w) (hne : w ≠ []) : CalledStep Q v (next (w ++ v)) := by
  have he : Ends (· = .call) w := hw.ends.resolve_left hne
  have hends : (next w).Ends (· = .call) := by
    refine next_ends he ?_ ?_
    · rintro x rfl
      exact .inl rfl
    · rintro e x hmem rfl
      have hthrow : e ≠ .throw := hw.sat _ hmem
      rcases e with (_ | _ | _) | _
      · trivial
      · trivial
      · exact .inl rfl
      · exact absurd rfl hthrow
  have hs := next_sat inherits_holds hw.sat
  rw [next_append hne (he.ne_exit (by nofun))]
  cases hn : next w with
  | tau w' =>
    rw [hn] at hs hends
    exact ⟨w', ⟨hends, hs⟩, rfl⟩
  | test c w' =>
    rw [hn] at hs hends
    exact fun n => ⟨w' n, ⟨hends n, hs n⟩, rfl⟩
  | stop => trivial
  | op o w' =>
    rw [hn] at hs hends
    obtain ⟨rest, k', rfl, hb, hk⟩ := hs
    obtain ⟨ho, hrest⟩ := List.forall_mem_cons.1 hb
    exact ⟨ho, _, ⟨.inr hends, List.forall_mem_cons.2 ⟨hrest, hk⟩⟩, by simp, rfl⟩

/-! ## What is asked of the element type -/

variable {S : Setting Mem V F C}

/-- The operation leaves the memory that the loop reads as it is. -/
def Still (S : Setting Mem V F C) (o : Op F) : Prop :=
  ∀ {c mem env es mem' env' fs}, Ran S.module S.meaning c o mem env es mem' env' fs → mem' = mem

/-- In code that runs before an element is handed over: with `WTC_BATCH_K` at one nothing is held
back then, and it may wait. -/
def Kept (S : Setting Mem V F C) (inCallee : Bool) (o : Op F) : Prop :=
  Tame S.module inCallee o ∧ (S.K ≠ 1 → Clear S.module inCallee o)

/-- In code that runs while elements are held back. -/
def Mover (S : Setting Mem V F C) (inCallee : Bool) (o : Op F) : Prop :=
  Clear S.module inCallee o ∧ Still S o

/-- Run by the shim, the operation comes back, and the thread is where it was. -/
def Returns (S : Setting Mem V F C) (o : Op F) : Prop :=
  ∀ x rest k, inCallee k = true →
    ∃ tr, Runs S ⟨x, .block (.op o rest) :: k⟩ tr ⟨x, .block rest :: k⟩ ∧
      ∀ e ∈ tr, Event.visible e = false

/-- What batching asks of the element type, of which `check` sees nothing: the copy or move of a
push throws nothing and acts on no queue, and waits for nothing unless each element is published by
itself; and where elements are moved over from a run, the functions that do it wait for nothing
either, come back, and leave what the loop reads as it is. -/
structure Fit (S : Setting Mem V F C) (q : Nat) (p : Push F) : Prop where
  take : Under S.module (Kept S) true (runs p.element.take)
  moves : S.inPlace q = false → ∀ k ∈ [p.element.move, p.element.assign, p.element.destroy],
    Under S.module (Mover S) true (runs k)
  returns : S.inPlace q = false → ∀ k ∈ [p.element.move, p.element.destroy], Returns S (runs k)

end Wtc.BatchPushes
