import Wtc.Control.Code

/-!
# Steps of structured code

Three facts about `next`: frames below the ones a step looks at play no part in it
(`next_append`), what holds of all the code on a stack holds after a step (`next_sat`), and code in
which operations have been replaced goes the same way as the code it was made from (`next_subst`).
-/

namespace Wtc.Control

variable {O O' C : Type} {k k' u v : List (Frame O C)}

/-! ## The frames below -/

def Act.append (v : List (Frame O C)) : Act O C → Act O C
  | .tau k => .tau (k ++ v)
  | .op o k => .op o (k ++ v)
  | .test c k => .test c fun n => k n ++ v
  | .stop => .stop

theorem nextNode_append (r₁ r₂ r₃ : Code O C) (n : Node C) :
    nextNode r₁ r₂ r₃ (k ++ v) n = (nextNode r₁ r₂ r₃ k n).append v := by
  cases n with
  | loop pre c => cases pre <;> rfl
  | _ => rfl

theorem nextExit_append {e : Exit} (hk : k ≠ []) :
    nextExit e (k ++ v) = (nextExit e k).append v := by
  cases k with
  | nil => exact absurd rfl hk
  | cons f k =>
    cases f <;> rcases e with (_ | _ | _) | _ <;> rfl

theorem next_code (l : Loop O C) (rest : Code O C) :
    next (.block (l.code rest) :: v) = .tau (l.start ++ .block rest :: v) := by
  obtain ⟨pre, c, cond, body, step⟩ := l
  cases pre <;> rfl

/-- Unless code is being left with nothing above, a step does not look below. -/
theorem next_append (hu : u ≠ []) (he : ∀ e, u ≠ [.exit e]) :
    next (u ++ v) = (next u).append v := by
  cases u with
  | nil => exact absurd rfl hu
  | cons f k =>
    cases f with
    | block b =>
      cases b with
      | node n r₁ r₂ r₃ rest => exact nextNode_append (k := .block rest :: k) r₁ r₂ r₃ n
      | _ => rfl
    | test l =>
      simp only [List.cons_append, next, Act.append]
      congr 1
      funext n
      split_ifs <;> rfl
    | exit e =>
      refine nextExit_append fun hk => he e ?_
      rw [hk]
    | _ => rfl

/-- The lowest frame is a `B`. -/
def Ends (B : Frame O C → Prop) (k : List (Frame O C)) : Prop := ∃ k' x, k = k' ++ [x] ∧ B x

def Act.Ends (B : Frame O C → Prop) : Act O C → Prop
  | .tau k => k = [] ∨ Control.Ends B k
  | .op _ k => Control.Ends B k
  | .test _ k => ∀ n, k n = [] ∨ Control.Ends B (k n)
  | .stop => True

variable {B : Frame O C → Prop}

/-- A stack keeps its lowest frame, until a step leaves nothing of it. -/
theorem next_ends (hk : Ends B k) (hlast : ∀ x, B x → (next [x]).Ends B)
    (hexit : ∀ e x, .exit e ∈ k → B x → (next [.exit e, x]).Ends B) : (next k).Ends B := by
  obtain ⟨k', x, rfl, hx⟩ := hk
  by_cases hnil : k' = []
  · subst hnil
    exact hlast x hx
  by_cases he : ∃ e, k' = [.exit e]
  · obtain ⟨e, rfl⟩ := he
    exact hexit e x (by simp) hx
  · rw [next_append hnil fun e h => he ⟨e, h⟩]
    cases next k' with
    | tau k => exact .inr ⟨k, x, rfl, hx⟩
    | op o k => exact ⟨k, x, rfl, hx⟩
    | test c k => exact fun n => .inr ⟨k n, x, rfl, hx⟩
    | stop => trivial

/-! ## What holds of all the code -/

theorem Ends.cons {x : Frame O C} (hk : Ends B k) : Ends B (x :: k) := by
  obtain ⟨k', y, rfl, hy⟩ := hk
  exact ⟨x :: k', y, rfl, hy⟩

theorem Ends.append (hk : Ends B k) : Ends B (u ++ k) := by
  obtain ⟨k', x, rfl, hx⟩ := hk
  exact ⟨u ++ k', x, by simp, hx⟩

theorem Ends.ne_nil (hk : Ends B k) : k ≠ [] := by
  obtain ⟨k', x, rfl, -⟩ := hk
  simp

theorem Ends.ne_exit (hk : Ends B k) (hB : ∀ e, ¬ B (.exit e)) (e : Exit) : k ≠ [.exit e] := by
  obtain ⟨k', x, rfl, hx⟩ := hk
  intro he
  rcases List.append_eq_singleton_iff.1 he with ⟨-, h⟩ | ⟨-, h⟩ <;> cases h
  exact hB e hx

/-- The frame of a loop. -/
def IsLoop : Frame O C → Prop
  | .test _ => True
  | .body _ => True
  | .step _ => True
  | _ => False

/-- A loop is left only through its own frame, if code in it jumps only by `break`. -/
theorem next_ends_loop (hk : Ends IsLoop k) (hexit : ∀ e, .exit e ∈ k → e = .jump .brk) :
    (next k).Ends IsLoop := by
  refine next_ends hk ?_ ?_
  · rintro (_ | _ | _ | _ | l | l | l | _ | _) hx <;> try cases hx
    · intro n
      dsimp only
      split_ifs
      · exact .inl rfl
      · exact .inr ⟨[.block l.body], .body l, rfl, trivial⟩
    · exact .inr ⟨[.block l.step], .step l, rfl, trivial⟩
    · exact .inr ⟨[.block l.cond], .test l, rfl, trivial⟩
  · intro e x he hx
    have heq := hexit e he
    subst heq
    cases x <;> first | exact False.elim hx | exact .inl rfl

theorem ends_start (l : Loop O C) : Ends IsLoop l.start := by
  unfold Loop.start
  split_ifs
  · exact ⟨[.block l.cond], .test l, rfl, trivial⟩
  · exact ⟨[.block l.body], .body l, rfl, trivial⟩

theorem mem_ops_of_enter {b : Code O C} {o : O} {n : Nat} (h : o ∈ (b.enter n).ops) :
    o ∈ b.ops := by
  induction b generalizing n with
  | op o' rest ih =>
    simp only [Code.enter] at h
    exact List.mem_cons_of_mem _ (ih h)
  | node k r₁ r₂ r₃ rest _ _ _ ih =>
    have hrest : ∀ n, o ∈ (rest.enter n).ops → o ∈ (Code.node k r₁ r₂ r₃ rest).ops :=
      fun n hn => by simp [Code.ops, ih hn]
    cases k <;> cases n <;> simp only [Code.enter] at h <;> first | exact hrest _ h | exact h
  | _ => simp [Code.enter, Code.ops] at h

/-- `Q` passes from code to the code that is entered from it; `E` holds of its exits. -/
structure Inherits (Q : Code O C → Prop) (E : Exit → Prop) : Prop where
  node : ∀ {n r₁ r₂ r₃ rest}, Q (.node n r₁ r₂ r₃ rest) → Q r₁ ∧ Q r₂ ∧ Q r₃ ∧ Q rest
  enter : ∀ {c r₁ r₂ r₃ rest}, Q (.node (.switch c) r₁ r₂ r₃ rest) → ∀ m, Q (r₁.enter m)
  jump : ∀ {j}, Q (.jump j) → E (.jump j)

def Frame.Sat (Q : Code O C → Prop) (E : Exit → Prop) : Frame O C → Prop
  | .block b => Q b
  | .fin b => Q b
  | .handler b => Q b
  | .switch => True
  | .test l => Q l.cond ∧ Q l.body ∧ Q l.step
  | .body l => Q l.cond ∧ Q l.body ∧ Q l.step
  | .step l => Q l.cond ∧ Q l.body ∧ Q l.step
  | .call => True
  | .exit e => E e

def Act.Sat (Q : Code O C → Prop) (E : Exit → Prop) : Act O C → Prop
  | .tau k => ∀ f ∈ k, f.Sat Q E
  | .op o k => ∃ rest k', k = .block rest :: k' ∧ Q (.op o rest) ∧ ∀ f ∈ k', f.Sat Q E
  | .test _ k => ∀ n, ∀ f ∈ k n, f.Sat Q E
  | .stop => True

variable {Q : Code O C → Prop} {E : Exit → Prop}

theorem nextNode_sat (hQ : Inherits Q E) {n : Node C} {r₁ r₂ r₃ rest : Code O C}
    (h : Q (.node n r₁ r₂ r₃ rest)) (hk : ∀ f ∈ k, f.Sat Q E) :
    (nextNode r₁ r₂ r₃ k n).Sat Q E := by
  obtain ⟨h₁, h₂, h₃, -⟩ := hQ.node h
  cases n with
  | scope | case => simpa [nextNode, Act.Sat, Frame.Sat] using ⟨h₁, hk⟩
  | cleanup | attempt => simpa [nextNode, Act.Sat, Frame.Sat] using ⟨h₁, h₂, hk⟩
  | ite c =>
    intro n
    have harm : Q (if n = 0 then r₂ else r₁) := by split_ifs <;> assumption
    simpa [Frame.Sat] using ⟨harm, hk⟩
  | switch c =>
    intro n
    simpa [Frame.Sat] using ⟨hQ.enter h n, hk⟩
  | loop pre c =>
    cases pre
    · simpa [nextNode, Act.Sat, Frame.Sat] using ⟨h₂, ⟨h₁, h₂, h₃⟩, hk⟩
    · simpa [nextNode, Act.Sat, Frame.Sat] using ⟨h₁, ⟨h₁, h₂, h₃⟩, hk⟩

theorem nextExit_sat {e : Exit} (he : E e) (hall : ∀ f ∈ k, f.Sat Q E) :
    (nextExit e k).Sat Q E := by
  cases k with
  | nil => trivial
  | cons f k =>
    obtain ⟨hf, hk⟩ := List.forall_mem_cons.1 hall
    clear hall
    have hexit : ∀ g ∈ Frame.exit e :: k, g.Sat Q E := List.forall_mem_cons.2 ⟨he, hk⟩
    cases f with
    | block b | exit e' => exact hexit
    | fin b => exact List.forall_mem_cons.2 ⟨hf, hexit⟩
    | handler b =>
      simp only [nextExit]
      split_ifs
      · exact List.forall_mem_cons.2 ⟨hf, hk⟩
      · exact hexit
    | body l =>
      simp only [nextExit]
      split_ifs
      · exact hk
      · exact List.forall_mem_cons.2 ⟨hf, hk⟩
      · exact hexit
    | call =>
      rcases e with (_ | _ | _) | _
      · trivial
      · trivial
      · exact hk
      · exact hexit
    | _ =>
      simp only [nextExit]
      split_ifs
      · exact hk
      · exact hexit

/-- What holds of all the code on the stack holds after a step. -/
theorem next_sat (hQ : Inherits Q E) (hall : ∀ f ∈ k, f.Sat Q E) : (next k).Sat Q E := by
  cases k with
  | nil => trivial
  | cons f k =>
    obtain ⟨hf, hk⟩ := List.forall_mem_cons.1 hall
    clear hall
    cases f with
    | block b =>
      cases b with
      | done => exact hk
      | op o rest => exact ⟨rest, k, rfl, hf, hk⟩
      | node n r₁ r₂ r₃ rest =>
        exact nextNode_sat hQ hf (List.forall_mem_cons.2 ⟨(hQ.node hf).2.2.2, hk⟩)
      | jump j => exact List.forall_mem_cons.2 ⟨hQ.jump hf, hk⟩
      | goto => trivial
    | fin b => exact List.forall_mem_cons.2 ⟨hf, hk⟩
    | handler b | switch | call => exact hk
    | test l =>
      intro n
      dsimp only
      split_ifs
      · exact hk
      · exact List.forall_mem_cons.2 ⟨hf.2.1, List.forall_mem_cons.2 ⟨hf, hk⟩⟩
    | body l => exact List.forall_mem_cons.2 ⟨hf.2.2, List.forall_mem_cons.2 ⟨hf, hk⟩⟩
    | step l => exact List.forall_mem_cons.2 ⟨hf.1, List.forall_mem_cons.2 ⟨hf, hk⟩⟩
    | exit e => exact nextExit_sat hf hk

/-- Operations are `Q`, jumps `J`, and there is no `goto`. -/
def Code.All (Q : O → Prop) (J : Jump → Prop) : Code O C → Prop
  | .done => True
  | .op o rest => Q o ∧ rest.All Q J
  | .node _ r₁ r₂ r₃ rest => r₁.All Q J ∧ r₂.All Q J ∧ r₃.All Q J ∧ rest.All Q J
  | .jump j => J j
  | .goto => False

theorem Code.All.enter {Q : O → Prop} {J : Jump → Prop} {b : Code O C} (hb : b.All Q J) (n : Nat) :
    (b.enter n).All Q J := by
  induction b generalizing n with
  | op o rest ih => simpa only [Code.enter] using ih hb.2 n
  | node k r₁ r₂ r₃ rest _ _ _ ih =>
    have hrest := ih hb.2.2.2
    cases k <;> cases n <;> simp only [Code.enter] <;> first | exact hrest _ | exact hb
  | _ => simp [Code.enter, Code.All]

theorem inherits_all {Q : O → Prop} {J : Jump → Prop} :
    Inherits (Code.All Q J) (C := C) fun e => ∃ j, e = .jump j ∧ J j :=
  ⟨id, fun hb n => hb.1.enter n, fun hj => ⟨_, rfl, hj⟩⟩

/-! ## Operations replaced -/

/-- The given operations, then the code. -/
def Code.prepend (l : List O) (b : Code O C) : Code O C := l.foldr .op b

/-- Each operation is replaced by some operations. -/
def Code.subst (f : O → List O') : Code O C → Code O' C
  | .done => .done
  | .op o rest => (rest.subst f).prepend (f o)
  | .node n r₁ r₂ r₃ rest =>
    .node n (r₁.subst f) (r₂.subst f) (r₃.subst f) (rest.subst f)
  | .jump j => .jump j
  | .goto => .goto

def Loop.subst (f : O → List O') (l : Loop O C) : Loop O' C :=
  ⟨l.pre, l.c, l.cond.subst f, l.body.subst f, l.step.subst f⟩

def Frame.subst (f : O → List O') : Frame O C → Frame O' C
  | .block b => .block (b.subst f)
  | .fin b => .fin (b.subst f)
  | .handler b => .handler (b.subst f)
  | .switch => .switch
  | .test l => .test (l.subst f)
  | .body l => .body (l.subst f)
  | .step l => .step (l.subst f)
  | .call => .call
  | .exit e => .exit e

variable {f : O → List O'}

theorem enter_prepend (l : List O) (b : Code O C) (n : Nat) :
    (b.prepend l).enter n = b.enter n := by
  induction l with
  | nil => rfl
  | cons o l ih =>
    have : (Code.op o (b.prepend l)).enter n = (b.prepend l).enter n := by simp only [Code.enter]
    exact this.trans ih

theorem enter_subst (b : Code O C) (n : Nat) : (b.subst f).enter n = (b.enter n).subst f := by
  induction b generalizing n with
  | done | jump j | goto => simp [Code.subst, Code.enter]
  | op o rest ih => simp only [Code.subst, Code.enter, enter_prepend, ih]
  | node m r₁ r₂ r₃ rest _ _ _ ih =>
    cases m <;> cases n <;> simp only [Code.subst, Code.enter, ih]

theorem subst_of_kept {f : O → List O} {b : Code O C} (h : ∀ o ∈ b.ops, f o = [o]) :
    b.subst f = b := by
  induction b with
  | op o rest ih =>
    obtain ⟨ho, hrest⟩ := List.forall_mem_cons.1 h
    simp only [Code.subst, ho, ih hrest]
    rfl
  | node n r₁ r₂ r₃ rest ih₁ ih₂ ih₃ ih =>
    simp only [Code.ops, List.mem_append] at h
    simp only [Code.subst]
    rw [ih₁ fun o ho => h o (by simp [ho]), ih₂ fun o ho => h o (by simp [ho]),
      ih₃ fun o ho => h o (by simp [ho]), ih fun o ho => h o (by simp [ho])]
  | _ => rfl

/-- Where control alone decides, the code goes the same way. -/
def Act.subst (f : O → List O') : Act O C → Act O' C
  | .tau k => .tau (k.map (·.subst f))
  | .test c k => .test c fun n => (k n).map (·.subst f)
  | _ => .stop

theorem nextNode_subst (r₁ r₂ r₃ : Code O C) (n : Node C) :
    nextNode (r₁.subst f) (r₂.subst f) (r₃.subst f) (k.map (·.subst f)) n =
      (nextNode r₁ r₂ r₃ k n).subst f := by
  cases n with
  | ite c =>
    simp only [nextNode, Act.subst]
    congr 1
    funext n
    split_ifs <;> rfl
  | switch c =>
    simp only [nextNode, Act.subst]
    congr 1
    funext n
    simp only [enter_subst]
    rfl
  | loop pre c => cases pre <;> rfl
  | _ => rfl

theorem nextExit_subst {e : Exit} :
    nextExit e (k.map (·.subst f)) = (nextExit e k).subst f := by
  cases k with
  | nil => rfl
  | cons g k =>
    cases g <;> rcases e with (_ | _ | _) | _ <;> rfl

theorem start_subst (l : Loop O C) : (l.subst f).start = l.start.map (·.subst f) := by
  obtain ⟨pre, c, cond, body, step⟩ := l
  cases pre <;> rfl

theorem Ends.map_subst (hk : Ends IsLoop k) : Ends IsLoop (k.map (·.subst f)) := by
  obtain ⟨k', x, rfl, hx⟩ := hk
  refine ⟨k'.map (·.subst f), x.subst f, by simp, ?_⟩
  cases x <;> exact hx

theorem Ends.next_append (hk : Ends IsLoop k) : next (k ++ v) = (next k).append v :=
  Control.next_append hk.ne_nil (hk.ne_exit (by nofun))

/-- A step that is not an operation. -/
theorem next_subst (h : ∀ o k', next k ≠ .op o k') :
    next (k.map (·.subst f)) = (next k).subst f := by
  cases k with
  | nil => rfl
  | cons g k =>
    cases g with
    | block b =>
      cases b with
      | op o rest => exact absurd rfl (h o _)
      | node n r₁ r₂ r₃ rest => exact nextNode_subst (k := .block rest :: k) r₁ r₂ r₃ n
      | _ => rfl
    | test l =>
      simp only [List.map_cons, Frame.subst, next, Act.subst]
      congr 1
      funext n
      split_ifs <;> rfl
    | exit e => exact nextExit_subst
    | _ => rfl

/-- An operation is the first of a block. -/
theorem next_op {o : O} (h : next k = .op o k') :
    ∃ rest k₀, k = .block (.op o rest) :: k₀ ∧ k' = .block rest :: k₀ := by
  cases k with
  | nil => cases h
  | cons g k =>
    cases g with
    | block b =>
      cases b with
      | op o' rest =>
        cases h
        exact ⟨rest, k, rfl, rfl⟩
      | node n r₁ r₂ r₃ rest => cases n <;> cases h
      | _ => cases h
    | exit e =>
      cases k with
      | nil => cases h
      | cons g k =>
        cases g with
        | call => rcases e with (_ | _ | _) | _ <;> cases h
        | _ => cases h
    | _ => cases h

/-- An operation that is replaced by one. -/
theorem next_subst_op {o : O} {o' : O'} (h : next k = .op o k') (hf : f o = [o']) :
    next (k.map (·.subst f)) = .op o' (k'.map (·.subst f)) := by
  obtain ⟨rest, k₀, rfl, rfl⟩ := next_op h
  simp [Frame.subst, Code.subst, Code.prepend, hf, next]

end Wtc.Control
