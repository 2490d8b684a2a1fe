import Wtc.Control.Step

/-!
# The code a stack runs

A thread that runs a body has only code of that body on its stack. So its operations and its tests
are the body's own (`Within.op`, `Within.test`).
-/

namespace Wtc.Control

variable {O C : Type} {b : Code O C} {k k' : List (Frame O C)}

def Node.cond : Node C → List C
  | .ite c => [c]
  | .switch c => [c]
  | .loop _ c => [c]
  | _ => []

/-- The conditions that are tested. -/
def Code.conds : Code O C → List C
  | .op _ rest => rest.conds
  | .node n r₁ r₂ r₃ rest => n.cond ++ r₁.conds ++ r₂.conds ++ r₃.conds ++ rest.conds
  | _ => []

theorem mem_conds_of_enter {c : C} {n : Nat} (h : c ∈ (b.enter n).conds) : c ∈ b.conds := by
  induction b generalizing n with
  | op o rest ih =>
    simp only [Code.enter] at h
    exact ih h
  | node k r₁ r₂ r₃ rest _ _ _ ih =>
    have hrest : ∀ n, c ∈ (rest.enter n).conds → c ∈ (Code.node k r₁ r₂ r₃ rest).conds :=
      fun n hn => by simp [Code.conds, ih hn]
    cases k <;> cases n <;> simp only [Code.enter] at h <;> first | exact hrest _ h | exact h
  | _ => simp [Code.enter, Code.conds] at h

/-- Code made of operations and tests of the body. -/
def Part (b c : Code O C) : Prop := (∀ o ∈ c.ops, o ∈ b.ops) ∧ ∀ x ∈ c.conds, x ∈ b.conds

theorem inherits_part : Inherits (Part b) fun _ => True where
  node := by
    intro n r₁ r₂ r₃ rest h
    simp only [Part, Code.ops, Code.conds, List.mem_append] at h
    refine ⟨⟨?_, ?_⟩, ⟨?_, ?_⟩, ⟨?_, ?_⟩, ⟨?_, ?_⟩⟩ <;> intro x hx
    all_goals first
      | exact h.1 x (by simp [hx])
      | exact h.2 x (by simp [hx])
  enter := by
    intro c r₁ r₂ r₃ rest h m
    constructor <;> intro x hx
    · exact h.1 x (by simp [Code.ops, mem_ops_of_enter hx])
    · exact h.2 x (by simp [Code.conds, mem_conds_of_enter hx])
  jump := fun _ => trivial

/-- The test of a loop that the frame is in is the body's. -/
def Frame.TestOf (b : Code O C) : Frame O C → Prop
  | .test l => l.c ∈ b.conds
  | .body l => l.c ∈ b.conds
  | .step l => l.c ∈ b.conds
  | _ => True

/-- All code on the stack is the body's. -/
def Within (b : Code O C) (k : List (Frame O C)) : Prop :=
  ∀ f ∈ k, f.Sat (Part b) (fun _ => True) ∧ f.TestOf b

namespace Within

theorem start (b : Code O C) : Within b [.block b] := by
  intro f hf
  cases List.mem_singleton.1 hf
  exact ⟨⟨fun _ h => h, fun _ h => h⟩, trivial⟩

theorem exit (h : Within b k) (e : Exit) : Within b (.exit e :: k) :=
  List.forall_mem_cons.2 ⟨⟨trivial, trivial⟩, h⟩

theorem sat (h : Within b k) : (next k).Sat (Part b) fun _ => True :=
  next_sat inherits_part fun f hf => (h f hf).1

/-- What a step leaves has the body's tests. -/
def ActTests (b : Code O C) : Act O C → Prop
  | .tau k => ∀ f ∈ k, f.TestOf b
  | .op _ k => ∀ f ∈ k, f.TestOf b
  | .test c k => c ∈ b.conds ∧ ∀ n, ∀ f ∈ k n, f.TestOf b
  | .stop => True

theorem nextNode_tests {n : Node C} {r₁ r₂ r₃ rest : Code O C}
    (h : Part b (.node n r₁ r₂ r₃ rest)) (hk : ∀ f ∈ k, f.TestOf b) :
    ActTests b (nextNode r₁ r₂ r₃ k n) := by
  have hcond : ∀ c ∈ n.cond, c ∈ b.conds := fun c hc => h.2 c (by simp [Code.conds, hc])
  cases n with
  | ite c | switch c =>
    refine ⟨hcond c (by simp [Node.cond]), fun n => ?_⟩
    simpa [Frame.TestOf] using hk
  | loop pre c =>
    have hc := hcond c (by simp [Node.cond])
    cases pre
    · simpa [nextNode, ActTests, Frame.TestOf] using ⟨hc, hk⟩
    · simpa [nextNode, ActTests, Frame.TestOf] using ⟨hc, hk⟩
  | _ => simpa [nextNode, ActTests, Frame.TestOf] using hk

theorem nextExit_tests {e : Exit} (hall : ∀ f ∈ k, f.TestOf b) : ActTests b (nextExit e k) := by
  cases k with
  | nil => trivial
  | cons f k =>
    obtain ⟨hf, hk⟩ := List.forall_mem_cons.1 hall
    have hexit : ∀ g ∈ Frame.exit e :: k, g.TestOf b := List.forall_mem_cons.2 ⟨trivial, hk⟩
    cases f with
    | block c | exit e' => exact hexit
    | fin c => exact List.forall_mem_cons.2 ⟨trivial, hexit⟩
    | handler c =>
      simp only [nextExit]
      split_ifs
      · exact List.forall_mem_cons.2 ⟨trivial, hk⟩
      · exact hexit
    | body l =>
      simp only [nextExit]
      split_ifs
      · exact hk
      · exact List.forall_mem_cons.2 ⟨hf, hk⟩
      · exact hexit
    | call =>
      rcases e with (_ | _ | _) | _
      · trivial
      · trivial
      · exact hk
      · exact hexit
    | _ =>
      simp only [nextExit]
      split_ifs
      · exact hk
      · exact hexit

theorem tests (h : Within b k) : ActTests b (next k) := by
  cases k with
  | nil => trivial
  | cons f k =>
    have hk : ∀ g ∈ k, g.TestOf b := fun g hg => (h g (List.mem_cons_of_mem _ hg)).2
    obtain ⟨hsat, htest⟩ := h f List.mem_cons_self
    cases f with
    | block c =>
      cases c with
      | done => exact hk
      | op o rest | jump j => exact List.forall_mem_cons.2 ⟨trivial, hk⟩
      | node n r₁ r₂ r₃ rest =>
        exact nextNode_tests hsat (List.forall_mem_cons.2 ⟨trivial, hk⟩)
      | goto => trivial
    | fin c => exact List.forall_mem_cons.2 ⟨trivial, hk⟩
    | test l =>
      refine ⟨htest, fun n => ?_⟩
      dsimp only
      split_ifs
      · exact hk
      · exact List.forall_mem_cons.2 ⟨trivial, List.forall_mem_cons.2 ⟨htest, hk⟩⟩
    | body l | step l => exact List.forall_mem_cons.2 ⟨trivial, List.forall_mem_cons.2 ⟨htest, hk⟩⟩
    | exit e => exact nextExit_tests hk
    | _ => exact hk

theorem tau (h : Within b k) (hn : next k = .tau k') : Within b k' := by
  have hs := h.sat
  have ht := h.tests
  rw [hn] at hs ht
  exact fun f hf => ⟨hs f hf, ht f hf⟩

/-- An operation that comes next is the body's. -/
theorem op {o : O} (h : Within b k) (hn : next k = .op o k') : o ∈ b.ops ∧ Within b k' := by
  have hs := h.sat
  have ht := h.tests
  rw [hn] at hs ht
  obtain ⟨rest, k₀, rfl, hpart, hk₀⟩ := hs
  refine ⟨hpart.1 o List.mem_cons_self, fun f hf => ⟨?_, ht f hf⟩⟩
  rcases List.mem_cons.1 hf with rfl | hf
  · exact ⟨fun x hx => hpart.1 x (List.mem_cons_of_mem _ hx), hpart.2⟩
  · exact hk₀ f hf

/-- A test that comes next is the body's. -/
theorem test {c : C} {kn : Nat → List (Frame O C)} (h : Within b k) (hn : next k = .test c kn) :
    c ∈ b.conds ∧ ∀ n, Within b (kn n) := by
  have hs := h.sat
  have ht := h.tests
  rw [hn] at hs ht
  exact ⟨ht.1, fun n f hf => ⟨hs n f hf, ht.2 n f hf⟩⟩

end Within

end Wtc.Control
