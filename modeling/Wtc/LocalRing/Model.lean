import Wtc.Cir.Module
import Wtc.Ir.Guard

/-!
# The ring of a batch is its caller's

A batched push or pop moves elements between the queue and a ring of the caller's, which the lifted
function reads and writes without a lock. `localRing` is the check that no other thread can reach
the ring: every call passes the address of a local, which goes to nothing but direct calls, member
accesses and lifetime markers.
-/

namespace Wtc.LocalRing

open Wtc.Ir Wtc.Cir Wtc.Control

variable {V B : Type}

/-- A use of the ring's address that the check lets pass. -/
def ringUse (M : Module B) : Op → Bool
  | .call _ (.direct g) _ => M.decls[g]?.isSome && !M.isThreadSpawn g
  | .pure _ (.getMember _) _ => true
  | .lifetime _ => true
  | _ => false

/-- Whether every call of `f` passes a ring that is the caller's own. -/
def localRing (M : Module B) (f ringParam : Nat) : Bool :=
  !M.named.contains f &&
    (M.symbolUses f).all fun u =>
      match u.2 with
      | .call _ _ args =>
        match args[ringParam]? with
        | some r =>
          M.isAlloca u.1 r && !M.tested u.1 r && (M.users u.1 r).all fun o => ringUse M o.1
        | none => false
      | _ => false

/-- The function passes this local to `f` as a ring. -/
def Ring (M : Module B) (f ringParam h r : Nat) : Prop :=
  ∃ d args, .call d (.direct f) args ∈ M.ops h ∧ args[ringParam]? = some r

/-- The thread is in a call of `f`, and this object is the ring it was passed. -/
structure InCall (D : Data Pure Cond V B) (s : State Pure Cond V B) (f ringParam t o : Nat) :
    Prop where
  call : ∃ above a caller below, s.threads[t]? = some (above ++ .code a :: caller :: below) ∧
    a.func = f ∧ ∃ v i, a.args[ringParam]? = some v ∧ D.target v = some (o, i)

/-! ## What the callees do -/

/-- The function takes a ring's address as this argument: its parameter is one of `K`, or it has no
body and lets nothing out that it is given. -/
def Takes (M : Module B) (K : Nat → Nat → Prop) (g i : Nat) : Prop :=
  match M.decls[g]? with
  | some (.body f) => ∀ y, f.params[i]? = some y → K g y
  | some (.outside leaks) => leaks = false
  | some (.spawn _) => False
  | none => True

/-- The operation keeps the addresses in `K`, and in the local variables `L`, to itself. -/
def Retains (M : Module B) (D : Data Pure Cond V B) (K L : Nat → Nat → Prop) (h : Nat) : Op → Prop
  | .pure d p xs => ∀ x ∈ xs, ¬ L h x ∧ (K h x → K h d ∨ D.Inert p)
  | .load d x => L h x → K h d
  | .store v x => ¬ L h v ∧ (K h v → L h x)
  | .call _ (.direct g) xs => ∀ i x, xs[i]? = some x → ¬ L h x ∧ (K h x → Takes M K g i)
  | .call _ (.indirect y) xs => ¬ L h y ∧ ¬ K h y ∧ ∀ x ∈ xs, ¬ L h x ∧ ¬ K h x
  | .ret v => ∀ x, v = some x → ¬ L h x ∧ ¬ K h x
  | _ => True

/-- No function that is handed a ring's address, or that of a member, lets it out. `K` are the
values that hold such an address, and `L` local variables of the callees that do. -/
structure Confined (M : Module B) (D : Data Pure Cond V B) (f ringParam : Nat)
    (K L : Nat → Nat → Prop) : Prop where
  /-- Linked files do not call the function. -/
  unnamed : f ∉ M.elsewhere
  handed : ∀ {h r}, Ring M f ringParam h r → ∀ {d g xs}, .call d (.direct g) xs ∈ M.ops h →
    ∀ i : Nat, xs[i]? = some r → Takes M K g i
  member : ∀ {h r}, Ring M f ringParam h r → ∀ {d i xs}, .pure d (.getMember i) xs ∈ M.ops h →
    r ∈ xs → K h d
  retains : ∀ {h}, ∀ o ∈ (M.code h).ops, Retains M D K L h o
  slots : ∀ {h x}, L h x → .alloca x ∈ (M.code h).ops

end Wtc.LocalRing
