import Wtc.Shim.Model
import Wtc.Spsc.Serial
import Wtc.Spmc.Serial
import Wtc.Spmc.Properties
import Wtc.Segment.Serial
import Wtc.Segment.Many.Properties
import Wtc.Segment.One.Properties

/-!
# What the implementations hold

Each implementation is linearizable, so called by one thread it answers as the sequential queue
does. `Impl.Holds` says which elements it shows and which are deferred; every request is answered
accordingly, whatever its steps leave open, and comes to its end.
-/

namespace Wtc.Shim

open Wtc.Concurrent

variable {α : Type}

/-! ## The sequential queues -/

theorem fifo_gives_push {q q' vs : List α} {ans : List (FifoAns α)}
    (hlen : ans.length = (vs.map FifoOp.push).length)
    (h : (fifo α).Gives q ((vs.map FifoOp.push).zip ans) q') : q' = q ++ vs := by
  induction vs generalizing q ans with
  | nil => cases h; simp
  | cons v vs ih =>
    cases ans with
    | nil => simp at hlen
    | cons a ans =>
      cases h with
      | cons hs hl =>
        have hs : FifoStep q (.push v) a _ := hs
        cases hs
        rw [ih (by simpa using hlen) hl, List.append_assoc]
        rfl

theorem fifo_gives_pop {q q' : List α} {ans : List (FifoAns α)} (hlen : ans.length = 1)
    (h : (fifo α).Gives q ([FifoOp.pop].zip ans) q') : ans = [.popped q.head?] ∧ q' = q.tail := by
  obtain ⟨a, rfl⟩ := List.length_eq_one_iff.1 hlen
  cases h with
  | cons hs hl =>
    have hs : FifoStep q .pop a _ := hs
    cases hl
    cases hs <;> exact ⟨rfl, rfl⟩

section Deferred

variable {full : Nat → Bool} {vis hid : List α} {n : Nat} {q' : Deferred α} {a : FifoAns α}

theorem defer_step {v : α} (h : DeferStep full ⟨vis, hid, n⟩ (.defer v) a q') :
    q'.queue ++ q'.hidden = vis ++ hid ++ [v] := by
  cases h with
  | defer => simp [Deferred.put]
  | deferFull => simp [Deferred.put, Deferred.show]

theorem publish_step (h : DeferStep full ⟨vis, hid, n⟩ .publish a q') :
    q' = ⟨vis ++ hid, [], n⟩ := by
  cases h
  rfl

theorem pop_step (h : DeferStep full ⟨vis, [], n⟩ .pop a q') :
    a = .popped vis.head? ∧ q' = ⟨vis.tail, [], n⟩ := by
  cases h <;> exact ⟨rfl, rfl⟩

end Deferred

/-! ## A machine whose pushes may be deferred -/

section Machines

variable {Tid Sh Loc Call Ch : Type} [DecidableEq Tid]
  {M : Machine Tid Sh Loc Call Ch (DeferOp α) (FifoAns α)} {full : Nat → Bool}
  {t : Tid} {ch : Nat → Ch} {fuel k k' : Nat} {sh sh' : Sh} {c : Call} {ans : List (FifoAns α)}
  {vis hid : List α} {n : Nat}

/-- The machine shows some elements and has others deferred. -/
def Defers (M : Machine Tid Sh Loc Call Ch (DeferOp α) (FifoAns α)) (full : Nat → Bool) (sh : Sh)
    (vis hid : List α) : Prop :=
  ∃ n, M.Served (deferredFifo α full) sh ⟨vis, hid, n⟩

section

variable (hlin : ∀ {h s}, M.Runs h s → Linearizable (deferredFifo α full) h)
include hlin

theorem Defers.perform (h : Defers M full sh vis hid) (hm : M.may (M.idle sh) t c)
    (he : M.goOn t ch fuel k sh (M.start c) = some (k', sh', ans)) :
    ∃ n q', ans.length = (M.ops c).length ∧
      (deferredFifo α full).Gives ⟨vis, hid, n⟩ ((M.ops c).zip ans) q' ∧
      Defers M full sh' q'.queue q'.hidden := by
  obtain ⟨n, h⟩ := h
  obtain ⟨hlen, q', hg, hs⟩ := h.perform hlin hm he
  exact ⟨n, q', hlen, hg, q'.pushed, hs⟩

theorem Defers.defer (h : Defers M full sh vis hid) (hm : M.may (M.idle sh) t c) {v : α}
    (ho : M.ops c = [.defer v]) (he : M.goOn t ch fuel k sh (M.start c) = some (k', sh', ans)) :
    ∃ vis' hid', Defers M full sh' vis' hid' ∧ vis' ++ hid' = vis ++ hid ++ [v] := by
  obtain ⟨n, q', hlen, hg, hd⟩ := h.perform hlin hm he
  rw [ho] at hlen hg
  obtain ⟨a, rfl⟩ := List.length_eq_one_iff.1 hlen
  cases hg with
  | cons hs hl =>
    cases hl
    exact ⟨_, _, hd, defer_step hs⟩

theorem Defers.publish (h : Defers M full sh vis hid) (hm : M.may (M.idle sh) t c)
    (ho : M.ops c = [.publish]) (he : M.goOn t ch fuel k sh (M.start c) = some (k', sh', ans)) :
    Defers M full sh' (vis ++ hid) [] := by
  obtain ⟨n, q', hlen, hg, hd⟩ := h.perform hlin hm he
  rw [ho] at hlen hg
  obtain ⟨a, rfl⟩ := List.length_eq_one_iff.1 hlen
  cases hg with
  | cons hs hl =>
    cases hl
    rw [publish_step hs] at hd
    exact hd

theorem Defers.push (h : Defers M full sh vis hid) (hm : M.may (M.idle sh) t c) {v : α}
    (ho : M.ops c = [.defer v, .publish])
    (he : M.goOn t ch fuel k sh (M.start c) = some (k', sh', ans)) :
    Defers M full sh' (vis ++ hid ++ [v]) [] := by
  obtain ⟨n, q', hlen, hg, hd⟩ := h.perform hlin hm he
  rw [ho] at hlen hg
  obtain ⟨a, b, rfl⟩ := List.length_eq_two.1 hlen
  cases hg with
  | cons hs hl =>
    cases hl with
    | cons hs' hl =>
      cases hl
      rw [publish_step hs', defer_step hs] at hd
      exact hd

theorem Defers.pop (h : Defers M full sh vis []) (hm : M.may (M.idle sh) t c)
    (ho : M.ops c = [.pop]) (he : M.goOn t ch fuel k sh (M.start c) = some (k', sh', ans)) :
    ans = [.popped vis.head?] ∧ Defers M full sh' vis.tail [] := by
  obtain ⟨n, q', hlen, hg, hd⟩ := h.perform hlin hm he
  rw [ho] at hlen hg
  obtain ⟨a, rfl⟩ := List.length_eq_one_iff.1 hlen
  cases hg with
  | cons hs hl =>
    cases hl
    obtain ⟨rfl, rfl⟩ := pop_step hs
    exact ⟨rfl, hd⟩

end

end Machines

/-! ## The four implementations -/

section Lin

theorem ring_lin {cfg : Cfg} {h : List (Event Spsc.Side (DeferOp α) (FifoAns α))}
    {s : Config Spsc.Side (Spsc.Shared α) (Spsc.Loc α)} (hr : (Spsc.machine cfg.slots).Runs h s) :
    Linearizable (deferredFifo α Spsc.never) h :=
  (Spsc.rule cfg.two_le_slots).linearizable And.left rfl hr

theorem spmc_lin {cfg : Cfg} {h : List (Event Unit (DeferOp α) (FifoAns α))}
    {s : Config Unit (Spmc.Shared α) (Spmc.Loc α)}
    (hr : (Spmc.machine cfg.spmcCells ()).Runs h s) :
    Linearizable (deferredFifo α (Spmc.full cfg.spmcCells)) h :=
  (Spmc.rule cfg.two_le_spmcCells ()).linearizable id rfl hr

theorem mpsc_lin {cfg : Cfg} {h : List (Event Unit (FifoOp α) (FifoAns α))}
    {s : Config Unit (Segment.Shared α) (Segment.LocOne α)}
    (hr : (Segment.oneMachine α cfg.cells ()).Runs h s) : Linearizable (fifo α) h := by
  obtain ⟨w, htr, -⟩ := (Segment.One.rule α cfg.cells ()).sound hr
  exact (Segment.One.path_of_trace htr).linearizable

theorem generic_lin {cfg : Cfg} {h : List (Event Unit (FifoOp α) (FifoAns α))}
    {s : Config Unit (Segment.Shared α) (Segment.Loc α)}
    (hr : (Segment.manyMachine α Unit cfg.cells).Runs h s) : Linearizable (fifo α) h :=
  (Segment.Many.rule cfg.cells s).linearizable id rfl hr.leads

end Lin

variable {cfg : Cfg} {env : Env} {k k' : Nat} {impl impl' : Impl α} {ans : List (FifoAns α)}
  {vis hid : List α}

/-- The implementation shows some elements and has others deferred. -/
def Impl.Holds (cfg : Cfg) : Impl α → List α → List α → Prop
  | .ring sh, vis, hid => Defers (Spsc.machine cfg.slots) Spsc.never sh vis hid
  | .mpsc sh, vis, hid => (Segment.oneMachine α cfg.cells ()).Served (fifo α) sh vis ∧ hid = []
  | .spmc sh, vis, hid =>
    Defers (Spmc.machine cfg.spmcCells ()) (Spmc.full cfg.spmcCells) sh vis hid
  | .generic sh, vis, hid =>
    (Segment.manyMachine α Unit cfg.cells).Served (fifo α) sh vis ∧ hid = []

/-- Calls of the implementation come to their end. -/
def Impl.Ready (cfg : Cfg) : Impl α → Prop
  | .ring _ => True
  | .mpsc sh => Segment.Tidy cfg.cells sh
  | .spmc sh => Spmc.Linked sh
  | .generic sh => Segment.Tidy cfg.cells sh

/-- The request is one that the implementation has. -/
def Impl.Has : Impl α → Request α → Prop
  | .ring _, r => r.ring.isSome = true
  | .mpsc _, r => r.segment.isSome = true
  | .spmc _, r => r.spmc.isSome = true
  | .generic _, r => r.segment.isSome = true

variable {r : Request α}

/-- A request that the implementation has comes to its end. -/
theorem serve_settles {coin : Nat → Bool} (hf : Fair coin) (h : impl.Ready cfg) (hr : impl.Has r) :
    Settles (fun fuel => impl.serve cfg ⟨fuel, coin⟩ k r) fun x => x.2.1.Ready cfg := by
  cases impl with
  | ring sh =>
    obtain ⟨c, hc⟩ := Option.isSome_iff_exists.1 hr
    simp only [Impl.serve, hc]
    exact (Spsc.ends_call hf c).goOn.bind fun b _ => .pure trivial
  | mpsc sh =>
    obtain ⟨c, hc⟩ := Option.isSome_iff_exists.1 hr
    simp only [Impl.serve, hc]
    exact (Segment.one_ends cfg.cells_pos h c).goOn.bind fun b hb => .pure hb
  | spmc sh =>
    obtain ⟨c, hc⟩ := Option.isSome_iff_exists.1 hr
    simp only [Impl.serve, hc]
    exact (Spmc.ends_call hf h c).goOn.bind fun b hb => .pure hb
  | generic sh =>
    obtain ⟨c, hc⟩ := Option.isSome_iff_exists.1 hr
    simp only [Impl.serve, hc]
    exact (Segment.many_ends cfg.cells_pos h c).goOn.bind fun b hb => .pure hb

/-! ## One request -/

theorem serve_ring {sh : Spsc.Shared α}
    (hs : (Impl.ring sh).serve cfg env k r = some (k', impl', ans)) :
    ∃ c sh', r.ring = some c ∧ (Spsc.machine cfg.slots).goOn c.side env.coin env.fuel k sh
      ((Spsc.machine cfg.slots).start c) = some (k', sh', ans) ∧ impl' = .ring sh' := by
  obtain ⟨c, hc, hs⟩ := Option.bind_eq_some_iff.1 hs
  obtain ⟨⟨k₁, sh', ans₁⟩, hgo, he⟩ := Option.bind_eq_some_iff.1 hs
  cases he
  exact ⟨c, sh', hc, hgo, rfl⟩

theorem serve_mpsc {sh : Segment.Shared α}
    (hs : (Impl.mpsc sh).serve cfg env k r = some (k', impl', ans)) :
    ∃ c sh', r.segment = some c ∧ (Segment.oneMachine α cfg.cells ()).goOn () (fun _ => ()) env.fuel
      k sh ((Segment.oneMachine α cfg.cells ()).start c) = some (k', sh', ans) ∧
      impl' = .mpsc sh' := by
  obtain ⟨c, hc, hs⟩ := Option.bind_eq_some_iff.1 hs
  obtain ⟨⟨k₁, sh', ans₁⟩, hgo, he⟩ := Option.bind_eq_some_iff.1 hs
  cases he
  exact ⟨c, sh', hc, hgo, rfl⟩

theorem serve_spmc {sh : Spmc.Shared α}
    (hs : (Impl.spmc sh).serve cfg env k r = some (k', impl', ans)) :
    ∃ c sh', r.spmc = some c ∧ (Spmc.machine cfg.spmcCells ()).goOn () env.coin env.fuel k sh
      ((Spmc.machine cfg.spmcCells ()).start c) = some (k', sh', ans) ∧ impl' = .spmc sh' := by
  obtain ⟨c, hc, hs⟩ := Option.bind_eq_some_iff.1 hs
  obtain ⟨⟨k₁, sh', ans₁⟩, hgo, he⟩ := Option.bind_eq_some_iff.1 hs
  cases he
  exact ⟨c, sh', hc, hgo, rfl⟩

theorem serve_generic {sh : Segment.Shared α}
    (hs : (Impl.generic sh).serve cfg env k r = some (k', impl', ans)) :
    ∃ c sh', r.segment = some c ∧ (Segment.manyMachine α Unit cfg.cells).goOn () (fun _ => ())
      env.fuel k sh ((Segment.manyMachine α Unit cfg.cells).start c) = some (k', sh', ans) ∧
      impl' = .generic sh' := by
  obtain ⟨c, hc, hs⟩ := Option.bind_eq_some_iff.1 hs
  obtain ⟨⟨k₁, sh', ans₁⟩, hgo, he⟩ := Option.bind_eq_some_iff.1 hs
  cases he
  exact ⟨c, sh', hc, hgo, rfl⟩

/-- A call of the queue for one consumer, or for many, puts in the elements it is given. -/
theorem mpsc_push {sh sh' : Segment.Shared α} {vs : List α} {fuel : Nat}
    (h : (Segment.oneMachine α cfg.cells ()).Served (fifo α) sh vis)
    (he : (Segment.oneMachine α cfg.cells ()).goOn () (fun _ => ()) fuel k sh
      ((Segment.oneMachine α cfg.cells ()).start (.push vs)) = some (k', sh', ans)) :
    (Segment.oneMachine α cfg.cells ()).Served (fifo α) sh' (vis ++ vs) := by
  obtain ⟨hlen, q', hg, hs⟩ := h.perform mpsc_lin (fun _ => rfl) he
  exact fifo_gives_push hlen hg ▸ hs

theorem generic_push {sh sh' : Segment.Shared α} {vs : List α} {fuel : Nat}
    (h : (Segment.manyMachine α Unit cfg.cells).Served (fifo α) sh vis)
    (he : (Segment.manyMachine α Unit cfg.cells).goOn () (fun _ => ()) fuel k sh
      ((Segment.manyMachine α Unit cfg.cells).start (.push vs)) = some (k', sh', ans)) :
    (Segment.manyMachine α Unit cfg.cells).Served (fifo α) sh' (vis ++ vs) := by
  obtain ⟨hlen, q', hg, hs⟩ := h.perform generic_lin trivial he
  exact fifo_gives_push hlen hg ▸ hs

theorem serve_push {v : α} (h : impl.Holds cfg vis [])
    (hs : impl.serve cfg env k (.push v) = some (k', impl', ans)) :
    impl'.Holds cfg (vis ++ [v]) [] := by
  cases impl with
  | ring sh =>
    obtain ⟨c, sh', hc, hgo, rfl⟩ := serve_ring hs
    cases hc
    have := Defers.push ring_lin h rfl rfl hgo
    rwa [List.append_nil] at this
  | mpsc sh =>
    obtain ⟨c, sh', hc, hgo, rfl⟩ := serve_mpsc hs
    cases hc
    exact ⟨mpsc_push h.1 hgo, rfl⟩
  | spmc sh =>
    obtain ⟨c, sh', hc, hgo, rfl⟩ := serve_spmc hs
    cases hc
    have := Defers.push spmc_lin h (.inr rfl) rfl hgo
    rwa [List.append_nil] at this
  | generic sh =>
    obtain ⟨c, sh', hc, hgo, rfl⟩ := serve_generic hs
    cases hc
    exact ⟨generic_push h.1 hgo, rfl⟩

theorem serve_pushRun {vs : List α} (h : impl.Holds cfg vis [])
    (hs : impl.serve cfg env k (.pushRun vs) = some (k', impl', ans)) :
    impl'.Holds cfg (vis ++ vs) [] := by
  cases impl with
  | ring sh =>
    obtain ⟨c, sh', hc, -⟩ := serve_ring hs
    cases hc
  | mpsc sh =>
    obtain ⟨c, sh', hc, hgo, rfl⟩ := serve_mpsc hs
    cases hc
    exact ⟨mpsc_push h.1 hgo, rfl⟩
  | spmc sh =>
    obtain ⟨c, sh', hc, -⟩ := serve_spmc hs
    cases hc
  | generic sh =>
    obtain ⟨c, sh', hc, hgo, rfl⟩ := serve_generic hs
    cases hc
    exact ⟨generic_push h.1 hgo, rfl⟩

theorem serve_pushDeferred {v : α} (h : impl.Holds cfg vis hid)
    (hs : impl.serve cfg env k (.pushDeferred v) = some (k', impl', ans)) :
    ∃ vis' hid', impl'.Holds cfg vis' hid' ∧ vis' ++ hid' = vis ++ hid ++ [v] := by
  cases impl with
  | ring sh =>
    obtain ⟨c, sh', hc, hgo, rfl⟩ := serve_ring hs
    cases hc
    exact Defers.defer ring_lin h rfl rfl hgo
  | mpsc sh =>
    obtain ⟨c, sh', hc, -⟩ := serve_mpsc hs
    cases hc
  | spmc sh =>
    obtain ⟨c, sh', hc, hgo, rfl⟩ := serve_spmc hs
    cases hc
    exact Defers.defer spmc_lin h (.inr rfl) rfl hgo
  | generic sh =>
    obtain ⟨c, sh', hc, -⟩ := serve_generic hs
    cases hc

theorem serve_publish (h : impl.Holds cfg vis hid)
    (hs : impl.serve cfg env k .publish = some (k', impl', ans)) :
    impl'.Holds cfg (vis ++ hid) [] := by
  cases impl with
  | ring sh =>
    obtain ⟨c, sh', hc, hgo, rfl⟩ := serve_ring hs
    cases hc
    exact Defers.publish ring_lin h rfl rfl hgo
  | mpsc sh =>
    obtain ⟨c, sh', hc, -⟩ := serve_mpsc hs
    cases hc
  | spmc sh =>
    obtain ⟨c, sh', hc, hgo, rfl⟩ := serve_spmc hs
    cases hc
    exact Defers.publish spmc_lin h (.inr rfl) rfl hgo
  | generic sh =>
    obtain ⟨c, sh', hc, -⟩ := serve_generic hs
    cases hc

/-- Both kinds of pop answer with the oldest element. -/
theorem serve_pop (hr : r = .consume ∨ r = .tryPopBorrow) (h : impl.Holds cfg vis [])
    (hs : impl.serve cfg env k r = some (k', impl', ans)) :
    ans = [.popped vis.head?] ∧ impl'.Holds cfg vis.tail [] := by
  cases impl with
  | ring sh =>
    obtain ⟨c, sh', hc, hgo, rfl⟩ := serve_ring hs
    rcases hr with rfl | rfl <;> cases hc <;> exact Defers.pop ring_lin h rfl rfl hgo
  | mpsc sh =>
    obtain ⟨c, sh', hc, hgo, rfl⟩ := serve_mpsc hs
    rcases hr with rfl | rfl <;> cases hc
    obtain ⟨hlen, q', hg, hs⟩ := h.1.perform mpsc_lin (fun _ => rfl) hgo
    obtain ⟨rfl, rfl⟩ := fifo_gives_pop hlen hg
    exact ⟨rfl, hs, rfl⟩
  | spmc sh =>
    obtain ⟨c, sh', hc, hgo, rfl⟩ := serve_spmc hs
    rcases hr with rfl | rfl <;> cases hc
    exact Defers.pop spmc_lin h (.inl rfl) rfl hgo
  | generic sh =>
    obtain ⟨c, sh', hc, hgo, rfl⟩ := serve_generic hs
    rcases hr with rfl | rfl <;> cases hc
    obtain ⟨hlen, q', hg, hs⟩ := h.1.perform generic_lin trivial hgo
    obtain ⟨rfl, rfl⟩ := fifo_gives_pop hlen hg
    exact ⟨rfl, hs, rfl⟩

def Request.isPop : Request α → Bool
  | .consume => true
  | .tryPopBorrow => true
  | _ => false

/-- The producer's calls of the ring leave what is lent alone. -/
theorem ring_lent {sh sh' : Spsc.Shared α} {c : Spsc.Call α} {b i fuel : Nat} {coin : Nat → Bool}
    (h : (Impl.ring sh).Holds cfg vis hid) (hr : r.isPop = false) (hc : r.ring = some c)
    (hgo : (Spsc.machine cfg.slots).goOn c.side coin fuel k sh
      ((Spsc.machine cfg.slots).start c) = some (k', sh', ans))
    (hlent : sh.c.lent = some (b, i)) : sh'.c.lent = some (b, i) ∧ sh'.slot b i = sh.slot b i := by
  obtain ⟨n, l, hruns, -⟩ := h
  have hcall := Machine.runs_call hruns (show (Spsc.machine cfg.slots).may _ c.side c from rfl)
  cases r with
  | push v | pushDeferred v | publish =>
    cases hc
    exact Spsc.lent_of_goOn cfg.two_le_slots hcall rfl hgo hlent
  | pushRun vs => cases hc
  | consume | tryPopBorrow => cases hr

/-- The tag names this implementation. -/
def Impl.fits : Tag → Impl α → Bool
  | .spsc, .ring _ => true
  | .spscInline, .ring _ => true
  | .mpsc, .mpsc _ => true
  | .spmc, .spmc _ => true
  | .generic, .generic _ => true
  | _, _ => false

theorem serve_fits (tag : Tag) (hs : impl.serve cfg env k r = some (k', impl', ans)) :
    Impl.fits tag impl' = Impl.fits tag impl := by
  cases impl with
  | ring sh => obtain ⟨-, sh', -, -, rfl⟩ := serve_ring hs; cases tag <;> rfl
  | mpsc sh => obtain ⟨-, sh', -, -, rfl⟩ := serve_mpsc hs; cases tag <;> rfl
  | spmc sh => obtain ⟨-, sh', -, -, rfl⟩ := serve_spmc hs; cases tag <;> rfl
  | generic sh => obtain ⟨-, sh', -, -, rfl⟩ := serve_generic hs; cases tag <;> rfl

end Wtc.Shim
