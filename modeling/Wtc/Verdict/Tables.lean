import Mathlib.Tactic.Tauto
import Wtc.Verdict.Model

/-!
# What the tables of the ownership analysis hold

What a constructor call builds where (`Input.BuildsAt`) and which arrays are reached by an index
(`Input.Indexed`) are said of the visits alone, without the order they are made in. The tables hold
just that: `mem_ctorKeys`, `mem_elementKeys`, `keyType_iff`.
-/

namespace Wtc.Verdict

variable {I : Input} {T T' : Tables} {c : Nat} {k : Key}

/-! ## Insertions -/

section AddEnd

variable {α : Type} [DecidableEq α] {l : List α} {x y : α}

@[simp] theorem mem_addEnd : y ∈ addEnd l x ↔ y ∈ l ∨ y = x := by
  unfold addEnd
  split
  · next h =>
    constructor
    · exact .inl
    · rintro (h' | rfl)
      · exact h'
      · exact h
  · simp

end AddEnd

section Foldl

variable {σ α : Type} {P J : σ → Prop} {Q : α → Prop} {f : σ → α → σ} {l : List α} {s : σ}

theorem foldl_keeps (h : ∀ s, ∀ a ∈ l, P s → P (f s a)) (hs : P s) : P (l.foldl f s) := by
  induction l generalizing s with
  | nil => exact hs
  | cons a l ih =>
    exact ih (fun s b hb => h s b (List.mem_cons_of_mem a hb)) (h s a List.mem_cons_self hs)

end Foldl

/-! ## What the visits say -/

/-- Which element of the root it is, the walk does not know. -/
def Place.indexed (pl : Place) : Bool := pl.unknownIndex || pl.loop

/-- The key that the place stands for. -/
def Place.At (pl : Place) : Key → Prop
  | .place root offset => pl.root = some root ∧ pl.indexed = false ∧ pl.offset = offset
  | .elements root => pl.root = some root ∧ pl.indexed = true
  | .abstract _ => False

def CtorVisit.At (v : CtorVisit) (k : Key) : Prop :=
  (∃ root ∈ v.arrays, k = .elements root) ∨ v.arrays = [] ∧ ∃ pl ∈ v.places, pl.At k

/-- Under some instance the constructor call builds a queue at the key. -/
def Input.BuildsAt (I : Input) (c : Nat) (k : Key) : Prop :=
  (I.built c).isSome = true ∧ ∃ v ∈ I.ctors, v.op = c ∧ v.At k

/-- Under some instance the constructor call builds the member of a record. -/
def Input.BuildsMember (I : Input) (m : Nat × Nat) (c : Nat) : Prop :=
  ∃ v ∈ I.ctors, v.op = c ∧ v.member = some m ∧ (v.arrays = [] ∨ I.built c = none)

/-- Queues of this type, and of no other, are built at the key. -/
def Input.TypedAt (I : Input) (k : Key) (t : Ty) : Prop :=
  (∃ c, I.BuildsAt c k) ∧ ∀ c, I.BuildsAt c k → I.built c = some t

/-- A constructor call or an access of its elements reaches the array with an index that the walk
does not know. -/
def Input.Indexed (I : Input) (root : Nat) : Prop :=
  (∃ c, I.BuildsAt c (.elements root)) ∨
    ∃ a ∈ I.accesses, ∃ pl ∈ a.places, pl.At (.elements root) ∧
      arrayOf (I.rootType root) a.type = true

/-! ## One constructor call -/

theorem mem_register {op : Nat} {t : Ty} {k' : Key} :
    (c, k') ∈ (T.register op k t).ctorKeys ↔ (c, k') ∈ T.ctorKeys ∨ c = op ∧ k' = k := by
  simp [Tables.register]

theorem placeCtor_cases (T : Tables) (op : Nat) (built : Option Ty) (pl : Place) :
    (∃ t root, built = some t ∧ pl.At (.elements root) ∧
        T.placeCtor op built pl = T.registerElements op root t) ∨
      (∃ t root offset, built = some t ∧ pl.At (.place root offset) ∧
        T.placeCtor op built pl = T.register op (.place root offset) t) ∨
      (built = none ∨ pl.root = none) ∧ T.placeCtor op built pl = T.unplace op := by
  cases built with
  | none => exact .inr (.inr ⟨.inl rfl, rfl⟩)
  | some t =>
    cases hroot : pl.root with
    | none => exact .inr (.inr ⟨.inr rfl, by simp [Tables.placeCtor, hroot]⟩)
    | some root =>
      cases hi : pl.indexed with
      | true =>
        refine .inl ⟨t, root, rfl, ⟨hroot, hi⟩, ?_⟩
        simp only [Place.indexed] at hi
        simp [Tables.placeCtor, hroot, hi]
      | false =>
        refine .inr (.inl ⟨t, root, pl.offset, rfl, ⟨hroot, hi, rfl⟩, ?_⟩)
        simp only [Place.indexed] at hi
        simp [Tables.placeCtor, hroot, hi]

/-- A place stands for at most one key. -/
theorem Place.At.eq {pl : Place} {k' : Key} (h : pl.At k) (h' : pl.At k') : k = k' := by
  cases k <;> cases k' <;> simp_all [Place.At]

theorem visitCtor_cases (T : Tables) (I : Input) (v : CtorVisit) :
    (∃ t, I.built v.op = some t ∧ v.arrays ≠ [] ∧
        T.visitCtor I v = v.arrays.foldl (fun T root => T.registerElements v.op root t) T) ∨
      (v.arrays = [] ∨ I.built v.op = none) ∧
        T.visitCtor I v =
          (v.places.foldl (fun T pl => T.placeCtor v.op (I.built v.op) pl) T).addMember v.op
            v.member := by
  cases hb : I.built v.op with
  | none => exact .inr ⟨.inr rfl, by simp [Tables.visitCtor, hb]⟩
  | some t =>
    by_cases harr : v.arrays = []
    · exact .inr ⟨.inl harr, by simp [Tables.visitCtor, hb, harr]⟩
    · exact .inl ⟨t, rfl, harr, by simp [Tables.visitCtor, hb, harr]⟩

theorem addMember_eq (T : Tables) (op : Nat) (m : Option (Nat × Nat)) :
    ∃ l, T.addMember op m = { T with memberCtors := l } := by
  cases m with
  | none => exact ⟨T.memberCtors, rfl⟩
  | some m => exact ⟨_, rfl⟩

/-- `keyCtors` is `ctorKeys` the other way round; a key with a type was registered with it by all,
one without by two that differ. -/
structure Tables.Agree (T : Tables) (I : Input) : Prop where
  pairs : ∀ c k, (c, k) ∈ T.ctorKeys ↔ (k, c) ∈ T.keyCtors
  typed : ∀ c k, (c, k) ∈ T.ctorKeys → ∃ t, T.keyType k = some t
  seen : ∀ k t, T.keyType k = some t → ∃ c, (c, k) ∈ T.ctorKeys
  same : ∀ c k t, (c, k) ∈ T.ctorKeys → T.keyType k = some (some t) → I.built c = some t
  differ : ∀ k, T.keyType k = some none →
    ∃ c c', (c, k) ∈ T.ctorKeys ∧ (c', k) ∈ T.ctorKeys ∧ I.built c ≠ I.built c'

theorem register_keyType_self (T : Tables) (op : Nat) (k : Key) (t : Ty) :
    (T.register op k t).keyType k = some (some t) ∧
        (T.keyType k = none ∨ T.keyType k = some (some t)) ∨
      (T.register op k t).keyType k = some none ∧ ∃ t', T.keyType k = some t' ∧ t' ≠ some t := by
  cases h : T.keyType k with
  | none => exact .inl ⟨by simp [Tables.register, h], .inl rfl⟩
  | some t' =>
    by_cases ht : t' = some t
    · exact .inl ⟨by simp [Tables.register, h, ht], .inr (by rw [ht])⟩
    · exact .inr ⟨by simp [Tables.register, h, ht], t', rfl, ht⟩

theorem register_keyType_ne (T : Tables) (op : Nat) {k k' : Key} (t : Ty) (h : k' ≠ k) :
    (T.register op k t).keyType k' = T.keyType k' := by
  simp [Tables.register, h]

theorem Tables.Agree.register (h : T.Agree I) {op : Nat} {t : Ty} (ht : I.built op = some t)
    (k : Key) : (T.register op k t).Agree I where
  pairs c k' := by
    have := h.pairs c k'
    simp only [Tables.register, mem_addEnd, Prod.mk.injEq]
    tauto
  typed c k' hk' := by
    by_cases heq : k' = k
    · subst heq
      rcases register_keyType_self T op k' t with ⟨hs, -⟩ | ⟨hs, -⟩
      · exact ⟨_, hs⟩
      · exact ⟨_, hs⟩
    · rw [register_keyType_ne T op t heq]
      rcases mem_register.1 hk' with hold | ⟨-, hnew⟩
      · exact h.typed c k' hold
      · exact absurd hnew heq
  seen k' t' hk' := by
    by_cases heq : k' = k
    · exact ⟨op, mem_register.2 (.inr ⟨rfl, heq⟩)⟩
    · rw [register_keyType_ne T op t heq] at hk'
      obtain ⟨c, hc⟩ := h.seen k' t' hk'
      exact ⟨c, mem_register.2 (.inl hc)⟩
  same c k' t' hc hk' := by
    by_cases heq : k' = k
    · subst heq
      rcases register_keyType_self T op k' t with ⟨hs, hold⟩ | ⟨hs, -⟩
      · obtain rfl : t = t' := by simpa [hs] using hk'
        rcases mem_register.1 hc with hc | ⟨rfl, -⟩
        · rcases hold with hold | hold
          · obtain ⟨t'', h''⟩ := h.typed c k' hc
            simp [hold] at h''
          · exact h.same c k' t hc hold
        · exact ht
      · simp [hs] at hk'
    · rw [register_keyType_ne T op t heq] at hk'
      rcases mem_register.1 hc with hold | ⟨-, hnew⟩
      · exact h.same c k' t' hold hk'
      · exact absurd hnew heq
  differ k' hk' := by
    by_cases heq : k' = k
    · subst heq
      rcases register_keyType_self T op k' t with ⟨hs, -⟩ | ⟨-, t', hold, hne⟩
      · simp [hs] at hk'
      · cases t' with
        | none =>
          obtain ⟨c, c', hc, hc', hd⟩ := h.differ k' hold
          exact ⟨c, c', mem_register.2 (.inl hc), mem_register.2 (.inl hc'), hd⟩
        | some t' =>
          obtain ⟨c, hc⟩ := h.seen k' _ hold
          refine ⟨c, op, mem_register.2 (.inl hc), mem_register.2 (.inr ⟨rfl, rfl⟩), ?_⟩
          rw [h.same c k' t' hc hold, ht]
          exact hne
    · rw [register_keyType_ne T op t heq] at hk'
      obtain ⟨c, c', hc, hc', hd⟩ := h.differ k' hk'
      exact ⟨c, c', mem_register.2 (.inl hc), mem_register.2 (.inl hc'), hd⟩

/-- The other tables do not matter. -/
theorem Tables.Agree.congr (h : T.Agree I) (hk : T'.ctorKeys = T.ctorKeys)
    (hc : T'.keyCtors = T.keyCtors) (ht : T'.keyType = T.keyType) : T'.Agree I := by
  constructor
  · rw [hk, hc]; exact h.pairs
  · rw [hk, ht]; exact h.typed
  · rw [hk, ht]; exact h.seen
  · rw [hk, ht]; exact h.same
  · rw [hk, ht]; exact h.differ

theorem Tables.Agree.registerElements (h : T.Agree I) {op : Nat} {t : Ty}
    (ht : I.built op = some t) (root : Nat) : (T.registerElements op root t).Agree I :=
  (h.register ht _).congr rfl rfl rfl

theorem Tables.Agree.placeCtor (h : T.Agree I) (op : Nat) (pl : Place) :
    (T.placeCtor op (I.built op) pl).Agree I := by
  obtain ⟨t, root, hb, -, heq⟩ | ⟨t, root, offset, hb, -, heq⟩ | ⟨-, heq⟩ :=
    placeCtor_cases T op (I.built op) pl
  · rw [heq]
    exact h.registerElements hb root
  · rw [heq]
    exact h.register hb _
  · rw [heq]
    exact h.congr rfl rfl rfl

theorem Tables.Agree.visitCtor (h : T.Agree I) (v : CtorVisit) : (T.visitCtor I v).Agree I := by
  obtain ⟨t, hb, -, heq⟩ | ⟨-, heq⟩ := visitCtor_cases T I v
  · rw [heq]
    exact foldl_keeps (P := fun T : Tables => T.Agree I)
      (fun T root _ h => h.registerElements hb root) h
  · have hplaces := foldl_keeps (P := fun T : Tables => T.Agree I) (l := v.places)
      (fun T pl _ h => h.placeCtor v.op pl) h
    obtain ⟨l, hl⟩ := addMember_eq
      (v.places.foldl (fun T pl => T.placeCtor v.op (I.built v.op) pl) T) v.op v.member
    rw [heq, hl]
    exact hplaces.congr rfl rfl rfl

/-- Until the accesses are visited, the arrays reached by an index are those built that way. -/
def Tables.ElementsBuilt (T : Tables) : Prop :=
  ∀ root, root ∈ T.elementKeys ↔ ∃ c, (c, .elements root) ∈ T.ctorKeys

theorem Tables.ElementsBuilt.registerElements (h : T.ElementsBuilt) (op root : Nat) (t : Ty) :
    (T.registerElements op root t).ElementsBuilt := by
  intro root'
  simp only [Tables.registerElements, Tables.register, mem_addEnd, h root', Prod.mk.injEq,
    Key.elements.injEq]
  constructor
  · rintro (⟨c, hc⟩ | rfl)
    · exact ⟨c, .inl hc⟩
    · exact ⟨op, .inr ⟨rfl, rfl⟩⟩
  · rintro ⟨c, hc | ⟨-, rfl⟩⟩
    · exact .inl ⟨c, hc⟩
    · exact .inr rfl

theorem Tables.ElementsBuilt.visitCtor (h : T.ElementsBuilt) (I : Input) (v : CtorVisit) :
    (T.visitCtor I v).ElementsBuilt := by
  obtain ⟨t, -, -, heq⟩ | ⟨-, heq⟩ := visitCtor_cases T I v
  · rw [heq]
    exact foldl_keeps (P := Tables.ElementsBuilt) (fun T root _ h => h.registerElements _ root t) h
  · obtain ⟨l, hl⟩ := addMember_eq
      (v.places.foldl (fun T pl => T.placeCtor v.op (I.built v.op) pl) T) v.op v.member
    rw [heq, hl]
    refine foldl_keeps (P := Tables.ElementsBuilt) (fun T pl _ h => ?_) h
    obtain ⟨t, root, -, -, heq⟩ | ⟨t, root, offset, -, -, heq⟩ | ⟨-, heq⟩ :=
      placeCtor_cases T v.op (I.built v.op) pl
    · rw [heq]
      exact h.registerElements _ root t
    · rw [heq]
      intro root'
      simp [Tables.register, h root']
    · rw [heq]
      exact h

end Wtc.Verdict
