import ExprCore.Proofs.Likeness.Stores

/-!
Two ways for lists to stand for each other. Either every list keeps its address, or the lists made
on either side may be renumbered. In the second case a run that only makes lists nobody looks at can
be left out on one side.
-/

namespace ExprCore
set_option autoImplicit false

namespace Links

def push (ρ : Links) (n n' : Ref) (h : ∀ r r', ρ.rel .sequence r r' → r ≠ n ∧ r' ≠ n') :
    Links where
  rel area r r' := ρ.rel area r r' ∨ area = .sequence ∧ r = n ∧ r' = n'
  oneToOne := by
    rintro area a a' b b' (ha | ⟨rfl, rfl, rfl⟩) (hb | ⟨hs, rfl, rfl⟩)
    · exact ρ.oneToOne ha hb
    · subst hs
      exact iff_of_false (h _ _ ha).1 (h _ _ ha).2
    · exact iff_of_false (h _ _ hb).1.symm (h _ _ hb).2.symm
    · exact iff_of_true rfl rfl

def Bounded (ρ : Links) (n n' : Nat) : Prop := ∀ r r', ρ.rel .sequence r r' → r < n ∧ r' < n'

theorem Bounded.push {ρ : Links} {n n' : Nat} (h : ρ.Bounded n n') :
    ∃ σ, ρ ≤ σ ∧ σ.Bounded (n + 1) (n' + 1) ∧ σ.rel .sequence n n' ∧
      ∀ area r r', σ.rel area r r' → ρ.rel area r r' ∨ area = .sequence ∧ r = n ∧ r' = n' := by
  have hne (r r' : Ref) (hr : ρ.rel .sequence r r') : r ≠ n ∧ r' ≠ n' :=
    ⟨Nat.ne_of_lt (h r r' hr).1, Nat.ne_of_lt (h r r' hr).2⟩
  refine ⟨ρ.push n n' hne, fun _ _ _ hr => .inl hr, fun r r' hr => ?_, .inr ⟨rfl, rfl, rfl⟩,
    fun _ _ _ hr => hr⟩
  rcases hr with hr | ⟨-, rfl, rfl⟩
  · exact ⟨Nat.lt_succ_of_lt (h r r' hr).1, Nat.lt_succ_of_lt (h r r' hr).2⟩
  · exact ⟨Nat.lt_succ_self _, Nat.lt_succ_self _⟩

end Links

namespace Linking

def renumbering : Linking where
  good ρ n n' := ρ.Bounded n n' ∧ (∀ r r', ρ.rel .buffer r r' ↔ r = r') ∧
    ∀ r r', ρ.rel .map r r' ↔ r = r'
  extend := by
    rintro ρ n n' ⟨hρ, hb, hm⟩
    obtain ⟨σ, hσ, hg, hr, honly⟩ := hρ.push
    refine ⟨σ, hσ, ⟨hg, fun r r' => ⟨fun h => ?_, fun h => hσ _ _ _ ((hb r r').mpr h)⟩,
      fun r r' => ⟨fun h => ?_, fun h => hσ _ _ _ ((hm r r').mpr h)⟩⟩, hr, honly⟩
    · rcases honly _ _ _ h with h | ⟨hs, -⟩
      · exact (hb r r').mp h
      · cases hs
    · rcases honly _ _ _ h with h | ⟨hs, -⟩
      · exact (hm r r').mp h
      · cases hs
  within h _ _ hr := iff_of_true (h.1 _ _ hr).1 (h.1 _ _ hr).2
  buffer h := h.2.1
  map h := h.2.2

end Linking

section Unique

variable {ρ σ : Links}

/-- Of the values on one side, at most one is like a given value on the other. -/
theorem Value.Like.left_unique (hσ : ρ ≤ σ) {a b v : Value} (ha : Value.Like ρ a v)
    (hb : Value.Like σ b v) : b = a := by
  cases ha with
  | plain h => cases hb <;> first | rfl | cases h
  | buffer ha | list ha | array ha | map ha =>
    cases hb with
    | plain h => cases h
    | _ hb => rw [(σ.oneToOne hb (hσ _ _ _ ha)).mpr rfl]

theorem Value.Like.right_unique (hσ : ρ ≤ σ) {a b v : Value} (ha : Value.Like ρ v a)
    (hb : Value.Like σ v b) : b = a :=
  Value.Like.left_unique (ρ := ρ.flip) (σ := σ.flip) (fun _ _ _ h => hσ _ _ _ h) ha.flip hb.flip

theorem forall₂_left_unique {α β : Type} {R S : α → β → Prop}
    (h : ∀ a b v, R a v → S b v → b = a) {as bs : List α} {vs : List β}
    (ha : List.Forall₂ R as vs) (hb : List.Forall₂ S bs vs) : bs = as := by
  induction ha generalizing bs with
  | nil => cases hb; rfl
  | cons ha _ ih =>
    cases hb with
    | cons hb hbs => rw [h _ _ _ ha hb, ih hbs]

theorem forall₂_right_unique {α β : Type} {R S : α → β → Prop}
    (h : ∀ a b v, R v a → S v b → b = a) {as bs : List β} {vs : List α}
    (ha : List.Forall₂ R vs as) (hb : List.Forall₂ S vs bs) : bs = as :=
  forall₂_left_unique (fun a b v => h a b v) (List.Forall₂.flip ha) (List.Forall₂.flip hb)

theorem Value.Likes.left_unique (hσ : ρ ≤ σ) {as bs vs : List Value} (ha : Value.Likes ρ as vs)
    (hb : Value.Likes σ bs vs) : bs = as :=
  forall₂_left_unique (R := Value.Like ρ) (S := Value.Like σ)
    (fun _ _ _ => Value.Like.left_unique hσ) ha hb

theorem Value.Likes.right_unique (hσ : ρ ≤ σ) {as bs vs : List Value} (ha : Value.Likes ρ vs as)
    (hb : Value.Likes σ vs bs) : bs = as :=
  forall₂_right_unique (R := Value.Like ρ) (S := Value.Like σ)
    (fun _ _ _ => Value.Like.right_unique hσ) ha hb

theorem Entries.Like.left_unique (hσ : ρ ≤ σ) {as bs vs : Entries} (ha : Entries.Like ρ as vs)
    (hb : Entries.Like σ bs vs) : bs = as :=
  forall₂_left_unique (fun _ _ _ ha hb =>
    Prod.ext (hb.1.trans ha.1.symm) (Value.Like.left_unique hσ ha.2 hb.2)) ha hb

theorem Entries.Like.right_unique (hσ : ρ ≤ σ) {as bs vs : Entries} (ha : Entries.Like ρ vs as)
    (hb : Entries.Like σ vs bs) : bs = as :=
  forall₂_right_unique (fun _ _ _ ha hb =>
    Prod.ext (hb.1.symm.trans ha.1) (Value.Like.right_unique hσ ha.2 hb.2)) ha hb

theorem Call.Like.left_unique (hσ : ρ ≤ σ) {a b c : Call} (ha : a.Like ρ c) (hb : b.Like σ c) :
    b = a := by
  obtain ⟨name, args⟩ := a
  obtain ⟨name', args'⟩ := b
  obtain rfl : name' = name := hb.name.trans ha.name.symm
  obtain rfl : args' = args := ha.args.left_unique hσ hb.args
  rfl

theorem Call.Like.right_unique (hσ : ρ ≤ σ) {a b c : Call} (ha : c.Like ρ a) (hb : c.Like σ b) :
    b = a :=
  Call.Like.left_unique (ρ := ρ.flip) (σ := σ.flip) (fun _ _ _ h => hσ _ _ _ h)
    ⟨ha.name.symm, ha.args.flip⟩ ⟨hb.name.symm, hb.args.flip⟩

end Unique

namespace Pairing

variable {P : Pairing} {w w' : World P.known} {s s' s₁ s₁' : Store} {more : Array (List Value)}

end Pairing

end ExprCore
