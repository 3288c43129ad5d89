import ExprCore.Proofs.Likeness.Computations
import Mathlib.Order.Filter.AtTopBot.Basic

/-!
Runs of two computations side by side. The stores correspond in a world, which says what is known of
the addresses of both and only ever grows. The right side is a family of computations, one for each
amount of fuel; a run of the left side is matched by the runs of all members from some fuel on. So
the left side may need less fuel than the right one, and a left side that runs out of fuel may be
excused.
-/

namespace ExprCore
set_option autoImplicit false

open Filter

def Halt.error? : Halt → Option EvalError
  | .error e => some e
  | _ => none

namespace Run

variable {α β : Type} {x : Run α} {s s₁ : Store} {a : α} {h : Halt}

theorem bind_ok (f : α → Run β) (hx : x s = .ok a s₁) : (x >>= f) s = f a s₁ := by
  show EStateM.bind x f s = f a s₁
  rw [EStateM.bind, hx]

theorem bind_error (f : α → Run β) (hx : x s = .error h s₁) : (x >>= f) s = .error h s₁ := by
  show EStateM.bind x f s = .error h s₁
  rw [EStateM.bind, hx]

theorem map_ok (f : α → β) (hx : x s = .ok a s₁) : (f <$> x) s = .ok (f a) s₁ := by
  show EStateM.map f x s = .ok (f a) s₁
  rw [EStateM.map, hx]

theorem map_error (f : α → β) (hx : x s = .error h s₁) : (f <$> x) s = .error h s₁ := by
  show EStateM.map f x s = .error h s₁
  rw [EStateM.map, hx]

theorem outcome_ok (hx : x s = .ok a s₁) : outcome x s = .ok (.ok a) s₁ := by
  rw [outcome, hx]

theorem outcome_error {e : EvalError} (hx : x s = .error (.error e) s₁) :
    outcome x s = .ok (.error e) s₁ := by
  rw [outcome, hx]

theorem outcome_halt (hh : h.error? = none) (hx : x s = .error h s₁) :
    outcome x s = .error h s₁ := by
  rw [outcome, hx]
  cases h with
  | error e => cases hh
  | placeholder | exhausted => rfl

end Run

inductive ErrorKind.Like (ρ : Links) : ErrorKind → ErrorKind → Prop where
  | failure {kind : ErrorKind} (h : ∀ v, kind ≠ .earlyReturn v) : Like ρ kind kind
  | earlyReturn {v w : Value} (h : Value.Like ρ v w) : Like ρ (.earlyReturn v) (.earlyReturn w)

/-- Equality of errors up to links, and up to notes unless these are compared strictly. -/
structure EvalError.Like (strict : Bool) (ρ : Links) (e e' : EvalError) : Prop where
  kind : ErrorKind.Like ρ e.kind e'.kind
  notes : strict = true → e.notes = e'.notes

inductive Halt.Like (strict : Bool) (ρ : Links) : Halt → Halt → Prop where
  | error {e e' : EvalError} (h : EvalError.Like strict ρ e e') : Like strict ρ (.error e) (.error e')
  | placeholder (hops : Nat) : Like strict ρ (.placeholder hops) (.placeholder hops)
  | exhausted : Like strict ρ .exhausted .exhausted

namespace EvalError

variable {strict : Bool} {ρ σ : Links} {e e' : EvalError}

theorem Like.mono (hσ : ρ ≤ σ) (h : Like strict ρ e e') : Like strict σ e e' := by
  refine ⟨?_, h.notes⟩
  obtain ⟨hk, _⟩ := h
  generalize e.kind = k, e'.kind = k' at hk
  cases hk with
  | failure h => exact .failure h
  | earlyReturn h => exact .earlyReturn (h.mono hσ)

theorem Like.refl (h : e.returned? = none) : Like strict ρ e e := by
  refine ⟨.failure fun v hv => ?_, fun _ => rfl⟩
  rw [returned?, hv] at h
  cases h

theorem Like.flip (h : Like strict ρ e e') : Like strict ρ.flip e' e := by
  refine ⟨?_, fun hs => (h.notes hs).symm⟩
  obtain ⟨hk, _⟩ := h
  generalize e.kind = k, e'.kind = k' at hk
  cases hk with
  | failure h => exact .failure h
  | earlyReturn h => exact .earlyReturn h.flip

/-- Early returns are told apart from failures, and carry like values. -/
theorem Like.returned? (h : Like strict ρ e e') :
    Option.Rel (Value.Like ρ) e.returned? e'.returned? := by
  obtain ⟨hk, _⟩ := h
  unfold EvalError.returned?
  generalize e.kind = k, e'.kind = k' at hk
  cases hk with
  | failure h =>
    cases k with
    | earlyReturn v => exact absurd rfl (h v)
    | _ => exact .none
  | earlyReturn h => exact .some h

theorem Like.message (h : Like strict ρ e e') : e.message = e'.message := by
  obtain ⟨hk, _⟩ := h
  unfold EvalError.message
  generalize e.kind = k, e'.kind = k' at hk
  cases hk <;> rfl

end EvalError

theorem Halt.Like.flip {strict : Bool} {ρ : Links} {h h' : Halt} (hh : Halt.Like strict ρ h h') :
    Halt.Like strict ρ.flip h' h := by
  cases hh with
  | error he => exact .error he.flip
  | placeholder hops => exact .placeholder hops
  | exhausted => exact .exhausted

/-- A world that never grows, for what need not be told anew when the store changes. -/
inductive Still where
  | still

instance : Preorder Still where
  le _ _ := True
  le_refl _ := trivial
  le_trans _ _ _ _ _ := trivial

/-- Correspondence of the stores of two runs. -/
structure Correspondence where
  World : Type
  order : Preorder World
  links : World → Links
  links_mono : ∀ {w w' : World}, w ≤ w' → links w ≤ links w'
  /-- Notes of errors are compared. -/
  strict : Bool
  /-- A left side that runs out of fuel is excused. -/
  lax : Bool
  good : World → Store → Store → Prop
  contents : ∀ {w : World} {s s' : Store}, good w s s' → Store.Contents (links w) s s'
  newSequence : ∀ {w : World} {s s' : Store} {items items' : List Value}, good w s s' →
    Value.Likes (links w) items items' → ∃ w', w ≤ w' ∧
      (links w').rel .sequence s.sequences.size s'.sequences.size ∧
      good w' { s with sequences := s.sequences.push items }
        { s' with sequences := s'.sequences.push items' }

namespace Correspondence

instance (C : Correspondence) : Preorder C.World := C.order

variable {C : Correspondence} {w w₁ : C.World} {s s' : Store} {α β γ δ : Type}
  {post : C.World → α → β → Prop} {post' : C.World → γ → δ → Prop}

/-- Fuel of the left side that the fuel of the right side matches. -/
def Fuels (C : Correspondence) (n : Nat) (f : Nat → Nat) : Prop :=
  if C.lax then ∀ᶠ k in atTop, n ≤ f k else ∀ᶠ k in atTop, f k = n

/-- Matching ends of two runs, in a world that has grown. -/
inductive Ends (w : C.World) (post : C.World → α → β → Prop) :
    EStateM.Result Halt Store α → EStateM.Result Halt Store β → Prop where
  | ok {w' : C.World} {a : α} {b : β} {s s' : Store} (hw : w ≤ w') (hs : C.good w' s s')
    (h : post w' a b) : Ends w post (.ok a s) (.ok b s')
  | error {w' : C.World} {h h' : Halt} {s s' : Store} (hw : w ≤ w') (hs : C.good w' s s')
    (hh : Halt.Like C.strict (C.links w') h h') : Ends w post (.error h s) (.error h' s')

/-- The run of `x` from one store is matched by the runs of `y` from another. -/
def RunsAt (w : C.World) (post : C.World → α → β → Prop) (s s' : Store) (x : Run α)
    (y : Nat → Run β) : Prop :=
  (C.lax = true ∧ ∃ s₁, x s = .error .exhausted s₁) ∨
    ∃ r, (∀ᶠ k in atTop, y k s' = r) ∧ Ends w post (x s) r

/-- The runs of `x` are matched by those of `y` in every world from `w` on. -/
def Runs (w : C.World) (post : C.World → α → β → Prop) (x : Run α) (y : Nat → Run β) : Prop :=
  ∀ w₁, w ≤ w₁ → ∀ s s', C.good w₁ s s' → RunsAt w₁ post s s' x y

theorem Ends.mono {r : EStateM.Result Halt Store α} {r' : EStateM.Result Halt Store β}
    {post₁ : C.World → α → β → Prop} (h : Ends w₁ post r r') (hw : w ≤ w₁)
    (hp : ∀ w', w₁ ≤ w' → ∀ a b, post w' a b → post₁ w' a b) : Ends w post₁ r r' := by
  cases h with
  | ok hw' hs h => exact .ok (hw.trans hw') hs (hp _ hw' _ _ h)
  | error hw' hs hh => exact .error (hw.trans hw') hs hh

variable {x : Run α} {y : Nat → Run β}

theorem RunsAt.mono {post₁ : C.World → α → β → Prop} (h : RunsAt w₁ post s s' x y) (hw : w ≤ w₁)
    (hp : ∀ w', w₁ ≤ w' → ∀ a b, post w' a b → post₁ w' a b) : RunsAt w post₁ s s' x y := by
  rcases h with h | ⟨r, hr, h⟩
  · exact .inl h
  · exact .inr ⟨r, hr, h.mono hw hp⟩

theorem Runs.mono (h : Runs w post x y) (hw : w ≤ w₁) : Runs w₁ post x y :=
  fun w₂ hw₂ => h w₂ (hw.trans hw₂)

theorem Runs.weaken {post₁ : C.World → α → β → Prop} (h : Runs w post x y)
    (hp : ∀ w', w ≤ w' → ∀ a b, post w' a b → post₁ w' a b) : Runs w post₁ x y :=
  fun w₁ hw s s' hs => (h w₁ hw s s' hs).mono le_rfl fun w' hw' => hp w' (hw.trans hw')

theorem Runs.congr_right {y' : Nat → Run β} (h : Runs w post x y)
    (hy : ∀ᶠ k in atTop, y k = y' k) : Runs w post x y' := by
  intro w₁ hw s s' hs
  rcases h w₁ hw s s' hs with hx | ⟨r, hr, he⟩
  · exact .inl hx
  · refine .inr ⟨r, ?_, he⟩
    filter_upwards [hr, hy] with k hk hyk
    rw [← hyk, hk]

theorem Runs.of_succ (h : Runs w post x fun k => y (k + 1)) : Runs w post x y := by
  intro w₁ hw s s' hs
  rcases h w₁ hw s s' hs with hx | ⟨r, hr, he⟩
  · exact .inl hx
  · obtain ⟨n, hn⟩ := eventually_atTop.mp hr
    refine .inr ⟨r, eventually_atTop.mpr ⟨n + 1, fun k hk => ?_⟩, he⟩
    obtain ⟨k, rfl⟩ : ∃ j, k = j + 1 := ⟨k - 1, by omega⟩
    exact hn k (by omega)

theorem RunsAt.pure {a : α} {b : β} (hs : C.good w s s') (h : post w a b) :
    RunsAt w post s s' (pure a) fun _ => pure b :=
  .inr ⟨_, .of_forall fun _ => rfl, .ok le_rfl hs h⟩

theorem RunsAt.throw {h h' : Halt} (hs : C.good w s s')
    (hh : Halt.Like C.strict (C.links w) h h') :
    RunsAt w post s s' (throw h) fun _ => throw h' :=
  .inr ⟨_, .of_forall fun _ => rfl, .error le_rfl hs hh⟩

theorem Runs.pure {a : α} {b : β} (h : ∀ w', w ≤ w' → post w' a b) :
    Runs w post (pure a) fun _ => pure b :=
  fun w₁ hw _ _ hs => .pure hs (h w₁ hw)

theorem Runs.throwError {e e' : EvalError} (h : EvalError.Like C.strict (C.links w) e e') :
    Runs w post (throw (.error e)) fun _ => throw (.error e') :=
  fun _ hw _ _ hs => .throw hs (.error (h.mono (C.links_mono hw)))

theorem Runs.fail {kind : ErrorKind} (h : (EvalError.of kind).returned? = none) :
    Runs w post (Run.fail kind) fun _ => Run.fail kind :=
  .throwError (.refl h)

theorem RunsAt.bind {f : α → Run γ} {g : Nat → β → Run δ} (h : RunsAt w post s s' x y)
    (hf : ∀ w', w ≤ w' → ∀ a b, post w' a b → Runs w' post' (f a) fun k => g k b) :
    RunsAt w post' s s' (x >>= f) fun k => y k >>= g k := by
  rcases h with ⟨hl, s₁, hx⟩ | ⟨r, hr, h⟩
  · exact .inl ⟨hl, s₁, Run.bind_error f hx⟩
  · generalize hx : x s = q at h
    cases h with
    | @ok w' a b s₁ s₁' hw hs h =>
      rcases hf w' hw a b h w' le_rfl s₁ s₁' hs with ⟨hl, s₂, hy⟩ | ⟨r', hr', he⟩
      · exact .inl ⟨hl, s₂, (Run.bind_ok f hx).trans hy⟩
      · refine .inr ⟨r', ?_, ?_⟩
        · filter_upwards [hr, hr'] with k hk hk'
          exact (Run.bind_ok (g k) hk).trans hk'
        · rw [Run.bind_ok f hx]
          exact he.mono hw fun _ _ _ _ h => h
    | @error w' h h' s₁ s₁' hw hs hh =>
      refine .inr ⟨.error h' s₁', ?_, ?_⟩
      · filter_upwards [hr] with k hk
        exact Run.bind_error (g k) hk
      · rw [Run.bind_error f hx]
        exact .error hw hs hh

theorem Runs.bind {f : α → Run γ} {g : Nat → β → Run δ} (h : Runs w post x y)
    (hf : ∀ w', w ≤ w' → ∀ a b, post w' a b → Runs w' post' (f a) fun k => g k b) :
    Runs w post' (x >>= f) fun k => y k >>= g k :=
  fun w₁ hw s s' hs => (h w₁ hw s s' hs).bind fun w' hw' => hf w' (hw.trans hw')

theorem Runs.map {f : α → γ} {g : β → δ} (h : Runs w post x y)
    (hf : ∀ w', w ≤ w' → ∀ a b, post w' a b → post' w' (f a) (g b)) :
    Runs w post' (f <$> x) fun k => g <$> y k := by
  intro w₁ hw s s' hs
  rcases h w₁ hw s s' hs with ⟨hl, s₁, hx⟩ | ⟨r, hr, h⟩
  · exact .inl ⟨hl, s₁, Run.map_error f hx⟩
  · generalize hx : x s = q at h
    cases h with
    | @ok w' a b s₁ s₁' hw' hs h =>
      refine .inr ⟨.ok (g b) s₁', ?_, ?_⟩
      · filter_upwards [hr] with k hk
        exact Run.map_ok g hk
      · rw [Run.map_ok f hx]
        exact .ok hw' hs (hf w' (hw.trans hw') a b h)
    | @error w' h h' s₁ s₁' hw' hs hh =>
      refine .inr ⟨.error h' s₁', ?_, ?_⟩
      · filter_upwards [hr] with k hk
        exact Run.map_error g hk
      · rw [Run.map_error f hx]
        exact .error hw' hs hh

theorem Runs.get_bind {f : Store → Run γ} {g : Nat → Store → Run δ}
    (h : ∀ w', w ≤ w' → ∀ s s', C.good w' s s' → RunsAt w' post' s s' (f s) fun k => g k s') :
    Runs w post' (get >>= f) fun k => get >>= g k :=
  h

theorem RunsAt.modify {f g : Store → Store} (hw : w ≤ w₁) (hs : C.good w₁ (f s) (g s')) :
    RunsAt w (fun _ _ _ => True) s s' (modify f) fun _ => modify g :=
  .inr ⟨_, .of_forall fun _ => rfl, .ok hw hs trivial⟩

theorem RunsAt.modifyGet {f : Store → α × Store} {g : Store → β × Store} (hw : w ≤ w₁)
    (hs : C.good w₁ (f s).2 (g s').2) (h : post w₁ (f s).1 (g s').1) :
    RunsAt w post s s' (modifyGet f) fun _ => modifyGet g :=
  .inr ⟨_, .of_forall fun _ => rfl, .ok hw hs h⟩

theorem Runs.ofExcept {R : α → β → Prop} {a : Except EvalError α} {b : Except EvalError β}
    (h : Agree R a b) (hR : ∀ w', w ≤ w' → ∀ a b, R a b → post w' a b) :
    Runs w post (Run.ofExcept a) fun _ => Run.ofExcept b := by
  cases h with
  | ok h => exact .pure fun w' hw => hR w' hw _ _ h
  | error h => exact .throwError (.refl h)

theorem Runs.ofAgree {R : α → β → Prop} {a : Except EvalError α} {b : Except EvalError β}
    (h : Agree R a b) : Runs w (fun _ => R) (Run.ofExcept a) fun _ => Run.ofExcept b :=
  .ofExcept h fun _ _ _ _ h => h

theorem Runs.ofLikes {a b : Except EvalError (List Value)}
    (h : Agree (Value.Likes (C.links w)) a b) :
    Runs w (fun w => Value.Likes (C.links w)) (Run.ofExcept a) fun _ => Run.ofExcept b :=
  .ofExcept h fun _ hw _ _ h => h.mono (C.links_mono hw)

theorem Runs.ofLike {a b : Except EvalError Value} (h : Agree (Value.Like (C.links w)) a b) :
    Runs w (fun w => Value.Like (C.links w)) (Run.ofExcept a) fun _ => Run.ofExcept b :=
  .ofExcept h fun _ hw _ _ h => h.mono (C.links_mono hw)

theorem Runs.value {v v' : Value} (h : Value.Like (C.links w) v v') :
    Runs w (fun w => Value.Like (C.links w)) (Pure.pure v) fun _ => Pure.pure v' :=
  .pure fun _ hw => h.mono (C.links_mono hw)

/-- Where the left side is out of fuel, both sides are, or the left side is excused. -/
theorem Runs.exhausted {f : Nat → Nat} (hf : C.Fuels 0 f) {y : Nat → Nat → Run β}
    (hy : ∀ k, y k 0 = throw .exhausted) : Runs w post (throw .exhausted) fun k => y k (f k) := by
  intro w₁ hw s s' hs
  unfold Fuels at hf
  cases hl : C.lax with
  | true => exact .inl ⟨hl, s, rfl⟩
  | false =>
    rw [hl] at hf
    refine .inr ⟨.error .exhausted s', ?_, .error le_rfl hs .exhausted⟩
    filter_upwards [hf] with k hk
    rw [hk, hy]
    rfl

theorem Fuels.pred {n : Nat} {f : Nat → Nat} (hf : C.Fuels (n + 1) f) :
    C.Fuels n (fun k => f k - 1) ∧ ∀ᶠ k in atTop, f k - 1 + 1 = f k := by
  unfold Fuels at hf ⊢
  cases hl : C.lax with
  | true =>
    rw [hl] at hf
    refine ⟨?_, ?_⟩ <;> filter_upwards [hf] with k hk
    · exact Nat.le_sub_one_of_lt hk
    · exact Nat.sub_add_cancel (Nat.one_le_of_lt hk)
  | false =>
    rw [hl] at hf
    refine ⟨?_, ?_⟩ <;> filter_upwards [hf] with k hk <;> rw [hk] <;> rfl

/-- Recursion on fuel: with no fuel both sides are exhausted, and with one unit more they are matched
if they are with the rest of the fuel. -/
theorem Runs.fueled {x : Nat → Run α} {y : Nat → Nat → Run β} {n : Nat} {f : Nat → Nat}
    (hf : C.Fuels n f) (hx : x 0 = throw .exhausted) (hy : ∀ k, y k 0 = throw .exhausted)
    (h : ∀ m g, n = m + 1 → C.Fuels m g → Runs w post (x (m + 1)) fun k => y k (g k + 1)) :
    Runs w post (x n) fun k => y k (f k) := by
  cases n with
  | zero =>
    rw [hx]
    exact .exhausted hf hy
  | succ n =>
    obtain ⟨hg, he⟩ := hf.pred
    refine (h n _ rfl hg).congr_right ?_
    filter_upwards [he] with k hk
    rw [hk]

theorem Runs.walk {p q : Nat → Option α} {n : Nat} {f : Nat → Nat} (hf : C.Fuels n f)
    (hpq : ∀ n, p n = q n) (hmono : ∀ n m a, n ≤ m → p n = some a → p m = some a) :
    Runs w (fun _ a b => a = b) (Run.ofOption (p n)) fun k => Run.ofOption (q (f k)) := by
  intro w₁ hw s s' hs
  unfold Fuels at hf
  cases hl : C.lax with
  | true =>
    rw [hl] at hf
    cases hp : p n with
    | none => exact .inl ⟨hl, s, rfl⟩
    | some a =>
      refine .inr ⟨.ok a s', ?_, .ok le_rfl hs rfl⟩
      filter_upwards [hf] with k hk
      rw [← hpq, hmono n (f k) a hk hp]
      rfl
  | false =>
    rw [hl] at hf
    cases hp : p n with
    | none =>
      refine .inr ⟨.error .exhausted s', ?_, .error le_rfl hs .exhausted⟩
      filter_upwards [hf] with k hk
      rw [← hpq, hk, hp]
      rfl
    | some a =>
      refine .inr ⟨.ok a s', ?_, .ok le_rfl hs rfl⟩
      filter_upwards [hf] with k hk
      rw [← hpq, hk, hp]
      rfl

theorem Runs.newSequence {items items' : List Value}
    (h : Value.Likes (C.links w) items items') :
    Runs w (fun w r r' => (C.links w).rel .sequence r r') (Run.newSequence items)
      fun _ => Run.newSequence items' := by
  intro w₁ hw s s' hs
  obtain ⟨w₂, hw₂, hr, hg⟩ := C.newSequence hs (h.mono (C.links_mono hw))
  exact .modifyGet hw₂ hg hr

theorem Runs.typedList (elem : Ty) {items items' : List Value}
    (h : Value.Likes (C.links w) items items') :
    Runs w (fun w v v' => Value.Like (C.links w) v v' ∧ (Ty.list elem).Conforms v)
      (Run.newList items) fun _ => Run.newList items' :=
  (Runs.newSequence h).map fun _ _ r _ h => ⟨.list h, Ty.conforms_list elem r⟩

theorem Runs.newList {items items' : List Value} (h : Value.Likes (C.links w) items items') :
    Runs w (fun w => Value.Like (C.links w)) (Run.newList items) fun _ => Run.newList items' :=
  (Runs.typedList .any h).weaken fun _ _ _ _ h => h.1

theorem Runs.newArrayOf (elem : Ty) {items items' : List Value}
    (h : Value.Likes (C.links w) items items') :
    Runs w (fun w => Value.Like (C.links w)) (Run.newArrayOf elem items)
      fun _ => Run.newArrayOf elem items' :=
  (Runs.newSequence h).map fun _ _ _ _ h => .array h

inductive Outcome (strict : Bool) (ρ : Links) :
    Except EvalError Value → Except EvalError Value → Prop where
  | ok {v v' : Value} (h : Value.Like ρ v v') : Outcome strict ρ (.ok v) (.ok v')
  | error {e e' : EvalError} (h : EvalError.Like strict ρ e e') :
    Outcome strict ρ (.error e) (.error e')

theorem Runs.outcome {x : Run Value} {y : Nat → Run Value}
    (h : Runs w (fun w => Value.Like (C.links w)) x y) :
    Runs w (fun w => Outcome C.strict (C.links w)) (Run.outcome x) fun k => Run.outcome (y k) := by
  intro w₁ hw s s' hs
  rcases h w₁ hw s s' hs with ⟨hl, s₁, hx⟩ | ⟨r, hr, h⟩
  · exact .inl ⟨hl, s₁, Run.outcome_halt rfl hx⟩
  · generalize hx : x s = q at h
    cases h with
    | @ok w' v v' s₁ s₁' hw' hs h =>
      refine .inr ⟨.ok (.ok v') s₁', hr.mono fun _ => Run.outcome_ok, ?_⟩
      rw [Run.outcome_ok hx]
      exact .ok hw' hs (.ok h)
    | @error w' h h' s₁ s₁' hw' hs hh =>
      cases hh with
      | @error e e' he =>
        refine .inr ⟨.ok (.error e') s₁', hr.mono fun _ => Run.outcome_error, ?_⟩
        rw [Run.outcome_error hx]
        exact .ok hw' hs (.error he)
      | placeholder hops =>
        refine .inr ⟨_, hr.mono fun _ => Run.outcome_halt rfl, ?_⟩
        rw [Run.outcome_halt rfl hx]
        exact .error hw' hs (.placeholder hops)
      | exhausted =>
        refine .inr ⟨_, hr.mono fun _ => Run.outcome_halt rfl, ?_⟩
        rw [Run.outcome_halt rfl hx]
        exact .error hw' hs .exhausted

theorem Runs.catchReturn {x : Run Value} {y : Nat → Run Value}
    (h : Runs w (fun w => Value.Like (C.links w)) x y) :
    Runs w (fun w => Value.Like (C.links w)) (Run.catchReturn x) fun k => Run.catchReturn (y k) := by
  refine h.outcome.bind fun w' hw o o' ho => ?_
  cases ho with
  | ok h => exact .value h
  | @error e e' h =>
    dsimp only
    generalize e.returned? = x, e'.returned? = y, h.returned? = hr
    cases hr with
    | none => exact .throwError h
    | some hv => exact .value hv

end Correspondence

end ExprCore
