import ExprCore.Proofs.Likeness.Computing
import ExprCore.Proofs.Likeness.Renaming
import ExprCore.Proofs.Rewriting

/-!
Values and the static types of the nodes that yield them. A node that holds its type yields values
that conform to it, where its slots hold values of their types. A constant has one value in all frames
and stores, up to lists that nobody keeps.
-/

namespace ExprCore
set_option autoImplicit false

open Filter

/-- What simplification relies on: a literal holds a value of its type, as its constructor promises,
and no node is decided by a look into a container that a literal holds. -/
structure Expr.Sound (e : Expr) : Prop where
  literal : ∀ v t, e = .literal v t → t.Conforms v
  discreet : e.readsContainer = false

def Expr.isScopeRef : Expr → Bool
  | .scopeRef _ => true
  | _ => false

/-- Values of a constant: they are alike, or one container that a literal holds. -/
def Value.Rough (held : Bool) (ρ : Links) (v v' : Value) : Prop :=
  Value.Like ρ v v' ∨ held = true ∧ v' = v

namespace Value.Rough

variable {held more : Bool} {ρ σ : Links} {v v' : Value}

theorem mono (h : Value.Rough held ρ v v') (hσ : ρ ≤ σ) : Value.Rough held σ v v' :=
  h.imp_left fun h => h.mono hσ

theorem imp (h : Value.Rough held ρ v v') (hm : held = true → more = true) :
    Value.Rough more ρ v v' :=
  h.imp_right fun h => ⟨hm h.1, h.2⟩

theorem like (h : Value.Rough held ρ v v') (hh : held = false) : Value.Like ρ v v' :=
  h.resolve_right fun h => by rw [hh] at h; cases h.1

theorem cast (h : Value.Rough held ρ v v') (t : Ty) :
    Agree (Value.Rough held ρ) (t.cast v) (t.cast v') := by
  rcases h with h | ⟨hh, rfl⟩
  · exact (h.cast t).imp fun _ _ => .inl
  · exact .refl (fun _ _ => .inr ⟨hh, rfl⟩) fun _ => Ty.cast_error

theorem castNoting (h : Value.Rough held ρ v v') (t : Ty) (note : String) :
    Agree (Value.Rough held ρ) (t.castNoting note v) (t.castNoting note v') :=
  (h.cast t).mapError fun _ he => he

theorem isInstance_eq (h : Value.Rough held ρ v v') (t : Ty) : v.isInstance t = v'.isInstance t := by
  rcases h with h | ⟨-, rfl⟩
  · exact h.isInstance_eq t
  · rfl

end Value.Rough

namespace Run

variable {α β : Type} {x : Run α} {f : α → Run β} {s s₁ : Store} {a : α} {b : β}

theorem ok_of_bind (h : (x >>= f) s = .ok b s₁) :
    ∃ a s₂, x s = .ok a s₂ ∧ f a s₂ = .ok b s₁ := by
  cases hx : x s with
  | ok a s₂ => exact ⟨a, s₂, rfl, (bind_ok f hx).symm.trans h⟩
  | error e s₂ => rw [bind_error f hx] at h; cases h

theorem ok_of_ofExcept {r : Except EvalError α} (h : ofExcept r s = .ok a s₁) : r = .ok a := by
  cases r <;> cases h
  rfl

end Run

/-- The nodes that hold their type by a slot or by a child. -/
def Expr.borrowsType : Expr → Bool
  | .var _ | .sequence _ | .before .. => true
  | _ => false

namespace Machine

variable {m : Machine} {env : Env} {e : Expr} {s s₁ : Store} {v : Value}

theorem conforms_of_bind_cast {t : Ty} {x : Run Value}
    (h : (x >>= fun u => Run.ofExcept (t.cast u)) s = .ok v s₁) : t.Conforms v := by
  obtain ⟨u, s₂, -, h⟩ := Run.ok_of_bind h
  exact Ty.conforms_of_cast (Run.ok_of_ofExcept h)

theorem conforms_of_bind_castNoting {t : Ty} {note : String} {x : Run Value}
    (h : (x >>= fun u => Run.ofExcept (t.castNoting note u)) s = .ok v s₁) : t.Conforms v := by
  obtain ⟨u, s₂, -, h⟩ := Run.ok_of_bind h
  exact Ty.conforms_of_castNoting (Run.ok_of_ofExcept h)

theorem conforms_evalLogical {op : Connective} {a b : Expr}
    (h : m.evalLogical env op a b s = .ok v s₁) : Ty.bool.Conforms v := by
  obtain ⟨p, s₂, -, h⟩ := Run.ok_of_bind h
  have hb (h : (Value.bool <$> m.truthOf env b) s₂ = .ok v s₁) : Ty.bool.Conforms v := by
    rw [map_eq_pure_bind] at h
    obtain ⟨q, s₃, -, h⟩ := Run.ok_of_bind h
    cases h
    rfl
  cases op <;> cases p
  · cases h; rfl
  · exact hb h
  · exact hb h
  · cases h; rfl

theorem conforms_evalNode (hl : ∀ u t, e = .literal u t → t.Conforms u)
    (hb : e.borrowsType = false) (hh : e.holdsType = true) (h : m.evalNode env e s = .ok v s₁) : e.type.Conforms v := by
  cases e with
  | literal u t =>
    cases h
    exact hl _ t rfl
  | var | sequence | before => cases hb
  | cast t operand => exact conforms_of_bind_cast h
  | operator form op operands =>
    obtain ⟨args, s₂, -, h⟩ := Run.ok_of_bind h
    obtain ⟨vs, s₃, -, h⟩ := Run.ok_of_bind h
    exact conforms_of_bind_castNoting h
  | logical op a b => exact conforms_evalLogical h
  | instanceOf operand t =>
    obtain ⟨u, s₂, -, h⟩ := Run.ok_of_bind h
    cases h
    rfl
  | conditional c a b =>
    obtain ⟨p, s₂, -, h⟩ := Run.ok_of_bind h
    exact conforms_of_bind_castNoting h
  | block layout body ret =>
    obtain ⟨inner, s₂, -, h⟩ := Run.ok_of_bind h
    exact conforms_of_bind_castNoting h
  | tryCatch body binding handler =>
    obtain ⟨o, s₂, -, h⟩ := Run.ok_of_bind h
    cases o with
    | ok u => exact conforms_of_bind_cast h
    | error e =>
      dsimp only at h
      generalize e.returned? = returned at h
      cases returned <;> exact conforms_of_bind_cast h
  | _ => cases hh

theorem evalSequence_append (items : List Expr) (last : Expr) (u : Value) :
    m.evalSequence env u (items ++ [last]) =
      (m.evalSequence env u items >>= fun _ => m.eval env last) := by
  induction items generalizing u with
  | nil =>
    show (m.eval env last >>= fun v => pure v) = m.eval env last
    exact bind_pure _
  | cons a items ih => simp only [List.cons_append, evalSequence, ih, bind_assoc]

end Machine

namespace Correspondence

variable {C : Correspondence} {w w₁ : C.World} {m : Machine} {m' : Nat → Machine} {env env' : Env}
  {e e' x : Expr} {α β : Type} {post : C.World → α → β → Prop}

/-- Like values, of the type of the left expression where it holds its type. -/
def Faithful (C : Correspondence) (e : Expr) (w : C.World) (v v' : Value) : Prop :=
  Value.Like (C.links w) v v' ∧ (e.holdsType = true → e.type.Conforms v)

abbrev Tracks (C : Correspondence) (w : C.World) (m : Machine) (m' : Nat → Machine)
    (env env' : Env) (e e' : Expr) : Prop :=
  Runs w (C.Faithful e) (m.eval env e) fun k => (m' k).eval env' e'

theorem Tracks.steps (h : C.Tracks w m m' env env' e e') : C.Steps w m m' env env' e e' :=
  h.weaken fun _ _ _ _ h => h.1

/-- An expression that has one value on both sides, up to the containers that its literals hold. -/
abbrev Settles (C : Correspondence) (w : C.World) (m : Machine) (m' : Nat → Machine)
    (env env' : Env) (e : Expr) : Prop :=
  Runs w (fun w => Value.Rough e.exposes (C.links w)) (m.eval env e) fun k => (m' k).eval env' e

theorem runs_constantSequence {items : List Expr} (hall : Expr.allFoldable items = true)
    (h : ∀ x ∈ items, ∀ w, C.Settles w m m' env env' x) :
    Runs w (fun w => Value.Rough (Expr.sequence items).exposes (C.links w))
      (m.evalSequence env .void items) fun k => (m' k).evalSequence env' .void items := by
  rcases List.eq_nil_or_concat items with rfl | ⟨front, last, rfl⟩
  · exact .pure fun _ _ => .inl (.plain rfl)
  · rw [List.concat_eq_append] at *
    simp only [Expr.exposes, hall, Expr.lastExposes_append, Bool.true_and,
      Machine.evalSequence_append]
    -- What stands before the last item is dropped, so that it may be a container.
    have hfront : Runs w (fun w => Value.Rough true (C.links w)) (m.evalSequence env .void front)
        fun k => (m' k).evalSequence env' .void front := by
      refine runs_items (R := fun w => Value.Rough true (C.links w))
        (fun hw h => h.mono (C.links_mono hw)) (List.forall₂_same.mpr fun x hx => ?_) le_rfl
        (.inl (.plain rfl))
      exact (h x (List.mem_append_left _ hx) w).weaken fun _ _ _ _ h => h.imp fun _ => rfl
    exact hfront.bind fun w₁ _ _ _ _ => h last (by simp) w₁

/-- A constant has one value on both sides if its children have. -/
theorem runs_constantNode (hf : C.Fuels m.fuel fun k => (m' k).fuel) (he : e.isConstant = true)
    (hd : e.readsContainer = false)
    (here : ∀ {x}, (Entry.here, x) ∈ e.children → ∀ w, C.Settles w m m' env env' x) :
    Runs w (fun w => Value.Rough e.exposes (C.links w)) (m.evalNode env e)
      fun k => (m' k).evalNode env' e := by
  have like {x : Expr} (hx : (Entry.here, x) ∈ e.children) (hn : x.exposes = false) :
      C.Steps w m m' env env' x x :=
    (here hx w).weaken fun _ _ _ _ h => h.like hn
  have hfold {x : Expr} (hx : (Entry.here, x) ∈ e.children) : x.foldable = true :=
    Expr.foldable_of_isConstant (Expr.isConstant_child he hx)
  cases e with
  | literal v t =>
    refine .pure fun w' _ => ?_
    cases hv : v.isContainer with
    | false => exact .inl (.plain hv)
    | true => exact .inr ⟨hv, rfl⟩
  | operator form op operands =>
    have hop := (Bool.and_eq_true_iff.mp he).1
    have hm {x : Expr} (hx : x ∈ operands) :
        (Entry.here, x) ∈ (Expr.operator form op operands).children := List.mem_map_of_mem hx
    -- An operator may look into its operands, so that none of them may be a container.
    have hn : operands.any Expr.exposes = false := by
      have hall : operands.all Expr.foldable = true := List.all_eq_true.mpr fun x hx => hfold (hm hx)
      rwa [Expr.readsContainer, hop, hall] at hd
    have ho : List.Forall₂ (C.Steps w m m' env env') operands operands :=
      List.forall₂_same.mpr fun x hx => like (hm hx) <|
        Bool.eq_false_iff.mpr (List.any_eq_false.mp hn x hx)
    exact (runs_evalOperator _ (fun _ _ _ _ ha => runs_pure hop hf ha) ho).weaken
      fun _ _ _ _ => .inl
  | logical op a b =>
    have ha : (Entry.here, a) ∈ (Expr.logical op a b).children := by simp [Expr.children]
    have hb : (Entry.here, b) ∈ (Expr.logical op a b).children := by simp [Expr.children]
    rw [Expr.readsContainer, hfold ha] at hd
    obtain ⟨hna, hnb⟩ := Bool.or_eq_false_iff.mp hd
    exact (runs_evalLogical op (like ha hna) (like hb hnb)).weaken fun _ _ _ _ => .inl
  | conditional c a b =>
    have hc : (Entry.here, c) ∈ (Expr.conditional c a b).children := by simp [Expr.children]
    refine (runs_truthOf (like hc hd)).bind ?_
    rintro w₁ hw₁ p _ rfl
    have hp : Runs w₁ (fun w => Value.Rough (Expr.conditional c a b).exposes (C.links w))
        (m.eval env (if p then a else b)) fun k => (m' k).eval env' (if p then a else b) := by
      rw [Expr.exposes, hfold hc]
      cases p
      · exact (here (by simp [Expr.children]) w₁).weaken fun _ _ _ _ h =>
          h.imp fun h => Bool.or_eq_true_iff.mpr (.inr h)
      · exact (here (by simp [Expr.children]) w₁).weaken fun _ _ _ _ h =>
          h.imp fun h => Bool.or_eq_true_iff.mpr (.inl h)
    refine hp.bind fun w₂ _ v v' hv => ?_
    exact .ofExcept (hv.castNoting _ _) fun _ hw _ _ h => h.mono (C.links_mono hw)
  | sequence items =>
    have hm {x : Expr} (hx : x ∈ items) : (Entry.here, x) ∈ (Expr.sequence items).children :=
      List.mem_map_of_mem hx
    refine runs_constantSequence ?_ fun x hx => here (hm hx)
    rw [Expr.allFoldable_eq_all, List.all_eq_true]
    exact fun x hx => hfold (hm hx)
  | before a b =>
    have ha : (Entry.here, a) ∈ (Expr.before a b).children := by simp [Expr.children]
    have hb : (Entry.here, b) ∈ (Expr.before a b).children := by simp [Expr.children]
    rw [Expr.exposes, hfold hb, Bool.and_true]
    refine (here ha w).bind fun w₁ hw₁ v v' hv => (here hb w₁).bind fun w₂ hw₂ _ _ _ => ?_
    exact .pure fun w₃ hw₃ => hv.mono (C.links_mono (hw₂.trans hw₃))
  | cast t x =>
    have hx : (Entry.here, x) ∈ (Expr.cast t x).children := by simp [Expr.children]
    refine (here hx w).bind fun w₁ _ v v' hv => ?_
    exact .ofExcept (hv.cast t) fun _ hw _ _ h => h.mono (C.links_mono hw)
  | instanceOf x t =>
    have hx : (Entry.here, x) ∈ (Expr.instanceOf x t).children := by simp [Expr.children]
    refine (here hx w).bind fun w₁ _ v v' hv => ?_
    rw [hv.isInstance_eq t]
    exact .pure fun _ _ => .inl (.plain rfl)
  | _ => cases he

/-- A constant evaluates alike on any two hosts, in any frames and in any two stores. The containers
that literals hold need not be alike, since nothing looks into them. -/
theorem runs_constant {host host' : Host} {layouts : List Layout} {n : Nat} {g : Nat → Nat}
    (hg : C.Fuels n g) (he : e.isConstant = true)
    (hs : Expr.Everywhere (fun _ => Expr.Sound) layouts e) :
    Runs w (fun w => Value.Rough e.exposes (C.links w)) (eval host n env e)
      fun k => eval host' (g k) env' e := by
  -- By induction on the fuel. The children of a constant are constants, and run with one unit less.
  induction n generalizing e layouts w g with
  | zero => exact .exhausted hg (y := fun _ k => eval host' k env' e) fun _ => rfl
  | succ n ih =>
    refine .fueled (x := fun n => eval host n env e) (y := fun _ k => eval host' k env' e) hg rfl
      (fun _ => rfl) ?_
    rintro _ g ⟨⟩ hg
    have here {x : Expr} (hx : (Entry.here, x) ∈ e.children) (w : C.World) :
        C.Settles w (.ofFuel host n) (fun k => .ofFuel host' (g k)) env env' x :=
      ih hg (Expr.isConstant_child he hx) (hs.child hx)
    exact runs_constantNode hg he hs.holds.discreet here

end Correspondence

/-- Stores of runs that have nothing in common. What is known of the second one is kept when it makes a
list. -/
def Correspondence.apart (lax : Bool) (kept : Store → Prop)
    (push : ∀ s items, kept s → kept { s with sequences := s.sequences.push items }) :
    Correspondence where
  World := Links
  order := inferInstance
  links := id
  links_mono h := h
  strict := false
  lax := lax
  good ρ s s' := ρ.Bounded s.sequences.size s'.sequences.size ∧ Store.Contents ρ s s' ∧ kept s'
  contents h := h.2.1
  newSequence := by
    rintro ρ s s' items items' ⟨hb, hc, hk⟩ hi
    obtain ⟨σ, hσ, hg, hr, honly⟩ := hb.push
    refine ⟨σ, hσ, hr, ?_, hc.newSequence hσ hr honly hi, push s' items' hk⟩
    simpa only [Array.size_push] using hg

theorem Correspondence.good_apart {lax : Bool} {kept : Store → Prop}
    {push : ∀ s items, kept s → kept { s with sequences := s.sequences.push items }} {s s' : Store}
    (h : kept s') : (apart lax kept push).good Links.none s s' :=
  ⟨fun _ _ h => h.elim, ⟨fun h => h.elim, fun h => h.elim, fun h => h.elim⟩, h⟩

/-- What is known of the value of a constant: it has the type of the constant, and evaluation yields
it in all frames and stores, making at most some lists. -/
structure Expr.Denotes (host : Host) (e : Expr) (v : Value) : Prop where
  conforms : e.type.Conforms v
  eval : ∀ env s, ∃ more, ∀ᶠ k in atTop,
    eval host k env e s = .ok v { s with sequences := s.sequences ++ more }

end ExprCore
