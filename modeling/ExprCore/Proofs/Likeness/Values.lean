import ExprCore.Proofs.Conversion
import ExprCore.Operator.Invoke
import ExprCore.Eval
import Mathlib.Order.Basic

/-!
Values of two stores that are alike. Two runs of one program may put a container at different
addresses; links say which container of one store stands for which of the other, and two values are
alike if they are equal up to links. Everything that is computed from a value is the same for a
value like it, as long as linked containers have like contents.
-/

namespace ExprCore
set_option autoImplicit false

/-- The parts of a store that hold containers. -/
inductive Area where
  | sequence
  | buffer
  | map

/-- Which container of one store stands for which of another. -/
structure Links where
  rel : Area → Ref → Ref → Prop
  oneToOne : ∀ {area : Area} {a a' b b' : Ref}, rel area a a' → rel area b b' → (a = b ↔ a' = b')

namespace Links

instance : Preorder Links where
  le ρ σ := ∀ area r r', ρ.rel area r r' → σ.rel area r r'
  le_refl _ _ _ _ h := h
  le_trans _ _ _ hρ hσ area r r' h := hσ area r r' (hρ area r r' h)

def same : Links := ⟨fun _ r r' => r = r', by rintro _ a a' b b' rfl rfl; rfl⟩

def none : Links := ⟨fun _ _ _ => False, fun h _ => h.elim⟩

/-- The links seen from the other store. -/
def flip (ρ : Links) : Links := ⟨fun area r r' => ρ.rel area r' r, fun h g => (ρ.oneToOne h g).symm⟩

theorem eq_of_same_le {ρ : Links} (h : same ≤ ρ) {area : Area} {r r' : Ref}
    (hr : ρ.rel area r r') : r = r' :=
  (ρ.oneToOne hr (h area r' r' rfl)).mpr rfl

end Links

namespace Value

/-- Equality of values up to links. -/
inductive Like (ρ : Links) : Value → Value → Prop where
  | plain {v : Value} (h : v.isContainer = false) : Like ρ v v
  | buffer {r r' : Ref} (h : ρ.rel .buffer r r') : Like ρ (.buffer r) (.buffer r')
  | list {r r' : Ref} (h : ρ.rel .sequence r r') : Like ρ (.list r) (.list r')
  | array {elem : Ty} {r r' : Ref} (h : ρ.rel .sequence r r') :
    Like ρ (.array elem r) (.array elem r')
  | map {r r' : Ref} (h : ρ.rel .map r r') : Like ρ (.map r) (.map r')

namespace Like

variable {ρ σ : Links} {v w : Value}

theorem mono (hσ : ρ ≤ σ) (h : Like ρ v w) : Like σ v w := by
  cases h with
  | plain h => exact .plain h
  | buffer h => exact .buffer (hσ _ _ _ h)
  | list h => exact .list (hσ _ _ _ h)
  | array h => exact .array (hσ _ _ _ h)
  | map h => exact .map (hσ _ _ _ h)

theorem flip (h : Like ρ v w) : Like ρ.flip w v := by
  cases h with
  | plain h => exact .plain h
  | buffer h => exact .buffer h
  | list h => exact .list h
  | array h => exact .array h
  | map h => exact .map h

theorem eq_of_same_le (hρ : Links.same ≤ ρ) (h : Like ρ v w) : v = w := by
  cases h with
  | plain => rfl
  | buffer h | list h | array h | map h => rw [Links.eq_of_same_le hρ h]

theorem refl_same (v : Value) : Like .same v v := by
  cases v <;> first
    | exact .plain rfl
    | exact .buffer rfl
    | exact .list rfl
    | exact .array rfl
    | exact .map rfl

theorem ty_eq (h : Like ρ v w) : v.ty = w.ty := by cases h <;> rfl

theorem typeName_eq (h : Like ρ v w) : v.typeName = w.typeName := by cases h <;> rfl

theorem isNull_eq (h : Like ρ v w) : v.isNull = w.isNull := by cases h <;> rfl

theorem isVoid_eq (h : Like ρ v w) : v.isVoid = w.isVoid := by cases h <;> rfl

theorem isContainer_eq (h : Like ρ v w) : v.isContainer = w.isContainer := by cases h <;> rfl

theorem truncated?_eq (h : Like ρ v w) : v.truncated? = w.truncated? := by cases h <;> rfl

theorem num_eq (h : Like ρ v w) : Num.of? v = Num.of? w := by cases h <;> rfl

theorem isText_eq (h : Like ρ v w) : Arith.isText v = Arith.isText w := by cases h <;> rfl

theorem toInt_eq (h : Like ρ v w) : v.toInt = w.toInt := by
  rw [toInt, toInt, h.truncated?_eq, h.typeName_eq]

theorem mapKey_eq (h : Like ρ v w) : Indexable.mapKey v = Indexable.mapKey w := by
  cases h <;> rfl

theorem isInstance_eq (h : Like ρ v w) (t : Ty) : v.isInstance t = w.isInstance t := by
  rw [isInstance, isInstance, h.isNull_eq, h.isVoid_eq, h.ty_eq]

theorem eq_of_plain (h : Like ρ v w) (hv : v.isContainer = false) : v = w := by
  cases h <;> first | rfl | cases hv

end Like

abbrev Likes (ρ : Links) : List Value → List Value → Prop := List.Forall₂ (Like ρ)

theorem Likes.mono {ρ σ : Links} (hσ : ρ ≤ σ) {vs ws : List Value} (h : Likes ρ vs ws) :
    Likes σ vs ws := h.imp fun _ _ => Like.mono hσ

theorem Likes.flip {ρ : Links} {vs ws : List Value} (h : Likes ρ vs ws) : Likes ρ.flip ws vs :=
  List.Forall₂.flip (h.imp fun _ _ => Like.flip)

theorem Likes.eq_of_same_le {ρ : Links} (hρ : Links.same ≤ ρ) {vs ws : List Value}
    (h : Likes ρ vs ws) : vs = ws := by
  induction h with
  | nil => rfl
  | cons h _ ih => rw [h.eq_of_same_le hρ, ih]

theorem Likes.refl_same (vs : List Value) : Likes .same vs vs :=
  List.forall₂_same.mpr fun v _ => Like.refl_same v

theorem Likes.tys_eq {ρ : Links} {vs ws : List Value} (h : Likes ρ vs ws) :
    vs.map ty = ws.map ty := by
  induction h with
  | nil => rfl
  | cons h _ ih => rw [List.map_cons, List.map_cons, h.ty_eq, ih]

end Value

abbrev Entries.Like (ρ : Links) : Entries → Entries → Prop :=
  List.Forall₂ fun a b => a.1 = b.1 ∧ Value.Like ρ a.2 b.2

/-- Linked containers have like contents. -/
structure Store.Contents (ρ : Links) (s s' : Store) : Prop where
  items : ∀ {r r'}, ρ.rel .sequence r r' → Value.Likes ρ (s.items r) (s'.items r')
  chars : ∀ {r r'}, ρ.rel .buffer r r' → s.chars r = s'.chars r'
  entries : ∀ {r r'}, ρ.rel .map r r' → Entries.Like ρ (s.entries r) (s'.entries r')

theorem Entries.Like.flip {ρ : Links} {es es' : Entries} (h : Entries.Like ρ es es') :
    Entries.Like ρ.flip es' es :=
  List.Forall₂.flip (h.imp fun _ _ he => ⟨he.1.symm, he.2.flip⟩)

theorem Store.Contents.flip {ρ : Links} {s s' : Store} (h : Store.Contents ρ s s') :
    Store.Contents ρ.flip s' s where
  items hr := (h.items hr).flip
  chars hr := (h.chars hr).symm
  entries hr := (h.entries hr).flip

theorem Store.contents_same (s : Store) : Store.Contents .same s s where
  items := by
    rintro r _ rfl
    exact Value.Likes.refl_same _
  chars := by
    rintro r _ rfl
    rfl
  entries := by
    rintro r _ rfl
    exact List.forall₂_same.mpr fun e _ => ⟨rfl, Value.Like.refl_same e.2⟩

/-- Two outcomes of one computation: like results, or the same failure. -/
inductive Agree {α β : Type} (R : α → β → Prop) : Except EvalError α → Except EvalError β → Prop
  where
  | ok {a : α} {b : β} (h : R a b) : Agree R (.ok a) (.ok b)
  | error {e : EvalError} (h : e.returned? = none) : Agree R (.error e) (.error e)

end ExprCore
