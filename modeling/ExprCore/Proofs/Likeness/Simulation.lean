import ExprCore.Proofs.Likeness.Simplified
import ExprCore.Proofs.Lookup

/-!
Whole runs of trees beside runs of the simplified trees. The two sides may be numbered either way; in
both cases a run is matched with any fuel that suffices, by induction on the fuel of the left side and,
within a tree, on the tree.
-/

namespace ExprCore
set_option autoImplicit false

open Filter
open Correspondence (Runs Ends)

namespace Expr

/-- The passes that bind a child of a node that is bound in the given passes. The body of a function
goes through one more, when the function is made in frames with the given layouts. -/
def Stages.within (layouts : List Layout) (stages : Stages) : Entry → Stages
  | .function layout =>
    stages.enter (.function layout) ++ [(1, (Scope.flat layouts).function layout)]
  | entry => stages.enter entry

/-- A tree whose nodes keep their types: bound in the given passes, what simplification makes of a node
has the type of the node. -/
inductive Steady (f : Expr → Expr) : List Layout → Stages → Expr → Prop where
  | intro {layouts : List Layout} {stages : Stages} {e : Expr}
    (ht : ((f e).resolveAll stages).type = (e.resolveAll stages).type)
    (hc : ∀ c ∈ e.children, Steady f (c.1.push layouts) (stages.within layouts c.1) c.2) :
    Steady f layouts stages e

theorem Steady.node {f : Expr → Expr} {layouts : List Layout} {stages : Stages} {e : Expr}
    (ht : ((f e).resolveAll stages).type = (e.resolveAll stages).type)
    (hc : e.children.Forall fun c =>
      Steady f (c.1.push layouts) (stages.within layouts c.1) c.2) : Steady f layouts stages e :=
  .intro ht (List.forall_iff_forall_mem.mp hc)

/-- A tree that may be simplified before it is bound in the given passes. -/
structure Bindable (strict : Bool) (known : Links) (f : Expr → Expr) (layouts : List Layout) (stages : Stages)
    (e : Expr) : Prop where
  fits : Everywhere (Fits strict known) layouts e
  sound : Everywhere (fun _ => Sound) layouts e
  placed : Everywhere (fun _ e => e.isScopeRef = false) layouts e
  steady : Steady f layouts stages e
  scopes : ∀ stage ∈ stages, stage.2.layouts = layouts

variable {strict : Bool} {known : Links} {f : Expr → Expr} {layouts : List Layout} {stages : Stages}
  {e : Expr}

theorem Stages.scopes_enter (h : ∀ stage ∈ stages, stage.2.layouts = layouts) (entry : Entry) :
    ∀ stage ∈ stages.enter entry, stage.2.layouts = entry.push layouts := by
  intro stage hs
  obtain ⟨stage, hm, rfl⟩ := List.mem_map.mp hs
  rw [stage.2.layouts_enter, h stage hm]

theorem Stages.scopes_within (h : ∀ stage ∈ stages, stage.2.layouts = layouts) (entry : Entry) :
    ∀ stage ∈ stages.within layouts entry, stage.2.layouts = entry.push layouts := by
  cases entry with
  | here => exact Stages.scopes_enter h .here
  | block layout => exact Stages.scopes_enter h (.block layout)
  | function layout =>
    intro stage hs
    rcases List.mem_append.mp hs with hs | hs
    · exact Stages.scopes_enter h (.function layout) stage hs
    · obtain rfl := List.mem_singleton.mp hs
      exact congrArg (layout :: ·) (Scope.layouts_flat layouts)

theorem Stages.within_here : stages.within layouts .here = stages := Stages.enter_here stages

theorem Bindable.child (h : Bindable strict known f layouts stages e) {c : Entry × Expr}
    (hc : c ∈ e.children) :
    Bindable strict known f (c.1.push layouts) (stages.within layouts c.1) c.2 where
  fits := h.fits.child hc
  sound := h.sound.child hc
  placed := h.placed.child hc
  steady := by
    cases h.steady with
    | intro _ hs => exact hs c hc
  scopes := Stages.scopes_within h.scopes c.1

theorem Bindable.here (h : Bindable strict known f layouts stages e) {c : Expr}
    (hc : (Entry.here, c) ∈ e.children) : Bindable strict known f layouts stages c := by
  have hb := h.child hc
  rwa [Stages.within_here] at hb

theorem Bindable.literal (h : Bindable strict known f layouts stages e) {w : World known} (v : Value) (t : Ty)
    (he : e = .literal v t) : Value.Like w.links v v ∧ t.Conforms v := by
  have hv := h.fits.holds
  rw [he] at hv
  exact ⟨Value.Like.mono w.known_le hv, h.sound.holds.literal v t he⟩

theorem Bindable.type_eq (h : Bindable strict known f layouts stages e) :
    ((f e).resolveAll stages).type = (e.resolveAll stages).type := by
  cases h.steady
  assumption

theorem resolveAll_fits (h : Everywhere (Fits strict known) layouts e)
    (hs : ∀ stage ∈ stages, stage.2.layouts = layouts) :
    Everywhere (Fits strict known) layouts (e.resolveAll stages) := by
  induction stages generalizing e with
  | nil => exact h
  | cons stage stages ih =>
    exact ih (resolve_fits h stage.1 (hs stage List.mem_cons_self))
      fun s hm => hs s (List.mem_cons_of_mem _ hm)

variable {value? : Expr → Option Value} {truth : Value → Bool}

theorem Bindable.name (h : Bindable strict known f layouts stages e) {n : String} (he : e = .name n) :
    (e.resolveAll stages).Fits strict known layouts ∧ (e.resolveAll stages).isAssignable = true ∧
      (e.resolveAll stages).children = [] ∧ (e.resolveAll stages).computes = false := by
  have hfits := (resolveAll_fits h.fits h.scopes).holds
  subst he
  rcases resolveAll_name stages n with ⟨b, hb⟩ | hb
  · rw [hb] at hfits ⊢
    exact ⟨hfits, rfl, rfl, rfl⟩
  · rw [hb] at hfits ⊢
    exact ⟨hfits, rfl, rfl, rfl⟩

end Expr

namespace Pairing

variable {P : Pairing} {m : Machine} {m' : Nat → Machine} {layouts : List Layout}
  {f g : Entry → Expr → Expr} {x : Expr}

variable {host : Host} {n : Nat} {e e' : Expr}

/-- The right tree evaluates, with any fuel that suffices, as the left one does with `n` units. -/
def Shadows (P : Pairing) (n : Nat) (layouts : List Layout) (e e' : Expr) : Prop :=
  ∀ (w : World P.known) (env : Env), env.Typed w.cells → env.layouts = layouts →
    P.correspondence.Mirrors P.host n w env e e'

theorem Shadows.zero (hlax : P.lax = true) : P.Shadows 0 layouts e e' :=
  fun _ _ _ _ _ _ s _ _ => .inl ⟨hlax, s, rfl⟩

theorem Shadows.succ (h : ∀ (w : World P.known) (env : Env), env.Typed w.cells →
    env.layouts = layouts → Runs (C := P.correspondence) w (P.correspondence.Faithful e)
      ((Machine.ofFuel P.host n).evalNode env e) fun k => (Machine.ofFuel P.host k).evalNode env e') :
    P.Shadows (n + 1) layouts e e' :=
  fun w env he hl => Runs.of_succ (h w env he hl)

section Directions

variable {f : Expr → Expr} {stages : Expr.Stages} {value? : Expr → Option Value}
  {truth : Value → Bool}

end Directions

end Pairing

/-- Bodies of functions that stand for each other: the same tree, or a tree and what simplification
makes of it, bound in the same passes. -/
inductive Expr.Counterpart (known : Links) (f : Expr → Expr) (layouts : List Layout) :
    Expr → Expr → Prop where
  | same {b : Expr} (h : Everywhere (Fits false known) layouts b) : Counterpart known f layouts b b
  | simplified {stages : Stages} {e : Expr} (h : Bindable false known f layouts stages e) :
    Counterpart known f layouts (e.resolveAll stages) ((f e).resolveAll stages)

namespace Pairing

variable {host : Host} {known : Links} {f : Expr → Expr} {value? : Expr → Option Value}
  {truth : Value → Bool}

/-- Trees on the left, simplified trees on the right. -/
abbrev simplifying (host : Host) (known : Links) (f : Expr → Expr) : Pairing where
  host := host
  known := known
  tree := Expr.Counterpart known f
  linking := .renumbering
  strict := false
  lax := true

/-- Simplified trees on the left. -/
abbrev restoring (host : Host) (known : Links) (f : Expr → Expr) : Pairing :=
  { simplifying host known f with tree := fun layouts b b' => Expr.Counterpart known f layouts b' b }

/-- What is known of two stores, seen from the other one. -/
def flip (hk : known ≤ known.flip) (w : World known) : World known :=
  ⟨w.links.flip, w.cells, fun area r r' h => w.known_le area r' r (hk area r r' h)⟩

theorem Good.flip (hk : known ≤ known.flip) {w : World known} {s s' : Store}
    (h : (restoring host known f).Good w s s') :
    (simplifying host known f).Good (Pairing.flip hk w) s' s where
  contents := h.contents.flip
  linked := ⟨fun r r' hr => (h.linked.1 r' r hr).symm, fun r r' => (h.linked.2.1 r' r).trans eq_comm,
    fun r r' => (h.linked.2.2 r' r).trans eq_comm⟩
  buffers := h.buffers.symm
  maps := h.maps.symm
  cells := h.cells.flip
  typed := by
    have hc := h.cells
    have ht := h.typed
    show List.Forall₂ Ty.Conforms w.cells s'.cells.toList
    generalize s.cells.toList = vs, s'.cells.toList = vs', w.cells = ts at hc ht
    induction ht generalizing vs' with
    | nil => cases hc; exact .nil
    | cons ht _ ih =>
      cases hc with
      | cons hv hvs => exact .cons (hv.conforms ht) (ih _ hvs)
  functions := List.Forall₂.flip <| h.functions.imp fun _ _ ht => by
    cases ht with
    | native h => exact .native h.flip
    | @operator op h => exact .operator h.flip
    | closure hp he hb => exact .closure hp he hb
  objects := h.objects.symm
  members := h.objects ▸ h.members
  records := List.Forall₂.flip (h.records.imp fun _ _ => Value.Likes.flip)
  calls := List.Forall₂.flip (h.calls.imp fun _ _ hc => ⟨hc.name.symm, hc.args.flip⟩)

end Pairing

end ExprCore
