import ExprCore.Proofs.Trees
import ExprCore.Resolve

/-!
Resolution by the children of nodes. A name becomes a slot of the frame that declares it, with the
type of the slot; nothing else of a tree changes, and a tree without free names is its own
resolution.
-/

namespace ExprCore
set_option autoImplicit false

namespace Layout

theorem lookup?_spec {layout : Layout} {name : String} {address : Nat} {slot : Slot}
    (h : layout.lookup? name = some (address, slot)) :
    layout[address]? = some slot ∧ slot.name = name := by
  induction layout generalizing address slot with
  | nil => cases h
  | cons first layout ih =>
    rw [lookup?] at h
    cases hl : Layout.lookup? name layout with
    | some found =>
      rw [hl] at h
      cases h
      exact ih hl
    | none =>
      rw [hl] at h
      simp only at h
      split at h
      · cases h
        exact ⟨rfl, ‹_›⟩
      · cases h

end Layout

theorem Env.cell?_eq_some {env : Env} {depth address : Nat} {r : Ref}
    (h : env.cell? depth address = some r) :
    ∃ frame, env[depth]? = some frame ∧ address < frame.layout.length ∧ frame.base + address = r := by
  unfold cell? at h
  cases hf : env[depth]? with
  | none => rw [hf] at h; cases h
  | some frame =>
    rw [hf] at h
    simp only at h
    split at h
    · exact ⟨frame, rfl, ‹_›, Option.some.inj h⟩
    · cases h

/-- A slot that has the type of the binding, where there is one. -/
def Binding.Fits (layouts : List Layout) (b : Binding) : Prop :=
  ∀ layout slot, layouts[b.depth]? = some layout → layout[b.address]? = some slot →
    slot.type = b.type

namespace Scope

def layouts (s : Scope) : List Layout := s.map ScopeFrame.layout

def enter (s : Scope) : Entry → Scope
  | .here => s
  | .block layout => s.block layout
  | .function layout => s.function layout

theorem layouts_enter (s : Scope) (entry : Entry) :
    (s.enter entry).layouts = entry.push s.layouts := by
  cases entry <;> rfl

theorem bind?_fits {name : String} {frame : ScopeFrame} {depth : Nat} {b : Binding}
    (h : bind? name frame depth = some b) :
    b.depth = depth ∧ ∀ slot, frame.layout[b.address]? = some slot → slot.type = b.type := by
  obtain ⟨⟨address, slot⟩, hl, rfl⟩ := Option.map_eq_some_iff.mp h
  refine ⟨rfl, fun other ho => ?_⟩
  rw [(Layout.lookup?_spec hl).1] at ho
  cases ho
  rfl

theorem lookupFrom?_fits {s : Scope} {name : String} {depth : Nat} {b : Binding}
    (h : lookupFrom? name depth s = some b) :
    depth ≤ b.depth ∧ ∀ layout slot, s.layouts[b.depth - depth]? = some layout →
      layout[b.address]? = some slot → slot.type = b.type := by
  induction s generalizing depth with
  | nil => cases h
  | cons frame s ih =>
    rw [lookupFrom?, Option.or_eq_some_iff] at h
    rcases h with h | ⟨-, h⟩
    · obtain ⟨rfl, hf⟩ := bind?_fits h
      refine ⟨Nat.le_refl _, fun layout slot hl => ?_⟩
      rw [Nat.sub_self] at hl
      cases hl
      exact hf slot
    · obtain ⟨hd, hf⟩ := ih h
      refine ⟨by omega, fun layout slot hl => hf layout slot ?_⟩
      rwa [show b.depth - depth = (b.depth - (depth + 1)) + 1 by omega] at hl

theorem lookup?_fits {s : Scope} {name : String} {b : Binding} (h : s.lookup? name = some b) :
    b.Fits s.layouts :=
  (lookupFrom?_fits h).2

theorem lookupAt?_fits {s : Scope} {hops : Nat} {name : String} {b : Binding}
    (h : s.lookupAt? hops name = some b) : b.Fits s.layouts := by
  obtain ⟨frame, hf, hb⟩ := Option.bind_eq_some_iff.mp h
  obtain ⟨rfl, hs⟩ := bind?_fits hb
  intro layout slot hl
  rw [layouts, List.getElem?_map, hf] at hl
  cases hl
  exact hs slot

end Scope

namespace Expr

theorem enter_resolution (maxLevel : Nat) (scope : Scope) (entry : Entry) :
    (resolution maxLevel).enter scope entry = scope.enter entry := by
  cases entry <;> rfl

abbrev resolveChildren (maxLevel : Nat) (scope : Scope) (e : Expr) : Expr :=
  e.mapChildren fun entry x => (x.resolve maxLevel (scope.enter entry)).value

theorem value_resolve (maxLevel : Nat) (scope : Scope) (e : Expr) :
    (e.resolve maxLevel scope).value =
      (Revised.replace (e.resolveChildren maxLevel scope)
        ((e.resolveChildren maxLevel scope).resolveNode? maxLevel scope)).value := by
  rw [resolve, Pass.value_revise]
  simp only [enter_resolution]
  rfl

theorem resolve_cases (maxLevel : Nat) (scope : Scope) (e : Expr) :
    (∃ b, b.Fits scope.layouts ∧ (e.resolve maxLevel scope).value = .var b ∧
      ((∃ n, e = .name n) ∨ ∃ object field, e = .member .classMember object field)) ∨
    (e.resolve maxLevel scope).value = e.resolveChildren maxLevel scope := by
  rw [value_resolve]
  cases e with
  | name n =>
    simp only [mapChildren, resolveNode?]
    cases hl : scope.lookup? n with
    | none => exact .inr rfl
    | some b =>
      by_cases hd : scope.level - b.level ≤ maxLevel
      · exact .inl ⟨b, Scope.lookup?_fits hl, by simp only [if_pos hd]; rfl, .inl ⟨n, rfl⟩⟩
      · exact .inr (by simp only [if_neg hd]; rfl)
  | member kind object field =>
    cases kind with
    | classMember =>
      simp only [mapChildren, resolveNode?]
      generalize ho : (object.resolve maxLevel (scope.enter .here)).value = o
      cases o with
      | scopeRef hops =>
        cases hl : scope.lookupAt? hops field with
        | none => exact .inr (by simp only [member?, hl]; rfl)
        | some b =>
          exact .inl ⟨b, Scope.lookupAt?_fits hl, by simp only [member?, hl]; rfl,
            .inr ⟨object, field, rfl⟩⟩
      | _ => exact .inr rfl
    | hostField | mapEntry => exact .inr rfl
  | _ => exact .inr rfl

/-- The nodes that resolution removes. -/
def isFree : Expr → Bool
  | .name _ | .scopeRef _ => true
  | _ => false

/-- No free name and no placeholder for a scope is left. -/
abbrev Closed (layouts : List Layout) (e : Expr) : Prop :=
  Everywhere (fun _ e => e.isFree = false) layouts e

theorem closed_var (layouts : List Layout) (b : Binding) : Closed layouts (.var b) :=
  .intro rfl fun _ hx => by cases hx

theorem resolve_of_closed {layouts : List Layout} {e : Expr} (h : Closed layouts e)
    (maxLevel : Nat) (scope : Scope) : (e.resolve maxLevel scope).value = e := by
  induction h generalizing scope with
  | @intro layouts e hp hc ih =>
    have he : e.resolveChildren maxLevel scope = e :=
      (mapChildren_congr fun x hx => ih x hx _).trans (mapChildren_id e)
    rw [value_resolve, he]
    cases e with
    | name => cases hp
    | scopeRef => cases hp
    | member kind object field =>
      cases kind with
      | classMember =>
        have ho := (hc (.here, object) List.mem_cons_self).holds
        cases object with
        | scopeRef => cases ho
        | _ => rfl
      | hostField | mapEntry => rfl
    | _ => rfl

theorem isAssignable_resolve {maxLevel : Nat} {scope : Scope} {e : Expr}
    (h : e.isAssignable = true) : (e.resolve maxLevel scope).value.isAssignable = true := by
  rcases resolve_cases maxLevel scope e with ⟨b, -, hb, -⟩ | he
  · rw [hb]
    rfl
  · rw [he, isAssignable_mapChildren, h]

theorem resolve_scopeRef {maxLevel : Nat} {scope : Scope} {e : Expr} {hops : Nat}
    (h : (e.resolve maxLevel scope).value = .scopeRef hops) : e = .scopeRef hops := by
  rcases resolve_cases maxLevel scope e with ⟨b, -, hb, -⟩ | he
  · rw [hb] at h
    cases h
  · rw [he] at h
    cases e <;> cases h
    rfl

/-- Nodes that resolution leaves as they are, apart from their children. -/
def Keeps (f : Entry → Expr → Expr) : Expr → Prop
  | .name _ => False
  | .member _ object _ => ∀ hops, f .here object ≠ .scopeRef hops
  | _ => True

/-- Resolution in several passes, each with its own scope. -/
abbrev Stages := List (Nat × Scope)

def Stages.enter (stages : Stages) (entry : Entry) : Stages :=
  stages.map fun stage => (stage.1, stage.2.enter entry)

def resolveAll (stages : Stages) (e : Expr) : Expr :=
  stages.foldl (fun e stage => (e.resolve stage.1 stage.2).value) e

theorem resolveAll_of_closed {layouts : List Layout} {e : Expr} (h : Closed layouts e)
    (stages : Stages) : e.resolveAll stages = e := by
  induction stages with
  | nil => rfl
  | cons stage stages ih =>
    rw [resolveAll, List.foldl_cons, resolve_of_closed h]
    exact ih

theorem Stages.enter_here (stages : Stages) : stages.enter .here = stages :=
  List.map_id _

theorem resolveAll_name (stages : Stages) (n : String) :
    (∃ b, Expr.resolveAll stages (.name n) = .var b) ∨
      Expr.resolveAll stages (.name n) = .name n := by
  induction stages with
  | nil => exact .inr rfl
  | cons stage stages ih =>
    rw [resolveAll, List.foldl_cons]
    rcases resolve_cases stage.1 stage.2 (.name n) with ⟨b, -, hb, -⟩ | he
    · rw [hb]
      exact .inl ⟨b, resolveAll_of_closed (closed_var [] b) stages⟩
    · rw [he]
      exact ih

end Expr

end ExprCore
