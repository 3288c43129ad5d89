import ExprCore.Expr.Pass
import ExprCore.Expr.Size
import ExprCore.Expr.Typing
import Mathlib.Data.List.Basic

/-!
Trees by their children. Each child stands in the frames of its parent or is entered through a new
one, so that what holds of all nodes can be said of a node in its frames, and a pass is what it does
to a node whose children it has revised.
-/

namespace ExprCore
set_option autoImplicit false

/-- How a child of a node is entered. -/
inductive Entry where
  | here
  /-- In a new frame, each time that the parent is evaluated. -/
  | block (layout : Layout)
  /-- In a new frame, when a function is called. -/
  | function (layout : Layout)

/-- The layouts of the frames that a child is evaluated in, where its parent is evaluated in frames
with the given ones. -/
def Entry.push (layouts : List Layout) : Entry → List Layout
  | .here => layouts
  | .block layout | .function layout => layout :: layouts

namespace Expr

def children : Expr → List (Entry × Expr)
  | .literal .. | .name _ | .var _ | .scopeRef _ | .staticField .. => []
  | .operator _ _ operands => operands.map (.here, ·)
  | .logical _ lhs rhs => [(.here, lhs), (.here, rhs)]
  | .conditional cond thenBranch elseBranch =>
    [(.here, cond), (.here, thenBranch), (.here, elseBranch)]
  | .sequence items | .arrayLiteral _ items | .listLiteral _ items => items.map (.here, ·)
  | .before first second => [(.here, first), (.here, second)]
  | .cast _ operand | .instanceOf operand _ => [(.here, operand)]
  | .assign _ target value | .compound _ target value _ => [(.here, target), (.here, value)]
  | .step _ target => [(.here, target)]
  | .index base key => [(.here, base), (.here, key)]
  | .slice base lo hi => [(.here, base), (.here, lo), (.here, hi)]
  | .member _ object _ => [(.here, object)]
  | .methodCall receiver _ args => (.here, receiver) :: args.map (.here, ·)
  | .staticCall _ _ args | .new _ args => args.map (.here, ·)
  | .apply callee args => (.here, callee) :: args.map (.here, ·)
  | .lambda signature body => [(.function signature.layout, body)]
  | .block layout body _ => body.map (.block layout, ·)
  | .earlyReturn value | .raise value => [(.here, value)]
  | .arrayAlloc _ length => [(.here, length)]
  | .extendList list _ items => (.here, list) :: items.map (.here, ·)
  | .mapLiteral _ entries => entries.flatMap fun (key, value) => [(.here, key), (.here, value)]
  | .extendMap map _ entries =>
    (.here, map) :: entries.flatMap fun (key, value) => [(.here, key), (.here, value)]
  | .loop cond body => [(.here, cond), (.here, body)]
  | .tryCatch body binding handler => [(.here, body), (.here, binding), (.here, handler)]

/-- The node with other subexpressions in place of its own. -/
def mapChildren (f : Entry → Expr → Expr) : Expr → Expr
  | .literal v t => .literal v t
  | .name n => .name n
  | .var binding => .var binding
  | .scopeRef hops => .scopeRef hops
  | .operator form op operands => .operator form op (operands.map (f .here))
  | .logical op lhs rhs => .logical op (f .here lhs) (f .here rhs)
  | .conditional cond thenBranch elseBranch =>
    .conditional (f .here cond) (f .here thenBranch) (f .here elseBranch)
  | .sequence items => .sequence (items.map (f .here))
  | .before first second => .before (f .here first) (f .here second)
  | .cast target operand => .cast target (f .here operand)
  | .instanceOf operand target => .instanceOf (f .here operand) target
  | .assign mode target value => .assign mode (f .here target) (f .here value)
  | .compound op target value result => .compound op (f .here target) (f .here value) result
  | .step kind target => .step kind (f .here target)
  | .index base key => .index (f .here base) (f .here key)
  | .slice base lo hi => .slice (f .here base) (f .here lo) (f .here hi)
  | .member kind object field => .member kind (f .here object) field
  | .staticField className field => .staticField className field
  | .methodCall receiver method args =>
    .methodCall (f .here receiver) method (args.map (f .here))
  | .staticCall className method args => .staticCall className method (args.map (f .here))
  | .new className args => .new className (args.map (f .here))
  | .apply callee args => .apply (f .here callee) (args.map (f .here))
  | .lambda signature body => .lambda signature (f (.function signature.layout) body)
  | .block layout body ret => .block layout (body.map (f (.block layout))) ret
  | .earlyReturn value => .earlyReturn (f .here value)
  | .arrayLiteral elem items => .arrayLiteral elem (items.map (f .here))
  | .arrayAlloc elem length => .arrayAlloc elem (f .here length)
  | .listLiteral elem items => .listLiteral elem (items.map (f .here))
  | .extendList list elem items => .extendList (f .here list) elem (items.map (f .here))
  | .mapLiteral value entries =>
    .mapLiteral value (entries.map fun (key, v) => (f .here key, f .here v))
  | .extendMap map value entries =>
    .extendMap (f .here map) value (entries.map fun (key, v) => (f .here key, f .here v))
  | .loop cond body => .loop (f .here cond) (f .here body)
  | .tryCatch body binding handler =>
    .tryCatch (f .here body) (f .here binding) (f .here handler)
  | .raise message => .raise (f .here message)

/-- The subexpressions that a node assigns to. -/
def targets : Expr → List Expr
  | .assign _ target _ | .compound _ target _ _ | .step _ target => [target]
  | .tryCatch _ binding _ => [binding]
  | _ => []

theorem target_mem_children {e target : Expr} (h : target ∈ e.targets) :
    (Entry.here, target) ∈ e.children := by
  cases e with
  | assign | compound | step | tryCatch =>
    obtain rfl := List.mem_singleton.mp h
    simp [children]
  | _ => cases h

/-- The operation that a node applies, if it applies one. -/
def operation? : Expr → Option Operation
  | .operator _ op _ | .compound op _ _ _ => some op
  | _ => none

variable {f g : Entry → Expr → Expr}

theorem key_mem {x : Expr × Expr} {xs : List (Expr × Expr)} (h : x ∈ xs) :
    (Entry.here, x.1) ∈ xs.flatMap fun (key, value) => [(Entry.here, key), (Entry.here, value)] :=
  List.mem_flatMap.mpr ⟨x, h, List.mem_cons_self⟩

theorem value_mem {x : Expr × Expr} {xs : List (Expr × Expr)} (h : x ∈ xs) :
    (Entry.here, x.2) ∈ xs.flatMap fun (key, value) => [(Entry.here, key), (Entry.here, value)] :=
  List.mem_flatMap.mpr ⟨x, h, List.mem_cons_of_mem _ List.mem_cons_self⟩

theorem mapChildren_congr {e : Expr} (h : ∀ x ∈ e.children, f x.1 x.2 = g x.1 x.2) :
    e.mapChildren f = e.mapChildren g := by
  cases e with
  | mapLiteral t xs =>
    refine congrArg (mapLiteral t) (List.map_congr_left fun x hx => ?_)
    exact congrArg₂ Prod.mk (h _ (key_mem hx)) (h _ (value_mem hx))
  | extendMap map t xs =>
    have hm : f .here map = g .here map := h (.here, map) List.mem_cons_self
    refine congrArg₂ (extendMap · t ·) hm (List.map_congr_left fun x hx => ?_)
    exact congrArg₂ Prod.mk (h _ (List.mem_cons_of_mem _ (key_mem hx)))
      (h _ (List.mem_cons_of_mem _ (value_mem hx)))
  | _ => simp_all [mapChildren, children]

theorem size_pos (e : Expr) : 0 < e.size := by
  cases e <;> simp [size]

theorem mapChildren_id (e : Expr) : e.mapChildren (fun _ x => x) = e := by
  cases e <;> simp [mapChildren]

theorem mapChildren_mapChildren (e : Expr) :
    (e.mapChildren f).mapChildren g = e.mapChildren fun entry x => g entry (f entry x) := by
  cases e <;> simp [mapChildren, Function.comp_def]

theorem children_mapChildren (e : Expr) :
    (e.mapChildren f).children = e.children.map fun x => (x.1, f x.1 x.2) := by
  cases e <;>
    simp [mapChildren, children, Function.comp_def, List.flatMap_map, List.map_flatMap]

theorem operation?_mapChildren (e : Expr) : (e.mapChildren f).operation? = e.operation? := by
  cases e <;> rfl

theorem targets_mapChildren (e : Expr) :
    (e.mapChildren f).targets = e.targets.map (f .here) := by
  cases e <;> rfl

theorem isAssignable_mapChildren (e : Expr) :
    (e.mapChildren f).isAssignable = e.isAssignable := by
  cases e <;> rfl

theorem lastType_map {h k : Expr → Expr} {es : List Expr} (ht : ∀ e ∈ es, (h e).type = (k e).type) :
    lastType (es.map h) = lastType (es.map k) := by
  induction es with
  | nil => rfl
  | cons e es ih =>
    cases es with
    | nil => exact ht e List.mem_cons_self
    | cons a es => exact ih fun x hx => ht x (List.mem_cons_of_mem e hx)

theorem type_mapChildren_congr {e : Expr}
    (h : ∀ x ∈ e.children, x.1 = .here → (f x.1 x.2).type = (g x.1 x.2).type) :
    (e.mapChildren f).type = (e.mapChildren g).type := by
  have here (x : Expr) (hx : (Entry.here, x) ∈ e.children) : (f .here x).type = (g .here x).type :=
    h _ hx rfl
  cases e with
  | operator form op operands =>
    have hm : (operands.map (f .here)).map type = (operands.map (g .here)).map type := by
      rw [List.map_map, List.map_map]
      exact List.map_congr_left fun x hx => here x (List.mem_map_of_mem hx)
    simp only [mapChildren, type, types_eq_map, hm]
  | sequence items => exact lastType_map fun x hx => here x (List.mem_map_of_mem hx)
  | conditional _ a b =>
    simp only [mapChildren, type, here a (by simp [children]), here b (by simp [children])]
  | before a _ => exact here a (by simp [children])
  | assign _ a _ => exact here a (by simp [children])
  | step _ a => exact here a (by simp [children])
  | compound op a b t =>
    simp only [mapChildren, type, here a (by simp [children]), here b (by simp [children])]
  | index a _ => simp only [mapChildren, type, here a (by simp [children])]
  | slice a _ _ => simp only [mapChildren, type, here a (by simp [children])]
  | member _ a _ => simp only [mapChildren, type, here a (by simp [children])]
  | apply a _ => simp only [mapChildren, type, here a (by simp [children])]
  | tryCatch a _ b =>
    simp only [mapChildren, type, here a (by simp [children]), here b (by simp [children])]
  | _ => rfl

theorem type_mapChildren {e : Expr}
    (h : ∀ x ∈ e.children, x.1 = .here → (f x.1 x.2).type = x.2.type) :
    (e.mapChildren f).type = e.type := by
  rw [type_mapChildren_congr (g := fun _ x => x) h, mapChildren_id]

theorem size_le_sizes {e : Expr} {es : List Expr} (h : e ∈ es) : e.size ≤ sizes es := by
  induction es with
  | nil => cases h
  | cons a es ih =>
    rw [sizes]
    rcases List.mem_cons.mp h with rfl | h
    · omega
    · have := ih h
      omega

theorem size_le_entrySizes {x : Expr × Expr} {xs : List (Expr × Expr)} (h : x ∈ xs) :
    x.1.size + x.2.size ≤ entrySizes xs := by
  induction xs with
  | nil => cases h
  | cons a xs ih =>
    rw [entrySizes]
    rcases List.mem_cons.mp h with rfl | h
    · omega
    · have := ih h
      omega

theorem size_child_lt {e : Expr} {x : Entry × Expr} (h : x ∈ e.children) :
    x.2.size < e.size := by
  have hall {entry : Entry} {es : List Expr} (h : x ∈ es.map (entry, ·)) :
      x.2.size ≤ sizes es := by
    obtain ⟨y, hy, rfl⟩ := List.mem_map.mp h
    exact size_le_sizes hy
  have hentries {xs : List (Expr × Expr)}
      (h : x ∈ xs.flatMap fun (key, value) => [(Entry.here, key), (Entry.here, value)]) :
      x.2.size ≤ entrySizes xs := by
    obtain ⟨y, hy, hx⟩ := List.mem_flatMap.mp h
    have hs := size_le_entrySizes hy
    simp only [List.mem_cons, List.not_mem_nil, or_false] at hx
    rcases hx with rfl | rfl <;> dsimp only <;> omega
  cases e with
  | literal | name | var | scopeRef | staticField => cases h
  | operator | sequence | arrayLiteral | listLiteral | staticCall | new | block =>
    have := hall h
    simp only [size]
    omega
  | methodCall | apply | extendList =>
    simp only [children, List.mem_cons] at h
    simp only [size]
    rcases h with rfl | h
    · dsimp only; omega
    · have := hall h
      omega
  | mapLiteral =>
    have := hentries h
    simp only [size]
    omega
  | extendMap =>
    simp only [children, List.mem_cons] at h
    simp only [size]
    rcases h with rfl | h
    · dsimp only; omega
    · have := hentries h
      omega
  | _ =>
    simp only [children, List.mem_cons, List.not_mem_nil, or_false] at h
    simp only [size]
    rcases h with rfl | rfl | rfl <;> dsimp only <;> omega

/-- Induction over trees: a property of all trees holds if it passes from children to parents. -/
theorem childInduction {motive : Expr → Prop}
    (step : ∀ e, (∀ x ∈ e.children, motive x.2) → motive e) (e : Expr) : motive e := by
  induction hn : e.size using Nat.strongRecOn generalizing e with
  | _ n ih =>
    subst hn
    exact step e fun x hx => ih x.2.size (size_child_lt hx) x.2 rfl

/-- What holds at every node of a tree, each in the frames that it stands in. -/
inductive Everywhere (p : List Layout → Expr → Prop) : List Layout → Expr → Prop where
  | intro {layouts : List Layout} {e : Expr} (h : p layouts e)
    (hc : ∀ x ∈ e.children, Everywhere p (x.1.push layouts) x.2) : Everywhere p layouts e

namespace Everywhere

variable {p q : List Layout → Expr → Prop} {layouts : List Layout} {e : Expr}

theorem holds (h : Everywhere p layouts e) : p layouts e := by
  cases h
  assumption

theorem node (h : p layouts e)
    (hc : e.children.Forall fun x => Everywhere p (x.1.push layouts) x.2) :
    Everywhere p layouts e :=
  .intro h (List.forall_iff_forall_mem.mp hc)

theorem child (h : Everywhere p layouts e) {x : Entry × Expr} (hx : x ∈ e.children) :
    Everywhere p (x.1.push layouts) x.2 := by
  cases h with
  | intro _ hc => exact hc x hx

theorem imp (hpq : ∀ ls e, p ls e → q ls e) (h : Everywhere p layouts e) :
    Everywhere q layouts e := by
  induction h with
  | intro hp _ ih => exact .intro (hpq _ _ hp) ih

theorem and (h : Everywhere p layouts e) (g : Everywhere q layouts e) :
    Everywhere (fun ls e => p ls e ∧ q ls e) layouts e := by
  induction h with
  | intro hp _ ih => exact .intro ⟨hp, g.holds⟩ fun x hx => ih x hx (g.child hx)

theorem mapChildren {f : Entry → Expr → Expr} (h : p layouts (e.mapChildren f))
    (hc : ∀ x ∈ e.children, Everywhere p (x.1.push layouts) (f x.1 x.2)) :
    Everywhere p layouts (e.mapChildren f) := by
  refine .intro h fun y hy => ?_
  rw [children_mapChildren] at hy
  obtain ⟨x, hx, rfl⟩ := List.mem_map.mp hy
  exact hc x hx

end Everywhere

end Expr

namespace Pass

variable {γ : Type} (p : Pass γ) (c : γ)

def enter (c : γ) : Entry → γ
  | .here => c
  | .block layout => p.enterBlock c layout
  | .function layout => p.enterFunction c layout

theorem value_reviseAll (es : List Expr) :
    (p.reviseAll c es).value = es.map fun e => (p.revise c e).value := by
  induction es with
  | nil => rfl
  | cons e es ih => simp only [reviseAll, Revised.value_bind, Revised.value_pure, ih, List.map_cons]

theorem value_reviseEntries (xs : List (Expr × Expr)) :
    (p.reviseEntries c xs).value =
      xs.map fun (key, value) => ((p.revise c key).value, (p.revise c value).value) := by
  induction xs with
  | nil => rfl
  | cons x xs ih =>
    simp only [reviseEntries, Revised.value_bind, Revised.value_pure, ih, List.map_cons]

/-- A pass revises the children of a node and then does its step at the node. -/
theorem value_revise (e : Expr) :
    (p.revise c e).value =
      (p.rule c (e.mapChildren fun entry x => (p.revise (p.enter c entry) x).value)).value := by
  cases e <;>
    simp only [revise, Revised.value_bind, value_reviseAll, value_reviseEntries,
      Expr.mapChildren, enter]

end Pass

end ExprCore
