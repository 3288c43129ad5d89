import ExprCore.Proofs.Upkeep.Evaluation

/-!
Growth along runs. Whatever is evaluated, the store has grown afterwards, with as much fuel as one likes
and whether evaluation succeeds or not.
-/

namespace ExprCore
set_option autoImplicit false

structure Run.Growing {α : Type} (x : Run α) : Prop where
  ok : ∀ {s a s'}, x s = .ok a s' → s.Grows s'
  error : ∀ {s h s'}, x s = .error h s' → s.Grows s'

namespace Upkeep

/-- Growth since a store, however runs end. -/
def growth (s₀ : Store) : Upkeep :=
  ⟨s₀.Grows, fun _ => True, fun _ => True, fun _ => True, fun _ => True, fun _ => True⟩

theorem code_growth (s₀ : Store) {ε α : Type} {own : ε → Prop} (h : ∀ e, own e) (a : HostAction ε α) :
    (growth s₀).code own a :=
  a.failsAs_of_all (fun _ => trivial) h

theorem growth_lawful (s₀ : Store) : (growth s₀).Lawful where
  grows hs h _ := hs.trans h
  function _ _ := trivial
  newFunction {s f} hs _ := by
    refine hs.trans ⟨le_rfl, le_rfl, le_rfl, le_rfl, ?_, id⟩
    rw [Array.toList_push]
    exact List.prefix_append _ _
  failure _ := trivial
  halt_of_fault _ := trivial
  native _ _ := code_growth s₀ (fun _ => trivial) _
  builtIn _ := trivial
  host _ _ := code_growth s₀ (fun _ => trivial) _
  closure _ := trivial
  child _ _ := trivial
  body_of_tree _ := trivial
  inner _ _ := trivial
  operation _ _ := trivial
  lambda _ _ := trivial
  earlyReturn _ _ := trivial

theorem hosts_growth (s₀ : Store) (host : Host) : (growth s₀).Hosts host := fun _ =>
  have hall {α : Type} (a : HostAction HostFault α) := code_growth s₀ (fun _ => trivial) a
  { construct := fun _ => hall _
    getStatic := fun _ => hall _
    setStatic := fun _ _ => hall _
    invokeStatic := fun _ _ => hall _
    getField := fun _ _ => hall _
    setField := fun _ _ _ => hall _
    invokeMethod := fun _ _ _ => hall _ }

theorem growing_of_keeps {α : Type} {x : Run α} (h : ∀ s₀, (growth s₀).Keeps x) : Run.Growing x where
  ok {s _ _} hx := (h s).ok (.refl s) hx
  error {s _ _} hx := ((h s).error (.refl s) hx).1

end Upkeep

theorem growing_eval (host : Host) (n : Nat) (env : Env) (e : Expr) : Run.Growing (eval host n env e) :=
  Upkeep.growing_of_keeps fun s₀ =>
    Upkeep.keeps_eval (Upkeep.growth_lawful s₀) (Upkeep.hosts_growth s₀ host) n env trivial

end ExprCore
