import ExprCore.Proofs.Likeness.Calls
import ExprCore.Proofs.StoreTyping
import ExprCore.Proofs.Watching

/-!
Invariants of evaluation. A discipline tells what is good about stores, values, functions and trees in
a world that only ever grows, and that every single change of the store keeps it. Two computations
that are the same on good stores are compared, so that a watch that does nothing at good moments may
be left out.
-/

namespace ExprCore
set_option autoImplicit false

def Value.isSequence : Value → Bool
  | .list _ | .array .. => true
  | _ => false

/-- What an error returns, if it is an early return, is of a kind. -/
def EvalError.Carries (value : Value → Prop) (e : EvalError) : Prop :=
  ∀ v, e.returned? = some v → value v

def Outcome (value : Value → Prop) : Except EvalError Value → Prop
  | .ok v => value v
  | .error e => e.Carries value

theorem Store.forall_callable {P : Callable → Prop} {s : Store} (hs : ∀ f ∈ s.functions, P f)
    (hdefault : P default) (r : Ref) : P (s.callable r) := by
  unfold Store.callable
  cases hr : s.functions[r]? with
  | none => exact hdefault
  | some f => exact hs f (Array.mem_of_getElem? hr)

section Hosts

def HostOp.values : HostOp → List Value
  | .newList items | .newArray _ items => items
  | .newMap entries => entries.map Prod.snd
  | .writeList r items => .list r :: items
  | .writeElement elem r _ v => [.array elem r, v]
  | .writeMap r entries => .map r :: entries.map Prod.snd
  | .writeMember _ _ v | .display v => [v]
  | .equal v w => [v, w]
  | .newBuffer _ | .newObject .. | .newOperator _ | .writeBuffer .. | .readMember .. => []

def Content.values : Content → List Value
  | .items vs => vs
  | .chars _ => []
  | .entries es => es.map Prod.snd

variable {W : Type} [Preorder W]

/-- Host code that hands on only values that it was given: values that are known where it begins, and
those that calls, operations, containers and its private memory give it later. The native functions
that it makes are of a kind `N`. -/
inductive HostProgram.Honest {ν ε α : Type} (value : W → Value → Prop) (N : W → ν → Prop)
    (E : W → ε → Prop) (R : W → α → Prop) : W → HostProgram ν ε α → Prop where
  | done {w : W} {a : α} (h : R w a) : Honest value N E R w (.done a)
  | fail {w : W} {e : ε} (h : E w e) : Honest value N E R w (.fail e)
  | call {w : W} {f : Ref} {args : List Value} {next : Except EvalError Value → HostProgram ν ε α}
    (ha : ∀ v ∈ args, value w v)
    (h : ∀ w', w ≤ w' → ∀ o, Outcome (value w') o → Honest value N E R w' (next o)) :
    Honest value N E R w (.call f args next)
  | perform {w : W} {op : HostOp} {next : Except EvalError Value → HostProgram ν ε α}
    (hv : ∀ v ∈ op.values, value w v)
    (h : ∀ w', w ≤ w' → ∀ o, Outcome (value w') o → Honest value N E R w' (next o)) :
    Honest value N E R w (.perform op next)
  | newNative {w : W} {f : ν} {next : Value → HostProgram ν ε α} (hf : N w f)
    (h : ∀ w', w ≤ w' → ∀ v, value w' v → Honest value N E R w' (next v)) :
    Honest value N E R w (.newNative f next)
  | look {w : W} {v : Value} {next : Option Content → HostProgram ν ε α}
    (h : ∀ w', w ≤ w' → ∀ c, (∀ content, c = some content → ∀ v ∈ content.values, value w' v) →
      Honest value N E R w' (next c)) :
    Honest value N E R w (.look v next)
  | newRecord {w : W} {fields : List Value} {next : Ref → HostProgram ν ε α}
    (hf : ∀ v ∈ fields, value w v) (h : ∀ w', w ≤ w' → ∀ r, Honest value N E R w' (next r)) :
    Honest value N E R w (.newRecord fields next)
  | readRecord {w : W} {record : Ref} {i : Nat} {next : Value → HostProgram ν ε α}
    (h : ∀ w', w ≤ w' → ∀ v, value w' v → Honest value N E R w' (next v)) :
    Honest value N E R w (.readRecord record i next)
  | writeRecord {w : W} {record : Ref} {i : Nat} {v : Value} {next : Unit → HostProgram ν ε α}
    (hv : value w v) (h : ∀ w', w ≤ w' → Honest value N E R w' (next ())) :
    Honest value N E R w (.writeRecord record i v next)

/-- Bodies that are honest from a world on, and make functions of a kind `N`. -/
def HonestBody (value : W → Value → Prop) (N : W → Native → Prop) (w : W)
    (body : List Value → HostAction EvalError Value) : Prop :=
  ∀ w', w ≤ w' → ∀ args, (∀ v ∈ args, value w' v) →
    (body args).Honest value N (fun w e => e.Carries (value w)) value w'

/-- A native function whose body is honest, from a world on, and so are the functions that it makes. -/
inductive Native.Honest (value : W → Value → Prop) : W → Native → Prop where
  | intro {w : W} {f : Native}
    (h : ∀ w', w ≤ w' → ∀ args, (∀ v ∈ args, value w' v) →
      HostProgram.Honest value (Honest value) (fun w e => e.Carries (value w)) value w'
        (f.body args)) : Honest value w f

/-- An operation that is honest from a world on, as all built-in ones are. -/
def Operation.Honest (value : W → Value → Prop) (w : W) : Operation → Prop
  | .builtIn _ => True
  | .host f => HonestBody value (Native.Honest value) w f.body

abbrev HostProgram.Decent {α : Type} (value : W → Value → Prop) (N : W → Native → Prop)
    (R : W → α → Prop) : W → HostAction HostFault α → Prop :=
  HostProgram.Honest value N (fun _ _ => True) R

/-- A host class whose members are honest. -/
structure HostClass.Honest (value : W → Value → Prop) (N : W → Native → Prop) (c : HostClass) :
    Prop where
  construct : ∀ w args, (∀ v ∈ args, value w v) → (c.construct args).Decent value N value w
  getStatic : ∀ w field, (c.getStatic field).Decent value N value w
  setStatic : ∀ w field v, value w v →
    (c.setStatic field v).Decent value N (fun _ _ => True) w
  invokeStatic : ∀ w method args, (∀ v ∈ args, value w v) →
    (c.invokeStatic method args).Decent value N value w
  getField : ∀ w r field, (c.getField r field).Decent value N value w
  setField : ∀ w r field v, value w v →
    (c.setField r field v).Decent value N (fun _ _ => True) w
  invokeMethod : ∀ w r method args, (∀ v ∈ args, value w v) →
    (c.invokeMethod r method args).Decent value N value w

def Host.Honest (value : W → Value → Prop) (N : W → Native → Prop) (host : Host) : Prop :=
  ∀ className, (host className).Honest value N

variable {value : W → Value → Prop} {N : W → Native → Prop}

theorem Native.Honest.mono {w w' : W} {f : Native} (hw : w ≤ w') (h : f.Honest value w) :
    f.Honest value w' := by
  cases h with
  | intro h => exact .intro fun w₁ hw₁ => h w₁ (hw.trans hw₁)

theorem Operation.Honest.mono {w w' : W} {op : Operation} (hw : w ≤ w') (h : op.Honest value w) :
    op.Honest value w' := by
  cases op with
  | builtIn => trivial
  | host f => exact fun w₁ hw₁ => h w₁ (hw.trans hw₁)

/-- Where every value may be handed on, all host code is honest. -/
theorem HostProgram.honest_of_all {ε α : Type} {E : W → ε → Prop} {R : W → α → Prop}
    (hv : ∀ w v, value w v) (hN : ∀ w f, N w f) (hE : ∀ w e, E w e) (hR : ∀ w r, R w r)
    (a : HostAction ε α) (w : W) : a.Honest value N E R w := by
  induction a generalizing w with
  | done r => exact .done (hR w r)
  | fail e => exact .fail (hE w e)
  | call f args next ih => exact .call (fun v _ => hv w v) fun w' _ o _ => ih o w'
  | perform op next ih => exact .perform (fun v _ => hv w v) fun w' _ o _ => ih o w'
  | newNative f next ih => exact .newNative (hN w f) fun w' _ v _ => ih v w'
  | look v next ih => exact .look fun w' _ c _ => ih c w'
  | newRecord fields next ih => exact .newRecord (fun v _ => hv w v) fun w' _ r => ih r w'
  | readRecord record i next ih => exact .readRecord fun w' _ v _ => ih v w'
  | writeRecord record i v next ih => exact .writeRecord (hv w v) fun w' _ => ih () w'

theorem honestBody_of_all (hv : ∀ w v, value w v) (hN : ∀ w f, N w f)
    (body : List Value → HostAction EvalError Value) (w : W) : HonestBody value N w body :=
  fun w' _ args _ => (body args).honest_of_all hv hN (fun w _ v _ => hv w v) hv w'

theorem Host.honest_of_all (hv : ∀ w v, value w v) (hN : ∀ w f, N w f) (host : Host) :
    host.Honest value N := fun className => by
  have hall {α : Type} {R : W → α → Prop} (hR : ∀ w r, R w r) (a : HostAction HostFault α)
      (w : W) : a.Decent value N R w := a.honest_of_all hv hN (fun _ _ => trivial) hR w
  exact {
    construct := fun w args _ => hall hv _ w
    getStatic := fun w field => hall hv _ w
    setStatic := fun w field v _ => hall (fun _ _ => trivial) _ w
    invokeStatic := fun w method args _ => hall hv _ w
    getField := fun w r field => hall hv _ w
    setField := fun w r field v _ => hall (fun _ _ => trivial) _ w
    invokeMethod := fun w r method args _ => hall hv _ w }

end Hosts

/-- The nodes that write their target as if for the first time, final or not. -/
def Expr.isFirstWrite : Expr → Bool
  | .assign .declare .. | .tryCatch .. => true
  | _ => false

/-- What a discipline says of stores, values, functions and trees. -/
structure Discipline (W : Type) [Preorder W] where
  good : W → Store → Prop
  value : W → Value → Prop
  /-- Cells that may be given values of a type. -/
  slot : W → Ref → Ty → Prop
  callable : W → Callable → Prop
  tree : W → Env → Expr → Prop
  /-- Nodes that hold their types yield values of these types. -/
  typed : Prop

namespace Discipline

variable {W : Type} [Preorder W]

abbrev error (D : Discipline W) (w : W) (e : EvalError) : Prop := e.Carries (D.value w)

/-- Native functions that may be called. -/
abbrev made (D : Discipline W) (w : W) (f : Native) : Prop := D.callable w (.native f)

def result (D : Discipline W) (e : Expr) (w : W) (v : Value) : Prop :=
  D.value w v ∧ (D.typed → e.holdsType = true → e.type.Conforms v)

/-- Every single step keeps what the discipline says. -/
structure Lawful (D : Discipline W) : Prop where
  value_mono {w w' : W} {v : Value} : w ≤ w' → D.value w v → D.value w' v
  slot_mono {w w' : W} {r : Ref} {t : Ty} : w ≤ w' → D.slot w r t → D.slot w' r t
  callable_mono {w w' : W} {f : Callable} : w ≤ w' → D.callable w f → D.callable w' f
  tree_mono {w w' : W} {env : Env} {e : Expr} : w ≤ w' → D.tree w env e → D.tree w' env e
  plain {w : W} {v : Value} : v.isSequence = false → D.value w v
  held {w : W} {s : Store} {v : Value} : D.good w s → s.Holds v → D.value w v
  /-- A child in the frames of its parent. -/
  child {w : W} {env : Env} {e x : Expr} : D.tree w env e → (Entry.here, x) ∈ e.children →
    D.tree w env x
  literal {w : W} {env : Env} {v : Value} {t : Ty} : D.tree w env (.literal v t) →
    D.value w v ∧ (D.typed → t.Conforms v)
  var {w : W} {env : Env} {b : Binding} {r : Ref} {s : Store} : D.typed → D.tree w env (.var b) →
    env.cell? b.depth b.address = some r → D.good w s → b.type.Conforms (s.cell r)
  /-- A slot that a node may write: it is not final, or the node writes it for the first time. -/
  target {w : W} {env : Env} {e : Expr} {b : Binding} {r : Ref} : D.tree w env e →
    .var b ∈ e.targets → b.final = false ∨ e.isFirstWrite = true →
    env.cell? b.depth b.address = some r → D.slot w r b.type
  member {w : W} {s : Store} {r : Ref} {name : String} {cell : Ref} {t : Ty} : D.good w s →
    (s.instanceAt r).member? name = some (cell, t) → D.slot w cell t
  function {w : W} {s : Store} (r : Ref) : D.good w s → D.callable w (s.callable r)
  lambda {w : W} {env : Env} {signature : Signature} {body : Expr} :
    D.tree w env (.lambda signature body) → D.callable w (.closure ⟨signature,
      (body.resolve 1 ((Scope.ofEnv env).function signature.layout)).value, env⟩)
  default {w : W} {f : Closure} {p : Param} {v : Value} : D.callable w (.closure f) →
    p ∈ f.signature.params → p.default = some v → D.value w v
  native {w : W} {f : Native} : D.callable w (.native f) → HonestBody D.value D.made w f.body
  builtIn {w : W} (op : Operator) : D.callable w (.operator (.builtIn op))
  host {w : W} {f : HostOperator} : D.callable w (.operator (.host f)) →
    HonestBody D.value D.made w f.body
  operation {w : W} {env : Env} {e : Expr} {op : Operation} : D.tree w env e →
    e.operation? = some op → D.callable w (.operator op)
  enterBlock {w : W} {env : Env} {layout : Layout} {body : List Expr} {ret : Ty} {s : Store} :
    D.tree w env (.block layout body ret) → D.good w s → ∃ w', w ≤ w' ∧
      D.good w' { s with cells := s.cells ++ layout.map fun slot => slot.type.default } ∧
      ∀ e ∈ body, D.tree w' (⟨layout, s.cells.size⟩ :: env) e
  enterClosure {w : W} {f : Closure} {args : List Value} {s : Store} :
    D.callable w (.closure f) → (Callable.closure f).Takes args → (∀ v ∈ args, D.value w v) →
    D.good w s → ∃ w', w ≤ w' ∧ D.good w' { s with cells := s.cells ++ args } ∧
      D.tree w' (⟨f.signature.layout, s.cells.size⟩ :: f.env) f.body
  writeCell {w : W} {s : Store} {r : Ref} {t : Ty} {v : Value} : D.good w s → D.slot w r t →
    D.value w v → t.Conforms v → D.good w { s with cells := s.cells.setIfInBounds r v }
  newList {w : W} {s : Store} {items : List Value} : D.good w s → (∀ v ∈ items, D.value w v) →
    ∃ w', w ≤ w' ∧ D.good w' { s with sequences := s.sequences.push items } ∧
      D.value w' (.list s.sequences.size)
  newArray {w : W} {s : Store} {elem : Ty} {items : List Value} : D.good w s →
    (∀ v ∈ items, D.value w v) → (∀ v ∈ items, elem.Conforms v) →
    ∃ w', w ≤ w' ∧ D.good w' { s with sequences := s.sequences.push items } ∧
      D.value w' (.array elem s.sequences.size)
  writeList {w : W} {s : Store} {r : Ref} {items : List Value} : D.good w s →
    D.value w (.list r) → (∀ v ∈ items, D.value w v) →
    D.good w { s with sequences := s.sequences.setIfInBounds r items }
  writeArray {w : W} {s : Store} {elem : Ty} {r : Ref} {i : Nat} {v : Value} : D.good w s →
    D.value w (.array elem r) → D.value w v → elem.Conforms v →
    D.good w { s with sequences := s.sequences.setIfInBounds r ((s.items r).set i v) }
  buffers {w : W} {s : Store} {buffers : Array (List Char)} : D.good w s →
    D.good w { s with buffers := buffers }
  maps {w : W} {s : Store} {maps : Array Entries} : D.good w s →
    (∀ entries ∈ maps, ∀ entry ∈ entries, D.value w entry.2) → D.good w { s with maps := maps }
  records {w : W} {s : Store} {records : Array (List Value)} : D.good w s →
    (∀ fields ∈ records, ∀ v ∈ fields, D.value w v) → D.good w { s with records := records }
  newObject {w : W} {s : Store} {className : String} {members : List (String × Ty)} : D.good w s →
    ∃ w', w ≤ w' ∧ D.good w'
      { s with
        cells := s.cells ++ members.map fun (_, type) => type.default
        objects := s.objects.push ⟨className, members, s.cells.size⟩ }
  calls {w : W} {s : Store} {call : Call} : D.good w s → (∀ v ∈ call.args, D.value w v) →
    D.good w { s with calls := call :: s.calls }
  newFunction {w : W} {s : Store} {f : Callable} : D.good w s → D.callable w f →
    D.good w { s with functions := s.functions.push f }

variable {D : Discipline W} {w w₁ : W} {s : Store} {α β : Type} {post : W → α → Prop}
  {post' : W → β → Prop}

/-- The end of a run from a good store: the store is good, and so is what came out. -/
inductive Lands (D : Discipline W) (w : W) (post : W → α → Prop) :
    EStateM.Result Halt Store α → Prop where
  | ok {w' : W} {a : α} {s : Store} (hw : w ≤ w') (hs : D.good w' s) (h : post w' a) :
    Lands D w post (.ok a s)
  | error {w' : W} {h : Halt} {s : Store} (hw : w ≤ w') (hs : D.good w' s)
    (he : ∀ e, h = .error e → D.error w' e) : Lands D w post (.error h s)

/-- Two computations that are the same on a store and land. -/
structure KeepsAt (D : Discipline W) (w : W) (post : W → α → Prop) (s : Store) (x y : Run α) :
    Prop where
  same : x s = y s
  lands : D.Lands w post (y s)

/-- Two computations that are the same on good stores and land, in every world from `w` on. -/
def Keeps (D : Discipline W) (w : W) (post : W → α → Prop) (x y : Run α) : Prop :=
  ∀ w₁, w ≤ w₁ → ∀ s, D.good w₁ s → D.KeepsAt w₁ post s x y

theorem error_mono (hD : D.Lawful) (hw : w ≤ w₁) {e : EvalError} (h : D.error w e) :
    D.error w₁ e := fun v hv => hD.value_mono hw (h v hv)

theorem error_of_failure {e : EvalError} (h : e.returned? = none) : D.error w e := by
  intro v hv
  rw [h] at hv
  cases hv

theorem values_mono (hD : D.Lawful) (hw : w ≤ w₁) {vs : List Value} (h : ∀ v ∈ vs, D.value w v) :
    ∀ v ∈ vs, D.value w₁ v := fun v hv => hD.value_mono hw (h v hv)

theorem Lands.mono {post₁ : W → α → Prop} {r : EStateM.Result Halt Store α}
    (h : D.Lands w₁ post r) (hw : w ≤ w₁) (hp : ∀ w', w₁ ≤ w' → ∀ a, post w' a → post₁ w' a) :
    D.Lands w post₁ r := by
  cases h with
  | ok hw' hs h => exact .ok (hw.trans hw') hs (hp _ hw' _ h)
  | error hw' hs he => exact .error (hw.trans hw') hs he

theorem Keeps.mono {x y : Run α} (h : D.Keeps w post x y) (hw : w ≤ w₁) : D.Keeps w₁ post x y :=
  fun w₂ hw₂ => h w₂ (hw.trans hw₂)

theorem Keeps.weaken {x y : Run α} {post₁ : W → α → Prop} (h : D.Keeps w post x y)
    (hp : ∀ w', w ≤ w' → ∀ a, post w' a → post₁ w' a) : D.Keeps w post₁ x y :=
  fun w₁ hw s hs => ⟨(h w₁ hw s hs).same,
    (h w₁ hw s hs).lands.mono le_rfl fun w' hw' => hp w' (hw.trans hw')⟩

theorem KeepsAt.pure {a : α} (hs : D.good w s) (h : post w a) :
    D.KeepsAt w post s (pure a) (pure a) :=
  ⟨rfl, .ok le_rfl hs h⟩

theorem Keeps.pure {a : α} (h : ∀ w', w ≤ w' → post w' a) :
    D.Keeps w post (pure a) (pure a) :=
  fun w₁ hw _ hs => .pure hs (h w₁ hw)

theorem Keeps.halt {h : Halt} (hh : h.error? = none) : D.Keeps w post (throw h) (throw h) :=
  fun _ _ _ hs => ⟨rfl, .error le_rfl hs fun e he => by rw [he] at hh; cases hh⟩

theorem Keeps.throwError (hD : D.Lawful) {e : EvalError} (h : D.error w e) :
    D.Keeps w post (throw (.error e)) (throw (.error e)) :=
  fun _ hw _ hs => ⟨rfl, .error le_rfl hs fun _ he => by cases he; exact error_mono hD hw h⟩

theorem Keeps.fail {kind : ErrorKind} (h : (EvalError.of kind).returned? = none) :
    D.Keeps w post (Run.fail kind) (Run.fail kind) := by
  refine fun _ _ _ hs => ⟨rfl, .error le_rfl hs fun e he => ?_⟩
  cases he
  exact error_of_failure h

theorem KeepsAt.bind {x y : Run α} {f g : α → Run β} (h : D.KeepsAt w post s x y)
    (hf : ∀ w', w ≤ w' → ∀ a, post w' a → D.Keeps w' post' (f a) (g a)) :
    D.KeepsAt w post' s (x >>= f) (y >>= g) := by
  obtain ⟨hsame, hlands⟩ := h
  generalize hy : y s = r at hsame hlands
  cases hlands with
  | @ok w' a s₁ hw hs h =>
    obtain ⟨hsame', hlands'⟩ := hf w' hw a h w' le_rfl s₁ hs
    constructor
    · rw [Run.bind_ok f hsame, Run.bind_ok g hy, hsame']
    · rw [Run.bind_ok g hy]
      exact hlands'.mono hw fun _ _ _ h => h
  | @error w' h s₁ hw hs he =>
    constructor
    · rw [Run.bind_error f hsame, Run.bind_error g hy]
    · rw [Run.bind_error g hy]
      exact .error hw hs he

theorem Keeps.bind {x y : Run α} {f g : α → Run β} (h : D.Keeps w post x y)
    (hf : ∀ w', w ≤ w' → ∀ a, post w' a → D.Keeps w' post' (f a) (g a)) :
    D.Keeps w post' (x >>= f) (y >>= g) :=
  fun w₁ hw s hs => (h w₁ hw s hs).bind fun w' hw' => hf w' (hw.trans hw')

theorem Keeps.get_bind {f g : Store → Run β}
    (h : ∀ w', w ≤ w' → ∀ s, D.good w' s → D.KeepsAt w' post' s (f s) (g s)) :
    D.Keeps w post' (get >>= f) (get >>= g) :=
  fun w' hw s hs => ⟨(h w' hw s hs).same, (h w' hw s hs).lands⟩

theorem KeepsAt.modifyGet {f : Store → α × Store} (hw : w ≤ w₁) (hs : D.good w₁ (f s).2)
    (h : post w₁ (f s).1) : D.KeepsAt w post s (modifyGet f) (modifyGet f) :=
  ⟨rfl, .ok hw hs h⟩

theorem KeepsAt.modify {f : Store → Store} (hs : D.good w (f s)) :
    D.KeepsAt w (fun _ _ => True) s (modify f) (modify f) :=
  ⟨rfl, .ok le_rfl hs trivial⟩

theorem Keeps.ofExcept {r : Except EvalError α} (hok : ∀ w', w ≤ w' → ∀ a, r = .ok a → post w' a)
    (herror : ∀ e, r = .error e → e.returned? = none) :
    D.Keeps w post (Run.ofExcept r) (Run.ofExcept r) := by
  cases r with
  | ok a => exact .pure fun w' hw => hok w' hw a rfl
  | error e =>
    refine fun _ _ _ hs => ⟨rfl, .error le_rfl hs fun e' he => ?_⟩
    cases he
    exact error_of_failure (herror e rfl)

theorem Keeps.ofOption {r : Option α} :
    D.Keeps w (fun _ a => r = some a) (Run.ofOption r) (Run.ofOption r) := by
  cases r with
  | some a => exact .pure fun _ _ => rfl
  | none => exact .halt rfl

/-- Values that a discipline keeps, as outcomes of computations. -/
abbrev Yields (D : Discipline W) (w : W) (x y : Run Value) : Prop := D.Keeps w D.value x y

theorem Keeps.value (hD : D.Lawful) {v : Value} (h : D.value w v) :
    D.Yields w (Pure.pure v) (Pure.pure v) :=
  .pure fun _ hw => hD.value_mono hw h

theorem Keeps.outcome {x y : Run Value} (h : D.Yields w x y) :
    D.Keeps w (fun w => Outcome (D.value w)) (Run.outcome x) (Run.outcome y) := by
  intro w₁ hw s hs
  obtain ⟨hsame, hlands⟩ := h w₁ hw s hs
  have hsame' : Run.outcome x s = Run.outcome y s := by rw [Run.outcome, Run.outcome, hsame]
  refine ⟨hsame', ?_⟩
  generalize hy : y s = r at hlands
  cases hlands with
  | ok hw' hs' h =>
    rw [Run.outcome_ok hy]
    exact .ok hw' hs' h
  | @error w' h s₁ hw' hs' he =>
    cases h with
    | error e =>
      rw [Run.outcome_error hy]
      exact .ok hw' hs' (he e rfl)
    | placeholder | exhausted =>
      rw [Run.outcome_halt rfl hy]
      exact .error hw' hs' fun _ he => by cases he

theorem Keeps.catchReturn (hD : D.Lawful) {x y : Run Value} (h : D.Yields w x y) :
    D.Yields w (Run.catchReturn x) (Run.catchReturn y) := by
  refine (Keeps.outcome h).bind fun w' _ o ho => ?_
  cases o with
  | ok v => exact .value hD ho
  | error e =>
    cases hr : e.returned? with
    | some v =>
      simp only [hr]
      exact .value hD (ho v hr)
    | none =>
      simp only [hr]
      exact .throwError hD ho

theorem value_cast (hD : D.Lawful) {t : Ty} {v u : Value} (hv : D.value w v)
    (h : t.cast v = .ok u) : D.value w u := by
  cases hu : u.isSequence with
  | false => exact hD.plain hu
  | true =>
    have hc : u.isContainer = true := by cases u <;> first | rfl | cases hu
    rwa [Ty.eq_of_cast_container h hc]

theorem Keeps.cast (hD : D.Lawful) {v : Value} (hv : D.value w v) (t : Ty) :
    D.Keeps w (fun w u => D.value w u ∧ t.Conforms u) (Run.ofExcept (t.cast v))
      (Run.ofExcept (t.cast v)) :=
  .ofExcept (fun _ hw _ h => ⟨hD.value_mono hw (value_cast hD hv h), Ty.conforms_of_cast h⟩)
    fun _ => Ty.cast_error

theorem Keeps.castNoting (hD : D.Lawful) {v : Value} (hv : D.value w v) (t : Ty) (note : String) :
    D.Keeps w (fun w u => D.value w u ∧ t.Conforms u) (Run.ofExcept (t.castNoting note v))
      (Run.ofExcept (t.castNoting note v)) := by
  refine .ofExcept (fun w' hw u h => ⟨?_, Ty.conforms_of_castNoting h⟩) fun e h => ?_
  · cases hc : t.cast v with
    | ok u' =>
      rw [Ty.castNoting, hc] at h
      cases h
      exact hD.value_mono hw (value_cast hD hv hc)
    | error e => rw [Ty.castNoting, hc] at h; cases h
  · cases hc : t.cast v with
    | ok u' => rw [Ty.castNoting, hc] at h; cases h
    | error e' =>
      rw [Ty.castNoting, hc] at h
      cases h
      have hr : e'.returned? = none := Ty.cast_error hc
      exact hr

end Discipline

end ExprCore
