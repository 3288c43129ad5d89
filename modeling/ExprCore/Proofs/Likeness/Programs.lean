import ExprCore.Proofs.Likeness.Operators

/-!
Host programs that do the same with like values. Of a container they see what it holds but no
address, and of an error no notes unless notes are compared. Functions that a program makes do the
same with like arguments too, so that the relation on functions is nested in the one on programs.
-/

namespace ExprCore
set_option autoImplicit false

open Correspondence (Outcome)

/-- Equality of operations on values up to links. -/
inductive HostOp.Like (ρ : Links) : HostOp → HostOp → Prop where
  | newList {items items' : List Value} (h : Value.Likes ρ items items') :
    Like ρ (.newList items) (.newList items')
  | newArray (elem : Ty) {items items' : List Value} (h : Value.Likes ρ items items') :
    Like ρ (.newArray elem items) (.newArray elem items')
  | newBuffer (chars : List Char) : Like ρ (.newBuffer chars) (.newBuffer chars)
  | newMap {es es' : Entries} (h : Entries.Like ρ es es') : Like ρ (.newMap es) (.newMap es')
  | newObject (className : String) (members : List (String × Ty)) :
    Like ρ (.newObject className members) (.newObject className members)
  | newOperator (op : Operator) : Like ρ (.newOperator op) (.newOperator op)
  | writeList {r r' : Ref} {items items' : List Value} (hr : ρ.rel .sequence r r')
    (h : Value.Likes ρ items items') : Like ρ (.writeList r items) (.writeList r' items')
  | writeElement (elem : Ty) {r r' : Ref} (i : Nat) {v v' : Value} (hr : ρ.rel .sequence r r')
    (h : Value.Like ρ v v') : Like ρ (.writeElement elem r i v) (.writeElement elem r' i v')
  | writeBuffer {r r' : Ref} (chars : List Char) (hr : ρ.rel .buffer r r') :
    Like ρ (.writeBuffer r chars) (.writeBuffer r' chars)
  | writeMap {r r' : Ref} {es es' : Entries} (hr : ρ.rel .map r r') (h : Entries.Like ρ es es') :
    Like ρ (.writeMap r es) (.writeMap r' es')
  | readMember (object : Ref) (name : String) :
    Like ρ (.readMember object name) (.readMember object name)
  | writeMember (object : Ref) (name : String) {v v' : Value} (h : Value.Like ρ v v') :
    Like ρ (.writeMember object name v) (.writeMember object name v')
  | display {v v' : Value} (h : Value.Like ρ v v') : Like ρ (.display v) (.display v')
  | equal {v v' w w' : Value} (hv : Value.Like ρ v v') (hw : Value.Like ρ w w') :
    Like ρ (.equal v w) (.equal v' w')

/-- Host programs that do the same with like values. `N` relates the native functions that they make,
`E` their faults and `R` their results. -/
inductive HostProgram.Alike {ν ε α : Type} (strict : Bool) (N : Links → ν → ν → Prop)
    (E : Links → ε → ε → Prop) (R : Links → α → α → Prop) :
    Links → HostProgram ν ε α → HostProgram ν ε α → Prop where
  | done {ρ : Links} {a a' : α} (h : R ρ a a') : Alike strict N E R ρ (.done a) (.done a')
  | fail {ρ : Links} {e e' : ε} (h : E ρ e e') : Alike strict N E R ρ (.fail e) (.fail e')
  | call {ρ : Links} {f : Ref} {args args' : List Value}
    {next next' : Except EvalError Value → HostProgram ν ε α} (ha : Value.Likes ρ args args')
    (h : ∀ σ, ρ ≤ σ → ∀ o o', Outcome strict σ o o' → Alike strict N E R σ (next o) (next' o')) :
    Alike strict N E R ρ (.call f args next) (.call f args' next')
  | perform {ρ : Links} {op op' : HostOp} {next next' : Except EvalError Value → HostProgram ν ε α}
    (ho : op.Like ρ op')
    (h : ∀ σ, ρ ≤ σ → ∀ o o', Outcome strict σ o o' → Alike strict N E R σ (next o) (next' o')) :
    Alike strict N E R ρ (.perform op next) (.perform op' next')
  | newNative {ρ : Links} {f f' : ν} {next next' : Value → HostProgram ν ε α} (hf : N ρ f f')
    (h : ∀ σ, ρ ≤ σ → ∀ v v', Value.Like σ v v' → Alike strict N E R σ (next v) (next' v')) :
    Alike strict N E R ρ (.newNative f next) (.newNative f' next')
  | look {ρ : Links} {v v' : Value} {next next' : Option Content → HostProgram ν ε α}
    (hv : Value.Like ρ v v')
    (h : ∀ σ, ρ ≤ σ → ∀ c c', Option.Rel (Content.Like σ) c c' →
      Alike strict N E R σ (next c) (next' c')) :
    Alike strict N E R ρ (.look v next) (.look v' next')
  | newRecord {ρ : Links} {fields fields' : List Value} {next next' : Ref → HostProgram ν ε α}
    (hf : Value.Likes ρ fields fields')
    (h : ∀ σ, ρ ≤ σ → ∀ r, Alike strict N E R σ (next r) (next' r)) :
    Alike strict N E R ρ (.newRecord fields next) (.newRecord fields' next')
  | readRecord {ρ : Links} {r : Ref} {i : Nat} {next next' : Value → HostProgram ν ε α}
    (h : ∀ σ, ρ ≤ σ → ∀ v v', Value.Like σ v v' → Alike strict N E R σ (next v) (next' v')) :
    Alike strict N E R ρ (.readRecord r i next) (.readRecord r i next')
  | writeRecord {ρ : Links} {r : Ref} {i : Nat} {v v' : Value}
    {next next' : Unit → HostProgram ν ε α} (hv : Value.Like ρ v v')
    (h : ∀ σ, ρ ≤ σ → Alike strict N E R σ (next ()) (next' ())) :
    Alike strict N E R ρ (.writeRecord r i v next) (.writeRecord r i v' next')

/-- Native functions that differ in their bodies, which do the same with like arguments. -/
inductive Native.Alike (strict : Bool) : Links → Native → Native → Prop where
  | intro {ρ : Links} {name : String} {params : List Ty} {rest : Option Ty} {ret : Ty}
    {body body' : List Value → HostAction EvalError Value}
    (h : ∀ σ, ρ ≤ σ → ∀ args args', Value.Likes σ args args' →
      HostProgram.Alike strict (Alike strict) (EvalError.Like strict) Value.Like σ
        (body args) (body' args')) :
    Alike strict ρ ⟨name, params, rest, ret, body⟩ ⟨name, params, rest, ret, body'⟩

/-- Host programs that do the same, and so do the functions that they make. -/
abbrev HostAction.Alike {ε α : Type} (strict : Bool) (E : Links → ε → ε → Prop)
    (R : Links → α → α → Prop) : Links → HostAction ε α → HostAction ε α → Prop :=
  HostProgram.Alike strict (Native.Alike strict) E R

/-- Bodies of functions of the host that do the same with like arguments. -/
def UniformBodies (strict : Bool) (ρ : Links)
    (body body' : List Value → HostAction EvalError Value) : Prop :=
  ∀ σ, ρ ≤ σ → ∀ args args', Value.Likes σ args args' →
    HostAction.Alike strict (EvalError.Like strict) Value.Like σ (body args) (body' args')

theorem UniformBodies.mono {strict : Bool} {ρ σ : Links}
    {body body' : List Value → HostAction EvalError Value} (hσ : ρ ≤ σ)
    (h : UniformBodies strict ρ body body') : UniformBodies strict σ body body' :=
  fun τ hτ => h τ (hσ.trans hτ)

theorem Native.Alike.mono {strict : Bool} {ρ σ : Links} {f f' : Native} (hσ : ρ ≤ σ)
    (h : Native.Alike strict ρ f f') : Native.Alike strict σ f f' := by
  cases h with
  | intro h => exact .intro fun τ hτ => h τ (hσ.trans hτ)

/-- A native function that does the same with like arguments. -/
abbrev Native.Uniform (strict : Bool) (ρ : Links) (f : Native) : Prop := f.Alike strict ρ f

/-- An operation that does the same with like operands, as all built-in ones do. -/
def Operation.Uniform (strict : Bool) (ρ : Links) : Operation → Prop
  | .builtIn _ => True
  | .host f => UniformBodies strict ρ f.body f.body

theorem Operation.Uniform.mono {strict : Bool} {ρ σ : Links} {op : Operation} (hσ : ρ ≤ σ)
    (h : op.Uniform strict ρ) : op.Uniform strict σ := by
  cases op with
  | builtIn => trivial
  | host f => exact UniformBodies.mono hσ h

/-- Members of host classes fail with faults, which hold no values. -/
abbrev HostProgram.Matches {α : Type} (strict : Bool) (R : Links → α → α → Prop) :
    Links → HostAction HostFault α → HostAction HostFault α → Prop :=
  HostAction.Alike strict (fun _ => Eq) R

/-- A host class whose members do the same with like values. -/
structure HostClass.Uniform (strict : Bool) (ρ : Links) (c : HostClass) : Prop where
  construct : ∀ σ, ρ ≤ σ → ∀ args args', Value.Likes σ args args' →
    (c.construct args).Matches strict Value.Like σ (c.construct args')
  getStatic : ∀ σ, ρ ≤ σ → ∀ field,
    (c.getStatic field).Matches strict Value.Like σ (c.getStatic field)
  setStatic : ∀ σ, ρ ≤ σ → ∀ field v v', Value.Like σ v v' →
    (c.setStatic field v).Matches strict (fun _ _ _ => True) σ (c.setStatic field v')
  invokeStatic : ∀ σ, ρ ≤ σ → ∀ method args args', Value.Likes σ args args' →
    (c.invokeStatic method args).Matches strict Value.Like σ (c.invokeStatic method args')
  getField : ∀ σ, ρ ≤ σ → ∀ r field,
    (c.getField r field).Matches strict Value.Like σ (c.getField r field)
  setField : ∀ σ, ρ ≤ σ → ∀ r field v v', Value.Like σ v v' →
    (c.setField r field v).Matches strict (fun _ _ _ => True) σ (c.setField r field v')
  invokeMethod : ∀ σ, ρ ≤ σ → ∀ r method args args', Value.Likes σ args args' →
    (c.invokeMethod r method args).Matches strict Value.Like σ (c.invokeMethod r method args')

/-- A host whose classes do the same with like values. -/
def Host.Uniform (strict : Bool) (ρ : Links) (host : Host) : Prop :=
  ∀ className, (host className).Uniform strict ρ

section Flip

variable {strict : Bool} {ρ : Links}

theorem Content.Like.flip {c c' : Content} (h : c.Like ρ c') : c'.Like ρ.flip c := by
  cases h with
  | items h => exact .items h.flip
  | chars => exact .chars _
  | entries h => exact .entries h.flip

theorem HostOp.Like.flip {op op' : HostOp} (h : op.Like ρ op') : op'.Like ρ.flip op := by
  cases h with
  | newList h => exact .newList h.flip
  | newArray elem h => exact .newArray elem h.flip
  | newBuffer => exact .newBuffer _
  | newMap h => exact .newMap h.flip
  | newObject => exact .newObject ..
  | newOperator => exact .newOperator _
  | writeList hr h => exact .writeList hr h.flip
  | writeElement elem i hr h => exact .writeElement elem i hr h.flip
  | writeBuffer chars hr => exact .writeBuffer chars hr
  | writeMap hr h => exact .writeMap hr h.flip
  | readMember => exact .readMember ..
  | writeMember r name h => exact .writeMember r name h.flip
  | display h => exact .display h.flip
  | equal hv hw => exact .equal hv.flip hw.flip

theorem Correspondence.Outcome.flip {o o' : Except EvalError Value} (h : Outcome strict ρ o o') :
    Outcome strict ρ.flip o' o := by
  cases h with
  | ok h => exact .ok h.flip
  | error h => exact .error h.flip

theorem Links.flip_le {ρ σ : Links} (h : ρ.flip ≤ σ) : ρ ≤ σ.flip := fun area r r' => h area r' r

/-- Functions that do the same do so in either order. -/
theorem Native.Alike.flip {f f' : Native} (h : f.Alike strict ρ f') : f'.Alike strict ρ.flip f := by
  -- The motive for programs says what the motive for functions says of those that they make.
  refine Native.Alike.rec
    (motive_1 := fun ρ f f' _ => f'.Alike strict ρ.flip f)
    (motive_2 := fun ρ a a' _ =>
      HostAction.Alike strict (EvalError.Like strict) Value.Like ρ.flip a' a)
    (fun _ ih => .intro fun σ hσ args args' ha => ih σ.flip (Links.flip_le hσ) args' args ha.flip)
    (fun h => .done h.flip)
    (fun h => .fail h.flip)
    (fun ha _ ih => .call ha.flip fun σ hσ o o' ho => ih σ.flip (Links.flip_le hσ) o' o ho.flip)
    (fun hop _ ih => .perform hop.flip fun σ hσ o o' ho => ih σ.flip (Links.flip_le hσ) o' o ho.flip)
    (fun _ _ hf ih => .newNative hf fun σ hσ v v' hv => ih σ.flip (Links.flip_le hσ) v' v hv.flip)
    (fun hv _ ih => .look hv.flip fun σ hσ c c' hc => ih σ.flip (Links.flip_le hσ) c' c ?_)
    (fun hf _ ih => .newRecord hf.flip fun σ hσ r => ih σ.flip (Links.flip_le hσ) r)
    (fun _ ih => .readRecord fun σ hσ v v' hv => ih σ.flip (Links.flip_le hσ) v' v hv.flip)
    (fun hv _ ih => .writeRecord hv.flip fun σ hσ => ih σ.flip (Links.flip_le hσ)) h
  cases hc with
  | none => exact .none
  | some hc => exact .some hc.flip

theorem Operation.Uniform.flip {op : Operation} (h : op.Uniform strict ρ) :
    op.Uniform strict ρ.flip := by
  cases op with
  | builtIn => trivial
  | host f =>
    -- a native function with the same body
    have hf : Native.Uniform strict ρ ⟨f.name, [], none, f.ret, f.body⟩ := .intro h
    cases hf.flip with
    | intro h => exact h

end Flip

namespace Sample

/-- A native function that calls the function that it is given with the other arguments. -/
def applying : Native where
  name := "apply"
  params := [.any]
  rest := some .any
  ret := .any
  body
    | .function _ f :: args => .call f args fun
      | .ok v => .done v
      | .error e => .fail e
    | _ => .done .null

end Sample

end ExprCore
