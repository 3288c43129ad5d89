import ExprCore.Machine
import ExprCore.Proofs.Conversion
import ExprCore.Proofs.Likeness.Runs

/-!
Arguments of closures. A call binds the arguments that are supplied, then what is left out, then a list of
all that is left over, one value for each slot of its frame.
-/

namespace ExprCore
set_option autoImplicit false

namespace Param

/-- What the parameters of a call stand for, before it is cast: the arguments in order, then the defaults of
the parameters that are left out, null for one that has none. -/
def supplied (params : List Param) (args : List Value) : List Value :=
  args.take params.length ++ (params.drop args.length).map fun p => p.default.getD .null

abbrev Bound (params : List Param) (args bound : List Value) : Prop :=
  List.Forall₂ (fun (b : Param × Value) w => b.1.type.cast b.2 = .ok w) (params.zip (supplied params args)) bound

variable {p : Param} {params : List Param} {args bound : List Value}

theorem supplied_cons (p : Param) (params : List Param) (args : List Value) :
    supplied (p :: params) args = args.head?.getD (p.default.getD .null) :: supplied params args.tail := by
  cases args <;> simp [supplied]

theorem length_supplied (params : List Param) (args : List Value) :
    (supplied params args).length = params.length := by
  rw [supplied, List.length_append, List.length_take, List.length_map, List.length_drop]
  omega

theorem Bound.conforms (h : Bound params args bound) :
    List.Forall₂ (fun p w => p.type.Conforms w) params bound := by
  have hleft : List.Forall₂ (fun p w => p.type.Conforms w) ((params.zip (supplied params args)).map Prod.fst)
      bound := List.forall₂_map_left_iff.mpr (h.imp fun _ _ => Ty.conforms_of_cast)
  rwa [List.map_fst_zip (length_supplied params args).ge] at hleft

theorem exists_bound
    (hargs : ∀ (i : Nat) (p : Param) v, params[i]? = some p → args[i]? = some v → ∃ w, p.type.cast v = .ok w)
    (hdefault : ∀ p ∈ params, ∀ v, p.default = some v → ∃ w, p.type.cast v = .ok w)
    (hnull : ∀ p ∈ params.drop args.length, p.default = none → ∃ w, p.type.cast .null = .ok w) :
    ∃ bound, Bound params args bound := by
  induction params generalizing args with
  | nil => exact ⟨[], .nil⟩
  | cons p params ih =>
    have hdefaults : ∀ q ∈ params, ∀ v, q.default = some v → ∃ w, q.type.cast v = .ok w :=
      fun q hq => hdefault q (List.mem_cons_of_mem p hq)
    unfold Bound
    rw [supplied_cons, List.zip_cons_cons]
    cases args with
    | nil =>
      have hfirst : ∃ w, p.type.cast (p.default.getD .null) = .ok w := by
        cases hd : p.default with
        | none => exact hnull p List.mem_cons_self hd
        | some v => exact hdefault p List.mem_cons_self v hd
      obtain ⟨w, hw⟩ := hfirst
      obtain ⟨bound, hbound⟩ := @ih [] (fun _ _ _ _ h => by cases h) hdefaults
        fun q hq => hnull q (List.mem_cons_of_mem p hq)
      exact ⟨w :: bound, .cons hw hbound⟩
    | cons v args =>
      obtain ⟨w, hw⟩ := hargs 0 p v rfl rfl
      obtain ⟨bound, hbound⟩ := @ih args (fun i => hargs (i + 1)) hdefaults hnull
      exact ⟨w :: bound, .cons hw hbound⟩

end Param

namespace Signature

/-- The value for the slot of further arguments, if there is such a slot: a new list of them. -/
inductive Collects (f : Signature) (args : List Value) (s : Store) : List Value → Store → Prop where
  | nothing (h : f.rest = none) : Collects f args s [] s
  | list {name : String} (h : f.rest = some name) :
    Collects f args s [.list s.sequences.size]
      { s with sequences := s.sequences.push (args.drop f.params.length) }

theorem Collects.conforms {f : Signature} {args further : List Value} {s s' : Store}
    (h : f.Collects args s further s') :
    List.Forall₂ (fun (slot : Slot) v => slot.type.Conforms v)
      (f.rest.toList.map fun name => ⟨name, .list .any, false⟩) further := by
  cases h with
  | nothing h =>
    rw [h]
    exact .nil
  | list h =>
    rw [h]
    exact .cons (Ty.conforms_list _ _) .nil

end Signature

namespace Closure

variable {name : String} {i : Nat} {params : List Param} {args bound further : List Value} {f : Closure}
  {s s' : Store} {e : EvalError}

theorem bindParams_ok (h : Param.Bound params args bound) : bindParams name i params args = .ok bound := by
  induction params generalizing i args bound with
  | nil =>
    cases h
    rfl
  | cons p params ih =>
    unfold Param.Bound at h
    rw [Param.supplied_cons, List.zip_cons_cons] at h
    cases h with
    | cons hw h =>
      simp only [bindParams, Ty.castNoting, hw]
      rw [ih h]
      rfl

theorem bindParams_error (h : bindParams name i params args = .error e) :
    ∃ cause note, Ty.IsCastError cause ∧ e = cause.withNote note := by
  induction params generalizing i args with
  | nil => cases h
  | cons p params ih =>
    simp only [bindParams, Ty.castNoting] at h
    cases hc : p.type.cast (args.head?.getD (p.default.getD .null)) with
    | error cause =>
      rw [hc] at h
      cases h
      exact ⟨cause, _, Ty.isCastError_of_cast hc, rfl⟩
    | ok w =>
      rw [hc] at h
      cases hb : bindParams name (i + 1) params args.tail with
      | error cause =>
        rw [hb] at h
        cases h
        exact ih hb
      | ok bound =>
        rw [hb] at h
        cases h

theorem validate_refused (h : f.signature.arity.accepts args.length = false) (s : Store) :
    f.validate args s =
      .error (.error (.of (.arityMismatch f.name f.signature.arity.text args.length))) s := by
  unfold validate
  simp only [checkCount, h]
  rfl

theorem validate_accepted (h : f.signature.arity.accepts args.length = true)
    (hb : Param.Bound f.signature.params args bound) (s : Store) :
    ∃ further s', f.signature.Collects args s further s' ∧ f.validate args s = .ok (bound ++ further) s' := by
  unfold validate
  simp only [checkCount, h, if_true, bindParams_ok hb]
  cases hr : f.signature.rest with
  | none =>
    refine ⟨[], s, .nothing hr, ?_⟩
    rw [List.append_nil]
    rfl
  | some name => exact ⟨_, _, .list hr, rfl⟩

theorem validate_error (h : f.signature.arity.accepts args.length = true)
    (he : f.validate args s = .error (.error e) s') :
    ∃ cause note, Ty.IsCastError cause ∧ e = cause.withNote note := by
  unfold validate at he
  simp only [checkCount, h, if_true] at he
  cases hb : bindParams f.name 1 f.signature.params args with
  | error cause =>
    rw [hb] at he
    cases he
    exact bindParams_error hb
  | ok bound =>
    rw [hb] at he
    cases hr : f.signature.rest <;> rw [hr] at he <;> cases he

end Closure

namespace Machine

theorem fill_fresh {s : Store} {cells : Array Value} {vs ds : List Value} (hl : vs.length = ds.length) :
    fill cells.size vs { s with cells := cells ++ ds } = .ok () { s with cells := cells ++ vs } := by
  induction vs generalizing cells ds with
  | nil =>
    obtain rfl := List.length_eq_zero_iff.mp hl.symm
    rfl
  | cons v vs ih =>
    cases ds with
    | nil => cases hl
    | cons d ds =>
      have hset : (cells ++ (d :: ds)).setIfInBounds cells.size v = cells.push v ++ ds := by
        apply Array.ext'
        simp
      have hpush : cells.push v ++ vs = cells ++ (v :: vs) := by
        apply Array.ext'
        simp
      have hrest := @ih (cells.push v) ds (by simpa using hl)
      rw [hpush, Array.size_push] at hrest
      rw [← hset] at hrest
      exact hrest

/-- The body of a closure runs in a new frame that holds the given values in its slots. -/
theorem invokeClosure_eq (m : Machine) {f : Closure} {args : List Value}
    (hl : args.length = f.signature.layout.length) (s : Store) :
    m.invokeClosure f args s =
      (Run.catchReturn (m.eval (⟨f.signature.layout, s.cells.size⟩ :: f.env) f.body) >>= fun v =>
        Run.ofExcept (f.signature.ret.castNoting ("return value of " ++ f.name) v))
        { s with cells := s.cells ++ args } := by
  unfold invokeClosure
  rw [← hl, List.take_length]
  have hfill : fill s.cells.size args { s with
      cells := s.cells ++ f.signature.layout.map fun slot => slot.type.default } =
      .ok () { s with cells := s.cells ++ args } :=
    fill_fresh (by rw [List.length_map, hl])
  exact (Run.bind_ok _ rfl).trans (Run.bind_ok _ hfill)

end Machine

/-- The number of arguments is refused if and only if the arity does not accept it. If it does, and all that
the parameters stand for casts to their types, a call has one value for each slot of its frame and of the
type of the slot: the arguments in order, what is left out, and a list of what is left over. The body runs
in a frame that holds these values. -/
theorem arguments_bound (f : Closure) (args : List Value) (s : Store)
    (hdefault : ∀ p ∈ f.signature.params, ∀ v, p.default = some v → ∃ w, p.type.cast v = .ok w) :
    ((∃ e s', f.validate args s = .error (.error e) s' ∧
        ∃ name expected got, e.kind = .arityMismatch name expected got) ↔
      f.signature.arity.accepts args.length = false) ∧
    (f.signature.arity.accepts args.length = true →
      (∀ (i : Nat) (p : Param) v, f.signature.params[i]? = some p → args[i]? = some v → ∃ w, p.type.cast v = .ok w) →
      (∀ p ∈ f.signature.params.drop args.length, p.default = none → ∃ w, p.type.cast .null = .ok w) →
      ∃ bound further s', f.validate args s = .ok (bound ++ further) s' ∧
        List.Forall₂ (fun (slot : Slot) v => slot.type.Conforms v) f.signature.layout (bound ++ further) ∧
        Param.Bound f.signature.params args bound ∧ f.signature.Collects args s further s' ∧
        ∀ m : Machine, m.invokeClosure f (bound ++ further) s' =
          (Run.catchReturn (m.eval (⟨f.signature.layout, s'.cells.size⟩ :: f.env) f.body) >>= fun v =>
            Run.ofExcept (f.signature.ret.castNoting ("return value of " ++ f.name) v))
            { s' with cells := s'.cells ++ (bound ++ further) }) := by
  refine ⟨⟨?_, fun h => ?_⟩, fun haccepts hargs hnull => ?_⟩
  · rintro ⟨e, s', he, name, expected, got, hkind⟩
    cases h : f.signature.arity.accepts args.length with
    | false => rfl
    | true =>
      obtain ⟨cause, note, ⟨_, _, rfl⟩ | ⟨_, rfl⟩, rfl⟩ := Closure.validate_error h he <;> cases hkind
  · exact ⟨_, s, Closure.validate_refused h s, _, _, _, rfl⟩
  · obtain ⟨bound, hbound⟩ := Param.exists_bound hargs hdefault hnull
    obtain ⟨further, s', hfurther, hvalidate⟩ := Closure.validate_accepted haccepts hbound s
    have hparams : List.Forall₂ (fun (slot : Slot) v => slot.type.Conforms v)
        (f.signature.params.map fun p => ⟨p.name, p.type, false⟩) bound :=
      List.forall₂_map_left_iff.mpr hbound.conforms
    have hconforms := List.rel_append hparams hfurther.conforms
    exact ⟨bound, further, s', hvalidate, hconforms, hbound, hfurther,
      fun m => m.invokeClosure_eq hconforms.length_eq.symm s'⟩

namespace Sample

/-- A closure that yields its first argument. -/
def firstOf (params : List Param) (rest : Option String) : Closure :=
  ⟨⟨none, params, rest, .any⟩, .var ⟨"a", 0, 0, 0, false, .any⟩, []⟩

/-- A number, another one that is 3 by default, and a text that may be left out. -/
def labelled : Closure :=
  firstOf [⟨"a", .long, none⟩, ⟨"b", .long, some (.int 3)⟩, ⟨"c", .str, none⟩] (some "more")

def gapped : Closure := firstOf [⟨"a", .int, some (.int 1)⟩, ⟨"b", .int, none⟩] none

end Sample

open Sample

/-- The default is cast, null stands for the text, and nothing is left over. -/
theorem arguments_bound_omitted :
    (∀ p ∈ labelled.signature.params, ∀ v, p.default = some v → ∃ w, p.type.cast v = .ok w) ∧
      labelled.validate [.int 4] {} = .ok [.long 4, .long 3, .null, .list 0] { sequences := #[[]] } ∧
      ∃ bound further s', labelled.validate [.int 4] {} = .ok (bound ++ further) s' ∧
        List.Forall₂ (fun (slot : Slot) v => slot.type.Conforms v) labelled.signature.layout
          (bound ++ further) ∧
        Param.Bound labelled.signature.params [.int 4] bound ∧
        labelled.signature.Collects [.int 4] {} further s' := by
  have hdefault : ∀ p ∈ labelled.signature.params, ∀ v, p.default = some v →
      ∃ w, p.type.cast v = .ok w := by
    intro p hp v hv
    simp only [labelled, firstOf, List.mem_cons, List.not_mem_nil, or_false] at hp
    rcases hp with rfl | rfl | rfl <;> cases hv
    exact ⟨_, rfl⟩
  have hargs : ∀ (i : Nat) (p : Param) (v : Value), labelled.signature.params[i]? = some p →
      [Value.int 4][i]? = some v → ∃ w, p.type.cast v = .ok w := by
    intro i p v hp hv
    cases i with
    | zero =>
      cases hp
      cases hv
      exact ⟨_, rfl⟩
    | succ i => cases hv
  have hnull : ∀ p ∈ labelled.signature.params.drop 1, p.default = none →
      ∃ w, p.type.cast .null = .ok w := by
    intro p hp hd
    simp only [labelled, firstOf, List.drop_succ_cons, List.drop_zero, List.mem_cons, List.not_mem_nil,
      or_false] at hp
    rcases hp with rfl | rfl
    · cases hd
    · exact ⟨_, rfl⟩
  obtain ⟨bound, further, s', hvalidate, hconforms, hbound, hfurther, -⟩ :=
    (arguments_bound labelled [.int 4] {} hdefault).2 rfl hargs hnull
  exact ⟨hdefault, rfl, bound, further, s', hvalidate, hconforms, hbound, hfurther⟩

/-- The arity lets a parameter be left out that has no default, and null is no integer. -/
theorem omitted_parameter_fails :
    (∀ p ∈ gapped.signature.params, ∀ v, p.default = some v → ∃ w, p.type.cast v = .ok w) ∧
      gapped.signature.arity.accepts 0 = true ∧
      gapped.validate [] {} =
        .error (.error ⟨.typeMismatch "int" "null", ["argument 2 of <lambda>"]⟩) {} := by
  refine ⟨?_, rfl, rfl⟩
  intro p hp v hv
  simp only [gapped, firstOf, List.mem_cons, List.not_mem_nil, or_false] at hp
  rcases hp with rfl | rfl <;> cases hv
  exact ⟨_, rfl⟩

end ExprCore
