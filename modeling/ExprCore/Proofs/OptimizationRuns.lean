import ExprCore.Proofs.ConstantRuns
import ExprCore.Proofs.NormalForms

/-!
Optimization as a computation on the store. What is evaluated ahead of time is evaluated in the store as it is by
then, and what that does to the store is kept. Since nothing but constants is evaluated, all that is left in the
store are some lists, and the tree is the one that comes of evaluating every constant in the store at the start.
-/

namespace ExprCore
set_option autoImplicit false

namespace Expr

def pairs : List Expr → List (Expr × Expr)
  | key :: value :: rest => (key, value) :: pairs rest
  | _ => []

/-- The node with the given expressions in place of its children, in order. -/
def withChildren : Expr → List Expr → Expr
  | .operator form op _, xs => .operator form op xs
  | .logical op _ _, [a, b] => .logical op a b
  | .conditional _ _ _, [c, a, b] => .conditional c a b
  | .sequence _, xs => .sequence xs
  | .before _ _, [a, b] => .before a b
  | .cast t _, [a] => .cast t a
  | .instanceOf _ t, [a] => .instanceOf a t
  | .assign mode _ _, [a, b] => .assign mode a b
  | .compound op _ _ t, [a, b] => .compound op a b t
  | .step kind _, [a] => .step kind a
  | .index _ _, [a, b] => .index a b
  | .slice _ _ _, [a, b, c] => .slice a b c
  | .member kind _ field, [a] => .member kind a field
  | .methodCall _ method _, a :: xs => .methodCall a method xs
  | .staticCall className method _, xs => .staticCall className method xs
  | .new className _, xs => .new className xs
  | .apply _ _, a :: xs => .apply a xs
  | .lambda signature _, [a] => .lambda signature a
  | .block layout _ ret, xs => .block layout xs ret
  | .earlyReturn _, [a] => .earlyReturn a
  | .arrayLiteral elem _, xs => .arrayLiteral elem xs
  | .arrayAlloc elem _, [a] => .arrayAlloc elem a
  | .listLiteral elem _, xs => .listLiteral elem xs
  | .extendList _ elem _, a :: xs => .extendList a elem xs
  | .mapLiteral value _, xs => .mapLiteral value (pairs xs)
  | .extendMap _ value _, a :: xs => .extendMap a value (pairs xs)
  | .loop _ _, [a, b] => .loop a b
  | .tryCatch _ _ _, [a, b, c] => .tryCatch a b c
  | .raise _, [a] => .raise a
  | e, _ => e

theorem pairs_flatMap (f : Expr → Expr) (xs : List (Expr × Expr)) :
    pairs (xs.flatMap fun (key, value) => [f key, f value]) = xs.map fun (key, value) => (f key, f value) := by
  induction xs with
  | nil => rfl
  | cons x xs ih => exact congrArg (_ :: ·) ih

theorem withChildren_map (f : Entry → Expr → Expr) (e : Expr) :
    e.withChildren (e.children.map fun c => f c.1 c.2) = e.mapChildren f := by
  cases e <;> simp [children, withChildren, mapChildren, Function.comp_def, List.map_flatMap, pairs_flatMap]

/-- The expressions that are evaluated ahead of time. -/
def isAhead (e : Expr) : Bool := e.literal?.isNone && e.isConstant && e.type.isScalar

def valueAhead (host : Host) (fuel : Nat) (e : Expr) : Run (Option Value) :=
  if e.isAhead then do pure (← (ExprCore.eval host fuel [] e).attempt).toOption else pure none

theorem isConstant_of_isAhead {e : Expr} (h : e.isAhead = true) : e.isConstant = true :=
  (Bool.and_eq_true_iff.mp (Bool.and_eq_true_iff.mp h).1).2

/-- One step of simplification at a node, in the store as it is. -/
def simplifyingStep (value? : Expr → Run (Option Value)) (level : Nat) (e : Expr) : Run (Option Expr) := do
  let v ← value? e
  pure (e.simplify? (fun _ => v) (Value.truth (← get)) level)

/-- Repeats a step as long as it applies, at most as often as the first argument says. -/
def settling (step? : Expr → Run (Option Expr)) : Nat → Expr → Run Expr
  | 0, e => pure e
  | n + 1, e => do
    match ← step? e with
    | none => pure e
    | some next => settling step? n next

/-- Simplification of every node, the children of a node before it and in order. -/
def simplifying (value? : Expr → Run (Option Value)) (level : Nat) (e : Expr) : Run Expr := do
  let node := e.withChildren (← e.children.attach.mapM fun c => c.1.2.simplifying value? level)
  settling (simplifyingStep value? level) (node.size + 1) node
termination_by e.size
decreasing_by exact size_child_lt c.2

theorem simplifying_eq (value? : Expr → Run (Option Value)) (level : Nat) (e : Expr) :
    e.simplifying value? level = (do
      let node := e.withChildren (← e.children.mapM fun c => c.2.simplifying value? level)
      settling (simplifyingStep value? level) (node.size + 1) node) := by
  have hattach : (e.children.attach.mapM fun c => c.1.2.simplifying value? level) =
      e.children.mapM fun c => c.2.simplifying value? level := by
    rw [List.mapM_subtype (g := fun c => c.2.simplifying value? level) fun _ _ => rfl, List.unattach_attach]
  rw [simplifying, hattach]

/-- Simplification of a tree that keeps what evaluation ahead of time does to the store. -/
def optimizing (host : Host) (fuel level : Nat) (e : Expr) : Run Expr :=
  if level = 0 then pure e else e.simplifying (valueAhead host fuel) level

end Expr

namespace Run.Confined

variable {α β : Type} {x : Run α} {f : α → Run β}

theorem mapM {as : List α} (h : ∀ a ∈ as, Confined (f a)) : Confined (as.mapM f) := by
  induction as with
  | nil => exact pure []
  | cons a as ih =>
    rw [List.mapM_cons]
    apply (h a List.mem_cons_self).bind
    intro b
    apply (ih fun a' ha => h a' (List.mem_cons_of_mem a ha)).bind
    exact fun bs => pure (b :: bs)

end Run.Confined

namespace Expr

variable {host host' : Host} {fuel level : Nat} {e : Expr} {value? : Expr → Run (Option Value)}

theorem confined_valueAhead (host : Host) (fuel : Nat) (e : Expr) : (e.valueAhead host fuel).Confined := by
  unfold valueAhead
  split
  · rename_i h
    apply (confined_attempt_eval host fuel [] (isConstant_of_isAhead h)).bind
    exact fun outcome => .pure outcome.toOption
  · exact .pure none

theorem confined_simplifyingStep (h : ∀ e, (value? e).Confined) (level : Nat) (e : Expr) :
    (e.simplifyingStep value? level).Confined := by
  apply (h e).bind
  intro v
  apply Run.Confined.get_bind
  · intro s s' hs
    rw [hs.truth_eq]
  · exact fun s => .pure _

theorem confined_settling {step? : Expr → Run (Option Expr)} (h : ∀ e, (step? e).Confined) (n : Nat) (e : Expr) :
    (settling step? n e).Confined := by
  induction n generalizing e with
  | zero => exact .pure e
  | succ n ih =>
    apply (h e).bind
    intro next
    cases next with
    | none => exact .pure e
    | some next => exact ih next

theorem confined_simplifying (h : ∀ e, (value? e).Confined) (level : Nat) (e : Expr) :
    (e.simplifying value? level).Confined := by
  induction e using childInduction with
  | step e ih =>
    rw [simplifying_eq]
    apply (Run.Confined.mapM fun c hc => ih c hc).bind
    intro children
    exact confined_settling (confined_simplifyingStep h level) _ _

theorem confined_optimizing (host : Host) (fuel level : Nat) (e : Expr) : (e.optimizing host fuel level).Confined := by
  unfold optimizing
  split
  · exact .pure e
  · exact confined_simplifying (confined_valueAhead host fuel) level e

theorem optimizing_congr (host host' : Host) : optimizing host fuel level e = optimizing host' fuel level e := by
  have hvalue : valueAhead host fuel = valueAhead host' fuel := by
    funext x
    unfold valueAhead
    split
    · rename_i h
      rw [eval_congr (isConstant_of_isAhead h)]
    · rfl
  rw [optimizing, optimizing, hvalue]

end Expr

/-- From a store with whatever lists added, a computation yields `a` and leaves the store with some lists added. -/
def Run.Yields {α : Type} (s : Store) (x : Run α) (a : α) : Prop :=
  ∀ lists, ∃ more, x (s.withLists lists) = .ok a (s.withLists more)

namespace Run.Yields

variable {α β : Type} {s : Store} {x : Run α} {f : α → Run β} {g : α → β} {a : α} {b : β}

theorem pure (s : Store) (a : α) : Yields s (Pure.pure a) a := fun lists => ⟨lists, rfl⟩

theorem bind (hx : Yields s x a) (hf : Yields s (f a) b) : Yields s (x >>= f) b := by
  intro lists
  obtain ⟨more, hx⟩ := hx lists
  obtain ⟨rest, hf⟩ := hf more
  exact ⟨rest, (bind_ok f hx).trans hf⟩

theorem mapM {as : List α} (h : ∀ a ∈ as, Yields s (f a) (g a)) : Yields s (as.mapM f) (as.map g) := by
  induction as with
  | nil => exact pure s []
  | cons a as ih =>
    rw [List.mapM_cons]
    apply (h a List.mem_cons_self).bind
    apply (ih fun a' ha => h a' (List.mem_cons_of_mem a ha)).bind
    exact pure s _

end Run.Yields

namespace Expr

variable {host : Host} {fuel level : Nat} {s : Store} {layouts : List Layout} {e : Expr}

theorem folded?_of_not_ahead {value? : Expr → Option Value} (h : ¬e.isAhead = true) : e.folded? value? = none := by
  have hgate : (e.literal?.isSome || !e.isConstant || !e.type.isScalar) = true := by
    unfold isAhead at h
    generalize e.literal? = v, e.isConstant = constant, e.type.isScalar = scalar at h ⊢
    cases v <;> cases constant <;> cases scalar <;> simp_all
  rw [folded?, if_pos hgate]

theorem value?_of_attempt {s s' : Store} {outcome : Except Halt Value}
    (h : (ExprCore.eval host fuel [] e).attempt s = .ok outcome s') : e.value? host fuel s = outcome.toOption := by
  unfold value? EStateM.run
  unfold Run.attempt at h
  generalize ExprCore.eval host fuel [] e s = r at h ⊢
  cases r with
  | ok => cases h; rfl
  | error => cases h; rfl

theorem value?_eq (host host' : Host) (he : e.isConstant = true) {s s' : Store} (h : s.SameContainers s') :
    e.value? host fuel s = e.value? host' fuel s' := by
  obtain ⟨outcome, lists, hs, hs'⟩ := attempt_eval_beside host fuel [] he h
  rw [eval_congr he] at hs'
  rw [value?_of_attempt hs, value?_of_attempt hs']

theorem simplify?_same (host host' : Host) (fuel level : Nat) {s s' : Store} (h : s.SameContainers s') :
    simplify? (value? host fuel s) (Value.truth s) level = simplify? (value? host' fuel s') (Value.truth s') level := by
  funext x
  have hvalue (hx : x.isConstant = true) : Option.Rel (fun v v' => ∃ ρ, Value.Rough false ρ v v')
      (x.value? host fuel s) (x.value? host' fuel s') := by
    rw [value?_eq host host' hx h]
    cases x.value? host' fuel s' with
    | none => exact .none
    | some v => exact .some ⟨.same, .inl (.refl_same v)⟩
  rw [simplify?, simplify?, folded?_congr hvalue, h.truth_eq]

theorem optimize_same (host host' : Host) (fuel level : Nat) {s s' : Store} (h : s.SameContainers s') (e : Expr) :
    e.optimize host fuel level s = e.optimize host' fuel level s' := by
  rw [optimize, optimize, simplification, simplification, simplify?_same host host' fuel level h]

/-- What is evaluated ahead of time in a store with more lists is folded as in the store at the start. -/
theorem valueAhead_folded (host : Host) (fuel : Nat) (hs : s.SelfContained)
    (hl : Everywhere (fun _ => Linked s.own) layouts e) (lists : Array (List Value)) :
    ∃ v more, e.valueAhead host fuel (s.withLists lists) = .ok v (s.withLists more) ∧
      e.folded? (fun _ => v) = e.folded? (value? host fuel s) := by
  by_cases h : e.isAhead = true
  · have he := isConstant_of_isAhead h
    obtain ⟨outcome, more, hout⟩ := confined_attempt_eval host fuel [] he (s.withLists lists)
    have hout := hout _ (.refl _)
    have hvalue := value?_of_attempt hout
    refine ⟨outcome.toOption, lists ++ more, ?_, ?_⟩
    · rw [valueAhead, if_pos h, ← Store.withLists_withLists]
      exact Run.bind_ok _ hout
    · symm
      apply folded?_congr
      intro _
      rw [← hvalue]
      exact value?_unaltered (s.unaltered_withLists lists) hs host fuel he hl
  · refine ⟨none, lists, ?_, ?_⟩
    · rw [valueAhead, if_neg h]
      rfl
    · rw [folded?_of_not_ahead h, folded?_of_not_ahead h]

theorem yields_simplifyingStep (hs : s.SelfContained) (hl : Everywhere (fun _ => Linked s.own) layouts e) :
    Run.Yields s (e.simplifyingStep (valueAhead host fuel) level)
      (e.simplify? (value? host fuel s) (Value.truth s) level) := by
  intro lists
  obtain ⟨v, more, hv, hfold⟩ := valueAhead_folded host fuel hs hl lists
  refine ⟨more, (Run.bind_ok _ hv).trans ?_⟩
  have hprune : e.prune? (Value.truth s) = e.prune? (Value.truth (s.withLists more)) :=
    prune?_unaltered (s.unaltered_withLists more) hs hl
  rw [simplify?, hprune, ← hfold]
  rfl

theorem yields_settling (hs : s.SelfContained) (hl : Everywhere (fun _ => Linked s.own) layouts e) (n : Nat) :
    Run.Yields s (settling (simplifyingStep (valueAhead host fuel) level) n e)
      (settle (simplify? (value? host fuel s) (Value.truth s) level) n e).value := by
  induction n generalizing e with
  | zero => exact .pure s e
  | succ n ih =>
    apply (yields_simplifyingStep hs hl).bind
    rw [settle]
    cases h : e.simplify? (value? host fuel s) (Value.truth s) level with
    | none => exact .pure s e
    | some next => exact ih (hl.simplify? inert_linked h)

theorem yields_simplifying (hs : s.SelfContained) (hl : Everywhere (fun _ => Linked s.own) layouts e) :
    Run.Yields s (e.simplifying (valueAhead host fuel) level)
      (e.simplified (value? host fuel s) (Value.truth s) level) := by
  induction hl with
  | @intro layouts e he hc ih =>
    -- The children come to what they are simplified to, each in the store that the ones before it leave.
    have hnode : Everywhere (fun _ => Linked s.own) layouts
        (e.simplifiedChildren (value? host fuel s) (Value.truth s) level) :=
      simplifies_simplified.everywhere_children inert_linked (.intro he hc)
    rw [simplifying_eq, simplified_eq]
    apply (Run.Yields.mapM fun c hc => ih c hc).bind
    rw [withChildren_map fun _ x => x.simplified (value? host fuel s) (Value.truth s) level]
    exact yields_settling hs hnode _

/-- Optimization that keeps the lists made on the way comes to the same tree. -/
theorem yields_optimizing (host : Host) (fuel level : Nat) (hs : s.SelfContained)
    (hl : Everywhere (fun _ => Linked s.own) layouts e) :
    Run.Yields s (e.optimizing host fuel level) (e.optimize host fuel level s).value := by
  unfold optimizing optimize
  split
  · exact .pure s e
  · exact yields_simplifying hs hl

end Expr

/-- Constants are closed and harmless. A constant has one outcome on all hosts, in all frames and in all stores with
the same containers, no early return among them, and leaves nothing behind but some lists; on the way, nothing but
constants is evaluated, and in no other frames. Hence optimization, which evaluates constants ahead of time, comes to
one tree on all hosts and in all those stores. Where it keeps what the evaluations do to the store, it leaves nothing
behind but some lists either, and comes to the same tree as long as the tree and the store refer to no container that
is not there. -/
theorem constants_harmless (n : Nat) (s : Store) :
    (∀ e : Expr, e.isConstant = true →
      (∃ outcome lists, (∀ halt, outcome = .error halt → halt.Failure) ∧
        ∀ (host : Host) env s', s.SameContainers s' →
          (eval host n env e).attempt s' = .ok outcome (s'.withLists lists)) ∧
      ∀ (host : Host) env (watch : Watch), watch.Idle (.constant env) →
        evalWatched watch host n env e = eval host n env e) ∧
    ∀ level (e : Expr),
      (∀ host host' s', s.SameContainers s' → e.optimize host n level s = e.optimize host' n level s') ∧
      ∃ r lists,
        (∀ (host : Host) s', s.SameContainers s' → e.optimizing host n level s' = .ok r (s'.withLists lists)) ∧
        ∀ layouts, s.SelfContained → Expr.Everywhere (fun _ => Expr.Linked s.own) layouts e →
          ∀ host, (e.optimize host n level s).value = r := by
  constructor
  · intro e he
    refine ⟨?_, fun host env watch hw => Expr.evalWatched_of_isConstant hw he⟩
    obtain ⟨outcome, lists, hout⟩ := Expr.confined_attempt_eval (standardHost 0) n [] he s
    refine ⟨outcome, lists, ?_, fun host env s' hs => ?_⟩
    · rintro halt rfl
      exact Expr.failure_of_eval he (Run.error_of_attempt (hout s (.refl s)))
    · rw [Expr.eval_congr he]
      exact hout s' hs
  · intro level e
    refine ⟨fun host host' s' hs => Expr.optimize_same host host' n level hs e, ?_⟩
    obtain ⟨r, lists, hout⟩ := Expr.confined_optimizing (standardHost 0) n level e s
    have hall (host : Host) (s' : Store) (hs : s.SameContainers s') :
        e.optimizing host n level s' = .ok r (s'.withLists lists) := by
      rw [Expr.optimizing_congr]
      exact hout s' hs
    refine ⟨r, lists, hall, fun layouts hs hl host => ?_⟩
    obtain ⟨more, hyields⟩ := Expr.yields_optimizing host n level hs hl #[]
    rw [Store.withLists_empty] at hyields
    exact (EStateM.Result.ok.inj (hyields.symm.trans (hall host s (.refl s)))).1

namespace Sample

/-- A comparison of a new list with the list of the store. -/
def comparing : Expr :=
  .operator .binary (.compare .eq)
    [.operator .binary .range [.literal (.int 1) .int, .literal (.int 3) .int], list]

def choosing : Expr := .conditional comparing (.name "x") (.name "y")

/-- A watch that stops a run at a placeholder for a scope. -/
def alarm : Watch where
  before _ e := if e.isScopeRef then throw (.placeholder 0) else pure ()
  after _ _ _ _ := pure ()

theorem idle_alarm (env : Env) : alarm.Idle (.constant env) where
  before {s _ e} h := by
    have he : e.isScopeRef = false := by
      cases e with
      | scopeRef => cases h.2
      | _ => rfl
    simp only [alarm, he]
    rfl
  after _ := rfl

theorem linked_choosing : Expr.Everywhere (fun _ => Expr.Linked (listing [.int 7]).own) [] choosing := by
  have plain {v : Value} {t : Ty} (hv : v.isContainer = false) :
      Expr.Everywhere (fun _ => Expr.Linked (listing [.int 7]).own) [] (.literal v t) :=
    .node (by rintro _ _ ⟨⟩; exact .plain hv) trivial
  have hlist : Expr.Everywhere (fun _ => Expr.Linked (listing [.int 7]).own) [] list :=
    .node (by rintro _ _ ⟨⟩; exact .list ⟨rfl, Nat.zero_lt_one⟩) trivial
  have hrange : Expr.Everywhere (fun _ => Expr.Linked (listing [.int 7]).own) []
      (.operator .binary .range [.literal (.int 1) .int, .literal (.int 3) .int]) :=
    .node nofun ⟨plain rfl, plain rfl⟩
  exact .node nofun ⟨.node nofun ⟨hrange, hlist⟩, .node nofun trivial, .node nofun trivial⟩

end Sample

open Sample in
theorem constants_harmless_choosing :
    let s := listing [.int 7]
    (∀ (host : Host) env s', s.SameContainers s' → (eval host 9 env comparing).attempt s' =
      .ok (.ok (.bool false)) (s'.withLists #[[.int 1, .int 2, .int 3]])) ∧
    (∀ (host : Host) env, evalWatched alarm host 9 env comparing = eval host 9 env comparing) ∧
    ∃ lists, ∀ (host : Host) s', s.SameContainers s' →
      choosing.optimizing host 9 2 s' = .ok (.cast .any (.name "y")) (s'.withLists lists) := by
  intro s
  obtain ⟨hconstant, hoptimize⟩ := constants_harmless 9 s
  obtain ⟨⟨outcome, lists, -, hout⟩, hwatched⟩ := hconstant comparing rfl
  obtain ⟨-, r, more, hall, htree⟩ := hoptimize 2 choosing
  have hrun : (eval (standardHost 0) 9 [] comparing).attempt s =
      .ok (.ok (.bool false)) (s.withLists #[[.int 1, .int 2, .int 3]]) := rfl
  obtain ⟨rfl, hlists⟩ := EStateM.Result.ok.inj (hrun.symm.trans (hout (standardHost 0) [] s (.refl s)))
  obtain rfl := s.withLists_injective hlists
  obtain rfl : .cast .any (.name "y") = r := htree [] selfContained_listing linked_choosing (standardHost 0)
  exact ⟨hout, fun host env => hwatched host env alarm (idle_alarm env), more, hall⟩

end ExprCore
