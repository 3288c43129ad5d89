import ExprCore.Proofs.Lookup
import ExprCore.Proofs.Translation.Evaluation

/-!
Early and deferred resolution. A name may be bound at once or when one of the functions around it is
made; a run does the same in either case. Both runs are compared with the run of the tree in which all
names are bound at once.
-/

namespace ExprCore
set_option autoImplicit false

namespace Scope

/-- A scope within which every frame lies near enough for resolution. -/
def Near (maxLevel : Nat) (s : Scope) : Prop := ∀ frame ∈ s, s.level - frame.level ≤ maxLevel

theorem flat_layouts (s : Scope) : flat s.layouts = s.relevel fun _ => 0 := by
  rw [flat, layouts, List.map_map]
  rfl

theorem near_ofEnv (env : Env) (maxLevel : Nat) : (ofEnv env).Near maxLevel := by
  intro frame _
  rw [level_ofEnv, Nat.zero_sub]
  exact Nat.zero_le _

theorem near_function (env : Env) (layout : Layout) : ((ofEnv env).function layout).Near 1 := by
  intro frame _
  have hl : ((ofEnv env).function layout).level = 1 := congrArg (· + 1) (level_ofEnv env)
  rw [hl]
  exact Nat.sub_le _ _

theorem Near.block {maxLevel : Nat} {s : Scope} (h : s.Near maxLevel) (layout : Layout) :
    (s.block layout).Near maxLevel := by
  intro frame hf
  rcases List.mem_cons.mp hf with rfl | hf
  · exact (Nat.sub_self _).trans_le (Nat.zero_le _)
  · exact h frame hf

end Scope

namespace Expr

theorem resolveNode?_mapChildren {f : Entry → Expr → Expr}
    (hf : ∀ x hops, f .here x = .scopeRef hops ↔ x = .scopeRef hops) (maxLevel : Nat) (scope : Scope)
    (e : Expr) : (e.mapChildren f).resolveNode? maxLevel scope = e.resolveNode? maxLevel scope := by
  cases e with
  | member kind object field =>
    cases kind with
    | classMember =>
      show (f .here object).member? scope field = object.member? scope field
      have hx := hf object
      generalize f .here object = y at hx
      cases object with
      | scopeRef hops => rw [(hx hops).mpr rfl]
      | _ =>
        cases y with
        | scopeRef hops => cases (hx hops).mp rfl
        | _ => rfl
    | hostField | mapEntry => rfl
  | _ => rfl

/-- A node resolves to a slot, which it also resolves to across any number of levels. -/
theorem resolveNode?_flat {maxLevel : Nat} {scope : Scope} {e r : Expr}
    (h : e.resolveNode? maxLevel scope = some r) :
    ∃ b, r = .var b ∧
      e.resolveNode? 0 (Scope.flat scope.layouts) = some (.var { b with level := 0 }) := by
  cases e with
  | name n =>
    simp only [resolveNode?] at h ⊢
    cases hl : scope.lookup? n with
    | none => rw [hl] at h; cases h
    | some b =>
      rw [hl] at h
      simp only at h
      split at h <;> cases h
      refine ⟨b, rfl, ?_⟩
      have hlevel := Scope.level_flat scope.layouts
      rw [Scope.flat_layouts] at hlevel ⊢
      rw [Scope.lookup?_relevel, hl, hlevel]
      rfl
  | member kind object field =>
    cases kind with
    | classMember =>
      cases object with
      | scopeRef hops =>
        simp only [resolveNode?, member?] at h ⊢
        obtain ⟨b, hb, rfl⟩ := Option.map_eq_some_iff.mp h
        refine ⟨b, rfl, ?_⟩
        rw [Scope.flat_layouts, Scope.lookupAt?_relevel, hb]
        rfl
      | _ => cases h
    | hostField | mapEntry => cases h
  | _ => cases h

theorem resolveNode?_flat_none {maxLevel : Nat} {scope : Scope} {e : Expr} (hs : scope.Near maxLevel)
    (h : e.resolveNode? maxLevel scope = none) :
    e.resolveNode? 0 (Scope.flat scope.layouts) = none := by
  cases e with
  | name n =>
    simp only [resolveNode?] at h ⊢
    rw [Scope.flat_layouts, Scope.lookup?_relevel]
    cases hl : scope.lookup? n with
    | none => rfl
    | some b =>
      obtain ⟨frame, hf, hb⟩ := Scope.level_of_lookupFrom? hl
      rw [hl] at h
      simp only [← hb, if_pos (hs frame hf)] at h
      cases h
  | member kind object field =>
    cases kind with
    | classMember =>
      cases object with
      | scopeRef hops =>
        simp only [resolveNode?, member?] at h ⊢
        rw [Scope.flat_layouts, Scope.lookupAt?_relevel, Option.map_eq_none_iff.mp h]
        rfl
      | _ => rfl
    | hostField | mapEntry => rfl
  | _ => rfl

theorem value_resolve_node (maxLevel : Nat) (scope : Scope) (e : Expr) :
    (e.resolve maxLevel scope).value =
      (e.resolveNode? maxLevel scope).getD (e.resolveChildren maxLevel scope) := by
  rw [value_resolve, resolveNode?_mapChildren fun x hops => ⟨resolve_scopeRef, by rintro rfl; rfl⟩]
  cases e.resolveNode? maxLevel scope <;> rfl

/-- A slot without the level of its declaration, which evaluation does not look at. -/
def unleveled : Expr → Expr
  | .var b => .var { b with level := 0 }
  | e => e

/-- A node, within the body of a function that is still to be made or outside. Within it, names are
bound across any number of levels. -/
def completeNode (inner : Bool) (layouts : List Layout) (e : Expr) : Expr :=
  ((if inner then e.resolveNode? 0 (Scope.flat layouts) else none).getD e).unleveled

/-- The pass that binds at once what is bound when functions are made. -/
def completion : Pass (Bool × List Layout) where
  enterBlock c layout := (c.1, layout :: c.2)
  enterFunction c layout := (true, layout :: c.2)
  rule c e := pure (e.completeNode c.1 c.2)

/-- A tree in which the names within functions are bound, and its own if it is the body of one that is
still to be made. -/
def complete (inner : Bool) (layouts : List Layout) (e : Expr) : Expr :=
  (completion.revise (inner, layouts) e).value

end Expr

def Entry.defers (inner : Bool) : Entry → Bool
  | .function _ => true
  | _ => inner

namespace Expr

variable {inner : Bool} {layouts : List Layout} {e : Expr} {maxLevel : Nat} {scope : Scope}

theorem complete_eq (inner : Bool) (layouts : List Layout) (e : Expr) :
    e.complete inner layouts = (e.mapChildren fun entry x =>
      x.complete (entry.defers inner) (entry.push layouts)).completeNode inner layouts := by
  rw [complete, Pass.value_revise]
  show completeNode _ _ _ = _
  refine congrArg (completeNode inner layouts) (mapChildren_congr fun x _ => ?_)
  cases x.1 <;> rfl

theorem unleveled_mapChildren (h : ∀ b, e ≠ .var b) (f : Entry → Expr → Expr) :
    (e.mapChildren f).unleveled = e.mapChildren f := by
  cases e with
  | var b => exact absurd rfl (h b)
  | _ => rfl

theorem completeNode_scopeRef {x : Expr} {hops : Nat}
    (h : x.completeNode inner layouts = .scopeRef hops) : x = .scopeRef hops := by
  rw [completeNode] at h
  cases hr : (if inner then x.resolveNode? 0 (Scope.flat layouts) else none) with
  | some r =>
    rw [hr] at h
    cases inner with
    | true =>
      obtain ⟨b, rfl, -⟩ := resolveNode?_flat hr
      cases h
    | false => cases hr
  | none =>
    rw [hr] at h
    cases x <;> cases h
    rfl

theorem complete_scopeRef (x : Expr) (hops : Nat) :
    x.complete inner layouts = .scopeRef hops ↔ x = .scopeRef hops := by
  constructor
  · intro h
    rw [complete_eq] at h
    have hx := completeNode_scopeRef h
    cases x <;> cases hx
    rfl
  · rintro rfl
    rw [complete_eq]
    cases inner <;> rfl

theorem complete_node (inner : Bool) (layouts : List Layout) (e : Expr) :
    e.complete inner layouts =
      ((if inner then e.resolveNode? 0 (Scope.flat layouts) else none).getD
        (e.mapChildren fun entry x => x.complete (entry.defers inner) (entry.push layouts))).unleveled := by
  rw [complete_eq, completeNode, resolveNode?_mapChildren fun x hops => complete_scopeRef x hops]

theorem defers_or_near (h : inner = true ∨ scope.Near maxLevel) (entry : Entry) :
    entry.defers inner = true ∨ (scope.enter entry).Near maxLevel := by
  cases entry with
  | here => exact h
  | block layout => exact h.imp_right fun h => h.block layout
  | function => exact .inl rfl

theorem defers_true (entry : Entry) : entry.defers true = true := by
  cases entry <;> rfl

/-- What is bound by resolution, near or not, is bound by completion anyway. -/
theorem complete_resolve (h : inner = true ∨ scope.Near maxLevel) (e : Expr) :
    (e.resolve maxLevel scope).value.complete inner scope.layouts =
      e.complete true scope.layouts := by
  induction e using childInduction generalizing inner scope with
  | step e ih =>
    rw [value_resolve_node]
    cases hr : e.resolveNode? maxLevel scope with
    | some r =>
      obtain ⟨b, rfl, hb⟩ := resolveNode?_flat hr
      rw [complete_node true, if_pos rfl, hb]
      rw [Option.getD_some, complete_node]
      cases inner <;> rfl
    | none =>
      have hc : (e.resolveChildren maxLevel scope).mapChildren (fun entry x =>
          x.complete (entry.defers inner) (entry.push scope.layouts)) =
          e.mapChildren fun entry x => x.complete (entry.defers true) (entry.push scope.layouts) := by
        rw [resolveChildren, mapChildren_mapChildren]
        refine mapChildren_congr fun x hx => ?_
        rw [← Scope.layouts_enter, ih x hx (defers_or_near h x.1), defers_true]
      rw [Option.getD_none, complete_node, complete_node true, hc,
        resolveNode?_mapChildren fun x hops => ⟨resolve_scopeRef, by rintro rfl; rfl⟩, if_pos rfl]
      rcases h with rfl | h
      · rw [if_pos rfl]
      · rw [resolveNode?_flat_none h hr, ite_self]

theorem resolve_complete (maxLevel : Nat) (scope : Scope) (e : Expr) :
    ((e.complete true scope.layouts).resolve maxLevel scope).value =
      e.complete true scope.layouts := by
  induction e using childInduction generalizing scope with
  | step e ih =>
    rw [complete_node true, if_pos rfl]
    cases hr : e.resolveNode? 0 (Scope.flat scope.layouts) with
    | some r =>
      obtain ⟨b, rfl, -⟩ := resolveNode?_flat hr
      rfl
    | none =>
      rw [Option.getD_none]
      by_cases hv : ∃ b, e = .var b
      · obtain ⟨b, rfl⟩ := hv
        rfl
      rw [unleveled_mapChildren (fun b he => hv ⟨b, he⟩), value_resolve_node,
        resolveNode?_mapChildren fun x hops => complete_scopeRef x hops]
      have hnone : e.resolveNode? maxLevel scope = none := by
        refine Option.eq_none_iff_forall_ne_some.mpr fun r h => ?_
        obtain ⟨b, -, hb⟩ := resolveNode?_flat h
        rw [hb] at hr
        cases hr
      rw [hnone, Option.getD_none, resolveChildren, mapChildren_mapChildren]
      refine mapChildren_congr fun x hx => ?_
      rw [defers_true, ← Scope.layouts_enter]
      exact ih x hx _

end Expr

def completing : Translation where
  tree := Expr.complete false
  body := Expr.complete true

theorem completing_lawful : completing.Lawful where
  var _ b := ⟨0, rfl⟩
  node {layouts e} hv := by
    show e.complete false layouts = _
    rw [Expr.complete_node, if_neg (by nofun), Option.getD_none, Expr.unleveled_mapChildren hv]
    exact Expr.mapChildren_congr fun x _ => by cases x.1 <;> rfl
  made env layout x := by
    have hl : ((Scope.ofEnv env).function layout).layouts = layout :: env.layouts :=
      congrArg (layout :: ·) (Scope.layouts_ofEnv env)
    show Expr.complete false _ _ = (Expr.resolve _ _ (Expr.complete true _ _)).value
    rw [← hl, Expr.resolve_complete, Expr.complete_resolve (.inr (Scope.near_function env layout))]

/-- Functions that are the same, apart from names in the bodies of functions that are still to be made:
there a name may be bound in one and deferred in the other. -/
inductive Callable.Corresponds : Callable → Callable → Prop where
  | native (f : Native) : Corresponds (.native f) (.native f)
  | operator (op : Operation) : Corresponds (.operator op) (.operator op)
  | closure {signature : Signature} {body body' : Expr} {env : Env}
    (h : body.complete false (signature.layout :: env.layouts) =
      body'.complete false (signature.layout :: env.layouts)) :
    Corresponds (.closure ⟨signature, body, env⟩) (.closure ⟨signature, body', env⟩)

/-- Stores that are the same apart from functions, which correspond. -/
structure Store.Corresponds (s s' : Store) : Prop where
  functions : List.Forall₂ Callable.Corresponds s.functions.toList s'.functions.toList
  others : { s' with functions := s.functions } = s

/-- The same value or the same failure, and stores that correspond. -/
inductive SameAnswer : EStateM.Result Halt Store Value → EStateM.Result Halt Store Value → Prop where
  | ok {v : Value} {s s' : Store} (h : s.Corresponds s') : SameAnswer (.ok v s) (.ok v s')
  | error {halt : Halt} {s s' : Store} (h : s.Corresponds s') :
    SameAnswer (.error halt s) (.error halt s')

theorem Callable.corresponds_of_completing {f f' : Callable}
    (h : completing.callable f = completing.callable f') : f.Corresponds f' := by
  cases f with
  | native f => cases f' <;> cases h; exact .native f
  | operator op => cases f' <;> cases h; exact .operator op
  | closure f =>
    cases f' with
    | native | operator => cases h
    | closure f' =>
      obtain ⟨signature, body, env⟩ := f
      obtain ⟨signature', body', env'⟩ := f'
      simp only [Translation.callable, Callable.closure.injEq, Closure.mk.injEq] at h
      obtain ⟨rfl, hb, rfl⟩ := h
      exact .closure hb

theorem Store.corresponds_of_completing {s s' : Store} (h : completing.store s = completing.store s') :
    s.Corresponds s' where
  functions := by
    have hf := congrArg (fun s => s.functions.toList) h
    simp only [Translation.store, Array.toList_map] at hf
    rw [← List.forall₂_eq_eq_eq, List.forall₂_map_left_iff, List.forall₂_map_right_iff] at hf
    exact hf.imp fun _ _ => Callable.corresponds_of_completing
  others := by
    have hs := congrArg (fun t => { t with functions := s.functions }) h
    exact hs.symm

theorem SameAnswer.of_completing {r r' : EStateM.Result Halt Store Value}
    (h : completing.result r = completing.result r') : SameAnswer r r' := by
  cases r with
  | ok v s =>
    cases r' with
    | error => cases h
    | ok v' s' =>
      simp only [Translation.result, EStateM.Result.ok.injEq] at h
      obtain ⟨rfl, hs⟩ := h
      exact .ok (Store.corresponds_of_completing hs)
  | error halt s =>
    cases r' with
    | ok => cases h
    | error halt' s' =>
      simp only [Translation.result, EStateM.Result.error.injEq] at h
      obtain ⟨rfl, hs⟩ := h
      exact .error (Store.corresponds_of_completing hs)

/-- Writes down, among the calls of host code, the static types of every node that is evaluated and of
what it assigns to. -/
def Watch.typing (label : List Ty → Call) : Watch where
  before _ e := Run.recordCall (label ((e :: e.targets).map Expr.type))
  after _ _ _ _ := pure ()

theorem completing_evaluates_typing (label : List Ty → Call) (host : Host) (n : Nat) :
    completing.Evaluates (evalWatched (.typing label) host n)
      (evalWatched (.typing label) host n) := by
  refine Translation.commutes_evalWatched completing_lawful (fun env e => ?_) (fun _ _ _ _ => .pure ())
    host n
  have htypes := completing_lawful.types_targets env.layouts e
  have htype := completing_lawful.type_tree env.layouts e
  show completing.Commutes (Run.recordCall _) (Run.recordCall _)
  rw [List.map_cons, List.map_cons, htype, htypes]
  exact fun _ => rfl

/-- However far the first resolution reaches, the run is the run of the completed tree. -/
theorem completing_resolved {ev : Env → Expr → Run Value} (hev : completing.Evaluates ev ev)
    (globals : Env) (maxLevel : Nat) (e : Expr) (s : Store) :
    completing.result
        (Run.catchReturn (ev globals (e.resolve maxLevel (.ofEnv globals)).value) s) =
      Run.catchReturn (ev globals (e.complete true globals.layouts)) (completing.store s) := by
  rw [← Scope.layouts_ofEnv, ← Expr.complete_resolve (.inr (Scope.near_ofEnv globals maxLevel)),
    Scope.layouts_ofEnv]
  exact ((hev globals _).catchReturn s).symm

/-- How many levels the first resolution binds across makes no difference: runs of one tree from one
store have the same outcome, and evaluate nodes of the same types. -/
theorem deferred_resolution_agrees (globals : Env) (host : Host) (fuel : Nat) (e : Expr) (s : Store)
    (maxLevel maxLevel' : Nat) :
    let i : Interpreter := ⟨⟨0, maxLevel⟩, globals⟩
    let j : Interpreter := ⟨⟨0, maxLevel'⟩, globals⟩
    SameAnswer (i.run host fuel e s) (j.run host fuel e s) ∧
      ∀ label, SameAnswer ((Request.run fuel e).answerWatched i host (.typing label) s)
        ((Request.run fuel e).answerWatched j host (.typing label) s) := by
  intro i j
  -- Both runs are the run of the completed tree.
  refine ⟨.of_completing ?_, fun label => .of_completing ?_⟩
  · have hev := Translation.commutes_eval completing_lawful host fuel
    exact (completing_resolved hev globals maxLevel e s).trans
      (completing_resolved hev globals maxLevel' e s).symm
  · have hev := completing_evaluates_typing label host fuel
    exact (completing_resolved hev globals maxLevel e s).trans
      (completing_resolved hev globals maxLevel' e s).symm

end ExprCore
