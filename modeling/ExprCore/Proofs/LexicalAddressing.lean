import ExprCore.Host.Classes
import ExprCore.Proofs.Contexts
import ExprCore.Proofs.Invariants.Requests
import ExprCore.Proofs.Lookup

/-!
Slots and names. At every moment of every run a slot is the one that a look at the live frames finds
for its name, and a name that is still free is declared by none of them.
-/

namespace ExprCore
set_option autoImplicit false

/-- A binding that leads to the cell that its name stands for, with the type and the modifier of the
declaration. -/
def Binding.Lexical (env : Env) (b : Binding) : Prop :=
  ∃ r slot, env.Finds b.name r slot ∧ env.cell? b.depth b.address = some r ∧ b.type = slot.type ∧
    b.final = slot.final

/-- Slots are bound as their names say, and free names stand for nothing. -/
def Expr.Lexical (env : Env) : Expr → Prop
  | .var b => b.Lexical env
  | .name n => env.Lacks n
  | _ => True

/-- Every slot that is evaluated or written, and every name that fails. -/
def lexicalMoments : Moments where
  before _ env e := e.Lexical env ∧ ∀ x ∈ e.targets, x.Lexical env
  after _ _ _ _ _ := True

namespace Scope

def lowered (s : Scope) : Scope := s.relevel (· - 1)

theorem level_lowered (s : Scope) : s.lowered.level = s.level - 1 := level_relevel (· - 1) rfl

theorem lowered_function (env : Env) (layout : Layout) (base : Ref) :
    ((ofEnv env).function layout).lowered = ofEnv (⟨layout, base⟩ :: env) := by
  have henv : (ofEnv env).lowered = ofEnv env := by simp [lowered, relevel, ofEnv]
  show ⟨layout, (ofEnv env).level + 1 - 1⟩ :: (ofEnv env).lowered = ⟨layout, 0⟩ :: ofEnv env
  rw [level_ofEnv, henv]

theorem lowered_enter {s : Scope} (hs : 1 ≤ s.level) (entry : Entry) :
    (s.enter entry).lowered = s.lowered.enter entry := by
  cases entry with
  | here => rfl
  | block layout =>
    show ⟨layout, s.level - 1⟩ :: s.lowered = ⟨layout, s.lowered.level⟩ :: s.lowered
    rw [level_lowered]
  | function layout =>
    show ⟨layout, s.level + 1 - 1⟩ :: s.lowered = ⟨layout, s.lowered.level + 1⟩ :: s.lowered
    rw [level_lowered, Nat.add_sub_cancel, Nat.sub_add_cancel hs]

theorem level_enter {s : Scope} (hs : 1 ≤ s.level) (entry : Entry) : 1 ≤ (s.enter entry).level := by
  cases entry with
  | here => exact hs
  | block => exact hs
  | function => exact Nat.le_add_left 1 _

theorem lookup?_lowered (name : String) (s : Scope) :
    s.lowered.lookup? name = (s.lookup? name).map fun b => { b with level := b.level - 1 } :=
  lookup?_relevel (· - 1) name s

end Scope

namespace Expr

/-- A slot is the one that a look at the scope finds for its name, and no scope is referred to by
its distance. -/
def Addressed (scope : Scope) : Expr → Prop
  | .var b => ∃ level, scope.lookup? b.name = some { b with level := level }
  | .scopeRef _ => False
  | _ => True

/-- A name is free only if its declaration lies outside the function around it. -/
def Deferred (scope : Scope) : Expr → Prop
  | .name n => ∀ b, scope.lookup? n = some b → b.level < scope.level
  | _ => True

abbrev Bound : Scope → Expr → Prop :=
  Within Scope.enter fun scope e => e.Addressed scope ∧ e.Deferred scope

theorem addressed_mapChildren {scope : Scope} {e : Expr} (h : e.Addressed scope)
    (f : Entry → Expr → Expr) : (e.mapChildren f).Addressed scope := by
  cases e <;> exact h

theorem deferred_mapChildren {scope : Scope} {e : Expr} (h : e.Deferred scope)
    (f : Entry → Expr → Expr) : (e.mapChildren f).Deferred scope := by
  cases e <;> exact h

theorem Bound.lexical {env : Env} {e : Expr} (h : Bound (Scope.ofEnv env) e) : e.Lexical env := by
  obtain ⟨ha, hd⟩ := h.holds
  cases e with
  | var b =>
    obtain ⟨level, hl⟩ := ha
    have hf := Scope.finds_of_lookup? (Scope.layouts_ofEnv env) hl
    exact hf
  | name n =>
    cases hl : (Scope.ofEnv env).lookup? n with
    | none => exact Scope.lacks_of_lookupFrom? (Scope.layouts_ofEnv env) hl
    | some b => exact absurd (hd b hl) (by rw [Scope.level_ofEnv]; exact Nat.not_lt_zero _)
  | _ => trivial

theorem bound_resolve {scope : Scope} {e : Expr}
    (h : Within Scope.enter (fun s e => e.Addressed s) scope e) (maxLevel : Nat) :
    Bound scope (e.resolve maxLevel scope).value := by
  refine h.resolve (R := fun s c d => s = c ∧ s = d) ?_ ?_ ⟨rfl, rfl⟩
  · rintro s _ _ entry ⟨rfl, rfl⟩
    exact ⟨rfl, rfl⟩
  · rintro s _ _ e ⟨rfl, rfl⟩ he
    have hr := resolves maxLevel s e
    generalize (e.resolve maxLevel s).value = r at hr
    cases hr with
    | @name n b hb hl =>
      obtain rfl := Scope.lookupFrom?_name hb
      exact ⟨⟨b.level, hb⟩, trivial⟩
    | @member hops =>
      exact (he.child (x := (.here, .scopeRef hops)) List.mem_cons_self).holds.elim
    | kept hn =>
      refine ⟨addressed_mapChildren he.holds _, ?_⟩
      cases e with
      | name n =>
        intro b hb
        have := hn n rfl b hb
        omega
      | _ => trivial

/-- The resolution of a body when its function is made, after which the frame of the function is one
of the live frames. -/
theorem bound_lambda {env : Env} {layout : Layout} {body : Expr} (base : Ref)
    (h : Bound ((Scope.ofEnv env).function layout) body) :
    Bound (Scope.ofEnv (⟨layout, base⟩ :: env))
      (body.resolve 1 ((Scope.ofEnv env).function layout)).value := by
  rw [← Scope.lowered_function]
  -- The frame of the function is live now, so that the levels of all frames inside go down by one.
  refine h.resolve (R := fun s c d => s = c ∧ s.lowered = d ∧ 1 ≤ s.level) ?_ ?_
    ⟨rfl, rfl, Nat.le_add_left 1 _⟩
  · rintro s _ _ entry ⟨rfl, rfl, hs⟩
    exact ⟨rfl, Scope.lowered_enter hs entry, Scope.level_enter hs entry⟩
  · rintro s _ _ e ⟨rfl, rfl, hs⟩ he
    obtain ⟨ha, hd⟩ := he.holds
    have hr := resolves 1 s e
    generalize (e.resolve 1 s).value = r at hr
    cases hr with
    | @name n b hb hl =>
      obtain rfl := Scope.lookupFrom?_name hb
      refine ⟨⟨b.level - 1, ?_⟩, trivial⟩
      rw [Scope.lookup?_lowered, hb]
      rfl
    | @member hops =>
      exact (he.child (x := (.here, .scopeRef hops)) List.mem_cons_self).holds.1.elim
    | kept hn =>
      refine ⟨addressed_mapChildren ?_ _, ?_⟩
      · cases e with
        | var b =>
          obtain ⟨level, hl⟩ := ha
          refine ⟨level - 1, ?_⟩
          rw [Scope.lookup?_lowered, hl]
          rfl
        | scopeRef => exact ha
        | _ => trivial
      · cases e with
        | name n =>
          intro b hb
          rw [Scope.lookup?_lowered] at hb
          obtain ⟨b', hb', rfl⟩ := Option.map_eq_some_iff.mp hb
          have := hn n rfl b' hb'
          rw [Scope.level_lowered]
          show b'.level - 1 < s.level - 1
          omega
        | _ => trivial

theorem bound_optimize {scope : Scope} {e : Expr} (h : Bound scope e) (host : Host)
    (fuel level : Nat) (s : Store) : Bound scope (optimize host fuel level s e).value :=
  h.simplified (simplifies_optimize host fuel level s) (fun _ => rfl) (fun _ _ _ _ _ => ⟨trivial, trivial⟩)
    (fun _ _ _ => ⟨trivial, trivial⟩) (fun _ _ => ⟨trivial, trivial⟩)
    fun _ _ hx _ => ⟨addressed_mapChildren hx.holds.1 _, deferred_mapChildren hx.holds.2 _⟩

end Expr

/-- A function whose body, if it has one, is bound in the frames that it is made in. -/
def Callable.Lexical : Callable → Prop
  | .closure f => Expr.Bound (⟨f.signature.layout, 0⟩ :: Scope.ofEnv f.env) f.body
  | _ => True

/-- All functions are lexical, and bound trees are evaluated. -/
def lexicalDiscipline : Discipline Still where
  good _ s := ∀ f ∈ s.functions, f.Lexical
  value _ _ := True
  slot _ _ _ := True
  callable _ f := f.Lexical
  tree _ env e := Expr.Bound (Scope.ofEnv env) e
  typed := False

theorem lexicalDiscipline_lawful : lexicalDiscipline.Lawful where
  value_mono _ h := h
  slot_mono _ h := h
  callable_mono _ h := h
  tree_mono _ h := h
  plain _ := trivial
  held _ _ := trivial
  child ht hx := ht.child hx
  literal _ := ⟨trivial, False.elim⟩
  var h := h.elim
  target _ _ _ _ := trivial
  member _ _ := trivial
  function r hs := Store.forall_callable hs trivial r
  lambda ht := Expr.bound_lambda 0 (ht.child List.mem_cons_self)
  default _ _ _ := trivial
  native _ := honestBody_of_all (fun _ _ => trivial) (fun _ _ => trivial) _ _
  builtIn _ := trivial
  host _ := honestBody_of_all (fun _ _ => trivial) (fun _ _ => trivial) _ _
  operation _ _ := trivial
  enterBlock := by
    intro w env layout body ret s ht hs
    refine ⟨w, le_rfl, hs, fun e he => ?_⟩
    have hscope : (Scope.ofEnv env).block layout =
        Scope.ofEnv (⟨layout, s.cells.size⟩ :: env) := by
      rw [Scope.block, Scope.level_ofEnv]
      rfl
    show Expr.Bound (Scope.ofEnv (⟨layout, s.cells.size⟩ :: env)) e
    rw [← hscope]
    exact ht.child (List.mem_map_of_mem he)
  enterClosure hf _ _ hs := ⟨.still, le_rfl, hs, hf⟩
  writeCell hs _ _ _ := hs
  newList hs _ := ⟨.still, le_rfl, hs, trivial⟩
  newArray hs _ _ := ⟨.still, le_rfl, hs, trivial⟩
  writeList hs _ _ := hs
  writeArray hs _ _ _ := hs
  buffers hs := hs
  maps hs _ := hs
  records hs _ := hs
  newObject hs := ⟨.still, le_rfl, hs⟩
  calls hs _ := hs
  newFunction hs hf := Array.forall_mem_push.mpr ⟨hf, hs⟩

theorem lexicalDiscipline_vouches : lexicalDiscipline.Vouches lexicalMoments where
  before _ ht := ⟨ht.lexical, fun _ hx => Expr.Bound.lexical (ht.child (Expr.target_mem_children hx))⟩
  after _ _ _ _ _ := trivial

/-- The nodes that resolution makes or looks through. -/
def Expr.isScoped : Expr → Bool
  | .var _ | .scopeRef _ => true
  | _ => false

/-- Trees of names, without slots and without scopes that are referred to by their distance. -/
abbrev Expr.Nameful (e : Expr) : Prop := Everywhere (fun _ e => e.isScoped = false) [] e

namespace Expr

variable {i : Interpreter} {host : Host} {e : Expr}

theorem bound_prepare (h : Within Scope.enter (fun s e => e.Addressed s) i.scope e) (fuel : Nat)
    (s : Store) : Bound i.scope (i.prepare host fuel s e).value :=
  bound_optimize (bound_resolve h _) host fuel _ s

theorem Written.addressed (h : e.Written Nameful i host) :
    Within Scope.enter (fun s e => e.Addressed s) i.scope e := by
  induction h with
  | source h =>
    refine .ofEverywhere (R := fun _ _ => True) (fun _ _ _ _ => trivial) (fun _ c e _ he => ?_) h
      trivial
    have := he.holds
    cases e <;> trivial
  | prepared fuel s _ ih =>
    refine (bound_prepare ih fuel s).imp (R := Eq) ?_ ?_ rfl
    · rintro c _ entry rfl
      rfl
    · rintro c _ e rfl h
      exact h.1

end Expr

theorem lexicalDiscipline_admits {i : Interpreter} {host : Host} {r : Request}
    (hr : r.Written Expr.Nameful i host) (s : Store) : lexicalDiscipline.Admits i host .still s r := by
  cases r with
  | run fuel e => exact Expr.bound_prepare hr.addressed fuel s
  | eval fuel e =>
    obtain ⟨x, n, s', hx, rfl⟩ := hr
    exact Expr.bound_prepare hx.addressed n s'
  | call => exact fun _ _ => trivial

/-- At every moment of every request that may follow others, slots are the ones that their names
stand for, and names that fail stand for nothing. -/
theorem lexical_addressing {i : Interpreter} {host : Host} {s₀ s : Store} {known vs : List Value}
    (hf : ∀ f ∈ s₀.functions, f.Lexical)
    (h : Session (fun r => r.answer i host) (fun _ r => r.Written Expr.Nameful i host) s₀ known vs s)
    {r : Request} (hr : r.Written Expr.Nameful i host) : r.Always i host lexicalMoments s := by
  have hh : host.Honest lexicalDiscipline.value lexicalDiscipline.made :=
    host.honest_of_all (fun _ _ => trivial) fun _ _ => trivial
  obtain ⟨_, -, hs, -⟩ := Discipline.session lexicalDiscipline_lawful hh .still hf
    (fun _ _ => trivial) (fun _ s _ r _ _ _ hr => lexicalDiscipline_admits hr s) h
  exact Discipline.always lexicalDiscipline_lawful hh lexicalDiscipline_vouches hs
    (lexicalDiscipline_admits hr s)

/-- A function is made in a block and called when the block has ended. -/
theorem lexical_addressing_escaping :
    let i : Interpreter := ⟨.default, [⟨[⟨"x", .int, false⟩], 0⟩]⟩
    let s : Store := { cells := #[.int 5] }
    let make : Expr := .block [⟨"y", .int, false⟩]
      [.assign .declare (.name "y") (.name "x"), .lambda ⟨none, [], none, .any⟩ (.name "y")] .any
    Request.Always i (standardHost 0) lexicalMoments (.run 9 (.apply make [])) s := by
  intro i s make
  have hsource : (Expr.apply make []).Nameful :=
    .node rfl <| .node rfl
      ⟨.node rfl ⟨.node rfl trivial, .node rfl trivial⟩, .node rfl (.node rfl trivial)⟩
  have hstart : Session (fun r => r.answer i (standardHost 0))
      (fun _ r => r.Written Expr.Nameful i (standardHost 0)) s [] [] s := .start
  exact lexical_addressing (fun _ hf => absurd hf (Array.not_mem_empty _)) hstart
    (r := .run 9 (.apply make [])) (.source hsource)

end ExprCore
