import ExprCore.Proofs.EarlyReturns
import ExprCore.Proofs.Translation.Computations
import ExprCore.Proofs.UnalteredContainers
import ExprCore.Proofs.Watching

/-!
Runs of constants. A constant may look into the containers of the store and make lists, and it does nothing else:
of a run with another host, in other frames and in a store that has nothing but its containers in common, it is
the same run.
-/

namespace ExprCore
set_option autoImplicit false

open Correspondence (Runs)

namespace Store

variable {s s' : Store}

def withLists (s : Store) (lists : Array (List Value)) : Store :=
  { s with sequences := s.sequences ++ lists }

@[simp] theorem withLists_empty (s : Store) : s.withLists #[] = s := by
  rw [withLists, Array.append_empty]

@[simp] theorem withLists_withLists (s : Store) (lists more : Array (List Value)) :
    (s.withLists lists).withLists more = s.withLists (lists ++ more) := by
  simp only [withLists, Array.append_assoc]

theorem withLists_push (s : Store) (lists : Array (List Value)) (items : List Value) :
    { s.withLists lists with sequences := (s.withLists lists).sequences.push items } =
      s.withLists (lists.push items) := by
  simp only [withLists, Array.append_push]

theorem withLists_injective (s : Store) {lists lists' : Array (List Value)}
    (h : s.withLists lists = s.withLists lists') : lists = lists' :=
  Array.append_right_inj s.sequences |>.mp (congrArg Store.sequences h)

theorem unaltered_withLists (s : Store) (lists : Array (List Value)) : s.Unaltered (s.withLists lists) where
  sequences _ hr := Array.getElem?_append_left hr
  buffers _ _ := rfl
  maps _ _ := rfl

/-- Stores with the same containers. They may differ in all other parts: in their cells and objects, in the
functions and records, and in the calls of host code. -/
structure SameContainers (s s' : Store) : Prop where
  sequences : s'.sequences = s.sequences
  buffers : s'.buffers = s.buffers
  maps : s'.maps = s.maps

namespace SameContainers

theorem refl (s : Store) : s.SameContainers s := ⟨rfl, rfl, rfl⟩

theorem withLists (h : s.SameContainers s') (lists : Array (List Value)) :
    (s.withLists lists).SameContainers (s'.withLists lists) where
  sequences := congrArg (· ++ lists) h.sequences
  buffers := h.buffers
  maps := h.maps

theorem contents (h : s.SameContainers s') : Store.Contents .same s s' where
  items hr := by
    have hi := s.contents_same.items hr
    unfold items at hi ⊢
    rwa [h.sequences]
  chars hr := by
    have hc := s.contents_same.chars hr
    unfold chars at hc ⊢
    rwa [h.buffers]
  entries hr := by
    have he := s.contents_same.entries hr
    unfold entries at he ⊢
    rwa [h.maps]

theorem truth_eq (h : s.SameContainers s') : Value.truth s' = Value.truth s := by
  funext v
  exact (h.contents.truth_eq (.refl_same v)).symm

end SameContainers

end Store

namespace Run

variable {α β : Type} {x : Run α} {f : α → Run β}

theorem attempt_ok {a : α} {s s₁ : Store} (h : x s = .ok a s₁) : x.attempt s = .ok (.ok a) s₁ := by
  rw [attempt, h]

theorem attempt_error {halt : Halt} {s s₁ : Store} (h : x s = .error halt s₁) :
    x.attempt s = .ok (.error halt) s₁ := by
  rw [attempt, h]

theorem error_of_attempt {halt : Halt} {s s₁ : Store} (h : x.attempt s = .ok (.error halt) s₁) :
    x s = .error halt s₁ := by
  unfold attempt at h
  split at h
  · cases h
  · rename_i hx
    cases h
    exact hx

theorem eq_of_attempt_eq {y : Run α} {s s' : Store} (h : x.attempt s = y.attempt s') : x s = y s' := by
  unfold attempt at h
  generalize x s = r, y s' = r' at h
  cases r <;> cases r' <;> cases h <;> rfl

/-- A computation that reads nothing but containers and changes nothing but that it may make lists. It yields the
same value and makes the same lists in all stores with the same containers. -/
def Confined (x : Run α) : Prop :=
  ∀ s : Store, ∃ a lists, ∀ s', s.SameContainers s' → x s' = .ok a (s'.withLists lists)

namespace Confined

theorem pure (a : α) : Confined (Pure.pure a) := by
  intro s
  refine ⟨a, #[], fun s' _ => ?_⟩
  rw [Store.withLists_empty]
  rfl

theorem bind (hx : Confined x) (hf : ∀ a, Confined (f a)) : Confined (x >>= f) := by
  intro s
  obtain ⟨a, lists, hx⟩ := hx s
  obtain ⟨b, more, hf⟩ := hf a (s.withLists lists)
  refine ⟨b, lists ++ more, fun s' hs => ?_⟩
  rw [bind_ok f (hx s' hs), hf _ (hs.withLists lists), Store.withLists_withLists]

theorem get_bind {f : Store → Run β} (h : ∀ s s', s.SameContainers s' → f s' = f s) (hf : ∀ s, Confined (f s)) :
    Confined (get >>= f) := by
  intro s
  obtain ⟨b, lists, hf⟩ := hf s s
  refine ⟨b, lists, fun s' hs => ?_⟩
  show f s' s' = _
  rw [h s s' hs]
  exact hf s' hs

end Confined

end Run

namespace Correspondence

/-- Two runs that have added the same lists to stores with the same containers. -/
def beside (lax : Bool) {s s' : Store} (h : s.SameContainers s') : Correspondence where
  World := Still
  order := inferInstance
  links _ := .same
  links_mono _ := le_rfl
  strict := true
  lax := lax
  good _ t t' := ∃ lists, t = s.withLists lists ∧ t' = s'.withLists lists
  contents := by
    rintro _ _ _ ⟨lists, rfl, rfl⟩
    exact (h.withLists lists).contents
  newSequence := by
    rintro _ _ _ items items' ⟨lists, rfl, rfl⟩ hi
    obtain rfl := Value.Likes.eq_of_same_le le_rfl hi
    refine ⟨.still, le_rfl, ?_, lists.push items, ?_, ?_⟩
    · exact congrArg Array.size (h.withLists lists).sequences.symm
    · exact s.withLists_push lists items
    · exact s'.withLists_push lists items

/-- Runs side by side end in the same way, and have added the same lists. Of two computations, the first may be
excused if it runs out of fuel. -/
theorem attempt_beside {lax : Bool} {s s' : Store} {h : s.SameContainers s'} {x y : Run Value}
    (hx : Runs (C := beside lax h) .still (fun _ => Value.Like .same) x fun _ => y) :
    (lax = true ∧ ∃ s₁, x s = .error .exhausted s₁) ∨
      ∃ outcome lists, x.attempt s = .ok outcome (s.withLists lists) ∧
        y.attempt s' = .ok outcome (s'.withLists lists) := by
  have hstart : (beside lax h).good .still s s' := ⟨#[], s.withLists_empty.symm, s'.withLists_empty.symm⟩
  refine (hx .still le_rfl s s' hstart).imp_right ?_
  rintro ⟨r, hr, hends⟩
  obtain ⟨_, rfl⟩ := hr.exists
  dsimp only at hends
  generalize hs : x s = q, hs' : y s' = q' at hends
  cases hends with
  | ok _ hgood hv =>
    obtain ⟨lists, rfl, rfl⟩ := hgood
    obtain rfl := hv.eq_of_same_le le_rfl
    exact ⟨_, lists, Run.attempt_ok hs, Run.attempt_ok hs'⟩
  | error _ hgood hh =>
    obtain ⟨lists, rfl, rfl⟩ := hgood
    obtain rfl := Translation.halt_eq hh
    exact ⟨_, lists, Run.attempt_error hs, Run.attempt_error hs'⟩

end Correspondence

namespace Machine

variable {m m' : Machine} {env env' : Env} {e : Expr}

theorem evalAll_congr {es : List Expr} (h : ∀ x ∈ es, m.eval env x = m'.eval env' x) :
    m.evalAll env es = m'.evalAll env' es := by
  induction es with
  | nil => rfl
  | cons a es ih =>
    rw [evalAll, evalAll, h a List.mem_cons_self, ih fun x hx => h x (List.mem_cons_of_mem a hx)]

theorem evalSequence_congr {es : List Expr} (h : ∀ x ∈ es, m.eval env x = m'.eval env' x) (v : Value) :
    m.evalSequence env v es = m'.evalSequence env' v es := by
  induction es generalizing v with
  | nil => rfl
  | cons a es ih =>
    simp only [evalSequence, h a List.mem_cons_self, ih fun x hx => h x (List.mem_cons_of_mem a hx)]

theorem truthOf_congr (h : m.eval env e = m'.eval env' e) : m.truthOf env e = m'.truthOf env' e := by
  rw [truthOf, truthOf, h]

theorem operate_congr {op : Operation} (hop : op.isPure = true) (hfuel : m.fuel = m'.fuel)
    (args : List Value) : m.operate op args = m'.operate op args := by
  cases op with
  | builtIn op =>
    show op.invoke m.fuel args = op.invoke m'.fuel args
    rw [hfuel]
  | host => cases hop

/-- A constant is evaluated by evaluating its children, and by nothing else of the machine and its frames. -/
theorem evalNode_congr (he : e.isConstant = true) (hfuel : m.fuel = m'.fuel)
    (hc : ∀ x, (Entry.here, x) ∈ e.children → m.eval env x = m'.eval env' x) :
    m.evalNode env e = m'.evalNode env' e := by
  cases e with
  | literal => rfl
  | operator form op operands =>
    have hop := (Bool.and_eq_true_iff.mp he).1
    simp only [evalNode, evalOperator, operate_congr hop hfuel,
      evalAll_congr fun x hx => hc x (List.mem_map_of_mem hx)]
  | logical op a b =>
    have ha := truthOf_congr (hc a (by simp [Expr.children]))
    have hb := truthOf_congr (hc b (by simp [Expr.children]))
    simp only [evalNode, evalLogical, ha, hb]
  | conditional c a b =>
    have hcond := truthOf_congr (hc c (by simp [Expr.children]))
    have hbranch (p : Bool) : m.eval env (if p then a else b) = m'.eval env' (if p then a else b) := by
      cases p
      · exact hc b (by simp [Expr.children])
      · exact hc a (by simp [Expr.children])
    simp only [evalNode, evalConditional, hcond, hbranch]
  | sequence items => exact evalSequence_congr (fun x hx => hc x (List.mem_map_of_mem hx)) .void
  | before a b =>
    simp only [evalNode, evalBefore, hc a (by simp [Expr.children]), hc b (by simp [Expr.children])]
  | cast t x => simp only [evalNode, hc x (by simp [Expr.children])]
  | instanceOf x t => simp only [evalNode, hc x (by simp [Expr.children])]
  | _ => cases he

end Machine

/-- The moments of a run in the frames `env` at which a constant is evaluated there, and after which the store has at
most some more lists. -/
def Moments.constant (env : Env) : Moments where
  before _ env' x := env' = env ∧ x.isConstant = true
  after s env' x _ s' := env' = env ∧ x.isConstant = true ∧ ∃ lists, s' = s.withLists lists

namespace Expr

variable {host host' : Host} {n : Nat} {env env' : Env} {e : Expr}

theorem eval_congr (he : e.isConstant = true) : ExprCore.eval host n env e = ExprCore.eval host' n env' e := by
  induction n generalizing e with
  | zero => rfl
  | succ n ih => exact Machine.evalNode_congr he rfl fun x hx => ih (isConstant_child he hx)

theorem linked_same (layouts : List Layout) (e : Expr) : Everywhere (fun _ => Linked .same) layouts e := by
  induction e using childInduction generalizing layouts with
  | step e ih => exact .intro (fun v _ _ => .refl_same v) fun x hx => ih x hx _

theorem attempt_eval_beside (host : Host) (n : Nat) (env : Env) (he : e.isConstant = true) {s s' : Store}
    (h : s.SameContainers s') :
    ∃ outcome lists, (ExprCore.eval host n env e).attempt s = .ok outcome (s.withLists lists) ∧
      (ExprCore.eval host n env e).attempt s' = .ok outcome (s'.withLists lists) := by
  have hfuel : (Correspondence.beside false h).Fuels n fun _ => n := .of_forall fun _ => rfl
  have hruns : Runs (C := .beside false h) .still (fun _ => Value.Like .same) (ExprCore.eval host n env e)
      fun _ => ExprCore.eval host n env e :=
    Correspondence.runs_linked (C := .beside false h) le_rfl hfuel he (linked_same [] e)
  exact (Correspondence.attempt_beside hruns).resolve_left fun hlax => Bool.noConfusion hlax.1

/-- A constant that has an outcome has it on more fuel too. -/
theorem eval_stable (he : e.isConstant = true) {m : Nat} (hnm : n ≤ m) {s : Store}
    (h : Run.Finished (ExprCore.eval host n env e s)) :
    ExprCore.eval host m env e s = ExprCore.eval host n env e s := by
  have hfuel : (Correspondence.beside true (.refl s)).Fuels n fun _ => m := .of_forall fun _ => hnm
  have hruns : Runs (C := .beside true (.refl s)) .still (fun _ => Value.Like .same) (ExprCore.eval host n env e)
      fun _ => ExprCore.eval host m env e :=
    Correspondence.runs_linked (C := .beside true (.refl s)) le_rfl hfuel he (linked_same [] e)
  rcases Correspondence.attempt_beside hruns with ⟨-, s₁, hs₁⟩ | ⟨outcome, lists, hn, hm⟩
  · exact absurd hs₁ (h s₁)
  · exact Run.eq_of_attempt_eq (hm.trans hn.symm)

theorem confined_attempt_eval (host : Host) (n : Nat) (env : Env) (he : e.isConstant = true) :
    (ExprCore.eval host n env e).attempt.Confined := by
  intro s
  obtain ⟨outcome, lists, hs, -⟩ := attempt_eval_beside host n env he (.refl s)
  refine ⟨outcome, lists, fun s' h => ?_⟩
  obtain ⟨outcome', lists', ht, hs'⟩ := attempt_eval_beside host n env he h
  -- The run from `s` is the same one both times, so that it tells what the run from `s'` adds.
  obtain ⟨rfl, hlists⟩ := EStateM.Result.ok.inj (hs.symm.trans ht)
  obtain rfl := s.withLists_injective hlists
  exact hs'

theorem lists_of_eval (he : e.isConstant = true) {s s' : Store} {v : Value}
    (h : ExprCore.eval host n env e s = .ok v s') : ∃ lists, s' = s.withLists lists := by
  obtain ⟨outcome, lists, hs⟩ := confined_attempt_eval host n env he s
  exact ⟨lists, (EStateM.Result.ok.inj ((Run.attempt_ok h).symm.trans (hs s (.refl s)))).2⟩

theorem returnsEnclosed_of_isConstant (he : e.isConstant = true) : e.ReturnsEnclosed := by
  unfold ReturnsEnclosed
  generalize false = inside
  induction e using childInduction generalizing inside with
  | step e ih =>
    refine .intro ?_ fun x hx => ih x hx (isConstant_child he hx) _
    intro hreturn
    cases e with
    | earlyReturn => cases he
    | _ => cases hreturn

theorem operatorsNeverReturn_of_isConstant (he : e.isConstant = true) : e.OperatorsNeverReturn := by
  induction e using childInduction with
  | step e ih =>
    refine .intro (fun op hop => ?_) fun x hx => ih x hx (isConstant_child he hx)
    cases e with
    | operator form op' operands =>
      obtain rfl := Option.some.inj hop
      cases op' with
      | builtIn => trivial
      | host => cases (Bool.and_eq_true_iff.mp he).1
    | compound => cases he
    | _ => cases hop

/-- A constant ends in no early return, since it would end in the same way in a store without functions. -/
theorem failure_of_eval (he : e.isConstant = true) {s s' : Store} {halt : Halt}
    (h : ExprCore.eval host n env e s = .error halt s') : halt.Failure := by
  have hsame : s.SameContainers { s with functions := #[] } := ⟨rfl, rfl, rfl⟩
  have hbare : Store.NeverReturns { s with functions := #[] } := fun f hf => absurd hf (Array.not_mem_empty _)
  have hkeeps := Upkeep.keeps_eval Upkeep.enclosed_lawful HostClass.blank_neverReturns n env
    ⟨returnsEnclosed_of_isConstant he, operatorsNeverReturn_of_isConstant he⟩
  have hblank : ExprCore.eval host n env e = ExprCore.eval HostClass.blank n env e := eval_congr he
  rw [hblank] at h
  obtain ⟨outcome, lists, hs, hs'⟩ := attempt_eval_beside HostClass.blank n env he hsame
  obtain ⟨rfl, -⟩ := EStateM.Result.ok.inj ((Run.attempt_error h).symm.trans hs)
  exact (hkeeps.error hbare (Run.error_of_attempt hs')).2

theorem evalWatched_of_isConstant {watch : Watch} (hw : watch.Idle (.constant env)) (he : e.isConstant = true) :
    evalWatched watch host n env e = ExprCore.eval host n env e := by
  induction n generalizing e with
  | zero => rfl
  | succ n ih =>
    have hnode : Machine.evalNode ⟨host, n, evalWatched watch host n⟩ env e = ExprCore.eval host (n + 1) env e :=
      Machine.evalNode_congr he rfl fun x hx => ih (isConstant_child he hx)
    funext s
    rw [evalWatched, hnode]
    refine (Run.bind_ok _ rfl).trans ((Run.bind_ok _ (hw.before ⟨rfl, he⟩)).trans ?_)
    cases hx : ExprCore.eval host (n + 1) env e s with
    | error halt s₁ => exact Run.bind_error _ hx
    | ok v s₁ =>
      have hafter : watch.after s env e v s₁ = .ok () s₁ := hw.after ⟨rfl, he, lists_of_eval he hx⟩
      exact (Run.bind_ok _ hx).trans (Run.bind_ok _ hafter)

end Expr

end ExprCore
