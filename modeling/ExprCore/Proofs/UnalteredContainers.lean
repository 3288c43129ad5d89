import ExprCore.Proofs.OptimizedLiterals

/-!
Stores in which no container has changed. A constant may look into the containers that its literals
hold, but into nothing else, so that it has the same value as before, up to the lists that are made on
the way. What can be simplified before can be simplified after, and to the same node.
-/

namespace ExprCore
set_option autoImplicit false

open Filter

namespace Store

def count (s : Store) : Area → Nat
  | .sequence => s.sequences.size
  | .buffer => s.buffers.size
  | .map => s.maps.size

/-- The containers that a store has. Each of them stands for itself. -/
def own (s : Store) : Links where
  rel area r r' := r = r' ∧ r < s.count area
  oneToOne := by
    rintro area a _ b _ ⟨rfl, -⟩ ⟨rfl, -⟩
    rfl

/-- What the containers of a store hold are plain values and containers of the store. -/
structure SelfContained (s : Store) : Prop where
  items : ∀ items ∈ s.sequences, ∀ v ∈ items, Value.Like s.own v v
  entries : ∀ entries ∈ s.maps, ∀ e ∈ entries, Value.Like s.own e.2 e.2

/-- The containers of `s` are there in `s'` too, with what they hold. There may be more of them in `s'`,
and all other parts may differ. -/
structure Unaltered (s s' : Store) : Prop where
  sequences : ∀ r < s.sequences.size, s'.sequences[r]? = s.sequences[r]?
  buffers : ∀ r < s.buffers.size, s'.buffers[r]? = s.buffers[r]?
  maps : ∀ r < s.maps.size, s'.maps[r]? = s.maps[r]?

variable {s s' : Store}

theorem Unaltered.contents (h : s.Unaltered s') (hs : s.SelfContained) : Store.Contents s.own s s' where
  items := by
    rintro r _ ⟨rfl, hr⟩
    rw [Store.items, Store.items, h.sequences r hr]
    apply List.forall₂_same.mpr
    intro v hv
    obtain ⟨items, hm, hv⟩ := mem_of_mem_getD hv
    exact hs.items items hm v hv
  chars := by
    rintro r _ ⟨rfl, hr⟩
    rw [chars, chars, h.buffers r hr]
  entries := by
    rintro r _ ⟨rfl, hr⟩
    rw [entries, entries, h.maps r hr]
    apply List.forall₂_same.mpr
    intro e he
    obtain ⟨entries, hm, he⟩ := mem_of_mem_getD he
    exact ⟨rfl, hs.entries entries hm e he⟩

theorem Unaltered.bounded (h : s.Unaltered s') :
    s.own.Bounded s.sequences.size s'.sequences.size := by
  rintro r _ ⟨rfl, hr⟩
  refine ⟨hr, ?_⟩
  have hs := h.sequences r hr
  rw [Array.getElem?_eq_getElem hr] at hs
  exact (Array.getElem?_eq_some_iff.mp hs).1

end Store

/-- Whatever a literal holds, it is linked to itself. -/
def Expr.Linked (known : Links) (e : Expr) : Prop :=
  ∀ v t, e = .literal v t → Value.Like known v v

namespace Expr

variable {known : Links}

theorem inert_linked : Inert (Linked known) where
  literal v t hv _ := by
    rintro _ _ ⟨⟩
    exact .plain hv
  cast _ _ := nofun
  sequence _ := nofun
  node e f _ h := by
    intro v t he
    cases e <;> cases he
    exact h _ _ rfl

end Expr

namespace Correspondence

variable {C : Correspondence} {w : C.World} {known : Links} {layouts : List Layout} {e : Expr}
  {host : Host} {env env' : Env} {n : Nat} {g : Nat → Nat}

/-- A constant evaluates alike on both sides, where its literals are alike. -/
theorem runs_linked (hk : known ≤ C.links w) (hg : C.Fuels n g) (he : e.isConstant = true)
    (hl : Expr.Everywhere (fun _ => Expr.Linked known) layouts e) :
    C.Steps w (.ofFuel host n) (fun k => .ofFuel host (g k)) env env' e e := by
  induction n generalizing e layouts g with
  | zero => exact .exhausted hg (y := fun _ k => eval host k env' e) fun _ => rfl
  | succ n ih =>
    refine .fueled (x := fun n => eval host n env e) (y := fun _ k => eval host k env' e) hg rfl
      (fun _ => rfl) ?_
    rintro _ g ⟨⟩ hg
    have here (x : Expr) (hx : (Entry.here, x) ∈ e.children) :
        C.Steps w (.ofFuel host n) (fun k => .ofFuel host (g k)) env env' x x :=
      ih hg (Expr.isConstant_child he hx) (hl.child hx)
    have all {xs : List Expr} (hx : ∀ x ∈ xs, (Entry.here, x) ∈ e.children) :
        List.Forall₂ (C.Steps w (.ofFuel host n) (fun k => .ofFuel host (g k)) env env') xs xs :=
      List.forall₂_same.mpr fun x hm => here x (hx x hm)
    cases e with
    | literal v t => exact .value ((hl.holds v t rfl).mono hk)
    | operator form op operands =>
      have hop := (Bool.and_eq_true_iff.mp he).1
      exact runs_evalOperator _ (fun _ _ _ _ ha => runs_pure hop hg ha)
        (all fun x hx => List.mem_map_of_mem hx)
    | logical op a b =>
      exact runs_evalLogical op (here a (by simp [Expr.children])) (here b (by simp [Expr.children]))
    | conditional c a b =>
      exact runs_evalConditional (here c (by simp [Expr.children]))
        (here a (by simp [Expr.children])) (here b (by simp [Expr.children])) _
    | sequence items =>
      exact runs_evalSequence (all fun x hx => List.mem_map_of_mem hx) le_rfl (.plain rfl)
    | before a b =>
      exact runs_evalBefore (here a (by simp [Expr.children])) (here b (by simp [Expr.children]))
    | cast t x => exact runs_evalCast t (here x (by simp [Expr.children]))
    | instanceOf x t => exact runs_evalInstanceOf t (here x (by simp [Expr.children]))
    | _ => cases he

end Correspondence

namespace Expr

variable {s s' : Store} {layouts : List Layout} {e : Expr}

theorem value?_unaltered (h : s.Unaltered s') (hs : s.SelfContained) (host : Host) (fuel : Nat)
    (he : e.isConstant = true) (hl : Everywhere (fun _ => Linked s.own) layouts e) :
    Option.Rel (fun v v' => ∃ ρ, Value.Rough false ρ v v') (e.value? host fuel s)
      (e.value? host fuel s') := by
  let C := Correspondence.apart false (fun _ => True) fun _ _ h => h
  have hfuel : C.Fuels fuel fun _ => fuel := Eventually.of_forall fun _ => rfl
  have hr : Correspondence.Runs (C := C) s.own Value.Like (ExprCore.eval host fuel [] e)
      fun _ => ExprCore.eval host fuel [] e :=
    Correspondence.runs_linked (C := C) (w := s.own) le_rfl hfuel he hl
  rcases hr s.own le_rfl s s' ⟨h.bounded, h.contents hs, trivial⟩ with ⟨hlax, -⟩ | ⟨r, hr, hends⟩
  · cases hlax
  · obtain ⟨_, rfl⟩ := hr.exists
    change Correspondence.Ends _ _ ((ExprCore.eval host fuel [] e).run s)
      ((ExprCore.eval host fuel [] e).run s') at hends
    unfold value?
    generalize (ExprCore.eval host fuel [] e).run s = q, (ExprCore.eval host fuel [] e).run s' = q'
      at hends
    cases hends with
    | ok _ _ hv => exact .some ⟨_, .inl hv⟩
    | error => exact .none

theorem prune?_unaltered (h : s.Unaltered s') (hs : s.SelfContained)
    (hl : Everywhere (fun _ => Linked s.own) layouts e) :
    e.prune? (Value.truth s) = e.prune? (Value.truth s') := by
  apply prune?_congr
  intro c hc v hv
  obtain ⟨t, rfl⟩ := literal?_eq_some hv
  have hm : (Entry.here, literal v t) ∈ e.children := by
    cases e <;> cases hc <;> exact List.mem_cons_self
  exact (h.contents hs).truth_eq ((hl.child hm).holds v t rfl)

end Expr

end ExprCore
