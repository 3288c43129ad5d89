import ExprCore.Proofs.Folding

/-!
What simplification keeps of a tree: the static types, whether the nodes hold them, and all that is
said of a node without a look at what its children compute.
-/

namespace ExprCore
set_option autoImplicit false

namespace Expr

variable {value? : Expr → Option Value} {truth : Value → Bool} {level : Nat} {e r : Expr}

theorem Settled.type_eq (h : Settled value? truth e r) : r.type = e.type := by
  have hfold {e r : Expr} (h : e.folded? value? = some r) : r.type = e.type := by
    obtain ⟨-, -, v, w, -, -, -, rfl⟩ := folded?_spec h
    rfl
  cases h with
  | kept => rfl
  | folded h => exact hfold h
  | uncast => rfl
  | pruned h => exact h.type_eq
  | prunedFolded h hf => rw [hfold hf, h.type_eq]

theorem lastHoldsType_append (items : List Expr) (last : Expr) :
    lastHoldsType (items ++ [last]) = last.holdsType := by
  induction items with
  | nil => rfl
  | cons a items ih =>
    cases items with
    | nil => rfl
    | cons b items => exact ih

theorem lastHoldsType_withoutLiterals (items : List Expr) :
    lastHoldsType (withoutLiterals items) = lastHoldsType items := by
  cases items with
  | nil => rfl
  | cons a items =>
    obtain ⟨kept, last, hk, hl⟩ := withoutLiterals_cons a items
    obtain ⟨front, hf⟩ := List.getLast?_eq_some_iff.mp hl
    rw [hk, hf, lastHoldsType_append, lastHoldsType_append]

theorem lastHoldsType_map {f : Expr → Expr} {items : List Expr}
    (h : ∀ e ∈ items, (f e).holdsType = true → e.holdsType = true)
    (hl : lastHoldsType (items.map f) = true) : lastHoldsType items = true := by
  induction items with
  | nil => rfl
  | cons a items ih =>
    cases items with
    | nil => exact h a List.mem_cons_self hl
    | cons b items => exact ih (fun e he => h e (List.mem_cons_of_mem a he)) hl

theorem holdsType_of_mapChildren {f : Entry → Expr → Expr}
    (h : ∀ x ∈ e.children, (f x.1 x.2).holdsType = true → x.2.holdsType = true)
    (he : (e.mapChildren f).holdsType = true) : e.holdsType = true := by
  cases e with
  | sequence items => exact lastHoldsType_map (fun x hx => h _ (List.mem_map_of_mem hx)) he
  | before first second => exact h (.here, first) List.mem_cons_self he
  | _ => exact he

theorem holdsType_of_isConstant (h : e.isConstant = true) : e.holdsType = true := by
  induction e using childInduction with
  | step e ih =>
    cases e with
    | sequence items =>
      simp only [isConstant, allConstant_eq_all, List.all_eq_true] at h
      cases items with
      | nil => rfl
      | cons a items =>
        obtain ⟨front, last, hf⟩ : ∃ front last, a :: items = front ++ [last] :=
          ⟨_, _, (List.dropLast_append_getLast (List.cons_ne_nil a items)).symm⟩
        have hm : last ∈ a :: items := by rw [hf]; simp
        rw [holdsType, hf, lastHoldsType_append]
        exact ih (.here, last) (List.mem_map_of_mem hm) (h last hm)
    | before first second =>
      exact ih (.here, first) List.mem_cons_self (Bool.and_eq_true_iff.mp h).1
    | _ => first | rfl | cases h

theorem Settled.holdsType (h : Settled value? truth e r) (hr : r.holdsType = true) :
    e.holdsType = true := by
  have hpruned {z : Expr} (h : Pruning truth e z) (hz : z.holdsType = true) :
      e.holdsType = true := by
    cases h with
    | branch | decided | rest => rfl
    | only ho =>
      have hl := lastHoldsType_withoutLiterals
      rw [Expr.holdsType, ← hl, ho]
      exact hz
    | items => rwa [Expr.holdsType, lastHoldsType_withoutLiterals] at hz
    | before => exact hz
  cases h with
  | kept => exact hr
  | folded h => exact holdsType_of_isConstant (folded?_spec h).2.1
  | uncast => rfl
  | pruned h => exact hpruned h hr
  | prunedFolded h hf => exact hpruned h (holdsType_of_isConstant (folded?_spec hf).2.1)

theorem mem_of_mem_withoutLiterals {x : Expr} {items : List Expr} (h : x ∈ withoutLiterals items) :
    x ∈ items := by
  induction items with
  | nil => exact h
  | cons a items ih =>
    cases items with
    | nil => exact h
    | cons b items =>
      rw [withoutLiterals_cons_cons] at h
      split at h
      · exact List.mem_cons_of_mem a (ih h)
      · rcases List.mem_cons.mp h with rfl | h
        · exact List.mem_cons_self
        · exact List.mem_cons_of_mem a (ih h)

/-- What passes to a literal that simplification makes, to a cast and to a sequence passes from a node
and its children to what becomes of the node. -/
theorem Settled.keeps {q : Expr → Prop}
    (hliteral : ∀ v t, v.isContainer = false → t.Conforms v → q (.literal v t))
    (hcast : ∀ t x, q x → q (.cast t x)) (hsequence : ∀ items, (∀ x ∈ items, q x) → q (.sequence items))
    (he : q e) (hc : ∀ x, (Entry.here, x) ∈ e.children → q x) (h : Settled value? truth e r) :
    q r := by
  have hpruned {z : Expr} (h : Pruning truth e z) : q z := by
    cases h with
    | branch v t a b =>
      have hat {x : Expr} (hx : q x) (u : Ty) : q (x.atType u) := by
        unfold atType
        split
        · exact hx
        · exact hcast u x hx
      cases truth v
      · exact hat (hc _ (by simp [children])) _
      · exact hat (hc _ (by simp [children])) _
    | only ho => exact hc _ (List.mem_map_of_mem (mem_of_mem_withoutLiterals (by simp [ho])))
    | items =>
      exact hsequence _ fun x hx => hc _ (List.mem_map_of_mem (mem_of_mem_withoutLiterals hx))
    | before => exact hc _ List.mem_cons_self
    | decided => exact hliteral _ _ rfl rfl
    | rest => exact hc _ (by simp [children])
  have hfolded {z : Expr} (h : z.folded? value? = some r) : q r := by
    obtain ⟨-, -, v, w, -, hv, hw, rfl⟩ := folded?_spec h
    exact hliteral _ _ (Ty.plain_of_cast (plain_of_isImmutable hv) hw) (Ty.conforms_of_cast hw)
  cases h with
  | kept => exact he
  | folded h => exact hfolded h
  | uncast => exact hc _ List.mem_cons_self
  | pruned h => exact hpruned h
  | prunedFolded _ h => exact hfolded h

/-- What holds of all casts and sequences, of the literals that simplification makes, and of a node
over other children that are folded no sooner, is kept by simplification. -/
structure Inert (q : Expr → Prop) : Prop where
  literal : ∀ v t, v.isContainer = false → t.Conforms v → q (.literal v t)
  cast : ∀ t e, q (.cast t e)
  sequence : ∀ items, q (.sequence items)
  node : ∀ e f, (∀ c ∈ e.children, Dims (f c.1 c.2) c.2) → q e → q (e.mapChildren f)

namespace Everywhere

variable {q : Expr → Prop} {layouts : List Layout}

theorem settled (hq : Inert q) (he : Everywhere (fun _ => q) layouts e)
    (h : Settled value? truth e r) : Everywhere (fun _ => q) layouts r := by
  refine h.keeps (fun v t hv ht => ?_) (fun t x hx => ?_) (fun items hitems => ?_) he
    fun x hx => he.child hx
  · exact .intro (hq.literal v t hv ht) fun _ hx => by cases hx
  · refine .intro (hq.cast t x) fun c hc => ?_
    obtain rfl := List.mem_singleton.mp hc
    exact hx
  · refine .intro (hq.sequence _) fun c hc => ?_
    obtain ⟨x, hx, rfl⟩ := List.mem_map.mp hc
    exact hitems x hx

theorem simplify? {level : Nat} (hq : Inert q) (he : Everywhere (fun _ => q) layouts e)
    (h : e.simplify? value? truth level = some r) : Everywhere (fun _ => q) layouts r := by
  have hsettled : Settled value? truth e r := by
    rcases simplify?_spec h with hf | ⟨-, hd⟩ | ⟨-, -, hp⟩
    · exact .folded hf
    · obtain ⟨rfl, ht⟩ := dropCast?_spec hd
      exact .uncast ht
    · exact .pruned hp
  exact .settled hq he hsettled

end Everywhere

theorem Settled.eq_of_not_computes (h : Settled value? truth e r) (he : e.computes = false) :
    r = e := by
  have hfolded {z : Expr} (h : z.folded? value? = some r) : z.computes = true :=
    computes_of_isConstant (folded?_spec h).2.1
  have hpruned {z : Expr} (h : Pruning truth e z) : e.computes = true := by cases h <;> rfl
  cases h with
  | kept => rfl
  | folded h => rw [hfolded h] at he; cases he
  | uncast => cases he
  | pruned h => rw [hpruned h] at he; cases he
  | prunedFolded h => rw [hpruned h] at he; cases he

/-- A function that treats every node as simplification may. -/
structure Simplifies (value? : Expr → Option Value) (truth : Value → Bool) (f : Expr → Expr) :
    Prop where
  settled : ∀ e, Settled value? truth (e.mapChildren fun _ x => f x) (f e)

theorem simplifies_simplified : Simplifies value? truth (simplified value? truth level) :=
  ⟨simplified_settled⟩

theorem simplifies_id : Simplifies value? truth fun e => e :=
  ⟨fun e => by rw [mapChildren_id]; exact .kept e⟩

/-- What optimization does to a tree, at every level. -/
theorem simplifies_optimize (host : Host) (fuel level : Nat) (s : Store) :
    Simplifies (Expr.value? host fuel s) (Value.truth s)
      fun e => (optimize host fuel level s e).value := by
  unfold optimize
  split
  · exact simplifies_id
  · exact simplifies_simplified

namespace Simplifies

variable {f : Expr → Expr} (h : Simplifies value? truth f)

include h

theorem type_eq (e : Expr) : (f e).type = e.type := by
  induction e using childInduction with
  | step e ih =>
    rw [(h.settled e).type_eq]
    exact type_mapChildren fun x hx _ => ih x hx

theorem holdsType (he : (f e).holdsType = true) : e.holdsType = true := by
  induction e using childInduction with
  | step e ih => exact holdsType_of_mapChildren (fun x hx => ih x hx) ((h.settled e).holdsType he)

theorem dims (e : Expr) : Dims (f e) e := by
  induction e using childInduction with
  | step e ih => exact (h.settled e).dims.trans (.mapChildren fun c hc => ih c hc)

theorem eq_of_not_computes (he : e.computes = false) : f e = e.mapChildren fun _ x => f x := by
  refine (h.settled e).eq_of_not_computes ?_
  cases e <;> exact he

theorem everywhere {q : Expr → Prop} (hq : Inert q) {layouts : List Layout}
    (he : Everywhere (fun _ => q) layouts e) : Everywhere (fun _ => q) layouts (f e) := by
  induction he with
  | intro he _ ih =>
    exact .settled hq (.mapChildren (hq.node _ _ (fun c _ => h.dims c.2) he) ih) (h.settled _)

theorem everywhere_children {q : Expr → Prop} (hq : Inert q) {layouts : List Layout}
    (he : Everywhere (fun _ => q) layouts e) :
    Everywhere (fun _ => q) layouts (e.mapChildren fun _ x => f x) :=
  .mapChildren (hq.node _ _ (fun c _ => h.dims c.2) he.holds) fun _ hc => h.everywhere hq (he.child hc)

end Simplifies

theorem isAssignable_of_computes (h : e.computes = true) : e.isAssignable = false := by
  cases e <;> first | rfl | cases h

end Expr

end ExprCore
