import ExprCore.Proofs.Rewriting

/-!
Trees with a context. What holds at every node of a tree, each in a context that is entered with the
node, is followed through resolution, which may look at the tree in another context afterwards, and
through simplification.
-/

namespace ExprCore
set_option autoImplicit false

namespace Expr

/-- What holds at every node of a tree, each in its context. -/
inductive Within {γ : Type} (enter : γ → Entry → γ) (p : γ → Expr → Prop) : γ → Expr → Prop where
  | intro {c : γ} {e : Expr} (h : p c e)
    (hc : ∀ x ∈ e.children, Within enter p (enter c x.1) x.2) : Within enter p c e

/-- What resolution makes of a tree. -/
inductive Resolves (maxLevel : Nat) (scope : Scope) : Expr → Expr → Prop where
  | name {n : String} {b : Binding} (h : scope.lookup? n = some b)
    (hl : scope.level - b.level ≤ maxLevel) : Resolves maxLevel scope (.name n) (.var b)
  | member {hops : Nat} {field : String} {b : Binding} (h : scope.lookupAt? hops field = some b) :
    Resolves maxLevel scope (.member .classMember (.scopeRef hops) field) (.var b)
  /-- A name that stays free lies too many levels out, if it is declared at all. -/
  | kept {e : Expr}
    (hn : ∀ n, e = .name n → ∀ b, scope.lookup? n = some b → maxLevel < scope.level - b.level) :
    Resolves maxLevel scope e (e.resolveChildren maxLevel scope)

theorem resolves (maxLevel : Nat) (scope : Scope) (e : Expr) :
    Resolves maxLevel scope e (e.resolve maxLevel scope).value := by
  rw [value_resolve]
  cases e with
  | name n =>
    simp only [mapChildren, resolveNode?]
    cases hl : scope.lookup? n with
    | none =>
      refine .kept (e := .name n) fun m hm b hb => ?_
      cases hm
      rw [hl] at hb
      cases hb
    | some b =>
      by_cases hd : scope.level - b.level ≤ maxLevel
      · simp only [if_pos hd]
        exact .name hl hd
      · simp only [if_neg hd]
        refine .kept (e := .name n) fun m hm b' hb' => ?_
        cases hm
        rw [hl] at hb'
        cases hb'
        exact Nat.lt_of_not_le hd
  | member kind object field =>
    have hk : Resolves maxLevel scope (.member kind object field)
        (.member kind (object.resolve maxLevel scope).value field) := .kept fun _ hn => by cases hn
    cases kind with
    | classMember =>
      simp only [mapChildren, resolveNode?, Scope.enter]
      generalize ho : (object.resolve maxLevel scope).value = o at hk
      cases o with
      | scopeRef hops =>
        obtain rfl := resolve_scopeRef ho
        cases hl : scope.lookupAt? hops field with
        | none =>
          simp only [member?, hl]
          exact hk
        | some b =>
          simp only [member?, hl]
          exact .member hl
      | _ => exact hk
    | hostField | mapEntry => exact hk
  | _ => exact .kept fun _ hn => by cases hn

namespace Within

variable {γ δ : Type} {enter : γ → Entry → γ} {enter' : δ → Entry → δ} {p : γ → Expr → Prop}
  {q : δ → Expr → Prop} {c : γ} {d : δ} {e : Expr}

theorem holds (h : Within enter p c e) : p c e := by
  cases h
  assumption

theorem child (h : Within enter p c e) {x : Entry × Expr} (hx : x ∈ e.children) :
    Within enter p (enter c x.1) x.2 := by
  cases h with
  | intro _ hc => exact hc x hx

theorem leaf (h : p c e) (he : e.children = []) : Within enter p c e :=
  .intro h fun x hx => by rw [he] at hx; cases hx

theorem mapChildren {f : Entry → Expr → Expr} (h : p c (e.mapChildren f))
    (hc : ∀ x ∈ e.children, Within enter p (enter c x.1) (f x.1 x.2)) :
    Within enter p c (e.mapChildren f) := by
  refine .intro h fun y hy => ?_
  rw [children_mapChildren] at hy
  obtain ⟨x, hx, rfl⟩ := List.mem_map.mp hy
  exact hc x hx

theorem ofEverywhere {r : List Layout → Expr → Prop} {R : List Layout → γ → Prop}
    {layouts : List Layout} (hR : ∀ ls c entry, R ls c → R (entry.push ls) (enter c entry))
    (hp : ∀ ls c e, R ls c → Everywhere r ls e → p c e) (h : Everywhere r layouts e)
    (hc : R layouts c) : Within enter p c e := by
  induction h generalizing c with
  | intro h hx ih => exact .intro (hp _ c _ hc (.intro h hx)) fun x hm => ih x hm (hR _ c _ hc)

theorem iff_everywhere {r : List Layout → Expr → Prop} {layouts : List Layout} :
    Within Entry.push r layouts e ↔ Everywhere r layouts e := by
  constructor
  · intro h
    induction h with
    | intro hr _ ih => exact .intro hr ih
  · intro h
    induction h with
    | intro hr _ ih => exact .intro hr ih

theorem imp {R : γ → δ → Prop} (hR : ∀ c d entry, R c d → R (enter c entry) (enter' d entry))
    (hpq : ∀ c d e, R c d → p c e → q d e) (h : Within enter p c e) (hcd : R c d) :
    Within enter' q d e := by
  induction h generalizing d with
  | intro hp _ ih => exact .intro (hpq _ _ _ hcd hp) fun x hx => ih x hx (hR _ _ _ hcd)

/-- Resolution in scopes that go along with the contexts before and after it. -/
theorem resolve {R : Scope → γ → δ → Prop} {maxLevel : Nat}
    (hR : ∀ s c d entry, R s c d → R (s.enter entry) (enter c entry) (enter' d entry))
    (hnode : ∀ s c d e, R s c d → Within enter p c e → q d (e.resolve maxLevel s).value)
    (h : Within enter p c e) {s : Scope} (hs : R s c d) :
    Within enter' q d (e.resolve maxLevel s).value := by
  induction h generalizing s d with
  | @intro c e he hc ih =>
    have hq := hnode s c d e hs (.intro he hc)
    have hr := resolves maxLevel s e
    generalize (e.resolve maxLevel s).value = r at hq hr
    cases hr with
    | name | member => exact .leaf hq rfl
    | kept => exact .mapChildren hq fun x hx => ih x hx (hR _ _ _ _ hs)

theorem simplified {value? : Expr → Option Value} {truth : Value → Bool} {f : Expr → Expr}
    (hf : Simplifies value? truth f) (hhere : ∀ c, enter c .here = c)
    (hliteral : ∀ c v t, v.isContainer = false → t.Conforms v → p c (.literal v t))
    (hcast : ∀ c t x, p c (.cast t x)) (hsequence : ∀ c items, p c (.sequence items))
    (hnode : ∀ c x, Within enter p c x →
      (∀ y ∈ x.children, Within enter p (enter c y.1) (f y.2)) → p c (x.mapChildren fun _ y => f y))
    (h : Within enter p c e) : Within enter p c (f e) := by
  induction h with
  | @intro c e he hc ih =>
    have hnode : Within enter p c (e.mapChildren fun _ y => f y) :=
      .mapChildren (hnode c e (.intro he hc) ih) fun x hx => ih x hx
    refine (hf.settled e).keeps (fun v t hv ht => ?_) (fun t x hx => ?_) (fun items hitems => ?_)
      hnode fun x hx => ?_
    · exact .leaf (hliteral c v t hv ht) rfl
    · refine .intro (hcast c t x) fun y hy => ?_
      obtain rfl := List.mem_singleton.mp hy
      rwa [hhere]
    · refine .intro (hsequence c items) fun y hy => ?_
      obtain ⟨x, hx, rfl⟩ := List.mem_map.mp hy
      rw [hhere]
      exact hitems x hx
    · have hx := hnode.child hx
      rwa [hhere] at hx

end Within

end Expr

end ExprCore
