import ExprCore.Host.Classes
import ExprCore.Proofs.OperatorTyping
import ExprCore.Proofs.PlaceAccess
import ExprCore.Proofs.Resolution

/-!
Increment and decrement. A step that succeeds on a number leaves the number after it or before it in its
place, cast to the type of the place; one that fails leaves the place as it was. Nothing but numbers is
stepped, with one exception: the update is the general addition, which joins texts.
-/

namespace ExprCore
set_option autoImplicit false

namespace Step

def amount : Step → Int
  | .preInc | .postInc => 1
  | .preDec | .postDec => -1

theorem delta_toInt (k : Step) : k.delta.toInt = k.amount := by
  cases k <;> decide

end Step

namespace Value

/-- The number that lies `d` after another. Characters count as integers. -/
inductive Next (d : Int) : Value → Value → Prop where
  | char {c : Char} {n : Int32} (h : n.toInt = c.toNat + d) : Next d (.char c) (.int n)
  | int {m n : Int32} (h : n.toInt = m.toInt + d) : Next d (.int m) (.int n)
  | long {m n : Int64} (h : n.toInt = m.toInt + d) : Next d (.long m) (.long n)
  | double (x : Float) : Next d (.double x) (.double (x + Double.ofInt d))

variable {k : Int} {v : Value}

theorem toInt_of_int? (h : int? k = some v) : ∃ n : Int32, v = .int n ∧ n.toInt = k := by
  have ht := truncated?_of_int? h
  unfold int? at h
  split at h
  · cases h
    exact ⟨_, rfl, Option.some.inj ht⟩
  · cases h

theorem toInt_of_long? (h : long? k = some v) : ∃ n : Int64, v = .long n ∧ n.toInt = k := by
  have ht := truncated?_of_long? h
  unfold long? at h
  split at h
  · cases h
    exact ⟨_, rfl, Option.some.inj ht⟩
  · cases h

end Value

namespace Arith

variable {fuel : Nat} {a b v : Value} {s s' : Store} {d : Int32}

theorem still_invoke (op : Arith) (fuel : Nat) (a b : Value) : Run.Still (op.invoke fuel a b) := by
  unfold invoke
  split
  · apply Run.still_get.bind
    intro s
    apply (Run.still_ofOption _).bind
    intro left
    exact (Run.still_ofOption _).bind fun right => Run.still_pure _
  · split
    · exact Run.still_ofExcept _
    · exact Run.still_fail _

theorem onIntegers_add {make? : Int → Option Value} {m n : Int}
    (h : Arith.add.onIntegers make? m n = .ok v) : make? (m + n) = some v := by
  unfold onIntegers at h
  rw [if_neg (by simp)] at h
  simp only [exact] at h
  cases hv : make? (m + n) with
  | none =>
    simp only [hv, Option.isSome_none, Bool.false_eq_true, if_false] at h
    cases h
  | some w =>
    simp only [hv, Option.isSome_some, if_true] at h
    cases h
    rfl

theorem next_of_add (htext : ∀ text, a ≠ .str text) (h : Arith.add.invoke fuel a (.int d) s = .ok v s') :
    Value.Next d.toInt a v := by
  -- Either a text is joined with another, which the two operands are not, or two numbers are added.
  rcases invoke_eq_ok h with ⟨x, -, hx | hx⟩ | ⟨m, n, hm, hn, hv⟩
  · cases a with
    | str text => exact absurd rfl (htext text)
    | _ => cases hx
  · cases hx
  · cases hn
    cases a with
    | char c =>
      cases hm
      obtain ⟨k, rfl, hk⟩ := Value.toInt_of_int? (onIntegers_add hv)
      exact .char hk
    | int m =>
      cases hm
      obtain ⟨k, rfl, hk⟩ := Value.toInt_of_int? (onIntegers_add hv)
      exact .int hk
    | long m =>
      cases hm
      obtain ⟨k, rfl, hk⟩ := Value.toInt_of_long? (onIntegers_add hv)
      exact .long hk
    | double x =>
      cases hm
      cases hv
      exact .double x
    | _ => cases hm

end Arith

namespace Machine

variable {m : Machine} {p : Place} {k : Step} {s s' : Store} {v : Value} {halt : Halt}

/-- The place can be read, and has the value. -/
def Shows (m : Machine) (p : Place) (s : Store) (v : Value) : Prop := ∃ s', m.read p s = .ok v s'

/-- The place has the value that it had, if any. -/
def SameAt (m : Machine) (p : Place) (s s' : Store) : Prop := ∀ v, m.Shows p s' v ↔ m.Shows p s v

/-- A field of the host that behaves as one, in stores of a kind: a look at it does not change it, a value
that it takes is the value that it has from then on, and a value that it refuses does not change it. -/
structure Field (m : Machine) (p : Place) (live : Store → Prop) : Prop where
  shown : ∀ {s v s'}, live s → m.read p s = .ok v s' → live s' ∧ m.SameAt p s s'
  hidden : ∀ {s halt s'}, live s → m.read p s = .error halt s' → m.SameAt p s s'
  taken : ∀ {s v w s'}, live s → m.store p v s = .ok w s' → m.Shows p s' v
  refused : ∀ {s v halt s'}, live s → m.store p v s = .error halt s' → m.SameAt p s s'

theorem SameAt.refl (m : Machine) (p : Place) (s : Store) : m.SameAt p s s := fun _ => Iff.rfl

theorem SameAt.trans {s₁ s₂ s₃ : Store} (h : m.SameAt p s₁ s₂) (g : m.SameAt p s₂ s₃) :
    m.SameAt p s₁ s₃ := fun v => (g v).trans (h v)

/-- The part of a step that follows the look-up of its place. -/
def stepAt (m : Machine) (k : Step) (p : Place) : Run Value := do
  let old ← m.read p
  let updated ← Arith.add.invoke m.fuel old (.int k.delta)
  let written ← m.write p updated
  pure (if k.yieldsNew then written else old)

theorem stepAt_ok (h : m.stepAt k p s = .ok v s') :
    ∃ old s₁ new stored, m.read p s = .ok old s₁ ∧
      Arith.add.invoke m.fuel old (.int k.delta) s₁ = .ok new s₁ ∧ m.write p new s₁ = .ok stored s' ∧
      v = if k.yieldsNew then stored else old := by
  obtain ⟨old, s₁, hold, hadd⟩ := Run.ok_of_bind h
  obtain ⟨new, s₂, hnew, hwrite⟩ := Run.ok_of_bind hadd
  obtain ⟨stored, s₃, hstored, hyield⟩ := Run.ok_of_bind hwrite
  cases hyield
  obtain rfl := (Arith.still_invoke _ _ _ _).ok hnew
  exact ⟨old, s₂, new, stored, hold, hnew, hstored, rfl⟩

theorem stepAt_error (h : m.stepAt k p s = .error halt s') :
    m.read p s = .error halt s' ∨
      ∃ old s₁, m.read p s = .ok old s₁ ∧
        (s' = s₁ ∨ ∃ new, m.write p new s₁ = .error halt s') := by
  rcases Run.error_of_bind h with hread | ⟨old, s₁, hold, hrest⟩
  · exact .inl hread
  refine .inr ⟨old, s₁, hold, ?_⟩
  rcases Run.error_of_bind hrest with hadd | ⟨new, s₂, hnew, hstore⟩
  · exact .inl ((Arith.still_invoke _ _ _ _).error hadd)
  obtain rfl := (Arith.still_invoke _ _ _ _).ok hnew
  rcases Run.error_of_bind hstore with hwrite | ⟨stored, s₃, -, hyield⟩
  · exact .inr ⟨new, hwrite⟩
  · cases hyield

theorem write_host (hp : p.isHost = true) (v : Value) : m.write p v = m.store p v := by
  cases p with
  | cell | element => cases hp
  | hostField | staticField => rfl

theorem store_host (hp : p.isHost = true) {w : Value} (h : m.store p v s = .ok w s') : w = v := by
  cases p with
  | cell | element => cases hp
  | hostField | staticField =>
    obtain ⟨_, s₁, -, h⟩ := Run.ok_of_bind h
    cases h
    rfl

theorem type_host (hp : p.isHost = true) : p.type = .any := by
  cases p with
  | cell | element => cases hp
  | hostField | staticField => rfl

theorem stepAt_number (hfield : p.isHost = true → ∃ live, m.Field p live ∧ live s)
    (h : m.stepAt k p s = .ok v s') :
    ∃ old, m.Shows p s old ∧ ((∀ text, old ≠ .str text) →
      ∃ new stored, Value.Next k.amount old new ∧ p.type.cast new = .ok stored ∧
        m.Shows p s' stored ∧ v = if k.yieldsNew then stored else old) := by
  obtain ⟨old, s₁, new, stored, hold, hnew, hstored, hv⟩ := stepAt_ok h
  refine ⟨old, ⟨s₁, hold⟩, ?_⟩
  intro htext
  have hnext : Value.Next k.amount old new := by
    rw [← k.delta_toInt]
    exact Arith.next_of_add htext hnew
  refine ⟨new, stored, hnext, ?_⟩
  cases hp : p.isHost with
  | false =>
    obtain rfl := (still_read hp).ok hold
    have hvoid : old ≠ .void := by
      rintro rfl
      cases hnext
    have hnull : old ≠ .null := by
      rintro rfl
      cases hnext
    obtain ⟨hcast, hread⟩ := write_ok hp hold hvoid hnull hstored
    exact ⟨hcast, ⟨s', hread⟩, hv⟩
  | true =>
    -- Host fields take values as they are.
    obtain ⟨live, hlaws, hlive⟩ := hfield hp
    rw [write_host hp] at hstored
    obtain rfl := store_host hp hstored
    have hshows := hlaws.taken (hlaws.shown hlive hold).1 hstored
    refine ⟨?_, hshows, hv⟩
    rw [type_host hp]
    rfl

theorem stepAt_failed (hfield : p.isHost = true → ∃ live, m.Field p live ∧ live s)
    (h : m.stepAt k p s = .error halt s') :
    m.SameAt p s s' ∧ (p.isHost = false → s' = s) := by
  cases hp : p.isHost with
  | false =>
    have hs : s' = s := by
      rcases stepAt_error h with hread | ⟨old, s₁, hold, rfl | ⟨new, hwrite⟩⟩
      · exact (still_read hp).error hread
      · exact (still_read hp).ok hold
      · rw [atomic_write hp new hwrite, (still_read hp).ok hold]
    subst hs
    exact ⟨.refl m p s', fun _ => rfl⟩
  | true =>
    obtain ⟨live, hlaws, hlive⟩ := hfield hp
    refine ⟨?_, nofun⟩
    rcases stepAt_error h with hread | ⟨old, s₁, hold, rfl | ⟨new, hwrite⟩⟩
    · exact hlaws.hidden hlive hread
    · exact (hlaws.shown hlive hold).2
    · obtain ⟨hlive₁, hsame⟩ := hlaws.shown hlive hold
      rw [write_host hp] at hwrite
      exact hsame.trans (hlaws.refused hlive₁ hwrite)

end Machine

theorem Expr.resolve_checkedStep {k : Step} {target e : Expr} (h : Expr.checkedStep k target = .ok e)
    (maxLevel : Nat) (scope : Scope) :
    (e.resolve maxLevel scope).value = .step k (target.resolve maxLevel scope).value := by
  unfold checkedStep onAssignable at h
  split at h
  · split at h
    · cases h
      rw [value_resolve]
      rfl
    · cases h
  · cases h

/-- A step that succeeds had a place to step. Unless the place held a text, it held a number, and now holds
the number after it or before it, cast to the type of the place; a prefix step yields what is stored, a
postfix step what was read. A step that fails leaves its place as it was. -/
theorem steps_numbers {k : Step} {target e : Expr} (h : Expr.checkedStep k target = .ok e) (maxLevel : Nat)
    (scope : Scope) (host : Host) (n : Nat) (env : Env) (s : Store) :
    let m := Machine.ofFuel host n
    let address := m.place env (target.resolve maxLevel scope).value s
    let outcome := eval host (n + 1) env (e.resolve maxLevel scope).value s
    (∀ p s₁, address = .ok p s₁ → p.isHost = true → ∃ live, m.Field p live ∧ live s₁) →
      (∀ v s', outcome = .ok v s' → ∃ p s₁ old, address = .ok p s₁ ∧ m.Shows p s₁ old ∧
        ((∀ text, old ≠ .str text) → ∃ new stored, Value.Next k.amount old new ∧
          p.type.cast new = .ok stored ∧ m.Shows p s' stored ∧
          v = if k.yieldsNew then stored else old)) ∧
      ∀ p s₁ halt s', address = .ok p s₁ → outcome = .error halt s' →
        m.SameAt p s₁ s' ∧ (p.isHost = false → s' = s₁) := by
  intro m address outcome hfields
  have hrun : outcome = (m.place env (target.resolve maxLevel scope).value >>= m.stepAt k) s := by
    simp only [outcome, Expr.resolve_checkedStep h]
    rfl
  constructor
  · intro v s' hv
    rw [hrun] at hv
    obtain ⟨p, s₁, hp, hstep⟩ := Run.ok_of_bind hv
    obtain ⟨old, hold, hnumber⟩ := Machine.stepAt_number (hfields p s₁ hp) hstep
    exact ⟨p, s₁, old, hp, hold, hnumber⟩
  · intro p s₁ halt s' hp hhalt
    have hplace : m.place env (target.resolve maxLevel scope).value s = .ok p s₁ := hp
    rw [hrun, Run.bind_ok (m.stepAt k) hplace] at hhalt
    exact Machine.stepAt_failed (hfields p s₁ hp) hhalt

namespace Point

variable {m : Machine} {r : Ref} {name : String} {s s' : Store} {v w : Value} {halt : Halt}

def Live (r : Ref) (s : Store) : Prop := ∃ x y tag, s.records[r]? = some [x, y, tag]

theorem still_look (operation : String) (r : Ref) (name : String) :
    Run.Still (m.dispatch operation (getField r name)) := by
  have hread (i : Nat) : Run.Still (m.dispatch operation (HostProgram.read r i)) :=
    Run.still_get.bind fun s => Run.still_pure _
  have hfail (fault : HostFault) :
      Run.Still (m.dispatch operation (.fail fault : HostAction HostFault Value)) :=
    Run.still_fail _
  unfold getField
  split
  · exact hread 0
  · exact hread 1
  · exact hread 2
  · exact hfail _
  · exact hfail _

theorem field_set {i : Nat} (h : Live r s) (hi : i < 3) (v : Value) :
    Store.field { s with records := s.records.modify r fun fields => fields.set i v } r i = v := by
  obtain ⟨x, y, tag, hr⟩ := h
  rw [Store.field, Array.getElem?_modify]
  simp only [if_true, hr, Option.map_some, Option.getD_some]
  rw [List.getElem?_set_self (by simpa using hi), Option.getD_some]

/-- A field takes a value by keeping it in the record, or refuses it and changes nothing. -/
theorem set_cases (m : Machine) (operation : String) (r : Ref) (name : String) (v : Value) (s : Store) :
    (∃ halt, m.dispatch operation (setField r name v) s = .error halt s) ∨
      ∃ i < 3, getField r name = HostProgram.read r i ∧
        m.dispatch operation (setField r name v) s =
          .ok () { s with records := s.records.modify r fun fields => fields.set i v } := by
  unfold setField
  split
  · exact .inr ⟨0, by decide, rfl, rfl⟩
  · exact .inr ⟨1, by decide, rfl, rfl⟩
  · exact .inr ⟨2, by decide, rfl, rfl⟩
  all_goals exact .inl ⟨_, rfl⟩

theorem isField (hm : ∃ statics, m.host "Point" = hostClass statics) (r : Ref) (name : String) :
    m.Field (.hostField "Point" r name) (Live r) := by
  obtain ⟨statics, hm⟩ := hm
  have hlook : m.read (.hostField "Point" r name) =
      m.dispatch ("Point" ++ "." ++ name) (getField r name) := by
    show m.dispatch _ ((m.host "Point").getField r name) = _
    rw [hm]
    rfl
  have hread : Run.Still (m.read (.hostField "Point" r name)) := by
    rw [hlook]
    exact still_look _ r name
  constructor
  · intro s v s' hs h
    obtain rfl := hread.ok h
    exact ⟨hs, .refl m _ s'⟩
  · intro s halt s' hs h
    obtain rfl := hread.error h
    exact .refl m _ s'
  · intro s v w s' hs h
    obtain ⟨_, s₁, hset, hw⟩ := Run.ok_of_bind h
    cases hw
    rw [hm] at hset
    rcases set_cases m ("Point" ++ "." ++ name) r name v s with ⟨halt, he⟩ | ⟨i, hi, hget, he⟩
    · cases hset.symm.trans he
    · cases hset.symm.trans he
      refine ⟨{ s with records := s.records.modify r fun fields => fields.set i v }, ?_⟩
      rw [hlook, hget]
      exact congrArg (EStateM.Result.ok · _) (field_set hs hi v)
  · intro s v halt s' hs h
    change (m.dispatch _ ((m.host "Point").setField r name v) >>= fun _ => pure v) s = _ at h
    rw [hm] at h
    rcases set_cases m ("Point" ++ "." ++ name) r name v s with ⟨halt', he⟩ | ⟨i, -, -, he⟩
    · cases (Run.bind_error (fun _ => pure v) he).symm.trans h
      exact .refl m _ s
    · cases (Run.bind_ok (fun _ => pure v) he).symm.trans h

end Point

namespace Sample

def pointEnv : Env := [⟨[⟨"p", .host "Point", false⟩, ⟨"c", .char, false⟩], 0⟩]

def pointStore : Store :=
  { cells := #[.host "Point" 0, .char '\x00'], records := #[[.int 5, .int 0, .null]] }

def movedStore : Store :=
  { cells := #[.host "Point" 0, .char '\x00'], records := #[[.int 4, .int 0, .null]] }

end Sample

open Sample in
/-- A field of a point is stepped, and the character before the first one is refused. -/
theorem steps_numbers_point :
    let m := Machine.ofFuel (standardHost 1) 8
    (∃ e, Expr.checkedStep .postDec (.member .hostField (.name "p") "x") = .ok e ∧
      eval (standardHost 1) 9 pointEnv (e.resolve 1 (.ofEnv pointEnv)).value pointStore =
        .ok (.int 5) movedStore ∧ m.Shows (.hostField "Point" 0 "x") movedStore (.int 4)) ∧
    ∃ e halt s', Expr.checkedStep .preDec (.name "c") = .ok e ∧
      eval (standardHost 1) 9 pointEnv (e.resolve 1 (.ofEnv pointEnv)).value pointStore =
        .error halt s' ∧ s' = pointStore := by
  intro m
  constructor
  · have hp : m.place pointEnv ((Expr.member .hostField (.name "p") "x").resolve 1
        (.ofEnv pointEnv)).value pointStore = .ok (.hostField "Point" 0 "x") pointStore := rfl
    have hstep : Expr.checkedStep .postDec (.member .hostField (.name "p") "x") =
        .ok (.step .postDec (.member .hostField (.name "p") "x")) := rfl
    have hrun : eval (standardHost 1) 9 pointEnv
        ((Expr.step .postDec (.member .hostField (.name "p") "x")).resolve 1
          (.ofEnv pointEnv)).value pointStore = .ok (.int 5) movedStore := rfl
    have h := steps_numbers hstep 1 (.ofEnv pointEnv) (standardHost 1) 8 pointEnv pointStore
    obtain ⟨hok, -⟩ := h (by
      intro p s₁ hplace _
      cases hplace.symm.trans hp
      exact ⟨_, Point.isField ⟨1, rfl⟩ 0 "x", .int 5, .int 0, .null, rfl⟩)
    obtain ⟨p, s₁, old, hplace, ⟨s₂, hold⟩, hnumber⟩ := hok _ _ hrun
    cases hplace.symm.trans hp
    have hfive : m.read (.hostField "Point" 0 "x") pointStore = .ok (.int 5) pointStore := rfl
    cases hold.symm.trans hfive
    obtain ⟨new, stored, hnext, hcast, hshows, -⟩ := hnumber nofun
    cases hnext with
    | @int _ n hn =>
      have hfour : n = 4 := Int32.toInt_inj.mp hn
      subst hfour
      cases hcast
      exact ⟨_, hstep, hrun, hshows⟩
  · have hp : m.place pointEnv ((Expr.name "c").resolve 1 (.ofEnv pointEnv)).value pointStore =
        .ok (.cell 1 "c" .char false) pointStore := rfl
    have hstep : Expr.checkedStep .preDec (.name "c") = .ok (.step .preDec (.name "c")) := rfl
    have h := steps_numbers hstep 1 (.ofEnv pointEnv) (standardHost 1) 8 pointEnv pointStore
    obtain ⟨-, hfailed⟩ := h (by
      intro p s₁ hplace hhost
      cases hplace.symm.trans hp
      cases hhost)
    obtain ⟨halt, s', hrun⟩ : ∃ halt s', eval (standardHost 1) 9 pointEnv
        ((Expr.step .preDec (.name "c")).resolve 1 (.ofEnv pointEnv)).value pointStore =
          .error halt s' := ⟨_, _, rfl⟩
    exact ⟨_, halt, s', hstep, hrun, (hfailed _ _ halt s' hp hrun).2 rfl⟩

/-- A text is stepped too: a free name may turn out to stand for one, which the constructor refuses where it
sees the type. The text is joined with that of the number one. -/
theorem step_joins_texts :
    let env : Env := [⟨[⟨"x", .str, false⟩], 0⟩]
    let s : Store := { cells := #[.str "a"] }
    let place := Place.cell 0 "x" .str false
    (∃ e, Expr.checkedStep .preInc (.name "x") = .ok e ∧
      eval (standardHost 0) 9 env (e.resolve 1 (.ofEnv env)).value s =
        .ok (.str "a1") { cells := #[.str "a1"] }) ∧
    (Machine.ofFuel (standardHost 0) 8).place env ((Expr.name "x").resolve 1 (.ofEnv env)).value s =
      .ok place s ∧
    (Machine.ofFuel (standardHost 0) 8).Shows place s (.str "a") ∧ Num.of? (.str "a") = none ∧
    Expr.checkedStep .preInc ((Expr.name "x").resolve 1 (.ofEnv env)).value =
      .error (.of (.invalidOperand "++" "String")) := by
  intro env s place
  exact ⟨⟨_, rfl, rfl⟩, rfl, ⟨s, rfl⟩, rfl, rfl⟩

end ExprCore
