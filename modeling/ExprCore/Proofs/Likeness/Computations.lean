import ExprCore.Proofs.Likeness.Values

/-!
What is computed from values without a change of the store: conversions, truth, text, equality and
look-ups. Each computation gives like results on like values.
-/

namespace ExprCore
set_option autoImplicit false

variable {ρ : Links} {s s' : Store}

namespace Agree

variable {α β γ δ : Type} {R : α → β → Prop} {S : γ → δ → Prop}

theorem ok_left {a : α} {x : Except EvalError α} {y : Except EvalError β} (h : Agree R x y)
    (hx : x = .ok a) : ∃ b, y = .ok b ∧ R a b := by
  cases h with
  | ok h => cases hx; exact ⟨_, rfl, h⟩
  | error => cases hx

theorem imp {R' : α → β → Prop} {x : Except EvalError α} {y : Except EvalError β}
    (hR : ∀ a b, R a b → R' a b) (h : Agree R x y) : Agree R' x y := by
  cases h with
  | ok h => exact .ok (hR _ _ h)
  | error h => exact .error h

theorem bind {x : Except EvalError α} {y : Except EvalError β} {f : α → Except EvalError γ}
    {g : β → Except EvalError δ} (h : Agree R x y) (hf : ∀ a b, R a b → Agree S (f a) (g b)) :
    Agree S (x >>= f) (y >>= g) := by
  cases h with
  | ok h => exact hf _ _ h
  | error h => exact .error h

theorem map {x : Except EvalError α} {y : Except EvalError β} {f : α → γ} {g : β → δ}
    (h : Agree R x y) (hf : ∀ a b, R a b → S (f a) (g b)) : Agree S (x.map f) (y.map g) := by
  cases h with
  | ok h => exact .ok (hf _ _ h)
  | error h => exact .error h

theorem mapError {x : Except EvalError α} {y : Except EvalError β} {f : EvalError → EvalError}
    (h : Agree R x y) (hf : ∀ e, e.returned? = none → (f e).returned? = none) :
    Agree R (x.mapError f) (y.mapError f) := by
  cases h with
  | ok h => exact .ok h
  | error h => exact .error (hf _ h)

theorem refl {R : α → α → Prop} {x : Except EvalError α} (hok : ∀ a, x = .ok a → R a a)
    (herror : ∀ e, x = .error e → e.returned? = none) : Agree R x x := by
  cases x with
  | ok a => exact .ok (hok a rfl)
  | error e => exact .error (herror e rfl)

end Agree

namespace Value.Like

variable {v w : Value}

theorem cast (h : Like ρ v w) (t : Ty) : Agree (Like ρ) (t.cast v) (t.cast w) := by
  cases h with
  | plain hv =>
    cases hc : t.cast v with
    | error e => exact .error (Ty.cast_error hc)
    | ok u =>
      cases hu : u.isContainer with
      | false => exact .ok (.plain hu)
      | true =>
        rw [Ty.eq_of_cast_container hc hu, hv] at hu
        cases hu
  | buffer h =>
    cases t <;> simp only [Ty.cast, Ty.castIntegral, Ty.castDouble, truncated?, integral?, isNull,
      Bool.and_false, Bool.false_eq_true, if_false] <;>
      first | exact .error rfl | exact .ok (.buffer h) | exact .ok (.plain rfl)
  | list h =>
    cases t <;> simp only [Ty.cast, Ty.castIntegral, Ty.castDouble, truncated?, integral?, isNull,
      Bool.and_false, Bool.false_eq_true, if_false] <;>
      first | exact .error rfl | exact .ok (.list h) | exact .ok (.plain rfl)
  | map h =>
    cases t <;> simp only [Ty.cast, Ty.castIntegral, Ty.castDouble, truncated?, integral?, isNull,
      Bool.and_false, Bool.false_eq_true, if_false] <;>
      first | exact .error rfl | exact .ok (.map h) | exact .ok (.plain rfl)
  | array h =>
    cases t <;> simp only [Ty.cast, Ty.castIntegral, Ty.castDouble, truncated?, integral?, isNull,
      Bool.and_false, Bool.false_eq_true, if_false] <;> (try split) <;>
      first | exact .error rfl | exact .ok (.array h) | exact .ok (.plain rfl)

theorem castNoting (h : Like ρ v w) (t : Ty) (note : String) :
    Agree (Like ρ) (t.castNoting note v) (t.castNoting note w) :=
  (h.cast t).mapError fun _ he => he

theorem conforms (h : Like ρ v w) {t : Ty} (hv : t.Conforms v) : t.Conforms w := by
  obtain ⟨u, hw, hu⟩ := (h.cast t).ok_left hv
  cases h with
  | plain => exact hv
  | buffer | list | array | map =>
    exact hw.trans (congrArg Except.ok (Ty.eq_of_cast_container hw (hu.isContainer_eq ▸ rfl)))

theorem toInt (h : Like ρ v w) : Agree Eq v.toInt w.toInt := by
  rw [h.toInt_eq]
  refine .refl (fun _ _ => rfl) fun e he => ?_
  unfold Value.toInt at he
  split at he <;> cases he
  rfl

theorem mapKey (h : Like ρ v w) : Agree Eq (Indexable.mapKey v) (Indexable.mapKey w) := by
  rw [h.mapKey_eq]
  refine .refl (fun _ _ => rfl) fun e he => ?_
  unfold Indexable.mapKey at he
  split at he <;> cases he
  rfl

end Value.Like

theorem Value.Likes.isEmpty_eq {vs ws : List Value} (h : Likes ρ vs ws) :
    vs.isEmpty = ws.isEmpty := by cases h <;> rfl

theorem forall₂_getElem? {α β : Type} {R : α → β → Prop} {as : List α} {bs : List β}
    (h : List.Forall₂ R as bs) (i : Nat) : Option.Rel R as[i]? bs[i]? := by
  induction h generalizing i with
  | nil => exact .none
  | cons h _ ih =>
    cases i with
    | zero => exact .some h
    | succ i => exact ih i

theorem Entries.Like.isEmpty_eq {es es' : Entries} (h : Entries.Like ρ es es') :
    es.isEmpty = es'.isEmpty := by cases h <;> rfl

theorem Value.Likes.mapM_cast {vs ws : List Value} (h : Likes ρ vs ws) (t : Ty) :
    Agree (Likes ρ) (vs.mapM t.cast) (ws.mapM t.cast) := by
  induction h with
  | nil => exact .ok .nil
  | cons h _ ih =>
    rw [List.mapM_cons, List.mapM_cons]
    exact (h.cast t).bind fun _ _ ha => ih.bind fun _ _ has => .ok (.cons ha has)

namespace Store.Contents

open Value (Like Likes)

variable (hs : Store.Contents ρ s s')
include hs

theorem truth_eq {v w : Value} (h : Like ρ v w) : v.truth s = w.truth s' := by
  cases h with
  | plain h => cases v <;> first | rfl | cases h
  | buffer h => rw [Value.truth, Value.truth, hs.chars h]
  | list h => rw [Value.truth, Value.truth, (hs.items h).isEmpty_eq]
  | array h => rw [Value.truth, Value.truth, (hs.items h).isEmpty_eq]
  | map h => rw [Value.truth, Value.truth, (hs.entries h).isEmpty_eq]

omit hs in
theorem textsWith_eq {text text' : Value → Option String}
    (ht : ∀ {v w}, Like ρ v w → text v = text' w) {vs ws : List Value} (h : Likes ρ vs ws) :
    Value.textsWith text vs = Value.textsWith text' ws := by
  induction h with
  | nil => rfl
  | cons h _ ih => rw [Value.textsWith, Value.textsWith, ht h, ih]

omit hs in
theorem entryTexts_eq {text text' : Value → Option String}
    (ht : ∀ {v w}, Like ρ v w → text v = text' w) (entry : String → String → String)
    {es es' : Entries} (h : Entries.Like ρ es es') :
    Value.entryTexts text entry es = Value.entryTexts text' entry es' := by
  induction h with
  | nil => rfl
  | cons h _ ih =>
    obtain ⟨hk, hv⟩ := h
    rw [Value.entryTexts, Value.entryTexts, ht hv, ih, hk]

theorem display_eq (n : Nat) {v w : Value} (h : Like ρ v w) :
    v.display s n = w.display s' n := by
  induction n generalizing v w with
  | zero => rfl
  | succ n ih =>
    cases h with
    | plain h => cases v <;> first | rfl | cases h
    | buffer h => simp only [Value.display, hs.chars h]
    | list h => simp only [Value.display, textsWith_eq ih (hs.items h)]
    | array h => simp only [Value.display, textsWith_eq ih (hs.items h)]
    | map h => simp only [Value.display, entryTexts_eq ih _ (hs.entries h)]

omit hs in
theorem equalItems_eq {equal equal' : Value → Value → Option Bool}
    (he : ∀ {a a' b b'}, Like ρ a a' → Like ρ b b' → equal a b = equal' a' b')
    {as as' bs bs' : List Value} (ha : Likes ρ as as') (hb : Likes ρ bs bs') :
    Value.equalItems equal as bs = Value.equalItems equal' as' bs' := by
  induction ha generalizing bs bs' with
  | nil => rfl
  | cons ha _ ih =>
    cases hb with
    | nil => rfl
    | cons hb hbs => rw [Value.equalItems, Value.equalItems, he ha hb, ih hbs]

omit hs in
theorem lookup_like {es es' : Entries} (h : Entries.Like ρ es es') (key : String) :
    Option.Rel (Like ρ) (es.lookup key) (es'.lookup key) := by
  induction h with
  | nil => exact .none
  | @cons a b _ _ h _ ih =>
    obtain ⟨hk, hv⟩ := h
    rw [List.lookup_cons, List.lookup_cons, hk]
    cases key == b.1 with
    | true => exact .some hv
    | false => exact ih

omit hs in
theorem equalEntries_eq {equal equal' : Value → Value → Option Bool}
    (he : ∀ {a a' b b'}, Like ρ a a' → Like ρ b b' → equal a b = equal' a' b')
    {es es' other other' : Entries} (h : Entries.Like ρ es es')
    (ho : Entries.Like ρ other other') :
    Value.equalEntries equal other es = Value.equalEntries equal' other' es' := by
  induction h with
  | nil => rfl
  | @cons a b _ _ h _ ih =>
    obtain ⟨hk, hv⟩ := h
    rw [Value.equalEntries, Value.equalEntries, hk, ih]
    generalize other.lookup b.1 = x, other'.lookup b.1 = y, lookup_like ho b.1 = hl
    cases hl with
    | none => rfl
    | some hl => simp only [he hv hl]

theorem equal_eq (n : Nat) {a a' b b' : Value} (ha : Like ρ a a') (hb : Like ρ b b') :
    Value.equal s n a b = Value.equal s' n a' b' := by
  induction n generalizing a a' b b' with
  | zero => rfl
  | succ n ih =>
    have hi {q q' r r'} (hq : ρ.rel .sequence q q') (hr : ρ.rel .sequence r r') :
        Value.equalItems (Value.equal s n) (s.items q) (s.items r) =
          Value.equalItems (Value.equal s' n) (s'.items q') (s'.items r') :=
      equalItems_eq ih (hs.items hq) (hs.items hr)
    have hl {q q'} (hq : ρ.rel .sequence q q') :
        (s.items q).length = (s'.items q').length := (hs.items hq).length_eq
    cases ha with
    | plain ha =>
      cases hb with
      | plain hb => cases a <;> cases b <;> first | rfl | cases ha
      | buffer | list | array | map => cases a <;> first | rfl | cases ha
    | buffer ha =>
      cases hb with
      | plain hb => cases b <;> first | rfl | cases hb
      | buffer hb =>
        simp only [Value.equal, ρ.oneToOne ha hb, hs.chars ha, hs.chars hb]
      | list | array | map => rfl
    | list ha =>
      cases hb with
      | plain hb => cases b <;> first | rfl | cases hb
      | list hb => simp only [Value.equal, ρ.oneToOne ha hb, hi ha hb, hl ha, hl hb]
      | buffer | array | map => rfl
    | array ha =>
      cases hb with
      | plain hb => cases b <;> first | rfl | cases hb
      | array hb => simp only [Value.equal, ρ.oneToOne ha hb, hi ha hb, hl ha, hl hb]
      | buffer | list | map => rfl
    | map ha =>
      cases hb with
      | plain hb => cases b <;> first | rfl | cases hb
      | map hb =>
        simp only [Value.equal, ρ.oneToOne ha hb, (hs.entries ha).length_eq,
          (hs.entries hb).length_eq, equalEntries_eq ih (hs.entries ha) (hs.entries hb)]
      | buffer | list | array => rfl

end Store.Contents

inductive Content.Like (ρ : Links) : Content → Content → Prop where
  | items {vs ws : List Value} (h : Value.Likes ρ vs ws) : Like ρ (.items vs) (.items ws)
  | chars (chars : List Char) : Like ρ (.chars chars) (.chars chars)
  | entries {es es' : Entries} (h : Entries.Like ρ es es') : Like ρ (.entries es) (.entries es')

namespace Entries.Like

variable {es es' : Entries} {v v' : Value}

theorem get (h : Entries.Like ρ es es') (key : String) :
    Value.Like ρ (es.get key) (es'.get key) := by
  induction h with
  | nil => exact .plain rfl
  | cons h _ ih =>
    obtain ⟨hk, hv⟩ := h
    rw [Entries.get, Entries.get, hk]
    split
    · exact hv
    · exact ih

theorem insert (h : Entries.Like ρ es es') (key : String) (hv : Value.Like ρ v v') :
    Entries.Like ρ (es.insert key v) (es'.insert key v') := by
  induction h with
  | nil => exact .cons ⟨rfl, hv⟩ .nil
  | @cons a b _ _ h ht ih =>
    rw [Entries.insert, Entries.insert, h.1]
    split
    · exact .cons ⟨rfl, hv⟩ ht
    · split
      · exact .cons ⟨rfl, hv⟩ (.cons ⟨rfl, h.2⟩ ht)
      · exact .cons ⟨rfl, h.2⟩ ih

theorem insertAll {more more' : List (String × Value)} (h : Entries.Like ρ es es')
    (hm : Entries.Like ρ more more') : Entries.Like ρ (es.insertAll more) (es'.insertAll more') := by
  induction hm generalizing es es' with
  | nil => exact h
  | @cons a b _ _ hab _ ih =>
    obtain ⟨k, v⟩ := a
    obtain ⟨k', v'⟩ := b
    obtain ⟨rfl, hv⟩ := hab
    exact ih (h.insert k hv)

end Entries.Like

namespace Indexable

open Value (Likes)

variable {key key' : Value}

inductive Like (ρ : Links) : Indexable → Indexable → Prop where
  | text (t : String) : Like ρ (.text t) (.text t)
  | buffer {r r' : Ref} (h : ρ.rel .buffer r r') : Like ρ (.buffer r) (.buffer r')
  | list {r r' : Ref} (h : ρ.rel .sequence r r') : Like ρ (.list r) (.list r')
  | array {elem : Ty} {r r' : Ref} (h : ρ.rel .sequence r r') :
    Like ρ (.array elem r) (.array elem r')
  | map {r r' : Ref} (h : ρ.rel .map r r') : Like ρ (.map r) (.map r')

theorem Like.mono {σ : Links} (hσ : ρ ≤ σ) {c c' : Indexable} (h : Like ρ c c') : Like σ c c' := by
  cases h with
  | text t => exact .text t
  | buffer h => exact .buffer (hσ _ _ _ h)
  | list h => exact .list (hσ _ _ _ h)
  | array h => exact .array (hσ _ _ _ h)
  | map h => exact .map (hσ _ _ _ h)

theorem like_same (c : Indexable) : Like .same c c := by
  cases c <;> constructor <;> rfl

theorem like_ofValue {v v' : Value} (h : Value.Like ρ v v') :
    Agree (Like ρ) (ofValue v) (ofValue v') := by
  cases h with
  | plain h =>
    cases v <;> first
      | exact .ok (.text _)
      | exact .error rfl
      | cases h
  | buffer h => exact .ok (.buffer h)
  | list h => exact .ok (.list h)
  | array h => exact .ok (.array h)
  | map h => exact .ok (.map h)

theorem agree_position (h : Value.Like ρ key key') (n : Nat) :
    Agree Eq (position key n) (position key' n) := by
  refine h.toInt.bind fun i _ hi => ?_
  subst hi
  split
  · exact .ok rfl
  · exact .error rfl

theorem agree_element {α : Type} {R : α → α → Prop} {items items' : List α}
    (hi : List.Forall₂ R items items') (h : Value.Like ρ key key') :
    Agree R (element items key) (element items' key') := by
  rw [element, element, hi.length_eq]
  refine (agree_position h _).bind fun i _ he => ?_
  subst he
  generalize items[i]? = x, items'[i]? = y, forall₂_getElem? hi i = hr
  cases hr with
  | none => exact .error rfl
  | some hr => exact .ok hr

theorem agree_chars (chars : List Char) (h : Value.Like ρ key key') :
    Agree (Value.Like ρ) ((element chars key).map .char) ((element chars key').map .char) :=
  (agree_element (List.forall₂_same.mpr fun _ _ => rfl) h).map fun _ _ hc => hc ▸ .plain rfl

theorem agree_get (hs : Store.Contents ρ s s') {c c' : Indexable} (hc : Like ρ c c')
    (h : Value.Like ρ key key') : Agree (Value.Like ρ) (c.get s key) (c'.get s' key') := by
  cases hc with
  | text t => exact agree_chars _ h
  | buffer hr =>
    rw [get, get, hs.chars hr]
    exact agree_chars _ h
  | list hr => exact agree_element (hs.items hr) h
  | array hr => exact agree_element (hs.items hr) h
  | map hr => exact h.mapKey.map fun k _ hk => hk ▸ (hs.entries hr).get k

theorem agree_between {α : Type} {R : α → α → Prop} {items items' : List α}
    (h : List.Forall₂ R items items') (lo hi : Int) :
    Agree (List.Forall₂ R) (between items lo hi) (between items' lo hi) := by
  rw [between, between, h.length_eq]
  refine Agree.map (R := Eq) (.refl (fun _ _ => rfl) fun e he => ?_) ?_
  · unfold bounds at he
    split at he
    · cases he; rfl
    · split at he
      · cases he
      · split at he <;> cases he
        rfl
  · rintro p _ rfl
    exact List.forall₂_drop _ (List.forall₂_take _ h)

end Indexable

theorem agree_checkCount (name : String) (arity : Arity) {args args' : List Value}
    (h : Value.Likes ρ args args') :
    Agree Eq (checkCount name arity args) (checkCount name arity args') := by
  rw [checkCount, checkCount, h.length_eq]
  split
  · exact .ok rfl
  · exact .error rfl

theorem Native.agree_castArgs (name : String) (rest : Ty) {args args' : List Value}
    (h : Value.Likes ρ args args') (i : Nat) (params : List Ty) :
    Agree (Value.Likes ρ) (castArgs name rest i params args)
      (castArgs name rest i params args') := by
  induction h generalizing i params with
  | nil => exact .ok .nil
  | cons h _ ih =>
    exact (h.castNoting _ _).bind fun _ _ ha => (ih _ _).bind fun _ _ has => .ok (.cons ha has)

theorem Native.agree_validate (f : Native) {args args' : List Value}
    (h : Value.Likes ρ args args') : Agree (Value.Likes ρ) (f.validate args) (f.validate args') :=
  (agree_checkCount _ _ h).bind fun _ _ _ => agree_castArgs _ _ h _ _

theorem Operation.agree_validate (op : Operation) {args args' : List Value}
    (h : Value.Likes ρ args args') :
    Agree (Value.Likes ρ) (op.validate args) (op.validate args') := by
  rw [validate, validate, h.length_eq]
  split
  · exact .ok h
  · exact .error rfl

def KnownDefaults (ρ : Links) (params : List Param) : Prop :=
  ∀ p ∈ params, ∀ v, p.default = some v → Value.Like ρ v v

theorem KnownDefaults.mono {σ : Links} (hσ : ρ ≤ σ) {params : List Param}
    (h : KnownDefaults ρ params) : KnownDefaults σ params :=
  fun p hp v hv => (h p hp v hv).mono hσ

theorem Closure.agree_bindParams (name : String) {params : List Param}
    (hp : KnownDefaults ρ params) (i : Nat) {args args' : List Value}
    (h : Value.Likes ρ args args') :
    Agree (Value.Likes ρ) (bindParams name i params args) (bindParams name i params args') := by
  induction params generalizing i args args' with
  | nil => exact .ok .nil
  | cons p params ih =>
    have hv : Value.Like ρ (args.head?.getD (p.default.getD .null))
        (args'.head?.getD (p.default.getD .null)) := by
      cases h with
      | nil =>
        cases hd : p.default with
        | none => exact .plain rfl
        | some v => exact hp p List.mem_cons_self v hd
      | cons h _ => exact h
    have ht : Value.Likes ρ args.tail args'.tail := by
      cases h with
      | nil => exact .nil
      | cons _ h => exact h
    have ih := ih (fun q hq => hp q (List.mem_cons_of_mem p hq)) (i + 1) ht
    exact (hv.castNoting _ _).bind fun _ _ ha => ih.bind fun _ _ has => .ok (.cons ha has)

end ExprCore
