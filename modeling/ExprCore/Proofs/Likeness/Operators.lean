import ExprCore.Proofs.Likeness.Runs

/-!
Operators on like operands. More fuel does not change the result of a walk over a value, so that an
operator computes like results whatever the fuel, as long as it suffices.
-/

namespace ExprCore
set_option autoImplicit false

open Filter

namespace Value

variable {s : Store} {n m : Nat}

theorem textsWith_mono {text text' : Value → Option String}
    (ht : ∀ v t, text v = some t → text' v = some t) {vs : List Value} {ts : List String}
    (h : textsWith text vs = some ts) : textsWith text' vs = some ts := by
  induction vs generalizing ts with
  | nil => exact h
  | cons v vs ih =>
    simp only [textsWith, Option.bind_eq_bind, Option.bind_eq_some_iff, Option.pure_def] at h ⊢
    obtain ⟨t, hv, us, hvs, h⟩ := h
    exact ⟨t, ht v t hv, us, ih hvs, h⟩

theorem entryTexts_mono {text text' : Value → Option String}
    (ht : ∀ v t, text v = some t → text' v = some t) (entry : String → String → String)
    {es : Entries} {ts : List String} (h : entryTexts text entry es = some ts) :
    entryTexts text' entry es = some ts := by
  induction es generalizing ts with
  | nil => exact h
  | cons e es ih =>
    simp only [entryTexts, Option.bind_eq_bind, Option.bind_eq_some_iff, Option.pure_def] at h ⊢
    obtain ⟨t, hv, us, hvs, h⟩ := h
    exact ⟨t, ht _ t hv, us, ih hvs, h⟩

theorem display_mono (hn : n ≤ m) {v : Value} {t : String} (h : v.display s n = some t) :
    v.display s m = some t := by
  induction n generalizing m v t with
  | zero => cases h
  | succ n ih =>
    obtain ⟨m, rfl⟩ : ∃ k, m = k + 1 := ⟨m - 1, by omega⟩
    have ht (v : Value) (t : String) : v.display s n = some t → v.display s m = some t :=
      ih (by omega)
    cases v with
    | list r | array _ r =>
      simp only [display, Option.map_eq_some_iff] at h ⊢
      obtain ⟨ts, hts, h⟩ := h
      exact ⟨ts, textsWith_mono ht hts, h⟩
    | map r =>
      simp only [display, Option.map_eq_some_iff] at h ⊢
      obtain ⟨ts, hts, h⟩ := h
      exact ⟨ts, entryTexts_mono ht _ hts, h⟩
    | _ => exact h

theorem equalItems_mono {equal equal' : Value → Value → Option Bool}
    (he : ∀ v w b, equal v w = some b → equal' v w = some b) {vs ws : List Value} {b : Bool}
    (h : equalItems equal vs ws = some b) : equalItems equal' vs ws = some b := by
  induction vs generalizing ws with
  | nil => exact h
  | cons v vs ih =>
    cases ws with
    | nil => exact h
    | cons w ws =>
      rw [equalItems] at h ⊢
      cases hv : equal v w with
      | none => rw [hv] at h; cases h
      | some a =>
        rw [he v w a hv]
        rw [hv] at h
        cases a with
        | true => exact ih h
        | false => exact h

theorem equalEntries_mono {equal equal' : Value → Value → Option Bool}
    (he : ∀ v w b, equal v w = some b → equal' v w = some b) {other es : Entries} {b : Bool}
    (h : equalEntries equal other es = some b) : equalEntries equal' other es = some b := by
  induction es with
  | nil => exact h
  | cons e es ih =>
    rw [equalEntries] at h ⊢
    cases hl : other.lookup e.1 with
    | none => rw [hl] at h; exact h
    | some w =>
      rw [hl] at h
      simp only at h ⊢
      cases hv : equal e.2 w with
      | none => rw [hv] at h; cases h
      | some a =>
        rw [he e.2 w a hv]
        rw [hv] at h
        cases a with
        | true => exact ih h
        | false => exact h

theorem equal_mono (hn : n ≤ m) {v w : Value} {b : Bool} (h : equal s n v w = some b) :
    equal s m v w = some b := by
  induction n generalizing m v w b with
  | zero => cases h
  | succ n ih =>
    obtain ⟨m, rfl⟩ : ∃ k, m = k + 1 := ⟨m - 1, by omega⟩
    have he (v w : Value) (b : Bool) : equal s n v w = some b → equal s m v w = some b :=
      ih (by omega)
    have hs {q r : Ref} {b : Bool}
        (h : (if q = r then some true
          else if (s.items q).length = (s.items r).length then
            equalItems (equal s n) (s.items q) (s.items r)
          else some false) = some b) :
        (if q = r then some true
          else if (s.items q).length = (s.items r).length then
            equalItems (equal s m) (s.items q) (s.items r)
          else some false) = some b := by
      split at h
      · rwa [if_pos ‹_›]
      · rw [if_neg ‹_›]
        split at h
        · rw [if_pos ‹_›]
          exact equalItems_mono he h
        · rwa [if_neg ‹_›]
    cases v with
    | list q =>
      cases w with
      | list r => exact hs h
      | _ => exact h
    | array a q =>
      cases w with
      | array b r =>
        simp only [equal] at h ⊢
        split at h
        · rwa [if_pos ‹_›]
        · rw [if_neg ‹_›]
          split at h
          · rw [if_pos ‹_›]
            exact hs (by rwa [if_neg ‹¬q = r›])
          · rwa [if_neg ‹_›]
      | _ => exact h
    | map q =>
      cases w with
      | map r =>
        simp only [equal] at h ⊢
        split at h
        · rwa [if_pos ‹_›]
        · rw [if_neg ‹_›]
          split at h
          · rw [if_pos ‹_›]
            exact equalEntries_mono he h
          · rwa [if_neg ‹_›]
      | _ => exact h
    | _ => cases w <;> exact h

end Value

theorem Value.int?_plain {n : Int} {v : Value} (h : int? n = some v) : v.isContainer = false := by
  unfold int? at h
  split at h <;> cases h
  rfl

theorem Value.long?_plain {n : Int} {v : Value} (h : long? n = some v) :
    v.isContainer = false := by
  unfold long? at h
  split at h <;> cases h
  rfl

variable {ρ : Links}

theorem Arith.agree_onIntegers (op : Arith) {make? : Int → Option Value}
    (hm : ∀ {n v}, make? n = some v → v.isContainer = false) (m n : Int) :
    Agree (Value.Like ρ) (op.onIntegers make? m n) (op.onIntegers make? m n) := by
  unfold onIntegers
  split
  · exact .error rfl
  · split
    · split
      · rename_i hv
        split at hv
        · exact .ok (.plain (hm hv))
        · cases hv
      · exact .error rfl

theorem Arith.agree_onNumbers (op : Arith) (a b : Num) :
    Agree (Value.Like ρ) (op.onNumbers a b) (op.onNumbers a b) := by
  unfold onNumbers
  split
  · exact op.agree_onIntegers Value.int?_plain _ _
  · exact op.agree_onIntegers Value.long?_plain _ _
  · exact op.agree_onIntegers Value.long?_plain _ _
  · exact op.agree_onIntegers Value.long?_plain _ _
  · exact .ok (.plain rfl)

namespace Operator

theorem agree_negateValue {v v' : Value} (h : Value.Like ρ v v') :
    Agree (Value.Like ρ) (negateValue v) (negateValue v') := by
  unfold negateValue
  rw [h.num_eq, h.typeName_eq]
  dsimp only
  split
  · split
    · exact .ok (.plain (Value.int?_plain ‹_›))
    · exact .error rfl
  · split
    · exact .ok (.plain (Value.long?_plain ‹_›))
    · exact .error rfl
  · exact .ok (.plain rfl)
  · exact .error rfl

theorem nums_eq {vs vs' : List Value} (h : Value.Likes ρ vs vs') :
    vs.filterMap Num.of? = vs'.filterMap Num.of? := by
  induction h with
  | nil => rfl
  | cons h _ ih => rw [List.filterMap_cons, List.filterMap_cons, h.num_eq, ih]

theorem likes_of_plain {vs : List Value} (h : ∀ v ∈ vs, v.isContainer = false) :
    Value.Likes ρ vs vs := List.forall₂_same.mpr fun v hv => .plain (h v hv)

theorem rangeElement_error {types : List Ty} {e : EvalError} (h : rangeElement types = .error e) :
    e.returned? = none := by
  unfold rangeElement at h
  split at h
  · cases h
  · split at h
    · cases h; rfl
    · split at h
      · cases h
      · split at h
        · cases h
        · split at h <;> cases h

theorem agree_rangeItems (elem : Ty) (ns : List Int) :
    Agree (Value.Likes ρ) (ns.mapM fun n => elem.cast (.long (Int64.ofInt n)))
      (ns.mapM fun n => elem.cast (.long (Int64.ofInt n))) := by
  induction ns with
  | nil => exact .ok .nil
  | cons n ns ih =>
    rw [List.mapM_cons]
    exact ((Value.Like.plain rfl).cast elem).bind fun _ _ h => ih.bind fun _ _ hs => .ok (.cons h hs)

end Operator

namespace Correspondence

variable {C : Correspondence} {w : C.World} {n : Nat} {f : Nat → Nat} {s s' : Store}

theorem runs_display (hf : C.Fuels n f) (hs : Store.Contents ρ s s') {v v' : Value}
    (h : Value.Like ρ v v') :
    Runs w (fun _ a b => a = b) (Run.ofOption (v.display s n))
      fun k => Run.ofOption (v'.display s' (f k)) :=
  .walk hf (fun n => hs.display_eq n h) fun _ _ _ hn hd => Value.display_mono hn hd

theorem runs_equal (hf : C.Fuels n f) (hs : Store.Contents ρ s s') {a a' b b' : Value}
    (ha : Value.Like ρ a a') (hb : Value.Like ρ b b') :
    Runs w (fun _ a b => a = b) (Run.ofOption (Value.equal s n a b))
      fun k => Run.ofOption (Value.equal s' (f k) a' b') :=
  .walk hf (fun n => hs.equal_eq n ha hb) fun _ _ _ hn he => Value.equal_mono hn he

variable {a a' b b' : Value}

theorem runs_arith (op : Arith) (hf : C.Fuels n f) (ha : Value.Like (C.links w) a a')
    (hb : Value.Like (C.links w) b b') :
    Runs w (fun w => Value.Like (C.links w)) (op.invoke n a b) fun k => op.invoke (f k) a' b' := by
  unfold Arith.invoke
  rw [ha.isText_eq, hb.isText_eq, ha.num_eq, hb.num_eq, ha.typeName_eq, hb.typeName_eq]
  split
  · refine .get_bind fun w₁ hw s s' hs => ?_
    have hc := C.contents hs
    refine (runs_display hf hc (ha.mono (C.links_mono hw)) w₁ le_rfl s s' hs).bind ?_
    rintro w₂ _ left _ rfl
    refine (runs_display hf hc (hb.mono (C.links_mono hw))).bind ?_
    rintro w₃ _ right _ rfl
    exact .value (.plain rfl)
  · split
    · exact .ofLike (op.agree_onNumbers _ _)
    · exact .fail rfl

theorem order?_eq (ha : Value.Like ρ a a') (hb : Value.Like ρ b b') :
    Comparison.order? a b = Comparison.order? a' b' := by
  unfold Comparison.order?
  rw [ha.num_eq, hb.num_eq]
  cases ha with
  | plain =>
    cases hb with
    | plain => rfl
    | buffer | list | array | map => cases a <;> rfl
  | buffer | list | array | map => cases hb <;> rfl

theorem runs_comparison (op : Comparison) (hf : C.Fuels n f) (ha : Value.Like (C.links w) a a')
    (hb : Value.Like (C.links w) b b') :
    Runs w (fun w => Value.Like (C.links w)) (op.invoke n a b) fun k => op.invoke (f k) a' b' := by
  unfold Comparison.invoke
  rw [order?_eq ha hb, ha.typeName_eq, hb.typeName_eq]
  split
  · exact .value (.plain rfl)
  · split
    · refine .get_bind fun w₁ hw s s' hs => ?_
      have ha := ha.mono (C.links_mono hw)
      have hb := hb.mono (C.links_mono hw)
      refine (runs_equal hf (C.contents hs) ha hb w₁ le_rfl s s' hs).bind ?_
      rintro w₂ _ same _ rfl
      exact .value (.plain rfl)
    · exact .fail rfl

theorem runs_walkDoubles (last step : Float) (hf : C.Fuels n f) (walked : List Value) (x : Float)
    (hw : ∀ v ∈ walked, v.isContainer = false) :
    Runs w (fun _ vs vs' => vs = vs' ∧ ∀ v ∈ vs, v.isContainer = false)
      (Operator.walkDoubles last step n walked x)
      fun k => Operator.walkDoubles last step (f k) walked x := by
  induction n generalizing f walked x with
  | zero =>
    exact .exhausted hf (y := fun _ n => Operator.walkDoubles last step n walked x) fun _ => rfl
  | succ n ih =>
    refine .fueled (x := fun n => Operator.walkDoubles last step n walked x)
      (y := fun _ n => Operator.walkDoubles last step n walked x) hf rfl (fun _ => rfl) ?_
    intro m g hm hg
    cases hm
    simp only [Operator.walkDoubles]
    split
    · split
      · exact .fail rfl
      · refine ih hg _ _ fun v hv => ?_
        rcases List.mem_cons.mp hv with rfl | hv
        · rfl
        · exact hw v hv
    · exact .pure fun _ _ => ⟨rfl, fun v hv => hw v (List.mem_reverse.mp hv)⟩

theorem runs_doubleRange (hf : C.Fuels n f) (first last : Float) (step : Option Float) :
    Runs w (fun w => Value.Like (C.links w)) (Operator.doubleRange n first last step)
      fun k => Operator.doubleRange (f k) first last step := by
  unfold Operator.doubleRange
  dsimp only
  generalize step.getD _ = step
  split
  · exact .fail rfl
  · split
    · exact .fail rfl
    · refine (runs_walkDoubles _ _ hf [] first (by nofun)).bind ?_
      rintro w' _ vs _ ⟨rfl, hvs⟩
      exact .newList (Operator.likes_of_plain hvs)

theorem runs_integralRange (elem : Ty) (first last : Int) (step : Option Int) :
    Runs w (fun w => Value.Like (C.links w)) (Operator.integralRange elem first last step)
      fun _ => Operator.integralRange elem first last step := by
  unfold Operator.integralRange
  dsimp only
  generalize step.getD _ = step
  split
  · exact .fail rfl
  · refine (Runs.ofLikes (Operator.agree_rangeItems elem _)).bind ?_
    exact fun w' _ vs vs' hvs => .newList hvs

variable {args args' : List Value}

theorem runs_rangeOver (hf : C.Fuels n f) (h : Value.Likes (C.links w) args args') :
    Runs w (fun w => Value.Like (C.links w)) (Operator.rangeOver n args)
      fun k => Operator.rangeOver (f k) args' := by
  unfold Operator.rangeOver
  rw [h.tys_eq, Operator.nums_eq h]
  have he : Agree Eq (Operator.rangeElement (args'.map Value.ty))
      (Operator.rangeElement (args'.map Value.ty)) :=
    .refl (fun _ _ => rfl) fun _ => Operator.rangeElement_error
  refine (Runs.ofAgree he).bind ?_
  rintro w' _ elem _ rfl
  dsimp only
  split
  · split
    · exact runs_doubleRange hf _ _ _
    · split
      · exact runs_integralRange _ _ _ _
      · exact .fail rfl
  · exact .fail rfl

theorem runs_not (ha : Value.Like (C.links w) a a') :
    Runs w (fun w => Value.Like (C.links w)) (Operator.invoke .not n [a])
      fun k => Operator.invoke .not (f k) [a'] := by
  refine .get_bind fun w₁ hw s s' hs => ?_
  rw [(C.contents hs).truth_eq (ha.mono (C.links_mono hw))]
  exact .pure hs (.plain rfl)

theorem runs_operator (op : Operator) (hf : C.Fuels n f)
    (h : Value.Likes (C.links w) args args') :
    Runs w (fun w => Value.Like (C.links w)) (op.invoke n args) fun k => op.invoke (f k) args' := by
  cases h with
  | nil =>
    cases op with
    | arith | compare | negate | not | range => exact .throwError (.refl rfl)
  | cons ha h =>
    cases h with
    | nil =>
      cases op with
      | negate => exact .ofLike (Operator.agree_negateValue ha)
      | not => exact runs_not ha
      | arith | compare | range => exact .throwError (.refl rfl)
    | cons hb h =>
      cases h with
      | nil =>
        cases op with
        | arith op => exact runs_arith op hf ha hb
        | compare op => exact runs_comparison op hf ha hb
        | range => exact runs_rangeOver hf (.cons ha (.cons hb .nil))
        | negate | not => exact .throwError (.refl rfl)
      | cons hc h =>
        cases op with
        | range =>
          cases h with
          | nil => exact runs_rangeOver hf (.cons ha (.cons hb (.cons hc .nil)))
          | cons hd h =>
            simp only [Operator.invoke, Operator.wrongCount, List.length_cons, h.length_eq]
            exact .throwError (.refl rfl)
        | arith | compare | negate | not =>
          simp only [Operator.invoke, Operator.wrongCount, List.length_cons, h.length_eq]
          exact .throwError (.refl rfl)

end Correspondence

end ExprCore
