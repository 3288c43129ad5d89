import ExprCore.Proofs.Invariants.Calls
import ExprCore.Proofs.Likeness.Places

/-!
Places under a discipline. What a target denotes may be read, and a place that its node may write takes
values that may be held.
-/

namespace ExprCore
set_option autoImplicit false

def Indexable.value : Indexable → Value
  | .text s => .str s
  | .buffer r => .buffer r
  | .list r => .list r
  | .array elem r => .array elem r
  | .map r => .map r

theorem Indexable.value_of_ofValue {v : Value} {c : Indexable} (h : ofValue v = .ok c) :
    c.value = v := by
  cases v <;> cases h <;> rfl

namespace Discipline

variable {W : Type} [Preorder W] {D : Discipline W} {w : W} {v key : Value} {vs args : List Value}
  {n : Nat} {host : Host} {f g : Env → Expr → Run Value} {env : Env} {e x : Expr}

/-- Places that may be read, and written where `writes` says so of slots, final or not. -/
def place (D : Discipline W) (writes : Bool → Prop) (w : W) : Place → Prop
  | .cell r _ t final => writes final → D.slot w r t
  | .element c _ => D.value w c.value
  | .hostField .. | .staticField .. => True

abbrev writes (e : Expr) (final : Bool) : Prop := final = false ∨ e.isFirstWrite = true

section

variable (hD : D.Lawful)
include hD

theorem place_mono {writes : Bool → Prop} {w₁ : W} (hw : w ≤ w₁) {p : Place}
    (h : D.place writes w p) : D.place writes w₁ p := by
  cases p with
  | cell => exact fun hf => hD.slot_mono hw (h hf)
  | element => exact hD.value_mono hw h
  | hostField | staticField => exact trivial

theorem value_get {entries : Entries} (he : ∀ e ∈ entries, D.value w e.2) (k : String) :
    D.value w (entries.get k) := by
  induction entries with
  | nil => exact hD.plain rfl
  | cons entry entries ih =>
    rw [Entries.get]
    split
    · exact he entry List.mem_cons_self
    · exact ih fun e hm => he e (List.mem_cons_of_mem _ hm)

omit hD in
theorem value_element {items : List Value} (hi : ∀ u ∈ items, D.value w u)
    (h : Indexable.element items key = .ok v) : D.value w v := by
  unfold Indexable.element at h
  cases hp : Indexable.position key items.length with
  | error e => rw [hp] at h; cases h
  | ok i =>
    rw [hp] at h
    cases hx : items[i]? with
    | none => simp only [bind, Except.bind, hx] at h; cases h
    | some u =>
      simp only [bind, Except.bind, hx] at h
      cases h
      exact hi _ (List.mem_of_getElem? hx)

theorem value_indexed {s : Store} (hs : D.good w s) {c : Indexable}
    (h : c.get s key = .ok v) : D.value w v := by
  have hchar {chars : List Char} (h : (Indexable.element chars key).map Value.char = .ok v) :
      D.value w v := by
    cases hc : Indexable.element chars key with
    | error e => rw [hc] at h; cases h
    | ok ch => rw [hc] at h; cases h; exact hD.plain rfl
  cases c with
  | text t => exact hchar h
  | buffer r => exact hchar h
  | list r => exact value_element (value_item hD hs) h
  | array elem r => exact value_element (value_item hD hs) h
  | map r =>
    simp only [Indexable.get] at h
    cases hk : Indexable.mapKey key with
    | error e => rw [hk] at h; cases h
    | ok k =>
      rw [hk] at h
      cases h
      exact value_get hD (value_entries hD hs) k

omit hD in
theorem keeps_position (k : Nat) : D.Keeps w (fun _ _ => True)
    (Run.ofExcept (Indexable.position key k)) (Run.ofExcept (Indexable.position key k)) :=
  .ofExcept (fun _ _ _ _ => trivial) fun _ =>
    failure_of_agree (Indexable.agree_position (Value.Like.refl_same key) k)

theorem keeps_set {c : Indexable} (hc : D.value w c.value) (hv : D.value w v) :
    D.Yields w (c.set key v) (c.set key v) := by
  cases c with
  | text t => exact .fail rfl
  | buffer r =>
    refine (Keeps.cast hD hv .char).bind fun w₁ _ u _ => ?_
    cases u with
    | char ch =>
      refine .get_bind fun w₂ _ s hs => ?_
      refine (keeps_position _ w₂ le_rfl s hs).bind fun w₃ _ i _ => ?_
      have hwrite : D.Keeps w₃ (fun _ _ => True)
          (Run.writeBuffer r ((s.chars r).set i ch)) (Run.writeBuffer r ((s.chars r).set i ch)) :=
        fun _ _ _ hs => .modify (hD.buffers hs)
      exact hwrite.bind fun w₄ _ _ _ => .value hD (hD.plain rfl)
    | _ => exact .fail rfl
  | list r =>
    refine .get_bind fun w₁ hw₁ s hs => ?_
    have hitems := value_item hD (r := r) hs
    refine (keeps_position _ w₁ le_rfl s hs).bind fun w₂ hw₂ i _ => ?_
    have hnew : ∀ u ∈ (s.items r).set i v, D.value w₂ u := fun u hu => by
      rcases List.mem_or_eq_of_mem_set hu with hu | rfl
      · exact hD.value_mono hw₂ (hitems u hu)
      · exact hD.value_mono (hw₁.trans hw₂) hv
    have hwrite : D.Keeps w₂ (fun _ _ => True)
        (Run.writeSequence r ((s.items r).set i v)) (Run.writeSequence r ((s.items r).set i v)) :=
      fun _ hw _ hs => .modify (hD.writeList hs
        (hD.value_mono (hw₁.trans (hw₂.trans hw)) hc) (values_mono hD hw hnew))
    exact hwrite.bind fun w₃ hw₃ _ _ => .value hD (hD.value_mono (hw₁.trans (hw₂.trans hw₃)) hv)
  | array elem r =>
    refine .get_bind fun w₁ hw₁ s hs => ?_
    refine (keeps_position _ w₁ le_rfl s hs).bind fun w₂ hw₂ i _ => ?_
    exact keeps_storeInArray hD (hD.value_mono (hw₁.trans hw₂) hc) i
      (hD.value_mono (hw₁.trans hw₂) hv)
  | map r =>
    have hkey : D.Keeps w (fun _ _ => True) (Run.ofExcept (Indexable.mapKey key))
        (Run.ofExcept (Indexable.mapKey key)) :=
      .ofExcept (fun _ _ _ _ => trivial) fun _ =>
        failure_of_agree (Value.Like.refl_same key).mapKey
    refine hkey.bind fun w₁ hw₁ k _ => .get_bind fun w₂ hw₂ s hs => ?_
    have hv' := hD.value_mono (hw₁.trans hw₂) hv
    have hins := value_insert (value_entries hD (r := r) hs) k hv'
    refine (keeps_writeMap hD r hins w₂ le_rfl s hs).bind fun w₃ hw₃ _ _ => ?_
    exact .value hD (hD.value_mono hw₃ hv')

theorem keeps_slice (c : Indexable) (hc : D.value w c.value) (lo hi : Int) :
    D.Yields w (c.slice lo hi) (c.slice lo hi) := by
  have hbetween {α : Type} (w : W) (items : List α) :
      D.Keeps w (fun _ out => ∀ x ∈ out, x ∈ items) (Run.ofExcept (Indexable.between items lo hi))
        (Run.ofExcept (Indexable.between items lo hi)) := by
    refine .ofExcept (fun _ _ out ho x hx => ?_) fun e he =>
      failure_of_agree (Indexable.agree_between (R := Eq) (List.forall₂_same.mpr fun _ _ => rfl)
        lo hi) he
    unfold Indexable.between at ho
    cases hb : Indexable.bounds lo hi items.length with
    | error e => rw [hb] at ho; cases ho
    | ok b =>
      rw [hb] at ho
      cases ho
      exact List.mem_of_mem_take (List.mem_of_mem_drop hx)
  refine .get_bind fun w₁ hw₁ s hs => ?_
  cases c with
  | text t =>
    exact (hbetween w₁ _ w₁ le_rfl s hs).bind fun _ _ _ _ => .value hD (hD.plain rfl)
  | buffer r =>
    exact (hbetween w₁ _ w₁ le_rfl s hs).bind fun _ _ _ _ => .value hD (hD.plain rfl)
  | list r =>
    refine (hbetween w₁ _ w₁ le_rfl s hs).bind fun w₂ hw₂ out ho => ?_
    exact keeps_newList hD fun u hu => hD.value_mono hw₂ (value_item hD hs u (ho u hu))
  | array elem r =>
    refine (hbetween w₁ _ w₁ le_rfl s hs).bind fun w₂ hw₂ out ho => ?_
    have hout : ∀ u ∈ out, D.value w₂ u := fun u hu =>
      hD.value_mono hw₂ (value_item hD hs u (ho u hu))
    exact (keeps_castAll hD elem hout).bind fun w₃ _ us hus => keeps_newArrayOf hD hus.1 hus.2
  | map r => exact (Keeps.fail rfl) w₁ le_rfl s hs

variable {writes : Bool → Prop} {p : Place}

theorem keeps_memberPlace (kind : MemberKind) (hv : D.value w v) (name : String) :
    D.Keeps w (D.place writes) (Machine.memberPlace kind v name)
      (Machine.memberPlace kind v name) := by
  cases kind with
  | hostField =>
    cases v with
    | host className r => exact .pure fun _ _ => trivial
    | _ => exact .fail rfl
  | mapEntry =>
    cases v with
    | map r => exact .pure fun _ hw => hD.value_mono hw hv
    | _ => exact .fail rfl
  | classMember =>
    cases v with
    | object className r =>
      refine .get_bind fun w₁ hw₁ s hs => ?_
      cases hc : (s.instanceAt r).member? name with
      | none => exact (Keeps.fail rfl) w₁ le_rfl s hs
      | some c => exact .pure hs fun _ => hD.member hs hc
    | _ => exact .fail rfl

theorem keeps_indexable (hv : D.value w v) :
    D.Keeps w (fun w c => D.value w c.value) (Run.ofExcept (Indexable.ofValue v))
      (Run.ofExcept (Indexable.ofValue v)) := by
  refine .ofExcept (fun w' hw c hc => ?_)
    fun _ => failure_of_agree (Indexable.like_ofValue (Value.Like.refl_same v))
  rw [Indexable.value_of_ofValue hc]
  exact hD.value_mono hw hv

theorem keeps_place (hf : ∀ x, D.tree w env x → D.Keeps w (D.result x) (f env x) (g env x))
    (ht : D.tree w env e)
    (hvar : ∀ b r, e = .var b → env.cell? b.depth b.address = some r → writes b.final →
      D.slot w r b.type) :
    D.Keeps w (D.place writes) (Machine.place ⟨host, n, f⟩ env e)
      (Machine.place ⟨host, n, g⟩ env e) := by
  cases e with
  | var b =>
    have hr : D.Keeps w (fun w r => writes b.final → D.slot w r b.type) (Machine.cellOf env b)
        (Machine.cellOf env b) := by
      unfold Machine.cellOf
      cases hc : env.cell? b.depth b.address with
      | none => exact .throwError hD (error_of_failure rfl)
      | some r => exact .pure fun w' hw h => hD.slot_mono hw (hvar b r rfl hc h)
    exact hr.bind fun w' _ r hr => .pure fun w₁ hw₁ h => hD.slot_mono hw₁ (hr h)
  | index base key =>
    refine (hf base (hD.child ht (by simp [Expr.children]))).bind fun w₁ hw₁ v hv => ?_
    have hk := hf key (hD.child ht (by simp [Expr.children]))
    refine (hk.mono hw₁).bind fun w₂ hw₂ k _ => ?_
    have hc := keeps_indexable hD (hD.value_mono hw₂ hv.1)
    exact hc.bind fun w₃ _ c hc => .pure fun w₄ hw₄ => hD.value_mono hw₄ hc
  | member kind object name =>
    refine (hf object (hD.child ht (by simp [Expr.children]))).bind fun w₁ _ v hv => ?_
    exact keeps_memberPlace hD kind hv.1 name
  | staticField className field => exact .pure fun _ _ => trivial
  | _ => exact .fail rfl

end

variable (hf : D.Follows host f g) {writes : Bool → Prop} {p : Place}
include hf

theorem keeps_read (hp : D.place writes w p) :
    D.Yields w (Machine.read ⟨host, n, f⟩ p) (Machine.read ⟨host, n, g⟩ p) := by
  have hD := hf.lawful
  cases p with
  | cell r name t final => exact keeps_readCell hD r
  | element c key =>
    refine .get_bind fun w₁ _ s hs => ?_
    have hv : D.Keeps w₁ D.value (Run.ofExcept (c.get s key)) (Run.ofExcept (c.get s key)) :=
      .ofExcept (fun _ hw _ h => hD.value_mono hw (value_indexed hD hs h)) fun _ =>
        failure_of_agree
          (Indexable.agree_get s.contents_same c.like_same (Value.Like.refl_same key))
    exact hv w₁ le_rfl s hs
  | hostField className object field =>
    exact keeps_dispatchValue hf _ ((hf.honest className).getField w object field)
  | staticField className field =>
    exact keeps_dispatchValue hf _ ((hf.honest className).getStatic w field)

theorem keeps_store (hp : D.place (fun _ => True) w p) (hv : D.value w v) :
    D.Yields w (Machine.store ⟨host, n, f⟩ p v) (Machine.store ⟨host, n, g⟩ p v) := by
  have hD := hf.lawful
  cases p with
  | cell r name t final =>
    refine (Keeps.castNoting hD hv t _).bind fun w₁ hw₁ u hu => ?_
    refine (keeps_writeCell hD (hD.slot_mono hw₁ (hp trivial)) hu.1 hu.2).bind fun w₂ hw₂ _ _ => ?_
    exact .value hD (hD.value_mono hw₂ hu.1)
  | element c key => exact keeps_set hD hp hv
  | hostField className object field =>
    refine (keeps_dispatch hf (fun _ _ _ _ h => h) _
      ((hf.honest className).setField w object field v hv)).bind fun w₁ hw₁ _ _ => ?_
    exact .value hD (hD.value_mono hw₁ hv)
  | staticField className field =>
    refine (keeps_dispatch hf (fun _ _ _ _ h => h) _
      ((hf.honest className).setStatic w field v hv)).bind fun w₁ hw₁ _ _ => ?_
    exact .value hD (hD.value_mono hw₁ hv)

/-- An assignment leaves final slots alone, so that nothing has to be said of them. -/
theorem keeps_write (hp : D.place (fun final => final = false ∨ writes final) w p)
    (hv : D.value w v) :
    D.Yields w (Machine.write ⟨host, n, f⟩ p v) (Machine.write ⟨host, n, g⟩ p v) := by
  cases p with
  | cell r name t final =>
    cases final with
    | true => exact .fail rfl
    | false => exact keeps_store (n := n) hf (p := .cell r name t false) (fun _ => hp (.inl rfl)) hv
  | element c key => exact keeps_store (n := n) hf (p := .element c key) hp hv
  | hostField className object field =>
    exact keeps_store (n := n) hf (p := .hostField className object field) hp hv
  | staticField className field => exact keeps_store (n := n) hf (p := .staticField className field) hp hv

end Discipline

end ExprCore
