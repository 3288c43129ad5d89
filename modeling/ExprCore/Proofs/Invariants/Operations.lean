import ExprCore.Proofs.Arguments
import ExprCore.Proofs.Invariants.Discipline

/-!
What host code does to values, under a discipline. Values that may be held are all that it needs to be
given.
-/

namespace ExprCore
set_option autoImplicit false

theorem mem_of_mapM {t : Ty} {vs us : List Value} (h : vs.mapM t.cast = .ok us) :
    ∀ u ∈ us, ∃ v ∈ vs, t.cast v = .ok u := exists_of_forall₂ (mapM_eq_ok_iff.mp h)

theorem failure_of_agree {α : Type} {R : α → α → Prop} {r : Except EvalError α} {e : EvalError}
    (h : Agree R r r) (he : r = .error e) : e.returned? = none := by
  subst he
  cases h
  assumption

theorem Store.member?_of_push {s s' : Store} {o : Instance} {r : Ref} {name : String} {c : Ref × Ty}
    (hm : (s'.instanceAt r).member? name = some c) (h : s'.objects = s.objects.push o) :
    o.member? name = some c ∨ (s.instanceAt r).member? name = some c := by
  unfold Store.instanceAt at hm ⊢
  rw [h, Array.getElem?_push] at hm
  split at hm
  · exact .inl hm
  · exact .inr hm

namespace Discipline

variable {W : Type} [Preorder W] {D : Discipline W} {w : W} {v : Value} {vs : List Value}

variable (hD : D.Lawful)
include hD

theorem value_of_plain (h : v.isContainer = false) : D.value w v :=
  hD.plain (by cases v <;> first | rfl | cases h)

theorem value_cell {s : Store} (hs : D.good w s) (r : Ref) : D.value w (s.cell r) := by
  unfold Store.cell
  cases hr : s.cells[r]? with
  | none => exact hD.plain rfl
  | some v => exact hD.held hs (.cell (Array.mem_of_getElem? hr))

theorem keeps_readCell (r : Ref) : D.Yields w (Run.readCell r) (Run.readCell r) :=
  fun _ _ _ hs => ⟨rfl, .ok le_rfl hs (value_cell hD hs r)⟩

theorem keeps_writeCell {r : Ref} {t : Ty} (hr : D.slot w r t) (hv : D.value w v)
    (ht : t.Conforms v) :
    D.Keeps w (fun _ _ => True) (Run.writeCell r v) (Run.writeCell r v) :=
  fun _ hw _ hs => .modify
    (hD.writeCell hs (hD.slot_mono hw hr) (hD.value_mono hw hv) ht)

theorem keeps_newList (hv : ∀ v ∈ vs, D.value w v) :
    D.Yields w (Run.newList vs) (Run.newList vs) := by
  intro w₁ hw s hs
  obtain ⟨w₂, hw₂, hs₂, hr⟩ := hD.newList hs (values_mono hD hw hv)
  exact ⟨rfl, .ok hw₂ hs₂ hr⟩

theorem keeps_newArrayOf {elem : Ty} (hv : ∀ v ∈ vs, D.value w v)
    (ht : ∀ v ∈ vs, elem.Conforms v) :
    D.Yields w (Run.newArrayOf elem vs) (Run.newArrayOf elem vs) := by
  intro w₁ hw s hs
  obtain ⟨w₂, hw₂, hs₂, hr⟩ := hD.newArray hs (values_mono hD hw hv) ht
  exact ⟨rfl, .ok hw₂ hs₂ hr⟩

theorem value_entry {s : Store} (hs : D.good w s) {entries : Entries} (hm : entries ∈ s.maps) :
    ∀ e ∈ entries, D.value w e.2 :=
  fun _ he => hD.held hs (.entry hm he)

theorem keeps_newMap {entries : Entries} (he : ∀ e ∈ entries, D.value w e.2) :
    D.Yields w (Run.newMap entries) (Run.newMap entries) := by
  intro w₁ hw s hs
  refine .modifyGet le_rfl (hD.maps hs (Array.forall_mem_push.mpr ⟨?_, ?_⟩)) (hD.plain rfl)
  · exact fun e h => hD.value_mono hw (he e h)
  · exact fun m hm => value_entry hD hs hm

theorem keeps_writeMap (r : Ref) {entries : Entries} (he : ∀ e ∈ entries, D.value w e.2) :
    D.Keeps w (fun _ _ => True) (Run.writeMap r entries) (Run.writeMap r entries) := by
  intro w₁ hw s hs
  refine .modify (hD.maps hs fun m hm => ?_)
  rcases Array.mem_or_eq_of_mem_setIfInBounds hm with hm | rfl
  · exact value_entry hD hs hm
  · exact fun e h => hD.value_mono hw (he e h)

theorem keeps_newRecord (hv : ∀ v ∈ vs, D.value w v) :
    D.Keeps w (fun _ _ => True) (Run.newRecord vs) (Run.newRecord vs) := by
  intro w₁ hw s hs
  refine .modifyGet le_rfl (hD.records hs (Array.forall_mem_push.mpr ⟨?_, ?_⟩)) trivial
  · exact values_mono hD hw hv
  · exact fun m hm v h => hD.held hs (.field hm h)

theorem keeps_writeRecord (r : Ref) (i : Nat) (hv : D.value w v) :
    D.Keeps w (fun _ _ => True) (Run.writeRecord r i v) (Run.writeRecord r i v) := by
  intro w₁ hw s hs
  refine .modify (hD.records hs fun m hm u hu => ?_)
  obtain ⟨j, hj⟩ := Array.mem_iff_getElem?.mp hm
  rw [Array.getElem?_modify] at hj
  split at hj
  · obtain ⟨fields, hf, rfl⟩ := Option.map_eq_some_iff.mp hj
    rcases List.mem_or_eq_of_mem_set hu with hu | rfl
    · exact hD.held hs (.field (Array.mem_of_getElem? hf) hu)
    · exact hD.value_mono hw hv
  · exact hD.held hs (.field (Array.mem_of_getElem? hj) hu)

theorem keeps_recordCall (call : Call) (hv : ∀ v ∈ call.args, D.value w v) :
    D.Keeps w (fun _ _ => True) (Run.recordCall call) (Run.recordCall call) :=
  fun _ hw _ hs => .modify (hD.calls hs (values_mono hD hw hv))

theorem keeps_newFunction (info : FunctionInfo) {f : Callable} (hf : D.callable w f) :
    D.Yields w (Run.newFunction info f) (Run.newFunction info f) :=
  fun _ hw _ hs => .modifyGet le_rfl (hD.newFunction hs (hD.callable_mono hw hf)) (hD.plain rfl)

theorem value_item {s : Store} {r : Ref} (hs : D.good w s) : ∀ u ∈ s.items r, D.value w u :=
  fun _ hu => hD.held hs (s.holds_item hu)

theorem value_entries {s : Store} {r : Ref} (hs : D.good w s) :
    ∀ e ∈ s.entries r, D.value w e.2 :=
  fun _ he => hD.held hs (s.holds_entry he)

theorem value_content {s : Store} {c : Content} (hs : D.good w s) (h : s.content? v = some c) :
    ∀ u ∈ c.values, D.value w u := by
  cases v <;> cases h
  case list | array => exact value_item hD hs
  case buffer => exact List.forall_mem_nil _
  case map => exact List.forall_mem_map.mpr (value_entries hD hs)

omit hD in
theorem value_insert {entries : Entries} (he : ∀ e ∈ entries, D.value w e.2) (k : String)
    (hv : D.value w v) : ∀ e ∈ entries.insert k v, D.value w e.2 := by
  induction entries with
  | nil =>
    intro e hm
    obtain rfl := List.mem_singleton.mp hm
    exact hv
  | cons entry entries ih =>
    have hrest := ih fun e hm => he e (List.mem_cons_of_mem _ hm)
    intro e hm
    rw [Entries.insert] at hm
    split at hm
    · rcases List.mem_cons.mp hm with rfl | hm
      · exact hv
      · exact he e (List.mem_cons_of_mem _ hm)
    · split at hm
      · rcases List.mem_cons.mp hm with rfl | hm
        · exact hv
        · exact he e hm
      · rcases List.mem_cons.mp hm with rfl | hm
        · exact he _ List.mem_cons_self
        · exact hrest e hm

omit hD in
theorem value_insertAll {entries : Entries} (he : ∀ e ∈ entries, D.value w e.2)
    {more : List (String × Value)} (hm : ∀ e ∈ more, D.value w e.2) :
    ∀ e ∈ entries.insertAll more, D.value w e.2 := by
  unfold Entries.insertAll
  induction more generalizing entries with
  | nil => exact he
  | cons e more ih =>
    have hins : ∀ x ∈ entries.insert e.1 e.2, D.value w x.2 :=
      value_insert he e.1 (hm e List.mem_cons_self)
    exact ih hins fun x hx => hm x (List.mem_cons_of_mem _ hx)

theorem keeps_castAll (t : Ty) (hv : ∀ v ∈ vs, D.value w v) :
    D.Keeps w (fun w us => (∀ u ∈ us, D.value w u) ∧ ∀ u ∈ us, t.Conforms u)
      (Run.ofExcept (vs.mapM t.cast)) (Run.ofExcept (vs.mapM t.cast)) := by
  refine .ofExcept (fun w' hw us hus => ⟨fun u hu => ?_, ?_⟩) fun e he => ?_
  · obtain ⟨v, hm, hc⟩ := mem_of_mapM hus u hu
    exact hD.value_mono hw (value_cast hD (hv v hm) hc)
  · exact (Ty.conforms_of_mapM (f := fun v => v) hus).2
  · exact failure_of_agree ((Value.Likes.refl_same vs).mapM_cast t) he

theorem keeps_storeInArray {elem : Ty} {r : Ref} (hr : D.value w (.array elem r)) (i : Nat)
    (hv : D.value w v) : D.Yields w (Indexable.storeInArray elem r i v)
      (Indexable.storeInArray elem r i v) := by
  refine (Keeps.cast hD hv elem).bind fun w₁ hw₁ u hu => ?_
  refine .get_bind fun w₂ hw₂ s hs => ?_
  have hu' := hD.value_mono hw₂ hu.1
  dsimp only
  split
  · have hset := hD.writeArray (i := i) hs (hD.value_mono (hw₁.trans hw₂) hr) hu' hu.2
    have hwrite : D.KeepsAt w₂ (fun _ _ => True) s
        (Run.writeSequence r ((s.items r).set i u)) (Run.writeSequence r ((s.items r).set i u)) :=
      .modify hset
    exact hwrite.bind fun w₃ hw₃ _ _ => .value hD (hD.value_mono hw₃ hu')
  · exact (Keeps.fail rfl) w₂ le_rfl s hs

theorem keeps_writeSequence {r : Ref} (hr : D.value w (.list r)) (hv : ∀ v ∈ vs, D.value w v) :
    D.Keeps w (fun _ _ => True) (Run.writeSequence r vs) (Run.writeSequence r vs) :=
  fun _ hw _ hs => .modify (hD.writeList hs (hD.value_mono hw hr) (values_mono hD hw hv))

theorem keeps_writeBuffer (r : Ref) (chars : List Char) :
    D.Keeps w (fun _ _ => True) (Run.writeBuffer r chars) (Run.writeBuffer r chars) :=
  fun _ _ _ hs => .modify (hD.buffers hs)

theorem keeps_newBuffer (chars : List Char) :
    D.Yields w (Run.newBuffer chars) (Run.newBuffer chars) :=
  fun _ _ _ hs => .modifyGet le_rfl (hD.buffers hs) (hD.plain rfl)

theorem keeps_newInstance (className : String) (members : List (String × Ty)) :
    D.Yields w (Run.newInstance className members) (Run.newInstance className members) := by
  intro w₁ hw s hs
  obtain ⟨w₂, hw₂, hs₂⟩ := @Lawful.newObject _ _ D hD w₁ s className members hs
  exact ⟨rfl, .ok hw₂ hs₂ (hD.plain rfl)⟩

theorem keeps_memberCell (object : Ref) (name : String) :
    D.Keeps w (fun w c => D.slot w c.1 c.2) (Run.memberCell object name)
      (Run.memberCell object name) := by
  refine .get_bind fun w₁ _ s hs => ?_
  dsimp only
  cases hm : (s.instanceAt object).member? name with
  | none => exact (Keeps.fail rfl) w₁ le_rfl s hs
  | some c => exact .pure hs (hD.member hs hm)

theorem keeps_hostOp (fuel : Nat) {op : HostOp} (hv : ∀ v ∈ op.values, D.value w v) :
    D.Yields w (op.run fuel) (op.run fuel) := by
  cases op with
  | newList items => exact keeps_newList hD hv
  | newArray elem items =>
    exact (keeps_castAll hD elem hv).bind fun w₁ _ us hus => keeps_newArrayOf hD hus.1 hus.2
  | newBuffer chars => exact keeps_newBuffer hD chars
  | newMap entries =>
    exact keeps_newMap hD (value_insertAll (List.forall_mem_nil _) (List.forall_mem_map.mp hv))
  | newObject className members => exact keeps_newInstance hD className members
  | newOperator op => exact keeps_newFunction hD _ (hD.builtIn op)
  | writeList r items =>
    obtain ⟨hr, hi⟩ := List.forall_mem_cons.mp hv
    exact (keeps_writeSequence hD hr hi).bind fun w₁ hw₁ _ _ => .value hD (hD.value_mono hw₁ hr)
  | writeElement elem r i v =>
    obtain ⟨hr, hi⟩ := List.forall_mem_cons.mp hv
    exact keeps_storeInArray hD hr i (hi v List.mem_cons_self)
  | writeBuffer r chars =>
    exact (keeps_writeBuffer hD r chars).bind fun _ _ _ _ => .value hD (hD.plain rfl)
  | writeMap r entries =>
    obtain ⟨hr, he⟩ := List.forall_mem_cons.mp hv
    have hall := value_insertAll (List.forall_mem_nil _) (List.forall_mem_map.mp he)
    exact (keeps_writeMap hD r hall).bind fun w₁ hw₁ _ _ => .value hD (hD.value_mono hw₁ hr)
  | readMember object name =>
    exact (keeps_memberCell hD object name).bind fun w₁ _ c _ => keeps_readCell hD c.1
  | writeMember object name v =>
    refine (keeps_memberCell hD object name).bind fun w₁ hw₁ c hc => ?_
    have hv := hD.value_mono hw₁ (hv v List.mem_cons_self)
    refine (Keeps.cast hD hv c.2).bind fun w₂ hw₂ u hu => ?_
    refine (keeps_writeCell hD (hD.slot_mono hw₂ hc) hu.1 hu.2).bind fun w₃ hw₃ _ _ => ?_
    exact .value hD (hD.value_mono hw₃ hu.1)
  | display v =>
    refine .get_bind fun w₁ _ s hs => ?_
    exact (Keeps.ofOption w₁ le_rfl s hs).bind fun w₂ _ t _ => .value hD (hD.plain rfl)
  | equal v u =>
    refine .get_bind fun w₁ _ s hs => ?_
    exact (Keeps.ofOption w₁ le_rfl s hs).bind fun w₂ _ same _ => .value hD (hD.plain rfl)

end Discipline

end ExprCore
