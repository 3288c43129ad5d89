import ExprCore.Interpreter
import ExprCore.Proofs.Conversion
import ExprCore.Proofs.Likeness.Constants
import ExprCore.Proofs.Lookup

/-!
Globals of one name. A name stands for the last of its declarations, with its type and the value that is
cast to it. Building fails if the value of an earlier one does not cast to that type.
-/

namespace ExprCore
set_option autoImplicit false

/-- A declaration at a position after which its name is not declared again. -/
def Global.IsLast (globals : List Global) (position : Nat) (d : Global) : Prop :=
  globals[position]? = some d ∧
    ∀ i later, position < i → globals[i]? = some later → later.slot.name ≠ d.slot.name

namespace Layout

theorem lookup?_of_last {layout : Layout} {address : Nat} {slot : Slot} (hs : layout[address]? = some slot)
    (hl : ∀ i later, address < i → layout[i]? = some later → later.name ≠ slot.name) :
    layout.lookup? slot.name = some (address, slot) := by
  cases h : layout.lookup? slot.name with
  | none => exact absurd rfl (ne_of_lookup?_none h slot (List.mem_of_getElem? hs))
  | some found =>
    obtain ⟨i, other⟩ := found
    obtain ⟨ho, hn⟩ := lookup?_spec h
    rcases Nat.lt_trichotomy i address with hi | rfl | hi
    · exact absurd rfl (lookup?_last h address slot hi hs)
    · rw [hs] at ho
      cases ho
      rfl
    · exact absurd hn (hl i other hi ho)

end Layout

namespace Interpreter

variable {options : Options} {globals : List Global} {layout : Layout} {base : Ref} {g d : Global}
  {position address : Nat} {slot : Slot} {s s' : Store}

/-- What a declaration stores: its value, cast to the type of the slot that its name stands for. -/
theorem initializeGlobal_ok_iff (hl : layout.lookup? g.slot.name = some (address, slot)) :
    initializeGlobal [⟨layout, base⟩] layout g s = .ok () s' ↔
      ∃ v, slot.type.cast g.value = .ok v ∧
        s' = { s with cells := s.cells.setIfInBounds (base + address) v } := by
  have ha : address < layout.length := (List.getElem?_eq_some_iff.mp (Layout.lookup?_spec hl).1).1
  have hcell : Env.cell? [⟨layout, base⟩] 0 address = some (base + address) := if_pos ha
  unfold initializeGlobal
  simp only [hl, hcell]
  cases hc : slot.type.cast g.value with
  | ok v =>
    simp only [Ty.castNoting, hc]
    constructor
    · intro h
      cases h
      exact ⟨v, rfl, rfl⟩
    · rintro ⟨_, ⟨⟩, rfl⟩
      rfl
  | error e =>
    simp only [Ty.castNoting, hc]
    constructor
    · intro h
      cases h
    · rintro ⟨_, ⟨⟩, -⟩

theorem initializeAll_cons_ok_iff :
    initializeAll [⟨layout, base⟩] layout (g :: globals) s = .ok () s' ↔
      ∃ s₁, initializeGlobal [⟨layout, base⟩] layout g s = .ok () s₁ ∧
        initializeAll [⟨layout, base⟩] layout globals s₁ = .ok () s' := by
  constructor
  · intro h
    obtain ⟨⟨⟩, s₁, hg, hall⟩ := Run.ok_of_bind h
    exact ⟨s₁, hg, hall⟩
  · rintro ⟨s₁, hg, hall⟩
    exact (Run.bind_ok _ hg).trans hall

theorem initializeAll_ok
    (h : ∀ g ∈ globals, ∃ address slot v, layout.lookup? g.slot.name = some (address, slot) ∧
      slot.type.cast g.value = .ok v) (s : Store) :
    ∃ s', initializeAll [⟨layout, base⟩] layout globals s = .ok () s' := by
  induction globals generalizing s with
  | nil => exact ⟨s, rfl⟩
  | cons g globals ih =>
    obtain ⟨address, slot, v, hl, hv⟩ := h g List.mem_cons_self
    obtain ⟨s', hs'⟩ := ih (fun g' hg' => h g' (List.mem_cons_of_mem g hg')) _
    exact ⟨s', initializeAll_cons_ok_iff.mpr ⟨_, (initializeGlobal_ok_iff hl).mpr ⟨v, hv, rfl⟩, hs'⟩⟩

theorem cast_of_initializeAll (h : initializeAll [⟨layout, base⟩] layout globals s = .ok () s')
    (hg : g ∈ globals) (hl : layout.lookup? g.slot.name = some (address, slot)) :
    ∃ v, slot.type.cast g.value = .ok v := by
  induction globals generalizing s with
  | nil => cases hg
  | cons first globals ih =>
    obtain ⟨s₁, hfirst, hall⟩ := initializeAll_cons_ok_iff.mp h
    rcases List.mem_cons.mp hg with rfl | hg
    · obtain ⟨v, hv, -⟩ := (initializeGlobal_ok_iff hl).mp hfirst
      exact ⟨v, hv⟩
    · exact ih hall hg

theorem cell_initializeAll_of_ne (hslot : layout[address]? = some slot)
    (hdeclared : ∀ g ∈ globals, ∃ a other, layout.lookup? g.slot.name = some (a, other))
    (hne : ∀ g ∈ globals, g.slot.name ≠ slot.name)
    (h : initializeAll [⟨layout, base⟩] layout globals s = .ok () s') :
    s'.cell (base + address) = s.cell (base + address) := by
  induction globals generalizing s with
  | nil =>
    cases h
    rfl
  | cons g globals ih =>
    obtain ⟨s₁, hg, hall⟩ := initializeAll_cons_ok_iff.mp h
    obtain ⟨a, other, hl⟩ := hdeclared g List.mem_cons_self
    obtain ⟨v, -, rfl⟩ := (initializeGlobal_ok_iff hl).mp hg
    have ha : base + a ≠ base + address := by
      intro heq
      obtain rfl := Nat.add_left_cancel heq
      obtain ⟨ho, hn⟩ := Layout.lookup?_spec hl
      rw [hslot] at ho
      cases ho
      exact hne g List.mem_cons_self hn.symm
    rw [ih (fun g' hg' => hdeclared g' (List.mem_cons_of_mem g hg'))
      (fun g' hg' => hne g' (List.mem_cons_of_mem g hg')) hall]
    simp only [Store.cell, Array.getElem?_setIfInBounds_ne ha]

/-- The slot of a name ends up with the value of the last declaration. -/
theorem cell_initializeAll_of_isLast (hd : Global.IsLast globals position d)
    (hl : layout.lookup? d.slot.name = some (address, slot)) (hslot : slot.name = d.slot.name)
    (hdeclared : ∀ g ∈ globals, ∃ a other, layout.lookup? g.slot.name = some (a, other))
    (hsize : base + address < s.cells.size)
    (h : initializeAll [⟨layout, base⟩] layout globals s = .ok () s') :
    slot.type.cast d.value = .ok (s'.cell (base + address)) := by
  induction globals generalizing s position with
  | nil => cases hd.1
  | cons g globals ih =>
    have hrest : ∀ g' ∈ globals, ∃ a other, layout.lookup? g'.slot.name = some (a, other) :=
      fun g' hg' => hdeclared g' (List.mem_cons_of_mem g hg')
    obtain ⟨s₁, hg, hall⟩ := initializeAll_cons_ok_iff.mp h
    cases position with
    | zero =>
      obtain rfl : g = d := Option.some.inj hd.1
      obtain ⟨v, hv, rfl⟩ := (initializeGlobal_ok_iff hl).mp hg
      have hother : ∀ later ∈ globals, later.slot.name ≠ slot.name := by
        intro later hm
        obtain ⟨i, hi⟩ := List.mem_iff_getElem?.mp hm
        rw [hslot]
        exact hd.2 (i + 1) later (Nat.succ_pos i) hi
      rw [cell_initializeAll_of_ne (Layout.lookup?_spec hl).1 hrest hother hall, hv]
      simp [Store.cell, hsize]
    | succ position =>
      have hlast : Global.IsLast globals position d :=
        ⟨hd.1, fun i later hi hm => hd.2 (i + 1) later (Nat.succ_lt_succ hi) hm⟩
      obtain ⟨a, other, hother⟩ := hdeclared g List.mem_cons_self
      obtain ⟨v, -, rfl⟩ := (initializeGlobal_ok_iff hother).mp hg
      exact ih hlast hrest (by simpa using hsize) hall

theorem lookup?_of_isLast (hd : Global.IsLast globals position d) :
    Layout.lookup? d.slot.name (globals.map Global.slot) = some (position, d.slot) := by
  apply Layout.lookup?_of_last
  · rw [List.getElem?_map, hd.1]
    rfl
  · intro i later hi hs
    rw [List.getElem?_map] at hs
    obtain ⟨g, hg, rfl⟩ := Option.map_eq_some_iff.mp hs
    exact hd.2 i g hi hg

theorem exists_isLast (hg : g ∈ globals) :
    ∃ position d, Global.IsLast globals position d ∧ d.slot.name = g.slot.name := by
  cases hl : Layout.lookup? g.slot.name (globals.map Global.slot) with
  | none => exact absurd rfl (Layout.ne_of_lookup?_none hl g.slot (List.mem_map_of_mem hg))
  | some found =>
    obtain ⟨position, slot⟩ := found
    obtain ⟨hslot, hname⟩ := Layout.lookup?_spec hl
    rw [List.getElem?_map] at hslot
    obtain ⟨d, hd, rfl⟩ := Option.map_eq_some_iff.mp hslot
    refine ⟨position, d, ⟨hd, fun i later hi hm hn => ?_⟩, hname⟩
    have hlater : (globals.map Global.slot)[i]? = some later.slot := by
      rw [List.getElem?_map, hm]
      rfl
    exact Layout.lookup?_last hl i later.slot hi hlater (hn.trans hname)

theorem declared_lookup? (globals : List Global) :
    ∀ g ∈ globals, ∃ a slot, Layout.lookup? g.slot.name (globals.map Global.slot) = some (a, slot) := by
  intro g hg
  obtain ⟨position, d, hd, hname⟩ := exists_isLast hg
  exact ⟨position, d.slot, hname ▸ lookup?_of_isLast hd⟩

/-- Building lays a frame of default values and stores every declaration. -/
theorem build_ok_iff {i : Interpreter} :
    build options globals s = .ok i s' ↔
      i = ⟨options, [⟨globals.map Global.slot, s.cells.size⟩]⟩ ∧
        initializeAll [⟨globals.map Global.slot, s.cells.size⟩] (globals.map Global.slot) globals
          { s with cells := s.cells ++ globals.map fun g => g.slot.type.default } = .ok () s' := by
  have henter : Run.enter [] (globals.map Global.slot) s =
      .ok [⟨globals.map Global.slot, s.cells.size⟩]
        { s with cells := s.cells ++ globals.map fun g => g.slot.type.default } := by
    show EStateM.Result.ok _ { s with cells := s.cells ++ (globals.map Global.slot).map _ } = _
    rw [List.map_map]
    rfl
  constructor
  · intro h
    rw [build, Run.bind_ok _ henter] at h
    obtain ⟨⟨⟩, s₁, hall, h⟩ := Run.ok_of_bind h
    cases h
    exact ⟨rfl, hall⟩
  · rintro ⟨rfl, hall⟩
    rw [build, Run.bind_ok _ henter]
    exact Run.bind_ok _ hall

end Interpreter

/-- Of several declarations of one name the last counts. Building succeeds if and only if every value, those
of earlier declarations too, casts to the type of the last declaration of its name. Then the global holds the
value of that declaration, cast to its type, and its name resolves to its slot, type and modifier. -/
theorem last_declaration_counts (options : Options) (globals : List Global) (s : Store) :
    ((∃ i s', Interpreter.build options globals s = .ok i s') ↔
      ∀ g ∈ globals, ∀ position d, Global.IsLast globals position d → d.slot.name = g.slot.name →
        ∃ v, d.slot.type.cast g.value = .ok v) ∧
    ∀ i s', Interpreter.build options globals s = .ok i s' →
      ∀ position d, Global.IsLast globals position d →
        (∃ r, i.global? d.slot.name = some r ∧ d.slot.type.cast d.value = .ok (s'.cell r)) ∧
        ∀ maxLevel, ((Expr.name d.slot.name).resolve maxLevel i.scope).value =
          .var ⟨d.slot.name, position, 0, 0, d.slot.final, d.slot.type⟩ := by
  refine ⟨⟨?_, fun h => ?_⟩, ?_⟩
  · rintro ⟨i, s', hbuild⟩ g hg position d hd hname
    have hl := Interpreter.lookup?_of_isLast hd
    rw [hname] at hl
    exact Interpreter.cast_of_initializeAll (Interpreter.build_ok_iff.mp hbuild).2 hg hl
  · have hcasts : ∀ g ∈ globals, ∃ address slot v,
        Layout.lookup? g.slot.name (globals.map Global.slot) = some (address, slot) ∧
          slot.type.cast g.value = .ok v := by
      intro g hg
      obtain ⟨position, d, hd, hname⟩ := Interpreter.exists_isLast hg
      obtain ⟨v, hv⟩ := h g hg position d hd hname
      exact ⟨position, d.slot, v, hname ▸ Interpreter.lookup?_of_isLast hd, hv⟩
    obtain ⟨s', hall⟩ := Interpreter.initializeAll_ok hcasts _
    exact ⟨_, s', Interpreter.build_ok_iff.mpr ⟨rfl, hall⟩⟩
  · rintro i s' hbuild position d hd
    obtain ⟨rfl, hall⟩ := Interpreter.build_ok_iff.mp hbuild
    have hl := Interpreter.lookup?_of_isLast hd
    have hlt : position < (globals.map Global.slot).length :=
      (List.getElem?_eq_some_iff.mp (Layout.lookup?_spec hl).1).1
    refine ⟨⟨s.cells.size + position, ?_, ?_⟩, fun maxLevel => ?_⟩
    · simp only [Interpreter.global?, List.head?_cons, hl, Option.bind_eq_bind, Option.bind_some]
      exact if_pos hlt
    · refine Interpreter.cell_initializeAll_of_isLast hd hl rfl (Interpreter.declared_lookup? globals) ?_ hall
      simpa [← Array.length_toList] using hlt
    · have hbinding : Scope.lookup? (Scope.ofEnv [⟨globals.map Global.slot, s.cells.size⟩]) d.slot.name =
          some ⟨d.slot.name, position, 0, 0, d.slot.final, d.slot.type⟩ := by
        simp [Scope.ofEnv, Scope.lookup?, Scope.lookupFrom?, Scope.bind?, hl]
      rw [Expr.value_resolve]
      simp only [Expr.mapChildren, Expr.resolveNode?, Interpreter.scope, hbinding, Scope.level_ofEnv,
        Nat.sub_self, Nat.zero_le, if_true]
      rfl

namespace Sample

/-- A variable that is declared again as a constant of another type. -/
def redeclared (first : Value) : List Global :=
  [⟨⟨"x", first.ty, false⟩, first⟩, ⟨⟨"y", .bool, false⟩, .bool true⟩, ⟨⟨"x", .int, true⟩, .long 7⟩]

theorem isLast_redeclared (first : Value) :
    Global.IsLast (redeclared first) 2 ⟨⟨"x", .int, true⟩, .long 7⟩ := by
  refine ⟨rfl, fun i later hi hm => ?_⟩
  have hlt := (List.getElem?_eq_some_iff.mp hm).1
  exact absurd hlt (by simp only [redeclared, List.length_cons, List.length_nil]; omega)

end Sample

open Sample

/-- The first value of the name is a character, which casts to an integer. -/
theorem last_declaration_counts_twice :
    ∃ i s', Interpreter.build .default (redeclared (.char 'a')) {} = .ok i s' ∧
      Global.IsLast (redeclared (.char 'a')) 2 ⟨⟨"x", .int, true⟩, .long 7⟩ ∧
      (∃ r, i.global? "x" = some r ∧ Ty.int.cast (.long 7) = .ok (s'.cell r)) ∧
      ((Expr.name "x").resolve 0 i.scope).value = .var ⟨"x", 2, 0, 0, true, .int⟩ := by
  obtain ⟨i, s', hbuild⟩ : ∃ i s', Interpreter.build .default (redeclared (.char 'a')) {} = .ok i s' :=
    ⟨_, _, rfl⟩
  have hlast := isLast_redeclared (.char 'a')
  obtain ⟨hvalue, hresolve⟩ := (last_declaration_counts .default _ {}).2 i s' hbuild 2 _ hlast
  exact ⟨i, s', hbuild, hlast, hvalue, hresolve 0⟩

/-- Each value is of its own declared type, but the first one is no integer. -/
theorem last_declaration_rejects :
    (∀ g ∈ redeclared (.str "a"), ∃ v, g.slot.type.cast g.value = .ok v) ∧
      ∃ s', Interpreter.build .default (redeclared (.str "a")) {} =
        .error (.error ⟨.typeMismatch "int" "String", ["initial value of global `x`"]⟩) s' := by
  refine ⟨?_, _, rfl⟩
  intro g hg
  simp only [redeclared, List.mem_cons, List.not_mem_nil, or_false] at hg
  rcases hg with rfl | rfl | rfl <;> exact ⟨_, rfl⟩

end ExprCore
