import ExprCore.Proofs.Invariants.Discipline

/-!
How an interpreter is built. Its frame of globals is laid after everything that the store holds, and each
slot holds a value of its type: the default one, or an initial value.
-/

namespace ExprCore
set_option autoImplicit false

/-- A frame filled with values of the types of its slots, none of which refers to a list or an array
but those among the initial values. -/
structure Layout.Filled (layout : Layout) (globals : List Global) (values : List Value) : Prop where
  conform : List.Forall₂ (fun (slot : Slot) v => slot.type.Conforms v) layout values
  initial : ∀ v ∈ values, v.isSequence = true → ∃ g ∈ globals, g.value = v

namespace Layout

variable {layout : Layout} {globals : List Global} {values : List Value} {v : Value}

theorem filled_default (layout : Layout) (globals : List Global) :
    layout.Filled globals (layout.map fun slot => slot.type.default) where
  conform := by
    rw [List.forall₂_map_right_iff]
    exact List.forall₂_same.mpr fun slot _ => slot.type.conforms_default
  initial v hv hs := by
    obtain ⟨slot, -, rfl⟩ := List.mem_map.mp hv
    exfalso
    revert hs
    cases slot.type <;> nofun

theorem Filled.set (h : layout.Filled globals values) {i : Nat} {slot : Slot}
    (hi : layout[i]? = some slot) (hv : slot.type.Conforms v)
    (hs : v.isSequence = true → ∃ g ∈ globals, g.value = v) :
    layout.Filled globals (values.set i v) where
  conform := forall₂_set_right h.conform i fun other ho => by
    rw [hi] at ho
    cases ho
    exact hv
  initial u hu hseq := by
    rcases List.mem_or_eq_of_mem_set hu with hu | rfl
    · exact h.initial u hu hseq
    · exact hs hseq

end Layout

namespace Interpreter

variable {globals : List Global} {layout : Layout} {s s₁ : Store}

def Holding (s : Store) (layout : Layout) (globals : List Global) (s₁ : Store) : Prop :=
  ∃ values : List Value, s₁ = { s with cells := s.cells ++ values } ∧ layout.Filled globals values

theorem initializeGlobal_holding {all : List Global} {g : Global} {s₂ : Store} (hg : g ∈ all)
    (hs : Holding s layout all s₁)
    (h : initializeGlobal [⟨layout, s.cells.size⟩] layout g s₁ = .ok () s₂) :
    Holding s layout all s₂ := by
  unfold initializeGlobal at h
  cases hl : layout.lookup? g.slot.name with
  | none =>
    rw [hl] at h
    cases h
    exact hs
  | some found =>
    obtain ⟨address, slot⟩ := found
    rw [hl] at h
    obtain ⟨v, s₃, hv, h⟩ := Run.ok_of_bind h
    have hcast := Run.ok_of_ofExcept hv
    obtain rfl : s₁ = s₃ := by
      rw [hcast] at hv
      cases hv
      rfl
    have hslot := (Layout.lookup?_spec hl).1
    have ha : address < layout.length := (List.getElem?_eq_some_iff.mp hslot).1
    have hcell : Env.cell? [⟨layout, s.cells.size⟩] 0 address = some (s.cells.size + address) :=
      if_pos ha
    rw [hcell] at h
    cases h
    obtain ⟨values, rfl, hfilled⟩ := hs
    refine ⟨values.set address v, ?_, hfilled.set hslot (Ty.conforms_of_castNoting hcast) ?_⟩
    · have hset : (s.cells ++ values).setIfInBounds (s.cells.size + address) v =
          s.cells ++ values.set address v := by
        apply Array.ext'
        simp
      rw [← hset]
    · intro hseq
      refine ⟨g, hg, ?_⟩
      have hcont : v.isContainer = true := by cases v <;> first | rfl | cases hseq
      exact (Ty.eq_of_cast_container (Ty.cast_of_castNoting hcast) hcont).symm

theorem initializeAll_holding {all : List Global} {s₂ : Store} (hg : ∀ g ∈ globals, g ∈ all)
    (hs : Holding s layout all s₁)
    (h : initializeAll [⟨layout, s.cells.size⟩] layout globals s₁ = .ok () s₂) :
    Holding s layout all s₂ := by
  induction globals generalizing s₁ with
  | nil =>
    cases h
    exact hs
  | cons g globals ih =>
    obtain ⟨_, s₃, hg', h⟩ := Run.ok_of_bind h
    refine ih (fun g' hm => hg g' (List.mem_cons_of_mem g hm)) ?_ h
    exact initializeGlobal_holding (hg g List.mem_cons_self) hs hg'

theorem build_holding {options : Options} {i : Interpreter}
    (h : build options globals s = .ok i s₁) :
    i = ⟨options, [⟨globals.map Global.slot, s.cells.size⟩]⟩ ∧
      Holding s (globals.map Global.slot) globals s₁ := by
  obtain ⟨env, s₂, henv, h⟩ := Run.ok_of_bind h
  cases henv
  obtain ⟨_, s₃, hinit, h⟩ := Run.ok_of_bind h
  cases h
  refine ⟨rfl, initializeAll_holding (fun _ hg => hg) ?_ hinit⟩
  exact ⟨_, rfl, Layout.filled_default _ _⟩

end Interpreter

end ExprCore
