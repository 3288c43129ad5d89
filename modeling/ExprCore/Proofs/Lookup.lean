import ExprCore.Proofs.Likeness.Stores
import ExprCore.Proofs.Resolution

/-!
Names and live frames. A name stands for a slot of the innermost frame that declares it, and resolution
finds that slot.
-/

namespace ExprCore
set_option autoImplicit false

/-- The cell and the declaration that a name stands for: in the innermost frame that declares it, the
last slot of that name. -/
inductive Env.Finds (name : String) : Env → Ref → Slot → Prop where
  | here {frame : Frame} {env : Env} {address : Nat} {slot : Slot}
    (hs : frame.layout[address]? = some slot) (hn : slot.name = name)
    (hl : ∀ i later, address < i → frame.layout[i]? = some later → later.name ≠ name) :
    Finds name (frame :: env) (frame.base + address) slot
  | outer {frame : Frame} {env : Env} {r : Ref} {slot : Slot}
    (hf : ∀ slot ∈ frame.layout, slot.name ≠ name) (h : Finds name env r slot) :
    Finds name (frame :: env) r slot

def Env.Lacks (env : Env) (name : String) : Prop :=
  ∀ frame ∈ env, ∀ slot ∈ frame.layout, slot.name ≠ name

namespace Layout

theorem ne_of_lookup?_none {layout : Layout} {name : String} (h : layout.lookup? name = none) :
    ∀ slot ∈ layout, slot.name ≠ name := by
  induction layout with
  | nil => exact nofun
  | cons first layout ih =>
    rw [lookup?] at h
    cases hl : Layout.lookup? name layout with
    | some found => rw [hl] at h; cases h
    | none =>
      rw [hl] at h
      intro slot hs
      rcases List.mem_cons.mp hs with rfl | hs
      · intro hn
        simp [hn] at h
      · exact ih hl slot hs

theorem lookup?_last {layout : Layout} {name : String} {address : Nat} {slot : Slot}
    (h : layout.lookup? name = some (address, slot)) :
    ∀ i later, address < i → layout[i]? = some later → later.name ≠ name := by
  induction layout generalizing address slot with
  | nil => cases h
  | cons first layout ih =>
    rw [lookup?] at h
    intro i later hi hs
    obtain ⟨i, rfl⟩ : ∃ j, i = j + 1 := ⟨i - 1, by omega⟩
    rw [List.getElem?_cons_succ] at hs
    cases hl : Layout.lookup? name layout with
    | some found =>
      rw [hl] at h
      cases h
      exact ih hl i later (by omega) hs
    | none => exact ne_of_lookup?_none hl later (List.mem_of_getElem? hs)

end Layout

namespace Scope

def flat (layouts : List Layout) : Scope := layouts.map fun layout => ⟨layout, 0⟩

theorem ofEnv_eq (env : Env) : ofEnv env = flat env.layouts := by
  rw [ofEnv, flat, Env.layouts, List.map_map]
  rfl

theorem layouts_flat (layouts : List Layout) : (flat layouts).layouts = layouts := by
  rw [flat, Scope.layouts, List.map_map]
  exact List.map_id _

theorem level_flat (layouts : List Layout) : (flat layouts).level = 0 := by
  cases layouts <;> rfl

theorem level_ofEnv (env : Env) : (ofEnv env).level = 0 := by
  rw [ofEnv_eq, level_flat]

theorem layouts_ofEnv (env : Env) : (ofEnv env).layouts = env.layouts := by
  simp [ofEnv, layouts, Env.layouts]

theorem lookupFrom?_name {name : String} {depth : Nat} {s : Scope} {b : Binding}
    (h : lookupFrom? name depth s = some b) : b.name = name := by
  induction s generalizing depth with
  | nil => cases h
  | cons frame s ih =>
    rw [lookupFrom?, Option.or_eq_some_iff] at h
    rcases h with h | ⟨-, h⟩
    · obtain ⟨found, -, rfl⟩ := Option.map_eq_some_iff.mp h
      rfl
    · exact ih h

/-- Resolution finds what a look at live frames with the layouts of the scope finds. -/
theorem finds_of_lookupFrom? {env : Env} {s : Scope} {name : String} {depth : Nat} {b : Binding}
    (hl : s.layouts = env.layouts) (h : lookupFrom? name depth s = some b) :
    depth ≤ b.depth ∧ ∃ r slot, env.Finds name r slot ∧
      env.cell? (b.depth - depth) b.address = some r ∧ b.type = slot.type ∧
      b.final = slot.final := by
  induction env generalizing s depth with
  | nil =>
    obtain rfl := List.map_eq_nil_iff.mp hl
    cases h
  | cons frame env ih =>
    obtain ⟨first, s, rfl, hfirst, hl⟩ := List.map_eq_cons_iff.mp hl
    rw [lookupFrom?, Option.or_eq_some_iff] at h
    rcases h with h | ⟨hn, h⟩
    · obtain ⟨⟨address, slot⟩, hs, rfl⟩ := Option.map_eq_some_iff.mp h
      rw [hfirst] at hs
      obtain ⟨hslot, hname⟩ := Layout.lookup?_spec hs
      refine ⟨Nat.le_refl _, _, slot, .here hslot hname (Layout.lookup?_last hs), ?_, rfl, rfl⟩
      have ha : address < frame.layout.length := (List.getElem?_eq_some_iff.mp hslot).1
      simp only [Nat.sub_self, Env.cell?, List.getElem?_cons_zero, if_pos ha]
    · obtain ⟨hd, r, slot, hf, hc, ht⟩ := ih hl h
      have hnone : frame.layout.lookup? name = none := hfirst ▸ Option.map_eq_none_iff.mp hn
      refine ⟨by omega, r, slot, .outer (Layout.ne_of_lookup?_none hnone) hf, ?_, ht⟩
      obtain ⟨k, hk⟩ : ∃ k, b.depth - depth = k + 1 := ⟨b.depth - depth - 1, by omega⟩
      rw [show b.depth - (depth + 1) = k by omega] at hc
      rw [hk]
      exact hc

theorem finds_of_lookup? {env : Env} {s : Scope} {name : String} {b : Binding}
    (hl : s.layouts = env.layouts) (h : s.lookup? name = some b) :
    ∃ r slot, env.Finds name r slot ∧ env.cell? b.depth b.address = some r ∧ b.type = slot.type ∧
      b.final = slot.final :=
  (finds_of_lookupFrom? hl h).2

theorem lacks_of_lookupFrom? {env : Env} {s : Scope} {name : String} {depth : Nat}
    (hl : s.layouts = env.layouts) (h : lookupFrom? name depth s = none) : env.Lacks name := by
  induction env generalizing s depth with
  | nil => exact nofun
  | cons frame env ih =>
    obtain ⟨first, s, rfl, hfirst, hl⟩ := List.map_eq_cons_iff.mp hl
    rw [lookupFrom?, Option.or_eq_none_iff] at h
    intro f hf
    rcases List.mem_cons.mp hf with rfl | hf
    · exact Layout.ne_of_lookup?_none (hfirst ▸ Option.map_eq_none_iff.mp h.1)
    · exact ih hl h.2 f hf

/-- The scope with every frame at another level. -/
def relevel (f : Nat → Nat) (s : Scope) : Scope :=
  s.map fun frame => ⟨frame.layout, f frame.level⟩

variable (f : Nat → Nat)

theorem bind?_relevel (name : String) (frame : ScopeFrame) (depth : Nat) :
    bind? name ⟨frame.layout, f frame.level⟩ depth =
      (bind? name frame depth).map fun b => { b with level := f b.level } := by
  simp [bind?, Option.map_map, Function.comp_def]

theorem lookupFrom?_relevel (name : String) (depth : Nat) (s : Scope) :
    lookupFrom? name depth (s.relevel f) =
      (lookupFrom? name depth s).map fun b => { b with level := f b.level } := by
  induction s generalizing depth with
  | nil => rfl
  | cons frame s ih =>
    show (bind? name ⟨frame.layout, f frame.level⟩ depth).or
      (lookupFrom? name (depth + 1) (relevel f s)) = _
    rw [bind?_relevel, ih, lookupFrom?]
    cases bind? name frame depth <;> rfl

theorem lookup?_relevel (name : String) (s : Scope) :
    (s.relevel f).lookup? name =
      (s.lookup? name).map fun b => { b with level := f b.level } :=
  lookupFrom?_relevel f name 0 s

theorem lookupAt?_relevel (hops : Nat) (name : String) (s : Scope) :
    (s.relevel f).lookupAt? hops name =
      (s.lookupAt? hops name).map fun b => { b with level := f b.level } := by
  unfold lookupAt? relevel
  rw [List.getElem?_map]
  cases s[hops]? with
  | none => rfl
  | some frame => exact bind?_relevel f name frame hops

theorem level_relevel {s : Scope} (hf : f 0 = 0) : (s.relevel f).level = f s.level := by
  cases s with
  | nil => exact hf.symm
  | cons => rfl

theorem level_of_lookupFrom? {name : String} {depth : Nat} {s : Scope} {b : Binding}
    (h : lookupFrom? name depth s = some b) : ∃ frame ∈ s, frame.level = b.level := by
  induction s generalizing depth with
  | nil => cases h
  | cons frame s ih =>
    rw [lookupFrom?, Option.or_eq_some_iff] at h
    rcases h with h | ⟨-, h⟩
    · obtain ⟨found, -, rfl⟩ := Option.map_eq_some_iff.mp h
      exact ⟨frame, List.mem_cons_self, rfl⟩
    · obtain ⟨other, hm, hl⟩ := ih h
      exact ⟨other, List.mem_cons_of_mem _ hm, hl⟩

end Scope

end ExprCore
