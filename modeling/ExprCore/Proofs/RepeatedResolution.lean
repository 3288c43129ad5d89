import ExprCore.Proofs.DeferredResolution
import ExprCore.Proofs.Revision

/-!
Resolution in several passes. In one scope, two passes do what the one that reaches further does alone,
and a pass hands back the very tree that it was given if nothing in it can be linked.
-/

namespace ExprCore
set_option autoImplicit false

def ScopeFrame.Declares (frame : ScopeFrame) (name : String) : Prop :=
  ∃ slot ∈ frame.layout, slot.name = name

namespace Scope

variable {name : String} {frame : ScopeFrame} {depth : Nat} {s : Scope} {b : Binding}

theorem bind?_none (h : bind? name frame depth = none) : ¬frame.Declares name := by
  rintro ⟨slot, hm, hn⟩
  have hl := Option.map_eq_none_iff.mp h
  exact Layout.ne_of_lookup?_none hl slot hm hn

theorem bind?_some (h : bind? name frame depth = some b) :
    frame.Declares name ∧ b.level = frame.level := by
  obtain ⟨⟨address, slot⟩, hl, rfl⟩ := Option.map_eq_some_iff.mp h
  obtain ⟨hs, hn⟩ := Layout.lookup?_spec hl
  exact ⟨⟨slot, List.mem_of_getElem? hs, hn⟩, rfl⟩

theorem bind?_of_declares (h : frame.Declares name) (depth : Nat) :
    ∃ b, bind? name frame depth = some b ∧ b.level = frame.level := by
  cases hb : bind? name frame depth with
  | none => exact absurd h (bind?_none hb)
  | some b => exact ⟨b, rfl, (bind?_some hb).2⟩

inductive Innermost (name : String) : Scope → ScopeFrame → Prop where
  | here {frame : ScopeFrame} {s : Scope} (h : frame.Declares name) : Innermost name (frame :: s) frame
  | outer {first frame : ScopeFrame} {s : Scope} (hn : ¬first.Declares name)
    (h : Innermost name s frame) : Innermost name (first :: s) frame

theorem innermost_of_lookupFrom? (h : lookupFrom? name depth s = some b) :
    ∃ frame, s.Innermost name frame ∧ frame.level = b.level := by
  induction s generalizing depth with
  | nil => cases h
  | cons first s ih =>
    rw [lookupFrom?, Option.or_eq_some_iff] at h
    rcases h with h | ⟨hn, h⟩
    · obtain ⟨hd, hl⟩ := bind?_some h
      exact ⟨first, .here hd, hl.symm⟩
    · obtain ⟨frame, hi, hl⟩ := ih h
      exact ⟨frame, .outer (bind?_none hn) hi, hl⟩

theorem Innermost.lookupFrom? (h : s.Innermost name frame) (depth : Nat) :
    ∃ b, Scope.lookupFrom? name depth s = some b ∧ b.level = frame.level := by
  induction h generalizing depth with
  | @here frame s hd =>
    obtain ⟨b, hb, hl⟩ := bind?_of_declares hd depth
    refine ⟨b, ?_, hl⟩
    rw [Scope.lookupFrom?, hb, Option.some_or]
  | @outer first frame s hn _ ih =>
    obtain ⟨b, hb, hl⟩ := ih (depth + 1)
    refine ⟨b, ?_, hl⟩
    cases hf : bind? name first depth with
    | none => rw [Scope.lookupFrom?, hf, Option.none_or, hb]
    | some b' => exact absurd (bind?_some hf).1 hn

end Scope

namespace Expr

/-- A node that can be linked: a name whose innermost declaration lies at most `maxLevel` levels of
function nesting out, or a member of a frame that has a slot of its name. -/
inductive Linkable (maxLevel : Nat) (scope : Scope) : Expr → Prop where
  | name {n : String} {frame : ScopeFrame} (h : scope.Innermost n frame)
    (hl : scope.level - frame.level ≤ maxLevel) : Linkable maxLevel scope (.name n)
  | member {hops : Nat} {field : String} {frame : ScopeFrame} (hf : scope[hops]? = some frame)
    (h : frame.Declares field) :
    Linkable maxLevel scope (.member .classMember (.scopeRef hops) field)

theorem resolveNode?_of_linkable {maxLevel : Nat} {scope : Scope} {e : Expr}
    (h : e.Linkable maxLevel scope) : ∃ r, e.resolveNode? maxLevel scope = some r := by
  cases h with
  | @name n frame h hl =>
    obtain ⟨b, hb, hlevel⟩ := h.lookupFrom? 0
    rw [← hlevel] at hl
    exact ⟨.var b, by simp only [resolveNode?, Scope.lookup?, hb, if_pos hl]⟩
  | @member hops field frame hf h =>
    obtain ⟨b, hb, -⟩ := Scope.bind?_of_declares h hops
    exact ⟨.var b, by simp only [resolveNode?, member?, Scope.lookupAt?, hf, Option.bind_some, hb,
      Option.map_some]⟩

theorem linkable_of_resolveNode? {maxLevel : Nat} {scope : Scope} {e r : Expr}
    (h : e.resolveNode? maxLevel scope = some r) : e.Linkable maxLevel scope := by
  cases e with
  | name n =>
    simp only [resolveNode?] at h
    split at h
    · rename_i b hb
      split at h
      · obtain ⟨frame, hi, hl⟩ := Scope.innermost_of_lookupFrom? hb
        exact .name hi (by omega)
      · cases h
    · cases h
  | member kind object field =>
    cases kind with
    | classMember =>
      cases object with
      | scopeRef hops =>
        obtain ⟨b, hb, -⟩ := Option.map_eq_some_iff.mp h
        obtain ⟨frame, hf, hbind⟩ := Option.bind_eq_some_iff.mp hb
        exact .member hf (Scope.bind?_some hbind).1
      | _ => cases h
    | hostField | mapEntry => cases h
  | _ => cases h

theorem linkable_iff (maxLevel : Nat) (scope : Scope) (e : Expr) :
    e.Linkable maxLevel scope ↔ e.resolveNode? maxLevel scope ≠ none := by
  rw [Option.ne_none_iff_exists']
  constructor
  · intro h
    exact resolveNode?_of_linkable h
  · rintro ⟨r, hr⟩
    exact linkable_of_resolveNode? hr

/-- Of two passes over a node, the one that reaches further decides. -/
theorem resolveNode?_max (m₁ m₂ : Nat) (scope : Scope) (e : Expr) :
    e.resolveNode? (max m₁ m₂) scope =
      (e.resolveNode? m₁ scope).or (e.resolveNode? m₂ scope) := by
  cases e with
  | name n =>
    simp only [resolveNode?]
    cases scope.lookup? n with
    | none => rfl
    | some b =>
      simp only
      by_cases h₁ : scope.level - b.level ≤ m₁
      · have h : scope.level - b.level ≤ max m₁ m₂ := by omega
        simp only [if_pos h₁, if_pos h, Option.some_or]
      · simp only [if_neg h₁, Option.none_or]
        congr 1
        apply propext
        omega
  | member kind object field =>
    cases kind with
    | classMember => exact Option.or_self.symm
    | hostField | mapEntry => rfl
  | _ => rfl

theorem resolve_var (maxLevel : Nat) (scope : Scope) (b : Binding) :
    (Expr.resolve maxLevel scope (.var b)).value = .var b :=
  resolve_of_closed (closed_var [] b) maxLevel scope

theorem resolve_resolve (m₁ m₂ : Nat) (scope : Scope) (e : Expr) :
    ((e.resolve m₁ scope).value.resolve m₂ scope).value = (e.resolve (max m₁ m₂) scope).value := by
  induction e using childInduction generalizing scope with
  | step e ih =>
    rw [value_resolve_node (max m₁ m₂), resolveNode?_max, value_resolve_node m₁]
    -- What the first pass links stays; at what it leaves, the second pass decides, over the same children.
    cases h₁ : e.resolveNode? m₁ scope with
    | some r =>
      obtain ⟨b, rfl, -⟩ := resolveNode?_flat h₁
      exact resolve_var m₂ scope b
    | none =>
      have hnode : (e.resolveChildren m₁ scope).resolveNode? m₂ scope = e.resolveNode? m₂ scope :=
        resolveNode?_mapChildren (fun x hops => ⟨resolve_scopeRef, by rintro rfl; rfl⟩) m₂ scope e
      have hchildren : (e.resolveChildren m₁ scope).resolveChildren m₂ scope =
          e.resolveChildren (max m₁ m₂) scope := by
        rw [resolveChildren, mapChildren_mapChildren]
        apply mapChildren_congr
        intro x hx
        exact ih x hx (scope.enter x.1)
      rw [Option.getD_none, Option.none_or, value_resolve_node m₂, hnode, hchildren]

theorem honest_resolution (maxLevel : Nat) : (resolution maxLevel).Honest := by
  intro scope e h
  show (Revised.replace e (e.resolveNode? maxLevel scope)).value = e
  change (Revised.replace e (e.resolveNode? maxLevel scope)).changed = false at h
  cases hr : e.resolveNode? maxLevel scope with
  | none => rfl
  | some r =>
    rw [hr] at h
    cases h

/-- Resolution changes nothing exactly where nothing can be linked. -/
theorem resolve_unchanged_iff (maxLevel : Nat) (scope : Scope) (e : Expr) :
    (e.resolve maxLevel scope).changed = false ↔
      Within Scope.enter (fun scope e => ¬e.Linkable maxLevel scope) scope e := by
  have hrule (scope : Scope) (e : Expr) :
      ((resolution maxLevel).rule scope e).changed = false ↔ ¬e.Linkable maxLevel scope := by
    rw [linkable_iff, not_not]
    show (Revised.replace e (e.resolveNode? maxLevel scope)).changed = false ↔ _
    cases e.resolveNode? maxLevel scope with
    | none => exact iff_of_true rfl rfl
    | some r => exact iff_of_false nofun nofun
  have henter : ∀ s s' entry, s = s' → (resolution maxLevel).enter s entry = s'.enter entry := by
    rintro s _ entry rfl
    exact enter_resolution maxLevel s entry
  rw [resolve, Pass.changed_eq_false_iff (honest_resolution maxLevel)]
  constructor
  · intro h
    refine h.imp (R := Eq) henter ?_ rfl
    rintro scope _ e rfl he
    exact (hrule scope e).mp he
  · intro h
    refine h.imp (R := Eq) (fun s s' entry hs => (henter s' s entry hs.symm).symm) ?_ rfl
    rintro scope _ e rfl he
    exact (hrule scope e).mpr he

end Expr

/-- Passes of resolution in one scope compose: the one that reaches further decides. The static types
are read off the tree, and so are the same too. A pass hands back the very node that it was given exactly
if no name and no member of a frame that it reaches can be linked, each in the scope that it stands in. -/
theorem resolution_composes (t : Expr) (scope : Scope) :
    (∀ m₁ m₂, ((t.resolve m₁ scope).value.resolve m₂ scope).value =
      (t.resolve (max m₁ m₂) scope).value) ∧
    ∀ m, (t.resolve m scope).changed = false ↔
      Expr.Within Scope.enter (fun scope e => ¬e.Linkable m scope) scope t := by
  constructor
  · intro m₁ m₂
    exact Expr.resolve_resolve m₁ m₂ scope t
  · intro m
    exact Expr.resolve_unchanged_iff m scope t

end ExprCore
