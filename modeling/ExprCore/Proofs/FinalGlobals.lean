import ExprCore.Host.Classes
import ExprCore.Proofs.Building
import ExprCore.Proofs.Contexts
import ExprCore.Proofs.Invariants.Requests
import ExprCore.Proofs.LexicalAddressing

/-!
Final globals. A final slot keeps its value as long as nothing writes it for the first time again, be it a
declaration or the binding of an error that is caught.
-/

namespace ExprCore
set_option autoImplicit false

namespace Expr

/-- A target that leads to a cell, as a slot that is final or not. -/
def Reaches (c : Ref) (final : Bool) (env : Env) : Expr → Prop
  | .var b => env.cell? b.depth b.address = some c ∧ b.final = final
  | .name n => ∃ slot, env.Finds n c slot ∧ slot.final = final
  | .member .classMember (.scopeRef hops) field =>
    ∃ frame address slot, env[hops]? = some frame ∧
      frame.layout.lookup? field = some (address, slot) ∧ frame.base + address = c ∧
      slot.final = final
  | _ => False

/-- A node that leaves a cell alone: as a target it leads there as a final slot only, and it is not a
first write of that slot. -/
structure Spares (c : Ref) (env : Env) (e : Expr) : Prop where
  final : ¬ e.Reaches c false env
  first : e.isFirstWrite = true → ∀ x ∈ e.targets, ∀ final, ¬ x.Reaches c final env

/-- The live frames and one that may be entered later, which lies beyond a cell. -/
def enterBeyond (c : Ref) (env : Env) : Entry → Env
  | .here => env
  | .block layout | .function layout => ⟨layout, c + 1⟩ :: env

abbrev SparesWithin (c : Ref) : Env → Expr → Prop := Within (enterBeyond c) (Spares c)

variable {c : Ref} {final : Bool} {env : Env} {e : Expr}

theorem layouts_enterBeyond (env : Env) (entry : Entry) :
    (enterBeyond c env entry).layouts = entry.push env.layouts := by
  cases entry <;> rfl

theorem isFirstWrite_mapChildren (e : Expr) (f : Entry → Expr → Expr) :
    (e.mapChildren f).isFirstWrite = e.isFirstWrite := by
  cases e with
  | assign mode => cases mode <;> rfl
  | _ => rfl

theorem reaches_of_resolve {maxLevel : Nat} {s : Scope} (hs : s.layouts = env.layouts)
    (h : (e.resolve maxLevel s).value.Reaches c final env) : e.Reaches c final env := by
  have hr := resolves maxLevel s e
  generalize (e.resolve maxLevel s).value = r at h hr
  cases hr with
  | name hb hl =>
    obtain ⟨r, slot, hf, hc, -, hfinal⟩ := Scope.finds_of_lookup? hs hb
    obtain ⟨hcell, rfl⟩ := h
    rw [hc] at hcell
    cases hcell
    exact ⟨slot, hf, hfinal.symm⟩
  | @member hops field b hb =>
    obtain ⟨sf, hsf, hb⟩ := Option.bind_eq_some_iff.mp hb
    obtain ⟨⟨address, slot⟩, hl, rfl⟩ := Option.map_eq_some_iff.mp hb
    obtain ⟨hcell, hfinal⟩ := h
    have hlayout : (env.layouts)[hops]? = some sf.layout := by
      rw [← hs, Scope.layouts, List.getElem?_map, hsf]
      rfl
    rw [Env.layouts, List.getElem?_map, Option.map_eq_some_iff] at hlayout
    obtain ⟨frame, hframe, hlf⟩ := hlayout
    obtain ⟨frame', hframe', -, hc⟩ := Env.cell?_eq_some hcell
    rw [hframe] at hframe'
    cases hframe'
    exact ⟨frame, address, slot, hframe, hlf ▸ hl, hc, hfinal⟩
  | kept hn =>
    cases e with
    | var | name => exact h
    | member kind object field =>
      simp only [resolveChildren, mapChildren] at h
      generalize ho : (object.resolve maxLevel (s.enter .here)).value = o at h
      cases kind with
      | classMember =>
        cases o with
        | scopeRef hops =>
          obtain rfl := resolve_scopeRef ho
          exact h
        | _ => exact h.elim
      | hostField | mapEntry => exact h.elim
    | _ => exact h.elim

theorem spares_resolve {maxLevel : Nat} {s : Scope} (hs : s.layouts = env.layouts)
    (h : e.Spares c env) : (e.resolve maxLevel s).value.Spares c env := by
  refine ⟨fun hr => h.final (reaches_of_resolve hs hr), fun hw x hx final hr => ?_⟩
  have hcases := resolves maxLevel s e
  generalize (e.resolve maxLevel s).value = r at hw hx hcases
  cases hcases with
  | name | member => cases hw
  | kept =>
    rw [isFirstWrite_mapChildren] at hw
    rw [targets_mapChildren] at hx
    obtain ⟨t, ht, rfl⟩ := List.mem_map.mp hx
    exact h.first hw t ht final (reaches_of_resolve hs hr)

theorem within_resolve {p : Env → Expr → Prop} {maxLevel : Nat} {s : Scope}
    (hnode : ∀ (s : Scope) (env : Env) (e : Expr), s.layouts = env.layouts → p env e →
      p env (e.resolve maxLevel s).value)
    (hs : s.layouts = env.layouts) (h : Within (enterBeyond c) p env e) :
    Within (enterBeyond c) p env (e.resolve maxLevel s).value := by
  refine h.resolve (R := fun s env env' => env = env' ∧ s.layouts = env.layouts) ?_ ?_ ⟨rfl, hs⟩
  · rintro s env _ entry ⟨rfl, hs⟩
    exact ⟨rfl, by rw [Scope.layouts_enter, hs, layouts_enterBeyond]⟩
  · rintro s env _ e ⟨rfl, hs⟩ he
    exact hnode s env e hs he.holds

/-- What simplification needs as well: only what can be assigned to is, and no scope is referred to by
its distance. -/
structure Tame (c : Ref) (env : Env) (e : Expr) : Prop where
  spares : e.Spares c env
  targets : ∀ x ∈ e.targets, x.isAssignable = true
  scope : e.isScopeRef = false

theorem tame_resolve {maxLevel : Nat} {s : Scope} (hs : s.layouts = env.layouts)
    (h : e.Tame c env) : (e.resolve maxLevel s).value.Tame c env := by
  refine ⟨spares_resolve hs h.spares, fun x hx => ?_, ?_⟩
  · have hcases := resolves maxLevel s e
    generalize (e.resolve maxLevel s).value = r at hx hcases
    cases hcases with
    | name | member => cases hx
    | kept =>
      rw [targets_mapChildren] at hx
      obtain ⟨t, ht, rfl⟩ := List.mem_map.mp hx
      exact isAssignable_resolve (h.targets t ht)
  · have hscope := h.scope
    generalize hr : (e.resolve maxLevel s).value = r
    cases r with
    | scopeRef hops =>
      obtain rfl := resolve_scopeRef hr
      cases hscope
    | _ => rfl

theorem reaches_of_mapChildren {f : Expr → Expr}
    (hf : ∀ x ∈ e.children, (f x.2).isScopeRef = false)
    (h : (e.mapChildren fun _ y => f y).Reaches c final env) : e.Reaches c final env := by
  cases e with
  | var | name => exact h
  | member kind object field =>
    have hobject := hf (.here, object) List.mem_cons_self
    simp only [mapChildren] at h
    generalize f object = o at h hobject
    cases kind with
    | classMember =>
      cases o with
      | scopeRef => cases hobject
      | _ => exact h.elim
    | hostField | mapEntry => exact h.elim
  | _ => exact h.elim

theorem tame_optimize (h : Within (enterBeyond c) (Tame c) env e) (host : Host) (fuel level : Nat)
    (s : Store) : Within (enterBeyond c) (Tame c) env (optimize host fuel level s e).value := by
  have hf := simplifies_optimize host fuel level s
  refine h.simplified hf (fun _ => rfl) ?_ ?_ ?_ ?_
  · exact fun _ _ _ _ _ => ⟨⟨id, nofun⟩, nofun, rfl⟩
  · exact fun _ _ _ => ⟨⟨id, nofun⟩, nofun, rfl⟩
  · exact fun _ _ => ⟨⟨id, nofun⟩, nofun, rfl⟩
  · intro env x hx hchildren
    have htarget {t : Expr} (ht : t ∈ x.targets) :
        (optimize host fuel level s t).value =
          t.mapChildren fun _ y => (optimize host fuel level s y).value := by
      refine hf.eq_of_not_computes ?_
      have ha := hx.holds.targets t ht
      cases t <;> first | rfl | cases ha
    refine ⟨⟨fun hr => hx.holds.spares.final (reaches_of_mapChildren (fun y hy => ?_) hr), ?_⟩,
      fun y hy => ?_, ?_⟩
    · exact (hchildren y hy).holds.scope
    · intro hw y hy final hr
      rw [isFirstWrite_mapChildren] at hw
      rw [targets_mapChildren] at hy
      obtain ⟨t, ht, rfl⟩ := List.mem_map.mp hy
      have hsimple := hchildren _ (target_mem_children ht)
      rw [htarget ht] at hr hsimple
      refine hx.holds.spares.first hw t ht final (reaches_of_mapChildren (fun z hz => ?_) hr)
      refine (hsimple.child (x := (z.1, (optimize host fuel level s z.2).value)) ?_).holds.scope
      rw [children_mapChildren]
      exact List.mem_map_of_mem hz
    · rw [targets_mapChildren] at hy
      obtain ⟨t, ht, rfl⟩ := List.mem_map.mp hy
      rw [htarget ht, isAssignable_mapChildren]
      exact hx.holds.targets t ht
    · have hscope := hx.holds.scope
      cases x <;> first | rfl | cases hscope

/-- A node that names a global for a first write only where a block or a function around it declares
the name itself. -/
structure Shadows (name : String) (inner : List Layout) (e : Expr) : Prop where
  unscoped : e.isScoped = false
  targets : ∀ x ∈ e.targets, x.isAssignable = true
  first : e.isFirstWrite = true → .name name ∈ e.targets → ∃ layout ∈ inner, ∃ slot ∈ layout,
    slot.name = name

theorem Shadows.of_targets {name : String} {inner : List Layout} {e : Expr}
    (hu : e.isScoped = false) (ht : e.targets = []) : e.Shadows name inner where
  unscoped := hu
  targets := by simp [ht]
  first := by simp [ht]

abbrev Preserves (name : String) (e : Expr) : Prop := Everywhere (Shadows name) [] e

end Expr

namespace Env

variable {c : Ref} {env : Env} {name : String} {slot : Slot}

theorem Finds.mem {r : Ref} (h : env.Finds name r slot) :
    ∃ frame ∈ env, ∃ address < frame.layout.length, r = frame.base + address := by
  induction h with
  | here hs hn hl =>
    exact ⟨_, List.mem_cons_self, _, (List.getElem?_eq_some_iff.mp hs).1, rfl⟩
  | outer _ _ ih =>
    obtain ⟨frame, hf, h⟩ := ih
    exact ⟨frame, List.mem_cons_of_mem _ hf, h⟩

theorem Finds.of_beyond {layout : Layout} {base address : Nat} {s : Slot} {inner : List Layout}
    {n : String} (hs : layout.lookup? name = some (address, s))
    (h : Env.Finds n (inner.map (⟨·, base + address + 1⟩) ++ [⟨layout, base⟩]) (base + address) slot) :
    n = name ∧ slot = s ∧ ∀ l ∈ inner, ∀ slot ∈ l, slot.name ≠ n := by
  induction inner with
  | nil =>
    generalize hr : base + address = r at h
    cases h with
    | @here frame _ a _ ha hn hl =>
      obtain rfl : a = address := Nat.add_left_cancel hr.symm
      obtain ⟨haddress, hname⟩ := Layout.lookup?_spec hs
      rw [haddress] at ha
      cases ha
      exact ⟨hn.symm.trans hname, rfl, nofun⟩
    | outer _ h => cases h
  | cons l inner ih =>
    rw [List.map_cons, List.cons_append] at h
    generalize hf : Frame.mk l (base + address + 1) = frame at h
    generalize (inner.map fun l => Frame.mk l (base + address + 1)) ++ [Frame.mk layout base] = env
      at h ih
    generalize hr : base + address = r at h
    cases h with
    | @here _ _ a =>
      subst hf
      exact absurd (show base + address = base + address + 1 + a from hr) (by omega)
    | outer hl h =>
      subst hf hr
      obtain ⟨hn, hslot, hlacks⟩ := ih h
      refine ⟨hn, hslot, fun l' hl' => ?_⟩
      rcases List.mem_cons.mp hl' with rfl | hl'
      · exact hl
      · exact hlacks l' hl'

end Env

namespace Expr

variable {c : Ref} {env : Env} {e : Expr} {name : String} {layout : Layout} {base address : Nat}
  {slot : Slot}

/-- What a tree says of a global by its name it says of the cell of the global. -/
theorem Preserves.tame (hs : layout.lookup? name = some (address, slot)) (hfinal : slot.final = true)
    (h : e.Preserves name) :
    Within (enterBeyond (base + address)) (Tame (base + address)) [⟨layout, base⟩] e := by
  refine .ofEverywhere (R := fun inner env =>
    env = inner.map (⟨·, base + address + 1⟩) ++ [⟨layout, base⟩]) ?_ ?_ h rfl
  · rintro inner _ entry rfl
    cases entry <;> rfl
  · rintro inner _ e rfl he
    have reach {x : Expr} {final : Bool} (hx : Everywhere (Shadows name) inner x)
        (hr : x.Reaches (base + address) final
          (inner.map (⟨·, base + address + 1⟩) ++ [⟨layout, base⟩])) :
        x = .name name ∧ final = true ∧ ∀ l ∈ inner, ∀ slot ∈ l, slot.name ≠ name := by
      cases x with
      | var => cases hx.holds.unscoped
      | name n =>
        obtain ⟨slot', hf, rfl⟩ := hr
        obtain ⟨rfl, rfl, hlacks⟩ := hf.of_beyond hs
        exact ⟨rfl, hfinal, hlacks⟩
      | member kind object field =>
        have hobject := (hx.child (x := (.here, object)) List.mem_cons_self).holds.unscoped
        cases kind with
        | classMember =>
          cases object with
          | scopeRef => cases hobject
          | _ => exact hr.elim
        | hostField | mapEntry => exact hr.elim
      | _ => exact hr.elim
    refine ⟨⟨fun hr => ?_, fun hw x hx final hr => ?_⟩, he.holds.targets, ?_⟩
    · cases (reach he hr).2.1
    · obtain ⟨rfl, -, hlacks⟩ := reach (he.child (target_mem_children hx)) hr
      obtain ⟨l, hl, slot', hslot, hname⟩ := he.holds.first hw hx
      exact hlacks l hl slot' hslot hname
    · have := he.holds.unscoped
      cases e <;> trivial

theorem sparesWithin_of_tame (h : Within (enterBeyond c) (Tame c) env e) : SparesWithin c env e :=
  h.imp (R := Eq) (fun _ _ _ h => h ▸ rfl) (fun _ _ _ h he => h ▸ he.spares) rfl

theorem sparesWithin_of_lacks
    (h : ∀ frame ∈ env, ∀ address < frame.layout.length, frame.base + address ≠ c) (e : Expr) :
    SparesWithin c env e := by
  induction e using childInduction generalizing env with
  | step e ih =>
    have reach {x : Expr} {final : Bool} (hr : x.Reaches c final env) : False := by
      cases x with
      | var b =>
        obtain ⟨frame, hf, ha, hc⟩ := Env.cell?_eq_some hr.1
        exact h frame (List.mem_of_getElem? hf) _ ha hc
      | name n =>
        obtain ⟨slot, hf, -⟩ := hr
        obtain ⟨frame, hm, address, ha, hr⟩ := hf.mem
        exact h frame hm address ha hr.symm
      | member kind object field =>
        cases kind with
        | classMember =>
          cases object with
          | scopeRef hops =>
            obtain ⟨frame, address, slot, hf, hl, hr, -⟩ := hr
            refine h frame (List.mem_of_getElem? hf) address ?_ hr
            exact (List.getElem?_eq_some_iff.mp (Layout.lookup?_spec hl).1).1
          | _ => exact hr
        | hostField | mapEntry => exact hr
      | _ => exact hr
    refine .intro ⟨reach, fun _ _ _ _ hr => reach hr⟩ fun x hx => ih x hx ?_
    have hbeyond (layout : Layout) : ∀ frame ∈ (⟨layout, c + 1⟩ :: env : Env),
        ∀ address < frame.layout.length, frame.base + address ≠ c := by
      intro frame hm address ha
      rcases List.mem_cons.mp hm with rfl | hm
      · exact Nat.ne_of_gt (Nat.lt_of_lt_of_le (Nat.lt_succ_self c) (Nat.le_add_right _ _))
      · exact h frame hm address ha
    cases x.1 with
    | here => exact h
    | block layout | function layout => exact hbeyond layout

end Expr

abbrev Env.SameUpTo (c : Ref) : Env → Env → Prop :=
  List.Forall₂ fun frame frame' => frame.layout = frame'.layout ∧
    (frame.base = frame'.base ∨ c < frame.base ∧ c < frame'.base)

namespace Env.SameUpTo

variable {c : Ref} {env env' : Env}

theorem refl (c : Ref) (env : Env) : SameUpTo c env env :=
  List.forall₂_same.mpr fun _ _ => ⟨rfl, .inl rfl⟩

theorem layouts_eq (h : SameUpTo c env env') : env.layouts = env'.layouts := by
  induction h with
  | nil => rfl
  | cons h _ ih => exact congrArg₂ List.cons h.1 ih

theorem cell? (h : SameUpTo c env env') {depth address : Nat}
    (hc : env'.cell? depth address = some c) : env.cell? depth address = some c := by
  induction h generalizing depth with
  | nil => exact hc
  | @cons frame frame' _ _ h _ ih =>
    cases depth with
    | succ depth => exact ih hc
    | zero =>
      obtain ⟨hl, hb⟩ := h
      simp only [Env.cell?, List.getElem?_cons_zero, hl] at hc ⊢
      split at hc
      · rename_i ha
        have hr : frame'.base + address = c := Option.some.inj hc
        rcases hb with hb | ⟨-, hb⟩
        · rw [if_pos ha, hb, hr]
        · exact absurd hb (Nat.not_lt_of_le (hr ▸ Nat.le_add_right _ _))
      · cases hc

end Env.SameUpTo

/-- A function whose body, if it has one, leaves a cell alone. -/
def Callable.Spares (c : Ref) : Callable → Prop
  | .closure f => ∃ env, Env.SameUpTo c env f.env ∧
    Expr.SparesWithin c (⟨f.signature.layout, c + 1⟩ :: env) f.body
  | _ => True

/-- A cell holds a value; no object has it for a member, and functions leave it alone. -/
structure Store.Keeping (c : Ref) (v : Value) (s : Store) : Prop where
  cell : s.cells[c]? = some v
  members : ∀ {r name cell t}, (s.instanceAt r).member? name = some (cell, t) → cell ≠ c
  functions : ∀ f ∈ s.functions, f.Spares c

def keepingDiscipline (c : Ref) (v : Value) : Discipline Still where
  good _ s := s.Keeping c v
  value _ _ := True
  slot _ r _ := r ≠ c
  callable _ f := f.Spares c
  tree _ env e := ∃ env', Env.SameUpTo c env' env ∧ Expr.SparesWithin c env' e
  typed := False

namespace Store.Keeping

variable {c : Ref} {v : Value} {s : Store}

theorem append (h : s.Keeping c v) (values : List Value) :
    Store.Keeping c v { s with cells := s.cells ++ values } where
  cell := by
    have hc : c < s.cells.toList.length := (Array.getElem?_eq_some_iff.mp h.cell).1
    rw [← Array.getElem?_toList, Array.toList_appendList, List.getElem?_append_left hc,
      Array.getElem?_toList, h.cell]
  members := h.members
  functions := h.functions

theorem withObject (h : s.Keeping c v) (className : String) (members : List (String × Ty)) :
    Store.Keeping c v
      { s with
        cells := s.cells ++ members.map fun (_, type) => type.default
        objects := s.objects.push ⟨className, members, s.cells.size⟩ } := by
  have hs := h.append (members.map fun (_, type) => type.default)
  refine { hs with members := fun {r name cell t} hm => ?_ }
  have hc : c < s.cells.size := (Array.getElem?_eq_some_iff.mp h.cell).1
  rcases Store.member?_of_push hm rfl with hm | hm
  · obtain ⟨i, rfl, -⟩ := Instance.member?_spec hm
    exact Nat.ne_of_gt (Nat.lt_of_lt_of_le hc (Nat.le_add_right _ _))
  · exact hs.members hm

theorem beyond (h : s.Keeping c v) {env env' : Env} (henv : Env.SameUpTo c env' env)
    (layout : Layout) : Env.SameUpTo c (⟨layout, c + 1⟩ :: env') (⟨layout, s.cells.size⟩ :: env) :=
  .cons ⟨rfl, .inr ⟨Nat.lt_succ_self c, (Array.getElem?_eq_some_iff.mp h.cell).1⟩⟩ henv

end Store.Keeping

theorem keepingDiscipline_lawful (c : Ref) (v : Value) : (keepingDiscipline c v).Lawful where
  value_mono _ h := h
  slot_mono _ h := h
  callable_mono _ h := h
  tree_mono _ h := h
  plain _ := trivial
  held _ _ := trivial
  child := by
    rintro _ env e x ⟨env', henv, ht⟩ hx
    exact ⟨env', henv, ht.child hx⟩
  literal _ := ⟨trivial, False.elim⟩
  var h := h.elim
  target := by
    rintro _ env e b r ⟨env', henv, ht⟩ hb hw hr rfl
    have hcell := henv.cell? hr
    rcases hw with hfinal | hfirst
    · exact (ht.child (Expr.target_mem_children hb)).holds.final ⟨hcell, hfinal⟩
    · exact ht.holds.first hfirst _ hb _ ⟨hcell, rfl⟩
  member hs hm := hs.members hm
  function r hs := Store.forall_callable hs.functions trivial r
  lambda := by
    rintro _ env signature body ⟨env', henv, ht⟩
    refine ⟨env', henv, Expr.within_resolve (fun _ _ _ => Expr.spares_resolve) ?_
      (ht.child List.mem_cons_self)⟩
    show signature.layout :: (Scope.ofEnv env).layouts = signature.layout :: env'.layouts
    rw [Scope.layouts_ofEnv, henv.layouts_eq]
  default _ _ _ := trivial
  native _ := honestBody_of_all (fun _ _ => trivial) (fun _ _ => trivial) _ _
  builtIn _ := trivial
  host _ := honestBody_of_all (fun _ _ => trivial) (fun _ _ => trivial) _ _
  operation _ _ := trivial
  enterBlock := by
    rintro _ env layout body ret s ⟨env', henv, ht⟩ hs
    refine ⟨.still, le_rfl, hs.append _, fun e he => ⟨_, hs.beyond henv layout, ?_⟩⟩
    exact ht.child (List.mem_map_of_mem he)
  enterClosure := by
    rintro _ f args s ⟨env', henv, ht⟩ - - hs
    exact ⟨.still, le_rfl, hs.append args, _, hs.beyond henv f.signature.layout, ht⟩
  writeCell hs hr _ _ := ⟨by rw [Array.getElem?_setIfInBounds_ne hr, hs.cell], hs.members,
    hs.functions⟩
  newList hs _ := ⟨.still, le_rfl, ⟨hs.cell, hs.members, hs.functions⟩, trivial⟩
  newArray hs _ _ := ⟨.still, le_rfl, ⟨hs.cell, hs.members, hs.functions⟩, trivial⟩
  writeList hs _ _ := ⟨hs.cell, hs.members, hs.functions⟩
  writeArray hs _ _ _ := ⟨hs.cell, hs.members, hs.functions⟩
  buffers hs := ⟨hs.cell, hs.members, hs.functions⟩
  maps hs _ := ⟨hs.cell, hs.members, hs.functions⟩
  records hs _ := ⟨hs.cell, hs.members, hs.functions⟩
  newObject hs := ⟨.still, le_rfl, hs.withObject _ _⟩
  calls hs _ := ⟨hs.cell, hs.members, hs.functions⟩
  newFunction hs hf := ⟨hs.cell, hs.members, Array.forall_mem_push.mpr ⟨hf, hs.functions⟩⟩

/-- Objects and functions refer to cells that exist. -/
structure Store.Sealed (s : Store) : Prop where
  members : ∀ {r name cell t}, (s.instanceAt r).member? name = some (cell, t) →
    cell < s.cells.size
  frames : ∀ f, .closure f ∈ s.functions → ∀ frame ∈ f.env,
    frame.base + frame.layout.length ≤ s.cells.size

theorem Store.Sealed.keeping {s : Store} (hs : s.Sealed) {values : List Value} {k : Nat} {v : Value}
    (hv : values[k]? = some v) :
    Store.Keeping (s.cells.size + k) v { s with cells := s.cells ++ values } where
  cell := by
    rw [← Array.getElem?_toList, Array.toList_appendList,
      List.getElem?_append_right (by simp)]
    simpa using hv
  members hm := Nat.ne_of_lt (Nat.lt_of_lt_of_le (hs.members hm) (Nat.le_add_right _ _))
  functions f hf := by
    cases f with
    | native | operator => exact trivial
    | closure f =>
      refine ⟨f.env, .refl _ _, Expr.sparesWithin_of_lacks (fun frame hm address ha => ?_) _⟩
      rcases List.mem_cons.mp hm with rfl | hm
      · exact Nat.ne_of_gt (Nat.lt_of_lt_of_le (Nat.lt_succ_self _) (Nat.le_add_right _ _))
      · have hframe := hs.frames f hf frame hm
        refine Nat.ne_of_lt (Nat.lt_of_lt_of_le ?_ (Nat.le_add_right s.cells.size k))
        exact Nat.lt_of_lt_of_le (Nat.add_lt_add_left ha _) hframe

theorem Expr.Written.tame {options : Options} {layout : Layout} {base address : Nat} {name : String}
    {slot : Slot} {host : Host} {e : Expr} (hs : layout.lookup? name = some (address, slot))
    (hfinal : slot.final = true)
    (h : e.Written (Expr.Preserves name) ⟨options, [⟨layout, base⟩]⟩ host) :
    Within (enterBeyond (base + address)) (Tame (base + address)) [⟨layout, base⟩] e := by
  induction h with
  | source h => exact h.tame hs hfinal
  | prepared fuel s _ ih =>
    refine tame_optimize ?_ host fuel _ s
    exact within_resolve (fun _ _ _ => tame_resolve) (Scope.layouts_ofEnv [⟨layout, base⟩]) ih

/-- A final global keeps the value that it was built with, as long as no tree that is run declares it
again or binds an error to it. -/
theorem final_global_kept {options : Options} {globals : List Global} {i : Interpreter} {host : Host}
    {s₀ s₁ s : Store} {known vs : List Value} {name : String} {address : Nat} {slot : Slot}
    (hs₀ : s₀.Sealed) (hbuild : Interpreter.build options globals s₀ = .ok i s₁)
    (hslot : Layout.lookup? name (globals.map Global.slot) = some (address, slot))
    (hfinal : slot.final = true)
    (h : Session (fun r => r.answer i host)
      (fun _ r => r.Over (Expr.Written (Expr.Preserves name) i host)) s₁ known vs s) :
    ∃ c, i.global? name = some c ∧ s.cell c = s₁.cell c := by
  obtain ⟨rfl, values, rfl, hfilled⟩ := Interpreter.build_holding hbuild
  have ha := (List.getElem?_eq_some_iff.mp (Layout.lookup?_spec hslot).1).1
  have hlength := hfilled.conform.length_eq
  obtain ⟨v, hv⟩ : ∃ v, values[address]? = some v :=
    ⟨_, List.getElem?_eq_getElem (hlength ▸ ha)⟩
  refine ⟨s₀.cells.size + address, ?_, ?_⟩
  · simp only [Interpreter.global?, List.head?_cons, hslot, Option.bind_eq_bind, Option.bind_some]
    exact if_pos ha
  -- From the store that building leaves, every request keeps the cell.
  have hkeep := hs₀.keeping hv
  have hh : host.Honest (keepingDiscipline (s₀.cells.size + address) v).value
      (keepingDiscipline (s₀.cells.size + address) v).made :=
    host.honest_of_all (fun _ _ => trivial) fun _ _ => trivial
  have hD := keepingDiscipline_lawful (s₀.cells.size + address) v
  have htree {e : Expr} (he : Expr.Written (Expr.Preserves name)
      ⟨options, [⟨globals.map Global.slot, s₀.cells.size⟩]⟩ host e) :
      (keepingDiscipline (s₀.cells.size + address) v).tree .still
        [⟨globals.map Global.slot, s₀.cells.size⟩] e :=
    ⟨_, .refl _ _, Expr.sparesWithin_of_tame (he.tame hslot hfinal)⟩
  obtain ⟨_, -, hs, -⟩ := Discipline.session hD hh .still hkeep (fun _ _ => trivial)
    (fun _ s _ r _ _ _ hr => by
      cases r with
      | run fuel e => exact htree (.prepared fuel s hr)
      | eval fuel e => exact htree hr
      | call => exact fun _ _ => trivial) h
  rw [Store.cell, Store.cell, hs.cell, hkeep.cell]

namespace Sample

def constant : Global := ⟨⟨"c", .str, true⟩, .str "a"⟩

def catching : Expr :=
  .tryCatch (.raise (.literal (.str "boom") .str)) (.name "c") (.literal (.int 0) .int)

end Sample

open Sample

/-- A block that declares the name itself keeps the global from the binding. -/
theorem final_global_kept_shadowed :
    let i : Interpreter := ⟨.default, [⟨[constant.slot], 0⟩]⟩
    let s₁ : Store := { cells := #[.str "a"] }
    let e : Expr := .block [⟨"c", .str, false⟩] [catching] .any
    ∃ v s, Interpreter.build .default [constant] {} = .ok i s₁ ∧
      i.run (standardHost 0) 9 e s₁ = .ok v s ∧ ∃ c, i.global? "c" = some c ∧ s.cell c = s₁.cell c := by
  intro i s₁ e
  have hsource : e.Preserves "c" := by
    refine .node (.of_targets rfl rfl) (.node ⟨rfl, ?_, ?_⟩ ⟨?_, ?_, ?_⟩)
    · simp [Expr.targets, catching, Expr.isAssignable]
    · exact fun _ _ => ⟨_, List.mem_cons_self, _, List.mem_cons_self, rfl⟩
    · exact .node (.of_targets rfl rfl) (.node (.of_targets rfl rfl) trivial)
    · exact .node (.of_targets rfl rfl) trivial
    · exact .node (.of_targets rfl rfl) trivial
  have hempty : Store.Sealed {} :=
    ⟨fun hm => (by cases hm), fun _ hf => absurd hf (Array.not_mem_empty _)⟩
  have hbuild : Interpreter.build .default [constant] {} = .ok i s₁ := rfl
  obtain ⟨v, s, hrun⟩ : ∃ v s, i.run (standardHost 0) 9 e s₁ = .ok v s := ⟨_, _, rfl⟩
  have hsession : Session (fun r => r.answer i (standardHost 0))
      (fun _ r => r.Over (Expr.Written (Expr.Preserves "c") i (standardHost 0))) s₁ [] [v] s :=
    .answered (.run 9 e) .start (.source hsource) hrun
  exact ⟨v, s, hbuild, hrun, final_global_kept hempty hbuild rfl rfl hsession⟩

/-- The binding of an error writes a final global, which the tree declares nowhere. -/
theorem final_global_caught :
    ∃ i s₁ v s, Interpreter.build .default [constant] {} = .ok i s₁ ∧
      i.run (standardHost 0) 9 catching s₁ = .ok v s ∧ i.global? "c" = some 0 ∧
      s₁.cell 0 = .str "a" ∧ s.cell 0 = .str "boom" :=
  ⟨_, _, _, _, rfl, rfl, rfl, rfl, rfl⟩

end ExprCore
