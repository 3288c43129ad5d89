import ExprCore.Proofs.Growth.Evaluation
import ExprCore.Proofs.TargetAddressing

/-!
Literals of lists and maps. Items, keys and values are evaluated and converted one after the other, and only
when all of them are there are they put into the container, all at once. So a literal that fails has put in
nothing, whatever its subexpressions have done to the container, and one that succeeds adds to what the
container holds in the end.
-/

namespace ExprCore
set_option autoImplicit false

namespace Entries

/-- Keys and values that alternate, as entries. -/
def paired : List Value → List (String × Value)
  | .str key :: v :: vs => (key, v) :: paired vs
  | _ => []

theorem lookup_first (key k : String) (v : Value) (entries : Entries) :
    List.lookup key ((k, v) :: entries) = if key = k then some v else entries.lookup key := by
  rw [List.lookup_cons]
  by_cases h : key = k
  · rw [if_pos h, beq_iff_eq.mpr h]
  · rw [if_neg h, beq_eq_false_iff_ne.mpr h]

theorem lookup_insert (key other : String) (v : Value) (entries : Entries) :
    (entries.insert key v).lookup other = if other = key then some v else entries.lookup other := by
  induction entries with
  | nil => exact lookup_first other key v []
  | cons entry entries ih =>
    obtain ⟨k, w⟩ := entry
    unfold insert
    split
    · rename_i hk
      subst hk
      rw [lookup_first, lookup_first]
      split <;> rfl
    · rename_i hk
      split
      · exact lookup_first other key v _
      · rw [lookup_first, lookup_first, ih]
        by_cases h : other = k
        · subst h
          rw [if_pos rfl, if_neg hk, if_pos rfl]
        · rw [if_neg h, if_neg h]

theorem lookup_insertAll (key : String) (more : List (String × Value)) (entries : Entries) :
    (entries.insertAll more).lookup key = (more.reverse.lookup key).or (entries.lookup key) := by
  induction more generalizing entries with
  | nil => rfl
  | cons entry more ih =>
    obtain ⟨k, v⟩ := entry
    have hstep : entries.insertAll ((k, v) :: more) = (entries.insert k v).insertAll more := rfl
    have hone : List.lookup key [(k, v)] = if key = k then some v else none := lookup_first key k v []
    rw [hstep, ih, lookup_insert, List.reverse_cons, List.lookup_append, Option.or_assoc, hone]
    split <;> rfl

end Entries

namespace Store

theorem items_fresh (s : Store) : s.items s.sequences.size = [] := by
  rw [Store.items, Array.getElem?_eq_none le_rfl, Option.getD_none]

theorem entries_fresh (s : Store) : s.entries s.maps.size = [] := by
  rw [Store.entries, Array.getElem?_eq_none le_rfl, Option.getD_none]

end Store

/-- A subexpression of a literal, and what its values are converted by. -/
structure Part where
  expr : Expr
  convert : Value → Except EvalError Value

/-- A literal of a list or a map, apart from the container that it may be supplied with. -/
inductive ContainerLiteral where
  | list (elem : Ty) (items : List Expr)
  | map (value : Ty) (entries : List (Expr × Expr))

namespace ContainerLiteral

/-- The literal that makes a container of its own. -/
def fresh : ContainerLiteral → Expr
  | list elem items => .listLiteral elem items
  | map value entries => .mapLiteral value entries

/-- The literal that fills the container which an expression supplies. -/
def filling (container : Expr) : ContainerLiteral → Expr
  | list elem items => .extendList container elem items
  | map value entries => .extendMap container value entries

def convertKey (key : Value) : Except EvalError Value := (Indexable.mapKey key).map .str

/-- The subexpressions in the order of evaluation: the items, or each key before its value. -/
def parts : ContainerLiteral → List Part
  | list elem items => items.map fun e => ⟨e, elem.cast⟩
  | map value entries => entries.flatMap fun (key, e) => [⟨key, convertKey⟩, ⟨e, value.cast⟩]

def address? : ContainerLiteral → Value → Option Ref
  | list .., .list r => some r
  | map .., .map r => some r
  | _, _ => none

/-- A container that is there. -/
def Live (s : Store) (r : Ref) : ContainerLiteral → Prop
  | list .. => r < s.sequences.size
  | map .. => r < s.maps.size

/-- What a container holds: items in order, or values by their keys. -/
inductive Contents where
  | items (vs : List Value)
  | entries (find : String → Option Value)

namespace Contents

/-- The contents after further items, or keys and values that alternate, are put in. -/
def filled (ws : List Value) : Contents → Contents
  | items vs => items (vs ++ ws)
  | entries find => entries fun key => ((Entries.paired ws).reverse.lookup key).or (find key)

end Contents

def empty : ContainerLiteral → Contents
  | list .. => .items []
  | map .. => .entries fun _ => none

def contents (s : Store) (r : Ref) : ContainerLiteral → Contents
  | list .. => .items (s.items r)
  | map .. => .entries fun key => (s.entries r).lookup key

/-- What has become of a store in which the container at `r` was filled. -/
structure Filled (l : ContainerLiteral) (r : Ref) (ws : List Value) (s s' : Store) : Prop where
  here : l.contents s' r = (l.contents s r).filled ws
  elsewhere : ∀ q, q ≠ r → l.contents s' q = l.contents s q
  /-- Nothing but containers of the kind of the literal has changed. -/
  rest : s' = match l with
    | list .. => { s with sequences := s'.sequences }
    | map .. => { s with maps := s'.maps }

section
variable {elem value : Ty} {items : List Expr} {entries : List (Expr × Expr)} {s : Store} {r : Ref}

theorem filled_list (hr : r < s.sequences.size) (ws : List Value) :
    (list elem items).Filled r ws s { s with sequences := s.sequences.setIfInBounds r (s.items r ++ ws) } := by
  refine ⟨?_, ?_, rfl⟩
  · simp only [contents, Contents.filled]
    rw [Store.items_set, if_pos ⟨rfl, hr⟩]
  · intro q hq
    simp only [contents]
    rw [Store.items_set, if_neg fun h => hq h.1.symm]

theorem filled_map (hr : r < s.maps.size) (ws : List Value) :
    let filled := (s.entries r).insertAll (Entries.paired ws)
    (map value entries).Filled r ws s { s with maps := s.maps.setIfInBounds r filled } := by
  intro filled
  refine ⟨?_, ?_, rfl⟩
  · simp only [contents, Contents.filled]
    rw [Store.entries_set, if_pos ⟨rfl, hr⟩]
    exact congrArg _ (funext fun key => Entries.lookup_insertAll key _ _)
  · intro q hq
    simp only [contents]
    rw [Store.entries_set, if_neg fun h => hq h.1.symm]

theorem filled_newList (s : Store) (ws : List Value) :
    (list elem items).Filled s.sequences.size ws s { s with sequences := s.sequences.push ws } := by
  refine ⟨?_, ?_, rfl⟩
  · simp only [contents, Contents.filled]
    rw [Store.items_push_self, Store.items_fresh, List.nil_append]
  · intro q hq
    simp only [contents]
    rw [Store.items_push, if_neg hq]

theorem filled_newMap (s : Store) (ws : List Value) :
    let filled := Entries.insertAll [] (Entries.paired ws)
    (map value entries).Filled s.maps.size ws s { s with maps := s.maps.push filled } := by
  intro filled
  refine ⟨?_, ?_, rfl⟩
  · simp only [contents, Contents.filled]
    rw [Store.entries_push, if_pos rfl, Store.entries_fresh]
    exact congrArg _ (funext fun key => Entries.lookup_insertAll key _ _)
  · intro q hq
    simp only [contents]
    rw [Store.entries_push, if_neg hq]

end

end ContainerLiteral

namespace Machine

variable {m : Machine} {env : Env} {ps : List Part} {p : Part} {s s₁ s₂ : Store} {v w : Value}
  {ws : List Value} {halt : Halt}

/-- Each part is evaluated and its value converted before the next one is evaluated. -/
inductive Yields (m : Machine) (env : Env) : List Part → Store → List Value → Store → Prop where
  | nil (s : Store) : Yields m env [] s [] s
  | cons {e : Expr} {c : Value → Except EvalError Value} {ps : List Part} {s s₁ s₂ : Store} {v w : Value}
      {ws : List Value} : m.eval env e s = .ok v s₁ → c v = .ok w → Yields m env ps s₁ ws s₂ →
        Yields m env (⟨e, c⟩ :: ps) s (w :: ws) s₂

/-- Evaluation of a part fails, or the conversion of its value does, and the parts after it are not
evaluated. -/
inductive Fails (m : Machine) (env : Env) : List Part → Store → Halt → Store → Prop where
  | eval {e : Expr} {c : Value → Except EvalError Value} {ps : List Part} {s s₁ : Store} {halt : Halt} :
      m.eval env e s = .error halt s₁ → Fails m env (⟨e, c⟩ :: ps) s halt s₁
  | convert {e : Expr} {c : Value → Except EvalError Value} {ps : List Part} {s s₁ : Store} {v : Value}
      {err : EvalError} :
      m.eval env e s = .ok v s₁ → c v = .error err → Fails m env (⟨e, c⟩ :: ps) s (.error err) s₁
  | later {e : Expr} {c : Value → Except EvalError Value} {ps : List Part} {s s₁ s₂ : Store} {v w : Value}
      {halt : Halt} : m.eval env e s = .ok v s₁ → c v = .ok w → Fails m env ps s₁ halt s₂ →
        Fails m env (⟨e, c⟩ :: ps) s halt s₂

theorem yields_or_fails (m : Machine) (env : Env) (ps : List Part) (s : Store) :
    (∃ ws s₂, m.Yields env ps s ws s₂) ∨ ∃ halt s₂, m.Fails env ps s halt s₂ := by
  induction ps generalizing s with
  | nil => exact .inl ⟨[], s, .nil s⟩
  | cons p ps ih =>
    obtain ⟨e, c⟩ := p
    cases hv : m.eval env e s with
    | error halt s₁ => exact .inr ⟨halt, s₁, .eval hv⟩
    | ok v s₁ =>
      cases hw : c v with
      | error err => exact .inr ⟨.error err, s₁, .convert hv hw⟩
      | ok w =>
        rcases ih s₁ with ⟨ws, s₂, h⟩ | ⟨halt, s₂, h⟩
        · exact .inl ⟨w :: ws, s₂, .cons hv hw h⟩
        · exact .inr ⟨halt, s₂, .later hv hw h⟩

theorem Yields.grows (hm : ∀ env e, Run.Growing (m.eval env e)) (h : m.Yields env ps s ws s₂) : s.Grows s₂ := by
  induction h with
  | nil s => exact .refl s
  | cons hv _ _ ih => exact ((hm _ _).ok hv).trans ih

section
variable {β γ : Type} {e : Expr} {convert : Value → Except EvalError γ}

theorem convert_ok (f : γ → Run β) {c : γ} (hv : m.eval env e s = .ok v s₁) (hc : convert v = .ok c) :
    (m.eval env e >>= fun v => Run.ofExcept (convert v) >>= f) s = f c s₁ := by
  rw [Run.bind_ok _ hv, hc]
  rfl

theorem convert_error (f : γ → Run β) {err : EvalError} (hv : m.eval env e s = .ok v s₁)
    (hc : convert v = .error err) :
    (m.eval env e >>= fun v => Run.ofExcept (convert v) >>= f) s = .error (.error err) s₁ := by
  rw [Run.bind_ok _ hv, hc]
  rfl

end

variable {elem value : Ty} {items : List Expr} {entries : List (Expr × Expr)}

theorem evalElements_of_yields (h : m.Yields env (ContainerLiteral.list elem items).parts s ws s₂) :
    m.evalElements env elem items s = .ok ws s₂ := by
  induction items generalizing s ws with
  | nil =>
    cases h
    rfl
  | cons e items ih =>
    cases h with
    | cons hv hw h =>
      rw [evalElements, convert_ok _ hv hw, Run.bind_ok _ (ih h)]
      rfl

theorem evalElements_of_fails (h : m.Fails env (ContainerLiteral.list elem items).parts s halt s₂) :
    m.evalElements env elem items s = .error halt s₂ := by
  induction items generalizing s with
  | nil => cases h
  | cons e items ih =>
    cases h with
    | eval hv => exact Run.bind_error _ hv
    | convert hv hw => exact convert_error _ hv hw
    | later hv hw h => rw [evalElements, convert_ok _ hv hw, Run.bind_error _ (ih h)]

theorem convertKey_ok (h : ContainerLiteral.convertKey v = .ok w) :
    ∃ key, Indexable.mapKey v = .ok key ∧ w = .str key := by
  unfold ContainerLiteral.convertKey at h
  cases hk : Indexable.mapKey v with
  | error e => rw [hk] at h; cases h
  | ok key =>
    rw [hk] at h
    cases h
    exact ⟨key, rfl, rfl⟩

theorem convertKey_error {err : EvalError} (h : ContainerLiteral.convertKey v = .error err) :
    Indexable.mapKey v = .error err := by
  unfold ContainerLiteral.convertKey at h
  cases hk : Indexable.mapKey v with
  | error e => rw [hk] at h; cases h; rfl
  | ok key => rw [hk] at h; cases h

theorem evalEntries_of_yields (h : m.Yields env (ContainerLiteral.map value entries).parts s ws s₂) :
    m.evalEntries env value entries s = .ok (Entries.paired ws) s₂ := by
  induction entries generalizing s ws with
  | nil =>
    cases h
    rfl
  | cons entry entries ih =>
    obtain ⟨keyExpr, e⟩ := entry
    cases h with
    | cons hkey hk h =>
      cases h with
      | cons hv hw h =>
        obtain ⟨key, hkey', rfl⟩ := convertKey_ok hk
        rw [evalEntries, convert_ok _ hkey hkey', convert_ok _ hv hw, Run.bind_ok _ (ih h)]
        rfl

theorem evalEntries_of_fails (h : m.Fails env (ContainerLiteral.map value entries).parts s halt s₂) :
    m.evalEntries env value entries s = .error halt s₂ := by
  induction entries generalizing s with
  | nil => cases h
  | cons entry entries ih =>
    obtain ⟨keyExpr, e⟩ := entry
    cases h with
    | eval hkey => exact Run.bind_error _ hkey
    | convert hkey hk => exact convert_error _ hkey (convertKey_error hk)
    | later hkey hk h =>
      obtain ⟨key, hkey', rfl⟩ := convertKey_ok hk
      rw [evalEntries, convert_ok _ hkey hkey']
      cases h with
      | eval hv => exact Run.bind_error _ hv
      | convert hv hw => exact convert_error _ hv hw
      | later hv hw h => rw [convert_ok _ hv hw, Run.bind_error _ (ih h)]

/-- An expression yields a container that a literal may fill. -/
structure Supplies (m : Machine) (env : Env) (l : ContainerLiteral) (container : Expr) (s : Store) (v : Value)
    (r : Ref) (s₁ : Store) : Prop where
  yields : m.eval env container s = .ok v s₁
  address : l.address? v = some r
  live : l.Live s₁ r

variable {l : ContainerLiteral} {container : Expr} {r : Ref}

theorem filling_of_fails (hs : m.Supplies env l container s v r s₁) (h : m.Fails env l.parts s₁ halt s₂) :
    m.evalNode env (l.filling container) s = .error halt s₂ := by
  cases l with
  | list elem items =>
    cases v with
    | list r' =>
      show m.evalExtendList env container elem items s = _
      rw [evalExtendList, Run.bind_ok _ hs.yields]
      exact Run.bind_error _ (evalElements_of_fails h)
    | _ => cases hs.address
  | map value entries =>
    cases v with
    | map r' =>
      show m.evalExtendMap env container value entries s = _
      rw [evalExtendMap, Run.bind_ok _ hs.yields]
      exact Run.bind_error _ (evalEntries_of_fails h)
    | _ => cases hs.address

theorem fresh_of_fails (h : m.Fails env l.parts s halt s₂) : m.evalNode env l.fresh s = .error halt s₂ := by
  cases l with
  | list elem items => exact Run.bind_error _ (evalElements_of_fails h)
  | map value entries => exact Run.bind_error _ (evalEntries_of_fails h)

theorem filling_of_yields (hm : ∀ env e, Run.Growing (m.eval env e))
    (hs : m.Supplies env l container s v r s₁) (h : m.Yields env l.parts s₁ ws s₂) :
    ∃ s', m.evalNode env (l.filling container) s = .ok v s' ∧ l.Filled r ws s₂ s' := by
  have hgrows := h.grows hm
  cases l with
  | list elem items =>
    cases v with
    | list r' =>
      cases hs.address
      refine ⟨_, ?_, ContainerLiteral.filled_list (Nat.lt_of_lt_of_le hs.live hgrows.sequences) ws⟩
      show m.evalExtendList env container elem items s = _
      rw [evalExtendList, Run.bind_ok _ hs.yields]
      exact Run.bind_ok _ (evalElements_of_yields h)
    | _ => cases hs.address
  | map value entries =>
    cases v with
    | map r' =>
      cases hs.address
      refine ⟨_, ?_, ContainerLiteral.filled_map (Nat.lt_of_lt_of_le hs.live hgrows.maps) ws⟩
      show m.evalExtendMap env container value entries s = _
      rw [evalExtendMap, Run.bind_ok _ hs.yields]
      exact Run.bind_ok _ (evalEntries_of_yields h)
    | _ => cases hs.address

theorem fresh_of_yields (h : m.Yields env l.parts s ws s₂) :
    ∃ w q s', m.evalNode env l.fresh s = .ok w s' ∧ l.address? w = some q ∧ ¬l.Live s₂ q ∧
      l.contents s₂ q = l.empty ∧ l.Filled q ws s₂ s' := by
  cases l with
  | list elem items =>
    refine ⟨.list s₂.sequences.size, _, _, Run.bind_ok _ (evalElements_of_yields h), rfl, Nat.lt_irrefl _, ?_,
      ContainerLiteral.filled_newList s₂ ws⟩
    exact congrArg ContainerLiteral.Contents.items s₂.items_fresh
  | map value entries =>
    refine ⟨.map s₂.maps.size, _, _, Run.bind_ok _ (evalEntries_of_yields h), rfl, Nat.lt_irrefl _, ?_,
      ContainerLiteral.filled_newMap s₂ ws⟩
    rw [ContainerLiteral.contents, s₂.entries_fresh]
    rfl

end Machine

/-- A literal puts in all or nothing. Its subexpressions yield values that convert or one of them fails. If one
fails, so does the literal, and the store is as it was when that failed. If all yield values, the literal
yields the container that was supplied, and these values have been added to what it held after the last
subexpression. A literal without such a container yields a new one, which is what an empty one becomes when it
is filled. -/
theorem literals_all_or_nothing (host : Host) (n : Nat) (env : Env) (l : ContainerLiteral) (s₁ : Store) :
    let m := Machine.ofFuel host n
    ((∃ ws s₂, m.Yields env l.parts s₁ ws s₂) ∨ ∃ halt s₂, m.Fails env l.parts s₁ halt s₂) ∧
    (∀ halt s₂, m.Fails env l.parts s₁ halt s₂ →
      eval host (n + 1) env l.fresh s₁ = .error halt s₂ ∧
      ∀ container s v r, m.Supplies env l container s v r s₁ →
        eval host (n + 1) env (l.filling container) s = .error halt s₂) ∧
    ∀ ws s₂, m.Yields env l.parts s₁ ws s₂ →
      (∃ v q s', eval host (n + 1) env l.fresh s₁ = .ok v s' ∧ l.address? v = some q ∧ ¬l.Live s₂ q ∧
        l.contents s₂ q = l.empty ∧ l.Filled q ws s₂ s') ∧
      ∀ container s v r, m.Supplies env l container s v r s₁ →
        ∃ s', eval host (n + 1) env (l.filling container) s = .ok v s' ∧ l.Filled r ws s₂ s' := by
  intro m
  refine ⟨m.yields_or_fails env l.parts s₁, ?_, ?_⟩
  · intro halt s₂ h
    exact ⟨Machine.fresh_of_fails h, fun _ _ _ _ hs => Machine.filling_of_fails hs h⟩
  · intro ws s₂ h
    exact ⟨Machine.fresh_of_yields h, fun _ _ _ _ hs => Machine.filling_of_yields (growing_eval host n) hs h⟩

namespace Sample

/-- Adds an item to the list while it is evaluated itself. -/
def growingItem : Expr := .before (.literal (.int 1) .int) (.extendList listVar .any [.literal (.int 7) .int])

def growingItems (last : Value) : ContainerLiteral := .list .int [growingItem, .literal last .any]

def text (s : String) : Expr := .literal (.str s) .str

def twoKeys : Expr := .mapLiteral .any [(text "j", .literal (.int 5) .int), (text "k", .literal (.int 6) .int)]

def sameKeyTwice : ContainerLiteral :=
  .map .int [(text "k", .literal (.int 1) .int), (text "k", .literal (.int 2) .int)]

end Sample

open Sample in
/-- The list has grown before its literal fills it. If the last item does not convert, that is all that has
become of it. In a map the later of two values with one key counts. -/
theorem literals_all_or_nothing_growing :
    let host := standardHost 0
    let grown : Store := { listStore with sequences := #[[.int 5, .int 6, .int 7]] }
    let mismatch := Halt.error (.of (.typeMismatch "int" "String"))
    (∃ s', eval host 9 listEnv ((growingItems (.int 2)).filling listVar) listStore = .ok (.list 0) s' ∧
      s'.items 0 = [.int 5, .int 6, .int 7, .int 1, .int 2]) ∧
    eval host 9 listEnv ((growingItems (.str "x")).filling listVar) listStore = .error mismatch grown ∧
    ∃ s', eval host 9 listEnv (sameKeyTwice.filling twoKeys) listStore = .ok (.map 0) s' ∧
      (s'.entries 0).lookup "j" = some (.int 5) ∧ (s'.entries 0).lookup "k" = some (.int 2) := by
  intro host grown mismatch
  have hlist (last : Value) :
      (Machine.ofFuel host 8).Supplies listEnv (growingItems last) listVar listStore (.list 0) 0 listStore :=
    ⟨rfl, rfl, Nat.one_pos⟩
  have hyields : (Machine.ofFuel host 8).Yields listEnv (growingItems (.int 2)).parts listStore
      [.int 1, .int 2] grown :=
    .cons rfl rfl (.cons rfl rfl (.nil grown))
  have hfails : (Machine.ofFuel host 8).Fails listEnv (growingItems (.str "x")).parts listStore mismatch grown :=
    .later rfl rfl (.convert rfl rfl)
  let mapped : Store := { listStore with maps := #[[("j", .int 5), ("k", .int 6)]] }
  have hmap : (Machine.ofFuel host 8).Supplies listEnv sameKeyTwice twoKeys listStore (.map 0) 0 mapped :=
    ⟨rfl, rfl, Nat.one_pos⟩
  have hentries : (Machine.ofFuel host 8).Yields listEnv sameKeyTwice.parts mapped
      [.str "k", .int 1, .str "k", .int 2] mapped :=
    .cons rfl rfl (.cons rfl rfl (.cons rfl rfl (.cons rfl rfl (.nil mapped))))
  refine ⟨?_, ?_, ?_⟩
  · obtain ⟨s', hs', hfilled⟩ := ((literals_all_or_nothing host 8 listEnv (growingItems (.int 2)) listStore).2.2
      _ _ hyields).2 _ _ _ _ (hlist _)
    exact ⟨s', hs', ContainerLiteral.Contents.items.inj hfilled.here⟩
  · exact ((literals_all_or_nothing host 8 listEnv (growingItems (.str "x")) listStore).2.1
      _ _ hfails).2 _ _ _ _ (hlist _)
  · obtain ⟨s', hs', hfilled⟩ := ((literals_all_or_nothing host 8 listEnv sameKeyTwice mapped).2.2
      _ _ hentries).2 _ _ _ _ hmap
    have hfind := ContainerLiteral.Contents.entries.inj hfilled.here
    exact ⟨s', hs', congrFun hfind "j", congrFun hfind "k"⟩

end ExprCore
