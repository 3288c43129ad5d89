import ExprCore.Proofs.ContainerCycles

/-!
Dumps. The dump of a scope has no character in it that would not show, since names are quoted. The dump of a value
walks down into the parts of the value as its text does, so that both come to an end or neither does, and the dump
of live frames ends if that of every value in their cells does.
-/

namespace ExprCore
set_option autoImplicit false

/-! ### Texts that show -/

namespace Text

/-- All characters of a text show. -/
def Shown (t : String) : Prop := ∀ d ∈ t.toList, isHidden d = false

variable {c d quote : Char} {b n : Nat} {t u : String} {ts : List String}

theorem mem_toDigits (hb : 1 < b) (h : d ∈ Nat.toDigits b n) : ∃ k < b, d = Nat.digitChar k := by
  induction n using Nat.strongRecOn with
  | _ n ih =>
    rw [Nat.toDigits_eq_if hb] at h
    split at h
    · exact ⟨n, ‹_›, List.mem_singleton.mp h⟩
    · rcases List.mem_append.mp h with h | h
      · exact ih (n / b) (Nat.div_lt_self (by omega) hb) h
      · exact ⟨n % b, Nat.mod_lt n (by omega), List.mem_singleton.mp h⟩

namespace Shown

theorem of_ascii (h : ∀ d ∈ t.toList, 0x20 ≤ d.toNat ∧ d.toNat ≤ 0x7e) : Shown t :=
  fun d hd => isHidden_eq_false_of_ascii (h d hd).1 (h d hd).2

theorem singleton (hc : isHidden c = false) : Shown (String.singleton c) := by
  intro d hd
  obtain rfl : d = c := by simpa using hd
  exact hc

theorem append (ht : Shown t) (hu : Shown u) : Shown (t ++ u) := by
  intro d hd
  rw [String.toList_append] at hd
  exact (List.mem_append.mp hd).elim (ht d) (hu d)

theorem join (h : ∀ t ∈ ts, Shown t) : Shown (String.join ts) := by
  intro d hd
  rw [String.toList_join] at hd
  obtain ⟨t, ht, hd⟩ := List.mem_flatMap.mp hd
  exact h t ht d hd

theorem intercalate (hu : Shown u) (h : ∀ t ∈ ts, Shown t) : Shown (u.intercalate ts) := by
  induction ts with
  | nil => exact .of_ascii (by simp)
  | cons t ts ih =>
    have ht := h t List.mem_cons_self
    have hts := ih fun t ht => h t (List.mem_cons_of_mem _ ht)
    cases ts with
    | nil => rwa [String.intercalate_singleton]
    | cons => exact String.intercalate_cons_cons ▸ (ht.append hu).append hts

theorem bracketed (h : ∀ t ∈ ts, Shown t) : Shown (Value.bracketed ts) :=
  ((of_ascii (by simp)).append (intercalate (.of_ascii (by simp)) h)).append (.of_ascii (by simp))

theorem digits (hb : 1 < b) (hle : b ≤ 16) (n : Nat) : Shown (String.ofList (Nat.toDigits b n)) := by
  have hascii : ∀ k < 16, 0x20 ≤ k.digitChar.toNat ∧ k.digitChar.toNat ≤ 0x7e := by decide
  refine .of_ascii fun d hd => ?_
  rw [String.toList_ofList] at hd
  obtain ⟨k, hk, rfl⟩ := mem_toDigits hb hd
  exact hascii k (hk.trans_le hle)

theorem escape (hq : isHidden quote = false) (c : Char) : Shown (Text.escape quote c) := by
  have hslash : isHidden '\\' = false := isHidden_eq_false_of_ascii (by decide) (by decide)
  unfold Text.escape
  split_ifs with hquote htab hreturn hline hnull hhidden
  · have hc : isHidden c = false := by
      rcases Bool.or_eq_true_iff.mp hquote with hc | hc
      · exact of_decide_eq_true hc ▸ hq
      · exact of_decide_eq_true hc ▸ hslash
    intro d hd
    rw [String.toList_ofList, List.mem_pair] at hd
    rcases hd with rfl | rfl
    · exact hslash
    · exact hc
  · exact .of_ascii (by simp)
  · exact .of_ascii (by simp)
  · exact .of_ascii (by simp)
  · exact .of_ascii (by simp)
  · exact ((of_ascii (by simp)).append (digits (by decide) le_rfl c.toNat)).append (.of_ascii (by simp))
  · exact .singleton (Bool.eq_false_iff.mpr hhidden)

theorem quoted (s : String) : Shown (Text.quoted s) := by
  have hmark : Shown "\"" := .of_ascii (by simp)
  refine (hmark.append (.join fun t ht => ?_)).append hmark
  obtain ⟨c, -, rfl⟩ := List.mem_map.mp ht
  exact .escape (isHidden_eq_false_of_ascii (by decide) (by decide)) c

end Shown

end Text

/-- The dump of a scope shows, whatever the names in it are. -/
theorem Scope.shown_dump (s : Scope) : Text.Shown s.dump := by
  refine .bracketed fun t ht => ?_
  obtain ⟨frame, -, rfl⟩ := List.mem_map.mp ht
  have hnames : Text.Shown (Value.bracketed (frame.layout.map fun slot => "Name(" ++ Text.quoted slot.name ++ ")")) := by
    refine .bracketed fun t ht => ?_
    obtain ⟨slot, -, rfl⟩ := List.mem_map.mp ht
    exact ((Text.Shown.of_ascii (by simp)).append (.quoted slot.name)).append (.of_ascii (by simp))
  have hlevel : Text.Shown (toString frame.level) := .digits (by decide) (by decide) frame.level
  exact ((((Text.Shown.of_ascii (by simp)).append hlevel).append (.of_ascii (by simp))).append hnames).append
    (.of_ascii (by simp))

/-! ### Values and frames -/

variable {s : Store} {v : Value} {n : Nat}

namespace Value

theorem descends_dump (s : Store) : Descends s (dump s) where
  zero _ := rfl
  succ n v := by
    cases v with
    | list r | array _ r => rw [dump, Option.isSome_map, parts, textsWith_isSome]
    | map r => rw [dump, Option.isSome_map, parts, entryTexts_isSome]
    | _ => simp [dump, parts]

/-- A value has a dump if and only if it has a text. -/
theorem dump_isSome_iff_display : (∃ n, (v.dump s n).isSome) ↔ ∃ n, (v.display s n).isSome := by
  rw [(descends_dump s).isSome_iff_acc, display_isSome_iff_acc]

end Value

namespace Env

variable {env : Env}

def cells (env : Env) : List Ref := env.flatMap fun frame => frame.layout.mapIdx fun i _ => frame.base + i

theorem isSome_mapM {α β : Type} {f : α → Option β} {as : List α} :
    (as.mapM f).isSome ↔ ∀ a ∈ as, (f a).isSome := by
  induction as with
  | nil => simp
  | cons a as ih =>
    rw [List.mapM_cons, List.forall_mem_cons, ← ih]
    cases f a <;> cases as.mapM f <;> simp

theorem dump_isSome : (env.dump s n).isSome ↔ ∀ r ∈ env.cells, ((s.cell r).dump s n).isSome := by
  induction env with
  | nil => simp [dump, cells]
  | cons frame env ih =>
    let entry (slot : String × Ref) : Option String := do
      let t ← (s.cell slot.2).dump s n
      pure ("Name(" ++ Text.quoted slot.1 ++ "): Variable(" ++ t ++ ")")
    let slots := frame.layout.mapIdx fun i slot => (slot.name, frame.base + i)
    have hentry (slot : String × Ref) : (entry slot).isSome ↔ ((s.cell slot.2).dump s n).isSome := by
      cases h : (s.cell slot.2).dump s n <;> simp [entry, h]
    have hcells : cells (frame :: env) = slots.map Prod.snd ++ cells env := by
      simp [cells, slots, List.mapIdx_eq_zipIdx_map]
    -- The dump of the frames outside follows that of the slots, where there are any.
    have hdump : (dump s n (frame :: env)).isSome ↔ (slots.mapM entry).isSome ∧ (dump s n env).isSome := by
      have hrun : dump s n (frame :: env) = (do
          let inner := Value.braced (← slots.mapM entry)
          if env.isEmpty then pure inner else pure (inner ++ " <- " ++ (← dump s n env))) := rfl
      rw [hrun]
      cases slots.mapM entry with
      | none => simp
      | some texts =>
        cases env with
        | nil => simp [dump]
        | cons f env => cases dump s n (f :: env) <;> simp
    rw [hdump, hcells, List.forall_mem_append, ← ih, isSome_mapM, List.forall_mem_map]
    simp only [hentry]

/-- Frames have a dump if and only if no container in reach of their cells contains itself. -/
theorem dump_ends_iff : (∃ n, (env.dump s n).isSome) ↔ ∀ r ∈ env.cells, AcyclicBelow (Value.PartOf s) (s.cell r) := by
  simp only [Value.acyclicBelow_iff_acc, ← (Value.descends_dump s).isSome_iff_acc]
  constructor
  · rintro ⟨n, h⟩ r hr
    exact ⟨n, dump_isSome.mp h r hr⟩
  · intro h
    obtain ⟨n, hn⟩ := exists_common_fuel (f := fun n r => (s.cell r).dump s n)
      (fun _ _ _ hnm => (Value.descends_dump s).mono hnm) h
    exact ⟨n, dump_isSome.mpr hn⟩

end Env

end ExprCore
