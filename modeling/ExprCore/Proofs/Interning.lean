import ExprCore.Interner
import Mathlib.Data.Finset.Dedup
import Mathlib.Data.Finset.Card

/-!
Names stand for strings one to one. Each shard numbers its strings in the order in which they came and
remembers the number of each, and a string is only ever held by its own shard. A request adds at most one
string and moves none, so names stay good for all later requests.
-/

namespace ExprCore
set_option autoImplicit false

namespace Name

variable {k i : Nat}

theorem toNat_ofParts (hk : k < 16) (hi : i < 0x10000000) :
    (ofParts k i).raw.toNat = k * 0x10000000 + i := by
  unfold ofParts
  rw [UInt32.toNat_ofNat_of_lt', Nat.shiftLeft_eq]
  rw [Nat.shiftLeft_eq, UInt32.size]
  omega

theorem shard_ofParts (hk : k < 16) (hi : i < 0x10000000) : (ofParts k i).shard = k := by
  rw [shard, toNat_ofParts hk hi, Nat.shiftRight_eq_div_pow]
  omega

theorem index_ofParts (hk : k < 16) (hi : i < 0x10000000) : (ofParts k i).index = i := by
  rw [index, toNat_ofParts hk hi]
  omega

theorem eq_of_parts {n n' : Name} (hs : n.shard = n'.shard) (hi : n.index = n'.index) : n = n' := by
  unfold shard at hs
  unfold index at hi
  rw [Nat.shiftRight_eq_div_pow, Nat.shiftRight_eq_div_pow] at hs
  have hraw : n.raw = n'.raw := UInt32.toNat_inj.mp (by omega)
  cases n
  cases n'
  cases hraw
  rfl

end Name

def Shard.Numbered (shard : Shard) : Prop :=
  ∀ (text : String) (i : Nat), shard.numbers.lookup text = some i ↔ shard.strings[i]? = some text

theorem Shard.Numbered.push {shard : Shard} {text : String} (h : shard.Numbered)
    (hnew : shard.numbers.lookup text = none) : (shard.push text).Numbered := by
  intro other i
  rw [Shard.push, Array.getElem?_push]
  by_cases hother : other = text
  · subst hother
    rw [List.lookup_cons_self, Option.some_inj]
    by_cases hi : i = shard.strings.size
    · rw [if_pos hi]
      exact iff_of_true hi.symm rfl
    · rw [if_neg hi, ← h other i, hnew]
      exact iff_of_false (Ne.symm hi) nofun
  · rw [List.lookup_cons, beq_false_of_ne hother]
    by_cases hi : i = shard.strings.size
    · rw [if_pos hi, h other i, hi, Option.some_inj]
      exact iff_of_false (by simp) (Ne.symm hother)
    · rw [if_neg hi]
      exact h other i

namespace Interner

variable {t t' : Interner} {n n' : Name} {text text' : String} {known : Finset String}

def shard (t : Interner) (k : Fin 16) : Shard := t.shards.get k

theorem shard_set (shards : Vector Shard 16) (k j : Fin 16) (part : Shard) (count : Nat) :
    shard ⟨shards.set k part k.isLt, count⟩ j = if j = k then part else shards.get j := by
  show (shards.set k part k.isLt)[j.val] = _
  rw [Vector.getElem_set]
  simp only [Fin.ext_iff, eq_comm]
  rfl

/-- The strings are numbered, each in its own shard, and they are the known ones. -/
structure Sound (t : Interner) (known : Finset String) : Prop where
  numbered : ∀ k, (t.shard k).Numbered
  home : ∀ k, ∀ text ∈ (t.shard k).strings, k = shardFor text
  held : ∀ text, text ∈ known ↔ text ∈ (t.shard (shardFor text)).strings
  small : ∀ k, (t.shard k).strings.size ≤ 0x10000000
  count_eq : t.count = known.card

theorem Sound.mem_iff (h : t.Sound known) :
    text ∈ known ↔ ((t.shard (shardFor text)).numbers.lookup text).isSome = true := by
  rw [h.held text, Array.mem_iff_getElem?, Option.isSome_iff_exists]
  exact exists_congr fun i => (h.numbered _ text i).symm

theorem Sound.add {k : Fin 16} (h : t.Sound known) (hk : shardFor text = k)
    (hnew : (t.shard k).numbers.lookup text = none) (hroom : (t.shard k).strings.size < 0x10000000) :
    Sound ⟨t.shards.set k ((t.shard k).push text) k.isLt, t.count + 1⟩ (insert text known) where
  numbered j := by
    rw [shard_set]
    split
    · exact (h.numbered k).push hnew
    · exact h.numbered j
  home j other hm := by
    rw [shard_set] at hm
    split at hm
    · rename_i hj
      rcases Array.mem_push.mp hm with hm | rfl
      · exact hj ▸ h.home k other hm
      · exact hj.trans hk.symm
    · exact h.home j other hm
  held other := by
    rw [shard_set, Finset.mem_insert, h.held other]
    split
    · rename_i hj
      rw [hj, Shard.push, Array.mem_push, or_comm]
    · rename_i hj
      exact or_iff_right fun ho => hj (ho ▸ hk)
  small j := by
    rw [shard_set]
    split
    · rw [Shard.push, Array.size_push]
      exact hroom
    · exact h.small j
  count_eq := by
    have hmem : text ∉ known := by
      rw [h.mem_iff, hk, hnew]
      exact Bool.false_ne_true
    rw [Finset.card_insert_of_notMem hmem, ← h.count_eq]

theorem shardFor_empty : shardFor "" = 0 := by decide +kernel

theorem sound_new : new.Sound {""} := by
  have hshard (k : Fin 16) : shard ⟨Vector.replicate 16 {}, 0⟩ k = {} :=
    Vector.getElem_replicate k.isLt
  have hempty : Sound ⟨Vector.replicate 16 {}, 0⟩ ∅ := by
    constructor
    · intro k text i
      rw [hshard]
      exact iff_of_false nofun (by simp)
    · simp [hshard]
    · simp [hshard]
    · simp [hshard]
    · rfl
  have hadd := hempty.add (k := 0) shardFor_empty (by rw [hshard]; rfl) (by rw [hshard]; decide)
  rw [hshard] at hadd
  exact hadd

/-- A name stands for a string. -/
def Names (t : Interner) (n : Name) (text : String) : Prop :=
  ∃ k : Fin 16, n.shard = k ∧ (t.shard k).strings[n.index]? = some text

theorem Names.lookup_eq (h : t.Names n text) : t.lookup n = text := by
  obtain ⟨k, hk, hi⟩ := h
  have hs : t.shards[n.shard]? = some (t.shard k) := by
    rw [hk]
    exact Vector.getElem?_eq_getElem k.isLt
  rw [lookup, hs, Option.bind_some, hi, Option.getD_some]

/-- In a sound interner names stand for strings one to one. -/
theorem Sound.eq_iff (h : t.Sound known) (hn : t.Names n text) (hn' : t.Names n' text') :
    n = n' ↔ text = text' := by
  obtain ⟨k, hk, hi⟩ := hn
  obtain ⟨k', hk', hi'⟩ := hn'
  constructor
  · rintro rfl
    have hkk : k = k' := Fin.ext (hk.symm.trans hk')
    rw [hkk, hi'] at hi
    exact (Option.some.inj hi).symm
  · rintro rfl
    have hkk : k = k' :=
      (h.home k _ (Array.mem_of_getElem? hi)).trans (h.home k' _ (Array.mem_of_getElem? hi')).symm
    subst hkk
    -- the map of the shard gives one number for the string
    have hl := (h.numbered k _ _).mpr hi
    rw [(h.numbered k _ _).mpr hi'] at hl
    exact Name.eq_of_parts (hk.trans hk'.symm) (Option.some.inj hl).symm

def Extends (t t' : Interner) : Prop :=
  ∀ k, (t.shard k).strings.toList <+: (t'.shard k).strings.toList

theorem Extends.refl (t : Interner) : t.Extends t := fun _ => List.prefix_refl _

theorem Extends.trans {t'' : Interner} (h : t.Extends t') (h' : t'.Extends t'') : t.Extends t'' :=
  fun k => (h k).trans (h' k)

theorem Extends.size_le (h : t.Extends t') (k : Fin 16) :
    (t.shard k).strings.size ≤ (t'.shard k).strings.size := (h k).length_le

theorem Names.mono (hn : t.Names n text) (h : t.Extends t') : t'.Names n text := by
  obtain ⟨k, hk, hi⟩ := hn
  refine ⟨k, hk, ?_⟩
  obtain ⟨rest, hrest⟩ := h k
  rw [← Array.getElem?_toList] at hi ⊢
  rw [← hrest, List.getElem?_append_left (List.getElem?_eq_some_iff.mp hi).1]
  exact hi

theorem extends_set {k : Fin 16} (count : Nat) :
    t.Extends ⟨t.shards.set k ((t.shard k).push text) k.isLt, count⟩ := by
  intro j
  rw [shard_set]
  split
  · rename_i hj
    rw [hj, Shard.push, Array.toList_push]
    exact List.prefix_append _ _
  · exact List.prefix_refl _

theorem intern?_eq (t : Interner) (text : String) : t.intern? text =
    match (t.shard (shardFor text)).numbers.lookup text with
    | some i => some (.ofParts (shardFor text) i, t)
    | none =>
      if (t.shard (shardFor text)).strings.size < 0x10000000 then
        some (.ofParts (shardFor text) (t.shard (shardFor text)).strings.size,
          ⟨t.shards.set (shardFor text) ((t.shard (shardFor text)).push text) (shardFor text).isLt,
            t.count + 1⟩)
      else none := rfl

theorem extends_intern? (h : t.intern? text = some (n, t')) : t.Extends t' := by
  rw [intern?_eq] at h
  split at h
  · cases h
    exact .refl t
  · split at h
    · cases h
      exact extends_set _
    · cases h

theorem Sound.intern (h : t.Sound known) (hroom : (t.shard (shardFor text)).strings.size < 0x10000000) :
    ∃ n t', t.intern? text = some (n, t') ∧ t'.Sound (insert text known) ∧ t'.Names n text := by
  generalize hk : shardFor text = k at hroom
  cases hl : (t.shard k).numbers.lookup text with
  | some i =>
    have hi := (h.numbered k text i).mp hl
    have hlt : i < 0x10000000 :=
      Nat.lt_of_lt_of_le (Array.getElem?_eq_some_iff.mp hi).1 (h.small k)
    have hknown : text ∈ known := by
      rw [h.mem_iff, hk, hl]
      rfl
    refine ⟨.ofParts k i, t, ?_, ?_, k, Name.shard_ofParts k.isLt hlt, ?_⟩
    · rw [intern?_eq, hk, hl]
    · rwa [Finset.insert_eq_of_mem hknown]
    · rwa [Name.index_ofParts k.isLt hlt]
  | none =>
    refine ⟨.ofParts k (t.shard k).strings.size, _, ?_, h.add hk hl hroom, k,
      Name.shard_ofParts k.isLt hroom, ?_⟩
    · rw [intern?_eq, hk, hl]
      exact if_pos hroom
    · rw [Name.index_ofParts k.isLt hroom, shard_set, if_pos rfl, Shard.push, Array.getElem?_push_size]

inductive Request where
  | intern (text : String)
  | lookup (n : Name)

inductive Answer where
  | name (n : Name)
  | full
  | text (text : String)

def answer (t : Interner) : Request → Answer × Interner
  | .intern text =>
    match t.intern? text with
    | some (n, t) => (.name n, t)
    | none => (.full, t)
  | .lookup n => (.text (t.lookup n), t)

def serve (t : Interner) : List Request → List Answer × Interner
  | [] => ([], t)
  | r :: rs =>
    let (a, t) := t.answer r
    let (as, t) := t.serve rs
    (a :: as, t)

/-- The strings that are interned. -/
def texts (rs : List Request) : List String :=
  rs.filterMap fun
    | .intern text => some text
    | .lookup _ => none

theorem serve_append (t : Interner) (rs rs' : List Request) : t.serve (rs ++ rs') =
    ((t.serve rs).1 ++ ((t.serve rs).2.serve rs').1, ((t.serve rs).2.serve rs').2) := by
  induction rs generalizing t with
  | nil => rfl
  | cons r rs ih => simp [serve, ih]

theorem getElem?_serve (t : Interner) (rs : List Request) (i : Nat) :
    (t.serve rs).1[i]? = rs[i]?.map fun r => ((t.serve (rs.take i)).2.answer r).1 := by
  induction rs generalizing t i with
  | nil => rfl
  | cons r rs ih =>
    cases i with
    | zero => rfl
    | succ i => simp [serve, ih]

theorem extends_answer (t : Interner) (r : Request) : t.Extends (t.answer r).2 := by
  cases r with
  | intern text =>
    unfold answer
    dsimp only
    split
    · rename_i h
      exact extends_intern? h
    · exact .refl t
  | lookup => exact .refl t

theorem extends_serve (t : Interner) (rs : List Request) : t.Extends (t.serve rs).2 := by
  induction rs generalizing t with
  | nil => exact .refl t
  | cons r rs ih => exact (extends_answer t r).trans (ih _)

theorem extends_take (t : Interner) (rs : List Request) {i j : Nat} (h : i ≤ j) :
    (t.serve (rs.take i)).2.Extends (t.serve (rs.take j)).2 := by
  have hsplit : rs.take j = rs.take i ++ (rs.take j).drop i := by
    conv_lhs => rw [← List.take_append_drop i (rs.take j), List.take_take, Nat.min_eq_left h]
  rw [hsplit, serve_append]
  exact extends_serve _ _

def Roomy (t : Interner) : Prop := ∀ k, (t.shard k).strings.size < 0x10000000

theorem Roomy.of_extends (h : t'.Roomy) (he : t.Extends t') : t.Roomy := fun k =>
  Nat.lt_of_le_of_lt (he.size_le k) (h k)

theorem answer_intern (h : t.intern? text = some (n, t')) :
    t.answer (.intern text) = (.name n, t') := by
  unfold answer
  simp only [h]

theorem Sound.serve {rs : List Request} (h : t.Sound known) (hroom : (t.serve rs).2.Roomy) :
    (t.serve rs).2.Sound (known ∪ (texts rs).toFinset) := by
  induction rs generalizing t known with
  | nil => rwa [texts, List.filterMap_nil, List.toFinset_nil, Finset.union_empty]
  | cons r rs ih =>
    cases r with
    | lookup n => exact ih h hroom
    | intern text =>
      have htext := hroom.of_extends (extends_serve t (.intern text :: rs)) (shardFor text)
      obtain ⟨n, t', hi, hsound, -⟩ := h.intern htext
      have hserve : (t.serve (.intern text :: rs)).2 = (t'.serve rs).2 := by
        simp only [Interner.serve, answer_intern hi]
      rw [hserve] at hroom ⊢
      have hrest := ih hsound hroom
      rwa [Finset.insert_union, ← Finset.union_insert, ← List.toFinset_cons] at hrest

/-- The requests before one that interns a string leave an interner that names it, for good. -/
theorem names_of_intern {rs : List Request} (hroom : (new.serve rs).2.Roomy) {i : Nat}
    (hr : rs[i]? = some (.intern text)) :
    ∃ n, (new.serve rs).1[i]? = some (.name n) ∧
      ∀ j, i < j → (new.serve (rs.take j)).2.Names n text := by
  have hfinal : (new.serve (rs.take i)).2.Extends (new.serve rs).2 := by
    have htake := extends_take new rs (Nat.le_of_lt (List.getElem?_eq_some_iff.mp hr).1)
    rwa [List.take_length] at htake
  have hbefore := sound_new.serve (hroom.of_extends hfinal)
  obtain ⟨n, t', hi, -, hn⟩ := hbefore.intern (hroom.of_extends hfinal (shardFor text))
  refine ⟨n, ?_, fun j hij => ?_⟩
  · rw [getElem?_serve, hr, Option.map_some, answer_intern hi]
  · have hnext : (new.serve (rs.take (i + 1))).2 = t' := by
      rw [List.take_add_one, hr, serve_append]
      simp only [Option.toList_some, Interner.serve, answer_intern hi]
    exact (hnext ▸ hn).mono (extends_take new rs hij)

/-- Names are given to strings one to one and for good, the empty string has the empty name, and the count
is that of the different strings, the empty one always among them. -/
theorem names_stable {requests : List Request} (hroom : (new.serve requests).2.Roomy) :
    (∀ (i : Nat) (text : String), requests[i]? = some (.intern text) →
      ∃ n, (new.serve requests).1[i]? = some (.name n)) ∧
    (∀ (i j : Nat) (text text' : String) (n n' : Name), requests[i]? = some (.intern text) →
      requests[j]? = some (.intern text') → (new.serve requests).1[i]? = some (.name n) →
      (new.serve requests).1[j]? = some (.name n') → (n = n' ↔ text = text')) ∧
    (∀ (i j : Nat) (text : String) (n : Name), i < j → requests[i]? = some (.intern text) →
      (new.serve requests).1[i]? = some (.name n) → requests[j]? = some (.lookup n) →
      (new.serve requests).1[j]? = some (.text text)) ∧
    (∀ i : Nat, requests[i]? = some (.intern "") →
      (new.serve requests).1[i]? = some (.name .empty)) ∧
    (new.serve requests).2.count = 1 + ((texts requests).toFinset.erase "").card := by
  have hsound := sound_new.serve hroom
  -- a returned name stands for its string whenever it is looked up, and in the end
  have hnames {i : Nat} {text : String} {n : Name} (hr : requests[i]? = some (.intern text))
      (ha : (new.serve requests).1[i]? = some (.name n)) {j : Nat} (hij : i < j) :
      (new.serve (requests.take j)).2.Names n text := by
    obtain ⟨n', ha', hn⟩ := names_of_intern hroom hr
    rw [ha'] at ha
    cases ha
    exact hn j hij
  have hend {i : Nat} {text : String} {n : Name} (hr : requests[i]? = some (.intern text))
      (ha : (new.serve requests).1[i]? = some (.name n)) : (new.serve requests).2.Names n text := by
    have hlast := hnames hr ha (List.getElem?_eq_some_iff.mp hr).1
    rwa [List.take_length] at hlast
  refine ⟨fun i text hr => ?_, fun i j text text' n n' hr hr' ha ha' => ?_,
    fun i j text n hij hr ha hl => ?_, fun i hr => ?_, ?_⟩
  · obtain ⟨n, hn, -⟩ := names_of_intern hroom hr
    exact ⟨n, hn⟩
  · exact hsound.eq_iff (hend hr ha) (hend hr' ha')
  · rw [getElem?_serve, hl, Option.map_some, answer, (hnames hr ha hij).lookup_eq]
  · obtain ⟨n, hn, -⟩ := names_of_intern hroom hr
    have hempty : (new.serve requests).2.Names .empty "" :=
      Names.mono ⟨0, rfl, rfl⟩ (extends_serve new requests)
    rw [hn, (hsound.eq_iff (hend hr hn) hempty).mpr rfl]
  · rw [hsound.count_eq, ← Finset.insert_eq, Nat.add_comm]
    have hsplit : insert "" (texts requests).toFinset =
        insert "" ((texts requests).toFinset.erase "") := by
      ext text
      by_cases h : text = "" <;> simp [h]
    rw [hsplit, Finset.card_insert_of_notMem (Finset.notMem_erase _ _)]

/-- Strings that agree in their first eight bytes, and so share a shard, get different names. -/
theorem names_stable_shared_shard :
    let requests : List Request := [.intern "position1", .intern "position2", .intern ""]
    (new.serve requests).2.Roomy ∧ shardFor "position1" = shardFor "position2" ∧
      ∃ n n', (new.serve requests).1[0]? = some (.name n) ∧
        (new.serve requests).1[1]? = some (.name n') ∧ n ≠ n' ∧
        (new.serve requests).1[2]? = some (.name .empty) ∧ (new.serve requests).2.count = 3 := by
  intro requests
  have hroom : (new.serve requests).2.Roomy := by
    unfold Roomy
    decide +kernel
  obtain ⟨hall, hiff, -, hempty, hcount⟩ := names_stable hroom
  obtain ⟨n, hn⟩ := hall 0 _ rfl
  obtain ⟨n', hn'⟩ := hall 1 _ rfl
  refine ⟨hroom, by decide +kernel, n, n', hn, hn', fun h => ?_, hempty 2 rfl, ?_⟩
  · have htext := (hiff 0 1 _ _ n n' rfl rfl hn hn').mp h
    exact absurd htext (by decide)
  · rw [hcount]
    decide

end Interner

end ExprCore
