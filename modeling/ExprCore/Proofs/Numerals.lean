import ExprCore.Coerce
import ExprCore.Proofs.Integers
import Mathlib.Data.List.TakeWhile

/-!
The lax reading of numbers from text. Decimal numerals are described by how they are written: an optional sign,
digits with an optional point, and an optional exponent. Text between blanks is read as a number if it is a
decimal numeral, and besides only if it is a name of infinity or of "not a number".
-/

namespace ExprCore
set_option autoImplicit false

namespace Text

def Padded (m s : List Char) : Prop :=
  ∃ front back, s = front ++ m ++ back ∧ (∀ c ∈ front, isBlank c = true) ∧ ∀ c ∈ back, isBlank c = true

def Solid (s : List Char) : Prop := ∀ c ∈ s, isBlank c = false

variable {m s front : List Char}

theorem Solid.append {s' : List Char} (h : Solid s) (h' : Solid s') : Solid (s ++ s') := by
  intro c hc
  rcases List.mem_append.mp hc with hc | hc
  · exact h c hc
  · exact h' c hc

theorem isBlank_of_isDigit {c : Char} (h : c.isDigit = true) : isBlank c = false := by
  have hc : 48 ≤ c.toNat ∧ c.toNat ≤ 57 := by simpa [Char.isDigit, UInt32.le_iff_toNat_le] using h
  simp only [isBlank, Bool.or_eq_false_iff, Bool.and_eq_false_iff, decide_eq_false_iff_not, beq_eq_false_iff_ne]
  omega

theorem padded_trim (s : List Char) : Padded (trim s) s := by
  let rest := s.dropWhile isBlank
  refine ⟨s.takeWhile isBlank, (rest.reverse.takeWhile isBlank).reverse, ?_, ?_, ?_⟩
  · have hback : trim s ++ (rest.reverse.takeWhile isBlank).reverse = rest := by
      rw [trim, ← List.reverse_append, List.takeWhile_append_dropWhile, List.reverse_reverse]
    rw [List.append_assoc, hback, List.takeWhile_append_dropWhile]
  · intro c hc
    exact List.mem_takeWhile_imp hc
  · intro c hc
    exact List.mem_takeWhile_imp (List.mem_reverse.mp hc)

theorem dropWhile_blanks (hf : ∀ c ∈ front, isBlank c = true) (hm : Solid m) :
    (front ++ m).dropWhile isBlank = m := by
  rw [List.dropWhile_append_of_pos hf]
  cases m with
  | nil => rfl
  | cons c m => exact List.dropWhile_cons_of_neg (by simp [hm c List.mem_cons_self])

theorem Padded.trim_eq (h : Padded m s) (hm : Solid m) : trim s = m := by
  obtain ⟨front, back, rfl, hf, hb⟩ := h
  rw [trim, List.append_assoc, List.dropWhile_append_of_pos hf]
  have hreverse : Solid m.reverse := fun c hc => hm c (List.mem_reverse.mp hc)
  have hback : ∀ c ∈ back.reverse, isBlank c = true := fun c hc => hb c (List.mem_reverse.mp hc)
  cases m with
  | nil =>
    rw [List.nil_append, List.dropWhile_eq_nil_iff.mpr hb]
    rfl
  | cons c m =>
    rw [List.cons_append, List.dropWhile_cons_of_neg (by simp [hm c List.mem_cons_self]), ← List.cons_append,
      List.reverse_append, dropWhile_blanks hback hreverse, List.reverse_reverse]

theorem exists_padded_iff {p : List Char → Prop} (hp : ∀ m, p m → Solid m) :
    (∃ m, Padded m s ∧ p m) ↔ p (trim s) := by
  constructor
  · rintro ⟨m, hm, h⟩
    rwa [hm.trim_eq (hp m h)]
  · exact fun h => ⟨_, padded_trim s, h⟩

end Text

namespace Numeral

/-- An optional sign, which is minus or not. -/
inductive IsSign : List Char → Bool → Prop where
  | none : IsSign [] false
  | plus : IsSign ['+'] false
  | minus : IsSign ['-'] true

def Digits (s : List Char) : Prop := ∀ c ∈ s, c.isDigit = true

/-- How an integer is written: digits with an optional sign. -/
inductive IsInteger : List Char → Int → Prop where
  | digits {sign ds : List Char} {negative : Bool} (hs : IsSign sign negative) (hne : ds ≠ []) (hd : Digits ds) :
    IsInteger (sign ++ ds) (if negative then -(ofDigits ds : Int) else ofDigits ds)

/-- An optional point with the digits behind it. -/
inductive IsFraction : List Char → List Char → Prop where
  | none : IsFraction [] []
  | point {ds : List Char} (hd : Digits ds) : IsFraction ('.' :: ds) ds

/-- An optional exponent. -/
inductive IsExponent : List Char → Int → Prop where
  | none : IsExponent [] 0
  | mark {c : Char} {s : List Char} {n : Int} (hc : c = 'e' ∨ c = 'E') (h : IsInteger s n) : IsExponent (c :: s) n

/-- How a decimal numeral is written. It has a digit before the point or after it. -/
inductive IsDecimal : List Char → Decimal → Prop where
  | parts {sign whole point fraction tail : List Char} {negative : Bool} {exponent : Int}
    (hs : IsSign sign negative) (hw : Digits whole) (hf : IsFraction point fraction)
    (he : IsExponent tail exponent) (hne : whole ≠ [] ∨ fraction ≠ []) :
    IsDecimal (sign ++ (whole ++ (point ++ tail))) ⟨negative, whole, fraction, exponent⟩

def lower (s : List Char) : String := String.ofList (s.map Char.toLower)

/-- The names of infinity and of "not a number", in any case and with an optional sign. -/
inductive IsName : List Char → Float → Prop where
  | infinite {sign name : List Char} {negative : Bool} (hs : IsSign sign negative)
    (hn : lower name = "inf" ∨ lower name = "infinity") :
    IsName (sign ++ name) (if negative then -1.0 / 0.0 else 1.0 / 0.0)
  | nan {sign name : List Char} {negative : Bool} (hs : IsSign sign negative) (hn : lower name = "nan") :
    IsName (sign ++ name) (0.0 / 0.0)

/-- How a decimal numeral is read: as an integer of the smallest type that holds it, or else as a floating-point
number. -/
inductive Reads : List Char → Value → Prop where
  | int {s : List Char} {n : Int} (h : IsInteger s n) (hn : Ty.int.Holds n) : Reads s (.int (Int32.ofInt n))
  | long {s : List Char} {n : Int} (h : IsInteger s n) (hn : ¬Ty.int.Holds n) (hl : Ty.long.Holds n) :
    Reads s (.long (Int64.ofInt n))
  | double {s : List Char} {d : Decimal} (h : IsDecimal s d) (hn : ∀ n, IsInteger s n → ¬Ty.long.Holds n) :
    Reads s (.double d.toFloat)

variable {s sgn body whole rest point fraction tail : List Char} {negative : Bool} {n : Int} {d : Decimal} {x : Float}

theorem exists_sign (s : List Char) :
    ∃ sgn negative body, IsSign sgn negative ∧ s = sgn ++ body ∧ sign s = (negative, body) := by
  unfold sign
  split
  · exact ⟨['-'], _, _, .minus, rfl, rfl⟩
  · exact ⟨['+'], _, _, .plus, rfl, rfl⟩
  · exact ⟨[], _, _, .none, rfl, rfl⟩

theorem IsSign.sign_append (h : IsSign sgn negative) (hr : ∀ c ∈ rest.head?, c ≠ '-' ∧ c ≠ '+') :
    sign (sgn ++ rest) = (negative, rest) := by
  cases h with
  | none =>
    rw [List.nil_append]
    unfold sign
    split
    · exact absurd rfl (hr '-' rfl).1
    · exact absurd rfl (hr '+' rfl).2
    · rfl
  | plus => rfl
  | minus => rfl

theorem ne_sign_of_isDigit {c : Char} (h : c.isDigit = true) : c ≠ '-' ∧ c ≠ '+' := by
  constructor
  · rintro rfl
    exact absurd h (by decide)
  · rintro rfl
    exact absurd h (by decide)

theorem isDigits_iff : isDigits s = true ↔ s ≠ [] ∧ Digits s := by
  simp [isDigits, Digits]

theorem int?_eq_some_iff : int? s = some n ↔ IsInteger s n := by
  constructor
  · intro h
    obtain ⟨sgn, negative, body, hs, rfl, hsign⟩ := exists_sign s
    simp only [int?, hsign] at h
    split at h
    · rename_i hd
      obtain ⟨hne, hd⟩ := isDigits_iff.mp hd
      cases h
      exact .digits hs hne hd
    · cases h
  · intro h
    cases h with
    | @digits sgn ds negative hs hne hd =>
      have hsign : sign (sgn ++ ds) = (negative, ds) := by
        apply hs.sign_append
        exact fun c hc => ne_sign_of_isDigit (hd c (List.mem_of_mem_head? hc))
      simp only [int?, hsign]
      exact if_pos (isDigits_iff.mpr ⟨hne, hd⟩)

theorem exponent?_eq_some_iff : exponent? s = some n ↔ IsExponent s n := by
  constructor
  · intro h
    unfold exponent? at h
    split at h
    · cases h
      exact .none
    · exact .mark (.inl rfl) (int?_eq_some_iff.mp h)
    · exact .mark (.inr rfl) (int?_eq_some_iff.mp h)
    · cases h
  · intro h
    cases h with
    | none => rfl
    | mark hc h =>
      have hn := int?_eq_some_iff.mpr h
      rcases hc with rfl | rfl <;> exact hn

def cutFraction : List Char → List Char × List Char
  | '.' :: s => (s.takeWhile Char.isDigit, s.dropWhile Char.isDigit)
  | s => ([], s)

theorem digits_takeWhile (s : List Char) : Digits (s.takeWhile Char.isDigit) :=
  fun _ hc => List.mem_takeWhile_imp hc

theorem Digits.takeWhile_append (hw : Digits whole) (hr : ∀ c ∈ rest.head?, c.isDigit = false) :
    (whole ++ rest).takeWhile Char.isDigit = whole ∧ (whole ++ rest).dropWhile Char.isDigit = rest := by
  rw [List.takeWhile_append_of_pos hw, List.dropWhile_append_of_pos hw]
  cases rest with
  | nil => simp
  | cons c rest =>
    have hc : ¬c.isDigit = true := by simp [hr c rfl]
    rw [List.takeWhile_cons_of_neg hc, List.dropWhile_cons_of_neg hc, List.append_nil]
    exact ⟨rfl, rfl⟩

theorem exists_fraction (s : List Char) :
    ∃ point fraction tail, IsFraction point fraction ∧ s = point ++ tail ∧ cutFraction s = (fraction, tail) := by
  unfold cutFraction
  split
  · rename_i s
    have hs : s = s.takeWhile Char.isDigit ++ s.dropWhile Char.isDigit := List.takeWhile_append_dropWhile.symm
    exact ⟨_, _, _, .point (digits_takeWhile s), congrArg _ hs, rfl⟩
  · exact ⟨[], _, _, .none, rfl, rfl⟩

theorem IsExponent.head (h : IsExponent tail n) : ∀ c ∈ tail.head?, c = 'e' ∨ c = 'E' := by
  cases h with
  | none => exact nofun
  | mark hc =>
    intro c h
    cases h
    exact hc

theorem IsFraction.cut_append (hf : IsFraction point fraction) (he : IsExponent tail n) :
    cutFraction (point ++ tail) = (fraction, tail) := by
  cases hf with
  | none =>
    rw [List.nil_append]
    unfold cutFraction
    split
    · have := he.head '.' rfl
      simp at this
    · rfl
  | point hd =>
    have htail : ∀ c ∈ tail.head?, c.isDigit = false := by
      intro c hc
      rcases he.head c hc with rfl | rfl <;> decide
    obtain ⟨htake, hdrop⟩ := hd.takeWhile_append htail
    rw [List.cons_append, cutFraction, htake, hdrop]

theorem decimal?_eq (hsign : sign s = (negative, body))
    (hcut : cutFraction (body.dropWhile Char.isDigit) = (fraction, tail)) :
    decimal? s =
      if body.takeWhile Char.isDigit = [] ∧ fraction = [] then none
      else (exponent? tail).map fun n => ⟨negative, body.takeWhile Char.isDigit, fraction, n⟩ := by
  have hparts : decimal? s = (do
      let cut := cutFraction (body.dropWhile Char.isDigit)
      guard (!((body.takeWhile Char.isDigit).isEmpty && cut.1.isEmpty))
      let n ← exponent? cut.2
      pure ⟨negative, body.takeWhile Char.isDigit, cut.1, n⟩) := by
    unfold decimal?
    rw [hsign]
    rfl
  rw [hparts, hcut]
  by_cases hne : body.takeWhile Char.isDigit = [] ∧ fraction = []
  · rw [if_pos hne, hne.1, hne.2]
    rfl
  · have hguard : (guard ((!((body.takeWhile Char.isDigit).isEmpty && fraction.isEmpty)) = true) : Option Unit) =
        some () := by
      apply if_pos
      rw [Bool.not_eq_true', Bool.and_eq_false_iff, List.isEmpty_eq_false_iff, List.isEmpty_eq_false_iff]
      exact not_and_or.mp hne
    rw [if_neg hne]
    dsimp only
    rw [hguard]
    cases exponent? tail <;> rfl

theorem decimal?_eq_some_iff : decimal? s = some d ↔ IsDecimal s d := by
  constructor
  · intro h
    obtain ⟨sgn, negative, body, hs, rfl, hsign⟩ := exists_sign s
    obtain ⟨point, fraction, tail, hf, hrest, hcut⟩ := exists_fraction (body.dropWhile Char.isDigit)
    rw [decimal?_eq hsign hcut] at h
    split at h
    · cases h
    · rename_i hne
      obtain ⟨n, hn, rfl⟩ := Option.map_eq_some_iff.mp h
      have hbody : body = body.takeWhile Char.isDigit ++ (point ++ tail) := by
        rw [← hrest, List.takeWhile_append_dropWhile]
      have hparts := IsDecimal.parts hs (digits_takeWhile body) hf (exponent?_eq_some_iff.mp hn)
        (not_and_or.mp hne)
      rwa [← hbody] at hparts
  · intro h
    cases h with
    | @parts sgn whole point fraction tail negative n hs hw hf he hne =>
      have hrest : ∀ c ∈ (point ++ tail).head?, c = '.' ∨ c = 'e' ∨ c = 'E' := by
        cases hf with
        | none => exact fun c hc => .inr (he.head c hc)
        | point =>
          intro c hc
          cases hc
          exact .inl rfl
      have hdigits : ∀ c ∈ (point ++ tail).head?, c.isDigit = false := by
        intro c hc
        rcases hrest c hc with rfl | rfl | rfl <;> decide
      obtain ⟨htake, hdrop⟩ := hw.takeWhile_append hdigits
      have hsign : sign (sgn ++ (whole ++ (point ++ tail))) = (negative, whole ++ (point ++ tail)) := by
        apply hs.sign_append
        intro c hc
        cases whole with
        | nil => rcases hrest c hc with rfl | rfl | rfl <;> decide
        | cons a whole =>
          obtain rfl : a = c := by simpa using hc
          exact ne_sign_of_isDigit (hw a List.mem_cons_self)
      have hcut : cutFraction ((whole ++ (point ++ tail)).dropWhile Char.isDigit) = (fraction, tail) := by
        rw [hdrop, hf.cut_append he]
      rw [decimal?_eq hsign hcut, htake, if_neg (not_and_or.mpr hne), exponent?_eq_some_iff.mpr he]
      rfl

def Letter (c : Char) : Prop := (65 ≤ c.toNat ∧ c.toNat ≤ 90) ∨ (97 ≤ c.toNat ∧ c.toNat ≤ 122)

theorem letter_of_toLower {c : Char} (h : 97 ≤ c.toLower.toNat ∧ c.toLower.toNat ≤ 122) : Letter c := by
  unfold Char.toLower at h
  split at h
  · rename_i hc
    exact .inl (by simpa [UInt32.le_iff_toNat_le] using hc)
  · exact .inr h

namespace Letter

variable {c : Char}

theorem isDigit_eq (h : Letter c) : c.isDigit = false := by
  rw [Bool.eq_false_iff]
  intro hd
  have hd : 48 ≤ c.toNat ∧ c.toNat ≤ 57 := by simpa [Char.isDigit, UInt32.le_iff_toNat_le] using hd
  unfold Letter at h
  omega

theorem isBlank_eq (h : Letter c) : Text.isBlank c = false := by
  unfold Letter at h
  simp only [Text.isBlank, Bool.or_eq_false_iff, Bool.and_eq_false_iff, decide_eq_false_iff_not,
    beq_eq_false_iff_ne]
  omega

theorem ne (h : Letter c) : c ≠ '-' ∧ c ≠ '+' ∧ c ≠ '.' := by
  refine ⟨?_, ?_, ?_⟩ <;> rintro rfl <;> exact absurd h (by unfold Letter; decide)

end Letter

theorem letters_of_lower {name : List Char} (h : lower name ∈ ["inf", "infinity", "nan"]) :
    name ≠ [] ∧ ∀ c ∈ name, Letter c := by
  have hlower : name.map Char.toLower ∈ ["inf", "infinity", "nan"].map String.toList := by
    simpa [lower] using List.mem_map_of_mem (f := String.toList) h
  constructor
  · rintro rfl
    exact absurd hlower (by decide)
  · intro c hc
    have hall : ((["inf", "infinity", "nan"].map String.toList).all fun name =>
        name.all fun c => decide (97 ≤ c.toNat ∧ c.toNat ≤ 122)) = true := rfl
    have hname := List.all_eq_true.mp (List.all_eq_true.mp hall _ hlower) _ (List.mem_map_of_mem hc)
    exact letter_of_toLower (of_decide_eq_true hname)

theorem IsName.letters (h : IsName s x) :
    ∃ sgn negative name, s = sgn ++ name ∧ IsSign sgn negative ∧ name ≠ [] ∧ ∀ c ∈ name, Letter c := by
  cases h with
  | infinite hs hn => exact ⟨_, _, _, rfl, hs, letters_of_lower (by rcases hn with hn | hn <;> simp [hn])⟩
  | nan hs hn => exact ⟨_, _, _, rfl, hs, letters_of_lower (by simp [hn])⟩

theorem IsSign.sign_letters {name : List Char} (hs : IsSign sgn negative) (hl : ∀ c ∈ name, Letter c) :
    sign (sgn ++ name) = (negative, name) := by
  apply hs.sign_append
  intro c hc
  have hne := (hl c (List.mem_of_mem_head? hc)).ne
  exact ⟨hne.1, hne.2.1⟩

theorem IsSign.solid (h : IsSign sgn negative) : Text.Solid sgn := by
  cases h with
  | none => exact nofun
  | plus | minus => exact fun c hc => by obtain rfl := List.mem_singleton.mp hc; decide

theorem Digits.solid (h : Digits s) : Text.Solid s := fun c hc => Text.isBlank_of_isDigit (h c hc)

theorem IsInteger.solid (h : IsInteger s n) : Text.Solid s := by
  cases h with
  | digits hs _ hd => exact hs.solid.append hd.solid

theorem IsExponent.solid (h : IsExponent s n) : Text.Solid s := by
  cases h with
  | none => exact nofun
  | mark hc h =>
    intro c hmem
    rcases List.mem_cons.mp hmem with rfl | hmem
    · rcases hc with rfl | rfl <;> decide
    · exact h.solid c hmem

theorem IsFraction.solid (h : IsFraction point fraction) : Text.Solid point := by
  cases h with
  | none => exact nofun
  | point hd =>
    intro c hc
    rcases List.mem_cons.mp hc with rfl | hc
    · decide
    · exact hd.solid c hc

theorem IsDecimal.solid (h : IsDecimal s d) : Text.Solid s := by
  cases h with
  | parts hs hw hf he => exact hs.solid.append (hw.solid.append (hf.solid.append he.solid))

theorem IsName.solid (h : IsName s x) : Text.Solid s := by
  obtain ⟨sgn, negative, name, rfl, hs, -, hl⟩ := h.letters
  exact hs.solid.append fun c hc => (hl c hc).isBlank_eq

theorem exists_padded_decimal_iff :
    (∃ m d, Text.Padded m s ∧ IsDecimal m d) ↔ ∃ d, IsDecimal (Text.trim s) d := by
  rw [← Text.exists_padded_iff (p := fun m => ∃ d, IsDecimal m d) fun m ⟨_, h⟩ => h.solid]
  simp only [exists_and_left]

/-- A letter stands where the digits of a decimal numeral would begin. -/
theorem IsName.decimal?_eq_none (h : IsName s x) : decimal? s = none := by
  obtain ⟨sgn, negative, name, rfl, hs, hne, hl⟩ := h.letters
  obtain ⟨c, name, rfl⟩ := List.exists_cons_of_ne_nil hne
  have hc := hl c List.mem_cons_self
  have hdigit : ¬c.isDigit = true := by simp [hc.isDigit_eq]
  have hcut : cutFraction ((c :: name).dropWhile Char.isDigit) = ([], c :: name) := by
    rw [List.dropWhile_cons_of_neg hdigit]
    unfold cutFraction
    split
    · rename_i heq
      cases heq
      exact absurd rfl hc.ne.2.2
    · rfl
  rw [decimal?_eq (hs.sign_letters hl) hcut, List.takeWhile_cons_of_neg hdigit, if_pos ⟨rfl, rfl⟩]

theorem IsName.not_isDecimal (h : IsName s x) : ¬IsDecimal s d := by
  intro hd
  cases (decimal?_eq_some_iff.mpr hd).symm.trans h.decimal?_eq_none

theorem double?_eq_some_iff : double? s = some x ↔ (∃ d, IsDecimal s d ∧ x = d.toFloat) ∨ IsName s x := by
  constructor
  · intro h
    unfold double? at h
    split at h
    · rename_i d hd
      cases h
      exact .inl ⟨d, decimal?_eq_some_iff.mp hd, rfl⟩
    · obtain ⟨sgn, negative, body, hs, rfl, hsign⟩ := exists_sign s
      simp only [hsign] at h
      split at h
      · rename_i hn
        cases h
        exact .inr (.infinite hs (.inl hn))
      · rename_i hn
        cases h
        exact .inr (.infinite hs (.inr hn))
      · rename_i hn
        cases h
        exact .inr (.nan hs hn)
      · cases h
  · rintro (⟨d, hd, rfl⟩ | h)
    · rw [double?, decimal?_eq_some_iff.mpr hd]
    · rw [double?, h.decimal?_eq_none]
      cases h with
      | @infinite sgn name negative hs hn =>
        have hl : ∀ c ∈ name, Letter c := (letters_of_lower (by rcases hn with hn | hn <;> simp [hn])).2
        unfold lower at hn
        rcases hn with hn | hn <;> simp only [hs.sign_letters hl, hn]
      | @nan sgn name negative hs hn =>
        have hl : ∀ c ∈ name, Letter c := (letters_of_lower (by simp [hn])).2
        unfold lower at hn
        simp only [hs.sign_letters hl, hn]

theorem IsInteger.isDecimal (h : IsInteger s n) : ∃ d, IsDecimal s d := by
  cases h with
  | @digits sgn ds negative hs hne hd =>
    have hparts := IsDecimal.parts hs hd .none .none (.inl hne)
    rw [List.append_nil, List.append_nil] at hparts
    exact ⟨_, hparts⟩

theorem Reads.isDecimal {v : Value} (h : Reads s v) : ∃ d, IsDecimal s d := by
  cases h with
  | int h | long h => exact h.isDecimal
  | double h => exact ⟨_, h⟩

theorem IsDecimal.reads (h : IsDecimal s d) : ∃ v, Reads s v := by
  by_cases hint : ∃ n, IsInteger s n ∧ Ty.long.Holds n
  · obtain ⟨n, hn, hlong⟩ := hint
    by_cases hfit : Ty.int.Holds n
    · exact ⟨_, .int hn hfit⟩
    · exact ⟨_, .long hn hfit hlong⟩
  · exact ⟨_, .double h fun n hn hlong => hint ⟨n, hn, hlong⟩⟩

end Numeral

namespace Value

open Numeral Text

variable {m s : List Char} {text : String} {v : Value} {n : Int}

theorem int?_of_holds (h : Ty.int.Holds n) : int? n = some (.int (Int32.ofInt n)) := if_pos h

theorem int?_of_not_holds (h : ¬Ty.int.Holds n) : int? n = none := if_neg h

theorem long?_of_holds (h : Ty.long.Holds n) : long? n = some (.long (Int64.ofInt n)) := if_pos h

theorem long?_of_not_holds (h : ¬Ty.long.Holds n) : long? n = none := if_neg h

theorem ofNumeral?_of_integer (h : IsInteger (trim text.toList) n) (hn : Ty.long.Holds n) :
    ofNumeral? text = (int? n).or (long? n) := by
  rw [ofNumeral?, int?_eq_some_iff.mpr h, Option.bind_some]
  rw [long?_of_holds hn]
  cases int? n <;> rfl

/-- Where there is no integer of 64 bits to read, a floating-point number is read. -/
theorem ofNumeral?_of_no_integer (h : ∀ n, IsInteger (trim text.toList) n → ¬Ty.long.Holds n) :
    ofNumeral? text = (double? (trim text.toList)).map .double := by
  have hnone : ((Numeral.int? (trim text.toList)).bind fun n => (int? n).or (long? n)) = none := by
    rw [Option.bind_eq_none_iff]
    intro n hn
    have hlong := h n (int?_eq_some_iff.mp hn)
    rw [int?_of_not_holds fun hint => hlong (Ty.holds_long_of_int hint), long?_of_not_holds hlong]
    rfl
  simp only [ofNumeral?, hnone]

theorem ofNumeral?_eq_some_iff :
    ofNumeral? text = some v ↔
      Reads (trim text.toList) v ∨ ∃ x, IsName (trim text.toList) x ∧ v = .double x := by
  have named {n : Int} {x : Float} (h : IsInteger (trim text.toList) n) : ¬IsName (trim text.toList) x := by
    intro hx
    obtain ⟨d, hd⟩ := h.isDecimal
    exact hx.not_isDecimal hd
  by_cases hint : ∃ n, IsInteger (trim text.toList) n ∧ Ty.long.Holds n
  · obtain ⟨n, hn, hlong⟩ := hint
    have unique {n' : Int} (h : IsInteger (trim text.toList) n') : n = n' :=
      Option.some.inj ((int?_eq_some_iff.mpr hn).symm.trans (int?_eq_some_iff.mpr h))
    rw [ofNumeral?_of_integer hn hlong]
    constructor
    · intro h
      by_cases hfit : Ty.int.Holds n
      · rw [int?_of_holds hfit] at h
        cases h
        exact .inl (.int hn hfit)
      · rw [int?_of_not_holds hfit, long?_of_holds hlong] at h
        cases h
        exact .inl (.long hn hfit hlong)
    · rintro (h | ⟨x, hx, -⟩)
      · cases h with
        | int h hfit =>
          obtain rfl := unique h
          rw [int?_of_holds hfit]
          rfl
        | long h hfit _ =>
          obtain rfl := unique h
          rw [int?_of_not_holds hfit, long?_of_holds hlong]
          rfl
        | double _ hno => exact absurd hlong (hno n hn)
      · exact absurd hx (named hn)
  · have hno (n : Int) (hn : IsInteger (trim text.toList) n) : ¬Ty.long.Holds n :=
      fun hlong => hint ⟨n, hn, hlong⟩
    rw [ofNumeral?_of_no_integer hno, Option.map_eq_some_iff]
    simp only [double?_eq_some_iff]
    constructor
    · rintro ⟨x, ⟨d, hd, rfl⟩ | hx, rfl⟩
      · exact .inl (.double hd hno)
      · exact .inr ⟨x, hx, rfl⟩
    · rintro (h | ⟨x, hx, rfl⟩)
      · cases h with
        | int h hfit => exact absurd (Ty.holds_long_of_int hfit) (hno _ h)
        | long h _ hlong => exact absurd hlong (hno _ h)
        | double hd => exact ⟨_, .inl ⟨_, hd, rfl⟩, rfl⟩
      · exact ⟨x, .inr hx, rfl⟩

theorem toNumber_text_eq_ok_iff : toNumber (.str text) false = .ok v ↔
    Reads (trim text.toList) v ∨ ∃ x, IsName (trim text.toList) x ∧ v = .double x := by
  rw [← ofNumeral?_eq_some_iff]
  simp only [toNumber]
  cases ofNumeral? text with
  | none => simp
  | some w => simp

/-- The names of infinity and of "not a number" are read as numbers, although they are no decimal numerals. -/
theorem toNumber_of_name {x : Float} (hm : Padded m text.toList) (hx : IsName m x) :
    toNumber (.str text) false = .ok (.double x) ∧ ¬∃ m d, Padded m text.toList ∧ IsDecimal m d := by
  obtain rfl := hm.trim_eq hx.solid
  constructor
  · exact toNumber_text_eq_ok_iff.mpr (.inr ⟨x, hx, rfl⟩)
  · rw [exists_padded_decimal_iff]
    rintro ⟨d, hd⟩
    exact hx.not_isDecimal hd

/-- Text is read as a number if it is a decimal numeral between blanks, unless it names infinity or "not a number":
those names are read too, although they are no decimal numerals. A decimal numeral gives an integer of the smallest
type if it is one of at most 64 bits, and else a floating-point number. -/
theorem lax_reads_numerals (text : String) :
    let read := toNumber (.str text) false
    (∀ m x, Padded m text.toList → IsName m x →
      read = .ok (.double x) ∧ ¬∃ m d, Padded m text.toList ∧ IsDecimal m d) ∧
    ((∀ m x, Padded m text.toList → ¬IsName m x) →
      ((∃ v, read = .ok v) ↔ ∃ m d, Padded m text.toList ∧ IsDecimal m d) ∧
        ∀ v, read = .ok v ↔ ∃ m, Padded m text.toList ∧ Reads m v) := by
  intro read
  refine ⟨fun m x hm hx => toNumber_of_name hm hx, ?_⟩
  intro hname
  have hiff (v : Value) : read = .ok v ↔ Reads (trim text.toList) v := by
    rw [toNumber_text_eq_ok_iff]
    apply or_iff_left
    rintro ⟨x, hx, -⟩
    exact hname _ x (padded_trim _) hx
  constructor
  · rw [exists_padded_decimal_iff]
    constructor
    · rintro ⟨v, hv⟩
      exact ((hiff v).mp hv).isDecimal
    · rintro ⟨d, hd⟩
      obtain ⟨v, hv⟩ := hd.reads
      exact ⟨v, (hiff v).mpr hv⟩
  · intro v
    rw [hiff v, exists_padded_iff fun m (h : Reads m v) => ?_]
    obtain ⟨d, hd⟩ := h.isDecimal
    exact hd.solid

/-- The least integer that needs more than 32 bits, with a sign, between blanks. -/
theorem lax_reads_numerals_long :
    let text := " +2147483648\n"
    (∀ m x, Padded m text.toList → ¬IsName m x) ∧ toNumber (.str text) false = .ok (.long 2147483648) := by
  intro text
  have htrim : trim text.toList = "+2147483648".toList := by decide
  have hname : ∀ m x, Padded m text.toList → ¬IsName m x := by
    intro m x hm hx
    have hnone := hx.decimal?_eq_none
    rw [← hm.trim_eq hx.solid, htrim] at hnone
    exact absurd hnone (by decide)
  have hinteger : IsInteger "+2147483648".toList 2147483648 := int?_eq_some_iff.mp (by decide)
  have hpadded : Padded "+2147483648".toList text.toList := htrim ▸ padded_trim text.toList
  refine ⟨hname, (((lax_reads_numerals text).2 hname).2 _).mpr ⟨_, hpadded, ?_⟩⟩
  exact .long hinteger (by decide) (by decide)

/-- A name of infinity is read as a number. -/
theorem lax_reads_infinity :
    toNumber (.str "inf") false = .ok (.double (1.0 / 0.0)) ∧
      ¬∃ m d, Padded m "inf".toList ∧ IsDecimal m d := by
  have htrim : trim "inf".toList = "inf".toList := by decide
  have hpadded : Padded "inf".toList "inf".toList := by simpa only [htrim] using padded_trim "inf".toList
  have hname : IsName "inf".toList (1.0 / 0.0) := .infinite .none (.inl (by decide))
  exact toNumber_of_name hpadded hname

end Value

end ExprCore
