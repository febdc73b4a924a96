import Limn.Yaml.Scalar
import Limn.Yaml.Writer
import Mathlib.Tactic

/-! # Numerals

Digits of a number denote the number again, in the decimal notation of integers and in the
hexadecimal notation of escapes.
-/

namespace Limn

namespace Text

/-! ## Rows of digits -/

theorem ofDigits_concat (base d : Nat) (ds : List Nat) :
    ofDigits base (ds ++ [d]) = ofDigits base ds * base + d := by
  simp [ofDigits]

theorem ofDigits_zeros (base k : Nat) (ds : List Nat) :
    ofDigits base (List.replicate k 0 ++ ds) = ofDigits base ds := by
  induction k with
  | zero => rfl
  | succ k ih => simpa [ofDigits, List.replicate_succ] using ih

/-- **Digits denote their number**, and only zero starts with the digit zero. -/
theorem toDigits_eq {base : Nat} (hbase : 1 < base) (n : Nat) :
    ∃ ds : List Nat, Nat.toDigits base n = ds.map Nat.digitChar ∧ (∀ d ∈ ds, d < base) ∧
      ofDigits base ds = n ∧ (n ≠ 0 → ds.head? ≠ some 0) := by
  induction n using Nat.strong_induction_on with
  | _ n ih =>
      by_cases hlt : n < base
      · refine ⟨[n], ?_, by simpa using hlt, by simp [ofDigits], by simp⟩
        rw [Nat.toDigits_of_lt_base hlt]
        rfl
      · have hle : base ≤ n := by omega
        have hsmall : n / base < n := Nat.div_lt_self (by omega) hbase
        obtain ⟨ds, heq, hds, hvalue, hhead⟩ := ih (n / base) hsmall
        refine ⟨ds ++ [n % base], ?_, ?_, ?_, fun _ => ?_⟩
        · rw [Nat.toDigits_of_base_le hbase hle, heq]
          simp
        · intro d hd
          rcases List.mem_append.1 hd with hd | hd
          · exact hds d hd
          · rw [List.mem_singleton.1 hd]
            exact Nat.mod_lt _ (by omega)
        · rw [ofDigits_concat, hvalue]
          exact Nat.div_add_mod' n base
        · have hne : ds ≠ [] := by
            rintro rfl
            exact Nat.toDigits_ne_nil heq
          rw [List.head?_append_of_ne_nil _ hne]
          exact hhead (Nat.ne_of_gt (Nat.div_pos hle (by omega)))

theorem mapM_map_some {α β : Type} {f : α → β} {g : β → Option α} :
    ∀ {as : List α}, (∀ a ∈ as, g (f a) = some a) → (as.map f).mapM g = some as
  | [], _ => rfl
  | a :: as, h => by
      rw [List.map_cons, List.mapM_cons, h a List.mem_cons_self,
        mapM_map_some fun b hb => h b (List.mem_cons_of_mem _ hb)]
      rfl

/-! ## Decimal numerals -/

theorem trimWhile_eq_self {p : Char → Bool} {cs : List Char} (h : ∀ x ∈ cs, p x = false) :
    trimWhile p cs = cs := by
  have hdrop : ∀ {cs : List Char}, (∀ x ∈ cs, p x = false) → cs.dropWhile p = cs := by
    intro cs h
    cases cs with
    | nil => rfl
    | cons x cs => rw [List.dropWhile_cons_of_neg (by simp [h x])]
  rw [trimWhile, hdrop h, hdrop (by simpa using h), List.reverse_reverse]

theorem digitValue?_digitChar {d : Nat} (h : d < 10) : digitValue? (Nat.digitChar d) = some d := by
  interval_cases d <;> rfl

theorem digitChar_plain {d : Nat} (h : d < 10) :
    isAsciiDigit (Nat.digitChar d) = true ∧ isNumeralBlank (Nat.digitChar d) = false := by
  interval_cases d <;> decide

theorem numeralDigits?_map : ∀ {ds : List Nat}, ds ≠ [] → (∀ d ∈ ds, d < 10) →
    numeralDigits? (ds.map Nat.digitChar) = some ds
  | [], h, _ => absurd rfl h
  | [d], _, h => by simp [numeralDigits?, digitValue?_digitChar (h d List.mem_cons_self)]
  | d :: e :: ds, _, h => by
      have hrest := numeralDigits?_map (List.cons_ne_nil e ds)
        fun x hx => h x (List.mem_cons_of_mem _ hx)
      have hbar : Nat.digitChar e ≠ '_' := by
        have he := h e (by simp)
        interval_cases e <;> decide
      rw [List.map_cons] at hrest
      simp [numeralDigits?, digitValue?_digitChar (h d List.mem_cons_self), hbar, hrest]

theorem length_toDigits_le {n k : Nat} (hk : 0 < k) (h : n < Decimal.pow10 k) :
    (Nat.toDigits 10 n).length ≤ k :=
  (Nat.length_toDigits_le_iff (by decide) hk).2 h

theorem natural?_toDigits {n : Nat} (h : n < Decimal.pow10 mostDigits) :
    natural? (Nat.toDigits 10 n) = some n := by
  obtain ⟨ds, heq, hds, hvalue, -⟩ := toDigits_eq (by decide : 1 < 10) n
  have hne : ds ≠ [] := by
    rintro rfl
    exact Nat.toDigits_ne_nil heq
  have hlength : ds.length ≤ mostDigits := by
    rw [← List.length_map (f := Nat.digitChar), ← heq]
    exact length_toDigits_le (by decide) h
  rw [heq]
  simp [natural?, numeralDigits?_map hne hds, hlength, hvalue]

/-- **A decimal numeral reads back**, unless it is too long. -/
theorem integer?_toDigits {n : Nat} (h : n < Decimal.pow10 mostDigits) :
    integer? (String.ofList (Nat.toDigits 10 n)) = some (n : Int) := by
  have hnatural := natural?_toDigits h
  obtain ⟨ds, heq, hds, -, -⟩ := toDigits_eq (by decide : 1 < 10) n
  have hne : ds ≠ [] := by
    rintro rfl
    exact Nat.toDigits_ne_nil heq
  have htrim : trimNumeral (ds.map Nat.digitChar) = ds.map Nat.digitChar := by
    refine trimWhile_eq_self fun x hx => ?_
    obtain ⟨d, hd, rfl⟩ := List.mem_map.1 hx
    exact (digitChar_plain (hds d hd)).2
  rw [heq] at hnatural
  rw [heq, integer?, String.toList_ofList, integerOf?, htrim]
  obtain ⟨d, ds, rfl⟩ := List.exists_cons_of_ne_nil hne
  have hsign : Nat.digitChar d ≠ '-' ∧ Nat.digitChar d ≠ '+' := by
    have hd := hds d List.mem_cons_self
    interval_cases d <;> decide
  rw [List.map_cons] at hnatural ⊢
  split
  · simp_all
  · simp_all
  · rw [hnatural]
    rfl

end Text

/-! ## Hexadecimal digits in escapes -/

namespace Yaml

open Writer

theorem hexValue?_upper {d : Nat} (h : d < 16) :
    Text.hexValue? (Nat.digitChar d).toUpper = some d := by
  interval_cases d <;> rfl

/-- **Escapes name their character.** The digits of a number fill the width, and read back. -/
theorem toList_upperHex {width n : Nat} (hw : 0 < width) (hn : n < 16 ^ width) :
    ∃ ds : List Nat, (upperHex width n).toList = ds.map (fun d => (Nat.digitChar d).toUpper) ∧
      ds.length = width ∧ (∀ d ∈ ds, d < 16) ∧ Text.ofDigits 16 ds = n := by
  obtain ⟨ds, heq, hds, hvalue, -⟩ := Text.toDigits_eq (by decide : 1 < 16) n
  have hlength : ds.length ≤ width := by
    rw [← List.length_map (f := Nat.digitChar), ← heq]
    exact (Nat.length_toDigits_le_iff (by decide) hw).2 hn
  refine ⟨List.replicate (width - ds.length) 0 ++ ds, ?_, ?_, ?_, ?_⟩
  · simp [upperHex, Text.hex, String.toUpper, heq]
    rfl
  · simp
    omega
  · intro d hd
    rcases List.mem_append.1 hd with hd | hd
    · rw [List.eq_of_mem_replicate hd]
      decide
    · exact hds d hd
  · rw [Text.ofDigits_zeros, hvalue]

/-! ## Integers as scalars -/

section Integers

open Scalar

/-- The digits of an integer, without its sign. -/
theorem toDigits_digits (n : Nat) : ∀ x ∈ Nat.toDigits 10 n, Text.isAsciiDigit x = true := by
  obtain ⟨ds, heq, hds, -, -⟩ := Text.toDigits_eq (by decide : 1 < 10) n
  intro x hx
  rw [heq] at hx
  obtain ⟨d, hd, rfl⟩ := List.mem_map.1 hx
  exact (Text.digitChar_plain (hds d hd)).1

theorem toDigits_head {n : Nat} (hn : n ≠ 0) :
    ∃ x cs, Nat.toDigits 10 n = x :: cs ∧ x ≠ '0' := by
  obtain ⟨ds, heq, hds, -, hhead⟩ := Text.toDigits_eq (by decide : 1 < 10) n
  cases ds with
  | nil => exact absurd heq Nat.toDigits_ne_nil
  | cons d ds =>
      refine ⟨_, _, heq, ?_⟩
      have hd := hds d List.mem_cons_self
      have hne : d ≠ 0 := by simpa using hhead hn
      interval_cases d <;> first | contradiction | decide

theorem ne_of_isAsciiDigit {c d : Char} (hc : Text.isAsciiDigit c = true)
    (hd : Text.isAsciiDigit d = false) : c ≠ d := by
  rintro rfl
  rw [hc] at hd
  cases hd

theorem toList_intText (n : Int) : (Value.intText n).toList =
    (if n < 0 then ['-'] else []) ++ Nat.toDigits 10 n.natAbs := by
  unfold Value.intText
  split <;> simp

theorem unsigned_intText (n : Int) :
    unsigned (Value.intText n).toList = Nat.toDigits 10 n.natAbs := by
  rw [toList_intText]
  split
  · rfl
  · have hall := toDigits_digits n.natAbs
    cases h : Nat.toDigits 10 n.natAbs with
    | nil => exact absurd h Nat.toDigits_ne_nil
    | cons x cs =>
        have hx := hall x (by simp [h])
        have hminus := ne_of_isAsciiDigit hx (d := '-') (by decide)
        have hplus := ne_of_isAsciiDigit hx (d := '+') (by decide)
        rw [List.nil_append]
        unfold unsigned
        split <;> simp_all

/-- Only digits and a sign stand in the numeral, and it ends with a digit. -/
theorem intText_chars (n : Int) : (∀ x ∈ (Value.intText n).toList,
    x = '-' ∨ Text.isAsciiDigit x = true) ∧
      ∃ x ∈ (Value.intText n).toList.getLast?, Text.isAsciiDigit x = true := by
  have hall := toDigits_digits n.natAbs
  rw [toList_intText]
  constructor
  · intro x hx
    rcases List.mem_append.1 hx with hx | hx
    · split at hx
      · exact .inl (List.mem_singleton.1 hx)
      · cases hx
    · exact .inr (hall x hx)
  · rw [List.getLast?_append_of_ne_nil _ Nat.toDigits_ne_nil,
      List.getLast?_eq_some_getLast Nat.toDigits_ne_nil]
    exact ⟨_, rfl, hall _ (List.getLast_mem _)⟩

theorem colonParts_of_digits {cs : List Char} (h : ∀ x ∈ cs, Text.isAsciiDigit x = true) :
    colonParts cs = [cs] := by
  refine List.splitOnP_eq_singleton fun x hx => ?_
  rw [beq_eq_false_iff_ne]
  exact ne_of_isAsciiDigit (h x hx) (by decide)

theorem isInt_intText (n : Int) : isInt (Value.intText n).toList = true := by
  unfold isInt
  rw [unsigned_intText]
  by_cases hn : n.natAbs = 0
  · rw [hn, Nat.toDigits_zero]
    decide
  · obtain ⟨x, cs, h, hx⟩ := toDigits_head hn
    have hall := toDigits_digits n.natAbs
    rw [h] at hall ⊢
    split
    · simp_all
    · simp_all
    · rfl
    · simp_all
    · have hbar : ∀ y ∈ cs, isDigitOrBar y = true := fun y hy => by
        simp [isDigitOrBar, hall y (List.mem_cons_of_mem _ hy)]
      rw [colonParts_of_digits hall]
      simp only [isPositiveRow, isDigitRow, hall x List.mem_cons_self, List.head?_cons]
      simpa [hx] using hbar

theorem isFloat_intText (n : Int) : isFloat (Value.intText n).toList = false := by
  have hdrop : (Nat.toDigits 10 n.natAbs).dropWhile (· != '.') = [] := by
    have hall : ∀ x ∈ Nat.toDigits 10 n.natAbs, (x != '.') = true := fun x hx => by
      have hdot := ne_of_isAsciiDigit (toDigits_digits _ x hx) (d := '.') (by decide)
      simpa using hdot
    rw [← List.append_nil (Nat.toDigits 10 n.natAbs), List.dropWhile_append_of_pos hall]
    rfl
  unfold isFloat
  simp only [unsigned_intText, List.span_eq_takeWhile_dropWhile, hdrop]

/-- A word that ends with no digit is no numeral. -/
theorem intText_ne {n : Int} {w : String}
    (hw : (w.toList.getLast?.map Text.isAsciiDigit).getD false = false) : Value.intText n ≠ w := by
  rintro rfl
  obtain ⟨x, hx, hdigit⟩ := (intText_chars n).2
  rw [Option.mem_def.1 hx] at hw
  simp [hdigit] at hw

theorem withoutLineFeed_intText (n : Int) :
    withoutLineFeed (Value.intText n).toList = (Value.intText n).toList := by
  obtain ⟨x, hx, hdigit⟩ := (intText_chars n).2
  have hne := ne_of_isAsciiDigit hdigit (d := '\n') (by decide)
  simp [withoutLineFeed, Option.mem_def.1 hx, hne]

theorem typeOf_intText (n : Int) : typeOf (Value.intText n) = .int := by
  have hwords : (boolWords.any fun p => isCased p.1 (Value.intText n)) = false := by
    simp only [List.any_eq_false, isCased, Bool.not_eq_true, Bool.or_eq_false_iff,
      beq_eq_false_iff_ne]
    intro w hw
    refine ⟨⟨intText_ne ?_, intText_ne ?_⟩, intText_ne ?_⟩
    · revert w
      decide
    · revert w
      decide +kernel
    · rw [String.toUpper, String.toList_map]
      revert w
      decide
  rw [typeOf, if_neg (by simpa using intText_ne (by decide)), withoutLineFeed_intText,
    String.ofList_toList, typeOfLine]
  simp [hwords, isFloat_intText, isInt_intText]

theorem bare_intText (n : Int) :
    (Value.intText n).toList.filter (· != '_') = (Value.intText n).toList := by
  refine List.filter_eq_self.2 fun x hx => ?_
  rcases (intText_chars n).1 x hx with rfl | hdigit
  · rfl
  · have hne := ne_of_isAsciiDigit hdigit (d := '_') (by decide)
    simpa using hne

theorem head_intText (n : Int) : ((Value.intText n).toList.head? == some '-') = decide (n < 0) := by
  rw [toList_intText]
  split
  · rename_i hn
    simp [hn]
  · rename_i hn
    rw [List.nil_append, decide_eq_false hn, beq_eq_false_iff_ne]
    intro hhead
    exact absurd (toDigits_digits _ '-' (List.mem_of_mem_head? hhead)) (by decide)

theorem intValue_intText {n : Int} (h : n.natAbs < Decimal.pow10 Text.mostDigits) :
    intValue (Value.intText n).toList = .ok n := by
  have hne : (Value.intText n).toList.isEmpty = false := by
    obtain ⟨x, hx, -⟩ := (intText_chars n).2
    rw [List.isEmpty_eq_false_iff]
    intro hnil
    rw [hnil] at hx
    cases hx
  have hall := toDigits_digits n.natAbs
  have hcolon : (Nat.toDigits 10 n.natAbs).contains ':' = false := by
    rw [List.contains_eq_mem, decide_eq_false_iff_not]
    intro hmem
    exact absurd (hall ':' hmem) (by decide)
  have hnat := Text.integer?_toDigits h
  clear h
  have hsign : (if n < 0 then -(n.natAbs : Int) else (n.natAbs : Int)) = n := by
    split <;> omega
  unfold intValue
  simp only [hne, unsigned_intText, head_intText, decide_eq_true_eq]
  by_cases hn : n.natAbs = 0
  · have hzero : n = 0 := Int.natAbs_eq_zero.1 hn
    subst hzero
    rfl
  · obtain ⟨x, cs, hdigits, hx⟩ := toDigits_head hn
    rw [hdigits] at hcolon hnat ⊢
    rw [if_neg Bool.false_ne_true]
    -- The numeral starts with no zero, so it is in base ten.
    split
    · rename_i hnil
      cases hnil
    · simp_all
    · simp_all
    · simp_all
    · simp_all
    · rw [hcolon, if_neg Bool.false_ne_true, hnat]
      exact congrArg Except.ok hsign

/-- **An integer reads back as itself.** -/
theorem value_intText {n : Int} (h : Value.hasNumeral n = true) :
    Scalar.value .int (Value.intText n) = .ok (.int n) := by
  have hlt : n.natAbs < Decimal.pow10 Text.mostDigits := of_decide_eq_true h
  have hvalue : Scalar.value .int (Value.intText n) =
      (intValue ((Value.intText n).toList.filter (· != '_'))).map .int := rfl
  rw [hvalue, bare_intText, intValue_intText hlt]
  rfl

end Integers

end Yaml

end Limn
